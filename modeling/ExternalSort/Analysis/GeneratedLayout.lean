import ExternalSort.Analysis.GeneratedField
import ExternalSort.Analysis.BsortRun

/-!
# The generated lines and the layout of the readers

A generated line has the layout of the schema exactly if every column of the schema has
got a field of its declared length (`generated_line_iff_fields`): a field that is left out
is missed in the count of the fields.  The readers add up the place of a field in an `int`, so
every field has to begin below `2 ^ 31`.  For the columns the generator is meant for,
`fieldWritten_iff_fits` says which draws give such a field.  The numbers drawn are taken as
exact decimal fractions here.
-/

set_option autoImplicit false

namespace ExternalSort.Analysis

open ExternalSort.Lib ExternalSort.Model

/-- The type that is written with a point. -/
def floatType : List Byte := [102, 108, 111, 97, 116]

/-- The columns the generator is meant for: strings without a distribution, integers that
are uniform over numbers of at most the length of the column, and normal numbers. -/
inductive GeneratorColumn : JsonAttribute → Prop
  | string (name type : Option (List Byte)) (length : Int32) (h : 1 ≤ length.toInt) :
      GeneratorColumn ⟨name, type, some length, none⟩
  | integer (name : Option (List Byte)) (length : Int32) (min max : ℚ) (h : 0 ≤ length.toInt)
      (hmin : 0 ≤ min) (hlt : min < max) (hmax : max ≤ 10 ^ length.toInt.toNat) :
      GeneratorColumn ⟨name, some integerType, some length, some (.uniform min max)⟩
  | float (name : Option (List Byte)) (length : Int32) (mu sigma : ℚ) (h : 3 ≤ length.toInt) :
      GeneratorColumn ⟨name, some floatType, some length, some (.normal mu sigma)⟩

/-- The length of a column, as it is read. -/
def declaredLength (col : JsonAttribute) : ℤ := (readAttribute col).length.toInt

/-- A possible draw: `uniform` keeps to its bounds, both included, and the integer part of
a normal number leaves room for the point and a digit behind it. -/
def Outcome (col : JsonAttribute) (draw : Draw) : Prop :=
  match col.distribution with
  | some (.uniform min max) => min ≤ draw.number ∧ draw.number ≤ max
  | some (.normal _ _) =>
      ((integerPart (roundHundredths draw.number / 100)).length : ℤ) + 2 ≤ declaredLength col
  | _ => True

/-- The draws that give a field of the declared length.  Zero is not written; `max` itself
may have a digit too many; a normal number may not be written in scientific notation, nor
carry into a new digit when it is rounded to its only place, nor take more than 28 digits. -/
def Fits (col : JsonAttribute) (draw : Draw) : Prop :=
  match col.distribution with
  | some (.uniform _ _) => 1 ≤ draw.number ∧ draw.number < 10 ^ (declaredLength col).toNat
  | some (.normal _ _) =>
      let z := roundHundredths draw.number
      let places := placesFor (declaredLength col) (z / 100)
      z ≠ 0 ∧ z.natAbs + 5 < 10 ^ 13 ∧
        (places = 1 → z.natAbs + 5 < 10 ^ ((decimalNat (z.natAbs / 100)).length + 2)) ∧
        z.natAbs * 10 ^ places < 10 ^ 30
  | _ => True

/-- INTERNAL: the column has got a field of its length. -/
def FieldWritten (toFloat : ℚ → ℚ) (col : JsonAttribute) (draw : Draw) : Prop :=
  ∃ s, recordData toFloat col draw = .ok (some s) ∧ s ≠ [] ∧ (s.length : ℤ) = declaredLength col

section Columns

variable {toFloat : ℚ → ℚ} {draw : Draw} {col : JsonAttribute} {distribution : Distribution}
  {v : Value}

/-- INTERNAL: zero is not written.
SRCLINE: data_generator.py:47 -/
theorem recordData_of_zero (hdist : col.distribution = some distribution)
    (hdraw : drawValue toFloat draw distribution = some v) (hzero : v.toRat = 0) :
    recordData toFloat col draw = .ok none := by
  simp only [recordData, hdist, hdraw, hzero, if_pos]

/-- INTERNAL: any other value is formatted.
SRCLINE: data_generator.py:47-53 -/
theorem recordData_of_value {length : Int32} (hdist : col.distribution = some distribution)
    (hdraw : drawValue toFloat draw distribution = some v) (hlength : col.length = some length)
    (hne : v.toRat ≠ 0) :
    recordData toFloat col draw = (formatValue col.type length.toInt v).map some := by
  simp only [recordData, hdist, hdraw, hlength, if_neg hne]

/-- INTERNAL: a field is written exactly if it is formatted without an exception. -/
theorem map_some_eq_ok_iff {x : Except GeneratorError (List Byte)} {s : List Byte} :
    x.map some = .ok (some s) ↔ x = .ok s := by
  cases x with
  | error e => exact iff_of_false nofun nofun
  | ok t =>
    change Except.ok (some t) = Except.ok (some s) ↔ _
    simp

/-- INTERNAL: the field of a column with a distribution is that of its value, which is not
zero. -/
theorem fieldWritten_iff {length : Int32} (hdist : col.distribution = some distribution)
    (hdraw : drawValue toFloat draw distribution = some v) (hlength : col.length = some length) :
    FieldWritten toFloat col draw ↔ v.toRat ≠ 0 ∧
      ∃ s, formatValue col.type length.toInt v = .ok s ∧ (s.length : ℤ) = length.toInt := by
  have hdeclared : declaredLength col = length.toInt := by
    rw [declaredLength, readAttribute, hlength, Option.getD_some]
  unfold FieldWritten
  rw [hdeclared]
  by_cases hzero : v.toRat = 0
  · rw [recordData_of_zero hdist hdraw hzero]
    exact iff_of_false (by simp) fun h => h.1 hzero
  · rw [recordData_of_value hdist hdraw hlength hzero]
    constructor
    · rintro ⟨s, hs, -, hlen⟩
      exact ⟨hzero, s, map_some_eq_ok_iff.mp hs, hlen⟩
    · rintro ⟨-, s, hs, hlen⟩
      exact ⟨s, map_some_eq_ok_iff.mpr hs, (formatValue_clean hzero hs).2, hlen⟩

/-- INTERNAL: a positive integer fits if it has no more digits than the column.
SRCLINE: data_generator.py:49 -/
theorem zfill_fits_iff {n length : ℤ} (hn : 0 < n) (hlength : 0 ≤ length) :
    ((zfill (decimalInt n) length).length : ℤ) = length ↔ n < 10 ^ length.toNat := by
  have habs : (n.natAbs : ℤ) = n := by omega
  have hminus : minus (n : ℚ) = [] := if_neg (not_lt.mpr (by exact_mod_cast hn.le))
  have hhead : (decimalNat n.natAbs).head? ≠ some 45 := fun h =>
    (digits_decimalNat n.natAbs).not_mem (by decide) (List.mem_of_head? h)
  rw [decimalInt_eq, length_zfill hhead, max_eq_right_iff, hminus, List.nil_append]
  have hpow : n < 10 ^ length.toNat ↔ n.natAbs < 10 ^ length.toNat := by
    rw [← habs]
    norm_cast
  rw [hpow]
  constructor
  · intro hle
    exact (lt_pow_length_decimalNat n.natAbs).trans_le
      (Nat.pow_le_pow_right (by decide) (by omega))
  · intro hlt
    have hpos : 1 ≤ length.toNat := by
      by_contra hzero
      rw [show length.toNat = 0 by omega, pow_zero] at hlt
      omega
    have := length_decimalNat_le hpos hlt
    omega

/-- INTERNAL: **which draws give a field of the declared length.** -/
theorem fieldWritten_iff_fits (hcol : GeneratorColumn col) (hout : Outcome col draw) :
    FieldWritten id col draw ↔ Fits col draw := by
  cases hcol with
  | string name type length h =>
    have hlen : ((List.range length.toInt.toNat).map fun i => alphabet (draw.letters i)).length =
        length.toInt.toNat := by
      rw [List.length_map, List.length_range]
    refine iff_of_true ⟨_, rfl, List.length_pos_iff.mp (by omega), ?_⟩ trivial
    rw [hlen, declaredLength, readAttribute]
    exact Int.toNat_of_nonneg (by omega)
  | integer name length min max h hmin hlt hmax =>
    have hnonneg : 0 ≤ draw.number := hmin.trans hout.1
    have hvalue : drawValue id draw (.uniform min max) = some (.int ⌊draw.number⌋) := by
      rw [drawValue, truncate, if_pos hnonneg]
    have hfloor : 0 ≤ ⌊draw.number⌋ := Int.floor_nonneg.mpr hnonneg
    rw [fieldWritten_iff rfl hvalue rfl]
    simp only [Fits, Value.toRat, formatValue, if_pos, Value.str, Except.ok.injEq,
      exists_eq_left']
    have hone : (⌊draw.number⌋ : ℚ) ≠ 0 ↔ 1 ≤ draw.number := by
      rw [Int.cast_ne_zero, ← Int.cast_one, ← Int.le_floor]
      omega
    have hpow : ⌊draw.number⌋ < 10 ^ length.toInt.toNat ↔
        draw.number < 10 ^ length.toInt.toNat := by
      rw [Int.floor_lt, Int.cast_pow, Int.cast_ofNat]
    rw [hone]
    refine and_congr_right fun hpos => ?_
    rw [zfill_fits_iff (Int.floor_pos.mpr hpos) h, hpow]
    rfl
  | float name length mu sigma h =>
    have htype : some floatType ≠ some integerType := by decide
    have habs : |(roundHundredths draw.number : ℚ) / 100| =
        ((roundHundredths draw.number).natAbs : ℚ) / 100 := by
      rw [abs_div, Nat.cast_natAbs, Int.cast_abs]
      norm_num
    rw [fieldWritten_iff rfl rfl rfl]
    have hzero : (Value.float ((roundHundredths draw.number : ℚ) / 100)).toRat ≠ 0 ↔
        roundHundredths draw.number ≠ 0 := by simp [Value.toRat]
    exact (and_congr_right fun hx => format_float_iff htype hx habs hout).trans
      (and_congr_left fun _ => hzero)

end Columns

section Records

variable {toFloat : ℚ → ℚ} {cols : List JsonAttribute} {draws : ℕ → Draw}
  {record : List (List Byte)}

/-- INTERNAL: no field breaks the line. -/
theorem clean_recordData {col : JsonAttribute} {draw : Draw} {s : List Byte}
    (h : recordData toFloat col draw = .ok (some s)) : Clean s := by
  unfold recordData at h
  split at h
  · split at h
    · cases h
    · split_ifs at h with hzero
      · cases h
      · split at h
        · cases h
        · exact (formatValue_clean hzero (map_some_eq_ok_iff.mp h)).1
  · split at h
    · cases h
    · cases h
      rw [show (fun i => alphabet (draw.letters i)) = alphabet ∘ draw.letters from rfl,
        ← List.map_map]
      exact clean_alphabet _

/-- INTERNAL: one round of the loop over the columns.
SRCLINE: data_generator.py:34-60 -/
theorem generateRecord_cons_ok_iff {col : JsonAttribute} :
    generateRecord toFloat (col :: cols) draws = .ok record ↔
      ∃ data rest, recordData toFloat col (draws 0) = .ok data ∧
        generateRecord toFloat cols (fun i => draws (i + 1)) = .ok rest ∧
        record = (data.filter (· ≠ [])).toList ++ rest := by
  rw [generateRecord]
  cases hdata : recordData toFloat col (draws 0) with
  | error e => exact iff_of_false nofun fun ⟨_, _, h, _⟩ => nomatch h
  | ok data =>
    cases hrest : generateRecord toFloat cols fun i => draws (i + 1) with
    | error e => exact iff_of_false nofun fun ⟨_, _, _, h, _⟩ => nomatch h
    | ok rest =>
      constructor
      · intro h
        exact ⟨data, rest, rfl, rfl, (Except.ok.inj h).symm⟩
      · rintro ⟨data', rest', hd, hr, rfl⟩
        cases hd
        cases hr
        rfl

/-- INTERNAL: if every column gets its field, these are the record. -/
theorem generateRecord_of_fields
    (h : ∀ i (hi : i < cols.length), FieldWritten toFloat cols[i] (draws i)) :
    ∃ record, generateRecord toFloat cols draws = .ok record ∧
      (record.map fun s => (s.length : ℤ)) = cols.map declaredLength := by
  induction cols generalizing draws with
  | nil => exact ⟨[], rfl, rfl⟩
  | cons col cols ih =>
    obtain ⟨s, hs, hne, hlen⟩ := h 0 (Nat.succ_pos _)
    obtain ⟨rest, hrest, hlens⟩ := @ih (fun i => draws (i + 1))
      fun i hi => h (i + 1) (Nat.succ_lt_succ hi)
    refine ⟨s :: rest, generateRecord_cons_ok_iff.mpr ⟨some s, rest, hs, hrest, ?_⟩, ?_⟩
    · simp [Option.filter, hne]
    · rw [List.map_cons, List.map_cons, hlens, hlen, List.getElem_cons_zero]

/-- INTERNAL: what a record is made of, and when no field is missing. -/
theorem generateRecord_spec (h : generateRecord toFloat cols draws = .ok record) :
    (∀ s ∈ record, s ≠ [] ∧ Clean s) ∧ record.length ≤ cols.length ∧
    (record.length = cols.length → ∀ i (hi : i < cols.length) (hi' : i < record.length),
      recordData toFloat cols[i] (draws i) = .ok (some record[i])) := by
  induction cols generalizing draws record with
  | nil =>
    cases h
    exact ⟨nofun, le_rfl, nofun⟩
  | cons col cols ih =>
    obtain ⟨data, rest, hdata, hrest, rfl⟩ := generateRecord_cons_ok_iff.mp h
    obtain ⟨hclean, hle, hall⟩ := ih hrest
    by_cases hkept : ∃ s, data = some s ∧ s ≠ []
    · obtain ⟨s, rfl, hne⟩ := hkept
      have hfilter : ((some s).filter fun t => decide (t ≠ [])).toList = [s] := by
        simp [Option.filter, hne]
      rw [hfilter]
      refine ⟨?_, Nat.succ_le_succ hle, ?_⟩
      · intro t ht
        rcases List.mem_cons.mp ht with rfl | ht
        · exact ⟨hne, clean_recordData hdata⟩
        · exact hclean t ht
      · intro hlen i hi hi'
        cases i with
        | zero => exact hdata
        | succ i =>
          exact hall (Nat.succ_inj.mp hlen) i (Nat.succ_lt_succ_iff.mp hi)
            (Nat.succ_lt_succ_iff.mp hi')
    · -- the field is left out, so there are too few
      have hfilter : (data.filter fun t => decide (t ≠ [])).toList = [] := by
        cases data with
        | none => rfl
        | some t =>
          have ht : t = [] := by_contra fun ht => hkept ⟨t, rfl, ht⟩
          simp [ht]
      rw [hfilter, List.nil_append]
      refine ⟨hclean, hle.trans (Nat.le_succ _), fun hlen => ?_⟩
      rw [List.length_cons] at hlen
      omega

end Records

/-- The fields of a line: what commas separate, up to the end of the line. -/
def lineFields (line : List Byte) : List (List Byte) :=
  List.splitOn 44 (line.takeWhile (· ≠ 10))

/-- A line has the layout of a schema: it has the size of a record and one field for every
attribute, and the field of an attribute is at the offset, an `int`, where the attribute is
read.
SRCLINE: library.cc:12-33, library.cc:58-65 -/
structure LineAgrees (schema : Schema) (line : List Byte) : Prop where
  size : line.length = schema.recordSize
  count : (lineFields line).length = schema.attrs.length
  field : ∀ i (hi : i < (lineFields line).length),
    ((lineFields line)[i].length : ℤ) = attrLength schema i ∧ 0 ≤ offsetToAttribute schema i ∧
    (line.drop (offsetToAttribute schema i).toNat).take (attrLength schema i).toNat =
      (lineFields line)[i]

section Lines

variable {toFloat : ℚ → ℚ} {root : JsonArray} {schema : Schema} {draws : ℕ → Draw}

/-- INTERNAL: the fields of a record are found again in its line. -/
theorem lineFields_joined {record : List (List Byte)} (hne : record ≠ [])
    (hclean : ∀ s ∈ record, Clean s) :
    lineFields ([44].intercalate record ++ [10]) = record := by
  have hline : ∀ b ∈ [44].intercalate record, decide (b ≠ 10) = true := by
    intro b hb
    rw [decide_eq_true_iff]
    rintro rfl
    rcases eq_or_mem_of_mem_intercalate hb with h | ⟨s, hs, h⟩
    · cases h
    · exact absurd (hclean s hs 10 h).1 (by decide)
  rw [lineFields, List.takeWhile_append_of_pos hline]
  simp only [ne_eq, List.takeWhile_cons, not_true_eq_false, decide_false, Bool.false_eq_true,
    if_false, List.append_nil]
  exact List.splitOn_intercalate 44 (fun s hs h => (hclean s hs 44 h).2 rfl) hne

/-- INTERNAL: the line of a record.
SRCLINE: data_generator.py:28-29 -/
theorem generateLine_eq_ok_iff {cols : List JsonAttribute} {line : List Byte} :
    generateLine toFloat cols draws = .ok line ↔
      ∃ record, generateRecord toFloat cols draws = .ok record ∧
        [44].intercalate record ++ [10] = line := by
  rw [generateLine]
  cases generateRecord toFloat cols draws with
  | error e => exact iff_of_false nofun fun ⟨_, h, _⟩ => nomatch h
  | ok record =>
    constructor
    · intro h
      exact ⟨record, rfl, Except.ok.inj h⟩
    · rintro ⟨record', h, rfl⟩
      cases h
      rfl

/-- INTERNAL: the length of an attribute that was read. -/
theorem attrLength_of_read (hread : readSchema (some root) = some schema) {i : ℕ}
    (hi : i < root.elems.length) : attrLength schema i = declaredLength root.elems[i] := by
  cases hread
  rw [attrLength, List.getElem?_map, List.getElem?_eq_getElem hi]
  rfl

/-- INTERNAL: the attributes that were read. -/
theorem attrs_of_read (hread : readSchema (some root) = some schema) :
    schema.attrs = root.elems.map readAttribute := by
  cases hread
  rfl

/-- INTERNAL: columns without negative lengths have a layout. -/
theorem layout_of_columns (hread : readSchema (some root) = some schema)
    (hnonneg : ∀ col ∈ root.elems, 0 ≤ declaredLength col) : Layout schema := by
  refine layout_of_read hread fun a ha => ?_
  rw [attrs_of_read hread] at ha
  obtain ⟨col, hcol, rfl⟩ := List.mem_map.mp ha
  exact hnonneg col hcol

/-- Every column begins below `2 ^ 31`. -/
def ColumnsStart (schema : Schema) : Prop :=
  ∀ i < schema.attrs.length, fieldStart schema i < 2 ^ 31

/-- INTERNAL: it can be decided whether the columns start where the fields do. -/
instance (schema : Schema) : Decidable (ColumnsStart schema) :=
  inferInstanceAs (Decidable (∀ i < schema.attrs.length, _))

/-- INTERNAL: **no offset is negative exactly if every column begins below `2 ^ 31`.**  The first
that does not begins below `2 ^ 32`, since no length is above `2 ^ 31`, so its offset is
negative.
SRCLINE: library.cc:58-65 -/
theorem columnsStart_of_offsets (h : Layout schema)
    (hoffset : ∀ i < schema.attrs.length, 0 ≤ offsetToAttribute schema i) :
    ColumnsStart schema := by
  intro i hi
  induction i with
  | zero => exact Nat.two_pow_pos 31
  | succ i ih =>
    have hstart := ih (by omega)
    have hwraps := hoffset (i + 1) hi
    have hshort := (schema.attrs[i]).length.toInt_lt
    have hnext := @fieldStart_succ schema i (by omega)
    rw [span] at hnext
    rw [h.offset_eq, toInt_eq] at hwraps
    split_ifs at hwraps <;> omega

/-- INTERNAL: fields of the declared lengths, one by one. -/
theorem lengths_of_map {record : List (List Byte)} {cols : List JsonAttribute}
    (h : (record.map fun s => (s.length : ℤ)) = cols.map declaredLength) :
    record.length = cols.length ∧ ∀ i (hi : i < record.length) (hi' : i < cols.length),
      (record[i].length : ℤ) = declaredLength cols[i] := by
  refine ⟨by simpa using congrArg List.length h, fun i hi hi' => ?_⟩
  have hget := congrArg (fun l => l[i]?) h
  simpa [hi, hi'] using hget

/-- INTERNAL: fields of the declared lengths take what the schema counts for them. -/
theorem spans_of_lengths (hread : readSchema (some root) = some schema)
    {record : List (List Byte)}
    (h : (record.map fun s => (s.length : ℤ)) = root.elems.map declaredLength) :
    (record.map fun s => s.length + 1) = schema.attrs.map span := by
  obtain ⟨hcount, hlen⟩ := lengths_of_map h
  rw [attrs_of_read hread, List.map_map]
  apply List.ext_getElem (by simp [hcount])
  intro i hi hi'
  rw [List.length_map] at hi hi'
  have hdeclared := hlen i hi hi'
  rw [List.getElem_map, List.getElem_map, Function.comp_apply, span, ← declaredLength,
    ← hdeclared, Int.toNat_natCast]

/-- INTERNAL: a line of fields has the layout exactly if these have the declared lengths and
begin below `2 ^ 31`. -/
theorem lineAgrees_joined_iff (hread : readSchema (some root) = some schema)
    (hnonneg : ∀ col ∈ root.elems, 0 ≤ declaredLength col) {record : List (List Byte)}
    (hne : record ≠ []) (hclean : ∀ s ∈ record, Clean s) :
    LineAgrees schema ([44].intercalate record ++ [10]) ↔
      ColumnsStart schema ∧
        (record.map fun s => (s.length : ℤ)) = root.elems.map declaredLength := by
  have hattrs := attrs_of_read hread
  have hlayout := layout_of_columns hread hnonneg
  have hfields := lineFields_joined hne hclean
  constructor
  · intro hagrees
    have hcount := hagrees.count
    rw [hfields] at hcount
    have hfield := hagrees.field
    rw [hfields] at hfield
    refine ⟨columnsStart_of_offsets hlayout fun i hi => (hfield i (by omega)).2.1, ?_⟩
    rw [hattrs, List.length_map] at hcount
    apply List.ext_getElem (by simp [hcount])
    intro i hi hi'
    rw [List.length_map] at hi hi'
    rw [List.getElem_map, List.getElem_map, (hfield i hi).1, attrLength_of_read hread]
  · rintro ⟨hstarts, hlens⟩
    obtain ⟨hcount, hlen⟩ := lengths_of_map hlens
    obtain ⟨hsize, hplace⟩ := hlayout.joined hne (spans_of_lengths hread hlens) 44 10
    refine ⟨hsize, by rw [hfields, hattrs, List.length_map, hcount], ?_⟩
    rw [hfields]
    intro i hi
    have hdeclared := hlen i hi (hcount ▸ hi)
    rw [← attrLength_of_read hread] at hdeclared
    have hoffset := hlayout.offset_of_lt (hstarts i (by rw [hattrs, List.length_map]; omega))
    refine ⟨hdeclared, by rw [hoffset]; exact Int.natCast_nonneg _, ?_⟩
    rw [← hdeclared, hoffset, Int.toNat_natCast, Int.toNat_natCast]
    exact hplace i hi

/-- INTERNAL: a line without fields is taken for a single empty one. -/
theorem lineAgrees_newline_iff (hread : readSchema (some root) = some schema)
    (hnonneg : ∀ col ∈ root.elems, 0 ≤ declaredLength col) :
    LineAgrees schema [10] ↔ ∃ col, root.elems = [col] ∧ declaredLength col = 0 := by
  have hattrs := attrs_of_read hread
  have hfields : lineFields [10] = [[]] := by decide
  constructor
  · intro hagrees
    have hcount := hagrees.count
    rw [hfields, hattrs, List.length_map, List.length_singleton] at hcount
    obtain ⟨col, hcol⟩ := List.length_eq_one_iff.mp hcount.symm
    have hfield := (hagrees.field 0 (by decide)).1
    rw [attrLength_of_read hread (by omega)] at hfield
    simp only [hcol, List.getElem_cons_zero] at hfield
    exact ⟨col, hcol, hfield.symm⟩
  · rintro ⟨col, hcol, hzero⟩
    have hlength : attrLength schema 0 = 0 := by
      rw [attrLength_of_read hread (by simp [hcol])]
      simpa [hcol] using hzero
    refine ⟨?_, by rw [hfields, hattrs, hcol]; rfl, ?_⟩
    · rw [(layout_of_columns hread hnonneg).size_eq, hattrs, hcol, List.map_cons, List.map_cons,
        List.map_nil, List.map_nil, List.sum_singleton, span, ← declaredLength, hzero]
      rfl
    · rw [hfields]
      intro i hi
      obtain rfl : i = 0 := Nat.lt_one_iff.mp hi
      have hoffset : offsetToAttribute schema 0 = 0 := by
        have hstart : fieldStart schema 0 = 0 := rfl
        rw [(layout_of_columns hread hnonneg).offset_of_lt (hstart ▸ Nat.two_pow_pos 31), hstart]
        rfl
      simp [hlength, hoffset]

/-- INTERNAL: **a line has the layout exactly if every column has got its field** and begins
below `2 ^ 31`, or there is one column of no length and it has got none. -/
theorem generated_line_iff_fields (hread : readSchema (some root) = some schema)
    (hnonneg : ∀ col ∈ root.elems, 0 ≤ declaredLength col) :
    (∃ line, generateLine toFloat root.elems draws = .ok line ∧ LineAgrees schema line) ↔
      (root.elems ≠ [] ∧ ColumnsStart schema ∧
        ∀ i (hi : i < root.elems.length), FieldWritten toFloat root.elems[i] (draws i)) ∨
      ∃ col, root.elems = [col] ∧ declaredLength col = 0 ∧
        generateRecord toFloat [col] draws = .ok [] := by
  constructor
  · rintro ⟨line, hline, hagrees⟩
    obtain ⟨record, hrecord, rfl⟩ := generateLine_eq_ok_iff.mp hline
    obtain ⟨hclean, -, hall⟩ := generateRecord_spec hrecord
    by_cases hrne : record = []
    · rw [hrne] at hagrees hrecord
      obtain ⟨col, hcol, hzero⟩ := (lineAgrees_newline_iff hread hnonneg).mp hagrees
      exact Or.inr ⟨col, hcol, hzero, hcol ▸ hrecord⟩
    · rw [lineAgrees_joined_iff hread hnonneg hrne fun s hs => (hclean s hs).2] at hagrees
      obtain ⟨hstarts, hlens⟩ := hagrees
      obtain ⟨hcount, hlen⟩ := lengths_of_map hlens
      refine Or.inl ⟨fun hnil => hrne ?_, hstarts, fun i hi => ?_⟩
      · rw [hnil] at hcount
        exact List.length_eq_zero_iff.mp hcount
      · have hi' : i < record.length := by omega
        exact ⟨record[i], hall hcount i hi hi', (hclean _ (List.getElem_mem hi')).1, hlen i hi' hi⟩
  · rintro (⟨hne, hstarts, hfields⟩ | ⟨col, hcol, hzero, hrecord⟩)
    · obtain ⟨record, hrecord, hlens⟩ := generateRecord_of_fields hfields
      have hrne : record ≠ [] := by
        rintro rfl
        exact hne (List.map_eq_nil_iff.mp hlens.symm)
      obtain ⟨hclean, -, -⟩ := generateRecord_spec hrecord
      exact ⟨_, generateLine_eq_ok_iff.mpr ⟨record, hrecord, rfl⟩,
        (lineAgrees_joined_iff hread hnonneg hrne fun s hs => (hclean s hs).2).mpr
          ⟨hstarts, hlens⟩⟩
    · refine ⟨[10], generateLine_eq_ok_iff.mpr ⟨[], hcol ▸ hrecord, rfl⟩, ?_⟩
      exact (lineAgrees_newline_iff hread hnonneg).mpr ⟨col, hcol, hzero⟩

end Lines

/-- INTERNAL: the columns the generator is meant for have no negative lengths. -/
theorem GeneratorColumn.nonneg {col : JsonAttribute} (h : GeneratorColumn col) :
    0 ≤ declaredLength col := by
  cases h with
  | string _ _ _ h => exact le_trans (by decide) h
  | integer _ _ _ _ h => exact h
  | float _ _ _ _ h => exact le_trans (by decide) h

/-- INTERNAL: only an integer column can have no length; its value is left out if it is
zero. -/
theorem generateRecord_empty_iff {col : JsonAttribute} {draws : ℕ → Draw}
    (hcol : GeneratorColumn col) (hout : Outcome col (draws 0)) (hzero : declaredLength col = 0) :
    generateRecord id [col] draws = .ok [] ↔ (draws 0).number < 1 := by
  cases hcol with
  | string name type length h =>
    change length.toInt = 0 at hzero
    omega
  | float name length mu sigma h =>
    change length.toInt = 0 at hzero
    omega
  | integer name length min max _ hmin _ _ =>
    have hnonneg : 0 ≤ (draws 0).number := hmin.trans hout.1
    have hvalue : drawValue id (draws 0) (.uniform min max) = some (.int ⌊(draws 0).number⌋) := by
      rw [drawValue, truncate, if_pos hnonneg]
    have hfloor : ⌊(draws 0).number⌋ = 0 ↔ (draws 0).number < 1 := by
      rw [Int.floor_eq_zero_iff, Set.mem_Ico]
      exact and_iff_right hnonneg
    rw [← hfloor, generateRecord_cons_ok_iff]
    constructor
    · rintro ⟨data, rest, hdata, -, hempty⟩
      by_contra hne
      have hformat : formatValue (some integerType) length.toInt (.int ⌊(draws 0).number⌋) =
        .ok (zfill (decimalInt ⌊(draws 0).number⌋) length.toInt) := if_pos rfl
      have hvne : (Value.int ⌊(draws 0).number⌋).toRat ≠ 0 := Int.cast_ne_zero.mpr hne
      rw [recordData_of_value rfl hvalue rfl hvne, hformat] at hdata
      cases hdata
      simp [Option.filter, (formatValue_clean hvne hformat).2] at hempty
    · intro heq
      exact ⟨none, [], recordData_of_zero rfl hvalue (by rw [heq]; rfl), rfl, rfl⟩

/-- SOURCE: data_generator.py:26-62, library.cc:12-33, library.cc:58-65 — **when the generator and
the readers agree.**  For every schema of columns the generator is meant for and every
outcome of the draws, a line is written and has the layout of the schema if and only if
there is a column, every column begins below `2 ^ 31` and its draw fits; or the only column is
an integer of no length and its value is zero. -/
theorem generated_line_layout_iff (root : JsonArray) (schema : Schema)
    (hread : readSchema (some root) = some schema)
    (hcols : ∀ col ∈ root.elems, GeneratorColumn col) (draws : ℕ → Draw)
    (hdraws : ∀ i (hi : i < root.elems.length), Outcome root.elems[i] (draws i)) :
    (∃ line, generateLine id root.elems draws = .ok line ∧ LineAgrees schema line) ↔
      (root.elems ≠ [] ∧ ColumnsStart schema ∧
        ∀ i (hi : i < root.elems.length), Fits root.elems[i] (draws i)) ∨
      ∃ col, root.elems = [col] ∧ declaredLength col = 0 ∧ (draws 0).number < 1 := by
  rw [generated_line_iff_fields hread fun col hcol => (hcols col hcol).nonneg]
  refine or_congr (and_congr_right fun _ => and_congr_right fun _ => ?_)
    (exists_congr fun col => ?_)
  · refine forall_congr' fun i => forall_congr' fun hi => ?_
    exact fieldWritten_iff_fits (hcols _ (List.getElem_mem hi)) (hdraws i hi)
  · refine and_congr_right fun hcol => and_congr_right fun hzero => ?_
    have hmem : col ∈ root.elems := by
      rw [hcol]
      exact List.mem_singleton_self col
    have hout := hdraws 0 (by simp [hcol])
    simp only [hcol, List.getElem_cons_zero] at hout
    exact generateRecord_empty_iff (hcols col hmem) hout hzero

/-- INTERNAL: a run of the generator in which no line fails.  The induction is over the
lines.
SRCLINE: data_generator.py:26-29 -/
theorem generateData_of_lines {toFloat : ℚ → ℚ} {schema : List JsonAttribute} {nrecords : ℕ}
    {draws : ℕ → ℕ → Draw} {P : List Byte → Prop}
    (h : ∀ i < nrecords, ∃ line, generateLine toFloat schema (draws i) = .ok line ∧ P line) :
    ∃ lines : List (List Byte), generateData toFloat schema nrecords draws = (lines.flatten, none) ∧
      lines.length = nrecords ∧ ∀ line ∈ lines, P line := by
  induction nrecords generalizing draws with
  | zero => exact ⟨[], rfl, rfl, nofun⟩
  | succ n ih =>
    obtain ⟨line, hline, hP⟩ := h 0 (Nat.succ_pos n)
    obtain ⟨lines, hlines, hcount, hall⟩ := @ih (fun i => draws (i + 1))
      fun i hi => h (i + 1) (Nat.succ_lt_succ hi)
    refine ⟨line :: lines, ?_, congrArg Nat.succ hcount, ?_⟩
    · simp only [generateData, hline, hlines, List.flatten_cons]
    · intro l hl
      rcases List.mem_cons.mp hl with rfl | hl
      · exact hP
      · exact hall l hl

/-- SOURCE: data_generator.py:8-29 — **a generated file is an input of the sorting programs.**  If
the draws of all records fit, the file consists of as many lines as asked for, each a
record of the schema. -/
theorem generated_file (root : JsonArray) (schema : Schema)
    (hread : readSchema (some root) = some schema)
    (hcols : ∀ col ∈ root.elems, GeneratorColumn col) (hne : root.elems ≠ []) (nrecords : ℕ)
    (draws : ℕ → ℕ → Draw)
    (hdraws : ∀ i < nrecords, ∀ j (hj : j < root.elems.length),
      Outcome root.elems[j] (draws i j) ∧ Fits root.elems[j] (draws i j)) :
    ∃ lines : List (List Byte), generateData id root.elems nrecords draws = (lines.flatten, none) ∧
      lines.length = nrecords ∧ LineRecords schema.recordSize lines := by
  have hnonneg : ∀ col ∈ root.elems, 0 ≤ declaredLength col := fun col hcol =>
    (hcols col hcol).nonneg
  obtain ⟨lines, hfile, hcount, hlines⟩ := generateData_of_lines
    (P := fun line => line.length = schema.recordSize ∧
      ∃ text, line = text ++ [10] ∧ ∀ b : Byte, b ∈ text → 43 ≤ (b : ℕ)) fun i hi => by
    obtain ⟨record, hrecord, hlens⟩ := generateRecord_of_fields fun j hj =>
      (fieldWritten_iff_fits (hcols _ (List.getElem_mem hj)) (hdraws i hi j hj).1).mpr
        (hdraws i hi j hj).2
    have hrne : record ≠ [] := by
      rintro rfl
      exact hne (List.map_eq_nil_iff.mp hlens.symm)
    have hsize := ((layout_of_columns hread hnonneg).joined hrne
      (spans_of_lengths hread hlens) 44 10).1
    refine ⟨_, generateLine_eq_ok_iff.mpr ⟨record, hrecord, rfl⟩, hsize, _, rfl, fun b hb => ?_⟩
    rcases eq_or_mem_of_mem_intercalate hb with rfl | ⟨s, hs, hb⟩
    · decide
    · exact (((generateRecord_spec hrecord).1 s hs).2 b hb).1
  refine ⟨lines, hfile, hcount, ⟨fun l hl => (hlines l hl).1, fun l hl => ?_⟩, fun l hl => ?_⟩
  · obtain ⟨-, text, rfl, htext⟩ := hlines l hl
    rintro b hb rfl
    rcases List.mem_append.mp hb with hb | hb
    · exact absurd (htext 0 hb) (by decide)
    · simp at hb
  · obtain ⟨-, text, rfl, htext⟩ := hlines l hl
    exact ⟨text, rfl, fun hb => absurd (htext 10 hb) (by decide)⟩

/-- The columns of a string of one letter, a year and a grade. -/
def gradeColumns : JsonArray where
  elems := [⟨none, none, some 1, none⟩,
    ⟨none, some integerType, some 4, some (.uniform 2007 2014)⟩,
    ⟨none, some floatType, some 3, some (.normal 8 1)⟩]
  size_lt := by decide

/-- The draws `a`, `2010` and the given grade. -/
def gradeDraws (grade : ℚ) : ℕ → Draw
  | 1 => ⟨fun _ => 10, 2010⟩
  | _ => ⟨fun _ => 10, grade⟩

/-- Their schema: a record has 11 bytes. -/
def gradeSchema : Schema := ⟨gradeColumns.elems.map readAttribute, [], 11⟩

/-- INTERNAL: the generator is meant for them. -/
theorem gradeColumns_generator : ∀ col ∈ gradeColumns.elems, GeneratorColumn col := by
  intro col hcol
  simp only [gradeColumns, List.mem_cons, List.not_mem_nil, or_false] at hcol
  rcases hcol with rfl | rfl | rfl
  · exact .string _ _ _ (by decide)
  · exact .integer _ _ _ _ (by decide) (by norm_num) (by norm_num) (by decide +kernel)
  · exact .float _ _ _ _ (by decide)

/-- INTERNAL: a grade with one digit in front of the point is a possible draw. -/
theorem gradeDraws_outcome {grade : ℚ}
    (h : (integerPart (roundHundredths grade / 100)).length = 1) :
    ∀ i (hi : i < gradeColumns.elems.length), Outcome gradeColumns.elems[i] (gradeDraws grade i)
  | 0, _ => trivial
  | 1, _ => by
    change (2007 : ℚ) ≤ 2010 ∧ (2010 : ℚ) ≤ 2014
    norm_num
  | 2, _ => by
    change ((integerPart (roundHundredths grade / 100)).length : ℤ) + 2 ≤ 3
    rw [h]
    decide

/-- The grade `3.9` gives the line `a,2010,3.9`. -/
theorem generated_line_layout_grade :
    ∃ line, generateLine id gradeColumns.elems (gradeDraws (39 / 10)) = .ok line ∧
      LineAgrees gradeSchema line := by
  refine (generated_line_layout_iff gradeColumns gradeSchema (by decide +kernel)
    gradeColumns_generator _ (gradeDraws_outcome (by decide +kernel))).mpr
    (Or.inl ⟨List.cons_ne_nil _ _, by decide +kernel, ?_⟩)
  intro i hi
  match i, hi with
  | 0, _ => trivial
  | 1, _ =>
    change (1 : ℚ) ≤ 2010 ∧ (2010 : ℚ) < 10 ^ 4
    norm_num
  | 2, _ =>
    change roundHundredths (39 / 10) ≠ 0 ∧ _
    decide +kernel +revert

/-- The grade `0` is left out, and the line `a,2010` is four bytes short. -/
theorem generated_zero_fails :
    readSchema (some gradeColumns) = some gradeSchema ∧
    (∀ col ∈ gradeColumns.elems, GeneratorColumn col) ∧
    (∀ i (hi : i < gradeColumns.elems.length), Outcome gradeColumns.elems[i] (gradeDraws 0 i)) ∧
    ¬ ∃ line, generateLine id gradeColumns.elems (gradeDraws 0) = .ok line ∧
      LineAgrees gradeSchema line := by
  refine ⟨by decide +kernel, gradeColumns_generator, gradeDraws_outcome (by decide +kernel), ?_⟩
  rintro ⟨line, hline, hagrees⟩
  have hwritten : generateLine id gradeColumns.elems (gradeDraws 0) =
      .ok [97, 44, 50, 48, 49, 48, 10] := by decide +kernel
  rw [hwritten, Except.ok.injEq] at hline
  subst hline
  exact absurd hagrees.size (by decide)

end ExternalSort.Analysis
