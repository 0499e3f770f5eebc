import ExternalSort.Analysis.Comparator
import ExternalSort.Lib.ByteFile

/-!
# Where the fields of a record are

`Layout` is what the two sorting programs know of a schema once its sort attributes are
resolved: its lengths are not negative, the record size counts every attribute and the
byte behind it, and every sort attribute is one of the attributes.  So a field ends before
the last byte of the record.

`fieldStart` is the place of a field, without bounds on the sum.  The two programs add it up
in an `int` (`Layout.offset_eq`), which is exact up to `2 ^ 31`.
-/

set_option autoImplicit false

namespace ExternalSort.Analysis

open ExternalSort.Lib ExternalSort.Model

/-- A schema without negative lengths, in which at least one sort attribute was asked for
and all were found.
SRCLINE: library.cc:3-56 -/
structure Resolved (json : Option JsonArray) (names : List (List Byte)) (schema : Schema) :
    Prop where
  names_ne : names ≠ []
  read : ∃ schema₀, readSchema json = some schema₀ ∧
    (∀ a ∈ schema₀.attrs, 0 ≤ a.length.toInt) ∧ initSortAttrs schema₀ names = some (0, schema)

/-- INTERNAL: the bytes an attribute takes, with the byte behind it. -/
def span (a : Attribute) : ℕ := a.length.toInt.toNat + 1

/-- The place where the field of an attribute begins: behind the earlier ones and the byte
behind each of them. -/
def fieldStart (schema : Schema) (attr : ℕ) : ℕ := ((schema.attrs.take attr).map span).sum

/-- Every sort field with a byte begins at an offset that is not negative as an `int`.
SRCLINE: library.cc:58-65, bsort.cc:76-80 -/
def StartsInside (schema : Schema) : Prop :=
  ∀ attr ∈ schema.sortAttrs.reduceOption,
    attrLength schema attr = 0 ∨ 0 ≤ toInt (fieldStart schema attr)

/-- INTERNAL: it can be decided whether the fields start inside of the record. -/
instance (schema : Schema) : Decidable (StartsInside schema) :=
  inferInstanceAs (Decidable (∀ attr ∈ schema.sortAttrs.reduceOption, _))

/-- INTERNAL: the layout of the records of a schema. -/
structure Layout (schema : Schema) : Prop where
  nonneg : ∀ a ∈ schema.attrs, 0 ≤ a.length.toInt
  size_eq : schema.recordSize = (schema.attrs.map span).sum
  slots : ∀ s ∈ schema.sortAttrs, ∃ attr < schema.attrs.length, s = some attr

section Resolve

/-- INTERNAL: the record size of a schema without negative lengths does not wrap.
SRCLINE: library.cc:12-31 -/
theorem foldl_recordSize (attrs : List Attribute) (h : ∀ a ∈ attrs, 0 ≤ a.length.toInt)
    (size : ℕ) (hsize : size + attrs.length * 2 ^ 31 < 2 ^ 64) :
    attrs.foldl (fun size a => toSizeT (size + a.length.toInt)) size + attrs.length =
      size + (attrs.map span).sum := by
  induction attrs generalizing size with
  | nil => rfl
  | cons a attrs ih =>
    have hpos := h a (List.mem_cons_self ..)
    have hlt := a.length.toInt_lt
    rw [List.length_cons, Nat.succ_mul] at hsize
    have hstep : toSizeT (size + a.length.toInt) = size + a.length.toInt.toNat := by
      rw [toSizeT_of_lt (by omega) (by omega)]
      omega
    have hrest := ih (fun a ha => h a (List.mem_cons_of_mem _ ha)) (size + a.length.toInt.toNat)
      (by omega)
    rw [List.foldl_cons, hstep, List.length_cons, List.map_cons, List.sum_cons, span]
    omega

/-- INTERNAL: an attribute that is found is one of the schema. -/
theorem findAttr_lt {name : List Byte} {attrs : List Attribute} {j i : ℕ}
    (h : findAttr name attrs j = some (some i)) : i < j + attrs.length := by
  induction attrs generalizing j with
  | nil => cases h
  | cons a attrs ih =>
    unfold findAttr at h
    split at h
    · cases h
    · split_ifs at h
      · cases h
        simp
      · have := ih h
        rw [List.length_cons]
        omega

/-- INTERNAL: names that were all found fill their slots.
SRCLINE: library.cc:41-55 -/
theorem resolveAttrs_slots {attrs : List Attribute} {names : List (List Byte)}
    {slots : List (Option ℕ)} (h : resolveAttrs attrs names = some (0, slots)) :
    slots.length = names.length ∧ ∀ s ∈ slots, ∃ attr < attrs.length, s = some attr := by
  induction names generalizing slots with
  | nil =>
    cases h
    simp
  | cons name names ih =>
    unfold resolveAttrs at h
    split at h
    · cases h
    · cases h
    · rename_i j hfind
      obtain ⟨⟨code, rest⟩, hrest, heq⟩ := Option.map_eq_some_iff.mp h
      cases heq
      obtain ⟨hlen, hslots⟩ := ih hrest
      refine ⟨by rw [List.length_cons, List.length_cons, hlen], ?_⟩
      intro s hs
      cases List.mem_cons.mp hs with
      | inl hs => exact ⟨j, by simpa using findAttr_lt hfind, hs⟩
      | inr hs => exact hslots s hs

/-- INTERNAL: a schema that was read without negative lengths has its layout.
SRCLINE: library.cc:3-36 -/
theorem layout_of_read {json : Option JsonArray} {schema : Schema}
    (hread : readSchema json = some schema) (h : ∀ a ∈ schema.attrs, 0 ≤ a.length.toInt) :
    Layout schema := by
  cases json with
  | none => cases hread
  | some root =>
    cases hread
    have hcount := root.size_lt
    have hsize := foldl_recordSize (root.elems.map readAttribute) h root.elems.length
      (by rw [List.length_map]; omega)
    refine ⟨h, ?_, nofun⟩
    rw [List.length_map] at hsize ⊢
    dsimp only
    omega

/-- INTERNAL: a schema whose sort attributes were all found has its layout, and a slot for
every name. -/
theorem layout_of_resolve {json : Option JsonArray} {names : List (List Byte)}
    {schema₀ schema : Schema} (hread : readSchema json = some schema₀)
    (hlengths : ∀ a ∈ schema₀.attrs, 0 ≤ a.length.toInt)
    (hresolve : initSortAttrs schema₀ names = some (0, schema)) :
    Layout schema ∧ schema.sortAttrs.length = names.length := by
  obtain ⟨⟨code, slots⟩, hslots, heq⟩ := Option.map_eq_some_iff.mp hresolve
  obtain ⟨rfl, rfl⟩ := Prod.mk.inj heq
  obtain ⟨hlen, hfound⟩ := resolveAttrs_slots hslots
  have hlayout := layout_of_read hread hlengths
  exact ⟨⟨hlengths, hlayout.size_eq, hfound⟩, hlen⟩

/-- INTERNAL: a resolved schema has its layout, and a sort attribute. -/
theorem Resolved.layout {json : Option JsonArray} {names : List (List Byte)} {schema : Schema}
    (h : Resolved json names schema) : Layout schema ∧ schema.sortAttrs ≠ [] := by
  obtain ⟨schema₀, hread, hlengths, hresolve⟩ := h.read
  obtain ⟨hlayout, hlen⟩ := layout_of_resolve hread hlengths hresolve
  refine ⟨hlayout, fun hnil => ?_⟩
  rw [hnil] at hlen
  exact h.names_ne (List.length_eq_zero_iff.mp hlen.symm)

end Resolve

/-- INTERNAL: a field of a record without NULs is a part of it.
SRCLINE: library.cc:71-74 -/
theorem field_of_nulFree {r : List Byte} (hfree : NulFree r) (schema : Schema) (attr : ℕ) :
    field schema r attr = (r.drop (offsetToAttribute schema attr).toNat).take
      (toSizeT (attrLength schema attr)) :=
  cstr_of_nulFree (hfree.sublist (List.drop_sublist _ _)) _

/-- Complete records: `size` bytes each, and none of them NUL. -/
structure PlainRecords (size : ℕ) (records : List (List Byte)) : Prop where
  length_eq : ∀ r ∈ records, r.length = size
  nulFree : ∀ r ∈ records, NulFree r

namespace PlainRecords

variable {size : ℕ} {records : List (List Byte)}

/-- INTERNAL: some of the records are plain records. -/
theorem sublist {l : List (List Byte)} (h : PlainRecords size records) (hl : l.Sublist records) :
    PlainRecords size l :=
  ⟨fun r hr => h.length_eq r (hl.subset hr), fun r hr => h.nulFree r (hl.subset hr)⟩

/-- INTERNAL: records in another order are plain records. -/
theorem perm {l : List (List Byte)} (h : PlainRecords size records) (hl : l.Perm records) :
    PlainRecords size l :=
  ⟨fun r hr => h.length_eq r (hl.subset hr), fun r hr => h.nulFree r (hl.subset hr)⟩

/-- INTERNAL: a plain record is copied as it is. -/
theorem strncpy_eq (h : PlainRecords size records) {r : List Byte} (hr : r ∈ records) :
    strncpy r size = r := by
  have hlen := h.length_eq r hr
  rw [strncpy_of_nulFree ((h.nulFree r hr).sublist (List.take_sublist _ _)) hlen.ge,
    List.take_of_length_le hlen.le]

end PlainRecords

/-- INTERNAL: the length of an attribute of the schema, as an `int`. -/
theorem attrLength_eq {schema : Schema} {attr : ℕ} (hattr : attr < schema.attrs.length) :
    attrLength schema attr = schema.attrs[attr].length.toInt := by
  rw [attrLength, List.getElem?_eq_getElem hattr, Option.map_some, Option.getD_some]

/-- INTERNAL: the next field begins behind this one and the byte behind it. -/
theorem fieldStart_succ {schema : Schema} {i : ℕ} (hi : i < schema.attrs.length) :
    fieldStart schema (i + 1) = fieldStart schema i + span schema.attrs[i] := by
  rw [fieldStart, fieldStart, ← List.take_append_getElem hi, List.map_append, List.sum_append]
  simp

/-- INTERNAL: the fields come in the order of the attributes. -/
theorem fieldStart_add_span_le {schema : Schema} {i j : ℕ} (hi : i < schema.attrs.length)
    (hij : i < j) (hj : j ≤ schema.attrs.length) :
    fieldStart schema i + span schema.attrs[i] ≤ fieldStart schema j := by
  induction j with
  | zero => exact absurd hij (Nat.not_lt_zero i)
  | succ j ih =>
    have hstep := fieldStart_succ (Nat.lt_of_succ_le hj)
    rcases Nat.lt_succ_iff_lt_or_eq.mp hij with hlt | rfl
    · have hbefore := ih hlt (Nat.le_of_succ_le hj)
      omega
    · exact hstep.ge

namespace Layout

variable {schema : Schema} {r : List Byte} {attr : ℕ}

/-- INTERNAL: a record with a sort attribute has a byte. -/
theorem size_pos (h : Layout schema) (hne : schema.sortAttrs ≠ []) : 0 < schema.recordSize := by
  obtain ⟨s, rest, hs⟩ := List.exists_cons_of_ne_nil hne
  obtain ⟨attr, hattr, -⟩ := h.slots s (by rw [hs]; exact List.mem_cons_self ..)
  obtain ⟨a, attrs, ha⟩ := List.exists_cons_of_length_pos (show 0 < schema.attrs.length by omega)
  rw [h.size_eq, ha, List.map_cons, List.sum_cons, span]
  omega

/-- INTERNAL: a field begins behind the fields before it, as far as an `int` can tell.
SRCLINE: library.cc:58-65 -/
theorem offset_eq (h : Layout schema) (attr : ℕ) :
    offsetToAttribute schema attr = toInt (fieldStart schema attr) := by
  have hsum : ∀ (attrs : List Attribute), (∀ a ∈ attrs, 0 ≤ a.length.toInt) → ∀ start : ℤ,
      attrs.foldl (fun offset a => offset + (1 + a.length.toInt)) start =
        start + ((attrs.map span).sum : ℕ) := by
    intro attrs hattrs
    induction attrs with
    | nil => simp
    | cons a attrs ih =>
      intro start
      have hpos := hattrs a (List.mem_cons_self ..)
      rw [List.foldl_cons, ih fun a ha => hattrs a (List.mem_cons_of_mem _ ha), List.map_cons,
        List.sum_cons, span]
      omega
  have hwrapped := foldl_toInt (fun a : Attribute => 1 + a.length.toInt) (schema.attrs.take attr) 0
  rw [hsum _ fun a ha => h.nonneg a (List.mem_of_mem_take ha), zero_add,
    show toInt 0 = 0 from rfl] at hwrapped
  exact hwrapped

/-- INTERNAL: an offset that fits an `int` is exact. -/
theorem offset_of_lt (h : Layout schema) (hlt : fieldStart schema attr < 2 ^ 31) :
    offsetToAttribute schema attr = fieldStart schema attr := by
  rw [h.offset_eq, toInt_of_lt (by omega) (by omega)]

/-- INTERNAL: the declared length of an attribute, as a number of bytes. -/
theorem length_eq (h : Layout schema) (hattr : attr < schema.attrs.length) :
    toSizeT (attrLength schema attr) + 1 = span schema.attrs[attr] := by
  have hpos := h.nonneg _ (List.getElem_mem hattr)
  have hlt := (schema.attrs[attr]).length.toInt_lt
  rw [attrLength_eq hattr, toSizeT_of_lt hpos (by omega), span]

/-- INTERNAL: behind the last field the record ends. -/
theorem fieldStart_length (h : Layout schema) :
    fieldStart schema schema.attrs.length = schema.recordSize := by
  rw [fieldStart, List.take_length, h.size_eq]

/-- INTERNAL: a field ends before the next begins. -/
theorem start_add_length_lt_start (h : Layout schema) {i j : ℕ} (hij : i < j)
    (hj : j ≤ schema.attrs.length) :
    fieldStart schema i + toSizeT (attrLength schema i) < fieldStart schema j := by
  have hle := fieldStart_add_span_le (hij.trans_le hj) hij hj
  have hlength := h.length_eq (hij.trans_le hj)
  omega

/-- INTERNAL: **a field ends before the last byte of the record.** -/
theorem start_add_length_lt (h : Layout schema) (hattr : attr < schema.attrs.length) :
    fieldStart schema attr + toSizeT (attrLength schema attr) < schema.recordSize :=
  h.fieldStart_length ▸ h.start_add_length_lt_start hattr le_rfl

/-- INTERNAL: what is read as a field ends there as well, since an offset that wraps around
gets smaller. -/
theorem offset_add_length_lt (h : Layout schema) (hattr : attr < schema.attrs.length) :
    (offsetToAttribute schema attr).toNat + toSizeT (attrLength schema attr) <
      schema.recordSize := by
  have hlt := h.start_add_length_lt hattr
  have hle := toInt_le_self (Int.natCast_nonneg (fieldStart schema attr))
  rw [h.offset_eq]
  omega

/-- INTERNAL: a sort attribute is an attribute. -/
theorem lt_of_mem_sortAttrs (h : Layout schema)
    (hattr : attr ∈ schema.sortAttrs.reduceOption) : attr < schema.attrs.length := by
  obtain ⟨attr', hlt, heq⟩ := h.slots _ (List.reduceOption_mem_iff.mp hattr)
  rw [Option.some.inj heq]
  exact hlt

/-- INTERNAL: in records of less than `2 ^ 31` bytes no offset is negative. -/
theorem startsInside (h : Layout schema) (hsize : schema.recordSize < 2 ^ 31) :
    StartsInside schema := by
  intro attr hattr
  have hlt := h.start_add_length_lt (h.lt_of_mem_sortAttrs hattr)
  rw [toInt_of_lt (by omega) (by omega)]
  exact Or.inr (Int.natCast_nonneg _)

/-- INTERNAL: the comparator reads no byte outside of a record exactly if no offset is
negative.
SRCLINE: library.cc:71-74 -/
theorem inside_iff (h : Layout schema) : Inside schema ↔ StartsInside schema := by
  refine forall₂_congr fun attr hattr => ?_
  have hlt := h.offset_add_length_lt (h.lt_of_mem_sortAttrs hattr)
  rw [readsRecord, decide_eq_true_iff, ← h.offset_eq]
  generalize offsetToAttribute schema attr = offset at hlt
  exact or_congr_right ⟨And.left, fun hpos => ⟨hpos, by omega⟩⟩

/-- INTERNAL: in records of less than `2 ^ 31` bytes every field is read from the record. -/
theorem inside (h : Layout schema) (hsize : schema.recordSize < 2 ^ 31) : Inside schema :=
  h.inside_iff.mpr (h.startsInside hsize)

/-- INTERNAL: the length of a field of a record without NULs. -/
theorem length_field (h : Layout schema) (hattr : attr < schema.attrs.length) (hfree : NulFree r)
    (hlen : r.length = schema.recordSize) :
    (field schema r attr).length = toSizeT (attrLength schema attr) := by
  have hlt := h.offset_add_length_lt hattr
  rw [field_of_nulFree hfree, List.length_take, List.length_drop]
  omega

/-- INTERNAL: **fields of the declared lengths, joined to a line, are where they are read.** -/
theorem joined (h : Layout schema) {fields : List (List Byte)} (hne : fields ≠ [])
    (hlen : (fields.map fun s => s.length + 1) = schema.attrs.map span) (x y : Byte) :
    ([x].intercalate fields ++ [y]).length = schema.recordSize ∧
    ∀ i (hi : i < fields.length),
      (([x].intercalate fields ++ [y]).drop (fieldStart schema i)).take
        fields[i].length = fields[i] := by
  refine ⟨by rw [length_joined x y hne, hlen, h.size_eq], fun i hi => ?_⟩
  rw [fieldStart, List.map_take, ← hlen, ← List.map_take,
    drop_joined x y hi, List.drop_eq_getElem_cons hi]
  exact take_joined x y _ _

end Layout

/-! ## Letters -/

/-- A schema of records of two bytes, a letter and its newline, sorted by the letter. -/
def letterSchema : Schema where
  attrs := [⟨strncpy [97] 255, 1⟩]
  sortAttrs := [some 0]
  recordSize := 2

/-- The schema file of letters. -/
def letterJson : JsonArray := ⟨[⟨some [97], none, some 1, none⟩], by decide⟩

/-- INTERNAL: the schema file of letters gives the schema of letters. -/
theorem letterSchema_resolved : Resolved (some letterJson) [[97]] letterSchema :=
  ⟨by decide, { letterSchema with sortAttrs := [] }, by decide +kernel, by decide,
    by decide +kernel⟩

/-- INTERNAL: records of a letter have a layout. -/
theorem letterSchema_layout : Layout letterSchema := letterSchema_resolved.layout.1

/-- The first `n` letters, one a record. -/
def letters (n : ℕ) : List (List Byte) := (List.range n).map fun i => [Fin.ofNat 256 (97 + i), 10]

/-- INTERNAL: letters are complete records. -/
theorem letters_plain (n : ℕ) (h : ∀ i < n, NulFree [Fin.ofNat 256 (97 + i), 10]) :
    PlainRecords letterSchema.recordSize (letters n) := by
  constructor
  · intro r hr
    obtain ⟨i, -, rfl⟩ := List.mem_map.mp hr
    rfl
  · intro r hr
    obtain ⟨i, hi, rfl⟩ := List.mem_map.mp hr
    exact h i (List.mem_range.mp hi)

/-- A directory with an input file of records. -/
def inputOnly (records : List (List Byte)) : FileSystem :=
  fun name => if name = "in" then some records.flatten else none

end ExternalSort.Analysis
