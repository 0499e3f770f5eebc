import ExternalSort.Analysis.BsortChunks

/-!
# A run of the tree sort

A command line with names, a schema file and an input file brings the program to its loop
(`BsortOpens`); it goes on to it even if a name was not found.  From there on the run is the loop
over the chunks of the input file (`BsortOpens.bsort_some`), for every state of the database.

On a file of lines that fit the bound of `fgets`, the chunks are the records, and the run puts
one entry for every record into the database (`entries`): the key is the sort fields and the
record's number, the value the record without its newline (`load_lines`).
-/

set_option autoImplicit false

namespace ExternalSort.Analysis

open ExternalSort.Lib ExternalSort.Model

/-! ## Up to the loop -/

/-- The command line brings the program to its loop, with this schema: there are names to look
up, the schema file can be read, the look-up returns, and there is an input file.
SRCLINE: bsort.cc:11-36 -/
structure BsortOpens (args : BsortArgs) (files : FileSystem) (schema : Schema) : Prop where
  names_ne : args.sortAttrs ≠ []
  resolve : ∃ schema₀ code, readSchema args.schema = some schema₀ ∧
    initSortAttrs schema₀ args.sortAttrs = some (code, schema)
  input : files args.inputFile ≠ none

/-- What is read of the input file.  An index file that is the input file is empty by then.
SRCLINE: bsort.cc:32-40 -/
def contentsRead (args : BsortArgs) (files : FileSystem) : List Byte :=
  ((Function.update files args.outIndex (some [])) args.inputFile).getD []

section Opens

variable {args : BsortArgs} {files : FileSystem} {schema : Schema} {stack : ℕ → Byte}
  {D : Database}

/-- INTERNAL: from the loop on, the run is the loop and the index of its database.
SRCLINE: bsort.cc:11-126 -/
theorem BsortOpens.bsort_eq (h : BsortOpens args files schema) (fuel : ℕ) (stack : ℕ → Byte)
    (D : Database) :
    bsort fuel stack args ⟨files, D⟩ =
      (loop (loadRecord schema) fuel (loadStart schema stack (contentsRead args files) D)).map
        fun st => (0, ⟨Function.update files args.outIndex (some (indexLines st.db)), st.db⟩) := by
  obtain ⟨schema₀, code, hread, hresolve⟩ := h.resolve
  obtain ⟨contents, hin⟩ := Option.ne_none_iff_exists'.mp h.input
  unfold bsort
  rw [if_neg h.names_ne, hread]
  dsimp only
  rw [hresolve]
  dsimp only
  rw [hin]
  dsimp only
  rw [loadFile]
  simp only [Function.update_idem]
  rfl

/-- INTERNAL: **a run that returns** has put the entries of its chunks, and lists the database.
SRCLINE: bsort.cc:11-126 -/
theorem BsortOpens.bsort_some (h : BsortOpens args files schema) {fuel code : ℕ} {w : World}
    (hrun : bsort fuel stack args ⟨files, D⟩ = some (code, w)) :
    code = 0 ∧ LoadReturns schema stack (contentsRead args files) ∧
      w.db = putAll D (loadPuts schema stack (contentsRead args files)) ∧
      w.files args.outIndex = some (indexLines w.db) := by
  rw [h.bsort_eq] at hrun
  obtain ⟨fin, hloop, heq⟩ := Option.map_eq_some_iff.mp hrun
  obtain ⟨hreturns, hdb⟩ := load_db hloop
  obtain ⟨rfl, rfl⟩ := Prod.mk.inj heq
  exact ⟨rfl, hreturns, hdb, Function.update_self ..⟩

/-- INTERNAL: a run whose loop ends returns. -/
theorem BsortOpens.returns (h : BsortOpens args files schema)
    (hreturns : LoadReturns schema stack (contentsRead args files)) (D : Database) :
    ∃ fuel w, bsort fuel stack args ⟨files, D⟩ = some (0, w) := by
  obtain ⟨fuel, fin, hloop⟩ := hreturns.load D
  have hrun := h.bsort_eq fuel stack D
  rw [hloop, Option.map_some] at hrun
  exact ⟨fuel, _, hrun⟩

/-- INTERNAL: a run that does not come to its loop does not look at the database.
SRCLINE: bsort.cc:11-36 -/
theorem bsort_of_not_opens (h : ¬ ∃ schema, BsortOpens args files schema) :
    (∀ fuel stack D, bsort fuel stack args ⟨files, D⟩ = none) ∨
    ∃ code, code ≠ 0 ∧ ∀ fuel stack D, bsort fuel stack args ⟨files, D⟩ = some (code, ⟨files, D⟩) := by
  by_cases hnames : args.sortAttrs = []
  · exact Or.inr ⟨1, one_ne_zero, fun fuel stack D => by rw [bsort, if_pos hnames]⟩
  · cases hread : readSchema args.schema with
    | none =>
      exact Or.inr ⟨2, two_ne_zero, fun fuel stack D => by rw [bsort, if_neg hnames, hread]⟩
    | some schema₀ =>
      cases hresolve : initSortAttrs schema₀ args.sortAttrs with
      | none =>
        refine Or.inl fun fuel stack D => ?_
        rw [bsort, if_neg hnames, hread]
        dsimp only
        rw [hresolve]
      | some found =>
        have hin : files args.inputFile = none := by
          by_contra hin
          exact h ⟨found.2, hnames, ⟨schema₀, found.1, hread, hresolve⟩, hin⟩
        refine Or.inr ⟨3, three_ne_zero, fun fuel stack D => ?_⟩
        rw [bsort, if_neg hnames, hread]
        dsimp only
        rw [hresolve]
        dsimp only
        rw [hin]

end Opens

/-! ## Files of lines -/

/-- Records that are lines: no byte but the last is a newline. -/
structure LineRecords (size : ℕ) (records : List (List Byte)) : Prop where
  plain : PlainRecords size records
  line : ∀ r ∈ records, ∃ line, r = line ++ [10] ∧ 10 ∉ line

/-- The command lines the tree sort is for: the sort attributes are found and distinct, and
a record is more than its newline.
SRCLINE: bsort.cc:11-29 -/
structure BsortAccepted (args : BsortArgs) (schema : Schema) : Prop where
  resolved : Resolved args.schema args.sortAttrs schema
  distinct : schema.sortAttrs.Nodup
  two_le : 2 ≤ schema.recordSize

/-- The key and the value of record `i`.
SRCLINE: bsort.cc:73-92 -/
def entry (schema : Schema) (i : ℕ) (r : List Byte) : List Byte × List Byte :=
  (keyOf schema r (toInt i), r.dropLast)

/-- The entries of a file of records. -/
def entries (schema : Schema) (records : List (List Byte)) : List (List Byte × List Byte) :=
  records.mapIdx (entry schema)

section Key

variable {schema : Schema} {r : List Byte}

/-- INTERNAL: a field in the buffer is the field of the record there. -/
theorem field_buffer (h : Layout schema) {attr : ℕ} (hattr : attr < schema.attrs.length)
    (hlen : r.length = schema.recordSize) (junk : List Byte) :
    field schema (r ++ 0 :: junk) attr = field schema r attr := by
  have hlt := h.offset_add_length_lt hattr
  have hdrop : (offsetToAttribute schema attr).toNat ≤ r.length := by
    rw [hlen]
    exact (Nat.le_add_right _ _).trans hlt.le
  have htake : toSizeT (attrLength schema attr) ≤
      (r.drop (offsetToAttribute schema attr).toNat).length := by
    rw [List.length_drop, hlen]
    exact Nat.le_sub_of_add_le' hlt.le
  rw [field, field, cstr, cstr, List.drop_append_of_le_length hdrop,
    List.take_append_of_le_length htake]

/-- INTERNAL: the key of a record in the buffer is that of the record.
SRCLINE: bsort.cc:73-90 -/
theorem keyOf_buffer (h : Layout schema) (hlen : r.length = schema.recordSize)
    (junk : List Byte) (counter : ℤ) :
    keyOf schema (r ++ 0 :: junk) counter = keyOf schema r counter := by
  rw [keyOf, keyOf, sortFields, sortFields, List.map_congr_left fun attr hattr =>
    field_buffer h (h.lt_of_mem_sortAttrs hattr) hlen junk]

/-- INTERNAL: the key of a record in the buffer can be made if its offsets are not negative and it
has room.
SRCLINE: bsort.cc:65, bsort.cc:73-88 -/
theorem keyFits_buffer_iff (h : Layout schema) (hlen : r.length = schema.recordSize)
    (junk : List Byte) (counter : ℤ) :
    KeyFits schema (r ++ 0 :: junk) counter ↔
      StartsInside schema ∧ (keyOf schema r counter).length ≤ schema.recordSize + 50 := by
  rw [← keyOf_buffer h hlen junk]
  constructor
  · intro hfits
    refine ⟨fun attr hattr => ?_, hfits.room⟩
    rw [← h.offset_eq]
    exact (hfits.inside attr hattr).imp_right And.left
  · rintro ⟨hinside, hroom⟩
    refine ⟨fun hnone => ?_, fun attr hattr => ?_, hroom⟩
    · obtain ⟨attr, -, hsome⟩ := h.slots _ hnone
      cases hsome
    · have hstart := hinside attr hattr
      rw [← h.offset_eq] at hstart
      have hlt := h.offset_add_length_lt (h.lt_of_mem_sortAttrs hattr)
      refine hstart.imp_right fun hpos => ⟨hpos, Or.inl (hlt.le.trans ?_)⟩
      rw [List.length_append, hlen]
      exact Nat.le_add_right _ _

/-- INTERNAL: distinct fields have room in a record.
SRCLINE: bsort.cc:65 -/
theorem length_sortFields_le (h : Layout schema) (hdistinct : schema.sortAttrs.Nodup)
    (r : List Byte) : (sortFields schema r).flatten.length ≤ schema.recordSize := by
  have hnodup : schema.sortAttrs.reduceOption.Nodup :=
    hdistinct.filterMap fun a a' b ha ha' =>
      (show a = some b from ha).trans (show a' = some b from ha').symm
  have hsub : schema.sortAttrs.reduceOption.Subperm (List.range schema.attrs.length) :=
    List.subperm_of_subset hnodup fun attr hattr =>
      List.mem_range.mpr (h.lt_of_mem_sortAttrs hattr)
  have hall : ((List.range schema.attrs.length).map fun attr =>
      ((schema.attrs[attr]?).map span).getD 0).sum = schema.recordSize := by
    rw [h.size_eq]
    congr 1
    apply List.ext_getElem
    · simp
    · intro i h1 h2
      have hi : i < schema.attrs.length := by simpa using h2
      simp [List.getElem?_eq_getElem hi]
  rw [List.length_flatten, sortFields, List.map_map, ← hall]
  refine le_trans (List.sum_le_sum fun attr hattr => ?_)
    (sum_map_le_of_subperm hsub fun attr => ((schema.attrs[attr]?).map span).getD 0)
  have hlt := h.lt_of_mem_sortAttrs hattr
  have hspan := h.length_eq hlt
  have hfield : (field schema r attr).length ≤ toSizeT (attrLength schema attr) :=
    ((List.takeWhile_sublist _).length_le).trans (List.length_take_le _ _)
  simp only [Function.comp, List.getElem?_eq_getElem hlt, Option.map_some, Option.getD_some]
  omega

/-- INTERNAL: an `int` is written in at most eleven characters. -/
theorem length_decimalInt_le (x : ℤ) : (decimalInt (toInt x)).length ≤ 11 := by
  have habs := natAbs_toInt_le x
  have hlen : (decimalNat (toInt x).natAbs).length ≤ 10 :=
    length_decimalNat_le (by decide) (habs.trans_lt (by decide))
  unfold decimalInt
  split_ifs
  · rw [List.length_cons]
    omega
  · omega

/-- INTERNAL: **distinct sort attributes always have room** in the buffer for the key.
SRCLINE: bsort.cc:65 -/
theorem length_keyOf_le (h : Layout schema) (hdistinct : schema.sortAttrs.Nodup) (r : List Byte)
    (i : ℕ) : (keyOf schema r (toInt i)).length ≤ schema.recordSize + 50 := by
  have hfields := length_sortFields_le h hdistinct r
  have hnumber := length_decimalInt_le i
  rw [keyOf, List.length_append]
  exact (Nat.add_le_add hfields hnumber).trans (Nat.add_le_add_left (by decide) _)

end Key

section Lines

variable {schema : Schema} {records : List (List Byte)}

/-- INTERNAL: lines that fit the bound of `fgets` are its chunks, and none is cut off.
SRCLINE: bsort.cc:67, bsort.cc:96 -/
theorem LineRecords.chunks_eq (h : LineRecords schema.recordSize records)
    (hbound : schema.recordSize + 2 < 2 ^ 31) :
    fileChunks schema records.flatten = records ∧ wholeChunks schema records.flatten = records := by
  have hchunks : fileChunks schema records.flatten = records := by
    refine lineChunks_lines h.line fun r hr => ?_
    rw [h.plain.length_eq r hr, lineBound_of_lt hbound]
    exact Nat.le_succ _
  refine ⟨hchunks, ?_⟩
  rw [wholeChunks, hchunks, List.filter_eq_self]
  intro r hr
  obtain ⟨line, rfl, -⟩ := h.line r hr
  simp [WholeChunk]

/-- INTERNAL: **the loop over a file of lines** puts the entries of the records.
SRCLINE: bsort.cc:63-99 -/
theorem load_lines (hlayout : Layout schema) (hdistinct : schema.sortAttrs.Nodup)
    (hsize : 2 ≤ schema.recordSize) (hbound : schema.recordSize + 2 < 2 ^ 31)
    (h : LineRecords schema.recordSize records) (stack : ℕ → Byte) :
    LoadReturns schema stack records.flatten ∧
      loadPuts schema stack records.flatten = entries schema records := by
  obtain ⟨hchunks, hwhole⟩ := h.chunks_eq hbound
  have hbuffer : ∀ (i : ℕ) (r : List Byte), records[i]? = some r →
      ∃ junk, bufferAt schema stack records i = r ++ 0 :: junk := by
    intro i r hr
    refine bufferAt_eq_append hr ?_
    rw [h.plain.length_eq r (List.mem_of_getElem? hr)]
    omega
  constructor
  · refine ⟨?_, fun i hi => ⟨by omega, ?_⟩⟩
    · rw [toInt_of_lt (by omega) (by omega)]
      omega
    · rw [hwhole] at hi
      rw [hchunks]
      obtain ⟨junk, hjunk⟩ := hbuffer i records[i] (List.getElem?_eq_getElem hi)
      rw [hjunk, keyFits_buffer_iff hlayout (h.plain.length_eq _ (List.getElem_mem hi))]
      exact ⟨hlayout.startsInside (by omega), length_keyOf_le hlayout hdistinct _ i⟩
  · rw [loadPuts, hwhole, hchunks, entries]
    apply List.ext_getElem?
    intro i
    rw [List.getElem?_mapIdx, List.getElem?_mapIdx]
    cases hr : records[i]? with
    | none => rfl
    | some r =>
      obtain ⟨junk, hjunk⟩ := hbuffer i r hr
      have hmem := List.mem_of_getElem? hr
      have hlen := h.plain.length_eq r hmem
      obtain ⟨line, rfl, -⟩ := h.line r hmem
      rw [Option.map_some, Option.map_some, hjunk, keyOf_buffer hlayout hlen, entry,
        cstr_of_nulFree (h.plain.nulFree _ hmem), List.dropLast_eq_take, hlen]

/-- INTERNAL: the loop over an empty file. -/
theorem load_nil (hbound : 2 ≤ toInt (schema.recordSize + 2)) (stack : ℕ → Byte) :
    LoadReturns schema stack [] ∧ loadPuts schema stack [] = [] := by
  have hwhole : wholeChunks schema [] = [] := rfl
  refine ⟨⟨hbound, fun i hi => ?_⟩, by rw [loadPuts, hwhole, List.mapIdx_nil]⟩
  rw [hwhole] at hi
  exact absurd hi (Nat.not_lt_zero i)

end Lines

section Run

variable {args : BsortArgs} {schema : Schema} {records : List (List Byte)} {files : FileSystem}

/-- INTERNAL: the records a run reads.
SRCLINE: bsort.cc:32-40 -/
def linesRead (args : BsortArgs) (records : List (List Byte)) : List (List Byte) :=
  if args.inputFile = args.outIndex then [] else records

/-- INTERNAL: what a run reads of a file of lines is a file of lines. -/
theorem LineRecords.linesRead {size : ℕ} (h : LineRecords size records) (args : BsortArgs) :
    LineRecords size (linesRead args records) := by
  unfold Analysis.linesRead
  split_ifs
  · exact ⟨⟨by simp, by simp⟩, by simp⟩
  · exact h

/-- INTERNAL: the bytes a run reads are those of the records it reads. -/
theorem contentsRead_eq (hin : files args.inputFile = some records.flatten) :
    contentsRead args files = (linesRead args records).flatten := by
  rw [contentsRead, Function.update_apply, linesRead]
  split_ifs
  · rfl
  · rw [hin, Option.getD_some]

/-- INTERNAL: an accepted command line brings the program to its loop. -/
theorem BsortAccepted.opens (h : BsortAccepted args schema)
    (hin : files args.inputFile = some records.flatten) : BsortOpens args files schema := by
  obtain ⟨schema₀, hread, -, hresolve⟩ := h.resolved.read
  exact ⟨h.resolved.names_ne, ⟨schema₀, 0, hread, hresolve⟩, by simp [hin]⟩

/-- INTERNAL: **a run of the tree sort on lines**, on any database: it returns, the entries of the
records it reads are in the database, and the index file lists the values.
SRCLINE: bsort.cc:11-126 -/
theorem bsort_run (h : BsortAccepted args schema) (hlines : LineRecords schema.recordSize records)
    (hin : files args.inputFile = some records.flatten)
    (hbound : schema.recordSize + 2 < 2 ^ 31) (stack : ℕ → Byte) (D : Database) :
    (∃ fuel w, bsort fuel stack args ⟨files, D⟩ = some (0, w)) ∧
    ∀ fuel code w, bsort fuel stack args ⟨files, D⟩ = some (code, w) →
      w.db = putAll D (entries schema (linesRead args records)) ∧
      w.files args.outIndex = some (indexLines w.db) := by
  have hopens := h.opens hin
  obtain ⟨hreturns, hputs⟩ := load_lines h.resolved.layout.1 h.distinct h.two_le hbound
    (hlines.linesRead args) stack
  rw [← contentsRead_eq hin] at hreturns hputs
  refine ⟨hopens.returns hreturns D, fun fuel code w hrun => ?_⟩
  obtain ⟨-, -, hdb, hindex⟩ := hopens.bsort_some hrun
  rw [← hputs]
  exact ⟨hdb, hindex⟩

end Run

end ExternalSort.Analysis
