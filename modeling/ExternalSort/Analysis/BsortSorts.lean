import ExternalSort.Analysis.BsortRun

/-!
# When the tree sort sorts

The keys of a run are its sort fields followed by the record numbers.  The fields have
fixed lengths, so the order of the keys is that of the fields first
(`sortFields_le_of_key_lt`), and two keys agree only if the fields and the numbers do
(`entry_fst_eq_iff`).  The numbers are of type `int` and repeat after `2 ^ 32` records.

What an earlier run has put stays in the database, so it shows in the index of a later
run exactly if the later run does not put the same key.
-/

set_option autoImplicit false

namespace ExternalSort.Analysis

open ExternalSort.Lib ExternalSort.Model

section Keys

variable {schema : Schema} {records : List (List Byte)} {r s : List Byte} {i j : ℕ}

/-- INTERNAL: the sort fields of two records have the same lengths. -/
theorem forall₂_length_sortFields (h : Layout schema) (hr : NulFree r) (hs : NulFree s)
    (hrlen : r.length = schema.recordSize) (hslen : s.length = schema.recordSize) :
    List.Forall₂ (fun x y => x.length = y.length) (sortFields schema r) (sortFields schema s) := by
  rw [sortFields, sortFields, List.forall₂_map_left_iff, List.forall₂_map_right_iff,
    List.forall₂_same]
  intro attr hattr
  have hlt := h.lt_of_mem_sortAttrs hattr
  rw [h.length_field hlt hr hrlen, h.length_field hlt hs hslen]

/-- INTERNAL: the sort fields of a record take the declared lengths of the sort attributes. -/
theorem length_flatten_sortFields_eq (h : Layout schema) (hr : NulFree r)
    (hrlen : r.length = schema.recordSize) :
    (sortFields schema r).flatten.length =
      (schema.sortAttrs.reduceOption.map fun attr => toSizeT (attrLength schema attr)).sum := by
  rw [List.length_flatten, sortFields, List.map_map]
  congr 1
  apply List.map_congr_left
  intro attr hattr
  exact h.length_field (h.lt_of_mem_sortAttrs hattr) hr hrlen

/-- INTERNAL: the sort fields of two records take the same number of bytes. -/
theorem length_flatten_sortFields (h : Layout schema) (hr : NulFree r) (hs : NulFree s)
    (hrlen : r.length = schema.recordSize) (hslen : s.length = schema.recordSize) :
    (sortFields schema r).flatten.length = (sortFields schema s).flatten.length := by
  rw [length_flatten_sortFields_eq h hr hrlen, length_flatten_sortFields_eq h hs hslen]

/-- INTERNAL: **the order of the keys is that of the sort fields first.** -/
theorem sortFields_le_of_key_lt (h : Layout schema) (hr : NulFree r) (hs : NulFree s)
    (hrlen : r.length = schema.recordSize) (hslen : s.length = schema.recordSize)
    (hlt : (entry schema i r).1 < (entry schema j s).1) :
    sortFields schema r ≤ sortFields schema s := by
  have hsame := forall₂_length_sortFields h hr hs hrlen hslen
  rcases (append_lt_append_iff (length_flatten_sortFields h hr hs hrlen hslen) _ _).mp hlt with
    hfields | ⟨hfields, -⟩
  · exact ((flatten_lt_flatten_iff hsame).mp hfields).le
  · exact (flatten_inj_of_length hsame hfields).le

/-- INTERNAL: two keys agree if the sort fields do and the numbers are the same `int`.
SRCLINE: bsort.cc:85-90 -/
theorem entry_fst_eq_iff (h : Layout schema) (hr : NulFree r) (hs : NulFree s)
    (hrlen : r.length = schema.recordSize) (hslen : s.length = schema.recordSize) :
    (entry schema i r).1 = (entry schema j s).1 ↔
      sortFields schema r = sortFields schema s ∧ i % 2 ^ 32 = j % 2 ^ 32 := by
  have hint : toInt i = toInt j ↔ i % 2 ^ 32 = j % 2 ^ 32 := by
    rw [toInt_eq_toInt_iff]
    omega
  constructor
  · intro heq
    obtain ⟨hfields, hnumber⟩ :=
      List.append_inj heq (length_flatten_sortFields h hr hs hrlen hslen)
    exact ⟨flatten_inj_of_length (forall₂_length_sortFields h hr hs hrlen hslen) hfields,
      hint.mp (decimalInt_injective hnumber)⟩
  · rintro ⟨hfields, hnumber⟩
    rw [entry, entry, keyOf, keyOf, hfields, hint.mpr hnumber]

/-- No two records with the same sort fields have the same number. -/
def NoClash (schema : Schema) (records : List (List Byte)) : Prop :=
  ∀ i j : ℕ, i < j → i % 2 ^ 32 = j % 2 ^ 32 → ∀ r s, records[i]? = some r →
    records[j]? = some s → sortFields schema r ≠ sortFields schema s

/-- INTERNAL: the keys of a run are distinct if no two records clash. -/
theorem nodup_keys_iff (h : Layout schema) (hplain : PlainRecords schema.recordSize records) :
    ((entries schema records).map Prod.fst).Nodup ↔ NoClash schema records := by
  have hget : ∀ i, ((entries schema records).map Prod.fst)[i]? =
      (records[i]?).map fun r => (entry schema i r).1 := by
    intro i
    rw [List.getElem?_map, entries, List.getElem?_mapIdx, Option.map_map]
    rfl
  have hmem : ∀ {i r}, records[i]? = some r → NulFree r ∧ r.length = schema.recordSize :=
    fun hr => ⟨hplain.nulFree _ (List.mem_of_getElem? hr), hplain.length_eq _
      (List.mem_of_getElem? hr)⟩
  rw [List.nodup_iff_getElem?_ne_getElem?]
  constructor
  · intro hnodup i j hij hmod r s hr hs heq
    have hlt : j < ((entries schema records).map Prod.fst).length := by
      rw [List.length_map, entries, List.length_mapIdx]
      exact (List.getElem?_eq_some_iff.mp hs).1
    apply hnodup i j hij hlt
    rw [hget, hget, hr, hs, Option.map_some, Option.map_some, Option.some_inj,
      entry_fst_eq_iff h (hmem hr).1 (hmem hs).1 (hmem hr).2 (hmem hs).2]
    exact ⟨heq, hmod⟩
  · intro hclash i j hij hlt heq
    rw [List.length_map, entries, List.length_mapIdx] at hlt
    have hr := List.getElem?_eq_getElem (hij.trans hlt)
    have hs := List.getElem?_eq_getElem hlt
    rw [hget, hget, hr, hs, Option.map_some, Option.map_some, Option.some_inj,
      entry_fst_eq_iff h (hmem hr).1 (hmem hs).1 (hmem hr).2 (hmem hs).2] at heq
    exact hclash i j hij heq.2 _ _ hr hs heq.1

/-- INTERNAL: the numbers of up to `2 ^ 32` records differ. -/
theorem noClash_of_length_le (h : records.length ≤ 2 ^ 32) : NoClash schema records := by
  intro i j hij hmod r s _ hs
  have hj := (List.getElem?_eq_some_iff.mp hs).1
  omega

end Keys

/-! ## One run -/

section Index

variable {schema : Schema} {records : List (List Byte)}

/-- INTERNAL: a record is its value and the newline. -/
theorem dropLast_append_newline (h : LineRecords schema.recordSize records) {r : List Byte}
    (hr : r ∈ records) : r.dropLast ++ [10] = r := by
  obtain ⟨line, rfl, -⟩ := h.line r hr
  rw [List.dropLast_concat]

/-- INTERNAL: every entry is that of a record. -/
theorem exists_record_of_mem {p : List Byte × List Byte} (hp : p ∈ entries schema records) :
    ∃ i r, r ∈ records ∧ p = entry schema i r := by
  obtain ⟨i, hlt, hget⟩ := List.mem_iff_getElem.mp hp
  rw [entries, List.length_mapIdx] at hlt
  exact ⟨i, records[i], List.getElem_mem hlt, by simpa [entries] using hget.symm⟩

/-- INTERNAL: the lines of the entries are the records.
SRCLINE: bsort.cc:91-92, bsort.cc:109 -/
theorem map_line_entries (h : LineRecords schema.recordSize records) :
    (entries schema records).map (fun p => p.2 ++ [10]) = records := by
  apply List.ext_getElem
  · simp [entries]
  · intro i h1 h2
    simp only [entries, List.getElem_map, List.getElem_mapIdx, entry]
    exact dropLast_append_newline h (List.getElem_mem h2)

/-- INTERNAL: what a run puts into an empty database is all that is in it. -/
theorem mem_entries_of_mem_toList {p : List Byte × List Byte}
    (hp : p ∈ (putAll (∅ : Database) (entries schema records)).toList) :
    p ∈ entries schema records := by
  cases mem_or_lookup_of_putAll (Std.TreeMap.mem_toList_iff_getElem?_eq_some.mp hp) with
  | inl hmem => exact hmem
  | inr hold => simp at hold

/-- INTERNAL: **the index of a run on an empty database** lists the records in order exactly
if no two of them clash.
SRCLINE: bsort.cc:71-111 -/
theorem sortedFile_index_iff (hlayout : Layout schema) (hinside : Inside schema)
    (hsize : 2 ≤ schema.recordSize) (h : LineRecords schema.recordSize records) :
    SortedFile schema records (some (indexLines (putAll ∅ (entries schema records)))) ↔
      NoClash schema records := by
  rw [← nodup_keys_iff hlayout h.plain]
  constructor
  · rintro ⟨sorted, hfile, hperm, -⟩
    have hlines : ∀ x ∈ (putAll (∅ : Database) (entries schema records)).toList.map
        (fun p => p.2 ++ [10]), x.length = schema.recordSize := by
      intro x hx
      obtain ⟨p, hp, rfl⟩ := List.mem_map.mp hx
      obtain ⟨i, r, hr, rfl⟩ := exists_record_of_mem (mem_entries_of_mem_toList hp)
      rw [entry, dropLast_append_newline h hr, h.plain.length_eq r hr]
    have hlength := congrArg List.length (Option.some.inj hfile)
    rw [indexLines, List.flatMap_def, length_flatten_of_size hlines,
      length_flatten_of_size (h.plain.perm hperm).length_eq, hperm.length_eq, List.length_map]
      at hlength
    have hsame := Nat.eq_of_mul_eq_mul_left (show 0 < schema.recordSize by omega) hlength
    have hcount : (entries schema records).length = records.length := List.length_mapIdx
    refine (distinct_of_length_toList_putAll (m := (∅ : Database)) ?_).1
    rw [hsame, hcount, show (∅ : Database).toList = [] from rfl, List.length_nil, Nat.zero_add]
  · intro hnodup
    have hperm : (putAll (∅ : Database) (entries schema records)).toList.Perm
        (entries schema records) := toList_putAll_perm (m := (∅ : Database)) hnodup (by simp)
    refine ⟨(putAll (∅ : Database) (entries schema records)).toList.map fun p => p.2 ++ [10], ?_,
      ?_, ?_⟩
    · rw [indexLines, List.flatMap_def]
    · have hmap := hperm.map fun p => p.2 ++ [10]
      rwa [map_line_entries h] at hmap
    · rw [RecordSorted, List.pairwise_map]
      refine (List.Pairwise.and_mem.mp Std.TreeMap.ordered_keys_toList).imp ?_
      rintro p q ⟨hp, hq, hlt⟩
      obtain ⟨i, r, hr, rfl⟩ := exists_record_of_mem (mem_entries_of_mem_toList hp)
      obtain ⟨j, s, hs, rfl⟩ := exists_record_of_mem (mem_entries_of_mem_toList hq)
      rw [compare_lt_iff] at hlt
      have hfields := sortFields_le_of_key_lt hlayout (h.plain.nulFree r hr) (h.plain.nulFree s hs)
        (h.plain.length_eq r hr) (h.plain.length_eq s hs) hlt
      simp only [entry, dropLast_append_newline h hr, dropLast_append_newline h hs]
      exact (hinside.inOrder_iff r s).mpr hfields

end Index

/-- The tree sort sorts: from an empty database, whatever is on the stack, it returns `0` and
the index file lists the records in order.
SRCLINE: bsort.cc:11-126 -/
def BsortSorts (args : BsortArgs) (schema : Schema) (records : List (List Byte))
    (files : FileSystem) : Prop :=
  ∀ stack : ℕ → Byte,
    (∃ fuel w, bsort fuel stack args ⟨files, ∅⟩ = some (0, w)) ∧
    ∀ fuel code w, bsort fuel stack args ⟨files, ∅⟩ = some (code, w) →
      SortedFile schema records (w.files args.outIndex)

section Fresh

variable {args : BsortArgs} {schema : Schema} {records : List (List Byte)} {files : FileSystem}

/-- INTERNAL: a run sorts if what it puts into an empty database is the sorted records. -/
theorem bsortSorts_iff_index (h : BsortAccepted args schema)
    (hlines : LineRecords schema.recordSize records)
    (hin : files args.inputFile = some records.flatten)
    (hbound : schema.recordSize + 2 < 2 ^ 31) :
    BsortSorts args schema records files ↔ SortedFile schema records
      (some (indexLines (putAll ∅ (entries schema (linesRead args records))))) := by
  constructor
  · intro hsorts
    obtain ⟨⟨fuel, w, hrun⟩, hall⟩ := hsorts fun _ => 0
    obtain ⟨hdb, hindex⟩ := (bsort_run h hlines hin hbound (fun _ => 0) ∅).2 fuel 0 w hrun
    rw [← hdb, ← hindex]
    exact hall fuel 0 w hrun
  · intro hsorted stack
    obtain ⟨hreturns, hresult⟩ := bsort_run h hlines hin hbound stack ∅
    refine ⟨hreturns, fun fuel code w hrun => ?_⟩
    obtain ⟨hdb, hindex⟩ := hresult fuel code w hrun
    rw [hindex, hdb]
    exact hsorted

/-- INTERNAL: with a bound of `fgets` that wrapped around, the first line of the index ends too
early to be a record.
SRCLINE: bsort.cc:67, bsort.cc:96, bsort.cc:109 -/
theorem not_sortedFile_of_wraps (hbound : 2 ≤ toInt (schema.recordSize + 2))
    (hlarge : ¬ schema.recordSize + 2 < 2 ^ 31) (hlines : LineRecords schema.recordSize records)
    (hne : records ≠ []) (stack : ℕ → Byte) (contents : List Byte) :
    ¬ SortedFile schema records
      (some (indexLines (putAll ∅ (loadPuts schema stack contents)))) := by
  have hwrapped := lineBound_lt_of_wraps hbound hlarge
  rintro ⟨sorted, hfile, hperm, -⟩
  have hfile := Option.some.inj hfile
  -- the index begins with a whole record
  obtain ⟨s, rest, rfl⟩ := List.exists_cons_of_ne_nil
    (fun hnil : sorted = [] => hne (hnil ▸ hperm).nil_eq.symm)
  have hs := hperm.subset (List.mem_cons_self ..)
  obtain ⟨line, rfl, hnewline⟩ := hlines.line s hs
  have hlength := hlines.plain.length_eq _ hs
  rw [List.length_append, List.length_singleton] at hlength
  -- and with the value of an entry
  cases hdb : (putAll (∅ : Database) (loadPuts schema stack contents)).toList with
  | nil =>
    rw [indexLines, hdb] at hfile
    simp at hfile
  | cons p ps =>
    have hmem : p ∈ loadPuts schema stack contents := by
      have hp : p ∈ (putAll (∅ : Database) (loadPuts schema stack contents)).toList := by
        rw [hdb]
        exact List.mem_cons_self ..
      cases mem_or_lookup_of_putAll (Std.TreeMap.mem_toList_iff_getElem?_eq_some.mp hp) with
      | inl hmem => exact hmem
      | inr hold => simp at hold
    have hvalue := length_snd_le_of_mem_loadPuts hbound hmem
    rw [indexLines, hdb, List.flatMap_cons, List.append_assoc, List.flatten_cons,
      List.append_assoc] at hfile
    have hlt : p.2.length < line.length := by omega
    have hbyte := congrArg (fun l => l[p.2.length]?) hfile
    simp only [List.getElem?_append_right le_rfl, Nat.sub_self, List.singleton_append,
      List.getElem?_cons_zero, List.getElem?_append_left hlt] at hbyte
    exact hnewline (List.mem_of_getElem? hbyte.symm)

/-- INTERNAL: a run on an empty file writes an empty index. -/
theorem bsortSorts_nil (h : BsortAccepted args schema)
    (hin : files args.inputFile = some ([] : List (List Byte)).flatten)
    (hbound : 2 ≤ toInt (schema.recordSize + 2)) : BsortSorts args schema [] files := by
  intro stack
  obtain ⟨hreturns, hputs⟩ := @load_nil schema hbound stack
  have hcontents : contentsRead args files = [] := by
    rw [contentsRead_eq hin, linesRead]
    split_ifs <;> rfl
  rw [← hcontents] at hreturns hputs
  refine ⟨(h.opens hin).returns hreturns ∅, fun fuel code w hrun => ?_⟩
  obtain ⟨-, -, hdb, hindex⟩ := (h.opens hin).bsort_some hrun
  rw [hputs] at hdb
  rw [hindex, hdb]
  exact ⟨[], rfl, List.Perm.refl _, List.Pairwise.nil⟩

/-- SOURCE: bsort.cc:11-126 — **when the tree sort sorts.**  For every accepted command line
and every input file of lines, from an empty database: the index file lists the records in
order if and only if there are none and `fgets` has room for a byte, or `record_size + 2` fits an
`int`, the index file is not the input file and no two records with the same sort fields have
numbers that are the same `int`.  Up to `2 ^ 32` records the latter never happens
(`noClash_of_length_le`). -/
theorem bsort_sorts_iff (args : BsortArgs) (schema : Schema) (h : BsortAccepted args schema)
    (records : List (List Byte)) (hlines : LineRecords schema.recordSize records)
    (files : FileSystem) (hin : files args.inputFile = some records.flatten) :
    BsortSorts args schema records files ↔
      (records = [] ∧ 2 ≤ toInt (schema.recordSize + 2)) ∨
      (schema.recordSize + 2 < 2 ^ 31 ∧ args.inputFile ≠ args.outIndex ∧
        NoClash schema records) := by
  have hlayout := h.resolved.layout.1
  constructor
  · intro hsorts
    obtain ⟨⟨fuel, w, hrun⟩, hall⟩ := hsorts fun _ => 0
    obtain ⟨-, hreturns, hdb, hindex⟩ := (h.opens hin).bsort_some hrun
    rcases eq_or_ne records [] with rfl | hne
    · exact Or.inl ⟨rfl, hreturns.bound⟩
    · right
      have hbound : schema.recordSize + 2 < 2 ^ 31 := by
        by_contra hlarge
        have hsorted := hall fuel 0 w hrun
        rw [hindex, hdb] at hsorted
        exact not_sortedFile_of_wraps hreturns.bound hlarge hlines hne _ _ hsorted
      have hinside := hlayout.inside (Nat.lt_of_add_right_lt hbound)
      rw [bsortSorts_iff_index h hlines hin hbound, linesRead] at hsorts
      split_ifs at hsorts with hname
      · obtain ⟨sorted, hfile, hperm, -⟩ := hsorts
        have hlength := congrArg List.length (Option.some.inj hfile)
        rw [length_flatten_of_size (hlines.plain.perm hperm).length_eq, hperm.length_eq] at hlength
        rcases Nat.mul_eq_zero.mp hlength.symm with hzero | hzero
        · exact absurd hzero (Nat.ne_of_gt (Nat.zero_lt_of_lt h.two_le))
        · exact absurd (List.length_eq_zero_iff.mp hzero) hne
      · exact ⟨hbound, hname, (sortedFile_index_iff hlayout hinside h.two_le hlines).mp hsorts⟩
  · rintro (⟨rfl, hbound⟩ | ⟨hbound, hname, hclash⟩)
    · exact bsortSorts_nil h hin hbound
    · have hinside := hlayout.inside (Nat.lt_of_add_right_lt hbound)
      rw [bsortSorts_iff_index h hlines hin hbound, linesRead, if_neg hname]
      exact (sortedFile_index_iff hlayout hinside h.two_le hlines).mpr hclash

end Fresh

/-- The command line that sorts letters. -/
def letterIndex : BsortArgs where
  schema := some letterJson
  inputFile := "in"
  outIndex := "out"
  sortAttrs := [[97]]

/-- INTERNAL: the command line that sorts letters is accepted. -/
theorem letterIndex_accepted : BsortAccepted letterIndex letterSchema where
  resolved := letterSchema_resolved
  distinct := by decide
  two_le := by decide

/-- INTERNAL: letters are records of a line each. -/
theorem lineRecords_of_letters {records : List (List Byte)}
    (h : ∀ r ∈ records, ∃ b : Byte, r = [b, 10] ∧ b ≠ 0 ∧ b ≠ 10) :
    LineRecords letterSchema.recordSize records := by
  refine ⟨⟨fun r hr => ?_, fun r hr => ?_⟩, fun r hr => ?_⟩
  · obtain ⟨b, rfl, -⟩ := h r hr
    rfl
  · obtain ⟨b, rfl, hzero, -⟩ := h r hr
    simp [NulFree, hzero]
  · obtain ⟨b, rfl, -, hline⟩ := h r hr
    exact ⟨[b], rfl, by simpa using Ne.symm hline⟩

/-- The letters `b`, `a`, `b`. -/
theorem bsort_sorts_bab :
    BsortSorts letterIndex letterSchema [[98, 10], [97, 10], [98, 10]]
      (inputOnly [[98, 10], [97, 10], [98, 10]]) :=
  (bsort_sorts_iff letterIndex letterSchema letterIndex_accepted _
    (lineRecords_of_letters (by simp)) _ rfl).mpr
    (Or.inr ⟨by decide, by decide, noClash_of_length_le (by decide)⟩)

/-- The letter `a`, `2 ^ 32 + 1` times: the number of the last record is that of the first,
whose entry is overwritten. -/
theorem bsort_clash_fails :
    BsortAccepted letterIndex letterSchema ∧
      LineRecords letterSchema.recordSize (List.replicate (2 ^ 32 + 1) [97, 10]) ∧
      ¬ BsortSorts letterIndex letterSchema (List.replicate (2 ^ 32 + 1) [97, 10])
        (inputOnly (List.replicate (2 ^ 32 + 1) [97, 10])) := by
  have hlines : LineRecords letterSchema.recordSize (List.replicate (2 ^ 32 + 1) [97, 10]) :=
    lineRecords_of_letters fun r hr => ⟨97, List.eq_of_mem_replicate hr, by decide, by decide⟩
  refine ⟨letterIndex_accepted, hlines, fun hsorts => ?_⟩
  rw [bsortSorts_iff_index letterIndex_accepted hlines rfl (by decide), linesRead,
    if_neg (by decide), sortedFile_index_iff letterSchema_layout
      (letterSchema_layout.inside (by decide)) (by decide) hlines] at hsorts
  refine hsorts 0 (2 ^ 32) (by decide) (by decide) _ _
    (List.getElem?_replicate_of_lt (by decide)) (List.getElem?_replicate_of_lt (by decide)) rfl

end ExternalSort.Analysis
