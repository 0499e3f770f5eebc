import ExternalSort.Analysis.BsortRun

/-!
# When the loop of the tree sort loses no input

The file is to be taken in pieces of at most `record_size + 1` bytes that end at a newline, at
that bound or at the end of the file, with one new entry in the database for each.  Four things
come between: the `int` bound of `fgets` can be another one, the end of the file can cut the last
piece off, a key can have no room, and a key can be that of another entry, which is overwritten.
-/

set_option autoImplicit false

namespace ExternalSort.Analysis

open ExternalSort.Lib ExternalSort.Model

/-- The loop returns, and the database has one new entry for each of the chunks and has changed in
nothing else: as value, what of the chunk is shorter than a record.
SRCLINE: bsort.cc:63-99 -/
def InsertsChunks (schema : Schema) (stack : ℕ → Byte) (contents : List Byte) (D : Database)
    (chunks : List (List Byte)) : Prop :=
  ∃ fuel fin, ∃ new : List (List Byte × List Byte),
    loop (loadRecord schema) fuel (loadStart schema stack contents D) = some fin ∧
    fin.db.toList.Perm (D.toList ++ new) ∧
    new.map Prod.snd = chunks.map fun c => c.take (schema.recordSize - 1)

/-- The keys of the chunks.
SRCLINE: bsort.cc:73-90 -/
def chunkKeys (schema : Schema) (stack : ℕ → Byte) (chunks : List (List Byte)) :
    List (List Byte) :=
  (List.range chunks.length).map fun i => keyOf schema (bufferAt schema stack chunks i) (toInt i)

/-- The last chunk ends at a newline or has `n` bytes. -/
def LastWhole (n : ℕ) (chunks : List (List Byte)) : Prop := ∀ c ∈ chunks.getLast?, WholeChunk n c

/-- INTERNAL: it can be decided whether the last chunk is whole. -/
instance (n : ℕ) (chunks : List (List Byte)) : Decidable (LastWhole n chunks) :=
  inferInstanceAs (Decidable (∀ c ∈ chunks.getLast?, WholeChunk n c))

/-- The keys of the chunks are distinct, and none is in the database.
SRCLINE: bsort.cc:93 -/
structure KeysNew (schema : Schema) (stack : ℕ → Byte) (D : Database)
    (chunks : List (List Byte)) : Prop where
  distinct : (chunkKeys schema stack chunks).Nodup
  new : ∀ key ∈ chunkKeys schema stack chunks, D[key]? = none

/-- What it takes to insert all chunks.  The bound of `fgets`, an `int`, is above every chunk and
leaves the last one whole; the keys can be made, and they are new.
SRCLINE: bsort.cc:63-99 -/
structure ChunksFit (schema : Schema) (stack : ℕ → Byte) (D : Database)
    (chunks : List (List Byte)) : Prop where
  bound : 2 ≤ toInt (schema.recordSize + 2)
  short : ∀ c ∈ chunks, (c.length : ℤ) < toInt (schema.recordSize + 2)
  whole : LastWhole (lineBound schema) chunks
  size_pos : chunks ≠ [] → 0 < schema.recordSize
  keys : ∀ i < chunks.length, KeyFits schema (bufferAt schema stack chunks i) (toInt i)
  keys_new : KeysNew schema stack D chunks

section Chunks

variable {schema : Schema} {stack : ℕ → Byte} {contents : List Byte} {D : Database}

/-- INTERNAL: the pieces the file is to be taken in, when none is longer than the bound of
`fgets`. -/
theorem fileChunks_eq (hbound : 2 ≤ toInt (schema.recordSize + 2))
    (hshort : ∀ c ∈ lineChunks (schema.recordSize + 1) [] contents, c.length ≤ lineBound schema) :
    fileChunks schema contents = lineChunks (schema.recordSize + 1) [] contents :=
  lineChunks_eq_of_le (lineBound_le schema) (toInt_eq_lineBound hbound).2 hshort

/-- INTERNAL: if the last chunk is whole, all of them are. -/
theorem wholeChunks_eq_of_last (h : LastWhole (lineBound schema) (fileChunks schema contents)) :
    wholeChunks schema contents = fileChunks schema contents := by
  rw [wholeChunks, List.filter_eq_self]
  intro c hc
  rw [decide_eq_true_iff]
  rcases List.eq_nil_or_concat (fileChunks schema contents) with hnil | ⟨front, last, heq⟩
  · rw [hnil] at hc
    cases hc
  · rw [List.concat_eq_append] at heq
    rw [heq] at hc h
    cases List.mem_append.mp hc with
    | inl hfront =>
      apply wholeChunk_of_mem_dropLast
      change c ∈ (fileChunks schema contents).dropLast
      rw [heq, List.dropLast_concat]
      exact hfront
    | inr hlast =>
      rw [List.mem_singleton.mp hlast]
      exact h last (by rw [List.getLast?_concat]; rfl)

/-- INTERNAL: the keys of the entries, when no chunk is cut off. -/
theorem map_fst_loadPuts (h : wholeChunks schema contents = fileChunks schema contents) :
    (loadPuts schema stack contents).map Prod.fst =
      chunkKeys schema stack (fileChunks schema contents) := by
  rw [loadPuts, h, chunkKeys]
  apply List.ext_getElem
  · simp
  · intro i h1 h2
    simp

/-- INTERNAL: the values of the entries of chunks without NULs. -/
theorem map_snd_loadPuts (hfree : NulFree contents) :
    (loadPuts schema stack contents).map Prod.snd =
      (wholeChunks schema contents).map fun c => c.take (schema.recordSize - 1) := by
  have hchunks : ∀ c ∈ wholeChunks schema contents, NulFree c := by
    intro c hc
    have hsub := List.sublist_flatten_of_mem (List.mem_of_mem_filter hc)
    rw [fileChunks, flatten_lineChunks, List.nil_append] at hsub
    exact hfree.sublist hsub
  rw [loadPuts]
  apply List.ext_getElem
  · simp
  · intro i h1 h2
    simp only [List.getElem_map, List.getElem_mapIdx]
    exact cstr_of_nulFree (hchunks _ (List.getElem_mem _)) _

/-- INTERNAL: a chunk longer than the bound of `fgets` is never inserted, since every value the
loop puts is shorter.
SRCLINE: bsort.cc:67, bsort.cc:96 -/
theorem length_le_of_inserted (hbound : 2 ≤ toInt (schema.recordSize + 2))
    {new : List (List Byte × List Byte)}
    (hperm : (putAll D (loadPuts schema stack contents)).toList.Perm (D.toList ++ new))
    (hvalues : new.map Prod.snd = (lineChunks (schema.recordSize + 1) [] contents).map
      fun c => c.take (schema.recordSize - 1)) :
    ∀ c ∈ lineChunks (schema.recordSize + 1) [] contents, c.length ≤ lineBound schema := by
  intro c hc
  by_contra hlong
  have hlen := length_le_of_mem_lineChunks (show ([] : List Byte).length < schema.recordSize + 1 from
    Nat.succ_pos _) hc
  -- the bound has wrapped around, and is far below the length of a record
  have hwrapped : lineBound schema < schema.recordSize - 1 := by
    have hlarge : ¬ schema.recordSize + 2 < 2 ^ 31 := fun hlt => hlong (by
      rw [lineBound_of_lt hlt]
      exact hlen)
    exact lineBound_lt_of_wraps hbound hlarge
  have hshort : ∀ p ∈ loadPuts schema stack contents,
      ¬ (fun p : List Byte × List Byte => decide (lineBound schema < p.2.length)) p = true := by
    intro p hp
    rw [decide_eq_true_iff, not_lt]
    exact length_snd_le_of_mem_loadPuts hbound hp
  have hcount := countP_toList_putAll_le (m := D) _ hshort
  rw [hperm.countP_eq, List.countP_append] at hcount
  have hsome : 0 < new.countP fun p => decide (lineBound schema < p.2.length) := by
    obtain ⟨p, hp, heq⟩ : ∃ p ∈ new, p.2 = c.take (schema.recordSize - 1) :=
      List.mem_map.mp (hvalues ▸ List.mem_map_of_mem hc)
    refine List.countP_pos_iff.mpr ⟨p, hp, ?_⟩
    rw [decide_eq_true_iff, heq, List.length_take]
    exact lt_min hwrapped (not_le.mp hlong)
  exact absurd hcount (by rw [not_le]; exact Nat.lt_add_of_pos_right hsome)

/-- INTERNAL: **what was inserted fits.** -/
theorem InsertsChunks.chunksFit
    (h : InsertsChunks schema stack contents D (lineChunks (schema.recordSize + 1) [] contents)) :
    ChunksFit schema stack D (lineChunks (schema.recordSize + 1) [] contents) := by
  obtain ⟨fuel, fin, new, hloop, hperm, hvalues⟩ := h
  obtain ⟨hreturns, hdb⟩ := load_db hloop
  rw [hdb] at hperm
  have hbound := hreturns.bound
  have hshort := length_le_of_inserted hbound hperm hvalues
  have hchunks := fileChunks_eq hbound hshort
  rw [← hchunks] at hvalues hshort ⊢
  -- as many entries are new as there are chunks, and no more were put
  have hnew : new.length = (fileChunks schema contents).length := by
    simpa using congrArg List.length hvalues
  have hlength := hperm.length_eq
  rw [List.length_append, hnew] at hlength
  have hputs : (loadPuts schema stack contents).length = (wholeChunks schema contents).length :=
    List.length_mapIdx
  have hle := length_toList_putAll_le D (loadPuts schema stack contents)
  have hall : wholeChunks schema contents = fileChunks schema contents := by
    refine List.filter_sublist.eq_of_length_le ?_
    rw [← wholeChunks, ← hputs]
    exact Nat.le_of_add_le_add_left (hlength ▸ hle)
  have hdistinct := distinct_of_length_toList_putAll (m := D) (l := loadPuts schema stack contents)
    (by rw [hlength, hputs, hall])
  rw [map_fst_loadPuts hall] at hdistinct
  have hkeys := hreturns.keys
  rw [hall] at hkeys
  refine ⟨hbound, fun c hc => ?_, fun c hc => ?_, fun hne => ?_, fun i hi => (hkeys i hi).2,
    hdistinct.1, hdistinct.2⟩
  · rw [(toInt_eq_lineBound hbound).1]
    exact Int.ofNat_lt.mpr (Nat.lt_succ_of_le (hshort c hc))
  · have hmem := List.mem_of_getLast? hc
    rw [← hall, wholeChunks, List.mem_filter, decide_eq_true_iff] at hmem
    exact hmem.2
  · exact (hkeys 0 (List.length_pos_of_ne_nil hne)).1

/-- INTERNAL: **what fits is inserted.** -/
theorem ChunksFit.insertsChunks (hfree : NulFree contents)
    (h : ChunksFit schema stack D (lineChunks (schema.recordSize + 1) [] contents)) :
    InsertsChunks schema stack contents D (lineChunks (schema.recordSize + 1) [] contents) := by
  have hint := (toInt_eq_lineBound h.bound).1
  have hshort : ∀ c ∈ lineChunks (schema.recordSize + 1) [] contents,
      c.length ≤ lineBound schema := by
    intro c hc
    have hlt := h.short c hc
    rw [hint] at hlt
    exact Nat.le_of_lt_succ (Int.ofNat_lt.mp hlt)
  have hchunks := fileChunks_eq h.bound hshort
  rw [← hchunks] at h ⊢
  have hall := wholeChunks_eq_of_last h.whole
  have hreturns : LoadReturns schema stack contents := by
    refine ⟨h.bound, fun i hi => ?_⟩
    rw [hall] at hi
    exact ⟨h.size_pos (List.ne_nil_of_length_pos (Nat.zero_lt_of_lt hi)), h.keys i hi⟩
  obtain ⟨fuel, fin, hloop⟩ := hreturns.load D
  have hdb := (load_db hloop).2
  refine ⟨fuel, fin, loadPuts schema stack contents, hloop, ?_, ?_⟩
  · have hkeys := h.keys_new
    rw [hdb]
    apply toList_putAll_perm
    · rw [map_fst_loadPuts hall]
      exact hkeys.distinct
    · rw [map_fst_loadPuts hall]
      exact hkeys.new
  · rw [map_snd_loadPuts hfree, hall]

/-- INTERNAL: with distinct sort attributes and a record size that fits, the keys can always be
made. -/
theorem chunksFit_iff (h : Layout schema) (hdistinct : schema.sortAttrs.Nodup)
    (hpos : 0 < schema.recordSize) (hsize : schema.recordSize + 2 < 2 ^ 31) :
    ChunksFit schema stack D (lineChunks (schema.recordSize + 1) [] contents) ↔
      LastWhole (schema.recordSize + 1) (lineChunks (schema.recordSize + 1) [] contents) ∧
      KeysNew schema stack D (lineChunks (schema.recordSize + 1) [] contents) := by
  have hline := lineBound_of_lt hsize
  constructor
  · intro hfits
    have hwhole := hfits.whole
    rw [hline] at hwhole
    exact ⟨hwhole, hfits.keys_new⟩
  · rintro ⟨hwhole, hkeys⟩
    have hint : toInt (schema.recordSize + 2) = schema.recordSize + 2 :=
      toInt_of_lt (by omega) (by omega)
    refine ⟨by rw [hint]; omega, fun c hc => ?_, by rwa [hline], fun _ => hpos, fun i hi => ?_, hkeys⟩
    · have hle := length_le_of_mem_lineChunks (Nat.succ_pos _) hc
      rw [hint]
      omega
    · refine ⟨fun hnone => ?_, fun attr hattr => Or.inr ?_, length_keyOf_le h hdistinct _ i⟩
      · obtain ⟨attr, -, hsome⟩ := h.slots _ hnone
        cases hsome
      · have hlt := h.start_add_length_lt (h.lt_of_mem_sortAttrs hattr)
        rw [h.offset_of_lt (by omega), bufferAt, List.length_map, List.length_range,
          Int.toNat_natCast]
        exact ⟨Int.natCast_nonneg _, Or.inl (by omega)⟩

end Chunks

/-- SOURCE: bsort.cc:63-99 — **when the loop of the tree sort loses no input.**  For every schema,
every file of bytes other than NUL, every database and whatever is on the stack: the loop returns
with one new entry for every piece of at most `record_size + 1` bytes, and no other change, if and
only if the pieces fit (`ChunksFit`).  For distinct sort attributes of a schema without negative
lengths, and records of less than `2 ^ 31 - 2` bytes, that is: the last piece ends at a newline or
has `record_size + 1` bytes, and the keys are distinct and not yet in the database. -/
theorem bsort_reads_all_iff (schema : Schema) (contents : List Byte) (hfree : NulFree contents)
    (stack : ℕ → Byte) (D : Database) :
    (InsertsChunks schema stack contents D (lineChunks (schema.recordSize + 1) [] contents) ↔
      ChunksFit schema stack D (lineChunks (schema.recordSize + 1) [] contents)) ∧
    (Layout schema → schema.sortAttrs.Nodup → 0 < schema.recordSize →
      schema.recordSize + 2 < 2 ^ 31 →
      (InsertsChunks schema stack contents D (lineChunks (schema.recordSize + 1) [] contents) ↔
        LastWhole (schema.recordSize + 1) (lineChunks (schema.recordSize + 1) [] contents) ∧
        KeysNew schema stack D (lineChunks (schema.recordSize + 1) [] contents))) := by
  have hiff : InsertsChunks schema stack contents D
      (lineChunks (schema.recordSize + 1) [] contents) ↔
      ChunksFit schema stack D (lineChunks (schema.recordSize + 1) [] contents) :=
    ⟨InsertsChunks.chunksFit, ChunksFit.insertsChunks hfree⟩
  exact ⟨hiff, fun h hdistinct hpos hsize => hiff.trans (chunksFit_iff h hdistinct hpos hsize)⟩

/-- Two letters, a line that is too long for a record, and an empty line. -/
theorem bsort_reads_all_letters :
    InsertsChunks letterSchema (fun _ => 0) [97, 10, 98, 10, 99, 100, 101, 102, 10, 10]
      ((∅ : Database).insert [122, 57] [122])
      [[97, 10], [98, 10], [99, 100, 101], [102, 10], [10]] :=
  ((bsort_reads_all_iff letterSchema [97, 10, 98, 10, 99, 100, 101, 102, 10, 10]
    (by simp [NulFree]) (fun _ => 0) ((∅ : Database).insert [122, 57] [122])).2
      letterSchema_layout (by decide) (by decide) (by decide)).mpr
      ⟨by decide +kernel, by decide +kernel, by decide +kernel⟩

/-- Without its newline the second letter is read and not inserted. -/
theorem bsort_loses_last_line :
    lineChunks (letterSchema.recordSize + 1) [] [97, 10, 98] = [[97, 10], [98]] ∧
    ¬ InsertsChunks letterSchema (fun _ => 0) [97, 10, 98] ∅ [[97, 10], [98]] ∧
    ∃ fin, loop (loadRecord letterSchema) 2 (loadStart letterSchema (fun _ => 0) [97, 10, 98] ∅) =
      some fin ∧ fin.db.toList = [([97, 48], [97])] := by
  have hchunks : lineChunks (letterSchema.recordSize + 1) [] [97, 10, 98] = [[97, 10], [98]] := by
    decide +kernel
  refine ⟨hchunks, fun h => ?_, _, rfl, by decide +kernel⟩
  rw [← hchunks] at h
  have hwhole := h.chunksFit.whole
  rw [hchunks] at hwhole
  exact absurd (hwhole [98] rfl) (by decide +kernel)

end ExternalSort.Analysis
