import ExternalSort.Analysis.SchemaLayout
import ExternalSort.Model.MakeRuns

/-!
# The initial runs

`mk_runs` turns a file of complete records into a permutation of it in which every
block of `runLength` records is sorted (`RunsOf`).  The invariant of its loop is that the
blocks read so far have been written as runs.
-/

set_option autoImplicit false

namespace ExternalSort.Analysis

open ExternalSort.Lib ExternalSort.Model

/-- INTERNAL: `runs` are the records, in sorted runs of `runLength`.
SRCLINE: library.h:46-52 -/
structure RunsOf (schema : Schema) (runLength : ℕ) (records runs : List (List Byte)) : Prop where
  perm : runs.Perm records
  sorted : ∀ i, RecordSorted schema ((runs.drop (runLength * i)).take runLength)

/-- INTERNAL: the comparator may be given to `qsort`. -/
theorem totalPreorder_comparator (schema : Schema) :
    TotalPreorder (recordComparator schema) where
  total := fun a b => by
    rw [recordComparator_le_zero_iff, recordComparator_le_zero_iff]
    exact le_total _ _
  trans := fun a b c => by
    rw [recordComparator_le_zero_iff, recordComparator_le_zero_iff, recordComparator_le_zero_iff]
    exact le_trans
  sign := fun a b => by
    rw [← not_le, recordComparator_le_zero_iff, recordComparator_neg_iff, not_le]

/-- The numbers that `mk_runs` works with for `n` records are those it means: the size of a
block fits a `size_t`, or all records are less than what it wraps around to; the records of a
block can be counted in an `int`; and if two records are compared, then by bytes of theirs.
SRCLINE: library.cc:94, library.cc:106, library.cc:111, library.cc:125 -/
structure RunsFit (schema : Schema) (runLength n : ℕ) : Prop where
  request : schema.recordSize * runLength < 2 ^ 64 ∨ n = 0 ∨
    schema.recordSize * n < schema.recordSize * runLength % 2 ^ 64
  count : runLength < 2 ^ 31 ∨ n < 2 ^ 31
  compare : runLength ≤ 1 ∨ n ≤ 1 ∨ Inside schema

/-- INTERNAL: the scan of a block, from slot `j` on with `left` slots to go, passes `m` slots. -/
structure ScansTo (buffer : List Byte) (size left j m : ℕ) : Prop where
  le : m ≤ left
  pass : ∀ i < m, size * (j + i + 1) ≤ buffer.length ∧ buffer.getD (size * (j + i)) 0 ≠ 0 ∧
    j + i + 1 ≠ 2 ^ 31
  stop : m < left → size * (j + m) < buffer.length ∧ buffer.getD (size * (j + m)) 0 = 0

/-- INTERNAL: the conversion of a product to `size_t`. -/
theorem toSizeT_natCast (x : ℕ) : toSizeT x = x % 2 ^ 64 := by
  unfold toSizeT
  omega

section Block

variable {size : ℕ} {records block : List (List Byte)}

/-- INTERNAL: **the records of a block** are the slots its scan passes.
SRCLINE: library.cc:110-122 -/
theorem blockRecords_eq_some_iff (hs : 0 < size) (buffer : List Byte) (left j : ℕ)
    (found : List (List Byte)) :
    blockRecords buffer size left j = some found ↔
      ∃ m, ScansTo buffer size left j m ∧
        found = (List.range m).map fun i => slot buffer size 0 (j + i) := by
  induction left generalizing j found with
  | zero =>
    constructor
    · intro h
      exact ⟨0, ⟨le_rfl, fun i hi => absurd hi (Nat.not_lt_zero i), fun h => absurd h (lt_irrefl 0)⟩,
        (Option.some.inj h).symm⟩
    · rintro ⟨m, hm, rfl⟩
      rw [Nat.le_zero.mp hm.le]
      rfl
  | succ left ih =>
    rw [blockRecords]
    have hnext : size * (j + 1) = size * j + size := Nat.mul_succ size j
    by_cases hbehind : buffer.length ≤ size * j
    · rw [if_pos hbehind]
      refine iff_of_false nofun ?_
      rintro ⟨m, hm, -⟩
      rcases Nat.eq_zero_or_pos m with rfl | hpos
      · exact absurd (hm.stop (Nat.succ_pos left)).1 (not_lt.mpr hbehind)
      · exact absurd (hm.pass 0 hpos).1 (by rw [Nat.add_zero]; omega)
    rw [if_neg hbehind]
    by_cases hnul : buffer.getD (size * j) 0 = 0
    · rw [if_pos hnul]
      constructor
      · intro h
        refine ⟨0, ⟨Nat.zero_le _, fun i hi => absurd hi (Nat.not_lt_zero i), fun _ => ?_⟩,
          (Option.some.inj h).symm⟩
        exact ⟨not_le.mp hbehind, hnul⟩
      · rintro ⟨m, hm, rfl⟩
        rcases Nat.eq_zero_or_pos m with rfl | hpos
        · rfl
        · exact absurd hnul (hm.pass 0 hpos).2.1
    rw [if_neg hnul]
    have hstart : ∀ {m}, ScansTo buffer size (left + 1) j m → 0 < m := by
      intro m hm
      rcases Nat.eq_zero_or_pos m with rfl | hpos
      · exact absurd (hm.stop (Nat.succ_pos left)).2 hnul
      · exact hpos
    by_cases hbad : buffer.length < size * (j + 1) ∨ j + 1 = 2 ^ 31
    · rw [if_pos hbad]
      refine iff_of_false nofun ?_
      rintro ⟨m, hm, -⟩
      obtain ⟨hends, -, hcount⟩ := hm.pass 0 (hstart hm)
      exact hbad.elim (fun h => absurd hends (not_le.mpr h)) hcount
    rw [if_neg hbad, Option.map_eq_some_iff]
    obtain ⟨hends, hcount⟩ := not_or.mp hbad
    -- the scan of the slots behind this one, shifted by one
    have hshift : ∀ m, ScansTo buffer size (left + 1) j (m + 1) ↔
        ScansTo buffer size left (j + 1) m := by
      intro m
      have hadd : ∀ i, j + (i + 1) = j + 1 + i := fun i => by omega
      constructor
      · rintro ⟨hle, hpass, hstop⟩
        refine ⟨Nat.succ_le_succ_iff.mp hle, fun i hi => ?_, fun hlt => ?_⟩
        · have hthis := hpass (i + 1) (Nat.succ_lt_succ hi)
          rwa [hadd] at hthis
        · have hthis := hstop (Nat.succ_lt_succ hlt)
          rwa [hadd] at hthis
      · rintro ⟨hle, hpass, hstop⟩
        refine ⟨Nat.succ_le_succ hle, fun i hi => ?_, fun hlt => ?_⟩
        · cases i with
          | zero => exact ⟨not_lt.mp hends, hnul, hcount⟩
          | succ i =>
            rw [hadd]
            exact hpass i (Nat.succ_lt_succ_iff.mp hi)
        · rw [hadd]
          exact hstop (Nat.succ_lt_succ_iff.mp hlt)
    have hmap : ∀ m, (List.range (m + 1)).map (fun i => slot buffer size 0 (j + i)) =
        slot buffer size 0 j :: (List.range m).map fun i => slot buffer size 0 (j + 1 + i) := by
      intro m
      rw [List.range_succ_eq_map, List.map_cons, List.map_map, Nat.add_zero]
      refine congrArg _ (List.map_congr_left fun i _ => ?_)
      rw [Function.comp_apply, Nat.succ_eq_add_one, Nat.add_comm i 1, Nat.add_assoc]
    constructor
    · rintro ⟨rest, hrest, rfl⟩
      obtain ⟨m, hm, rfl⟩ := (ih _ _).mp hrest
      exact ⟨m + 1, (hshift m).mpr hm, (hmap m).symm⟩
    · rintro ⟨m, hm, rfl⟩
      obtain ⟨m, rfl⟩ := Nat.exists_eq_succ_of_ne_zero (hstart hm).ne'
      exact ⟨_, (ih _ _).mpr ⟨m, (hshift m).mp hm, rfl⟩, (hmap m).symm⟩

/-- INTERNAL: the slots a scan passes are complete. -/
theorem ScansTo.length_of_mem {buffer : List Byte} {left m : ℕ}
    (hscan : ScansTo buffer size left 0 m) :
    ∀ r ∈ (List.range m).map fun i => slot buffer size 0 (0 + i), r.length = size := by
  intro r hr
  obtain ⟨i, hi, rfl⟩ := List.mem_map.mp hr
  obtain ⟨hends, -⟩ := hscan.pass i (List.mem_range.mp hi)
  rw [Nat.zero_add, Nat.mul_succ] at hends
  rw [slot, Nat.zero_add, Nat.zero_add, List.length_take, List.length_drop, mul_comm i]
  omega

/-- INTERNAL: a scan of a buffer that is too small for all slots does not pass all of them. -/
theorem ScansTo.lt_of_short {buffer : List Byte} {left m : ℕ}
    (hscan : ScansTo buffer size left 0 m) (hshort : buffer.length < size * left) : m < left := by
  by_contra hall
  have hleft : left ≠ 0 := by
    rintro rfl
    simp at hshort
  obtain ⟨hends, -⟩ := hscan.pass (left - 1) (by omega)
  rw [show 0 + (left - 1) + 1 = left by omega] at hends
  omega

/-- INTERNAL: the buffer of a block: what was read, and zeros behind it.
SRCLINE: library.cc:103-106 -/
theorem getD_buffer {data : List Byte} {n k : ℕ} (hdata : data.length ≤ n) :
    (overwrite (List.replicate n 0) 0 data).getD k 0 = data.getD k 0 := by
  unfold overwrite
  split_ifs with hnil
  · subst hnil
    simp [List.getD_eq_getElem?_getD, List.getElem?_replicate]
    split_ifs <;> rfl
  · simp only [List.take_zero, Nat.zero_sub, List.replicate_zero, List.nil_append, Nat.zero_add,
      List.drop_replicate, List.getD_eq_getElem?_getD]
    rcases Nat.lt_or_ge k data.length with hlt | hge
    · rw [List.getElem?_append_left hlt]
    · rw [List.getElem?_append_right hge, List.getElem?_eq_none hge, List.getElem?_replicate]
      split_ifs <;> rfl

/-- INTERNAL: the buffer of a block has the size it was given. -/
theorem length_buffer {data : List Byte} {n : ℕ} (hdata : data.length ≤ n) :
    (overwrite (List.replicate n 0) 0 data).length = n := by
  rw [length_overwrite _ _ (by rw [List.length_replicate]; omega), List.length_replicate]

/-- INTERNAL: the records found in the buffer are those that were read into it, if it has room
for them and they are less than `2 ^ 31`.  What follows them was zeroed.
SRCLINE: library.cc:103-122 -/
theorem blockRecords_eq (hs : 0 < size) (h : PlainRecords size block) {runLength n : ℕ}
    (hle : block.length ≤ runLength) (hroom : size * block.length ≤ n)
    (hmore : block.length < runLength → size * block.length < n) (hcount : block.length < 2 ^ 31) :
    blockRecords (overwrite (List.replicate n 0) 0 block.flatten) size runLength 0 =
      some block := by
  have hflat := length_flatten_of_size h.length_eq
  have hdata : block.flatten.length ≤ n := hflat.trans_le hroom
  have hbuffer : ∀ i (hi : i < block.length),
      slot (overwrite (List.replicate n 0) 0 block.flatten) size 0 i = block[i] := by
    intro i hi
    have hslot := slot_flatten h.length_eq (d := 0) (i := i) (by omega)
    simp only [Nat.zero_mul, Nat.zero_add] at hslot
    rw [← hslot, slot, slot, overwrite, if_neg (by
      intro hnil
      rw [hnil, List.length_nil] at hflat
      have := Nat.mul_pos hs (Nat.zero_lt_of_lt hi)
      omega)]
    simp only [List.take_zero, Nat.zero_sub, List.replicate_zero, List.nil_append, Nat.zero_add]
    have hend := Nat.mul_le_mul_left size (Nat.succ_le_of_lt hi)
    rw [Nat.mul_succ, mul_comm size i] at hend
    rw [List.drop_append_of_le_length (by omega), List.take_append_of_le_length]
    rw [List.length_drop]
    omega
  rw [blockRecords_eq_some_iff hs]
  refine ⟨block.length, ⟨hle, fun i hi => ?_, fun hlt => ?_⟩, ?_⟩
  · have hend := Nat.mul_le_mul_left size (Nat.succ_le_of_lt hi)
    rw [Nat.zero_add, length_buffer hdata]
    refine ⟨hend.trans hroom, ?_, by omega⟩
    -- the byte is the first of a record
    have hr := h.length_eq _ (List.getElem_mem hi)
    have hfree := h.nulFree _ (List.getElem_mem hi)
    have hbyte : (slot block.flatten size 0 i).getD 0 0 = block.flatten.getD (size * i) 0 := by
      simp only [slot, Nat.zero_add, List.getD_eq_getElem?_getD]
      rw [List.getElem?_take_of_lt hs, List.getElem?_drop, Nat.add_zero, mul_comm]
    have hslot := slot_flatten h.length_eq (d := 0) (i := i) (by omega)
    simp only [Nat.zero_mul, Nat.zero_add] at hslot
    rw [getD_buffer hdata, ← hbyte, hslot]
    generalize block[i] = r at hr hfree
    cases r with
    | nil =>
      rw [List.length_nil] at hr
      omega
    | cons b r => exact hfree b (List.mem_cons_self ..)
  · rw [Nat.zero_add, length_buffer hdata, getD_buffer hdata]
    exact ⟨hmore hlt, by rw [List.getD_eq_getElem?_getD, List.getElem?_eq_none hflat.le]; rfl⟩
  · apply List.ext_getElem
    · rw [List.length_map, List.length_range]
    · intro i h1 h2
      rw [List.getElem_map, List.getElem_range, Nat.zero_add, hbuffer i h1]

/-- INTERNAL: the buffer of a block has room for its records, and for a byte more if they are less
than a block.
SRCLINE: library.cc:94-95 -/
theorem block_room (hs : 0 < size) {runLength n m : ℕ}
    (hrequest : size * runLength < 2 ^ 64 ∨ n = 0 ∨ size * n < size * runLength % 2 ^ 64)
    (hpos : 0 < m) (hn : m ≤ n) (hm : m ≤ runLength) :
    size * m ≤ size * runLength % 2 ^ 64 ∧
      (m < runLength → size * m < size * runLength % 2 ^ 64) := by
  have hmul := Nat.mul_le_mul_left size hn
  rcases hrequest with hfits | hnone | hless
  · rw [Nat.mod_eq_of_lt hfits]
    exact ⟨Nat.mul_le_mul_left size hm, fun hlt => Nat.mul_lt_mul_of_pos_left hlt hs⟩
  · omega
  · exact ⟨by omega, fun _ => by omega⟩

/-- INTERNAL: what `fread` gets of a file of records after `d` of them.
SRCLINE: library.cc:106 -/
theorem fread_block (h : PlainRecords size records) (hs : 0 < size) {fp : File}
    (hcontents : fp.contents = records.flatten) {d : ℕ} (hpos : fp.pos = d * size)
    {runLength : ℕ} (hrequest : size * runLength < 2 ^ 64 ∨ records.length = 0 ∨
      size * records.length < size * runLength % 2 ^ 64) :
    (fp.freadWrapped size runLength).1 = ((records.drop d).take runLength).flatten ∧
      (fp.freadWrapped size runLength).2.1 = ((records.drop d).take runLength).length ∧
      (fp.freadWrapped size runLength).2.2.pos =
        (d + ((records.drop d).take runLength).length) * size := by
  have hplain := h.sublist ((List.take_sublist runLength _).trans (List.drop_sublist d _))
  have hlen := length_flatten_of_size hplain.length_eq
  have hcast : ((size : ℤ) * (runLength : ℤ)) = ((size * runLength : ℕ) : ℤ) := by push_cast; rfl
  have hrest : records.flatten.drop (d * size) = (records.drop d).flatten :=
    drop_flatten_of_size h.length_eq d
  have hrestlen := length_flatten_of_size (h.sublist (List.drop_sublist d _)).length_eq
  -- either way, it gets the bytes of the block
  have hdata : (fp.freadWrapped size runLength).1 = ((records.drop d).take runLength).flatten := by
    show (fp.contents.drop fp.pos).take (toSizeT _) = _
    rw [hcontents, hpos, hrest, hcast, toSizeT_natCast,
      ← take_flatten_of_size (h.sublist (List.drop_sublist _ _)).length_eq]
    rcases hrequest with hfits | hnone | hless
    · rw [Nat.mod_eq_of_lt hfits]
    · rw [List.length_eq_zero_iff.mp hnone, List.drop_nil, List.flatten_nil, List.take_nil,
        List.take_nil]
    · have hshort : (records.drop d).flatten.length ≤ size * records.length := by
        rw [hrestlen]
        exact Nat.mul_le_mul_left size (List.length_drop .. ▸ Nat.sub_le _ _)
      rw [List.take_of_length_le (by omega),
        List.take_of_length_le ((hshort.trans hless.le).trans (Nat.mod_le _ _))]
  refine ⟨hdata, ?_, ?_⟩
  · show (if (fp.freadWrapped size runLength).1.length = toSizeT _ ∧ toSizeT _ ≠ 0 then runLength
      else (fp.freadWrapped size runLength).1.length / size) = _
    rw [hdata, hlen, hcast, toSizeT_natCast, Nat.mul_div_cancel_left _ hs]
    split_ifs with hfull
    · obtain ⟨hall, hne⟩ := hfull
      have hle : ((records.drop d).take runLength).length ≤ runLength := List.length_take_le _ _
      rcases hrequest with hfits | hnone | hless
      · rw [Nat.mod_eq_of_lt hfits] at hall
        exact (Nat.eq_of_mul_eq_mul_left hs hall).symm
      · rw [List.length_eq_zero_iff.mp hnone, List.drop_nil, List.take_nil, List.length_nil,
          Nat.mul_zero] at hall
        exact absurd hall.symm hne
      · have hshort : ((records.drop d).take runLength).length ≤ records.length := by
          rw [List.length_take, List.length_drop]
          omega
        have := Nat.mul_le_mul_left size hshort
        omega
    · rfl
  · show fp.pos + (fp.freadWrapped size runLength).1.length = _
    rw [hdata, hlen, hpos, Nat.add_mul, mul_comm size]

end Block

section Runs

variable {schema : Schema} {runLength : ℕ} {records runs : List (List Byte)}

/-- INTERNAL: block `i` of the records. -/
def block (runLength : ℕ) (records : List (List Byte)) (i : ℕ) : List (List Byte) :=
  (records.drop (i * runLength)).take runLength

/-- INTERNAL: the runs made of the first `q` blocks.
SRCLINE: library.cc:124-131 -/
def blockRuns (qsort : Qsort) (schema : Schema) (runLength : ℕ) (records : List (List Byte))
    (q : ℕ) : List (List Byte) :=
  (List.range q).flatMap fun i =>
    qsort.sort (recordComparator schema) (block runLength records i)

section BlockRuns

variable (qsort : Qsort)

/-- INTERNAL: one more block is one more run. -/
theorem blockRuns_succ (q : ℕ) :
    blockRuns qsort schema runLength records (q + 1) =
      blockRuns qsort schema runLength records q ++
        qsort.sort (recordComparator schema) (block runLength records q) := by
  rw [blockRuns, List.range_succ, List.flatMap_append, List.flatMap_singleton]
  rfl

/-- INTERNAL: a sorted block has the records of the block. -/
theorem sort_perm (schema : Schema) (l : List (List Byte)) :
    (qsort.sort (recordComparator schema) l).Perm l :=
  qsort.perm _ (totalPreorder_comparator schema) l

/-- INTERNAL: the runs of the first blocks come first. -/
theorem blockRuns_append {i q : ℕ} (h : i ≤ q) :
    ∃ rest, blockRuns qsort schema runLength records q =
      blockRuns qsort schema runLength records i ++ rest := by
  induction q, h using Nat.le_induction with
  | base => exact ⟨[], (List.append_nil _).symm⟩
  | succ q _ ih =>
    obtain ⟨rest, hrest⟩ := ih
    exact ⟨_, by rw [blockRuns_succ, hrest, List.append_assoc]⟩

/-- INTERNAL: the runs of the first blocks are the records of these. -/
theorem blockRuns_perm (schema : Schema) (runLength : ℕ) (records : List (List Byte)) (q : ℕ) :
    (blockRuns qsort schema runLength records q).Perm (records.take (q * runLength)) := by
  induction q with
  | zero => simp [blockRuns]
  | succ q ih =>
    rw [blockRuns_succ, Nat.succ_mul, List.take_add]
    exact ih.append (sort_perm qsort schema _)

/-- INTERNAL: **every run is its block, sorted.** -/
theorem run_blockRuns {q : ℕ} (hq : records.length ≤ q * runLength) (i : ℕ) :
    ((blockRuns qsort schema runLength records q).drop (i * runLength)).take runLength =
      qsort.sort (recordComparator schema) (block runLength records i) := by
  have hlength : ∀ j, (blockRuns qsort schema runLength records j).length =
      min (j * runLength) records.length := fun j => by
    rw [(blockRuns_perm qsort schema runLength records j).length_eq, List.length_take]
  have hsorted := (sort_perm qsort schema (block runLength records i)).length_eq
  have hblock : (block runLength records i).length =
      min runLength (records.length - i * runLength) := by
    rw [block, List.length_take, List.length_drop]
  rcases Nat.lt_or_ge (i * runLength) records.length with hlt | hge
  · -- the runs before it fill their places, and those behind it are empty if it is short
    have hiq : i < q := by
      by_contra hqi
      have := Nat.mul_le_mul_right runLength (not_lt.mp hqi)
      omega
    obtain ⟨rest, hrest⟩ := @blockRuns_append schema runLength records qsort _ _ hiq
    rw [blockRuns_succ, List.append_assoc] at hrest
    have htotal := congrArg List.length hrest
    rw [hlength, List.length_append, hlength, List.length_append, hsorted] at htotal
    rw [hrest, List.drop_left' (by rw [hlength]; omega)]
    rcases Nat.lt_or_ge (block runLength records i).length runLength with hshort | hfull
    · have hnil : rest = [] := List.length_eq_zero_iff.mp (by omega)
      rw [hnil, List.append_nil, List.take_of_length_le (by omega)]
    · exact List.take_left' (by omega)
  · have hempty : block runLength records i = [] := List.length_eq_zero_iff.mp (by omega)
    have hnil : qsort.sort (recordComparator schema) (block runLength records i) = [] :=
      List.length_eq_zero_iff.mp (by rw [hsorted, hempty]; rfl)
    rw [hnil, List.drop_eq_nil_of_le (by rw [hlength]; omega), List.take_nil]

/-- INTERNAL: **a sorted block is sorted by the comparator**, if two records in it can be
compared. -/
theorem recordSorted_sort {l : List (List Byte)} (h : l.length ≤ 1 ∨ Inside schema) :
    RecordSorted schema (qsort.sort (recordComparator schema) l) := by
  rcases h with hone | hinside
  · have hlen := (sort_perm qsort schema l).length_eq
    generalize qsort.sort (recordComparator schema) l = sorted at hlen
    match sorted with
    | [] => exact List.Pairwise.nil
    | [r] => exact List.pairwise_singleton _ _
    | r :: s :: rest =>
      simp only [List.length_cons] at hlen
      omega
  · refine (qsort.sorted _ (totalPreorder_comparator schema) l).imp fun {a b} hle => ?_
    rw [hinside.inOrder_iff, ← hinside.comparedFields_eq, ← hinside.comparedFields_eq]
    exact (recordComparator_le_zero_iff schema a b).mp hle

/-- INTERNAL: a block has more than one record only if its bounds allow it. -/
theorem RunsFit.block_compare (hfit : RunsFit schema runLength records.length) (i : ℕ) :
    (block runLength records i).length ≤ 1 ∨ Inside schema := by
  have hblock : (block runLength records i).length =
      min runLength (records.length - i * runLength) := by
    rw [block, List.length_take, List.length_drop]
  rcases hfit.compare with hlen | hn | hinside
  · exact Or.inl (by omega)
  · exact Or.inl (by omega)
  · exact Or.inr hinside

/-- INTERNAL: the runs of all blocks are the records, in sorted runs. -/
theorem runsOf_blockRuns (hfit : RunsFit schema runLength records.length) {q : ℕ}
    (hq : records.length ≤ q * runLength) :
    RunsOf schema runLength records (blockRuns qsort schema runLength records q) := by
  constructor
  · have hperm := blockRuns_perm qsort schema runLength records q
    rwa [List.take_of_length_le hq] at hperm
  · intro i
    rw [mul_comm, run_blockRuns qsort hq]
    exact recordSorted_sort qsort (hfit.block_compare i)

end BlockRuns

/-- INTERNAL: the state of `mk_runs` after `q` full blocks: they were read, and written as
runs.
SRCLINE: library.cc:99-134 -/
structure RunsMade (qsort : Qsort) (schema : Schema) (runLength : ℕ) (records : List (List Byte))
    (q : ℕ) (st : File × File) : Prop where
  read_le : q * runLength ≤ records.length
  in_contents : st.1.contents = records.flatten
  in_pos : st.1.pos = q * runLength * schema.recordSize
  out_pos : st.2.pos = st.2.contents.length
  out_runs : st.2.contents = (blockRuns qsort schema runLength records q).flatten

/-- INTERNAL: what is left when `mk_runs` returns: all blocks were written as runs. -/
def RunsDone (qsort : Qsort) (schema : Schema) (runLength : ℕ) (records : List (List Byte))
    (st : File × File) : Prop :=
  st.1.contents = records.flatten ∧ ∃ q, records.length ≤ q * runLength ∧
    st.2.contents = (blockRuns qsort schema runLength records q).flatten

/-- INTERNAL: **one block** of `mk_runs`, if the request for it fits.
SRCLINE: library.cc:99-134 -/
theorem mkRun_eq (qsort : Qsort) (hs : 0 < schema.recordSize)
    (h : PlainRecords schema.recordSize records)
    (hrequest : schema.recordSize * runLength < 2 ^ 64 ∨ records.length = 0 ∨
      schema.recordSize * records.length < schema.recordSize * runLength % 2 ^ 64) {q : ℕ}
    {st : File × File} (hst : RunsMade qsort schema runLength records q st) :
    ∃ inFp', inFp'.contents = records.flatten ∧
      inFp'.pos = (q * runLength + (block runLength records q).length) * schema.recordSize ∧
      mkRun qsort schema runLength st =
        if (block runLength records q).length = 0 then some (.inr (inFp', st.2))
        else
          (blockRecords (overwrite (List.replicate (schema.recordSize * runLength % 2 ^ 64) 0) 0
            (block runLength records q).flatten) schema.recordSize runLength 0).bind fun found =>
            (sortBlock qsort schema found).map fun sorted =>
              if found.length = runLength then .inl (inFp', sorted.foldl File.fwrite st.2)
              else .inr (inFp', sorted.foldl File.fwrite st.2) := by
  obtain ⟨hdata, hitems, hpos⟩ := fread_block h hs hst.in_contents hst.in_pos hrequest
  rw [← block] at hdata hitems hpos
  have hcast : ((schema.recordSize : ℤ) * (runLength : ℤ)) =
      ((schema.recordSize * runLength : ℕ) : ℤ) := by push_cast; rfl
  refine ⟨(st.1.freadWrapped schema.recordSize runLength).2.2, hst.in_contents, hpos, ?_⟩
  unfold mkRun
  dsimp only
  rw [hdata, hitems, hcast, toSizeT_natCast]

/-- INTERNAL: a block of records is sorted, if any two of them can be compared.
SRCLINE: library.cc:125 -/
theorem sortBlock_eq (qsort : Qsort) {l : List (List Byte)} (h : l.length ≤ 1 ∨ Inside schema) :
    sortBlock qsort schema l = some (qsort.sort (recordComparator schema) l) := by
  refine if_pos ?_
  rcases h with hone | hinside
  · match l with
    | [] => exact List.Pairwise.nil
    | [r] => exact List.pairwise_singleton _ _
    | r :: s :: rest =>
      simp only [List.length_cons] at hone
      omega
  · refine List.pairwise_of_forall fun r s => ?_
    obtain ⟨v, hv, -⟩ := hinside.comparator_spec r s
    rw [hv]
    rfl

/-- INTERNAL: **a block of `mk_runs`**: it is the last, and all records are in runs, or it
is full.
SRCLINE: library.cc:99-134 -/
theorem mkRun_spec (qsort : Qsort) (hs : 0 < schema.recordSize)
    (h : PlainRecords schema.recordSize records) (hlen : 1 ≤ runLength)
    (hfit : RunsFit schema runLength records.length) {q : ℕ} {st : File × File}
    (hst : RunsMade qsort schema runLength records q st) :
    (∃ st', mkRun qsort schema runLength st = some (.inl st') ∧
      RunsMade qsort schema runLength records (q + 1) st') ∨
    ∃ st', mkRun qsort schema runLength st = some (.inr st') ∧
      RunsDone qsort schema runLength records st' := by
  have hle := hst.read_le
  have hplain : PlainRecords schema.recordSize (block runLength records q) :=
    h.sublist ((List.take_sublist _ _).trans (List.drop_sublist _ _))
  have hblocklen : (block runLength records q).length =
      min runLength (records.length - q * runLength) := by
    rw [block, List.length_take, List.length_drop]
  have hnext : (q + 1) * runLength = q * runLength + runLength := Nat.succ_mul q runLength
  obtain ⟨inFp', hin, hpos, hrun⟩ := mkRun_eq qsort hs h hfit.request hst
  rw [hrun]
  by_cases hempty : (block runLength records q).length = 0
  · rw [if_pos hempty]
    exact Or.inr ⟨_, rfl, hin, q, by omega, hst.out_runs⟩
  have hcount : (block runLength records q).length < 2 ^ 31 := by
    rcases hfit.count with hlt | hlt <;> omega
  obtain ⟨hroom, hmore⟩ := block_room hs hfit.request (Nat.pos_of_ne_zero hempty)
    (show _ ≤ records.length by omega) (by omega)
  rw [if_neg hempty, blockRecords_eq hs hplain (by omega) hroom hmore hcount, Option.bind_some,
    sortBlock_eq qsort (hfit.block_compare q), Option.map_some]
  obtain ⟨hwritten, hend⟩ := foldl_fwrite_append
    (qsort.sort (recordComparator schema) (block runLength records q)) st.2 hst.out_pos
  rw [hst.out_runs, ← List.flatten_append, ← blockRuns_succ] at hwritten
  by_cases hfull : (block runLength records q).length = runLength
  · rw [if_pos hfull]
    rw [hfull, ← hnext] at hpos
    exact Or.inl ⟨_, rfl, by omega, hin, hpos, hend, hwritten⟩
  · rw [if_neg hfull]
    exact Or.inr ⟨_, rfl, hin, q + 1, by omega, hwritten⟩

/-- INTERNAL: the state `mk_runs` begins with. -/
theorem runsMade_zero (qsort : Qsort) {inFp : File} (hin : inFp.contents = records.flatten) :
    RunsMade qsort schema runLength records 0 (inFp.fseek 0, (File.open_ []).fseek 0) :=
  ⟨by simp, by simp [hin], by simp, rfl, rfl⟩

/-- INTERNAL: **`mk_runs`** returns, and has written every block as a run.
SRCLINE: library.cc:90-137 -/
theorem mkRuns_done (qsort : Qsort) (hs : 0 < schema.recordSize)
    (h : PlainRecords schema.recordSize records) (hlen : 1 ≤ runLength)
    (hfit : RunsFit schema runLength records.length) {inFp : File}
    (hin : inFp.contents = records.flatten) {fuel : ℕ} (hfuel : records.length < fuel) :
    ∃ st, mkRuns fuel qsort inFp (File.open_ []) runLength schema = some st ∧
      RunsDone qsort schema runLength records st := by
  -- the variant is the number of records not yet read
  exact loop_total
    (fun n (st : File × File) => ∃ q, RunsMade qsort schema runLength records q st ∧
      n = records.length - q * runLength)
    (RunsDone qsort schema runLength records)
    (by
      rintro n st ⟨q, hst, hn⟩
      rcases mkRun_spec qsort hs h hlen hfit hst with ⟨st', hstep, hst'⟩ | ⟨st', hstep, hdone⟩
      · have hmore := hst'.read_le
        rw [Nat.succ_mul] at hmore
        refine Or.inl ⟨_, st', hstep, ⟨q + 1, hst', rfl⟩, ?_⟩
        rw [hn, Nat.succ_mul]
        omega
      · exact Or.inr ⟨st', hstep, hdone⟩)
    ⟨0, runsMade_zero qsort hin, rfl⟩ (show records.length - 0 * runLength < fuel by omega)

/-- INTERNAL: `mk_runs` leaves the input as it is, and writes all its records in sorted
runs.
SRCLINE: library.cc:90-137 -/
theorem mkRuns_runs (qsort : Qsort) (hs : 0 < schema.recordSize)
    (h : PlainRecords schema.recordSize records) (hlen : 1 ≤ runLength)
    (hfit : RunsFit schema runLength records.length) {inFp : File}
    (hin : inFp.contents = records.flatten) {fuel : ℕ} (hfuel : records.length < fuel) :
    ∃ inFp' outFp runs, mkRuns fuel qsort inFp (File.open_ []) runLength schema =
        some (inFp', outFp) ∧ inFp'.contents = records.flatten ∧
      outFp.contents = runs.flatten ∧ RunsOf schema runLength records runs := by
  obtain ⟨⟨inFp', outFp⟩, hrun, hcontents, q, hq, hout⟩ :=
    mkRuns_done qsort hs h hlen hfit hin hfuel
  exact ⟨inFp', outFp, _, hrun, hcontents, hout, runsOf_blockRuns qsort hfit hq⟩

/-- `mk_runs` makes sorted runs of the given length of the records in a file: it returns and
leaves as many records in the empty file it was given, and every block of the output is a
permutation of the same block of the input, sorted by the comparator.
SRCLINE: library.cc:90-137 -/
def MakesSortedRuns (qsort : Qsort) (schema : Schema) (runLength : ℕ) (records : List (List Byte))
    (inFp : File) : Prop :=
  ∃ (inFp' outFp : File) (runs : List (List Byte)), (∀ fuel, records.length < fuel →
      mkRuns fuel qsort inFp (File.open_ []) runLength schema = some (inFp', outFp)) ∧
    outFp.contents = runs.flatten ∧ runs.length = records.length ∧
    (∀ r ∈ runs, r.length = schema.recordSize) ∧
    ∀ i, ((runs.drop (i * runLength)).take runLength).Perm
        ((records.drop (i * runLength)).take runLength) ∧
      RecordSorted schema ((runs.drop (i * runLength)).take runLength)

/-- INTERNAL: where the numbers fit, `mk_runs` makes sorted runs. -/
theorem RunsFit.makesSortedRuns (hfit : RunsFit schema runLength records.length) (qsort : Qsort)
    (hs : 0 < schema.recordSize) (hlen : 1 ≤ runLength)
    (h : PlainRecords schema.recordSize records) {inFp : File}
    (hin : inFp.contents = records.flatten) :
    MakesSortedRuns qsort schema runLength records inFp := by
  obtain ⟨⟨inFp', outFp⟩, hrun, -, q, hq, hout⟩ :=
    mkRuns_done qsort hs h hlen hfit hin (Nat.lt_succ_self records.length)
  have hruns : RunsOf schema runLength records _ := runsOf_blockRuns qsort hfit hq
  refine ⟨inFp', outFp, _, fun fuel hfuel => loop_mono hfuel hrun, hout, hruns.perm.length_eq,
    fun r hr => h.length_eq r (hruns.perm.subset hr), fun i => ?_⟩
  rw [run_blockRuns qsort hq]
  exact ⟨sort_perm qsort schema _, recordSorted_sort qsort (hfit.block_compare i)⟩

section Unfit

/-- INTERNAL: a scan does not stop before a slot that begins with a NUL or lies behind the
buffer. -/
theorem ScansTo.le_of_heads {buffer : List Byte} {size left m n : ℕ}
    (hscan : ScansTo buffer size left 0 m) (hn : n ≤ left)
    (hheads : ∀ j < n, size * j < buffer.length → buffer.getD (size * j) 0 ≠ 0) : n ≤ m := by
  by_contra hlt
  obtain ⟨hinside, hnul⟩ := hscan.stop (by omega)
  rw [Nat.zero_add] at hinside hnul
  exact hheads m (not_le.mp hlt) hinside hnul

/-- INTERNAL: a round of `mk_runs` that does not come back leaves no result. -/
theorem not_makesSortedRuns_of_none {qsort : Qsort} {inFp : File}
    (h : mkRun qsort schema runLength (inFp.fseek 0, (File.open_ []).fseek 0) = none) :
    ¬ MakesSortedRuns qsort schema runLength records inFp := by
  rintro ⟨inFp', outFp, runs, hrun, -⟩
  have hnone := loop_eq_none h (records.length + 1)
  rw [show loop (mkRun qsort schema runLength) _ _ = _ from hrun _ (Nat.lt_succ_self _)] at hnone
  cases hnone

/-- Equal records of letters: `n` times `size` times the letter `a`. -/
def equalRecords (size n : ℕ) : List (List Byte) := List.replicate n (List.replicate size 97)

/-- INTERNAL: equal records of letters are complete and have no NUL. -/
theorem equalRecords_plain (size n : ℕ) : PlainRecords size (equalRecords size n) := by
  constructor
  · intro r hr
    rw [List.eq_of_mem_replicate hr, List.length_replicate]
  · intro r hr b hb
    rw [List.eq_of_mem_replicate hr] at hb
    rw [List.eq_of_mem_replicate hb]
    decide

/-- INTERNAL: a file of equal records is a file of letters. -/
theorem flatten_equalRecords (size n : ℕ) :
    (equalRecords size n).flatten = List.replicate (n * size) 97 :=
  List.flatten_replicate_replicate

/-- INTERNAL: a letter of a file of letters. -/
theorem getD_letters {n k : ℕ} (h : k < n) : (List.replicate n (97 : Byte)).getD k 0 ≠ 0 := by
  rw [List.getD_eq_getElem?_getD, List.getElem?_replicate, if_pos h]
  decide

/-- INTERNAL: **a size that wraps around below the file.**  If what is left of the size of a block
is nothing, no record is read; otherwise all of it is read, and the scan goes on behind the
buffer.
SRCLINE: library.cc:94-95, library.cc:106-116 -/
theorem not_makesSortedRuns_of_wrapped (qsort : Qsort) (hs : 0 < schema.recordSize) {n : ℕ}
    (hwraps : 2 ^ 64 ≤ schema.recordSize * runLength) (hn : n ≠ 0)
    (hfile : schema.recordSize * runLength % 2 ^ 64 ≤ schema.recordSize * n) :
    ¬ MakesSortedRuns qsort schema runLength (equalRecords schema.recordSize n)
      (File.open_ (equalRecords schema.recordSize n).flatten) := by
  set request := schema.recordSize * runLength % 2 ^ 64 with hrequest
  have hcast : ((schema.recordSize : ℤ) * (runLength : ℤ)) =
      ((schema.recordSize * runLength : ℕ) : ℤ) := by push_cast; rfl
  have hsmall : request < 2 ^ 64 := Nat.mod_lt _ (by decide)
  have hlen : runLength ≠ 0 := by
    rintro rfl
    simp at hwraps
  have hdata : ((File.open_ (equalRecords schema.recordSize n).flatten).fseek 0).freadWrapped
      schema.recordSize runLength = (List.replicate request 97,
        if request = 0 then 0 else runLength,
        ⟨(equalRecords schema.recordSize n).flatten, request, false⟩) := by
    have htake : (List.replicate (n * schema.recordSize) (97 : Byte)).take request =
        List.replicate request 97 := by
      rw [List.take_replicate, min_eq_left (by rw [mul_comm]; exact hfile)]
    rw [File.freadWrapped, hcast, toSizeT_natCast, ← hrequest]
    simp only [File.open_, File.fseek, le_refl, if_true, Int.toNat_zero, List.drop_zero,
      flatten_equalRecords, htake, List.length_replicate, Nat.zero_add, true_and, ne_eq,
      lt_irrefl, decide_false, Bool.or_false]
    by_cases hzero : request = 0
    · simp [hzero]
    · simp [hzero]
  by_cases hzero : request = 0
  · -- nothing is read, and nothing written
    rintro ⟨inFp', outFp, runs, hrun, hout, hruns, hsizes, -⟩
    have hstop : mkRun qsort schema runLength
        ((File.open_ (equalRecords schema.recordSize n).flatten).fseek 0, (File.open_ []).fseek 0) =
        some (.inr (⟨(equalRecords schema.recordSize n).flatten, request, false⟩,
          (File.open_ []).fseek 0)) := by
      unfold mkRun
      rw [hdata]
      simp [hzero]
    have hrun' := hrun _ (Nat.lt_succ_self _)
    rw [mkRuns, loop_succ_inr hstop] at hrun'
    cases hrun'
    have hlength := congrArg List.length hout
    rw [length_flatten_of_size hsizes, hruns, equalRecords, List.length_replicate] at hlength
    have := Nat.mul_pos hs (Nat.pos_of_ne_zero hn)
    have hnone : ((File.open_ []).fseek 0).contents.length = 0 := rfl
    omega
  · apply not_makesSortedRuns_of_none
    unfold mkRun
    dsimp only
    rw [hdata, hcast, toSizeT_natCast, ← hrequest]
    simp only [if_neg hzero, if_neg hlen]
    have hlength : (overwrite (List.replicate request 0) 0 (List.replicate request (97 : Byte))).length =
        request := length_buffer (by rw [List.length_replicate])
    cases hfound : blockRecords (overwrite (List.replicate request 0) 0
        (List.replicate request 97)) schema.recordSize runLength 0 with
    | none => rfl
    | some found =>
      obtain ⟨m, hscan, -⟩ := (blockRecords_eq_some_iff hs _ _ _ _).mp hfound
      have hall : runLength ≤ m := hscan.le_of_heads le_rfl fun j _ hj => by
        rw [getD_buffer (by rw [List.length_replicate])]
        exact getD_letters (hj.trans_eq hlength)
      exact absurd (hscan.lt_of_short (by omega)) (not_lt.mpr hall)

/-- INTERNAL: the first block of equal records.
SRCLINE: library.cc:99-134 -/
theorem mkRun_equalRecords (qsort : Qsort) (hs : 0 < schema.recordSize) {n : ℕ}
    (hrequest : schema.recordSize * runLength < 2 ^ 64 ∨ n = 0 ∨
      schema.recordSize * n < schema.recordSize * runLength % 2 ^ 64)
    (hlen : 1 < runLength) (hn : 1 < n)
    (hnone : ((blockRecords (overwrite (List.replicate (schema.recordSize * runLength % 2 ^ 64) 0) 0
      (equalRecords schema.recordSize (min runLength n)).flatten) schema.recordSize runLength 0).bind
        (sortBlock qsort schema)) = none) :
    ¬ MakesSortedRuns qsort schema runLength (equalRecords schema.recordSize n)
      (File.open_ (equalRecords schema.recordSize n).flatten) := by
  have hlength : (equalRecords schema.recordSize n).length = n := List.length_replicate
  obtain ⟨inFp', -, -, hrun⟩ := mkRun_eq qsort hs (equalRecords_plain schema.recordSize n)
    (by rwa [hlength]) (runsMade_zero qsort (show (File.open_ _).contents = _ from rfl))
  have hblock : block runLength (equalRecords schema.recordSize n) 0 =
      equalRecords schema.recordSize (min runLength n) := by
    rw [block, Nat.zero_mul, List.drop_zero, equalRecords, List.take_replicate, equalRecords]
  have hne : ¬ (equalRecords schema.recordSize (min runLength n)).length = 0 := by
    rw [equalRecords, List.length_replicate]
    omega
  apply not_makesSortedRuns_of_none
  rw [hrun, hblock, if_neg hne]
  cases hfound : blockRecords (overwrite (List.replicate (schema.recordSize * runLength % 2 ^ 64) 0)
      0 (equalRecords schema.recordSize (min runLength n)).flatten) schema.recordSize runLength 0 with
  | none => rfl
  | some found =>
    rw [hfound, Option.bind_some] at hnone
    rw [Option.bind_some, hnone, Option.map_none]

/-- INTERNAL: **a block of more records than an `int` can count.**
SRCLINE: library.cc:111 -/
theorem not_makesSortedRuns_of_count (qsort : Qsort) (hs : 0 < schema.recordSize) {n : ℕ}
    (hrequest : schema.recordSize * runLength < 2 ^ 64 ∨ n = 0 ∨
      schema.recordSize * n < schema.recordSize * runLength % 2 ^ 64)
    (hlen : 2 ^ 31 ≤ runLength) (hn : 2 ^ 31 ≤ n) :
    ¬ MakesSortedRuns qsort schema runLength (equalRecords schema.recordSize n)
      (File.open_ (equalRecords schema.recordSize n).flatten) := by
  apply mkRun_equalRecords qsort hs hrequest (by omega) (by omega)
  obtain ⟨hroom, -⟩ := block_room hs hrequest (show 0 < min runLength n by omega)
    (Nat.min_le_right _ _) (Nat.min_le_left _ _)
  have hdata : (equalRecords schema.recordSize (min runLength n)).flatten.length ≤
      schema.recordSize * runLength % 2 ^ 64 := by
    rw [length_flatten_of_size (equalRecords_plain _ _).length_eq, equalRecords,
      List.length_replicate]
    exact hroom
  rw [Option.bind_eq_none_iff]
  intro found hfound
  obtain ⟨m, hscan, -⟩ := (blockRecords_eq_some_iff hs _ _ _ _).mp hfound
  have hall : min runLength n ≤ m := by
    refine hscan.le_of_heads (Nat.min_le_left _ _) fun j hj _ => ?_
    rw [getD_buffer hdata, flatten_equalRecords]
    refine getD_letters ?_
    rw [mul_comm]
    exact Nat.mul_lt_mul_of_pos_right hj hs
  obtain ⟨-, -, hint⟩ := hscan.pass (2 ^ 31 - 1) (by omega)
  omega

/-- INTERNAL: **records that are compared by bytes outside of them.**
SRCLINE: library.cc:125 -/
theorem not_makesSortedRuns_of_compare (qsort : Qsort) (hs : 0 < schema.recordSize) {n : ℕ}
    (hrequest : schema.recordSize * runLength < 2 ^ 64 ∨ n = 0 ∨
      schema.recordSize * n < schema.recordSize * runLength % 2 ^ 64)
    (hcount : runLength < 2 ^ 31 ∨ n < 2 ^ 31) (hlen : 1 < runLength) (hn : 1 < n)
    (hout : ¬ Inside schema) :
    ¬ MakesSortedRuns qsort schema runLength (equalRecords schema.recordSize n)
      (File.open_ (equalRecords schema.recordSize n).flatten) := by
  apply mkRun_equalRecords qsort hs hrequest hlen hn
  have hlength : (equalRecords schema.recordSize (min runLength n)).length = min runLength n :=
    List.length_replicate
  obtain ⟨hroom, hmore⟩ := block_room hs hrequest (show 0 < min runLength n by omega)
    (Nat.min_le_right _ _) (Nat.min_le_left _ _)
  have hint : min runLength n < 2 ^ 31 := by rcases hcount with h | h <;> omega
  rw [← hlength] at hroom hmore hint
  rw [blockRecords_eq hs (equalRecords_plain _ _) (by omega) hroom hmore hint, Option.bind_some,
    sortBlock, if_neg]
  -- two equal records, for which the comparator has no result
  obtain ⟨m, hm⟩ : ∃ m, min runLength n = m + 2 := ⟨min runLength n - 2, by omega⟩
  rw [hm, equalRecords, List.replicate_succ, List.replicate_succ, List.pairwise_cons]
  rintro ⟨hpair, -⟩
  have hsome := hpair _ (List.mem_cons_self ..)
  rw [(recordObjectComparator_eq_none_iff schema _ _).mpr ⟨hout, rfl⟩] at hsome
  cases hsome

end Unfit

/-- SOURCE: library.cc:90-137 — **when `mk_runs` makes sorted runs.**  For every schema, run length
and number of records, from none to any: `mk_runs` returns and leaves sorted runs for every
input of that many complete records if and only if the size of a block fits a `size_t`, or the
input is empty or smaller than what that size wraps around to; a block or the input has less
than `2 ^ 31` records; and a block or the input has no two records, or the comparator reads no
byte outside of a record. -/
theorem mk_runs_sorted_iff (qsort : Qsort) (schema : Schema) (hs : 0 < schema.recordSize)
    (runLength : ℕ) (hlen : 1 ≤ runLength) (n : ℕ) :
    (∀ records, PlainRecords schema.recordSize records → records.length = n →
      ∀ inFp : File, inFp.contents = records.flatten →
        MakesSortedRuns qsort schema runLength records inFp) ↔ RunsFit schema runLength n := by
  constructor
  · intro h
    have hequal := h _ (equalRecords_plain schema.recordSize n) List.length_replicate
      (File.open_ (equalRecords schema.recordSize n).flatten) rfl
    have hrequest : schema.recordSize * runLength < 2 ^ 64 ∨ n = 0 ∨
        schema.recordSize * n < schema.recordSize * runLength % 2 ^ 64 := by
      by_contra hnot
      simp only [not_or, not_lt] at hnot
      exact not_makesSortedRuns_of_wrapped qsort hs hnot.1 hnot.2.1 hnot.2.2 hequal
    have hcount : runLength < 2 ^ 31 ∨ n < 2 ^ 31 := by
      by_contra hnot
      simp only [not_or, not_lt] at hnot
      exact not_makesSortedRuns_of_count qsort hs hrequest hnot.1 hnot.2 hequal
    refine ⟨hrequest, hcount, ?_⟩
    by_contra hnot
    simp only [not_or, not_le] at hnot
    exact not_makesSortedRuns_of_compare qsort hs hrequest hcount hnot.1 hnot.2.1 hnot.2.2 hequal
  · rintro hfit records h rfl inFp hin
    exact hfit.makesSortedRuns qsort hs hlen h hin

/-- The stable sort is a `qsort`. -/
def stableQsort : Qsort where
  sort := fun cmp l => l.mergeSort fun a b => decide (cmp a b ≤ 0)
  perm := fun _ _ l => List.mergeSort_perm l _
  sorted := by
    intro cmp h l
    have htrans : ∀ a b c, decide (cmp a b ≤ 0) = true → decide (cmp b c ≤ 0) = true →
        decide (cmp a c ≤ 0) = true := by
      intro a b c hab hbc
      rw [decide_eq_true_iff] at *
      exact h.trans a b c hab hbc
    have htotal : ∀ a b, (decide (cmp a b ≤ 0) || decide (cmp b a ≤ 0)) = true := by
      intro a b
      rw [Bool.or_eq_true, decide_eq_true_iff, decide_eq_true_iff]
      exact h.total a b
    have hsorted := List.pairwise_mergeSort htrans htotal l
    simpa only [decide_eq_true_eq] using hsorted

/-- Five letters, out of order, one to a line. -/
def fiveLetters : List (List Byte) := [[101, 10], [98, 10], [100, 10], [97, 10], [99, 10]]

/-- Five records in runs of two: all conditions hold, and their file is left as sorted runs. -/
theorem mk_runs_sorted_five :
    RunsFit letterSchema 2 5 ∧ PlainRecords letterSchema.recordSize fiveLetters ∧
    MakesSortedRuns stableQsort letterSchema 2 fiveLetters (File.open_ fiveLetters.flatten) := by
  have hfit : RunsFit letterSchema 2 5 :=
    ⟨Or.inl (by decide), Or.inl (by decide), Or.inr (Or.inr (by decide +kernel))⟩
  have hplain : PlainRecords letterSchema.recordSize fiveLetters :=
    ⟨by decide, by decide +kernel⟩
  have hsorted := (mk_runs_sorted_iff stableQsort letterSchema (by decide) 2 (by decide) 5).mpr hfit
  exact ⟨hfit, hplain, hsorted fiveLetters hplain rfl _ rfl⟩

/-- A schema of records of four bytes. -/
def fourBytes : Schema := ⟨[⟨strncpy [97] 255, 3⟩], [some 0], 4⟩

/-- With runs of `2 ^ 62` records of four bytes the size of a block wraps around to zero, and a
single record is lost. -/
theorem mk_runs_wraps :
    PlainRecords fourBytes.recordSize [[97, 98, 99, 10]] ∧
    (∀ fuel, ∃ inFp', mkRuns (fuel + 1) stableQsort (File.open_ [97, 98, 99, 10]) (File.open_ [])
      (2 ^ 62) fourBytes = some (inFp', ⟨[], 0, false⟩)) ∧
    ¬ MakesSortedRuns stableQsort fourBytes (2 ^ 62) [[97, 98, 99, 10]]
      (File.open_ [97, 98, 99, 10]) := by
  have hstep : mkRun stableQsort fourBytes (2 ^ 62)
      ((File.open_ [97, 98, 99, 10]).fseek 0, (File.open_ []).fseek 0) =
        some (.inr (⟨[97, 98, 99, 10], 0, false⟩, ⟨[], 0, false⟩)) := by
    decide +kernel
  refine ⟨⟨by decide, by decide +kernel⟩, fun fuel => ⟨_, loop_succ_inr hstep fuel⟩, ?_⟩
  rintro ⟨inFp', outFp, runs, hrun, hout, hruns, hsizes, -⟩
  have hrun' := (loop_succ_inr hstep 1).symm.trans (hrun 2 (by decide))
  cases hrun'
  have hlength := congrArg List.length hout
  rw [length_flatten_of_size hsizes, hruns] at hlength
  exact absurd hlength (by decide)

/-- INTERNAL: a block of `mk_runs` leaves the input as it is. -/
theorem mkRun_contents {qsort : Qsort} {st st' : File × File}
    (h : mkRun qsort schema runLength st = some (.inl st') ∨
      mkRun qsort schema runLength st = some (.inr st')) : st'.1.contents = st.1.contents := by
  unfold mkRun at h
  dsimp only at h
  split_ifs at h with hitems
  · rcases h with h | h <;> cases h
    rfl
  · rcases h with h | h
    all_goals
      obtain ⟨found, -, h⟩ := Option.bind_eq_some_iff.mp h
      obtain ⟨sorted, -, h⟩ := Option.map_eq_some_iff.mp h
      split_ifs at h
      cases h
      rfl

/-- INTERNAL: `mk_runs` never changes the input. -/
theorem mkRuns_contents {qsort : Qsort} {inFp outFp inFp' outFp' : File} {fuel : ℕ}
    (h : mkRuns fuel qsort inFp outFp runLength schema = some (inFp', outFp')) :
    inFp'.contents = inFp.contents := by
  refine loop_invariant (fun st : File × File => st.1.contents = inFp.contents)
    (fun st : File × File => st.1.contents = inFp.contents) ?_ ?_
    (fseek_contents inFp 0) h
  · intro st st' hst hstep
    rw [mkRun_contents (Or.inl hstep), hst]
  · intro st st' hst hstep
    rw [mkRun_contents (Or.inr hstep), hst]

/-- INTERNAL: the number of records of a file whose size is an `int`.
SRCLINE: library.cc:252-262 -/
theorem numberOfRecords_eq {fp : File} (h : fp.contents.length < 2 ^ 31) (size : ℕ) :
    numberOfRecords fp size = (fp.contents.length / size : ℕ) := by
  have hsize : toSizeT (filesize fp) = fp.contents.length := by
    rw [filesize, toInt_of_lt (by omega) (by exact_mod_cast h), toSizeT_of_lt (by omega) (by omega)]
    omega
  have hle := Nat.div_le_self fp.contents.length size
  rw [numberOfRecords, hsize]
  generalize fp.contents.length / size = n at hle
  exact toInt_of_lt (by omega) (by omega)

end Runs

end ExternalSort.Analysis
