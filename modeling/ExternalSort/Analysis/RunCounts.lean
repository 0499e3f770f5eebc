import ExternalSort.Analysis.MakeRuns

/-!
# The records `mk_runs` writes and the records of the file

`mk_runs` counts the records of a block by their first bytes, `number_of_records` divides
the size of the file.  `firstByte` is the first byte of a record, zero behind the end of the
file.  A block is read only if it has a complete record; so an incomplete record at the
end is written if it does not begin a block and does not begin with a NUL.

If the size of a block wraps around, then there is only one block: `mk_runs` finds a record
that begins with a NUL in its buffer, or goes on behind it (`mkRun_wrapped`).
-/

set_option autoImplicit false

namespace ExternalSort.Analysis

open ExternalSort.Lib ExternalSort.Model

/-- The first byte of record `j`, zero behind the end of the file. -/
def firstByte (contents : List Byte) (size j : ℕ) : Byte := contents.getD (j * size) 0

section Block

variable {contents : List Byte} {size runLength : ℕ}

/-- INTERNAL: the records of a block, told by the first bytes of the file.  They are complete
in the buffer.
SRCLINE: library.cc:110-122 -/
theorem blockRecords_scan (hs : 0 < size) (hsmall : contents.length < 2 ^ 31) {d : ℕ} (fp : File)
    (hfp : fp.contents = contents) (hpos : fp.pos = d * size) :
    ∃ found, blockRecords (overwrite (List.replicate (size * runLength) 0) 0
        (fp.fread size runLength).1) size runLength 0 = some found ∧
      found.length ≤ runLength ∧ (∀ r ∈ found, r.length = size) ∧
      (∀ i < found.length, firstByte contents size (d + i) ≠ 0) ∧
      (found.length < runLength → firstByte contents size (d + found.length) = 0) := by
  have hread := length_fread_le fp size runLength
  set buffer := overwrite (List.replicate (size * runLength) 0) 0 (fp.fread size runLength).1
    with hbuffer
  have hlength : buffer.length = size * runLength := by rw [hbuffer, length_buffer hread]
  -- the first byte of a slot is that of the record in the file
  have hhead : ∀ i < runLength, buffer.getD (size * i) 0 = firstByte contents size (d + i) := by
    intro i hi
    have hin : size * i < size * runLength := Nat.mul_lt_mul_of_pos_left hi hs
    rw [hbuffer, getD_buffer hread, firstByte, Nat.add_mul, mul_comm i]
    show ((fp.contents.drop fp.pos).take (size * runLength)).getD (size * i) 0 = _
    rw [List.getD_eq_getElem?_getD, List.getElem?_take_of_lt hin, List.getElem?_drop, hfp, hpos,
      List.getD_eq_getElem?_getD]
  -- the scan ends at the first slot that begins with a NUL
  have hend : ∃ m, m = runLength ∨ firstByte contents size (d + m) = 0 := ⟨runLength, Or.inl rfl⟩
  classical
  set m := Nat.find hend with hm
  have hle : m ≤ runLength := Nat.find_min' hend (Or.inl rfl)
  have hpass : ∀ i < m, firstByte contents size (d + i) ≠ 0 := fun i hi hzero =>
    Nat.find_min hend hi (Or.inr hzero)
  have hstop : m < runLength → firstByte contents size (d + m) = 0 := fun hlt =>
    (Nat.find_spec hend).resolve_left hlt.ne
  have hscan : ScansTo buffer size runLength 0 m := by
    refine ⟨hle, fun i hi => ?_, fun hlt => ?_⟩
    · have hmul := Nat.mul_le_mul_left size (show i + 1 ≤ runLength by omega)
      rw [Nat.zero_add, hlength, hhead i (by omega)]
      refine ⟨hmul, hpass i hi, fun hint => ?_⟩
      -- a byte of the file is not that far behind
      have hbehind : contents.length ≤ (d + i) * size :=
        (show contents.length ≤ i by omega).trans
          ((Nat.le_mul_of_pos_right i hs).trans (Nat.mul_le_mul_right size (Nat.le_add_left i d)))
      refine hpass i hi ?_
      rw [firstByte, List.getD_eq_getElem?_getD, List.getElem?_eq_none hbehind]
      rfl
    · rw [Nat.zero_add, hlength, hhead m hlt]
      exact ⟨Nat.mul_lt_mul_of_pos_left hlt hs, hstop hlt⟩
  refine ⟨_, (blockRecords_eq_some_iff hs _ _ _ _).mpr ⟨m, hscan, rfl⟩, ?_⟩
  rw [List.length_map, List.length_range]
  exact ⟨hle, hscan.length_of_mem, hpass, hstop⟩

end Block

section Counts

variable {schema : Schema} {contents : List Byte} {runLength : ℕ}

/-- INTERNAL: the state of `mk_runs` after `q` full blocks.
SRCLINE: library.cc:99-134 -/
structure BlocksCounted (schema : Schema) (contents : List Byte) (runLength q : ℕ)
    (st : File × File) : Prop where
  in_contents : st.1.contents = contents
  in_pos : st.1.pos = min (q * runLength * schema.recordSize) contents.length
  heads : ∀ j < q * runLength, firstByte contents schema.recordSize j ≠ 0
  read_lt : q * runLength < contents.length / schema.recordSize + runLength
  out_pos : st.2.pos = st.2.contents.length
  out_length : st.2.contents.length = schema.recordSize * (q * runLength)

/-- INTERNAL: `mk_runs` stops with `written` records: after full blocks that reach the end, or
in the middle of a block, at a record that begins with a NUL. -/
structure StopsAt (contents : List Byte) (size runLength written : ℕ) : Prop where
  heads : ∀ j < written, firstByte contents size j ≠ 0
  stop : (contents.length / size ≤ written ∧ runLength ∣ written ∧
      written < contents.length / size + runLength) ∨
    (firstByte contents size written = 0 ∧
      ∃ q, q * runLength < contents.length / size ∧ written < q * runLength + runLength)

/-- INTERNAL: what is left when `mk_runs` returns. -/
def Counted (schema : Schema) (contents : List Byte) (runLength : ℕ) (st : File × File) : Prop :=
  st.1.contents = contents ∧ ∃ written, st.2.contents.length = schema.recordSize * written ∧
    StopsAt contents schema.recordSize runLength written

/-- INTERNAL: the sorted records of a block, written behind the others. -/
theorem length_foldl_fwrite (qsort : Qsort) {records : List (List Byte)}
    (hsizes : ∀ r ∈ records, r.length = schema.recordSize) {outFp : File}
    (hout : outFp.pos = outFp.contents.length) :
    ((qsort.sort (recordComparator schema) records).foldl File.fwrite outFp).pos =
      ((qsort.sort (recordComparator schema) records).foldl File.fwrite outFp).contents.length ∧
    ((qsort.sort (recordComparator schema) records).foldl File.fwrite outFp).contents.length =
      outFp.contents.length + schema.recordSize * records.length := by
  have hperm := sort_perm qsort schema records
  obtain ⟨hwritten, hend⟩ := foldl_fwrite_append
    (qsort.sort (recordComparator schema) records) outFp hout
  refine ⟨hend, ?_⟩
  rw [hwritten, List.length_append,
    length_flatten_of_size fun r hr => hsizes r (hperm.subset hr), hperm.length_eq]

/-- INTERNAL: in a file of less than `2 ^ 31` bytes with a complete record any two records can be
compared. -/
theorem Layout.inside_of_record (h : Layout schema) (hsmall : contents.length < 2 ^ 31)
    (hrecord : 0 < contents.length / schema.recordSize) : Inside schema := by
  have hle : schema.recordSize ≤ contents.length := (Nat.div_pos_iff.mp hrecord).2
  exact h.inside (by omega)

/-- INTERNAL: **one block** of an arbitrary file.
SRCLINE: library.cc:99-134 -/
theorem mkRun_counts (qsort : Qsort) (h : Layout schema) (hs : 0 < schema.recordSize)
    (hlen : 1 ≤ runLength) (hfits : schema.recordSize * runLength < 2 ^ 64)
    (hsmall : contents.length < 2 ^ 31) {q : ℕ} {st : File × File}
    (hst : BlocksCounted schema contents runLength q st) :
    (∃ st', mkRun qsort schema runLength st = some (.inl st') ∧
      BlocksCounted schema contents runLength (q + 1) st' ∧
      q * runLength < contents.length / schema.recordSize) ∨
    ∃ st', mkRun qsort schema runLength st = some (.inr st') ∧
      Counted schema contents runLength st' := by
  obtain ⟨inFp, outFp⟩ := st
  obtain ⟨hin, hpos, hheads, hlt, hout, hlength⟩ := hst
  dsimp only at hin hpos hout hlength
  -- the complete records that are left
  have hleft : contents.length - min (q * runLength * schema.recordSize) contents.length =
      contents.length - schema.recordSize * (q * runLength) := by
    rw [mul_comm schema.recordSize]
    omega
  have hitems := fread_count inFp runLength hs
  rw [slotCount, hin, hpos, hleft, Nat.sub_mul_div] at hitems
  have hrequest : toSizeT ((schema.recordSize : ℤ) * runLength) = schema.recordSize * runLength := by
    rw [← Nat.cast_mul, toSizeT_natCast, Nat.mod_eq_of_lt hfits]
  unfold mkRun
  dsimp only
  rw [freadWrapped_eq inFp hs hfits, hrequest]
  by_cases hempty : (inFp.fread schema.recordSize runLength).2.1 = 0
  · rw [if_pos hempty]
    refine Or.inr ⟨_, rfl, hin, q * runLength, hlength, hheads, Or.inl ⟨?_, ⟨q, mul_comm _ _⟩, hlt⟩⟩
    omega
  · rw [if_neg hempty]
    have hmore : q * runLength < contents.length / schema.recordSize := by omega
    have hwithin : q * runLength * schema.recordSize ≤ contents.length :=
      (Nat.mul_le_mul_right schema.recordSize hmore.le).trans (Nat.div_mul_le_self _ _)
    have hinside : Inside schema := h.inside_of_record hsmall (Nat.zero_lt_of_lt hmore)
    obtain ⟨found, hfound, hcount, hsizes, hscan, hstop⟩ :=
      @blockRecords_scan _ _ runLength hs hsmall _ inFp hin (hpos.trans (min_eq_left hwithin))
    rw [hfound, Option.bind_some, sortBlock_eq qsort (Or.inr hinside), Option.map_some]
    obtain ⟨hend, hwritten⟩ := length_foldl_fwrite qsort hsizes hout
    have hheads' : ∀ j < q * runLength + found.length, firstByte contents schema.recordSize j ≠ 0 := by
      intro j hj
      rcases Nat.lt_or_ge j (q * runLength) with hlt | hge
      · exact hheads j hlt
      · obtain ⟨i, rfl⟩ := Nat.exists_eq_add_of_le hge
        exact hscan i (by omega)
    rw [hlength, ← Nat.mul_add] at hwritten
    by_cases hfull : found.length = runLength
    · rw [if_pos hfull]
      rw [hfull, ← Nat.succ_mul] at hheads' hwritten
      refine Or.inl ⟨_, rfl, ⟨hin, ?_, hheads', by rw [Nat.succ_mul]; omega, hend, hwritten⟩, hmore⟩
      show inFp.pos + ((inFp.contents.drop inFp.pos).take (schema.recordSize * runLength)).length = _
      rw [List.length_take, List.length_drop, hin, hpos, Nat.succ_mul, Nat.add_mul, mul_comm schema.recordSize]
      omega
    · rw [if_neg hfull]
      exact Or.inr ⟨_, rfl, hin, _, hwritten, hheads', Or.inr ⟨hstop (by omega), q, hmore, by omega⟩⟩

/-- INTERNAL: **`mk_runs` returns** on every file, if the size of a block fits a `size_t`.
SRCLINE: library.cc:90-137 -/
theorem mkRuns_counted (qsort : Qsort) (h : Layout schema) (hs : 0 < schema.recordSize)
    (hlen : 1 ≤ runLength) (hfits : schema.recordSize * runLength < 2 ^ 64) (inFp : File)
    (hsmall : inFp.contents.length < 2 ^ 31) :
    ∃ fuel st, mkRuns fuel qsort inFp (File.open_ []) runLength schema = some st ∧
      Counted schema inFp.contents runLength st := by
  have hstart : BlocksCounted schema inFp.contents runLength 0
      (inFp.fseek 0, (File.open_ []).fseek 0) :=
    ⟨by simp, by simp, by simp, by simp; omega, rfl, by rw [Nat.zero_mul]; rfl⟩
  -- the variant is the number of records before the last block that can be read
  refine ⟨_, loop_total
    (fun n (st : File × File) => ∃ q, BlocksCounted schema inFp.contents runLength q st ∧
      n = inFp.contents.length / schema.recordSize + runLength - q * runLength)
    (Counted schema inFp.contents runLength)
    ?_ ⟨0, hstart, rfl⟩ (Nat.lt_succ_self _)⟩
  rintro n st ⟨q, hst, hn⟩
  rcases mkRun_counts qsort h hs hlen hfits hsmall hst with
    ⟨st', hstep, hst', hmore⟩ | ⟨st', hstep, hdone⟩
  · refine Or.inl ⟨_, st', hstep, ⟨q + 1, hst', rfl⟩, ?_⟩
    rw [hn, Nat.succ_mul]
    omega
  · exact Or.inr ⟨st', hstep, hdone⟩

/-- INTERNAL: when `mk_runs` has written as many records as the file has.  An incomplete
record behind them is written unless it begins a block. -/
theorem StopsAt.eq_iff {size written : ℕ} (h : StopsAt contents size runLength written) :
    written = contents.length / size ↔
      (∀ j < contents.length / size, firstByte contents size j ≠ 0) ∧
        (runLength ∣ contents.length / size ∨
          firstByte contents size (contents.length / size) = 0) := by
  set n := contents.length / size
  constructor
  · rintro rfl
    refine ⟨h.heads, ?_⟩
    rcases h.stop with ⟨-, hdvd, -⟩ | ⟨hzero, -⟩
    · exact Or.inl hdvd
    · exact Or.inr hzero
  · rintro ⟨hheads, hlast⟩
    -- if more were written, then also the incomplete record, in the block of a complete one
    have hdvd : n < written → runLength ∣ n := fun hlt =>
      hlast.resolve_right (h.heads n hlt)
    rcases h.stop with ⟨hle, ⟨c, hc⟩, hlt⟩ | ⟨hzero, q, hq, hlt⟩
    · by_contra hne
      obtain ⟨d, hd⟩ := hdvd (by omega)
      have hcd : d < c := @Nat.lt_of_mul_lt_mul_left runLength _ _ (by omega)
      have := Nat.mul_le_mul_left runLength (Nat.succ_le_of_lt hcd)
      rw [Nat.mul_succ] at this
      omega
    · have hge : n ≤ written := not_lt.mp fun hlt => hheads written hlt hzero
      by_contra hne
      obtain ⟨d, hd⟩ := hdvd (by omega)
      have hqd : q < d := @Nat.lt_of_mul_lt_mul_left runLength _ _ (by rw [mul_comm _ q]; omega)
      have := Nat.mul_le_mul_left runLength (Nat.succ_le_of_lt hqd)
      rw [Nat.mul_succ, mul_comm _ q] at this
      omega

/-- `mk_runs` returns, and it has written as many records as `number_of_records` says.
SRCLINE: library.cc:90-137, library.cc:252-262 -/
def CountsAgree (qsort : Qsort) (schema : Schema) (runLength : ℕ) (inFp : File) : Prop :=
  ∃ (fuel : ℕ) (inFp' outFp : File) (written : ℕ),
    mkRuns fuel qsort inFp (File.open_ []) runLength schema = some (inFp', outFp) ∧
    outFp.contents.length = schema.recordSize * written ∧
    (written : ℤ) = numberOfRecords inFp' schema.recordSize

/-- INTERNAL: the counts agree exactly if the output has the size of the complete records. -/
theorem countsAgree_iff {qsort : Qsort} {inFp : File}
    (hsmall : inFp.contents.length < 2 ^ 31) :
    CountsAgree qsort schema runLength inFp ↔ ∃ fuel inFp' outFp,
      mkRuns fuel qsort inFp (File.open_ []) runLength schema = some (inFp', outFp) ∧
      outFp.contents.length =
        schema.recordSize * (inFp.contents.length / schema.recordSize) := by
  have hnumber : ∀ {fuel inFp' outFp},
      mkRuns fuel qsort inFp (File.open_ []) runLength schema = some (inFp', outFp) →
      numberOfRecords inFp' schema.recordSize =
        (inFp.contents.length / schema.recordSize : ℕ) := by
    intro fuel inFp' outFp hrun
    have hin := mkRuns_contents hrun
    rw [numberOfRecords_eq (by rwa [hin]), hin]
  constructor
  · rintro ⟨fuel, inFp', outFp, written, hrun, hout, heq⟩
    rw [hnumber hrun, Nat.cast_inj] at heq
    exact ⟨fuel, inFp', outFp, hrun, by rw [hout, heq]⟩
  · rintro ⟨fuel, inFp', outFp, hrun, hout⟩
    exact ⟨fuel, inFp', outFp, _, hrun, hout, (hnumber hrun).symm⟩

/-- INTERNAL: **a size that wraps around.**  No record is read if the request is for nothing, or
for more than the file has and that is no complete record.  Otherwise the records up to one that
begins with a NUL are written, if there is one in the buffer.
SRCLINE: library.cc:94-95, library.cc:106-122 -/
theorem mkRun_wrapped (qsort : Qsort) (h : Layout schema) (hs : 0 < schema.recordSize)
    (hwraps : 2 ^ 64 ≤ schema.recordSize * runLength) (hsmall : contents.length < 2 ^ 31) :
    (∃ inFp' outFp, mkRun qsort schema runLength (⟨contents, 0, false⟩, ⟨[], 0, false⟩) =
        some (.inr (inFp', outFp)) ∧
      outFp.contents.length = schema.recordSize * (contents.length / schema.recordSize)) ↔
    (contents.length / schema.recordSize = 0 ∧
      (schema.recordSize * runLength % 2 ^ 64 = 0 ∨
        contents.length < schema.recordSize * runLength % 2 ^ 64)) ∨
    ((∀ j < contents.length / schema.recordSize, firstByte contents schema.recordSize j ≠ 0) ∧
      firstByte contents schema.recordSize (contents.length / schema.recordSize) = 0 ∧
      schema.recordSize * (contents.length / schema.recordSize) <
        schema.recordSize * runLength % 2 ^ 64) := by
  set n := contents.length / schema.recordSize with hn
  set request := schema.recordSize * runLength % 2 ^ 64 with hrequest
  have hsizeT : toSizeT ((schema.recordSize : ℤ) * runLength) = request := by
    rw [← Nat.cast_mul, toSizeT_natCast]
  have hbelow : request < schema.recordSize * runLength :=
    (Nat.mod_lt _ (by decide)).trans_le hwraps
  have hnmul : schema.recordSize * n ≤ contents.length := Nat.mul_div_le _ _
  have hrun0 : runLength ≠ 0 := by
    rintro rfl
    simp at hwraps
  unfold mkRun
  simp only [File.freadWrapped, hsizeT, List.drop_zero]
  have hread : (contents.take request).length = min request contents.length := List.length_take
  by_cases hnothing : request = 0 ∨ contents.length < request ∧ n = 0
  · -- no complete item is read
    have hitems : (if (contents.take request).length = request ∧ request ≠ 0 then runLength
        else (contents.take request).length / schema.recordSize) = 0 := by
      rcases hnothing with hzero | ⟨hless, hnone⟩
      · rw [if_neg fun hfull => hfull.2 hzero, hzero, List.take_zero, List.length_nil, Nat.zero_div]
      · rw [if_neg (by omega), hread, min_eq_right hless.le, ← hn, hnone]
    rw [if_pos hitems]
    constructor
    · rintro ⟨inFp', outFp, hout, hlength⟩
      cases hout
      have hzero : n = 0 := (Nat.mul_eq_zero.mp hlength.symm).resolve_left hs.ne'
      exact Or.inl ⟨hzero, hnothing.imp_right And.left⟩
    · intro hcond
      have hzero : n = 0 := by
        rcases hcond with ⟨hzero, -⟩ | ⟨-, -, hlt⟩
        · exact hzero
        · rcases hnothing with hreq | ⟨-, hzero⟩
          · omega
          · exact hzero
      exact ⟨_, _, rfl, by rw [hzero, Nat.mul_zero]; rfl⟩
  · -- a scan of the buffer
    have hitems : ¬ (if (contents.take request).length = request ∧ request ≠ 0 then runLength
        else (contents.take request).length / schema.recordSize) = 0 := by
      split_ifs with hfull
      · exact hrun0
      · rw [hread, min_eq_right (by omega)]
        omega
    rw [if_neg hitems]
    have hdata : (contents.take request).length ≤ request := List.length_take_le _ _
    set buffer := overwrite (List.replicate request 0) 0 (contents.take request) with hbuffer
    have hlength : buffer.length = request := length_buffer hdata
    have hhead : ∀ j, schema.recordSize * j < request →
        buffer.getD (schema.recordSize * j) 0 = firstByte contents schema.recordSize j := by
      intro j hj
      rw [hbuffer, getD_buffer hdata, firstByte, List.getD_eq_getElem?_getD,
        List.getElem?_take_of_lt hj, mul_comm, List.getD_eq_getElem?_getD]
    -- the scan cannot pass all slots, as these do not fit the buffer
    have hstops : ∀ {m}, ScansTo buffer schema.recordSize runLength 0 m → m < runLength :=
      fun hscan => hscan.lt_of_short (by omega)
    constructor
    · rintro ⟨inFp', outFp, hout, hcount⟩
      obtain ⟨found, hfound, hout⟩ := Option.bind_eq_some_iff.mp hout
      obtain ⟨sorted, hsorted, hout⟩ := Option.map_eq_some_iff.mp hout
      obtain ⟨m, hscan, rfl⟩ := (blockRecords_eq_some_iff hs _ _ _ _).mp hfound
      rw [List.length_map, List.length_range, if_neg (hstops hscan).ne] at hout
      cases hout
      unfold sortBlock at hsorted
      split_ifs at hsorted
      cases hsorted
      rw [(length_foldl_fwrite qsort hscan.length_of_mem rfl).2, List.length_map, List.length_range,
        List.length_nil, Nat.zero_add] at hcount
      obtain rfl : m = n := Nat.eq_of_mul_eq_mul_left hs hcount
      obtain ⟨hends, hnul⟩ := hscan.stop (hstops hscan)
      rw [Nat.zero_add, hlength] at hends
      rw [Nat.zero_add, hhead _ hends] at hnul
      refine Or.inr ⟨fun j hj => ?_, hnul, hends⟩
      obtain ⟨hlast, hbyte, -⟩ := hscan.pass j hj
      rw [Nat.zero_add, Nat.mul_succ, hlength] at hlast
      rwa [Nat.zero_add, hhead j (by omega)] at hbyte
    · intro hcond
      obtain ⟨hheads, hnul, hends⟩ := hcond.resolve_left (by omega)
      have hnrun : n < runLength := @Nat.lt_of_mul_lt_mul_left schema.recordSize _ _ (by omega)
      have hscan : ScansTo buffer schema.recordSize runLength 0 n := by
        refine ⟨hnrun.le, fun j hj => ?_, fun _ => ?_⟩
        · have hlast := Nat.mul_le_mul_left schema.recordSize (Nat.succ_le_of_lt hj)
          have hfirst := Nat.mul_lt_mul_of_pos_left hj hs
          have hnle : n ≤ contents.length := Nat.div_le_self _ _
          rw [Nat.zero_add, hlength, hhead j (by omega)]
          exact ⟨hlast.trans hends.le, hheads j hj, by omega⟩
        · rw [Nat.zero_add, hlength, hhead n hends]
          exact ⟨hends, hnul⟩
      have hcompare : ((List.range n).map fun i =>
          slot buffer schema.recordSize 0 (0 + i)).length ≤ 1 ∨ Inside schema := by
        rw [List.length_map, List.length_range]
        rcases Nat.eq_zero_or_pos n with hzero | hpos
        · exact Or.inl (by omega)
        · exact Or.inr (h.inside_of_record hsmall hpos)
      rw [(blockRecords_eq_some_iff hs _ _ _ _).mpr ⟨n, hscan, rfl⟩, Option.bind_some,
        sortBlock_eq qsort hcompare, Option.map_some, List.length_map, List.length_range,
        if_neg hnrun.ne]
      refine ⟨_, _, rfl, ?_⟩
      rw [(length_foldl_fwrite qsort hscan.length_of_mem rfl).2, List.length_map, List.length_range,
        List.length_nil, Nat.zero_add]

/-- INTERNAL: a size that wraps around is that of the only block. -/
theorem mkRuns_wrapped (qsort : Qsort) (hs : 0 < schema.recordSize)
    (hwraps : 2 ^ 64 ≤ schema.recordSize * runLength) (inFp : File) :
    (∃ fuel inFp' outFp, mkRuns fuel qsort inFp (File.open_ []) runLength schema =
        some (inFp', outFp) ∧
      outFp.contents.length = schema.recordSize * (inFp.contents.length / schema.recordSize)) ↔
    ∃ inFp' outFp, mkRun qsort schema runLength (⟨inFp.contents, 0, false⟩, ⟨[], 0, false⟩) =
        some (.inr (inFp', outFp)) ∧
      outFp.contents.length = schema.recordSize * (inFp.contents.length / schema.recordSize) := by
  have hbelow : schema.recordSize * runLength % 2 ^ 64 < schema.recordSize * runLength :=
    (Nat.mod_lt _ (by decide)).trans_le hwraps
  constructor
  · rintro ⟨fuel, inFp', outFp, hrun, hlength⟩
    cases fuel with
    | zero => cases hrun
    | succ fuel =>
      cases hstep : mkRun qsort schema runLength (⟨inFp.contents, 0, false⟩, ⟨[], 0, false⟩) with
      | none =>
        rw [mkRuns, show inFp.fseek 0 = ⟨inFp.contents, 0, false⟩ from rfl,
          show (File.open_ []).fseek 0 = ⟨[], 0, false⟩ from rfl, loop_eq_none hstep] at hrun
        cases hrun
      | some next =>
        cases next with
        | inr st =>
          rw [mkRuns, show inFp.fseek 0 = ⟨inFp.contents, 0, false⟩ from rfl,
            show (File.open_ []).fseek 0 = ⟨[], 0, false⟩ from rfl, loop_succ_inr hstep] at hrun
          exact ⟨inFp', outFp, by rw [Option.some.inj hrun], hlength⟩
        | inl st =>
          -- a block is never full
          exfalso
          unfold mkRun at hstep
          dsimp only at hstep
          split_ifs at hstep
          · cases hstep
          obtain ⟨found, hfound, hstep⟩ := Option.bind_eq_some_iff.mp hstep
          obtain ⟨sorted, -, hstep⟩ := Option.map_eq_some_iff.mp hstep
          split_ifs at hstep with hfull
          obtain ⟨m, hscan, rfl⟩ := (blockRecords_eq_some_iff hs _ _ _ _).mp hfound
          rw [List.length_map, List.length_range] at hfull
          refine absurd (hscan.lt_of_short ?_) hfull.not_lt
          rw [← Nat.cast_mul, toSizeT_natCast, length_buffer]
          · exact hbelow
          · rw [File.freadWrapped, ← Nat.cast_mul, toSizeT_natCast]
            exact List.length_take_le _ _
  · rintro ⟨inFp', outFp, hstep, hlength⟩
    exact ⟨1, inFp', outFp, loop_succ_inr hstep 0, hlength⟩

end Counts

/-- SOURCE: library.cc:90-137, library.cc:252-262 — **when `mk_runs` and `number_of_records`
agree.**  Take a file of less than `2 ^ 31` bytes, with `n` complete records.  If the size of a
block fits a `size_t`, then `mk_runs` returns, and it has written as many records as
`number_of_records` says if and only if no complete record begins with a NUL, and the complete
records fill their blocks or nothing but a NUL begins behind them.  If that size wraps around to
`b` bytes, then it returns with that many if and only if there is no complete record and `b` is
zero or more than the file has, or no complete record begins with a NUL, nothing but a NUL begins
behind them, and that is inside the `b` bytes. -/
theorem mk_runs_count_iff (qsort : Qsort) (schema : Schema) (h : Layout schema)
    (hs : 0 < schema.recordSize) (runLength : ℕ) (hlen : 1 ≤ runLength) (inFp : File)
    (hsmall : inFp.contents.length < 2 ^ 31) :
    (schema.recordSize * runLength < 2 ^ 64 →
      (∃ fuel, mkRuns fuel qsort inFp (File.open_ []) runLength schema ≠ none) ∧
      (CountsAgree qsort schema runLength inFp ↔
        (∀ j < inFp.contents.length / schema.recordSize,
          firstByte inFp.contents schema.recordSize j ≠ 0) ∧
        (runLength ∣ inFp.contents.length / schema.recordSize ∨
          firstByte inFp.contents schema.recordSize
            (inFp.contents.length / schema.recordSize) = 0))) ∧
    (2 ^ 64 ≤ schema.recordSize * runLength →
      (CountsAgree qsort schema runLength inFp ↔
        (inFp.contents.length / schema.recordSize = 0 ∧
          (schema.recordSize * runLength % 2 ^ 64 = 0 ∨
            inFp.contents.length < schema.recordSize * runLength % 2 ^ 64)) ∨
        ((∀ j < inFp.contents.length / schema.recordSize,
            firstByte inFp.contents schema.recordSize j ≠ 0) ∧
          firstByte inFp.contents schema.recordSize
            (inFp.contents.length / schema.recordSize) = 0 ∧
          schema.recordSize * (inFp.contents.length / schema.recordSize) <
            schema.recordSize * runLength % 2 ^ 64))) := by
  refine ⟨fun hfits => ?_, fun hwraps => ?_⟩
  · obtain ⟨fuel, ⟨inFp', outFp⟩, hrun, -, written, hout, hstop⟩ :=
      mkRuns_counted qsort h hs hlen hfits inFp hsmall
    refine ⟨⟨fuel, by rw [hrun]; exact Option.some_ne_none _⟩, ?_⟩
    rw [countsAgree_iff hsmall, ← hstop.eq_iff]
    constructor
    · rintro ⟨fuel', inFp'', outFp', hrun', hlength⟩
      obtain ⟨rfl, rfl⟩ := Prod.mk.inj (loop_unique hrun hrun')
      exact Nat.eq_of_mul_eq_mul_left hs (hout.symm.trans hlength)
    · rintro rfl
      exact ⟨fuel, inFp', outFp, hrun, hout⟩
  · rw [countsAgree_iff hsmall, mkRuns_wrapped qsort hs hwraps, mkRun_wrapped qsort h hs hwraps hsmall]

/-- Three letters in blocks of two, and a NUL that begins no letter behind them. -/
theorem mk_runs_count_letters :
    CountsAgree stableQsort letterSchema 2 (File.open_ [97, 10, 98, 10, 99, 10, 0]) :=
  ((mk_runs_count_iff stableQsort letterSchema letterSchema_layout (by decide) 2 (by decide)
    (File.open_ [97, 10, 98, 10, 99, 10, 0]) (by decide)).1 (by decide)).2.mpr
      ⟨by decide, Or.inr (by decide)⟩

/-- The file `"a\nb"` has one complete record, but the block it begins is written with two:
the letter at the end is filled up with a NUL. -/
theorem mk_runs_count_differs :
    ∃ (fuel : ℕ) (inFp' outFp : File),
      mkRuns fuel stableQsort (File.open_ [97, 10, 98]) (File.open_ []) 2 letterSchema =
        some (inFp', outFp) ∧
      outFp.contents.length = letterSchema.recordSize * 2 ∧
      numberOfRecords inFp' letterSchema.recordSize = 1 := by
  obtain ⟨fuel, ⟨inFp', outFp⟩, hrun, hin, written, hout, -, hstop⟩ :=
    @mkRuns_counted letterSchema 2 stableQsort letterSchema_layout (by decide) (by decide)
      (by decide) (File.open_ [97, 10, 98]) (by decide)
  dsimp only at hin
  refine ⟨fuel, inFp', outFp, hrun, ?_, ?_⟩
  · rw [hout]
    rcases hstop with ⟨hle, hdvd, hlt⟩ | ⟨hzero, q, hq, hlt⟩
    · change 1 ≤ written at hle
      change written < 1 + 2 at hlt
      rw [show written = 2 by omega]
    · -- no record of the first block begins with a NUL
      change q * 2 < 1 at hq
      obtain rfl | rfl : written = 0 ∨ written = 1 := by omega
      · exact absurd hzero (by decide)
      · exact absurd hzero (by decide)
  · rw [numberOfRecords_eq (by rw [hin]; decide), hin]
    rfl

end ExternalSort.Analysis
