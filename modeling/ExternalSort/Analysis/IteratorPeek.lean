import ExternalSort.Analysis.IteratorDelivery

/-!
# Peeking at a run iterator

`get_current_record` is a peek that changes the iterator on first use: it takes an
iterator that counts its whole run as left for one that has not started, and starts it.
`Peeks contents args it R` says that `it` shows the head of `R` and will show the rest
of `R` one by one as `next` is called; `peeks_getCurrentRecord` and `peeks_take` are what
a client does with it.

The test for "not started" is wrong for an iterator that is cut short with more records
left than its run has.  It comes past its run length again while it counts down, and
the peek at that moment loses a record.  `NeverRestarts` excludes it.
-/

set_option autoImplicit false

namespace ExternalSort.Analysis

open ExternalSort.Lib ExternalSort.Model

/-- The sequence an iterator delivers by itself: successive calls of `next` return the
records of `S` in order, and then NULL for ever.
SRCLINE: library.h:74-76 -/
def Delivers (it : RunIterator) (fp : File) (S : List Record) : Prop :=
  ∀ m : ℕ, runCalls (List.replicate m .next) it fp =
    (List.range m).map fun j => .record S[j]?

/-- The iterators there are: constructed with the given arguments, and called any number of times
since then, each time with a handle to the same bytes. -/
inductive Reached (contents : List Byte) (args : RunArgs) : RunIterator → Prop
  | new (handle : ℕ) (fp : File) : Reached contents args (RunIterator.new handle fp args).1
  | call {it : RunIterator} (c : Call) {fp : File} (h : Reached contents args it)
      (hfp : fp.contents = contents) : Reached contents args (c.run it fp).2.1

/-- A peek at the iterator starts it, or finds that it has ended: it has its whole run left, or no
current record.
SRCLINE: library.cc:195-200 -/
def Unstarted (it : RunIterator) : Prop :=
  it.recordsLeft = it.runLength ∨ it.currentRecord = none

/-- INTERNAL: it can be decided whether an iterator has started. -/
instance (it : RunIterator) : Decidable (Unstarted it) := inferInstanceAs (Decidable (_ ∨ _))

/-- The iterator does not come past its own run length while it counts down.
SRCLINE: library.cc:176-188, library.cc:195-200 -/
def NeverRestarts (args : RunArgs) (S : List Record) : Prop :=
  2 ^ 31 ≤ refill args → S.length ≤ args.runLength

/-- INTERNAL: it can be decided whether a run is never begun again. -/
instance (args : RunArgs) (S : List Record) : Decidable (NeverRestarts args S) :=
  inferInstanceAs (Decidable (_ → _))

/-- INTERNAL: an iterator with a run to deliver and room for a record. -/
def Works (args : RunArgs) : Prop := 0 < refill args ∧ 0 < args.runLength

/-- INTERNAL: it can be decided whether the arguments are good for an iterator. -/
instance (args : RunArgs) : Decidable (Works args) := inferInstanceAs (Decidable (_ ∧ _))

/-- INTERNAL: an iterator without a run, or without room for a record.  A buffer of no bytes
is never cleared, so there the byte found in memory matters.
SRCLINE: library.cc:176-182, library.cc:221 -/
def Starved (args : RunArgs) : Prop :=
  args.runLength = 0 ∨ (refill args = 0 ∧ (1 ≤ args.bufSize ∨ args.heap 0 = 0))

/-- INTERNAL: an iterator that never delivers: it counts its whole run as left for ever.
SRCLINE: library.cc:176-193 -/
structure Idle (args : RunArgs) (it : RunIterator) : Prop where
  schema_eq : it.schema = args.schema
  bufSize_eq : it.bufSize = args.bufSize
  runLength_eq : it.runLength = args.runLength
  left_eq : it.leftInBuf = 0
  records_left : it.recordsLeft = args.runLength
  cause : args.runLength = 0 ∨ (refill args = 0 ∧ (1 ≤ args.bufSize ∨ it.buffer.headD 0 = 0))

/-- INTERNAL: what a client of `get_current_record` and `next` will see of an iterator. -/
inductive Peeks (contents : List Byte) (args : RunArgs) (it : RunIterator) : List Record → Prop
  | idle (h : Idle args it) : Peeks contents args it []
  | fresh (hw : Works args) (h : Progress contents args it 0)
      (hrec : it.recordsLeft = args.runLength) : Peeks contents args it (delivered contents args)
  | shows {d : ℕ} {c : Record} (hw : Works args) (h : Progress contents args it d)
      (hrec : it.recordsLeft ≠ args.runLength) (hcur : it.currentRecord = some c) :
      Peeks contents args it (c :: (delivered contents args).drop d)
  | done {d : ℕ} (hw : Works args) (h : Progress contents args it d)
      (hrec : it.recordsLeft ≠ args.runLength) (hcur : it.currentRecord = none)
      (hd : total contents args ≤ d) : Peeks contents args it []

section Idle

variable {args : RunArgs} {it : RunIterator}

/-- INTERNAL: a refill of an idle iterator reads nothing.
SRCLINE: library.cc:171-193 -/
theorem idle_hasNext (h : Idle args it) (fp : File) :
    (it.hasNext fp).1 = false ∧ Idle args (it.hasNext fp).2.1 := by
  unfold RunIterator.hasNext
  rw [if_pos h.left_eq]
  by_cases hrun : args.runLength = 0
  · have hskip : it.readIntoBuffer fp = (it, fp) := by
      unfold RunIterator.readIntoBuffer
      rw [if_pos (Or.inr (by rw [h.records_left, hrun]; rfl))]
    rw [hskip]
    refine ⟨?_, h⟩
    simp [h.records_left, hrun]
  · obtain ⟨hzero, hbuf⟩ := h.cause.resolve_left hrun
    have hgo : ¬ (0 < it.leftInBuf ∨ it.recordsLeft = 0) := by
      rw [h.left_eq, h.records_left]
      omega
    have hasked : refillCount it.bufSize it.schema.recordSize it.runLength = 0 := by
      rw [h.bufSize_eq, h.schema_eq, h.runLength_eq]
      exact hzero
    have hread : (it.readIntoBuffer fp).1 = it.afterRead 0 0 [] := by
      simp only [RunIterator.readIntoBuffer, if_neg hgo, hasked, File.fread, Nat.mul_zero,
        List.take_zero, List.length_nil, Nat.zero_div, Nat.cast_zero]
      rfl
    have hhead : (it.afterRead 0 0 []).buffer.headD 0 = 0 := by
      rcases Nat.eq_zero_or_pos it.bufSize with hb | hb
      · have hbyte := hbuf.resolve_left (by rw [← h.bufSize_eq]; omega)
        simpa [RunIterator.afterRead, overwrite, hb] using hbyte
      · obtain ⟨b, hb⟩ : ∃ b, it.bufSize = b + 1 := ⟨it.bufSize - 1, by omega⟩
        simp [RunIterator.afterRead, overwrite, hb, List.replicate_succ]
    dsimp only
    rw [hread]
    refine ⟨?_, h.schema_eq, h.bufSize_eq, h.runLength_eq, rfl, h.records_left,
      Or.inr ⟨hzero, Or.inr hhead⟩⟩
    rw [hhead]
    simp [RunIterator.afterRead]

/-- INTERNAL: an idle iterator stays idle and returns NULL. -/
theorem idle_next (h : Idle args it) (fp : File) :
    (it.next fp).1 = none ∧ Idle args (it.next fp).2.1 := by
  obtain ⟨hfalse, hidle⟩ := idle_hasNext h fp
  unfold RunIterator.next
  simp only [hfalse, Bool.false_eq_true, if_false, true_and]
  exact ⟨hidle.schema_eq, hidle.bufSize_eq, hidle.runLength_eq, hidle.left_eq,
    hidle.records_left, hidle.cause⟩

/-- INTERNAL: a new iterator without a run, or without room, is idle. -/
theorem idle_new (hs : Starved args) (handle : ℕ) (fp : File) :
    Idle args (RunIterator.new handle fp args).1 := by
  refine ⟨rfl, rfl, rfl, rfl, rfl, hs.imp_right fun h => ⟨h.1, h.2.imp_right fun hbyte => ?_⟩⟩
  obtain ⟨b, hb⟩ : ∃ b, max args.bufSize 1 = b + 1 := ⟨max args.bufSize 1 - 1, by omega⟩
  simp [RunIterator.new, malloc, hb, List.range_succ_eq_map, hbyte]

/-- INTERNAL: an idle iterator returns NULL for ever. -/
theorem runCalls_idle (m : ℕ) (it : RunIterator) (fp : File) (h : Idle args it) :
    runCalls (List.replicate m .next) it fp = List.replicate m (.record none) := by
  induction m generalizing it fp with
  | zero => rfl
  | succ m ih =>
    obtain ⟨hnone, hidle⟩ := idle_next h fp
    have hrest := ih (it.next fp).2.1 (it.next fp).2.2 hidle
    rw [List.replicate_succ, List.replicate_succ, ← hrest, ← hnone]
    rfl

end Idle

section Delivers

variable {it : RunIterator} {fp : File} {args : RunArgs} {contents : List Byte}
  {S T : List Record} {d : ℕ}

/-- INTERNAL: an iterator delivers one sequence. -/
theorem Delivers.unique (hS : Delivers it fp S) (hT : Delivers it fp T) : S = T := by
  apply List.ext_getElem?
  intro j
  have h := (hS (j + 1)).symm.trans (hT (j + 1))
  have hj := List.map_inj_left.mp h j (List.mem_range.mpr (Nat.lt_succ_self j))
  exact Reply.record.inj hj

/-- INTERNAL: what a working iterator delivers after `d` deliveries. -/
theorem delivers_drop (hs : 0 < args.schema.recordSize) (hw : Works args)
    (hfp : fp.contents = contents) (h : Progress contents args it d)
    (hd : d ≤ total contents args) : Delivers it fp ((delivered contents args).drop d) := by
  intro m
  rw [runCalls_next hs hw.1 hw.2 m it fp d hfp (by rwa [min_eq_left hd]), List.range'_eq_map_range,
    List.map_map]
  apply List.map_congr_left
  intro j _
  rw [Function.comp_apply, List.getElem?_drop]

/-- INTERNAL: an idle iterator delivers nothing. -/
theorem delivers_nil (h : Idle args it) : Delivers it fp [] := by
  intro m
  rw [runCalls_idle m _ _ h]
  simp

end Delivers

section Peeks

variable {contents : List Byte} {args : RunArgs} {it : RunIterator} {d : ℕ} {R : List Record}

/-- INTERNAL: the number of records delivered. -/
@[simp] theorem length_delivered (contents : List Byte) (args : RunArgs) :
    (delivered contents args).length = total contents args := by
  simp [delivered]

/-- INTERNAL: the next record to deliver, and the others. -/
theorem drop_delivered (h : d < total contents args) :
    (delivered contents args).drop d =
      strncpy (runRecord contents args d) args.schema.recordSize ::
        (delivered contents args).drop (d + 1) := by
  rw [List.drop_eq_getElem_cons (by simpa using h)]
  simp [delivered]

/-- INTERNAL: the schema of an iterator does not change. -/
theorem Peeks.schema_eq (h : Peeks contents args it R) : it.schema = args.schema := by
  cases h with
  | idle h => exact h.schema_eq
  | fresh _ h => exact h.schema_eq
  | shows _ h => exact h.schema_eq
  | done _ h => exact h.schema_eq

/-- INTERNAL: what an iterator delivers, also if it has no room to. -/
def stream (contents : List Byte) (args : RunArgs) : List Record :=
  if Works args then delivered contents args else []

/-- INTERNAL: the stream of an iterator with a run and room for a record. -/
theorem stream_of_works (contents : List Byte) (hw : Works args) :
    stream contents args = delivered contents args := if_pos hw

/-- INTERNAL: an iterator without a run, or without room, has no stream. -/
theorem stream_of_starved (contents : List Byte) (h : Starved args) : stream contents args = [] := by
  refine if_neg fun hw => ?_
  unfold Starved Works at *
  omega

/-- INTERNAL: what a new iterator delivers by itself. -/
theorem delivers_stream {fp : File} (hfp : fp.contents = contents) (hs : 0 < args.schema.recordSize)
    (h : Starved args ∨ Works args) (handle : ℕ) (fp' : File) :
    Delivers (RunIterator.new handle fp' args).1 fp (stream contents args) := by
  cases h with
  | inl hstarved =>
    rw [stream_of_starved contents hstarved]
    exact delivers_nil (idle_new hstarved handle fp')
  | inr hw =>
    rw [stream_of_works contents hw, ← List.drop_zero (l := delivered contents args)]
    exact delivers_drop hs hw hfp (progress_new contents args handle fp') (Nat.zero_le _)

/-- INTERNAL: a new iterator shows what it delivers. -/
theorem peeks_stream (contents : List Byte) (h : Starved args ∨ Works args) (handle : ℕ)
    (fp : File) : Peeks contents args (RunIterator.new handle fp args).1 (stream contents args) := by
  cases h with
  | inl hstarved =>
    rw [stream_of_starved contents hstarved]
    exact .idle (idle_new hstarved handle fp)
  | inr hw =>
    rw [stream_of_works contents hw]
    exact .fresh hw (progress_new contents args handle fp) rfl

/-- INTERNAL: what is delivered was copied, so copying it again changes nothing. -/
theorem strncpy_of_mem_stream {r : Record} (hr : r ∈ stream contents args) :
    strncpy r args.schema.recordSize = r := by
  unfold stream at hr
  split_ifs at hr
  · obtain ⟨i, -, rfl⟩ := List.mem_map.mp hr
    exact strncpy_strncpy _ _
  · cases hr

/-- INTERNAL: an iterator that has delivered counts less than its run as left.
SRCLINE: library.cc:184-188 -/
theorem recordsLeft_ne (hw : Works args) (hno : NeverRestarts args (stream contents args))
    (h : Progress contents args it d) (hd : 1 ≤ d) : it.recordsLeft ≠ args.runLength := by
  rw [stream_of_works contents hw] at hno
  cases h.mode with
  | inl hm =>
    have hrec := hm.records_left
    omega
  | inr hm =>
    have hrec := hm.records_left
    have hlt := hm.left_lt
    have htotal := hm.total_eq
    by_cases hfits : refill args < 2 ^ 31
    · have hle := refill_le hfits
      omega
    · have hle := hno (by omega)
      rw [length_delivered] at hle
      omega

/-- INTERNAL: what `next` leaves after `d` deliveries is what was still to come.
SRCLINE: library.cc:202-215 -/
theorem progress_peeks_next (hs : 0 < args.schema.recordSize) (hw : Works args)
    (hno : NeverRestarts args (stream contents args)) {fp : File}
    (hfp : fp.contents = contents) (h : Progress contents args it d) :
    (it.next fp).1 = ((delivered contents args).drop d).head? ∧
      Peeks contents args (it.next fp).2.1 ((delivered contents args).drop d) ∧
      (it.next fp).2.1.recordsLeft ≠ args.runLength := by
  by_cases hd : d < total contents args
  · obtain ⟨h1, h2, h3⟩ := next_delivers hs hw.1 hw.2 hfp h hd
    have hne := recordsLeft_ne hw hno h3 (Nat.succ_pos d)
    rw [drop_delivered hd]
    exact ⟨h1, .shows hw h3 hne (h2.trans h1), hne⟩
  · obtain ⟨h1, h2, h3, h4⟩ := next_exhausted hs hw.1 hw.2 hfp h (not_lt.mp hd)
    have hlen := hw.2
    have hne : (it.next fp).2.1.recordsLeft ≠ args.runLength := by omega
    rw [List.drop_eq_nil_of_le (by simpa using hd)]
    exact ⟨h1, .done hw h3 hne h2 (not_lt.mp hd), hne⟩

/-- INTERNAL: **the peek.**  `get_current_record` returns the head of what the iterator
shows, or NULL.  The iterator shows the same afterwards, and if it shows a record, it
now counts as started.
SRCLINE: library.cc:195-200 -/
theorem peeks_getCurrentRecord (hs : 0 < args.schema.recordSize)
    (hno : NeverRestarts args (stream contents args)) {fp : File}
    (hfp : fp.contents = contents) (h : Peeks contents args it R) :
    (it.getCurrentRecord fp).1 = R.head? ∧
      Peeks contents args (it.getCurrentRecord fp).2.1 R ∧
      (R ≠ [] → (it.getCurrentRecord fp).2.1.recordsLeft ≠ args.runLength) := by
  unfold RunIterator.getCurrentRecord
  cases h with
  | idle h =>
    rw [if_pos (by rw [h.records_left, h.runLength_eq])]
    obtain ⟨hnone, hidle⟩ := idle_next h fp
    exact ⟨hnone, .idle hidle, fun hne => absurd rfl hne⟩
  | fresh hw h hrec =>
    rw [if_pos (by rw [hrec, h.runLength_eq])]
    obtain ⟨h1, h2, h3⟩ := progress_peeks_next hs hw hno hfp h
    rw [List.drop_zero] at h1 h2
    exact ⟨h1, h2, fun _ => h3⟩
  | shows hw h hrec hcur =>
    rw [if_neg (by rwa [h.runLength_eq])]
    exact ⟨hcur, .shows hw h hrec hcur, fun _ => hrec⟩
  | done hw h hrec hcur hd =>
    rw [if_neg (by rwa [h.runLength_eq])]
    exact ⟨hcur, .done hw h hrec hcur hd, fun _ => hrec⟩

/-- INTERNAL: **the step.**  Once started, `next` makes the iterator show what is behind
the head.
SRCLINE: library.cc:202-215 -/
theorem peeks_next (hs : 0 < args.schema.recordSize)
    (hno : NeverRestarts args (stream contents args)) {fp : File}
    (hfp : fp.contents = contents) (h : Peeks contents args it R) (hR : R ≠ [])
    (hstarted : it.recordsLeft ≠ args.runLength) :
    Peeks contents args (it.next fp).2.1 R.tail := by
  cases h with
  | idle h => exact absurd rfl hR
  | fresh hw h hrec => exact absurd hrec hstarted
  | shows hw h hrec hcur => exact (progress_peeks_next hs hw hno hfp h).2.1
  | done hw h hrec hcur => exact absurd rfl hR

end Peeks

/-! ## Iterators that were used -/

section Reached

variable {contents : List Byte} {args : RunArgs} {it : RunIterator}

/-- INTERNAL: the state of an iterator that has been used: it never delivers, or it has delivered
some of its records, all of them if it has no current one.
SRCLINE: library.cc:171-223 -/
theorem Reached.state (hs : 0 < args.schema.recordSize) (hcan : Starved args ∨ Works args)
    (h : Reached contents args it) :
    Idle args it ∨ (Works args ∧ ∃ d ≤ total contents args, Progress contents args it d ∧
      (it.currentRecord = none → total contents args ≤ d)) := by
  induction h with
  | new handle fp =>
    refine hcan.imp (fun hstarved => idle_new hstarved handle fp) fun hw => ?_
    exact ⟨hw, 0, Nat.zero_le _, progress_new contents args handle fp,
      fun hnone => absurd hnone (Option.some_ne_none _)⟩
  | @call it c fp _ hfp ih =>
    rcases ih with hidle | ⟨hw, d, hd, hp, hcur⟩
    · left
      cases c with
      | next => exact (idle_next hidle fp).2
      | hasNext => exact (idle_hasNext hidle fp).2
      | getCurrentRecord =>
        simp only [Call.run, RunIterator.getCurrentRecord,
          if_pos (hidle.records_left.trans (congrArg _ hidle.runLength_eq.symm))]
        exact (idle_next hidle fp).2
    · -- `next` makes one more record the current one, or leaves none when all are delivered
      have hnext : ∃ d ≤ total contents args, Progress contents args (it.next fp).2.1 d ∧
          ((it.next fp).2.1.currentRecord = none → total contents args ≤ d) := by
        by_cases hmore : d < total contents args
        · obtain ⟨h1, h2, h3⟩ := next_delivers hs hw.1 hw.2 hfp hp hmore
          exact ⟨d + 1, hmore, h3, fun hnone => by rw [h2, h1] at hnone; cases hnone⟩
        · obtain ⟨-, -, h3, -⟩ := next_exhausted hs hw.1 hw.2 hfp hp (not_lt.mp hmore)
          exact ⟨d, hd, h3, fun _ => not_lt.mp hmore⟩
      refine Or.inr ⟨hw, ?_⟩
      cases c with
      | next => exact hnext
      | hasNext =>
        obtain ⟨-, hp', -⟩ := progress_hasNext hs hw.1 hw.2 hfp hp
        exact ⟨d, hd, hp', fun hnone => hcur ((hasNext_currentRecord it fp).symm.trans hnone)⟩
      | getCurrentRecord =>
        simp only [Call.run, RunIterator.getCurrentRecord]
        split_ifs
        · exact hnext
        · exact ⟨d, hd, hp, hcur⟩

/-- INTERNAL: **what a used iterator delivers and what it shows**: the same, unless a peek finds
it started.  Then it shows its current record in front.
SRCLINE: library.cc:195-200 -/
theorem Reached.delivers_peeks (hs : 0 < args.schema.recordSize)
    (hcan : Starved args ∨ Works args) (hno : NeverRestarts args (stream contents args))
    (h : Reached contents args it) {fp : File} (hfp : fp.contents = contents) :
    ∃ S R, Delivers it fp S ∧ Peeks contents args it R ∧ (Unstarted it → R = S) ∧
      (¬ Unstarted it → R.length = S.length + 1) ∧
      ∀ r ∈ S, strncpy r args.schema.recordSize = r := by
  rcases h.state hs hcan with hidle | ⟨hw, d, hd, hp, hcur⟩
  · refine ⟨[], [], delivers_nil hidle, .idle hidle, fun _ => rfl, fun hno => absurd ?_ hno, nofun⟩
    exact Or.inl (hidle.records_left.trans (congrArg _ hidle.runLength_eq.symm))
  have hcopies : ∀ r ∈ (delivered contents args).drop d, strncpy r args.schema.recordSize = r := by
    intro r hr
    have hmem : r ∈ stream contents args := by
      rw [stream_of_works contents hw]
      exact List.mem_of_mem_drop hr
    exact strncpy_of_mem_stream hmem
  refine ⟨(delivered contents args).drop d, ?_⟩
  by_cases hrec : it.recordsLeft = args.runLength
  · -- it has not delivered anything
    obtain rfl : d = 0 := by
      by_contra hne
      exact recordsLeft_ne hw hno hp (Nat.pos_of_ne_zero hne) hrec
    refine ⟨_, delivers_drop hs hw hfp hp hd, .fresh hw hp hrec, fun _ => rfl, fun hno => ?_, hcopies⟩
    exact absurd (Or.inl (hrec.trans (congrArg _ hp.runLength_eq.symm))) hno
  · cases hrecord : it.currentRecord with
    | none =>
      have hnil : (delivered contents args).drop d = [] :=
        List.drop_eq_nil_of_le (by rw [length_delivered]; exact hcur hrecord)
      refine ⟨[], delivers_drop hs hw hfp hp hd, .done hw hp hrec hrecord (hcur hrecord),
        fun _ => hnil.symm, fun hno => absurd (Or.inr hrecord) hno, hcopies⟩
    | some r =>
      refine ⟨_, delivers_drop hs hw hfp hp hd, .shows hw hp hrec hrecord, fun hun => ?_,
        fun _ => rfl, hcopies⟩
      rcases hun with hrec' | hnone
      · exact absurd (hrec'.trans (congrArg _ hp.runLength_eq)) hrec
      · rw [hrecord] at hnone
        cases hnone

end Reached

end ExternalSort.Analysis
