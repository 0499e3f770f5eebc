import ExternalSort.Analysis.HasNextObserves

/-!
# The representation invariant of a run iterator

`RepInvariant` says what the fields of an iterator mean between two calls, in terms of two
things it does not keep itself and `Traced` adds: how many bytes of its buffer the last refill
stored, and the records delivered so far.

The invariant is broken only by the two conversions of a refill: the room in the buffer is
compared as an `unsigned int`, so that a refill may ask for more than the run has, and the
number of records read is kept in an `int`.  `RefillsCounted` excludes both.  Then a refill
stores exactly the records it counts (`hasNext_refilled`), `Kept` holds after every call
(`Kept.call`), and the invariant is read off it (`Kept.repInvariant`).
-/

set_option autoImplicit false

namespace ExternalSort.Analysis

open ExternalSort.Lib ExternalSort.Model

/-! ## Iterators with what they have done -/

/-- An iterator and its handle after some calls, with the number of bytes of its buffer that
the last refill stored, and with the records delivered so far. -/
structure Traced where
  it : RunIterator
  fp : File
  filled : ℕ
  delivered : List Record

namespace Traced

/-- A new iterator.  Nothing is stored, and nothing is delivered. -/
def start (fp : File) (args : RunArgs) : Traced :=
  ⟨(RunIterator.new 0 fp args).1, (RunIterator.new 0 fp args).2, 0, []⟩

/-- The bytes stored in the buffer once `has_next` has looked at it: those of a refill, if it
makes one.
SRCLINE: library.cc:172, library.cc:184, library.cc:218 -/
def bytesFilled (t : Traced) : ℕ :=
  if t.it.leftInBuf = 0 ∧ t.it.recordsLeft ≠ 0 then
    ((t.fp.fseek t.it.filePos).fread t.it.schema.recordSize
      (refillCount t.it.bufSize t.it.schema.recordSize t.it.runLength)).1.length
  else t.filled

/-- After `has_next`. -/
def hasNext (t : Traced) : Traced :=
  { t with
    it := (t.it.hasNext t.fp).2.1
    fp := (t.it.hasNext t.fp).2.2
    filled := t.bytesFilled }

/-- After `next`.  A record that it copies is delivered. -/
def next (t : Traced) : Traced where
  it := (t.it.next t.fp).2.1
  fp := (t.it.next t.fp).2.2
  filled := t.bytesFilled
  delivered := t.delivered ++ (t.it.next t.fp).1.toList

/-- After a call.  Only an iterator that has its whole run left is moved on by
`get_current_record`.
SRCLINE: library.cc:195-223 -/
def call (t : Traced) : Call → Traced
  | .next => t.next
  | .hasNext => t.hasNext
  | .getCurrentRecord => if t.it.recordsLeft = t.it.runLength then t.next else t

/-- After a sequence of calls. -/
def calls (t : Traced) (cs : List Call) : Traced := cs.foldl call t

/-- INTERNAL: the iterator and the handle are those of the call. -/
theorem call_run (t : Traced) (c : Call) : ((t.call c).it, (t.call c).fp) = (c.run t.it t.fp).2 := by
  cases c with
  | next => rfl
  | hasNext => rfl
  | getCurrentRecord =>
    simp only [call, Call.run, RunIterator.getCurrentRecord]
    split_ifs <;> rfl

/-- INTERNAL: **the calls that follow** are answered by the iterator that is traced. -/
theorem runCalls_append (t : Traced) (cs cs' : List Call) :
    runCalls (cs ++ cs') t.it t.fp =
      runCalls cs t.it t.fp ++ runCalls cs' (t.calls cs).it (t.calls cs).fp := by
  induction cs generalizing t with
  | nil => rfl
  | cons c cs ih =>
    have hrest := ih (t.call c)
    obtain ⟨hit, hfp⟩ := Prod.mk.inj (t.call_run c)
    rw [hit, hfp] at hrest
    exact congrArg (List.cons (c.run t.it t.fp).1) hrest

end Traced

/-- An iterator over a file of records without NULs, from one of the records on, with a run and
with room for a record. -/
structure RunOn (records : List Record) (first : ℕ) (args : RunArgs) : Prop where
  plain : PlainRecords args.schema.recordSize records
  size_pos : 0 < args.schema.recordSize
  start_eq : args.startPos = first * args.schema.recordSize
  run_pos : 1 ≤ args.runLength
  room : args.schema.recordSize ≤ args.bufSize

/-- The representation invariant of an iterator that starts at record number `first`.
SRCLINE: library.h:88-103 -/
structure RepInvariant (records : List Record) (first : ℕ) (args : RunArgs) (t : Traced) :
    Prop where
  left_nonneg : 0 ≤ t.it.leftInBuf
  left_le : t.it.leftInBuf ≤ (min (args.bufSize / args.schema.recordSize) args.runLength : ℕ)
  records_left : 0 ≤ t.it.recordsLeft
  pointer : ∃ k : ℕ, t.it.bufferPointer = k * args.schema.recordSize
  filled_eq : (t.it.bufferPointer : ℤ) + t.it.leftInBuf * args.schema.recordSize = t.filled
  filled_le : t.filled ≤ args.bufSize
  unread : ∀ j : ℕ, (j : ℤ) < t.it.leftInBuf → records[first + t.delivered.length + j]? =
    some ((t.it.buffer.drop (t.it.bufferPointer + j * args.schema.recordSize)).take
      args.schema.recordSize)
  file_pos : t.it.filePos =
    args.startPos + args.schema.recordSize * ((t.delivered.length : ℤ) + t.it.leftInBuf)
  delivered_eq : t.delivered = (records.drop first).take t.delivered.length
  copies_inside : (t.it.hasNext t.fp).1 = true →
    t.hasNext.it.bufferPointer + args.schema.recordSize ≤ t.hasNext.filled

/-- A refill counts right what it reads: it asks for less than `2 ^ 31` records; or the file has
less from the start of the run on, and no more than the run.
SRCLINE: library.cc:176-188 -/
def RefillsCounted (args : RunArgs) (avail : ℕ) : Prop :=
  refillCount args.bufSize args.schema.recordSize args.runLength < 2 ^ 31 ∨
    (avail < 2 ^ 31 ∧ avail ≤ args.runLength)

/-- INTERNAL: it can be decided whether the refills are counted right. -/
instance (args : RunArgs) (avail : ℕ) : Decidable (RefillsCounted args avail) :=
  inferInstanceAs (Decidable (_ ∨ _))

section Refill

variable {records : List Record} {first d : ℕ} {args : RunArgs} {t : Traced}

/-- INTERNAL: how many records there are from the first of the run on. -/
theorem RunOn.available_eq (h : RunOn records first args) :
    available records.flatten args = records.length - first := by
  rw [available, h.start_eq, slotCount_flatten h.plain.length_eq h.size_pos]

/-- INTERNAL: there is no NUL in the file. -/
theorem RunOn.nulFree (h : RunOn records first args) : NulFree records.flatten := by
  intro b hb
  obtain ⟨r, hr, hmem⟩ := List.mem_flatten.mp hb
  exact h.plain.nulFree r hr b hmem

/-- INTERNAL: the records from the start of the run on. -/
theorem RunOn.getElem?_runRecord (h : RunOn records first args) {i : ℕ}
    (hi : i < records.length - first) :
    records[first + i]? = some (runRecord records.flatten args i) := by
  have hlt : first + i < records.length := by omega
  rw [List.getElem?_eq_getElem hlt, runRecord, h.start_eq, slot_flatten h.plain.length_eq hlt]

/-- INTERNAL: a refill never asks for more than has room.
SRCLINE: library.cc:176-180 -/
theorem refill_le_room (args : RunArgs) :
    refill args ≤ args.bufSize / args.schema.recordSize := by
  unfold refill refillCount toUnsignedInt
  split_ifs with hlt
  · exact le_rfl
  · exact (not_lt.mp hlt).trans (Nat.mod_le _ _)

/-- INTERNAL: **what a refill leaves**: the counts, and the number of bytes it stored.
SRCLINE: library.cc:176-192 -/
theorem hasNext_refilled (h : RunOn records first args)
    (hp : Progress records.flatten args t.it d) (hfp : t.fp.contents = records.flatten)
    (hunsettled : ¬ Settled t.it) {n : ℕ}
    (hn : n = min (refill args) (records.length - first - d)) :
    t.hasNext.it.leftInBuf = (if toInt n < refill args then toInt n else refill args) ∧
      t.hasNext.it.bufferPointer = 0 ∧ t.hasNext.filled = args.schema.recordSize * n := by
  obtain ⟨-, hempty⟩ := hp.onSchedule hunsettled
  obtain ⟨hpos, hit⟩ := hp.hasNext_eq h.size_pos hunsettled hfp
  rw [h.available_eq, ← hn] at hit
  refine ⟨?_, ?_, ?_⟩
  · simp only [Traced.hasNext, hit, RunIterator.afterRead]
  · simp only [Traced.hasNext, hit, RunIterator.afterRead]
  · have hrefills : t.it.leftInBuf = 0 ∧ t.it.recordsLeft ≠ 0 :=
      ⟨hempty, fun hused => hunsettled (Or.inr hused)⟩
    have hnat : t.it.filePos.toNat = (first + d) * args.schema.recordSize := by
      rw [hpos, h.start_eq, Nat.add_mul, mul_comm (args.schema.recordSize : ℤ)]
      omega
    have hseek : (t.fp.fseek t.it.filePos).pos = (first + d) * args.schema.recordSize := by
      rw [fseek_pos _ (by rw [hpos]; positivity), hnat]
    simp only [Traced.hasNext, Traced.bytesFilled]
    rw [if_pos hrefills, hp.asked_eq, hp.schema_eq,
      length_fread_flatten h.plain.length_eq ((fseek_contents _ _).trans hfp) hseek, hn,
      Nat.sub_sub]

/-- INTERNAL: the number of records a refill reads is the number it counts, and no more than
there is room and run for. -/
theorem RefillsCounted.exact (hcounted : RefillsCounted args (records.length - first)) {n : ℕ}
    (hn : n = min (refill args) (records.length - first - d)) :
    toInt n = n ∧ n ≤ min (args.bufSize / args.schema.recordSize) args.runLength := by
  have hroom := refill_le_room args
  rcases hcounted with hfits | ⟨havail, hrun⟩
  · have hrun : refill args ≤ args.runLength := refill_le hfits
    have hsmall : refill args < 2 ^ 31 := hfits
    exact ⟨toInt_of_lt (by omega) (by omega), by omega⟩
  · exact ⟨toInt_of_lt (by omega) (by omega), by omega⟩

end Refill

/-! ## The invariant is kept -/

section Kept

variable {records : List Record} {first : ℕ} {args : RunArgs} {t : Traced}

/-- INTERNAL: what every call keeps.
SRCLINE: library.cc:171-223 -/
structure Kept (records : List Record) (first : ℕ) (args : RunArgs) (t : Traced) : Prop where
  progress : Progress records.flatten args t.it t.delivered.length
  contents : t.fp.contents = records.flatten
  left_nonneg : 0 ≤ t.it.leftInBuf
  left_le : t.it.leftInBuf ≤ (min (args.bufSize / args.schema.recordSize) args.runLength : ℕ)
  pointer : ∃ k : ℕ, t.it.bufferPointer = k * args.schema.recordSize
  filled_eq : (t.it.bufferPointer : ℤ) + t.it.leftInBuf * args.schema.recordSize = t.filled
  filled_le : t.filled ≤ args.bufSize
  delivered_eq : t.delivered = (records.drop first).take t.delivered.length

/-- INTERNAL: a new iterator has delivered nothing and has everything before it. -/
theorem kept_start {fp : File} (hfp : fp.contents = records.flatten) :
    Kept records first args (Traced.start fp args) where
  progress := progress_new records.flatten args 0 fp
  contents := (fseek_contents fp _).trans hfp
  left_nonneg := le_rfl
  left_le := Int.natCast_nonneg _
  pointer := ⟨0, (Nat.zero_mul _).symm⟩
  filled_eq := by simp [Traced.start, RunIterator.new]
  filled_le := Nat.zero_le _
  delivered_eq := rfl

/-- INTERNAL: what `has_next` answers, and what it leaves. -/
theorem Kept.looked (h : RunOn records first args) (hk : Kept records first args t) :
    (t.it.hasNext t.fp).1 = decide (t.delivered.length < total records.flatten args) ∧
      Progress records.flatten args t.hasNext.it t.delivered.length ∧
      (t.delivered.length < total records.flatten args → 0 < t.hasNext.it.leftInBuf) := by
  obtain ⟨hmore, hprogress, hleft, -⟩ := progress_hasNext h.size_pos
    (refill_pos h.size_pos h.run_pos h.room) h.run_pos hk.contents hk.progress
  exact ⟨hmore, hprogress, hleft⟩

/-- INTERNAL: **`has_next`** keeps what is known: it leaves the iterator as it is, or refills it.
SRCLINE: library.cc:171-193, library.cc:217-223 -/
theorem Kept.hasNext (h : RunOn records first args)
    (hcounted : RefillsCounted args (records.length - first)) (hk : Kept records first args t) :
    Kept records first args t.hasNext := by
  obtain ⟨-, hprogress, -⟩ := hk.looked h
  have hcontents : t.hasNext.fp.contents = records.flatten :=
    (hasNext_contents t.it t.fp).trans hk.contents
  by_cases hsettled : Settled t.it
  · have hit : t.hasNext.it = t.it := hsettled.hasNext_eq t.fp
    have hfilled : t.hasNext.filled = t.filled := by
      apply if_neg
      rintro ⟨hempty, hused⟩
      exact hsettled.elim (fun hne => hne hempty) hused
    refine ⟨hprogress, hcontents, ?_, ?_, ?_, ?_, ?_, hk.delivered_eq⟩
    · rw [hit]
      exact hk.left_nonneg
    · rw [hit]
      exact hk.left_le
    · rw [hit]
      exact hk.pointer
    · rw [hit, hfilled]
      exact hk.filled_eq
    · rw [hfilled]
      exact hk.filled_le
  · obtain ⟨n, hn⟩ : ∃ n, n = min (refill args) (records.length - first - t.delivered.length) :=
      ⟨_, rfl⟩
    obtain ⟨hleft, hpointer, hfilled⟩ :=
      hasNext_refilled h hk.progress hk.contents hsettled hn
    obtain ⟨hexact, hle⟩ := hcounted.exact hn
    have hcount : t.hasNext.it.leftInBuf = n := by
      rw [hleft, hexact]
      split_ifs <;> omega
    refine ⟨hprogress, hcontents, ?_, ?_, ⟨0, ?_⟩, ?_, ?_, hk.delivered_eq⟩
    · rw [hcount]
      exact Int.natCast_nonneg n
    · rw [hcount]
      exact Int.ofNat_le.mpr hle
    · rw [hpointer, Nat.zero_mul]
    · rw [hpointer, hcount, hfilled]
      push_cast
      ring
    · rw [hfilled]
      exact (Nat.mul_le_mul_left _ (hle.trans (min_le_left _ _))).trans (Nat.mul_div_le _ _)

/-- INTERNAL: the iterator delivers nothing that is not in the file. -/
theorem Kept.delivered_lt (h : RunOn records first args) {n : ℕ}
    (hd : n < total records.flatten args) : n < records.length - first := by
  rw [← h.available_eq]
  exact hd.trans_le (deliverCount_le _ _ _)

/-- INTERNAL: the record that `next` copies.
SRCLINE: library.cc:208 -/
theorem Kept.copied (h : RunOn records first args) (hk : Kept records first args t)
    (hd : t.delivered.length < total records.flatten args) (hleft : 0 < t.it.leftInBuf) :
    records[first + t.delivered.length]? =
      some (strncpy (t.it.buffer.drop t.it.bufferPointer) t.it.schema.recordSize) := by
  have hlt := Kept.delivered_lt h hd
  have hwindow := hk.progress.window 0 hleft
  rw [Nat.zero_mul, Nat.add_zero, Nat.add_zero] at hwindow
  rw [hk.progress.schema_eq, ← strncpy_take, hwindow,
    strncpy_runRecord h.nulFree (by rwa [h.available_eq]), h.getElem?_runRecord hlt]

/-- INTERNAL: **taking a record** keeps what is known.
SRCLINE: library.cc:208-214 -/
theorem Kept.take (h : RunOn records first args) (hk : Kept records first args t)
    (hd : t.delivered.length < total records.flatten args) (hleft : 0 < t.it.leftInBuf)
    {data : Record} (hdata : records[first + t.delivered.length]? = some data) :
    Kept records first args
      { t with
        it :=
          { t.it with
            currentRecord := some data
            bufferPointer := t.it.bufferPointer + t.it.schema.recordSize
            leftInBuf := t.it.leftInBuf - 1
            recordsLeft := t.it.recordsLeft - 1 }
        delivered := t.delivered ++ [data] } where
  progress := by
    dsimp only
    rw [List.length_append, List.length_singleton]
    exact progress_take h.run_pos hk.progress hd hleft _
  contents := hk.contents
  left_nonneg := by
    dsimp only
    omega
  left_le := by
    have hle := hk.left_le
    dsimp only
    omega
  pointer := by
    obtain ⟨k, hpointer⟩ := hk.pointer
    refine ⟨k + 1, ?_⟩
    dsimp only
    rw [hpointer, hk.progress.schema_eq, Nat.succ_mul]
  filled_eq := by
    have hfilled := hk.filled_eq
    dsimp only
    rw [hk.progress.schema_eq, ← hfilled]
    push_cast
    ring
  filled_le := hk.filled_le
  delivered_eq := by
    dsimp only
    rw [List.length_append, List.length_singleton, List.take_add_one, List.getElem?_drop, hdata,
      ← hk.delivered_eq, Option.toList_some]

/-- INTERNAL: the current record is not part of what is known. -/
theorem Kept.setCurrent (hk : Kept records first args t) (cur : Option Record) :
    Kept records first args { t with it := { t.it with currentRecord := cur } } :=
  ⟨hk.progress.setCurrent cur, hk.contents, hk.left_nonneg, hk.left_le, hk.pointer, hk.filled_eq,
    hk.filled_le, hk.delivered_eq⟩

/-- INTERNAL: **`next`** keeps what is known.
SRCLINE: library.cc:202-215 -/
theorem Kept.next (h : RunOn records first args)
    (hcounted : RefillsCounted args (records.length - first)) (hk : Kept records first args t) :
    Kept records first args t.next := by
  have hk' := hk.hasNext h hcounted
  obtain ⟨hmore, -, hleft⟩ := hk.looked h
  by_cases hd : t.delivered.length < total records.flatten args
  · have hdata := Kept.copied h hk' hd (hleft hd)
    have hnext : t.next = { t.hasNext with
        it := { t.hasNext.it with
          currentRecord := some (strncpy (t.hasNext.it.buffer.drop t.hasNext.it.bufferPointer)
            t.hasNext.it.schema.recordSize)
          bufferPointer := t.hasNext.it.bufferPointer + t.hasNext.it.schema.recordSize
          leftInBuf := t.hasNext.it.leftInBuf - 1
          recordsLeft := t.hasNext.it.recordsLeft - 1 }
        delivered := t.hasNext.delivered ++
          [strncpy (t.hasNext.it.buffer.drop t.hasNext.it.bufferPointer)
            t.hasNext.it.schema.recordSize] } := by
      simp only [Traced.next, Traced.hasNext, RunIterator.next, hmore, decide_eq_true hd, if_true,
        Option.toList_some]
    rw [hnext]
    exact Kept.take h hk' hd (hleft hd) hdata
  · have hnext : t.next = { t.hasNext with it := { t.hasNext.it with currentRecord := none } } := by
      simp only [Traced.next, Traced.hasNext, RunIterator.next, hmore, decide_eq_false hd,
        Bool.false_eq_true, if_false, Option.toList_none, List.append_nil]
    rw [hnext]
    exact hk'.setCurrent none

/-- INTERNAL: **one call** keeps what is known. -/
theorem Kept.call (h : RunOn records first args)
    (hcounted : RefillsCounted args (records.length - first)) (hk : Kept records first args t)
    (c : Call) : Kept records first args (t.call c) := by
  cases c with
  | next => exact hk.next h hcounted
  | hasNext => exact hk.hasNext h hcounted
  | getCurrentRecord =>
    simp only [Traced.call]
    split_ifs
    · exact hk.next h hcounted
    · exact hk

/-- INTERNAL: **every sequence of calls** keeps what is known. -/
theorem Kept.calls (h : RunOn records first args)
    (hcounted : RefillsCounted args (records.length - first)) (hk : Kept records first args t)
    (cs : List Call) : Kept records first args (t.calls cs) := by
  induction cs generalizing t with
  | nil => exact hk
  | cons c cs ih => exact ih (hk.call h hcounted c)

/-- INTERNAL: the representation invariant, read off what is kept. -/
theorem Kept.repInvariant (h : RunOn records first args)
    (hcounted : RefillsCounted args (records.length - first)) (hk : Kept records first args t) :
    RepInvariant records first args t where
  left_nonneg := hk.left_nonneg
  left_le := hk.left_le
  records_left := by
    rcases hk.progress.mode with hm | hm
    · have hrec := hm.records_left
      have hle := hm.delivered_le
      omega
    · rw [hm.records_left]
      exact hk.left_nonneg
  pointer := hk.pointer
  filled_eq := hk.filled_eq
  filled_le := hk.filled_le
  unread := by
    intro j hj
    have hread : t.delivered.length + j < records.length - first := by
      rw [← h.available_eq]
      rcases hk.progress.mode with hm | hm
      · have hle := hm.read_le
        omega
      · have htotal := hm.total_eq
        have hle : total records.flatten args ≤ available records.flatten args :=
          deliverCount_le _ _ _
        omega
    rw [hk.progress.window j hj, Nat.add_assoc, h.getElem?_runRecord hread]
  file_pos := hk.progress.mode.elim (fun hm => hm.file_pos) fun hm => hm.file_pos
  delivered_eq := hk.delivered_eq
  copies_inside := by
    intro hmore
    obtain ⟨hanswer, -, hleft⟩ := hk.looked h
    rw [hanswer, decide_eq_true_iff] at hmore
    have hpos : 1 ≤ t.hasNext.it.leftInBuf := hleft hmore
    have hfilled := (hk.hasNext h hcounted).filled_eq
    have hrecord : (args.schema.recordSize : ℤ) ≤
        t.hasNext.it.leftInBuf * args.schema.recordSize :=
      le_mul_of_one_le_left (Int.natCast_nonneg _) hpos
    omega

end Kept

/-- INTERNAL: a first refill that is not counted right breaks the invariant.
SRCLINE: library.cc:176-188 -/
theorem counted_of_repInvariant {records : List Record} {first : ℕ} {args : RunArgs} {fp : File}
    (h : RunOn records first args) (hfp : fp.contents = records.flatten)
    (hinv : RepInvariant records first args (Traced.start fp args).hasNext) :
    RefillsCounted args (records.length - first) := by
  have hunsettled : ¬ Settled (Traced.start fp args).it := by
    have hrun := h.run_pos
    simp only [Settled, Traced.start, RunIterator.new]
    omega
  obtain ⟨n, hn⟩ : ∃ n, n = min (refill args) (records.length - first - 0) := ⟨_, rfl⟩
  obtain ⟨hleft, hpointer, hfilled⟩ := hasNext_refilled h
    (progress_new records.flatten args 0 fp) ((fseek_contents fp _).trans hfp) hunsettled hn
  -- as many records are left as were stored, so the `int` that counted them is right
  have hcount : (Traced.start fp args).hasNext.it.leftInBuf = n := by
    have hsize : (args.schema.recordSize : ℤ) ≠ 0 := by
      have := h.size_pos
      omega
    have heq := hinv.filled_eq
    rw [hpointer, hfilled] at heq
    push_cast at heq
    apply mul_right_cancel₀ hsize
    linarith
  have hle := hinv.left_le
  rw [hcount] at hle hleft
  by_contra hnot
  obtain ⟨hlarge, hmany⟩ := not_or.mp hnot
  have hlarge' : 2 ^ 31 ≤ refill args := not_lt.mp hlarge
  have hint := toInt_lt n
  split_ifs at hleft with hshort
  · omega
  · omega

/-- SOURCE: library.cc:141-223 — **when the representation invariant holds.**  For an iterator over
a file of NUL-free records, with a run and with room for a record, the invariant holds after
every sequence of calls if and only if its refills count right what they read. -/
theorem iterator_invariant_iff (records : List Record) (first : ℕ) (args : RunArgs)
    (h : RunOn records first args) (fp : File) (hfp : fp.contents = records.flatten) :
    (∀ cs, RepInvariant records first args ((Traced.start fp args).calls cs)) ↔
      RefillsCounted args (records.length - first) := by
  constructor
  · intro hinv
    exact counted_of_repInvariant h hfp (hinv [.hasNext])
  · intro hcounted cs
    exact ((kept_start hfp).calls h hcounted cs).repInvariant h hcounted

/-- Four letters of a file of five, through a buffer of three: the second refill comes back
short, and reaches into the next run. -/
theorem iterator_invariant_five :
    RefillsCounted letterRun ((letters 5).length - 0) ∧
    ∀ cs, RepInvariant (letters 5) 0 letterRun
      ((Traced.start (File.open_ (letters 5).flatten) letterRun).calls cs) := by
  have hcounted : RefillsCounted letterRun ((letters 5).length - 0) := by decide
  refine ⟨hcounted, ?_⟩
  apply (iterator_invariant_iff (letters 5) 0 letterRun ?_ (File.open_ (letters 5).flatten)
    rfl).mpr hcounted
  exact ⟨letters_plain 5 (by decide +kernel), by decide, rfl, by decide, by decide⟩

/-- A run of one letter, with room for `2 ^ 32` of them. -/
def hugeBufferRun : RunArgs where
  heap := fun _ => 0
  startPos := 0
  runLength := 1
  bufSize := 2 ^ 33
  schema := letterSchema

/-- INTERNAL: the run with the huge buffer is a run over two letters. -/
theorem hugeBufferRun_runOn : RunOn (letters 2) 0 hugeBufferRun :=
  ⟨letters_plain 2 (by decide +kernel), by decide, rfl, by decide, by decide⟩

/-- The room is taken for none at all, so the refill asks for all of it; then the buffer of a run
of one letter holds two. -/
theorem iterator_invariant_huge_buffer :
    RunOn (letters 2) 0 hugeBufferRun ∧
    ((Traced.start (File.open_ (letters 2).flatten) hugeBufferRun).calls
      [.hasNext]).it.leftInBuf = 2 ∧
    ¬ RepInvariant (letters 2) 0 hugeBufferRun
      ((Traced.start (File.open_ (letters 2).flatten) hugeBufferRun).calls [.hasNext]) := by
  have hunsettled : ¬ Settled
      (Traced.start (File.open_ (letters 2).flatten) hugeBufferRun).it := by
    simp [Settled, Traced.start, RunIterator.new, hugeBufferRun]
  obtain ⟨hleft, -⟩ := hasNext_refilled hugeBufferRun_runOn
    (progress_new (letters 2).flatten hugeBufferRun 0 (File.open_ (letters 2).flatten))
    (fseek_contents _ _) hunsettled (show 2 = min (refill hugeBufferRun) _ by decide)
  have htwo : ((Traced.start (File.open_ (letters 2).flatten) hugeBufferRun).calls
      [.hasNext]).it.leftInBuf = 2 := hleft.trans (by decide)
  refine ⟨hugeBufferRun_runOn, htwo, fun hinv => ?_⟩
  have hle := hinv.left_le
  rw [htwo] at hle
  revert hle
  decide

end ExternalSort.Analysis
