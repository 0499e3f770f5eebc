import ExternalSort.Model.MergeRuns

/-!
# Iterators on one handle do not disturb each other

All iterators of a pass read through one `FILE*`, and each of them moves it.  An
iterator never relies on where it finds the handle: a refill first seeks to the
iterator's own `filePos`.  So what a call returns, and what it does to the iterator,
depends on the bytes of the file only (`hasNext_congr`, `next_congr`,
`getCurrentRecord_congr`), and no call changes these.

The one way to depend on the handle would be a seek that fails.  `SeekOk` excludes it:
`filePos` is a position of the file, or the last refill returned a negative count,
after which the iterator never refills again.
-/

set_option autoImplicit false

namespace ExternalSort.Analysis

open ExternalSort.Lib ExternalSort.Model

/-! ## One call depends on the bytes of the file only -/

/-- INTERNAL: the next seek of the iterator succeeds, or there is no next seek.
SRCLINE: library.cc:181 -/
def SeekOk (it : RunIterator) : Prop :=
  0 ≤ it.filePos ∨ (it.leftInBuf < 0 ∧ it.recordsLeft < 0)

/-- INTERNAL: a refill does the same from wherever the handle stands.
SRCLINE: library.cc:171-193 -/
theorem readIntoBuffer_congr {it : RunIterator} {fp fp' : File} (hpos : 0 ≤ it.filePos)
    (h : fp.contents = fp'.contents) :
    (it.readIntoBuffer fp).1 = (it.readIntoBuffer fp').1 := by
  unfold RunIterator.readIntoBuffer
  split_ifs with hskip
  · rfl
  · rw [fseek_eq_of_contents_eq h hpos]

/-- INTERNAL: a refill leaves the bytes of the file alone. -/
@[simp] theorem readIntoBuffer_contents (it : RunIterator) (fp : File) :
    (it.readIntoBuffer fp).2.contents = fp.contents := by
  unfold RunIterator.readIntoBuffer
  split_ifs with hskip
  · rfl
  · exact fseek_contents fp it.filePos

/-- INTERNAL: a refill that returns a negative count is the last one.
SRCLINE: library.cc:184-190 -/
theorem afterRead_seekOk {it : RunIterator} (hpos : 0 ≤ it.filePos) (asked : ℕ) (r : ℤ)
    (data : List Byte) : SeekOk (it.afterRead asked r data) := by
  rcases le_or_gt 0 r with hr | hr
  · exact Or.inl (add_nonneg hpos (mul_nonneg (Int.natCast_nonneg _) hr))
  · have hshort : r < asked := by omega
    simp only [SeekOk, RunIterator.afterRead, if_pos hshort]
    exact Or.inr ⟨hr, hr⟩

/-- INTERNAL: a refill keeps the next seek possible. -/
theorem readIntoBuffer_seekOk {it : RunIterator} (fp : File) (hpos : 0 ≤ it.filePos) :
    SeekOk (it.readIntoBuffer fp).1 := by
  unfold RunIterator.readIntoBuffer
  split_ifs with hskip
  · exact Or.inl hpos
  · exact afterRead_seekOk hpos _ _ _

/-- INTERNAL: `has_next` answers from the bytes of the file only.
SRCLINE: library.cc:217-223 -/
theorem hasNext_congr {it : RunIterator} {fp fp' : File} (hok : SeekOk it)
    (h : fp.contents = fp'.contents) :
    (it.hasNext fp).1 = (it.hasNext fp').1 ∧ (it.hasNext fp).2.1 = (it.hasNext fp').2.1 := by
  unfold RunIterator.hasNext
  split_ifs with hempty
  · have hpos : 0 ≤ it.filePos := hok.resolve_right fun hneg => by omega
    simp only [readIntoBuffer_congr hpos h, and_self]
  · exact ⟨rfl, rfl⟩

/-- INTERNAL: `has_next` leaves the bytes of the file alone. -/
@[simp] theorem hasNext_contents (it : RunIterator) (fp : File) :
    (it.hasNext fp).2.2.contents = fp.contents := by
  unfold RunIterator.hasNext
  split_ifs <;> simp

/-- INTERNAL: `has_next` keeps the next seek possible. -/
theorem hasNext_seekOk {it : RunIterator} (fp : File) (hok : SeekOk it) :
    SeekOk (it.hasNext fp).2.1 := by
  unfold RunIterator.hasNext
  split_ifs with hempty
  · exact readIntoBuffer_seekOk fp (hok.resolve_right fun hneg => by omega)
  · exact hok

/-- INTERNAL: `next` answers from the bytes of the file only.
SRCLINE: library.cc:202-215 -/
theorem next_congr {it : RunIterator} {fp fp' : File} (hok : SeekOk it)
    (h : fp.contents = fp'.contents) :
    (it.next fp).1 = (it.next fp').1 ∧ (it.next fp).2.1 = (it.next fp').2.1 := by
  obtain ⟨hb, hit⟩ := hasNext_congr hok h
  unfold RunIterator.next
  simp only [hb, hit]
  split_ifs <;> exact ⟨rfl, rfl⟩

/-- INTERNAL: `next` leaves the bytes of the file alone. -/
@[simp] theorem next_contents (it : RunIterator) (fp : File) :
    (it.next fp).2.2.contents = fp.contents := by
  unfold RunIterator.next
  dsimp only
  split_ifs <;> simp

/-- INTERNAL: `next` keeps the next seek possible.
SRCLINE: library.cc:202-215 -/
theorem next_seekOk {it : RunIterator} (fp : File) (hok : SeekOk it) :
    SeekOk (it.next fp).2.1 := by
  have h := hasNext_seekOk fp hok
  unfold RunIterator.next
  dsimp only
  split_ifs with hmore
  · -- a delivery lowers the counters, and keeps a negative count negative
    rcases h with h | ⟨h1, h2⟩
    · exact Or.inl h
    · exact Or.inr ⟨(sub_one_lt _).trans h1, (sub_one_lt _).trans h2⟩
  · exact h

/-- INTERNAL: `get_current_record` answers from the bytes of the file only.
SRCLINE: library.cc:195-200 -/
theorem getCurrentRecord_congr {it : RunIterator} {fp fp' : File} (hok : SeekOk it)
    (h : fp.contents = fp'.contents) :
    (it.getCurrentRecord fp).1 = (it.getCurrentRecord fp').1 ∧
      (it.getCurrentRecord fp).2.1 = (it.getCurrentRecord fp').2.1 := by
  unfold RunIterator.getCurrentRecord
  split_ifs
  · exact next_congr hok h
  · exact ⟨rfl, rfl⟩

/-- INTERNAL: `get_current_record` leaves the bytes of the file alone. -/
@[simp] theorem getCurrentRecord_contents (it : RunIterator) (fp : File) :
    (it.getCurrentRecord fp).2.2.contents = fp.contents := by
  unfold RunIterator.getCurrentRecord
  split_ifs
  · exact next_contents it fp
  · rfl

/-- INTERNAL: `get_current_record` keeps the next seek possible. -/
theorem getCurrentRecord_seekOk {it : RunIterator} (fp : File) (hok : SeekOk it) :
    SeekOk (it.getCurrentRecord fp).2.1 := by
  unfold RunIterator.getCurrentRecord
  split_ifs
  · exact next_seekOk fp hok
  · exact hok

/-- INTERNAL: **the frame of a call**: its reply and its effect on the iterator depend on
the bytes of the file only, it leaves these alone, and it keeps the next seek
possible.
SRCLINE: library.cc:171-223 -/
theorem call_frame (c : Call) {it : RunIterator} {fp fp' : File} (hok : SeekOk it)
    (h : fp.contents = fp'.contents) :
    (c.run it fp).1 = (c.run it fp').1 ∧ (c.run it fp).2.1 = (c.run it fp').2.1 ∧
      SeekOk (c.run it fp).2.1 := by
  cases c with
  | next =>
    obtain ⟨h1, h2⟩ := next_congr hok h
    exact ⟨congrArg Reply.record h1, h2, next_seekOk fp hok⟩
  | hasNext =>
    obtain ⟨h1, h2⟩ := hasNext_congr hok h
    exact ⟨congrArg Reply.flag h1, h2, hasNext_seekOk fp hok⟩
  | getCurrentRecord =>
    obtain ⟨h1, h2⟩ := getCurrentRecord_congr hok h
    exact ⟨congrArg Reply.record h1, h2, getCurrentRecord_seekOk fp hok⟩

/-- INTERNAL: a refill keeps the handle the iterator reads through. -/
theorem readIntoBuffer_fp (it : RunIterator) (fp : File) :
    (it.readIntoBuffer fp).1.fp = it.fp := by
  by_cases hskip : 0 < it.leftInBuf ∨ it.recordsLeft = 0
  · simp only [RunIterator.readIntoBuffer, if_pos hskip]
  · simp only [RunIterator.readIntoBuffer, if_neg hskip, RunIterator.afterRead]

/-- INTERNAL: `has_next` keeps the handle the iterator reads through. -/
theorem hasNext_fp (it : RunIterator) (fp : File) : (it.hasNext fp).2.1.fp = it.fp := by
  unfold RunIterator.hasNext
  by_cases hempty : it.leftInBuf = 0
  · rw [if_pos hempty]
    exact readIntoBuffer_fp it fp
  · rw [if_neg hempty]

/-- INTERNAL: `next` keeps the handle the iterator reads through. -/
theorem next_fp (it : RunIterator) (fp : File) : (it.next fp).2.1.fp = it.fp := by
  have h := hasNext_fp it fp
  unfold RunIterator.next
  dsimp only
  split_ifs <;> exact h

/-- INTERNAL: no call changes the handle the iterator reads through. -/
theorem call_fp (c : Call) (it : RunIterator) (fp : File) : (c.run it fp).2.1.fp = it.fp := by
  cases c with
  | next => exact next_fp it fp
  | hasNext => exact hasNext_fp it fp
  | getCurrentRecord =>
    simp only [Call.run, RunIterator.getCurrentRecord]
    split_ifs
    · exact next_fp it fp
    · rfl

/-- INTERNAL: no call changes the bytes of the file. -/
@[simp] theorem call_contents (c : Call) (it : RunIterator) (fp : File) :
    (c.run it fp).2.2.contents = fp.contents := by
  cases c with
  | next => exact next_contents it fp
  | hasNext => exact hasNext_contents it fp
  | getCurrentRecord => exact getCurrentRecord_contents it fp

/-- INTERNAL: a refill leaves the current record alone.
SRCLINE: library.cc:171-193 -/
theorem readIntoBuffer_currentRecord (it : RunIterator) (fp : File) :
    (it.readIntoBuffer fp).1.currentRecord = it.currentRecord := by
  have hread : ∀ asked r data, (it.afterRead asked r data).currentRecord = it.currentRecord :=
    fun _ _ _ => rfl
  unfold RunIterator.readIntoBuffer
  split_ifs
  · rfl
  · exact hread _ _ _

/-- INTERNAL: `has_next` leaves the current record alone.
SRCLINE: library.cc:217-223 -/
theorem hasNext_currentRecord (it : RunIterator) (fp : File) :
    (it.hasNext fp).2.1.currentRecord = it.currentRecord := by
  unfold RunIterator.hasNext
  split_ifs
  · exact readIntoBuffer_currentRecord it fp
  · rfl

/-! ## A session -/

/-- INTERNAL: a call changes no file's bytes.
SRCLINE: library.cc:171-223 -/
theorem session_call_contents (s : Session) (j : ℕ) (c : Call) (h : ℕ) :
    ((s.call j c.run).2.files h).contents = (s.files h).contents := by
  simp only [Session.call]
  by_cases hh : h = (s.iters j).fp
  · subst hh
    rw [Function.update_self, call_contents]
  · rw [Function.update_of_ne hh]

/-- INTERNAL: a constructor changes no file's bytes. -/
theorem construct_contents (s : Session) (handle j : ℕ) (args : RunArgs) (h : ℕ) :
    ((s.construct handle j args).files h).contents = (s.files h).contents := by
  simp only [Session.construct, RunIterator.new]
  by_cases hh : h = handle
  · subst hh
    rw [Function.update_self, fseek_contents]
  · rw [Function.update_of_ne hh]

/-- INTERNAL: after the constructors, index `i` holds the iterator of its own arguments,
as it was constructed.
SRCLINE: msort.cc:87-89 -/
theorem constructRuns_iters (s : Session) (handle : ℕ) (args : ℕ → RunArgs) {n i : ℕ}
    (hi : i < n) (fp : File) :
    (s.constructRuns handle args n).iters i = (RunIterator.new handle fp (args i)).1 := by
  induction n with
  | zero => omega
  | succ n ih =>
    simp only [Session.constructRuns, Session.construct]
    by_cases hin : i = n
    · subst hin
      rw [Function.update_self]
      rfl
    · rw [Function.update_of_ne hin]
      exact ih (by omega)

/-- INTERNAL: the constructors change no file's bytes. -/
theorem constructRuns_contents (s : Session) (handle : ℕ) (args : ℕ → RunArgs) (n h : ℕ) :
    ((s.constructRuns handle args n).files h).contents = (s.files h).contents := by
  induction n with
  | zero => rfl
  | succ n ih => exact (construct_contents _ _ _ _ _).trans ih

/-- INTERNAL: **the simulation.**  While iterator `i` of the session is the lone iterator
and their files hold the same bytes, the replies to `i` in any interleaving are the
replies to the lone iterator.
SRCLINE: library.cc:171-223 -/
theorem runCalls_ofIndex (calls : List (ℕ × Call)) (i : ℕ) (s : Session) (it : RunIterator)
    (fp : File) (hit : s.iters i = it) (hok : SeekOk it)
    (hfp : (s.files it.fp).contents = fp.contents) :
    ofIndex i (s.runCalls calls) = runCalls (ofIndex i calls) it fp := by
  -- the relation between the two runs never mentions a position of the shared handle
  induction calls generalizing s it fp with
  | nil => rfl
  | cons e calls ih =>
    obtain ⟨j, c⟩ := e
    by_cases hj : j = i
    · subst hj
      subst hit
      obtain ⟨hr, hit', hok'⟩ := call_frame c hok hfp
      have hstep : (s.call j c.run).2.iters j = (c.run (s.iters j) fp).2.1 := by
        simp only [Session.call, Function.update_self, hit']
      have hrest := ih (s.call j c.run).2 (c.run (s.iters j) fp).2.1 (c.run (s.iters j) fp).2.2
        hstep (hit' ▸ hok') (by rw [session_call_contents, call_contents, call_fp, hfp])
      have hreply : (s.call j c.run).1 = (c.run (s.iters j) fp).1 := hr
      simp only [Session.runCalls, ofIndex, List.filterMap_cons, if_true, runCalls] at hrest ⊢
      rw [hreply, hrest]
    · have hstep : (s.call j c.run).2.iters i = it := by
        simp only [Session.call]
        rw [Function.update_of_ne (Ne.symm hj), hit]
      have hrest := ih (s.call j c.run).2 it fp hstep hok
        (by rw [session_call_contents, hfp])
      simpa only [Session.runCalls, ofIndex, List.filterMap_cons, hj, if_false] using hrest

/-- SOURCE: library.cc:141-223, msort.cc:85-93 — **iterators on one handle are
independent.**  Construct any number of iterators on one open file and interleave calls
of them in any way: the replies iterator `i` gives are those it gives when the same
calls are made to it alone, on a handle of its own to the same file, wherever that
handle stands. -/
theorem shared_handle_replies_eq_alone (s : Session) (handle : ℕ) {m : ℕ} (args : ℕ → RunArgs)
    (calls : List (ℕ × Call)) (i : Fin m) (pos : ℕ) (eof : Bool) :
    ofIndex i ((s.constructRuns handle args m).runCalls calls) =
      runCalls (ofIndex i calls)
        (RunIterator.new handle { s.files handle with pos := pos, eof := eof } (args i)).1
        (RunIterator.new handle { s.files handle with pos := pos, eof := eof } (args i)).2 := by
  refine runCalls_ofIndex calls i _ _ _ (constructRuns_iters s handle args i.isLt _) ?_ ?_
  · exact Or.inl (Int.natCast_nonneg _)
  · simp only [RunIterator.new, fseek_contents]
    exact constructRuns_contents s handle args m handle

end ExternalSort.Analysis
