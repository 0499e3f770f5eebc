import ExternalSort.Analysis.IteratorDelivery

/-!
# Whether `has_next` only observes

`has_next` refills an empty buffer, so it changes the iterator.  A second call finds the
buffer filled (`hasNext_hasNext`), and `next` begins with one itself; so a deleted `has_next`
is made up for by the next call that needs it, unless this is `get_current_record`, which
asks whether the iterator was started.  `started_hasNext_iff` says when a refill leaves the
answer to that as it was.
-/

set_option autoImplicit false

namespace ExternalSort.Analysis

open ExternalSort.Lib ExternalSort.Model

/-- A sequence of calls in which `none` is a call of `has_next` that is to be deleted: all of
its calls. -/
def allCalls (marked : List (Option Call)) : List Call := marked.map fun m => m.getD .hasNext

/-- The replies to the calls that are not to be deleted. -/
def keptReplies (marked : List (Option Call)) (replies : List Reply) : List Reply :=
  (marked.zip replies).filterMap fun p => p.1.map fun _ => p.2

/-- Deleting calls of `has_next` from a sequence of calls of a new iterator does not change
the replies to the others, whatever memory the iterator was given.
SRCLINE: library.h:74-86 -/
def HasNextObserves (fp : File) (args : RunArgs) : Prop :=
  ∀ (heap : ℕ → Byte) (marked : List (Option Call)),
    let (it, fp') := RunIterator.new 0 fp { args with heap := heap }
    keptReplies marked (runCalls (allCalls marked) it fp') = runCalls marked.reduceOption it fp'

section Twice

variable {it : RunIterator}

/-- INTERNAL: an iterator that `has_next` leaves as it is: its buffer holds records, or its run
is used up.
SRCLINE: library.cc:172, library.cc:218 -/
def Settled (it : RunIterator) : Prop := it.leftInBuf ≠ 0 ∨ it.recordsLeft = 0

/-- INTERNAL: the answer of `has_next`, read off the iterator it leaves. -/
theorem hasNext_answer (it : RunIterator) (fp : File) :
    (it.hasNext fp).1 = (decide (0 < (it.hasNext fp).2.1.recordsLeft) &&
      decide (0 < (it.hasNext fp).2.1.leftInBuf ∨ (it.hasNext fp).2.1.buffer.headD 0 ≠ 0)) := rfl

/-- INTERNAL: the question changes nothing for an iterator that is settled. -/
theorem Settled.hasNext_eq (h : Settled it) (fp : File) : (it.hasNext fp).2.1 = it := by
  unfold RunIterator.hasNext
  by_cases hempty : it.leftInBuf = 0
  · have hused : it.recordsLeft = 0 := h.resolve_left (not_not.mpr hempty)
    rw [if_pos hempty]
    simp only [RunIterator.readIntoBuffer, if_pos (Or.inr hused)]
  · rw [if_neg hempty]

/-- INTERNAL: what a refill does, if there is one. -/
theorem hasNext_unsettled (h : ¬ Settled it) (fp : File) :
    (it.hasNext fp).2.1 = it.afterRead (refillCount it.bufSize it.schema.recordSize it.runLength)
      (toInt ((fp.fseek it.filePos).fread it.schema.recordSize
        (refillCount it.bufSize it.schema.recordSize it.runLength)).2.1)
      ((fp.fseek it.filePos).fread it.schema.recordSize
        (refillCount it.bufSize it.schema.recordSize it.runLength)).1 := by
  unfold Settled at h
  push Not at h
  obtain ⟨hempty, hused⟩ := h
  unfold RunIterator.hasNext
  rw [if_pos hempty]
  simp only [RunIterator.readIntoBuffer]
  rw [if_neg (by omega)]

/-- INTERNAL: `has_next` leaves nothing to do for another one: a refill that reads nothing
is a short one, and leaves nothing of the run.
SRCLINE: library.cc:184-188 -/
theorem settled_hasNext (hasked : 0 < refillCount it.bufSize it.schema.recordSize it.runLength)
    (fp : File) : Settled (it.hasNext fp).2.1 := by
  by_cases h : Settled it
  · rwa [h.hasNext_eq]
  · rw [hasNext_unsettled h]
    simp only [Settled, RunIterator.afterRead]
    split_ifs <;> omega

/-- INTERNAL: **a second `has_next`** changes nothing and answers the same.
SRCLINE: library.cc:171-193, library.cc:217-223 -/
theorem hasNext_hasNext (hasked : 0 < refillCount it.bufSize it.schema.recordSize it.runLength)
    (fp fp' : File) :
    ((it.hasNext fp).2.1.hasNext fp').1 = (it.hasNext fp).1 ∧
      ((it.hasNext fp).2.1.hasNext fp').2.1 = (it.hasNext fp).2.1 := by
  have hsame := (settled_hasNext hasked fp).hasNext_eq fp'
  refine ⟨?_, hsame⟩
  rw [hasNext_answer, hsame, hasNext_answer it fp]

/-- INTERNAL: `next` does what it would have done without the `has_next` before it.
SRCLINE: library.cc:202-215 -/
theorem next_hasNext (hasked : 0 < refillCount it.bufSize it.schema.recordSize it.runLength)
    (fp fp' : File) :
    ((it.hasNext fp).2.1.next fp').1 = (it.next fp).1 ∧
      ((it.hasNext fp).2.1.next fp').2.1 = (it.next fp).2.1 := by
  obtain ⟨hb, hit⟩ := hasNext_hasNext hasked fp fp'
  unfold RunIterator.next
  simp only [hb, hit]
  split_ifs <;> exact ⟨rfl, rfl⟩

end Twice

section Simulation

variable {contents : List Byte} {args : RunArgs} {it : RunIterator}

/-- The first refill of the run changes the count of the records left only to the same number:
it is full, or what it reads is the run.
SRCLINE: library.cc:184-188, library.cc:196 -/
def FirstRefillKeeps (args : RunArgs) (avail : ℕ) : Prop :=
  let asked := refillCount args.bufSize args.schema.recordSize args.runLength
  (asked : ℤ) ≤ toInt (min asked avail : ℕ) ∨ toInt (min asked avail : ℕ) = args.runLength

/-- INTERNAL: it can be decided whether the first refill keeps what was there. -/
instance (args : RunArgs) (avail : ℕ) : Decidable (FirstRefillKeeps args avail) :=
  inferInstanceAs (Decidable (_ ∨ _))

/-- INTERNAL: what is known of the iterator of a sequence of calls. -/
structure Runs (contents : List Byte) (args : RunArgs) (it : RunIterator) : Prop where
  progress : ∃ d, Progress contents args it (min d (total contents args))
  seekOk : SeekOk it

/-- INTERNAL: an iterator that is not settled is on schedule. -/
theorem Progress.onSchedule {d : ℕ} (h : Progress contents args it d) (hunsettled : ¬ Settled it) :
    OnSchedule contents args it d ∧ it.leftInBuf = 0 := by
  unfold Settled at hunsettled
  push Not at hunsettled
  obtain ⟨hempty, hused⟩ := hunsettled
  refine ⟨?_, hempty⟩
  cases h.mode with
  | inl hm => exact hm
  | inr hm => exact absurd (hm.records_left.trans hempty) hused

/-- INTERNAL: **what a refill does** after `d` deliveries.
SRCLINE: library.cc:176-192 -/
theorem Progress.hasNext_eq {d : ℕ} (hs : 0 < args.schema.recordSize)
    (h : Progress contents args it d) (hunsettled : ¬ Settled it) {fp : File}
    (hfp : fp.contents = contents) :
    it.filePos = args.startPos + args.schema.recordSize * (d : ℤ) ∧
      (it.hasNext fp).2.1 = it.afterRead (refill args)
        (toInt (min (refill args) (available contents args - d) : ℕ))
        ((fp.fseek it.filePos).fread args.schema.recordSize (refill args)).1 := by
  obtain ⟨hm, hempty⟩ := h.onSchedule hunsettled
  have hpos : it.filePos = args.startPos + args.schema.recordSize * (d : ℤ) := by
    rw [hm.file_pos, hempty, add_zero]
  refine ⟨hpos, ?_⟩
  rw [hasNext_unsettled hunsettled, h.asked_eq, h.schema_eq, refill_items hs hfp hpos]

/-- INTERNAL: the count of the records left after a refill.
SRCLINE: library.cc:184-188 -/
theorem Progress.recordsLeft_hasNext {d : ℕ} (hs : 0 < args.schema.recordSize)
    (h : Progress contents args it d) (hunsettled : ¬ Settled it) {fp : File}
    (hfp : fp.contents = contents) {r : ℤ}
    (hr : r = toInt (min (refill args) (available contents args - d) : ℕ)) :
    (it.hasNext fp).2.1.recordsLeft = (if r < refill args then r else it.recordsLeft) ∧
      (it.hasNext fp).2.1.runLength = args.runLength := by
  rw [(h.hasNext_eq hs hunsettled hfp).2, ← hr]
  simp only [RunIterator.afterRead]
  exact ⟨trivial, h.runLength_eq⟩

/-- INTERNAL: **whether the iterator was started** is the same before and after `has_next`.
Only the first refill can come back short with a whole run left.
SRCLINE: library.cc:184-188, library.cc:196 -/
theorem started_hasNext_iff (hs : 0 < args.schema.recordSize)
    (hfirst : FirstRefillKeeps args (available contents args)) (h : Runs contents args it)
    {fp : File} (hfp : fp.contents = contents) :
    (it.hasNext fp).2.1.recordsLeft = (it.hasNext fp).2.1.runLength ↔
      it.recordsLeft = it.runLength := by
  by_cases hsettled : Settled it
  · rw [hsettled.hasNext_eq]
  obtain ⟨d, hp⟩ := h.progress
  generalize min d (total contents args) = d at hp
  obtain ⟨r, hr⟩ : ∃ r, r = toInt (min (refill args) (available contents args - d) : ℕ) :=
    ⟨_, rfl⟩
  obtain ⟨hleft, hrun⟩ := hp.recordsLeft_hasNext hs hsettled hfp hr
  obtain ⟨hm, -⟩ := hp.onSchedule hsettled
  have hrec := hm.records_left
  rw [hleft, hrun, hp.runLength_eq]
  split_ifs with hshort
  · rcases Nat.eq_zero_or_pos d with rfl | hd
    · have hkept : r = args.runLength := by
        rw [Nat.sub_zero] at hr
        rw [hr] at hshort ⊢
        exact hfirst.resolve_left (not_le.mpr hshort)
      omega
    · have hfits : refill args < 2 ^ 31 := hm.fits.resolve_right fun h0 => by omega
      have hle := refill_le hfits
      omega
  · rfl

/-- INTERNAL: a call keeps what is known of the iterator. -/
theorem Runs.call (hs : 0 < args.schema.recordSize) (ha : 0 < refill args)
    (hlen : 0 < args.runLength) (h : Runs contents args it) (c : Call) {fp : File}
    (hfp : fp.contents = contents) : Runs contents args (c.run it fp).2.1 := by
  obtain ⟨⟨d, hp⟩, hok⟩ := h
  refine ⟨?_, (call_frame c hok rfl).2.2⟩
  have hnext := (next_inOrder hs ha hlen hfp hp).2
  cases c with
  | next => exact ⟨d + 1, hnext⟩
  | hasNext => exact ⟨d, (progress_hasNext hs ha hlen hfp hp).2.1⟩
  | getCurrentRecord =>
    simp only [Call.run, RunIterator.getCurrentRecord]
    split_ifs
    · exact ⟨d + 1, hnext⟩
    · exact ⟨d, hp⟩

/-- INTERNAL: the iterator with all calls is the iterator with the calls that are kept, or is one
`has_next` ahead of it. -/
def Ahead (contents : List Byte) (it it' : RunIterator) : Prop :=
  it = it' ∨ ∃ fp : File, fp.contents = contents ∧ it = (it'.hasNext fp).2.1

/-- INTERNAL: **a call that is kept** gets the same reply from both, and afterwards one is at
most one `has_next` ahead.
SRCLINE: library.cc:195-223 -/
theorem Ahead.call {it' : RunIterator} (hs : 0 < args.schema.recordSize) (ha : 0 < refill args)
    (hfirst : FirstRefillKeeps args (available contents args)) (h : Runs contents args it')
    (hahead : Ahead contents it it') (c : Call) {fp fp' : File} (hfp : fp.contents = contents)
    (hfp' : fp'.contents = contents) :
    (c.run it fp).1 = (c.run it' fp').1 ∧
      Ahead contents (c.run it fp).2.1 (c.run it' fp').2.1 := by
  rcases hahead with rfl | ⟨fp₀, hfp₀, rfl⟩
  · obtain ⟨hreply, hit, -⟩ := call_frame c h.seekOk (hfp.trans hfp'.symm)
    exact ⟨hreply, Or.inl hit⟩
  · obtain ⟨d, hp⟩ := h.progress
    have hasked : 0 < refillCount it'.bufSize it'.schema.recordSize it'.runLength :=
      hp.asked_eq ▸ ha
    have hsame : fp₀.contents = fp'.contents := hfp₀.trans hfp'.symm
    obtain ⟨hn1, hn2⟩ := next_hasNext hasked fp₀ fp
    obtain ⟨hc1, hc2⟩ := next_congr h.seekOk hsame
    cases c with
    | next => exact ⟨congrArg Reply.record (hn1.trans hc1), Or.inl (hn2.trans hc2)⟩
    | hasNext =>
      obtain ⟨hb, hit⟩ := hasNext_hasNext hasked fp₀ fp
      obtain ⟨hb', hit'⟩ := hasNext_congr h.seekOk hsame
      exact ⟨congrArg Reply.flag (hb.trans hb'), Or.inl (hit.trans hit')⟩
    | getCurrentRecord =>
      have hstarted := started_hasNext_iff hs hfirst h hfp₀
      simp only [Call.run, RunIterator.getCurrentRecord, hstarted]
      split_ifs
      · exact ⟨congrArg Reply.record (hn1.trans hc1), Or.inl (hn2.trans hc2)⟩
      · exact ⟨congrArg Reply.record (hasNext_currentRecord it' fp₀), Or.inr ⟨fp₀, hfp₀, rfl⟩⟩

/-- INTERNAL: a `has_next` that is deleted leaves one at most one `has_next` ahead. -/
theorem Ahead.skip {it' : RunIterator} (ha : 0 < refill args) (h : Runs contents args it')
    (hahead : Ahead contents it it') {fp : File} (hfp : fp.contents = contents) :
    Ahead contents (it.hasNext fp).2.1 it' := by
  rcases hahead with rfl | ⟨fp₀, hfp₀, rfl⟩
  · exact Or.inr ⟨fp, hfp, rfl⟩
  · obtain ⟨d, hp⟩ := h.progress
    exact Or.inr ⟨fp₀, hfp₀, (hasNext_hasNext (hp.asked_eq ▸ ha) fp₀ fp).2⟩

/-- INTERNAL: **the simulation.**  The induction is on the calls, both runs going on from
iterators of which one is at most one `has_next` ahead. -/
theorem keptReplies_eq (hs : 0 < args.schema.recordSize) (ha : 0 < refill args)
    (hlen : 0 < args.runLength) (hfirst : FirstRefillKeeps args (available contents args))
    (marked : List (Option Call)) {it' : RunIterator} {fp fp' : File} (h : Runs contents args it')
    (hahead : Ahead contents it it') (hfp : fp.contents = contents)
    (hfp' : fp'.contents = contents) :
    keptReplies marked (runCalls (allCalls marked) it fp) =
      runCalls marked.reduceOption it' fp' := by
  induction marked generalizing it it' fp fp' with
  | nil => rfl
  | cons m marked ih =>
    cases m with
    | none =>
      exact ih h (hahead.skip ha h hfp) ((hasNext_contents it fp).trans hfp) hfp'
    | some c =>
      obtain ⟨hreply, hnext⟩ := hahead.call hs ha hfirst h c hfp hfp'
      have hrest := ih (h.call hs ha hlen c hfp') hnext ((call_contents c it fp).trans hfp)
        ((call_contents c it' fp').trans hfp')
      rw [List.reduceOption_cons_of_some]
      exact congrArg₂ List.cons hreply hrest

/-- INTERNAL: a new iterator over a run. -/
theorem runs_new (args : RunArgs) (handle : ℕ) (fp : File) :
    Runs fp.contents args (RunIterator.new handle fp args).1 :=
  ⟨⟨0, by rw [Nat.zero_min]; exact progress_new fp.contents args handle fp⟩,
    Or.inl (Int.natCast_nonneg _)⟩

end Simulation

section Uninitialised

variable {fp : File} {args : RunArgs}

/-- INTERNAL: a first refill that came back short makes a new iterator take itself to be
started.
SRCLINE: library.cc:186 -/
theorem recordsLeft_after_short (hs : 0 < args.schema.recordSize) (hlen : 0 < args.runLength)
    (hfirst : ¬ FirstRefillKeeps args (available fp.contents args)) :
    ((RunIterator.new 0 fp args).1.hasNext (RunIterator.new 0 fp args).2).2.1.recordsLeft ≠
      ((RunIterator.new 0 fp args).1.hasNext (RunIterator.new 0 fp args).2).2.1.runLength := by
  have hunsettled : ¬ Settled (RunIterator.new 0 fp args).1 := by
    simp only [Settled, RunIterator.new]
    omega
  obtain ⟨hlong, hne⟩ := not_or.mp hfirst
  have hshort : toInt (min (refill args) (available fp.contents args) : ℕ) < refill args :=
    not_le.mp hlong
  obtain ⟨hleft, hrun⟩ := @Progress.recordsLeft_hasNext fp.contents args _ 0 hs
    (progress_new fp.contents args 0 fp) hunsettled (RunIterator.new 0 fp args).2
    (fseek_contents fp _) _ rfl
  rw [hleft, hrun, Nat.sub_zero, if_pos hshort]
  exact hne

/-- INTERNAL: such an iterator shows the memory it was given.
SRCLINE: library.cc:195-200 -/
theorem getCurrentRecord_after_short (hs : 0 < args.schema.recordSize) (hlen : 0 < args.runLength)
    (hfirst : ¬ FirstRefillKeeps args (available fp.contents args)) (fp' : File) :
    (((RunIterator.new 0 fp args).1.hasNext (RunIterator.new 0 fp args).2).2.1.getCurrentRecord
      fp').1 = some (malloc args.heap args.schema.recordSize) := by
  unfold RunIterator.getCurrentRecord
  rw [if_neg (recordsLeft_after_short hs hlen hfirst)]
  exact hasNext_currentRecord _ _

/-- INTERNAL: a new iterator shows the first record it delivers, or NULL.
SRCLINE: library.cc:195-200 -/
theorem getCurrentRecord_new (hs : 0 < args.schema.recordSize) (ha : 0 < refill args)
    (hlen : 0 < args.runLength) :
    ((RunIterator.new 0 fp args).1.getCurrentRecord (RunIterator.new 0 fp args).2).1 =
      (delivered fp.contents args)[0]? := by
  have hnext := (@next_inOrder _ _ _ 0 hs ha hlen (RunIterator.new 0 fp args).2
    (fseek_contents fp _) (by rw [Nat.zero_min]; exact progress_new fp.contents args 0 fp)).1
  rw [← hnext, RunIterator.getCurrentRecord,
    if_pos (show (RunIterator.new 0 fp args).1.recordsLeft =
      ((RunIterator.new 0 fp args).1.runLength : ℤ) from rfl)]

/-- INTERNAL: memory that is not a given record. -/
theorem exists_malloc_ne (r : Record) (size : ℕ) :
    ∃ heap : ℕ → Byte, malloc heap size ≠ r := by
  refine ⟨fun _ => r.headD 0 + 1, fun heq => ?_⟩
  have hhead : (malloc (fun _ => r.headD 0 + 1) size).headD 0 = r.headD 0 + 1 := by
    obtain ⟨m, hm⟩ : ∃ m, max size 1 = m + 1 := ⟨max size 1 - 1, by omega⟩
    rw [malloc, hm, List.range_succ_eq_map]
    rfl
  rw [heq] at hhead
  generalize r.headD 0 = b at hhead
  exact absurd (congrArg Fin.val hhead) (by rw [Fin.val_add]; omega)

end Uninitialised

/-- SOURCE: library.cc:171-223 — **when `has_next` only observes.**  For every file, start and run
length, and with room for a record in the buffer, deleting calls of `has_next` from any
sequence of calls of a new iterator leaves the other replies as they are, if and only if
the first refill is full, or counts as many records as the run has. -/
theorem has_next_observes_iff (fp : File) (args : RunArgs) (hs : 0 < args.schema.recordSize)
    (hlen : 1 ≤ args.runLength) (hbuf : args.schema.recordSize ≤ args.bufSize) :
    HasNextObserves fp args ↔ FirstRefillKeeps args (available fp.contents args) := by
  constructor
  · intro h
    by_contra hfirst
    -- without the `has_next` the iterator is started by `get_current_record`
    obtain ⟨heap, hheap⟩ := exists_malloc_ne
      (strncpy (runRecord fp.contents args 0) args.schema.recordSize) args.schema.recordSize
    have hreplies := Reply.record.inj (List.cons.inj (h heap [none, some .getCurrentRecord])).1
    have hwithout := @getCurrentRecord_new fp { args with heap := heap } hs
      (refill_pos hs hlen hbuf) hlen
    rw [getElem?_delivered] at hwithout
    have hshown := (@getCurrentRecord_after_short fp { args with heap := heap } hs hlen hfirst
      _).symm.trans (hreplies.trans hwithout)
    split_ifs at hshown
    · exact hheap (Option.some.inj hshown)
  · intro hfirst heap marked
    have ha : 0 < refill { args with heap := heap } := refill_pos hs hlen hbuf
    exact @keptReplies_eq fp.contents { args with heap := heap } _ hs ha hlen hfirst marked _ _ _
      (runs_new { args with heap := heap } 0 fp)
      (Or.inl rfl) (fseek_contents fp _) (fseek_contents fp _)

/-- Four letters, read through a buffer of three. -/
theorem has_next_observes_letters : HasNextObserves (File.open_ (letterFile 4)) letterRun :=
  (has_next_observes_iff (File.open_ (letterFile 4)) letterRun (by decide) (by decide)
    (by decide)).mpr (by decide +kernel)

/-- A file that ends after one letter of the run of four: after `has_next` the first
`get_current_record` shows the memory of the record, without it the letter. -/
theorem has_next_changes_reply :
    ¬ HasNextObserves (File.open_ (letterFile 1)) letterRun ∧
    runCalls [.hasNext, .getCurrentRecord]
        (RunIterator.new 0 (File.open_ (letterFile 1)) letterRun).1 (File.open_ (letterFile 1)) =
      [.flag true, .record (some [0, 0])] ∧
    runCalls [.getCurrentRecord]
        (RunIterator.new 0 (File.open_ (letterFile 1)) letterRun).1 (File.open_ (letterFile 1)) =
      [.record (some [97, 10])] := by
  refine ⟨fun h => ?_, by decide +kernel, by decide +kernel⟩
  have hreplies := h (fun _ => 0) [none, some .getCurrentRecord]
  exact absurd hreplies (by decide +kernel)

end ExternalSort.Analysis
