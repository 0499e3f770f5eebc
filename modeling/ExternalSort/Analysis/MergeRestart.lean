import ExternalSort.Analysis.MergeStable

/-!
# A restart loses a record

An iterator that is cut short with more records left than its run has comes past its
run length while it counts down, and the peek at that moment skips the current record.
So the merge can take one record less from it than it delivers.  `Budget` bounds what
the merge can still take from an iterator; the bound never grows, and every record
that is written uses one of it (`budgets_rule`).

An iterator that was used before shows its last record once more (`Reached.delivers_peeks`), so
the merge takes one record more from it than it still delivers.  And a record size that does
not fit the `int` it is kept in leaves no room for a record in the buffer, or copies only the
front of it.

Together with the stable merge this gives the exact condition under which `merge_runs`
keeps its promise, `merge_runs_stable_iff`.
-/

set_option autoImplicit false

namespace ExternalSort.Analysis

open ExternalSort.Lib ExternalSort.Model

/-- INTERNAL: a restart is still to come after `d` deliveries. -/
def restartAhead (contents : List Byte) (args : RunArgs) (d : ℕ) : ℕ :=
  if 2 ^ 31 ≤ refill args ∧ d + args.runLength ≤ total contents args then 1 else 0

/-- INTERNAL: the iterator shows a record, and at most `b` records can still be taken. -/
structure Showing (contents : List Byte) (args : RunArgs) (it : RunIterator) (b : ℕ) : Prop where
  works : Works args
  shows : ∃ d c, 1 ≤ d ∧ d ≤ total contents args ∧ Progress contents args it d ∧
    it.currentRecord = some c ∧ total contents args + 1 ≤ b + d + restartAhead contents args d

/-- INTERNAL: the iterator shows nothing any more. -/
def Ended (contents : List Byte) (args : RunArgs) (it : RunIterator) : Prop :=
  Idle args it ∨ (0 < args.runLength ∧ it.runLength = args.runLength ∧ it.recordsLeft ≤ 0 ∧
    it.currentRecord = none ∧ ∃ d, Progress contents args it d)

/-- INTERNAL: at most `b` records can still be taken from the iterator. -/
inductive Budget (contents : List Byte) (args : RunArgs) (it : RunIterator) (b : ℕ) : Prop
  | fresh (hw : Works args) (h : Progress contents args it 0)
      (hrec : it.recordsLeft = args.runLength)
      (hb : total contents args ≤ b + restartAhead contents args 1)
  | showing (h : Showing contents args it b)
  | ended (h : Ended contents args it)

section Budget

variable {contents : List Byte} {args : RunArgs} {it : RunIterator} {d b : ℕ} {fp : File}

/-- INTERNAL: an iterator that has delivered counts its whole run as left exactly when a
restart is due.
SRCLINE: library.cc:184-188, library.cc:196 -/
theorem recordsLeft_eq_iff (hw : Works args) (h : Progress contents args it d) (hd : 1 ≤ d) :
    it.recordsLeft = args.runLength ↔
      2 ^ 31 ≤ refill args ∧ d + args.runLength = total contents args := by
  have hlen := hw.2
  cases h.mode with
  | inl hm =>
    have hrec := hm.records_left
    have hfits := hm.fits.resolve_right (by omega)
    omega
  | inr hm =>
    have hrec := hm.records_left
    have hlt := hm.left_lt
    have htotal := hm.total_eq
    by_cases hfits : refill args < 2 ^ 31
    · have hle := refill_le hfits
      omega
    · omega

/-- INTERNAL: what `next` leaves of the budget after `d` deliveries.
SRCLINE: library.cc:202-215 -/
theorem budget_next (hs : 0 < args.schema.recordSize) (hw : Works args)
    (hfp : fp.contents = contents) (h : Progress contents args it d)
    (hb : total contents args ≤ b + d + restartAhead contents args (d + 1)) :
    (d < total contents args → Showing contents args (it.next fp).2.1 b ∧
      ((it.next fp).2.1.recordsLeft = args.runLength ↔
        2 ^ 31 ≤ refill args ∧ d + 1 + args.runLength = total contents args)) ∧
    (total contents args ≤ d → (it.next fp).1 = none ∧
      Ended contents args (it.next fp).2.1) := by
  constructor
  · intro hd
    obtain ⟨h1, h2, h3⟩ := next_delivers hs hw.1 hw.2 hfp h hd
    refine ⟨⟨hw, d + 1, _, Nat.succ_pos d, hd, h3, h2.trans h1, by omega⟩, ?_⟩
    exact recordsLeft_eq_iff hw h3 (Nat.succ_pos d)
  · intro hd
    obtain ⟨h1, h2, h3, h4⟩ := next_exhausted hs hw.1 hw.2 hfp h hd
    exact ⟨h1, Or.inr ⟨hw.2, h3.runLength_eq, h4, h2, d, h3⟩⟩

/-- INTERNAL: peeking at an iterator that shows a record: it shows one afterwards, and a
restart that was due has happened.
SRCLINE: library.cc:195-200 -/
theorem showing_getCurrentRecord (hs : 0 < args.schema.recordSize) (hfp : fp.contents = contents)
    (h : Showing contents args it b) :
    Showing contents args (it.getCurrentRecord fp).2.1 b ∧
      (it.getCurrentRecord fp).2.1.recordsLeft ≠ args.runLength ∧ 1 ≤ b := by
  obtain ⟨hw, d, c, hd1, hdt, hp, hcur, hb⟩ := h
  have hlen := hw.2
  have hiff := recordsLeft_eq_iff hw hp hd1
  unfold RunIterator.getCurrentRecord
  by_cases hdue : it.recordsLeft = args.runLength
  · obtain ⟨hbig, hat⟩ := hiff.mp hdue
    have hnow : restartAhead contents args d = 1 := if_pos ⟨hbig, hat.le⟩
    have hthen : restartAhead contents args (d + 1) = 0 := if_neg (by omega)
    rw [if_pos (by rw [hp.runLength_eq]; exact hdue)]
    obtain ⟨hshow, hrec⟩ := (budget_next (b := b) hs hw hfp hp (by omega)).1 (by omega)
    exact ⟨hshow, by rw [ne_eq, hrec]; omega, by omega⟩
  · rw [if_neg (by rw [hp.runLength_eq]; exact hdue)]
    refine ⟨⟨hw, d, c, hd1, hdt, hp, hcur, hb⟩, hdue, ?_⟩
    unfold restartAhead at hb
    split_ifs at hb <;> omega

/-- INTERNAL: `next` on an iterator that shows a record and is not due to restart uses one
of its budget.
SRCLINE: library.cc:202-215 -/
theorem showing_next (hs : 0 < args.schema.recordSize) (hfp : fp.contents = contents)
    (h : Showing contents args it b) (hrec : it.recordsLeft ≠ args.runLength) (hpos : 1 ≤ b) :
    Budget contents args (it.next fp).2.1 (b - 1) := by
  obtain ⟨hw, d, c, hd1, hdt, hp, hcur, hb⟩ := h
  have hnot := mt (recordsLeft_eq_iff hw hp hd1).mpr hrec
  have hsame : restartAhead contents args d = restartAhead contents args (d + 1) := by
    unfold restartAhead
    split_ifs <;> omega
  have hnext := budget_next (b := b - 1) hs hw hfp hp (by omega)
  by_cases hd : d < total contents args
  · exact .showing (hnext.1 hd).1
  · exact .ended (hnext.2 (not_lt.mp hd)).2

/-- INTERNAL: peeking keeps the budget, and a record it returns is shown.
SRCLINE: library.cc:195-200 -/
theorem budget_getCurrentRecord (hs : 0 < args.schema.recordSize) (hfp : fp.contents = contents)
    (h : Budget contents args it b) :
    Budget contents args (it.getCurrentRecord fp).2.1 b ∧
      ((it.getCurrentRecord fp).1.isSome → Showing contents args (it.getCurrentRecord fp).2.1 b) := by
  cases h with
  | fresh hw h hrec hb =>
    have hgo : it.getCurrentRecord fp = it.next fp := by
      unfold RunIterator.getCurrentRecord
      rw [if_pos (by rw [hrec, h.runLength_eq])]
    rw [hgo]
    have hnext := budget_next hs hw hfp h hb
    by_cases hd : 0 < total contents args
    · exact ⟨.showing (hnext.1 hd).1, fun _ => (hnext.1 hd).1⟩
    · obtain ⟨hnone, hended⟩ := hnext.2 (not_lt.mp hd)
      exact ⟨.ended hended, fun hsome => by rw [hnone] at hsome; cases hsome⟩
  | showing h =>
    have hshow := (showing_getCurrentRecord hs hfp h).1
    exact ⟨.showing hshow, fun _ => hshow⟩
  | ended h =>
    unfold RunIterator.getCurrentRecord
    cases h with
    | inl hidle =>
      obtain ⟨hnone, hidle'⟩ := idle_next hidle fp
      rw [if_pos (by rw [hidle.records_left, hidle.runLength_eq])]
      exact ⟨.ended (Or.inl hidle'), fun hsome => by rw [hnone] at hsome; cases hsome⟩
    | inr hend =>
      obtain ⟨hlen, hrun, hrec, hcur, hp⟩ := hend
      rw [if_neg (by omega)]
      refine ⟨.ended (Or.inr ⟨hlen, hrun, hrec, hcur, hp⟩), fun hsome => ?_⟩
      dsimp only at hsome
      rw [hcur] at hsome
      cases hsome

end Budget

/-! ## What the merge can write -/

/-- INTERNAL: the budgets of the iterators of a session. -/
def Budgets (numRuns : ℕ) (contents : ℕ → List Byte) (args : ℕ → RunArgs) (s : Session)
    (B : ℕ → ℕ) : Prop :=
  Each numRuns contents s fun i it => Budget (contents i) (args i) it (B i)

section Count

variable {numRuns : ℕ} {contents : ℕ → List Byte} {args : ℕ → RunArgs}

/-- INTERNAL: a peek changes the iterator peeked at and no other. -/
theorem getCurrentRecord_iters (s : Session) (i j : ℕ) :
    (s.getCurrentRecord i).2.iters j =
      if j = i then ((s.iters i).getCurrentRecord (s.files (s.iters i).fp)).2.1 else s.iters j := by
  simp only [Session.getCurrentRecord, Session.call, Function.update_apply]

/-- INTERNAL: **the budgets pay for the merge**: a peek keeps them, and every record that is taken
uses one of them.
SRCLINE: library.cc:230-250, library.cc:286-289 -/
theorem budgets_rule (hs : ∀ i < numRuns, 0 < (args i).schema.recordSize) :
    MergeRule numRuns (fun B s => Budgets numRuns contents args s B)
      (fun B s m => Showing (contents m) (args m) (s.iters m) (B m))
      (fun B => ∑ i ∈ Finset.range numRuns, B i) where
  peek := by
    intro B s i h hi
    obtain ⟨hbudget, -⟩ := budget_getCurrentRecord (hs i hi) (h i hi).1 (h i hi).2
    exact each_call getCurrentRecord_contents getCurrentRecord_fp h (fun _ _ _ hj => hj) hbudget
  shown := by
    intro B s i h hi hsome
    rw [getCurrentRecord_iters, if_pos rfl]
    exact (budget_getCurrentRecord (hs i hi) (h i hi).1 (h i hi).2).2 hsome
  keep := by
    intro B s i m h hi hm hshown
    rw [getCurrentRecord_iters]
    by_cases hmi : m = i
    · subst hmi
      rw [if_pos rfl]
      exact (showing_getCurrentRecord (hs m hm) (h m hm).1 hshown).1
    · rwa [if_neg hmi]
  take := by
    intro B s m h hm hshown
    obtain ⟨hshow, hrec, hpos⟩ := showing_getCurrentRecord (hs m hm) (h m hm).1 hshown
    obtain ⟨hbudget, -⟩ := budget_getCurrentRecord (hs m hm) (h m hm).1 (h m hm).2
    have hpeek : Budgets numRuns contents args (s.getCurrentRecord m).2 B :=
      each_call getCurrentRecord_contents getCurrentRecord_fp h (fun _ _ _ hj => hj) hbudget
    have hiter := getCurrentRecord_iters s m m
    rw [if_pos rfl] at hiter
    refine ⟨Function.update B m (B m - 1), ?_, ?_⟩
    · apply each_call next_contents next_fp hpeek
      · intro j hjm it hj
        rwa [Function.update_of_ne hjm]
      · rw [Function.update_self]
        exact showing_next (hs m hm) (hpeek m hm).1 (by rwa [hiter]) (by rwa [hiter]) hpos
    · have hsum := Finset.sum_update_of_mem (Finset.mem_range.mpr hm) B (B m - 1)
      have hself := Finset.add_sum_erase (Finset.range numRuns) B (Finset.mem_range.mpr hm)
      rw [Finset.sdiff_singleton_eq_erase] at hsum
      omega

end Count

/-! ## The exact condition -/

/-- An array of iterators over records of one schema: iterator `i` was constructed with the
arguments `args i`, has a buffer, may have been called before, and delivers the sorted sequence
`S i` by itself.
SRCLINE: library.h:106-110 -/
structure RunArray (s : Session) (numRuns : ℕ) (schema : Schema) (args : ℕ → RunArgs)
    (S : ℕ → List Record) : Prop where
  layout : Layout schema
  runs_pos : 1 ≤ numRuns
  size_pos : 0 < schema.recordSize
  schema_eq : ∀ i < numRuns, (args i).schema = schema
  buffer_pos : ∀ i < numRuns, 1 ≤ (args i).bufSize
  reached : ∀ i < numRuns, Reached (s.files (s.iters i).fp).contents (args i) (s.iters i)
  delivers : ∀ i < numRuns, Delivers (s.iters i) (s.files (s.iters i).fp) (S i)
  sorted : ∀ i < numRuns, RecordSorted schema (S i)

/-- Nothing was called on the iterators since they were constructed. -/
def AsConstructed (s : Session) (numRuns : ℕ) (args : ℕ → RunArgs) : Prop :=
  ∀ i < numRuns, ∃ handle fp, s.iters i = (RunIterator.new handle fp (args i)).1

/-- The record size and the requests of all iterators fit an `int`. -/
def RequestsFit (numRuns : ℕ) (schema : Schema) (args : ℕ → RunArgs) : Prop :=
  schema.recordSize < 2 ^ 31 ∧ ∀ i < numRuns, refill (args i) < 2 ^ 31

/-- `merge_runs` returns, having written the stable sort of the runs.
SRCLINE: library.h:106-112 -/
def MergesStably (s : Session) (numRuns : ℕ) (schema : Schema) (S : ℕ → List Record) (out : File)
    (startPos : ℕ) (buf : List Byte) (bufSize : ℕ) : Prop :=
  ∃ fuel result, mergeRuns fuel s numRuns out startPos buf bufSize = some result ∧
    WritesMerge ((pooled numRuns S).mergeSort (recordLe schema)) out startPos buf bufSize result

/-- When the merge works: a peek starts every iterator or finds that it has ended, none comes past
its run length again, and the record size and the capacity of the output buffer fit an `int`.  A
merge of nothing only divides by the record size.
SRCLINE: library.cc:195-200, library.cc:270-271 -/
structure MergeFits (s : Session) (numRuns : ℕ) (schema : Schema) (args : ℕ → RunArgs)
    (S : ℕ → List Record) (bufSize : ℕ) : Prop where
  unstarted : ∀ i < numRuns, Unstarted (s.iters i)
  no_restart : ∀ i < numRuns,
    NeverRestarts (args i) (stream (s.files (s.iters i).fp).contents (args i))
  sizes : (schema.recordSize < 2 ^ 31 ∧ bufSize / schema.recordSize < 2 ^ 31) ∨
    (toInt schema.recordSize ≠ 0 ∧ ∀ i < numRuns, S i = [])

section Exact

variable {s : Session} {numRuns : ℕ} {schema : Schema} {args : ℕ → RunArgs} {S R : ℕ → List Record}
  {out : File} {startPos : ℕ} {buf : List Byte} {bufSize : ℕ}

/-- INTERNAL: the output buffer takes a record exactly when its capacity fits an `int`.
SRCLINE: library.cc:270-271 -/
theorem one_le_maxNumberOfRecordsInBuffer {recordSize : ℕ} (hs : 0 < recordSize)
    (hbuf : recordSize ≤ bufSize) :
    1 ≤ maxNumberOfRecordsInBuffer bufSize recordSize ↔ bufSize / recordSize < 2 ^ 31 := by
  have hpos : 1 ≤ bufSize / recordSize := Nat.div_pos hbuf hs
  rw [maxNumberOfRecordsInBuffer_natCast, doubleToInt]
  split_ifs <;> omega

namespace RunArray

/-- INTERNAL: the records of every iterator have a byte. -/
theorem size_pos_at (h : RunArray s numRuns schema args S) {i : ℕ} (hi : i < numRuns) :
    0 < (args i).schema.recordSize := by
  rw [h.schema_eq i hi]
  exact h.size_pos

/-- INTERNAL: every iterator has a run and room for a record, or it is idle. -/
theorem starved_or_works (h : RunArray s numRuns schema args S) {i : ℕ}
    (hi : i < numRuns) : Starved (args i) ∨ Works (args i) := by
  have hbuf := h.buffer_pos i hi
  unfold Works Starved
  omega

/-- INTERNAL: the record size the merge works with.
SRCLINE: library.cc:225-227, library.cc:270 -/
theorem getRecordSize (h : RunArray s numRuns schema args S) :
    (s.iters 0).getRecordSize = toInt schema.recordSize := by
  have hschema : (s.iters 0).schema = (args 0).schema := by
    rcases (h.reached 0 h.runs_pos).state (h.size_pos_at h.runs_pos)
      (h.starved_or_works h.runs_pos) with hidle | ⟨-, d, -, hp, -⟩
    · exact hidle.schema_eq
    · exact hp.schema_eq
  rw [RunIterator.getRecordSize, hschema, h.schema_eq 0 h.runs_pos]

/-- INTERNAL: the record size the merge works with, if it fits an `int`. -/
theorem getRecordSize_of_lt (h : RunArray s numRuns schema args S)
    (hsmall : schema.recordSize < 2 ^ 31) : (s.iters 0).getRecordSize = schema.recordSize := by
  rw [h.getRecordSize, toInt_of_lt (by omega) (by omega)]

/-- INTERNAL: **what the iterators show**, if none restarts: what they deliver, with a record more
in front if a peek finds the iterator started.
SRCLINE: library.cc:195-200 -/
theorem shows (h : RunArray s numRuns schema args S)
    (hno : ∀ i < numRuns, NeverRestarts (args i) (stream (s.files (s.iters i).fp).contents (args i))) :
    ∃ R, Holds numRuns (fun i => (s.files (s.iters i).fp).contents) args s R ∧
      ∀ i < numRuns, (Unstarted (s.iters i) → R i = S i) ∧
        (¬ Unstarted (s.iters i) → (R i).length = (S i).length + 1) ∧
        ∀ r ∈ S i, strncpy r schema.recordSize = r := by
  have hall : ∀ i, ∃ R, i < numRuns →
      Peeks (s.files (s.iters i).fp).contents (args i) (s.iters i) R ∧
      (Unstarted (s.iters i) → R = S i) ∧
      (¬ Unstarted (s.iters i) → R.length = (S i).length + 1) ∧
      ∀ r ∈ S i, strncpy r schema.recordSize = r := by
    intro i
    by_cases hi : i < numRuns
    · obtain ⟨S', R, hS', hR, hsame, hmore, hcopies⟩ := (h.reached i hi).delivers_peeks
        (h.size_pos_at hi) (h.starved_or_works hi) (hno i hi) rfl
      rw [← (h.delivers i hi).unique hS', h.schema_eq i hi] at hcopies
      rw [← (h.delivers i hi).unique hS'] at hsame hmore
      exact ⟨R, fun _ => ⟨hR, hsame, hmore, hcopies⟩⟩
    · exact ⟨[], fun hi' => absurd hi' hi⟩
  choose R hR using hall
  exact ⟨R, fun i hi => ⟨rfl, (hR i hi).1⟩, fun i hi => (hR i hi).2⟩

/-- INTERNAL: the iterators are over one schema and do not restart. -/
theorem uniform (h : RunArray s numRuns schema args S)
    (hno : ∀ i < numRuns, NeverRestarts (args i) (stream (s.files (s.iters i).fp).contents (args i))) :
    Uniform numRuns schema (fun i => (s.files (s.iters i).fp).contents) args :=
  ⟨h.size_pos, h.schema_eq, hno⟩

/-- INTERNAL: iterators that a peek starts show what they deliver. -/
theorem holds (h : RunArray s numRuns schema args S)
    (hno : ∀ i < numRuns, NeverRestarts (args i) (stream (s.files (s.iters i).fp).contents (args i)))
    (hun : ∀ i < numRuns, Unstarted (s.iters i)) :
    Holds numRuns (fun i => (s.files (s.iters i).fp).contents) args s S ∧
      Copies numRuns schema.recordSize S := by
  obtain ⟨R, hholds, hR⟩ := h.shows hno
  constructor
  · intro i hi
    refine ⟨rfl, ?_⟩
    dsimp only
    rw [← (hR i hi).1 (hun i hi)]
    exact (hholds i hi).2
  · intro r hr
    obtain ⟨i, hi, hr⟩ := mem_pooled.mp hr
    exact (hR i hi).2.2 r hr

/-- INTERNAL: **the merge works** under the condition.
SRCLINE: library.cc:264-297 -/
theorem mergesStably (h : RunArray s numRuns schema args S)
    (hfits : MergeFits s numRuns schema args S bufSize) (out : File) (startPos : ℕ)
    (hroom : schema.recordSize ≤ bufSize) (hbuf : bufSize ≤ buf.length) :
    MergesStably s numRuns schema S out startPos buf bufSize := by
  have hu := h.uniform hfits.no_restart
  obtain ⟨hholds, hcopies⟩ := h.holds hfits.no_restart hfits.unstarted
  rcases hfits.sizes with ⟨hsmall, hmax⟩ | ⟨hnonzero, hnone⟩
  · have hinside := h.layout.inside hsmall
    obtain ⟨result, hrun, written, R, hdraws, hnone, -, hwrites⟩ :=
      mergeRuns_draws hu hinside hholds (h.getRecordSize_of_lt hsmall) out startPos hbuf
        (Or.inl ((one_le_maxNumberOfRecordsInBuffer h.size_pos hroom).mpr hmax))
        (Nat.lt_succ_self _)
    have hsorted : SortedStreams (recordLe schema) numRuns S :=
      fun i hi => (hinside.recordSorted_iff _).mp (h.sorted i hi)
    have hall := hdraws.mergeSort_eq (recordLe_trans schema) (recordLe_total schema) hsorted
    rw [hnone, List.mergeSort_nil, List.append_nil] at hall
    rw [hcopies.copied_eq hdraws, ← hall] at hwrites
    exact ⟨_, result, hrun, hwrites⟩
  · have hnil := pooled_eq_nil.mpr hnone
    obtain ⟨result, hrun, hwrites⟩ := mergeRuns_nothing hu hholds
      (by rwa [h.getRecordSize]) out startPos buf bufSize hnil
    refine ⟨1, result, hrun, ?_⟩
    rw [hnil, List.mergeSort_nil]
    exact hwrites

/-- INTERNAL: the bytes of the stable sort. -/
theorem length_sorted (hcopies : Copies numRuns schema.recordSize S) :
    ((pooled numRuns S).mergeSort (recordLe schema)).flatten.length =
      schema.recordSize * ∑ i ∈ Finset.range numRuns, (S i).length := by
  have hsize : ∀ r ∈ (pooled numRuns S).mergeSort (recordLe schema),
      r.length = schema.recordSize := by
    intro r hr
    rw [← hcopies r (List.mem_mergeSort.mp hr)]
    exact length_strncpy _ _
  rw [length_flatten_of_size hsize, List.length_mergeSort, length_pooled]

/-! ### Iterators that were used -/

/-- INTERNAL: **a merge that finds an iterator started** writes a record too many, or never returns.
SRCLINE: library.cc:195-200 -/
theorem unstarted_of_mergesStably (h : RunArray s numRuns schema args S)
    (hfit : RequestsFit numRuns schema args) (hbuf : bufSize ≤ buf.length)
    (hm : MergesStably s numRuns schema S out startPos buf bufSize) :
    ∀ i < numRuns, Unstarted (s.iters i) := by
  have hno : ∀ i < numRuns,
      NeverRestarts (args i) (stream (s.files (s.iters i).fp).contents (args i)) :=
    fun i hi hbig => absurd hbig (not_le.mpr (hfit.2 i hi))
  obtain ⟨R, hholds, hR⟩ := h.shows hno
  by_contra hstarted
  push Not at hstarted
  obtain ⟨i, hi, hstarted⟩ := hstarted
  have hcopies : Copies numRuns schema.recordSize S := by
    intro r hr
    obtain ⟨j, hj, hr⟩ := mem_pooled.mp hr
    exact (hR j hj).2.2 r hr
  have hmore : ∑ j ∈ Finset.range numRuns, (S j).length <
      ∑ j ∈ Finset.range numRuns, (R j).length := by
    apply Finset.sum_lt_sum
    · intro j hj
      obtain ⟨hsame, hlong, -⟩ := hR j (Finset.mem_range.mp hj)
      by_cases hun : Unstarted (s.iters j)
      · rw [hsame hun]
      · rw [hlong hun]
        exact Nat.le_succ _
    · refine ⟨i, Finset.mem_range.mpr hi, ?_⟩
      rw [(hR i hi).2.1 hstarted]
      exact Nat.lt_succ_self _
  have hu := h.uniform hno
  have hsize := h.getRecordSize_of_lt hfit.1
  obtain ⟨fuel, result, hrun, hwrites⟩ := hm
  by_cases hmax : 1 ≤ maxNumberOfRecordsInBuffer bufSize schema.recordSize
  · obtain ⟨result', hrun', written, R', hdraws, hnone, -, hwrites'⟩ :=
      mergeRuns_draws hu (h.layout.inside hfit.1) hholds hsize out startPos hbuf (Or.inl hmax)
        (Nat.lt_succ_self _)
    obtain rfl := mergeRuns_unique hrun hrun'
    have hpos := hwrites.out_pos.symm.trans hwrites'.out_pos
    have hcount := hdraws.perm.length_eq
    rw [hnone, List.append_nil, length_pooled] at hcount
    rw [length_sorted hcopies, length_copied_flatten, hcount] at hpos
    have hmul := Nat.mul_lt_mul_of_pos_left hmore h.size_pos
    omega
  · have hne : pooled numRuns R ≠ [] := by
      intro hnil
      have hlen := length_pooled numRuns R
      rw [hnil, List.length_nil] at hlen
      omega
    rw [mergeRuns_diverges hu hholds out startPos buf (by rw [hsize]; omega) hne fuel] at hrun
    cases hrun

/-! ### Iterators as constructed -/

/-- INTERNAL: iterators as constructed deliver what they show at first. -/
theorem eq_stream (h : RunArray s numRuns schema args S) (hnew : AsConstructed s numRuns args)
    {i : ℕ} (hi : i < numRuns) : S i = stream (s.files (s.iters i).fp).contents (args i) := by
  obtain ⟨handle, fp, hit⟩ := hnew i hi
  have hdelivers : Delivers (s.iters i) (s.files (s.iters i).fp)
      (stream (s.files (s.iters i).fp).contents (args i)) :=
    Eq.subst (motive := fun it => Delivers it _ _) hit.symm
      (delivers_stream rfl (h.size_pos_at hi) (h.starved_or_works hi) handle fp)
  exact (h.delivers i hi).unique hdelivers

/-- INTERNAL: what iterators deliver that are as constructed was copied. -/
theorem copies (h : RunArray s numRuns schema args S) (hnew : AsConstructed s numRuns args) :
    Copies numRuns schema.recordSize S := by
  intro r hr
  obtain ⟨i, hi, hr⟩ := mem_pooled.mp hr
  rw [h.eq_stream hnew hi] at hr
  rw [← h.schema_eq i hi]
  exact strncpy_of_mem_stream hr

/-- INTERNAL: the budgets iterators start with: what they deliver, less the record a restart
loses. -/
theorem budgets (h : RunArray s numRuns schema args S) (hnew : AsConstructed s numRuns args) :
    Budgets numRuns (fun i => (s.files (s.iters i).fp).contents) args s fun i =>
      (S i).length - restartAhead (s.files (s.iters i).fp).contents (args i) 1 := by
  intro i hi
  obtain ⟨handle, fp, hit⟩ := hnew i hi
  refine ⟨rfl, ?_⟩
  cases h.starved_or_works hi with
  | inl hstarved =>
    apply Budget.ended
    rw [hit]
    exact Or.inl (idle_new hstarved handle fp)
  | inr hw =>
    apply Budget.fresh hw (hit ▸ progress_new _ _ handle fp) (by rw [hit]; rfl)
    dsimp only
    rw [h.eq_stream hnew hi, stream_of_works _ hw, length_delivered]
    omega

/-- INTERNAL: an iterator that restarts has a restart ahead. -/
theorem restartAhead_eq (h : RunArray s numRuns schema args S) {i : ℕ} (hi : i < numRuns)
    (hrestart : ¬ NeverRestarts (args i) (stream (s.files (s.iters i).fp).contents (args i))) :
    restartAhead (s.files (s.iters i).fp).contents (args i) 1 = 1 ∧
      1 ≤ (stream (s.files (s.iters i).fp).contents (args i)).length := by
  unfold NeverRestarts at hrestart
  push Not at hrestart
  obtain ⟨hbig, hlong⟩ := hrestart
  cases h.starved_or_works hi with
  | inl hstarved =>
    rw [stream_of_starved _ hstarved, List.length_nil] at hlong
    exact absurd hlong (Nat.not_lt_zero _)
  | inr hw =>
    rw [stream_of_works _ hw, length_delivered] at hlong ⊢
    exact ⟨if_pos ⟨hbig, by omega⟩, by omega⟩

/-- INTERNAL: a finished merge of iterators as constructed has written no more bytes than the
budgets allow, each record as wide as the `int` says. -/
theorem size_mul_le_of_mergesStably (h : RunArray s numRuns schema args S)
    (hnew : AsConstructed s numRuns args)
    (hm : MergesStably s numRuns schema S out startPos buf bufSize) :
    schema.recordSize * ∑ i ∈ Finset.range numRuns, (S i).length ≤
      (toInt schema.recordSize).toNat * ∑ i ∈ Finset.range numRuns,
        ((S i).length - restartAhead (s.files (s.iters i).fp).contents (args i) 1) := by
  obtain ⟨fuel, result, hrun, hwrites⟩ := hm
  obtain ⟨B, -, -, -, hle⟩ :=
    (budgets_rule fun j hj => h.size_pos_at hj).mergeRuns (h.budgets hnew) hrun
  rw [hwrites.out_pos, length_sorted (h.copies hnew), h.getRecordSize] at hle
  dsimp only at hle
  omega

/-- INTERNAL: **a merge with an iterator that restarts** loses a record.
SRCLINE: library.cc:195-200, library.cc:264-297 -/
theorem no_restart_of_mergesStably (h : RunArray s numRuns schema args S)
    (hnew : AsConstructed s numRuns args)
    (hm : MergesStably s numRuns schema S out startPos buf bufSize) :
    ∀ i < numRuns, NeverRestarts (args i) (stream (s.files (s.iters i).fp).contents (args i)) := by
  intro i hi
  by_contra hrestart
  obtain ⟨hone, hpos⟩ := h.restartAhead_eq hi hrestart
  rw [← h.eq_stream hnew hi] at hpos
  have hlt : ∑ j ∈ Finset.range numRuns,
      ((S j).length - restartAhead (s.files (s.iters j).fp).contents (args j) 1) <
        ∑ j ∈ Finset.range numRuns, (S j).length :=
    Finset.sum_lt_sum (fun j _ => Nat.sub_le _ _) ⟨i, Finset.mem_range.mpr hi, by omega⟩
  have hle := h.size_mul_le_of_mergesStably hnew hm
  have hwidth := Nat.mul_le_mul_right (∑ j ∈ Finset.range numRuns,
    ((S j).length - restartAhead (s.files (s.iters j).fp).contents (args j) 1))
    (toNat_toInt_le schema.recordSize)
  exact absurd (hle.trans hwidth) (not_le.mpr (Nat.mul_lt_mul_of_pos_left hlt h.size_pos))

/-- INTERNAL: **a record size that does not fit an `int`** is a smaller one there: what is written
is shorter than the records.
SRCLINE: library.cc:225-227, library.cc:270 -/
theorem eq_nil_of_mergesStably (h : RunArray s numRuns schema args S)
    (hnew : AsConstructed s numRuns args) (hbig : 2 ^ 31 ≤ schema.recordSize)
    (hm : MergesStably s numRuns schema S out startPos buf bufSize) : ∀ i < numRuns, S i = [] := by
  have hle := h.size_mul_le_of_mergesStably hnew hm
  have hbudget : ∑ j ∈ Finset.range numRuns,
      ((S j).length - restartAhead (s.files (s.iters j).fp).contents (args j) 1) ≤
        ∑ j ∈ Finset.range numRuns, (S j).length :=
    Finset.sum_le_sum fun j _ => Nat.sub_le _ _
  have hall := hle.trans (Nat.mul_le_mul_left (toInt schema.recordSize).toNat hbudget)
  by_contra hsome
  have hpos : 0 < ∑ j ∈ Finset.range numRuns, (S j).length := by
    rw [← length_pooled, List.length_pos_iff, ne_eq, pooled_eq_nil]
    exact hsome
  exact absurd hall (not_le.mpr (Nat.mul_lt_mul_of_pos_right (toNat_toInt_lt hbig) hpos))

/-- INTERNAL: **the condition is necessary**, for iterators as constructed and for any if the
requests fit an `int`. -/
theorem mergeFits (h : RunArray s numRuns schema args S)
    (hcase : AsConstructed s numRuns args ∨ RequestsFit numRuns schema args)
    (hroom : schema.recordSize ≤ bufSize) (hbuf : bufSize ≤ buf.length)
    (hm : MergesStably s numRuns schema S out startPos buf bufSize) :
    MergeFits s numRuns schema args S bufSize := by
  have hno : ∀ i < numRuns,
      NeverRestarts (args i) (stream (s.files (s.iters i).fp).contents (args i)) := by
    rcases hcase with hnew | hfit
    · exact h.no_restart_of_mergesStably hnew hm
    · exact fun i hi hbig => absurd hbig (not_le.mpr (hfit.2 i hi))
  have hun : ∀ i < numRuns, Unstarted (s.iters i) := by
    rcases hcase with hnew | hfit
    · intro i hi
      obtain ⟨handle, fp, hit⟩ := hnew i hi
      rw [hit]
      exact Or.inl rfl
    · exact h.unstarted_of_mergesStably hfit hbuf hm
  refine ⟨hun, hno, ?_⟩
  by_cases hsmall : schema.recordSize < 2 ^ 31
  · -- the capacity must fit, or there is nothing to merge
    have hsize := h.getRecordSize_of_lt hsmall
    by_contra hneither
    rw [not_or, not_and, ← one_le_maxNumberOfRecordsInBuffer h.size_pos hroom, not_and,
      ← pooled_eq_nil, ← h.getRecordSize, hsize] at hneither
    have hmax := hneither.1 hsmall
    have hne := hneither.2 (by have := h.size_pos; omega)
    obtain ⟨fuel, result, hrun, -⟩ := hm
    rw [mergeRuns_diverges (h.uniform hno) (h.holds hno hun).1 out startPos buf
      (by rw [hsize]; omega) hne fuel] at hrun
    cases hrun
  · have hnew := hcase.resolve_right fun hfit => hsmall hfit.1
    refine Or.inr ⟨?_, h.eq_nil_of_mergesStably hnew (not_lt.mp hsmall) hm⟩
    intro hzero
    obtain ⟨fuel, result, hrun, -⟩ := hm
    unfold mergeRuns at hrun
    dsimp only at hrun
    rw [h.getRecordSize, if_pos hzero] at hrun
    cases hrun

end RunArray

end Exact

/-- Two runs of three letters each, on one open file of six, each read through a buffer
of two. -/
def letterArgs (i : ℕ) : RunArgs where
  heap := fun _ => 0
  startPos := 6 * i
  runLength := 3
  bufSize := 4
  schema := letterSchema

/-- The session of the two runs. -/
def letterSession : Session where
  files := fun _ => File.open_ (letterFile 6)
  iters := fun i => (RunIterator.new 0 (File.open_ (letterFile 6)) (letterArgs i)).1

/-- The letters the two runs deliver. -/
def letterStream (i : ℕ) : List Record := stream (letterFile 6) (letterArgs i)

/-- INTERNAL: a refill of the two runs asks for two records. -/
theorem refill_letterArgs (i : ℕ) : refill (letterArgs i) = 2 := by
  simp [refill, refillCount, letterArgs, letterSchema, toUnsignedInt]

/-- INTERNAL: the two runs are sorted, and their iterators as constructed. -/
theorem letterSession_array : RunArray letterSession 2 letterSchema letterArgs letterStream where
  layout := letterSchema_layout
  runs_pos := by decide
  size_pos := by decide
  schema_eq := fun _ _ => rfl
  buffer_pos := fun _ _ => show 1 ≤ 4 by decide
  reached := fun i _ => .new 0 (File.open_ (letterFile 6))
  delivers := fun i _ => delivers_stream rfl (show 0 < 2 by decide)
    (Or.inr ⟨by rw [refill_letterArgs]; decide, show 0 < 3 by decide⟩) 0 (File.open_ (letterFile 6))
  sorted := by decide +kernel

/-- INTERNAL: the two runs merge through a buffer whose capacity fits an `int`. -/
theorem letterSession_fits {bufSize : ℕ} (h : bufSize / 2 < 2 ^ 31) :
    MergeFits letterSession 2 letterSchema letterArgs letterStream bufSize where
  unstarted := fun _ _ => Or.inl rfl
  no_restart := fun i _ hbig => absurd hbig (by rw [refill_letterArgs]; decide)
  sizes := Or.inl ⟨by decide, h⟩

end ExternalSort.Analysis
