import ExternalSort.Analysis.MsortPrepare
import ExternalSort.Analysis.PassSizes

/-!
# What the memory check of the merge sort admits

`main` compares one record with the whole memory, but every iterator and the output
buffer get only a share of it.  With a share of at least a record every pass delivers the runs
that it has iterators for (`buffersWork_of_room`), on any file.  With less, an iterator over a
run of records says that it has none, and the merge returns at once.

A pass has iterators for all runs of the file only if the number of runs is not rounded down.
-/

set_option autoImplicit false

namespace ExternalSort.Analysis

open ExternalSort.Lib ExternalSort.Model

/-- The number of records an iterator has handed out: those it has read, less those still
in its buffer.
SRCLINE: library.cc:190, library.cc:211 -/
def deliveredSoFar (args : RunArgs) (it : RunIterator) : ℤ :=
  (it.filePos - args.startPos) / args.schema.recordSize - it.leftInBuf

/-- The buffers of a pass work on a file of `n` records: an iterator over a run with a record has a
next record before its first `next`, and when the merge of at least one iterator returns, every
run of the `n` records has an iterator that has handed it out.
SRCLINE: library.cc:171-223, library.cc:264-297 -/
structure BuffersWork (job : Job) (n j runLength numRuns : ℕ) (contents buf : List Byte) :
    Prop where
  has_next : ∀ i < numRuns, 1 ≤ available contents (job.runArgs j runLength i) →
    (((job.session j runLength numRuns contents).iters i).hasNext
      ((job.session j runLength numRuns contents).files 0)).1 = true
  delivered : 0 < numRuns → ∀ fuel result,
    mergeRuns fuel (job.session j runLength numRuns contents) numRuns (File.open_ []) 0 buf
      job.bufSize = some result →
    ∀ i, i * runLength < n → i < numRuns ∧
      ((min runLength (available contents (job.runArgs j runLength i)) : ℕ) : ℤ) ≤
        deliveredSoFar (job.runArgs j runLength i) (result.session.iters i)

/-- The command line with other file names. -/
def withFiles (args : MsortArgs) (inputFile outputFile : String) : MsortArgs :=
  { args with inputFile := inputFile, outputFile := outputFile }

/-- The memory check admits the capacity only if it works: whatever the files are called,
whatever else there is and whatever memory holds, the buffers of every pass the loop
comes to work.
SRCLINE: msort.cc:42-47, msort.cc:65-99 -/
def MemoryCheckAdmits (args : MsortArgs) (schema : Schema) (capacity : ℕ)
    (records : List Record) : Prop :=
  ∀ (inputFile outputFile : String) (fs fs₀ : FileSystem) (env : Env) (fuel : ℕ) (job : Job),
    fs inputFile = some records.flatten →
    prepare fuel env (withFiles args inputFile outputFile) schema capacity fs = some (job, fs₀) →
    ∀ j c fs' buf,
      Reaches job fuel ⟨(capacity / schema.recordSize : ℕ), false⟩ fs₀ (stackBuffer env capacity)
        j c fs' buf →
      c.runLength < job.numRecords →
      BuffersWork job records.length j c.runLength.toNat (numRuns job.numRecords c.runLength).toNat
        (job.runsFile c fs') buf

section Room

variable {job : Job} {n j runLength numRuns : ℕ} {contents buf : List Byte}

/-- INTERNAL: what an iterator has handed out is what it has delivered. -/
theorem Progress.deliveredSoFar_eq {args : RunArgs} {it : RunIterator} {d : ℕ}
    (hs : 0 < args.schema.recordSize) (h : Progress contents args it d) :
    deliveredSoFar args it = d := by
  have hpos : it.filePos = args.startPos + args.schema.recordSize * ((d : ℤ) + it.leftInBuf) := by
    cases h.mode with
    | inl hm => exact hm.file_pos
    | inr hm => exact hm.file_pos
  have hsize : (args.schema.recordSize : ℤ) ≠ 0 := by omega
  rw [deliveredSoFar, hpos, add_sub_cancel_left, Int.mul_ediv_cancel_left _ hsize]
  omega

/-- INTERNAL: an iterator delivers its run, or all that there is. -/
theorem min_le_total (contents : List Byte) {args : RunArgs} (h : refill args < 2 ^ 31) :
    min args.runLength (available contents args) ≤ total contents args := by
  unfold total deliverCount
  rw [if_pos h]
  split_ifs <;> omega

/-- INTERNAL: an iterator that shows nothing any more has handed out its run. -/
theorem min_le_deliveredSoFar {args : RunArgs} {it : RunIterator}
    (hs : 0 < args.schema.recordSize) (hw : Works args) (hsmall : refill args < 2 ^ 31)
    {R : List Record} (h : Peeks contents args it R) (hR : R = []) :
    ((min args.runLength (available contents args) : ℕ) : ℤ) ≤ deliveredSoFar args it := by
  have hmin := min_le_total contents hsmall
  cases h with
  | idle h =>
    have hlen := hw.2
    have hrefill := hw.1
    have hcause := h.cause
    omega
  | fresh _ h _ =>
    have hzero := congrArg List.length hR
    rw [length_delivered, List.length_nil] at hzero
    rw [h.deliveredSoFar_eq hs]
    omega
  | shows => cases hR
  | done _ h _ _ hd =>
    rw [h.deliveredSoFar_eq hs]
    omega

/-- INTERNAL: **with room for a record the buffers work**, on any file, if there is an iterator for
every run.
SRCLINE: library.cc:171-223, library.cc:264-297 -/
theorem buffersWork_of_room (hbuf : job.bufSize < 2 ^ 31) (hs : 0 < job.schema.recordSize)
    (hroom : job.schema.recordSize ≤ job.bufSize) (hrun : 1 ≤ runLength)
    (hcover : n ≤ numRuns * runLength) : BuffersWork job n j runLength numRuns contents buf := by
  have hw : ∀ i, Works (job.runArgs j runLength i) := works_runArgs hbuf hs hroom hrun
  have hsmall : ∀ i, refill (job.runArgs j runLength i) < 2 ^ 31 := by
    intro i
    have hle : job.bufSize / job.schema.recordSize ≤ job.bufSize := Nat.div_le_self _ _
    rw [refill_runArgs hbuf]
    omega
  constructor
  · intro i hi havail
    rw [session_iters job j runLength contents hi (File.open_ contents)]
    have hmin := min_le_total contents (hsmall i)
    have hnext := (progress_hasNext hs (hw i).1 (hw i).2 (session_contents job j runLength numRuns
      contents 0) (progress_new contents (job.runArgs j runLength i) 0 (File.open_ contents))).1
    rw [hnext, decide_eq_true_iff]
    have hlong : 1 ≤ (job.runArgs j runLength i).runLength := hrun
    omega
  · intro _ fuel result hresult i hi
    have hlt : i < numRuns := lt_of_mul_lt_mul_right (hi.trans_le hcover) (Nat.zero_le _)
    obtain ⟨R, hheld, hnone⟩ := mergeRuns_exhausts (uniform_session hbuf hs)
      (holds_session fun i _ => Or.inr (hw i)) hresult
    exact ⟨hlt, min_le_deliveredSoFar hs (hw i) (hsmall i) (hheld i hlt).2
      (pooled_eq_nil.mp hnone i hlt)⟩

end Room

section Reached

variable {job : Job} {fuel j : ℕ} {c₀ c : Control} {fs₀ fs fs' : FileSystem} {buf₀ buf buf' : List Byte}

/-- INTERNAL: a loop that makes no pass comes to no other state. -/
theorem reaches_eq_start (h : Reaches job fuel c₀ fs₀ buf₀ j c fs buf)
    (hnone : job.numRecords ≤ c₀.runLength) : c = c₀ := by
  induction h with
  | start => rfl
  | pass _ hlt _ ih =>
    subst ih
    omega

/-- INTERNAL: a first pass without an iterator is the last state the loop comes to. -/
theorem reaches_eq_start_of_numRuns (h : Reaches job fuel c₀ fs₀ buf₀ j c fs buf)
    (hnone : numRuns job.numRecords c₀.runLength ≤ 0) : c = c₀ := by
  induction h with
  | start => rfl
  | pass _ hlt hpass ih =>
    subst ih
    have := (runPass_eq_some hpass).1
    omega

/-- INTERNAL: **every pass is come to**, if the merges return and both scratch files are there.
SRCLINE: msort.cc:71-99 -/
theorem Ready.exists_reaches (hready : Ready job) (hk : 2 ≤ job.k) {L : ℤ} (hL : 1 ≤ L)
    (hlen : job.bufSize ≤ buf₀.length) (hruns : 0 < numRuns job.numRecords L)
    (hthere : ∀ flip, fs₀ (scratch flip) ≠ none) (j : ℕ) (hj : L * job.k ^ j < job.numRecords) :
    ∃ fuel c fs buf, Reaches job fuel ⟨L, false⟩ fs₀ buf₀ j c fs buf ∧
      job.bufSize ≤ buf.length ∧ ∀ flip, fs (scratch flip) ≠ none := by
  induction j with
  | zero => exact ⟨0, _, _, _, .start, hlen, hthere⟩
  | succ j ih =>
    have hpos := mul_pow_pos hk hL j
    have hlt : L * job.k ^ j < job.numRecords := by
      rw [pow_succ, ← mul_assoc] at hj
      nlinarith
    have hle : L ≤ L * job.k ^ j := le_mul_of_one_le_right (by omega) (one_le_pow₀ (by omega))
    obtain ⟨fuel, c, fs, buf, hreach, hbuf, hfiles⟩ := ih hlt
    have hR := hreach.runLength_eq
    rw [← hR] at hlt hpos hle
    obtain ⟨fuel', fs', buf', hrun⟩ := hready.runPass_returns j hpos
      (numRuns_antitone (by omega) hle (by omega) hruns).1 (hfiles c.flip) hbuf
    obtain ⟨written, rest, -, -, hfs', hsame⟩ := hready.runPass_draws hpos hbuf hrun
    refine ⟨max fuel fuel', _, fs', buf', (hreach.mono (le_max_left _ _)).pass hlt
      (runPass_mono (le_max_right _ _) hrun), by omega, fun flip => ?_⟩
    rw [hfs']
    exact update_some_ne_none (hfiles flip)

end Reached

/-! ## The exact condition -/

/-- Every pass has iterators for all `n` records; `numRecords` is what `main` takes for their
number.
SRCLINE: msort.cc:74, msort.cc:87-89 -/
def PassesCover (k numRecords : ℤ) (n L : ℕ) : Prop :=
  ∀ j : ℕ, (L : ℤ) * k ^ j < numRecords → (n : ℤ) ≤ numRuns numRecords (L * k ^ j) * (L * k ^ j)

/-- When the buffers work: there is no pass, or the first one has no iterator, or the share of a
buffer has room for a record and all passes have iterators for all records.
SRCLINE: msort.cc:65-99 -/
def SharesWork (args : MsortArgs) (schema : Schema) (capacity : ℕ) (records : List Record) : Prop :=
  let numRecords := numberOfRecords (File.open_ records.flatten) schema.recordSize
  let L := capacity / schema.recordSize
  numRecords ≤ L ∨ numRuns numRecords L ≤ 0 ∨
    ((args.k.toInt + 1) * schema.recordSize ≤ capacity ∧
      PassesCover args.k.toInt numRecords records.length L)

section Exact

variable {args : MsortArgs} {schema : Schema} {records : List Record} {capacity : ℕ}

/-- INTERNAL: the share of a buffer has room for a record.
SRCLINE: msort.cc:69 -/
theorem share_room_iff (hk : 2 ≤ args.k.toInt) (capacity size : ℕ) :
    (args.k.toInt + 1) * size ≤ capacity ↔ size ≤ capacity / (args.k.toInt.toNat + 1) := by
  have hcast : args.k.toInt + 1 = ((args.k.toInt.toNat + 1 : ℕ) : ℤ) := by omega
  rw [Nat.le_div_iff_mul_le (Nat.succ_pos _), hcast, mul_comm]
  exact_mod_cast Iff.rfl

/-- INTERNAL: **the buffers of every pass work** under the condition.
SRCLINE: msort.cc:65-99 -/
theorem SharesWork.memoryCheckAdmits (hs : 0 < schema.recordSize)
    (hcap : schema.recordSize ≤ capacity) (hcap' : capacity < 2 ^ 31) (hk : 2 ≤ args.k.toInt)
    (h : SharesWork args schema capacity records) :
    MemoryCheckAdmits args schema capacity records := by
  intro inputFile outputFile fs fs₀ env fuel job hin hprep j c fs' buf hreach hlt
  obtain ⟨-, hdiveq⟩ := share_eq hk args.k.toInt_lt hcap'
  obtain ⟨-, hschema, -, hjk, hbuf, hnum⟩ := prepare_job hin hprep
  have hbuf' : job.bufSize = capacity / (args.k.toInt.toNat + 1) := hbuf.trans hdiveq
  -- an input called `tmp_file` is empty by now, and there is no pass to make
  have hother : inputFile ≠ "tmp_file" := by
    intro hname
    rw [show (withFiles args inputFile outputFile).inputFile = "tmp_file" from hname, if_pos rfl,
      numberOfRecords_flatten hs (List.forall_mem_nil _) (by simp) rfl] at hnum
    have hle : job.numRecords ≤ (capacity / schema.recordSize : ℕ) := by
      rw [hnum]
      exact Int.natCast_nonneg _
    rw [reaches_eq_start hreach hle] at hlt
    exact absurd hlt (not_lt.mpr hle)
  rw [if_neg (show (withFiles args inputFile outputFile).inputFile ≠ "tmp_file" from hother)]
    at hnum
  rcases h with hfew | hno | ⟨hroom, hcover⟩
  · rw [← hnum] at hfew
    rw [reaches_eq_start hreach hfew] at hlt
    exact absurd hlt (not_lt.mpr hfew)
  · rw [← hnum] at hno
    rw [reaches_eq_start_of_numRuns hreach hno]
    dsimp only
    rw [Int.toNat_of_nonpos hno]
    exact ⟨fun i hi => absurd hi (Nat.not_lt_zero i), fun hpos => absurd hpos (Nat.lt_irrefl 0)⟩
  · have hR := hreach.runLength_eq
    have hrun : (1 : ℤ) ≤ (capacity / schema.recordSize : ℕ) := by
      exact_mod_cast Nat.div_pos hcap hs
    have hkeq : (withFiles args inputFile outputFile).k.toInt = args.k.toInt := rfl
    rw [hjk, hkeq] at hR
    have hpos := mul_pow_pos hk hrun j
    rw [← hR] at hpos
    apply buffersWork_of_room
    · rw [hbuf']
      exact (Nat.div_le_self _ _).trans_lt hcap'
    · rw [hschema]
      exact hs
    · rw [hschema, hbuf']
      exact (share_room_iff hk _ _).mp hroom
    · omega
    · rw [← hnum] at hcover
      have hall := hcover j (by rw [← hR]; exact hlt)
      rw [← hR] at hall
      obtain ⟨R, hRnat⟩ := Int.eq_ofNat_of_zero_le hpos.le
      rw [hRnat] at hall ⊢
      rw [Int.toNat_natCast, mul_comm]
      exact le_mul_toNat hall

/-- INTERNAL: the directory of the necessity proof: the input, and a `tmp_file2` from before. -/
def inputAndScratch (records : List Record) : FileSystem :=
  fun name => if name = "in" then some records.flatten
    else if name = "tmp_file2" then some [] else none

/-- INTERNAL: what `main` has set up in that directory with clear memory. -/
theorem prepare_inputAndScratch (hs : 0 < schema.recordSize) (hcap : schema.recordSize ≤ capacity)
    (hcap' : capacity < 2 ^ 31) (hinside : Inside schema) (hk : 2 ≤ args.k.toInt)
    (hplain : PlainRecords schema.recordSize records) :
    ∃ job runs, (∀ fuel, records.length < fuel →
        prepare fuel zeroEnv (withFiles args "in" "out") schema capacity (inputAndScratch records) =
          some (job, Function.update (inputAndScratch records) "tmp_file" (some runs.flatten))) ∧
      RunsOf schema (capacity / schema.recordSize) records runs ∧
      job.env = zeroEnv ∧ job.schema = schema ∧ job.outputFile = "out" ∧ job.k = args.k.toInt ∧
      job.bufSize = capacity / (args.k.toInt.toNat + 1) ∧
      job.numRecords = numberOfRecords (File.open_ records.flatten) schema.recordSize := by
  obtain ⟨hdiv, hdiveq⟩ := share_eq hk args.k.toInt_lt hcap'
  have hin : inputAndScratch records (withFiles args "in" "out").inputFile =
      some records.flatten := if_pos rfl
  have hname : (withFiles args "in" "out").inputFile ≠ "tmp_file" :=
    show "in" ≠ "tmp_file" by decide
  obtain ⟨job, runs, hprep, hof⟩ := prepare_runs zeroEnv (withFiles args "in" "out") hs hcap hcap'
    hinside hplain hdiv hin (if_neg hname) (Nat.lt_succ_self _)
  obtain ⟨henv, hschema, hout, hjk, hbuf, hnum⟩ := prepare_job hin hprep
  rw [if_neg hname] at hnum
  exact ⟨job, runs, fun fuel hfuel => prepare_mono hfuel hprep, hof, henv, hschema, hout, hjk,
    hbuf.trans hdiveq, hnum⟩

/-- INTERNAL: **without room for a record** the first pass over records fails: its first
iterator has no next record.
SRCLINE: library.cc:176-193, library.cc:217-223 -/
theorem room_of_memoryCheckAdmits (hs : 0 < schema.recordSize)
    (hcap : schema.recordSize ≤ capacity) (hcap' : capacity < 2 ^ 31) (hinside : Inside schema)
    (hk : 2 ≤ args.k.toInt) (hplain : PlainRecords schema.recordSize records)
    (hne : 1 ≤ records.length)
    (hpass : ((capacity / schema.recordSize : ℕ) : ℤ) <
      numberOfRecords (File.open_ records.flatten) schema.recordSize)
    (hruns : 0 < numRuns (numberOfRecords (File.open_ records.flatten) schema.recordSize)
      (capacity / schema.recordSize : ℕ))
    (h : MemoryCheckAdmits args schema capacity records) :
    (args.k.toInt + 1) * schema.recordSize ≤ capacity := by
  by_contra hshare
  rw [share_room_iff hk, not_le] at hshare
  obtain ⟨job, runs, hprep, hof, henv, hschema, houtput, -, hbuf, hnum⟩ :=
    prepare_inputAndScratch hs hcap hcap' hinside hk hplain
  have hwork := h "in" "out" _ _ zeroEnv _ job (if_pos rfl) (hprep _ (Nat.lt_succ_self _)) 0 _ _ _
    .start (by rw [hnum]; exact hpass)
  have hsmall : job.bufSize < 2 ^ 31 := by
    rw [hbuf]
    exact (Nat.div_le_self _ _).trans_lt hcap'
  -- the first pass reads the runs: it writes neither its own file nor the output there
  have hfile : job.runsFile ⟨(capacity / schema.recordSize : ℕ), false⟩
      (Function.update (inputAndScratch records) "tmp_file" (some runs.flatten)) = runs.flatten := by
    have happart : "tmp_file" ≠ ((⟨(capacity / schema.recordSize : ℕ), false⟩ : Control).pass
        job.outputFile job.k job.numRecords).writeFilename := by
      rw [houtput]
      simp only [Control.pass, Bool.false_eq_true, if_false]
      split_ifs <;> decide
    refine (congrArg (Option.getD · []) (Function.update_of_ne happart _ _)).trans ?_
    rw [Function.update_self, Option.getD_some]
  rw [hfile, hnum] at hwork
  dsimp only [Int.toNat_natCast] at hwork
  have havail : 1 ≤ available runs.flatten (job.runArgs 0 (capacity / schema.recordSize) 0) := by
    have hcount := slotCount_flatten (hplain.perm hof.perm).length_eq hs 0
    rw [Nat.zero_mul, hof.perm.length_eq] at hcount
    simp only [available, Job.runArgs, Nat.mul_zero, hschema]
    omega
  have hfirst := Int.pos_iff_toNat_pos.mp hruns
  have htrue := hwork.has_next 0 hfirst havail
  rw [session_iters job 0 _ runs.flatten hfirst (File.open_ [])] at htrue
  have hstarved : Starved (job.runArgs 0 (capacity / schema.recordSize) 0) :=
    starved_runArgs hsmall (by rw [hschema, hbuf]; exact hshare) (Or.inr (by rw [henv]; rfl))
  have hidle := idle_new hstarved 0 (File.open_ [])
  rw [(idle_hasNext hidle _).1] at htrue
  cases htrue

/-- INTERNAL: **a pass with too few iterators** returns with records it has not delivered.
SRCLINE: msort.cc:74, msort.cc:87-93 -/
theorem passesCover_of_memoryCheckAdmits (hs : 0 < schema.recordSize)
    (hcap : schema.recordSize ≤ capacity) (hcap' : capacity < 2 ^ 31) (hinside : Inside schema)
    (hk : 2 ≤ args.k.toInt) (hplain : PlainRecords schema.recordSize records)
    (hruns : 0 < numRuns (numberOfRecords (File.open_ records.flatten) schema.recordSize)
      (capacity / schema.recordSize : ℕ))
    (h : MemoryCheckAdmits args schema capacity records) :
    PassesCover args.k.toInt (numberOfRecords (File.open_ records.flatten) schema.recordSize)
      records.length (capacity / schema.recordSize) := by
  intro j hj
  obtain ⟨job, runs, hprep, hof, henv, hschema, houtput, hjk, hbuf, hnum⟩ :=
    prepare_inputAndScratch hs hcap hcap' hinside hk hplain
  have hready : Ready job := by
    refine ⟨?_, by rw [hschema]; exact hs, by rw [hschema]; omega, by rw [hschema]; exact hinside,
      Or.inr fun j i => by rw [henv]; rfl⟩
    rw [hbuf]
    exact (Nat.div_le_self _ _).trans_lt hcap'
  have hlen : job.bufSize ≤ (stackBuffer zeroEnv capacity).length := by
    rw [length_stackBuffer, hbuf]
    exact Nat.div_le_self _ _
  have hL : (1 : ℤ) ≤ (capacity / schema.recordSize : ℕ) := by exact_mod_cast Nat.div_pos hcap hs
  rw [← hnum, ← hjk] at hj ⊢
  rw [← hnum] at hruns
  rw [← hjk] at hk
  have hthere : ∀ flip, Function.update (inputAndScratch records) "tmp_file" (some runs.flatten)
      (scratch flip) ≠ none := by
    intro flip
    cases flip
    · rw [show scratch false = "tmp_file" from rfl, Function.update_self]
      exact Option.some_ne_none _
    · exact update_some_ne_none (show some [] ≠ none from Option.some_ne_none _)
  obtain ⟨fuel, c, fs, buf, hreach, hbuflen, hfiles⟩ :=
    hready.exists_reaches hk hL hlen hruns hthere j hj
  have hR := hreach.runLength_eq
  have hpos := mul_pow_pos hk hL j
  have hle : ((capacity / schema.recordSize : ℕ) : ℤ) ≤
      (capacity / schema.recordSize : ℕ) * job.k ^ j :=
    le_mul_of_one_le_right (by omega) (one_le_pow₀ (by omega))
  rw [← hR] at hj hpos hle ⊢
  have hsome := (numRuns_antitone (by omega) hle (by omega) hruns).1
  obtain ⟨fuel', fs', buf', hrun⟩ := hready.runPass_returns j hpos hsome (hfiles c.flip) hbuflen
  obtain ⟨-, result, hmerge, -⟩ := runPass_eq_some hrun
  have hwork := h "in" "out" _ _ zeroEnv (max fuel (records.length + 1)) job (if_pos rfl)
    (hprep _ (lt_max_of_lt_right (Nat.lt_succ_self _))) j c fs buf (hreach.mono (le_max_left _ _)) hj
  -- the run behind the last iterator begins behind the last record
  obtain ⟨R, hRnat⟩ := Int.eq_ofNat_of_zero_le hpos.le
  obtain ⟨m, hm⟩ := Int.eq_ofNat_of_zero_le hsome.le
  have hall := hwork.delivered (Int.pos_iff_toNat_pos.mp hsome) fuel' result hmerge m
  rw [hm, hRnat] at hall ⊢
  by_contra hless
  have hbehind : m * R < records.length := by exact_mod_cast not_le.mp hless
  exact absurd (hall hbehind).1 (lt_irrefl m)

/-- INTERNAL: below `2 ^ 24` records every pass has iterators for all of them. -/
theorem passesCover_of_lt (hk : 2 ≤ args.k.toInt) {n L : ℕ} (hL : 1 ≤ L) (hn : n < 2 ^ 24) :
    PassesCover args.k.toInt n n L := fun j hj =>
  (numRuns_bounds (mul_pow_pos hk (by omega) j) hj (by omega)).2.2

/-- SOURCE: msort.cc:42-47, msort.cc:65-99 — **what the memory check admits.**  For an
accepted capacity, `k` of at least two and an input of more complete records than one run
has, the buffers of all passes work if the share of the memory every buffer
gets, `memory_capacity / (k + 1)`, has room for a record and all passes have iterators for all
records; or there is no pass to make (`number_of_records` has wrapped), or the first pass has no
iterator (`num_runs` has).  If the comparator reads inside the records, only then.  Below
`2 ^ 24` records and two gigabytes, room for a record is all that is needed. -/
theorem memory_check_iff (args : MsortArgs) (schema : Schema) (hs : 0 < schema.recordSize)
    (haccept : (schema.recordSize : ℤ) ≤ args.memCapacity.toInt) (hk : 2 ≤ args.k.toInt)
    (records : List Record) (hplain : PlainRecords schema.recordSize records)
    (hmany : args.memCapacity.toInt.toNat / schema.recordSize < records.length) :
    (SharesWork args schema args.memCapacity.toInt.toNat records →
        MemoryCheckAdmits args schema args.memCapacity.toInt.toNat records) ∧
      (Inside schema →
        (MemoryCheckAdmits args schema args.memCapacity.toInt.toNat records ↔
          SharesWork args schema args.memCapacity.toInt.toNat records) ∧
        (records.length < 2 ^ 24 → records.length * schema.recordSize < 2 ^ 31 →
          (MemoryCheckAdmits args schema args.memCapacity.toInt.toNat records ↔
            (args.k.toInt + 1) * schema.recordSize ≤ args.memCapacity.toInt))) := by
  have hmem := args.memCapacity.toInt_lt
  obtain ⟨capacity, hcapacity⟩ : ∃ capacity : ℕ, args.memCapacity.toInt = capacity :=
    Int.eq_ofNat_of_zero_le (by omega)
  rw [hcapacity] at haccept hmem hmany ⊢
  rw [Int.toNat_natCast] at hmany ⊢
  have hcap : schema.recordSize ≤ capacity := by exact_mod_cast haccept
  have hcap' : capacity < 2 ^ 31 := by exact_mod_cast hmem
  have hsufficient : SharesWork args schema capacity records →
      MemoryCheckAdmits args schema capacity records :=
    fun h => h.memoryCheckAdmits hs hcap hcap' hk
  have hexact : Inside schema → (MemoryCheckAdmits args schema capacity records ↔
      SharesWork args schema capacity records) := by
    refine fun hinside => ⟨fun h => ?_, hsufficient⟩
    by_cases hpass : numberOfRecords (File.open_ records.flatten) schema.recordSize ≤
        (capacity / schema.recordSize : ℕ)
    · exact Or.inl hpass
    by_cases hruns : numRuns (numberOfRecords (File.open_ records.flatten) schema.recordSize)
        (capacity / schema.recordSize : ℕ) ≤ 0
    · exact Or.inr (Or.inl hruns)
    · exact Or.inr (Or.inr ⟨room_of_memoryCheckAdmits hs hcap hcap' hinside hk hplain
        (Nat.zero_lt_of_lt hmany) (not_le.mp hpass) (not_le.mp hruns) h,
        passesCover_of_memoryCheckAdmits hs hcap hcap' hinside hk hplain (not_le.mp hruns) h⟩)
  refine ⟨hsufficient, fun hinside => ⟨hexact hinside, fun hfew hsmall => ?_⟩⟩
  have hnum : numberOfRecords (File.open_ records.flatten) schema.recordSize = records.length :=
    numberOfRecords_flatten hs hplain.length_eq hsmall rfl
  have hL : 1 ≤ capacity / schema.recordSize := Nat.div_pos hcap hs
  have hsome := (numRuns_bounds (show (0 : ℤ) < (capacity / schema.recordSize : ℕ) by omega)
    (show ((capacity / schema.recordSize : ℕ) : ℤ) < records.length by omega) (by omega)).1
  rw [hexact hinside, SharesWork, hnum]
  constructor
  · rintro (hnone | hnone | ⟨hroom, -⟩)
    · omega
    · exact absurd hsome (not_lt.mpr hnone)
    · exact hroom
  · exact fun hroom => Or.inr (Or.inr ⟨hroom, passesCover_of_lt hk hL hfew⟩)

end Exact

/-- Memory for three letters, shared between two iterators and the output. -/
theorem memory_check_six : MemoryCheckAdmits (letterCommand 6) letterSchema 6 (letters 4) :=
  (((memory_check_iff (letterCommand 6) letterSchema (by decide) (by decide) (by decide) (letters 4)
    ⟨by decide, by decide +kernel⟩ (by decide +kernel)).2 (by decide +kernel)).2 (by decide)
    (by decide)).mpr (by decide)

/-- Memory for two letters is accepted, and no buffer gets the room for one. -/
theorem memory_check_four_fails :
    (letterSchema.recordSize : ℤ) ≤ (letterCommand 4).memCapacity.toInt ∧
      2 ≤ (letterCommand 4).k.toInt ∧ PlainRecords letterSchema.recordSize (letters 3) ∧
      4 / letterSchema.recordSize < (letters 3).length ∧
      ¬ MemoryCheckAdmits (letterCommand 4) letterSchema 4 (letters 3) := by
  have hplain : PlainRecords letterSchema.recordSize (letters 3) := ⟨by decide, by decide +kernel⟩
  refine ⟨by decide, by decide, hplain, by decide, fun h => ?_⟩
  have hroom := room_of_memoryCheckAdmits (by decide) (by decide) (by decide) (by decide +kernel)
    (by decide) hplain (by decide) (by decide +kernel) (by decide +kernel) h
  exact absurd hroom (by decide)

end ExternalSort.Analysis
