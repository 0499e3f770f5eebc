import ExternalSort.Analysis.MergeStable
import ExternalSort.Model.Msort

/-!
# One pass of the merge sort

The iterators of a pass stand on one handle and cut the file into runs.  `session_merges`
runs the merge of a pass over any contents of that file: it returns, it has drawn all
the iterators' streams, and what it drew is what is in the file it wrote.
-/

set_option autoImplicit false

namespace ExternalSort.Analysis

open ExternalSort.Lib ExternalSort.Model

section Pass

variable {job : Job} {j runLength numRuns : ℕ} {contents : List Byte}

/-- INTERNAL: the streams of the iterators of a pass. -/
def passStreams (job : Job) (j runLength : ℕ) (contents : List Byte) (i : ℕ) : List Record :=
  stream contents (job.runArgs j runLength i)

/-- INTERNAL: the iterators of a pass are as constructed. -/
theorem session_iters (job : Job) (j runLength : ℕ) {numRuns i : ℕ} (contents : List Byte)
    (hi : i < numRuns) (fp : File) :
    (job.session j runLength numRuns contents).iters i =
      (RunIterator.new 0 fp (job.runArgs j runLength i)).1 :=
  constructRuns_iters _ 0 _ hi fp

/-- INTERNAL: their handle leads to the file of the pass. -/
theorem session_contents (job : Job) (j runLength numRuns : ℕ) (contents : List Byte) (h : ℕ) :
    ((job.session j runLength numRuns contents).files h).contents = contents :=
  constructRuns_contents _ 0 _ numRuns h

/-- INTERNAL: the records a refill asks for, while the buffer is smaller than `2 ^ 31`
bytes. -/
theorem refill_runArgs (hbuf : job.bufSize < 2 ^ 31) (i : ℕ) :
    refill (job.runArgs j runLength i) =
      min (job.bufSize / job.schema.recordSize) runLength := by
  have hle : job.bufSize / job.schema.recordSize ≤ job.bufSize := Nat.div_le_self _ _
  have hunsigned : toUnsignedInt (job.bufSize / job.schema.recordSize) =
      job.bufSize / job.schema.recordSize := Nat.mod_eq_of_lt (by omega)
  show refillCount job.bufSize job.schema.recordSize runLength = _
  rw [refillCount, hunsigned]
  split_ifs <;> omega

/-- INTERNAL: with room for a record an iterator works. -/
theorem works_runArgs (hbuf : job.bufSize < 2 ^ 31) (hs : 0 < job.schema.recordSize)
    (hroom : job.schema.recordSize ≤ job.bufSize) (hrun : 1 ≤ runLength) (i : ℕ) :
    Works (job.runArgs j runLength i) := by
  have hcap : 0 < job.bufSize / job.schema.recordSize := Nat.div_pos hroom hs
  refine ⟨?_, hrun⟩
  rw [refill_runArgs hbuf]
  omega

/-- INTERNAL: without room for a record an iterator delivers nothing. -/
theorem starved_runArgs (hbuf : job.bufSize < 2 ^ 31) (hroom : job.bufSize < job.schema.recordSize)
    {i : ℕ} (hbyte : 1 ≤ job.bufSize ∨ job.env.heap j i 0 = 0) :
    Starved (job.runArgs j runLength i) := by
  refine Or.inr ⟨?_, hbyte⟩
  rw [refill_runArgs hbuf, Nat.div_eq_of_lt hroom, Nat.zero_min]

/-- INTERNAL: the requests of a pass fit an `int`, so no iterator restarts. -/
theorem uniform_session (hbuf : job.bufSize < 2 ^ 31) (hs : 0 < job.schema.recordSize) :
    Uniform numRuns job.schema (fun _ => contents) (job.runArgs j runLength) := by
  refine ⟨hs, fun _ _ => rfl, fun i _ hbig => ?_⟩
  have hle : job.bufSize / job.schema.recordSize ≤ job.bufSize := Nat.div_le_self _ _
  rw [refill_runArgs hbuf] at hbig
  omega

/-- INTERNAL: the iterators of a pass show their streams. -/
theorem holds_session (hq : ∀ i < numRuns,
      Starved (job.runArgs j runLength i) ∨ Works (job.runArgs j runLength i)) :
    Holds numRuns (fun _ => contents) (job.runArgs j runLength)
      (job.session j runLength numRuns contents) (passStreams job j runLength contents) := by
  intro i hi
  rw [session_iters job j runLength contents hi (File.open_ contents)]
  exact ⟨session_contents _ _ _ _ _ _, peeks_stream contents (hq i hi) 0 _⟩

/-- INTERNAL: the streams of a pass were copied. -/
theorem copies_session :
    Copies numRuns job.schema.recordSize (passStreams job j runLength contents) := by
  intro r hr
  obtain ⟨i, -, hr⟩ := mem_pooled.mp hr
  exact strncpy_of_mem_stream hr

/-- INTERNAL: **the merge of a pass** over any contents of the file it reads.
SRCLINE: msort.cc:85-93 -/
theorem session_merges (hbuf : job.bufSize < 2 ^ 31) (hs : 0 < job.schema.recordSize)
    (hsmall : job.schema.recordSize < 2 ^ 31) (hinside : Inside job.schema) (hruns : 1 ≤ numRuns)
    (hq : ∀ i < numRuns, Starved (job.runArgs j runLength i) ∨ Works (job.runArgs j runLength i))
    (hroom : job.schema.recordSize ≤ job.bufSize ∨
      pooled numRuns (passStreams job j runLength contents) = [])
    {buf : List Byte} (hlen : job.bufSize ≤ buf.length) :
    ∃ result written R,
      (∀ fuel, (pooled numRuns (passStreams job j runLength contents)).length < fuel →
        mergeRuns fuel (job.session j runLength numRuns contents) numRuns (File.open_ []) 0 buf
          job.bufSize = some result) ∧
      Draws (recordLe job.schema) numRuns (passStreams job j runLength contents) written R ∧
      pooled numRuns R = [] ∧
      result.out.contents = written.flatten ∧ result.buf.length = buf.length := by
  have hsize : ((job.session j runLength numRuns contents).iters 0).getRecordSize =
      job.schema.recordSize := by
    have hschema : ((job.session j runLength numRuns contents).iters 0).schema = job.schema := by
      rw [session_iters job j runLength contents hruns (File.open_ contents)]
      rfl
    rw [RunIterator.getRecordSize, hschema, toInt_of_lt (by omega) (by omega)]
  have hmax : 1 ≤ maxNumberOfRecordsInBuffer job.bufSize job.schema.recordSize ∨
      pooled numRuns (passStreams job j runLength contents) = [] := by
    refine hroom.imp_left fun hfits => ?_
    have hpos : 1 ≤ job.bufSize / job.schema.recordSize := Nat.div_pos hfits hs
    have hle : job.bufSize / job.schema.recordSize ≤ job.bufSize := Nat.div_le_self _ _
    rw [maxNumberOfRecordsInBuffer_natCast, doubleToInt_of_lt (by omega) (by omega)]
    omega
  obtain ⟨result, hrun, written, R, hdraws, hnone, -, hwrites⟩ :=
    mergeRuns_draws (uniform_session hbuf hs) hinside (holds_session hq) hsize (File.open_ []) 0
      hlen hmax (Nat.lt_succ_self _)
  rw [copies_session.copied_eq hdraws] at hwrites
  refine ⟨result, written, R, fun fuel hfuel => mergeRuns_mono hfuel hrun, hdraws, hnone, ?_,
    hwrites.buf_length⟩
  rw [hwrites.out_eq]
  exact overwrite_length [] _

end Pass

end ExternalSort.Analysis
