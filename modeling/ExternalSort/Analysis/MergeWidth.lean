import ExternalSort.Analysis.MsortMemory

/-!
# How many iterators a merge gets

The buffers are shared out once, for `k` iterators and the output.  The number of iterators
of a pass is computed from its run length, and nothing keeps it at `k`: the first
pass gets one iterator for every initial run.  Run lengths only grow, so the first pass
decides (`numRuns_antitone`).
-/

set_option autoImplicit false

namespace ExternalSort.Analysis

open ExternalSort.Lib ExternalSort.Model

/-- Every pass the loop comes to merges at most `k` runs, and the buffers of their iterators
and of the output fit in memory.
SRCLINE: msort.cc:68-99, library.cc:141-163 -/
def MergesFit (job : Job) (capacity : ℕ) (fs₀ : FileSystem) : Prop :=
  ∀ fuel j c fs buf, Reaches job fuel ⟨(capacity / job.schema.recordSize : ℕ), false⟩ fs₀
      (stackBuffer job.env capacity) j c fs buf → c.runLength < job.numRecords →
    numRuns job.numRecords c.runLength ≤ job.k ∧
      (numRuns job.numRecords c.runLength + 1) * job.bufSize ≤ capacity

section Width

variable {k : ℤ}

/-- INTERNAL: `k` runs and the output have a share of the memory each.
SRCLINE: msort.cc:69 -/
theorem mul_share_le {capacity : ℕ} {m : ℤ} (hk : 0 ≤ k) (hm : m ≤ k) :
    (m + 1) * (capacity / (k.toNat + 1) : ℕ) ≤ capacity := by
  have hshare : (k.toNat + 1) * (capacity / (k.toNat + 1)) ≤ capacity := Nat.mul_div_le _ _
  calc (m + 1) * (capacity / (k.toNat + 1) : ℕ)
      ≤ (k + 1) * (capacity / (k.toNat + 1) : ℕ) :=
        mul_le_mul_of_nonneg_right (by omega) (Int.natCast_nonneg _)
    _ = ((k.toNat + 1) * (capacity / (k.toNat + 1)) : ℕ) := by
        rw [Nat.cast_mul, Nat.cast_succ, Int.toNat_of_nonneg hk]
    _ ≤ capacity := by exact_mod_cast hshare

end Width

/-- SOURCE: msort.cc:65-99 — **when every merge is a `k`-way merge within the memory.**  For every
accepted memory and record size, every `k` of at least two and every input file, all passes
merge at most `k` runs and their buffers fit in memory if and only if no pass is needed
or the first pass has at most `k` runs. -/
theorem merges_fit_iff (fuel : ℕ) (env : Env) (args : MsortArgs) (schema : Schema)
    (hs : 0 < schema.recordSize) (haccept : (schema.recordSize : ℤ) ≤ args.memCapacity.toInt)
    (hk : 2 ≤ args.k.toInt) (fs fs₀ : FileSystem) (job : Job)
    (hprep : prepare fuel env args schema args.memCapacity.toInt.toNat fs = some (job, fs₀)) :
    MergesFit job args.memCapacity.toInt.toNat fs₀ ↔
      job.numRecords ≤ (args.memCapacity.toInt.toNat / schema.recordSize : ℕ) ∨
      numRuns job.numRecords (args.memCapacity.toInt.toNat / schema.recordSize : ℕ) ≤
        args.k.toInt := by
  have hmem := args.memCapacity.toInt_lt
  obtain ⟨capacity, hcapacity⟩ : ∃ m, m = args.memCapacity.toInt.toNat := ⟨_, rfl⟩
  rw [← hcapacity] at hprep ⊢
  obtain ⟨input, hin⟩ := prepare_input hprep
  obtain ⟨henv, hschema, -, hkeq, hbuf, -⟩ := prepare_job hin hprep
  rw [(share_eq hk args.k.toInt_lt (show capacity < 2 ^ 31 by omega)).2] at hbuf
  have hL : 0 < capacity / schema.recordSize := Nat.div_pos (by omega) hs
  rw [MergesFit, hschema, henv, hkeq, hbuf]
  constructor
  · intro h
    by_cases hnone : job.numRecords ≤ (capacity / schema.recordSize : ℕ)
    · exact Or.inl hnone
    · exact Or.inr (h fuel 0 _ _ _ .start (not_le.mp hnone)).1
  · rintro (hnone | hfirst) fuel' j c fs' buf hreach hlt
    · rw [reaches_eq_start hreach hnone] at hlt
      exact absurd hlt (not_lt.mpr hnone)
    · -- a later pass has no more runs than the first one, which had some
      have hfew : numRuns job.numRecords c.runLength ≤ args.k.toInt := by
        by_cases hpos : numRuns job.numRecords (capacity / schema.recordSize : ℕ) ≤ 0
        · rwa [reaches_eq_start_of_numRuns hreach hpos]
        · have hR := hreach.runLength_eq
          have hpow : 1 ≤ job.k ^ j := one_le_pow₀ (by omega)
          have hle := le_mul_of_one_le_right (Int.natCast_nonneg (capacity / schema.recordSize)) hpow
          rw [← hR] at hle
          exact (numRuns_antitone (by omega) hle (by omega) (not_le.mp hpos)).2.trans hfirst
      exact ⟨hfew, mul_share_le (by omega) hfew⟩

/-- INTERNAL: with memory for three letters, two bytes are the share of a buffer. -/
theorem prepare_letters {n : ℕ} (hplain : PlainRecords letterSchema.recordSize (letters n))
    (hsmall : (letters n).length * letterSchema.recordSize < 2 ^ 31) :
    ∃ job fs₀, prepare ((letters n).length + 1) zeroEnv (letterCommand 6) letterSchema 6
        (inputOnly (letters n)) = some (job, fs₀) ∧
      job.schema = letterSchema ∧ job.k = 2 ∧ job.bufSize = 2 ∧
      job.numRecords = (letters n).length := by
  obtain ⟨job, runs, hprep, -⟩ := @prepare_runs _ letterSchema 6 (inputOnly (letters n)) _ (letters n)
    zeroEnv (letterCommand 6) (by decide) (by decide) (by decide) (by decide +kernel) hplain
    (by decide) rfl rfl
    (Nat.lt_succ_self _)
  obtain ⟨-, hschema, -, hk, hbuf, hnum⟩ := @prepare_job _ _ _ _ _ _ _ _ _ rfl hprep
  refine ⟨job, _, hprep, hschema, hk, hbuf, ?_⟩
  rw [hnum]
  exact numberOfRecords_flatten (by decide) hplain.length_eq hsmall rfl

/-- Four letters are two runs. -/
theorem merges_fit_four :
    ∃ job fs₀, prepare 5 zeroEnv (letterCommand 6) letterSchema 6 (inputOnly (letters 4)) =
        some (job, fs₀) ∧ MergesFit job 6 fs₀ := by
  obtain ⟨job, fs₀, hprep, -, -, -, hnum⟩ :=
    @prepare_letters 4 (letters_plain 4 (by decide +kernel)) (by decide)
  refine ⟨job, fs₀, hprep, ?_⟩
  apply (merges_fit_iff 5 zeroEnv (letterCommand 6) letterSchema (by decide) (by decide) (by decide)
    (inputOnly (letters 4)) fs₀ job hprep).mpr
  rw [hnum]
  exact Or.inr (by decide +kernel)

/-- Seven letters are three runs: the first pass merges them all, and their buffers and that
of the output take eight bytes of six. -/
theorem merges_fit_fails :
    ∃ job fs₀, prepare 8 zeroEnv (letterCommand 6) letterSchema 6 (inputOnly (letters 7)) =
        some (job, fs₀) ∧ ¬ MergesFit job 6 fs₀ ∧
      numRuns job.numRecords 3 = 3 ∧ (numRuns job.numRecords 3 + 1) * job.bufSize = 8 := by
  obtain ⟨job, fs₀, hprep, hschema, hk, hbuf, hnum⟩ :=
    @prepare_letters 7 (letters_plain 7 (by decide +kernel)) (by decide)
  have hruns : numRuns job.numRecords 3 = 3 := by
    rw [hnum]
    decide +kernel
  refine ⟨job, fs₀, hprep, ?_, hruns, by rw [hruns, hbuf]; rfl⟩
  intro h
  have hfew := (h 0 0 _ _ _ .start (by rw [hschema, hnum]; decide)).1
  rw [hschema, hk] at hfew
  exact absurd (hruns.symm.trans_le hfew) (by decide)

end ExternalSort.Analysis
