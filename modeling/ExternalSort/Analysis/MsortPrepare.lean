import ExternalSort.Analysis.MakeRuns
import ExternalSort.Analysis.MsortLoop
import ExternalSort.Analysis.SchemaLayout

/-!
# Before the passes

What `main` has set up when its loop of passes starts: the share of the memory every
buffer gets, the number of records it takes the input to have, and the runs in
`tmp_file`.
-/

set_option autoImplicit false

namespace ExternalSort.Analysis

open ExternalSort.Lib ExternalSort.Model

/-- INTERNAL: the share of the memory.  For the largest `k`, `k + 1` overflows and the share
is nothing, as it would be without the overflow.
SRCLINE: msort.cc:69 -/
theorem share_eq {k : ℤ} (hk : 2 ≤ k) (hk' : k < 2 ^ 31) {capacity : ℕ} (hcap : capacity < 2 ^ 31) :
    toSizeT (toInt (k + 1)) ≠ 0 ∧
      capacity / toSizeT (toInt (k + 1)) = capacity / (k.toNat + 1) := by
  rcases eq_or_lt_of_le (show k + 1 ≤ 2 ^ 31 by omega) with heq | hlt
  · have hdiv : toSizeT (toInt (k + 1)) = 2 ^ 64 - 2 ^ 31 := by
      rw [heq]
      decide
    rw [hdiv, Nat.div_eq_of_lt (by omega), Nat.div_eq_of_lt (by omega)]
    exact ⟨by decide, rfl⟩
  · have hdiv : toSizeT (toInt (k + 1)) = k.toNat + 1 := by
      rw [toInt_of_lt (by omega) (by omega), toSizeT_of_lt (by omega) (by omega)]
      omega
    rw [hdiv]
    exact ⟨by omega, rfl⟩

/-- INTERNAL: the number of records of a file below two gigabytes.
SRCLINE: library.cc:252-262 -/
theorem numberOfRecords_flatten {size : ℕ} {records : List (List Byte)} (hs : 0 < size)
    (h : ∀ r ∈ records, r.length = size) (hsmall : records.length * size < 2 ^ 31) {fp : File}
    (hfp : fp.contents = records.flatten) : numberOfRecords fp size = records.length := by
  have hlen : fp.contents.length = size * records.length := by
    rw [hfp, length_flatten_of_size h]
  rw [numberOfRecords_eq (by rwa [hlen, mul_comm]), hlen, Nat.mul_div_cancel_left _ hs]

/-- Memory that is all zero. -/
def zeroEnv : Env where
  qsort := stableQsort
  heap := fun _ _ _ => 0
  stack := fun _ => 0

/-- INTERNAL: the stack array has the size of the memory. -/
theorem length_stackBuffer (env : Env) (capacity : ℕ) :
    (stackBuffer env capacity).length = capacity := by
  simp [stackBuffer]

section Prepare

variable {fuel : ℕ} {env : Env} {args : MsortArgs} {schema : Schema} {capacity : ℕ}
  {fs fs₀ : FileSystem} {job : Job} {input : List Byte}

/-- INTERNAL: there is an input file if the runs were made. -/
theorem prepare_input (h : prepare fuel env args schema capacity fs = some (job, fs₀)) :
    ∃ input, fs args.inputFile = some input := by
  unfold prepare at h
  split at h
  · cases h
  · rename_i input hin
    exact ⟨input, hin⟩

/-- INTERNAL: what is fixed when the passes start.  An input file called `tmp_file` is empty
by then.
SRCLINE: msort.cc:57-69 -/
theorem prepare_job (hin : fs args.inputFile = some input)
    (h : prepare fuel env args schema capacity fs = some (job, fs₀)) :
    job.env = env ∧ job.schema = schema ∧ job.outputFile = args.outputFile ∧
      job.k = args.k.toInt ∧ job.bufSize = capacity / toSizeT (toInt (args.k.toInt + 1)) ∧
      job.numRecords = numberOfRecords
        (File.open_ (if args.inputFile = "tmp_file" then [] else input)) schema.recordSize := by
  unfold prepare at h
  rw [hin] at h
  dsimp only at h
  split at h
  · cases h
  · rename_i inFp tmpOut hmk
    split_ifs at h
    have hcontents := mkRuns_contents hmk
    have hread : (Function.update fs "tmp_file" (some []) args.inputFile).getD [] =
        if args.inputFile = "tmp_file" then [] else input := by
      rw [Function.update_apply]
      split_ifs
      · rfl
      · rw [hin, Option.getD_some]
    cases h
    refine ⟨rfl, rfl, rfl, rfl, rfl, ?_⟩
    simp only [numberOfRecords, filesize]
    rw [hcontents, hread]

/-- INTERNAL: the numbers `mk_runs` works with fit: a run is not larger than the memory.
SRCLINE: msort.cc:61-62 -/
theorem runsFit_of_capacity (hcap : capacity < 2 ^ 31)
    (hinside : Inside schema) (n : ℕ) : RunsFit schema (capacity / schema.recordSize) n := by
  have hrun := Nat.mul_div_le capacity schema.recordSize
  have hle : capacity / schema.recordSize ≤ capacity := Nat.div_le_self _ _
  exact ⟨Or.inl (by omega), Or.inl (by omega), Or.inr (Or.inr hinside)⟩

/-- INTERNAL: **the runs are made.**  From a file of complete records `main` gets to its
passes, with sorted runs of them in `tmp_file`.
SRCLINE: msort.cc:57-69 -/
theorem prepare_runs {records : List (List Byte)} (env : Env) (args : MsortArgs)
    (hs : 0 < schema.recordSize) (hcap : schema.recordSize ≤ capacity)
    (hcap' : capacity < 2 ^ 31) (hinside : Inside schema)
    (hplain : PlainRecords schema.recordSize records)
    (hk : toSizeT (toInt (args.k.toInt + 1)) ≠ 0) (hin : fs args.inputFile = some input)
    (hread : (if args.inputFile = "tmp_file" then [] else input) = records.flatten)
    (hfuel : records.length < fuel) :
    ∃ job runs, prepare fuel env args schema capacity fs =
        some (job, Function.update fs "tmp_file" (some runs.flatten)) ∧
      RunsOf schema (capacity / schema.recordSize) records runs := by
  have hopen : (File.open_ ((Function.update fs "tmp_file" (some []) args.inputFile).getD
      [])).contents = records.flatten := by
    rw [← hread, Function.update_apply]
    split_ifs
    · rfl
    · rw [hin]
      rfl
  obtain ⟨inFp, outFp, runs, hmk, -, hout, hof⟩ :=
    mkRuns_runs env.qsort hs hplain (Nat.div_pos hcap hs)
      (runsFit_of_capacity hcap' hinside records.length) hopen hfuel
  suffices hjob : ∃ job, prepare fuel env args schema capacity fs =
      some (job, Function.update fs "tmp_file" (some runs.flatten)) by
    obtain ⟨job, hjob⟩ := hjob
    exact ⟨job, runs, hjob, hof⟩
  unfold prepare
  rw [hin]
  dsimp only
  rw [hmk]
  dsimp only
  rw [if_neg hk, hout, Function.update_idem]
  exact ⟨_, rfl⟩

/-- INTERNAL: more fuel does not change the runs. -/
theorem prepare_mono {fuel' : ℕ} (hle : fuel ≤ fuel')
    (h : prepare fuel env args schema capacity fs = some (job, fs₀)) :
    prepare fuel' env args schema capacity fs = some (job, fs₀) := by
  unfold prepare at h ⊢
  split at h
  · cases h
  · dsimp only at h ⊢
    split at h
    · cases h
    · rename_i hmk
      rw [show mkRuns fuel' _ _ _ _ _ = _ from loop_mono hle hmk]
      exact h

end Prepare

/-! ## The main program -/

/-- The command lines `main` gets to its sorting with: a schema without negative lengths,
sort attributes that are found in it, memory for a record, and `k` of at least two.
SRCLINE: msort.cc:13-47 -/
structure Accepted (args : MsortArgs) (schema : Schema) : Prop where
  resolved : Resolved args.schema args.sortAttrs schema
  memory : (schema.recordSize : ℤ) ≤ args.memCapacity.toInt
  two_le : 2 ≤ args.k.toInt

/-- The length of the runs `main` makes first.
SRCLINE: msort.cc:61 -/
def initialRunLength (args : MsortArgs) (schema : Schema) : ℕ :=
  args.memCapacity.toInt.toNat / schema.recordSize

/-- The records that have room in one buffer.
SRCLINE: msort.cc:69, library.cc:176 -/
def bufferRecords (args : MsortArgs) (schema : Schema) : ℕ :=
  args.memCapacity.toInt.toNat / (args.k.toInt.toNat + 1) / schema.recordSize

/-- INTERNAL: what is fixed during the passes over `n` records. -/
structure JobOf (args : MsortArgs) (schema : Schema) (env : Env) (n : ℕ) (job : Job) : Prop where
  env_eq : job.env = env
  schema_eq : job.schema = schema
  output_eq : job.outputFile = args.outputFile
  k_eq : job.k = args.k.toInt
  num_eq : job.numRecords = n
  buf_eq : job.bufSize = args.memCapacity.toInt.toNat / (args.k.toInt.toNat + 1)

section Main

/-- INTERNAL: the schema of an accepted command line has a layout. -/
theorem Accepted.layout {args : MsortArgs} {schema : Schema} (h : Accepted args schema) :
    Layout schema := h.resolved.layout.1

/-- INTERNAL: the records of an accepted command line have a byte. -/
theorem Accepted.size_pos {args : MsortArgs} {schema : Schema} (h : Accepted args schema) :
    0 < schema.recordSize :=
  h.layout.size_pos h.resolved.layout.2

/-- INTERNAL: the records of an accepted command line are below two gigabytes. -/
theorem Accepted.size_lt {args : MsortArgs} {schema : Schema} (h : Accepted args schema) :
    schema.recordSize < 2 ^ 31 := by
  have hmem := h.memory
  have hlt := args.memCapacity.toInt_lt
  omega

/-- INTERNAL: the comparator of an accepted command line stays inside the records. -/
theorem Accepted.inside {args : MsortArgs} {schema : Schema} (h : Accepted args schema) :
    Inside schema := h.layout.inside h.size_lt

/-- INTERNAL: **an accepted command line** gets to the sorting, if the schema can be printed, and to
no end if not.
SRCLINE: msort.cc:18-56 -/
theorem msort_eq_sortFile {args : MsortArgs} {schema : Schema} (h : Accepted args schema)
    (fuel : ℕ) (env : Env) (fs : FileSystem) :
    msort fuel env args fs = if namesEnd schema then
      sortFile fuel env args schema args.memCapacity.toInt.toNat fs else none := by
  obtain ⟨schema₀, hread, -, hresolve⟩ := h.resolved.read
  have hpos := h.size_pos
  have hmem := h.memory
  have hlt := args.memCapacity.toInt_lt
  have hcap : toSizeT args.memCapacity.toInt = args.memCapacity.toInt.toNat :=
    toSizeT_of_lt (by omega) (by omega)
  have hnames : namesEnd schema₀ = namesEnd schema := by
    obtain ⟨⟨code, slots⟩, -, heq⟩ := Option.map_eq_some_iff.mp hresolve
    obtain ⟨-, rfl⟩ := Prod.mk.inj heq
    rfl
  unfold msort
  rw [if_neg h.resolved.names_ne, hread]
  dsimp only
  rw [hnames, hresolve]
  refine if_congr Iff.rfl ?_ rfl
  dsimp only
  rw [hcap, if_neg (by simp), if_neg (by omega), if_neg (by omega)]

/-- The files after the scratch files were removed.
SRCLINE: msort.cc:109-110 -/
def cleaned (fs : FileSystem) : FileSystem :=
  Function.update (Function.update fs "tmp_file" none) "tmp_file2" none

/-- INTERNAL: **what `main` does** with a file of records: if it can print the schema, it makes runs
of them and merges these in passes.
SRCLINE: msort.cc:12-115 -/
theorem Accepted.main {args : MsortArgs} {schema : Schema} (h : Accepted args schema)
    {records : List Record} (hplain : PlainRecords schema.recordSize records)
    (hsmall : records.length * schema.recordSize < 2 ^ 31) {fs : FileSystem} {input : List Byte}
    (hin : fs args.inputFile = some input)
    (hread : (if args.inputFile = "tmp_file" then [] else input) = records.flatten) (env : Env) :
    ∃ job runs, JobOf args schema env records.length job ∧
      RunsOf schema (initialRunLength args schema) records runs ∧
      (∀ fuel code fs', msort fuel env args fs = some (code, fs') → ∃ fs₁,
        job.mergePasses fuel fuel 0 ⟨initialRunLength args schema, false⟩
          (Function.update fs "tmp_file" (some runs.flatten))
          (stackBuffer env args.memCapacity.toInt.toNat) = some fs₁ ∧ fs' = cleaned fs₁) ∧
      ∀ fuel fs₁, job.mergePasses fuel fuel 0 ⟨initialRunLength args schema, false⟩
          (Function.update fs "tmp_file" (some runs.flatten))
          (stackBuffer env args.memCapacity.toInt.toNat) = some fs₁ →
        namesEnd schema → ∃ fuel', msort fuel' env args fs = some (0, cleaned fs₁) := by
  have hmem := h.memory
  have hlt := args.memCapacity.toInt_lt
  obtain ⟨hdiv, hdiveq⟩ := share_eq h.two_le args.k.toInt_lt
    (show args.memCapacity.toInt.toNat < 2 ^ 31 by omega)
  obtain ⟨job, runs, hprep, hof⟩ := prepare_runs env args h.size_pos
    (show schema.recordSize ≤ args.memCapacity.toInt.toNat by omega)
    (show args.memCapacity.toInt.toNat < 2 ^ 31 by omega) h.inside hplain hdiv hin hread
    (Nat.lt_succ_self _)
  obtain ⟨henv, hschema, hout, hk, hbuf, hnum⟩ := prepare_job hin hprep
  rw [hread, numberOfRecords_flatten h.size_pos hplain.length_eq hsmall rfl] at hnum
  refine ⟨job, runs, ⟨henv, hschema, hout, hk, hnum, hbuf.trans hdiveq⟩, hof, ?_, ?_⟩
  · intro fuel code fs' hrun
    rw [msort_eq_sortFile h] at hrun
    split_ifs at hrun
    unfold sortFile at hrun
    split at hrun
    · cases hrun
    · rename_i job' fs₀ hprep'
      have h1 := prepare_mono (le_max_left fuel (records.length + 1)) hprep'
      have h2 := prepare_mono (le_max_right fuel (records.length + 1)) hprep
      cases h1.symm.trans h2
      obtain ⟨fs₁, hmerge, heq⟩ := Option.map_eq_some_iff.mp hrun
      cases heq
      exact ⟨fs₁, hmerge, rfl⟩
  · intro fuel fs₁ hmerge hnames
    refine ⟨max fuel (records.length + 1), ?_⟩
    rw [msort_eq_sortFile h, if_pos hnames, sortFile, prepare_mono (le_max_right _ _) hprep]
    have hmerge' := mergePasses_mono (le_max_left fuel (records.length + 1))
      (le_max_left fuel (records.length + 1)) hmerge
    exact congrArg (Option.map _) hmerge'

end Main

/-- The command line that sorts letters, merging two runs at a time. -/
def letterCommand (memCapacity : Int32) : MsortArgs where
  schema := some letterJson
  inputFile := "in"
  outputFile := "out"
  memCapacity := memCapacity
  k := 2
  sortAttrs := [[97]]

/-- INTERNAL: memory for three letters is accepted. -/
theorem letterCommand_accepted : Accepted (letterCommand 6) letterSchema where
  resolved := letterSchema_resolved
  memory := by decide
  two_le := by decide

end ExternalSort.Analysis
