import ExternalSort.Analysis.MsortSorts

/-!
# The merge sort from end to end

`msort_sorts_iff` says exactly when `main` leaves the records sorted in the output file:
for every accepted command line, every input file of complete records, and every
directory without a stale `tmp_file2`.
-/

set_option autoImplicit false

namespace ExternalSort.Analysis

open ExternalSort.Lib ExternalSort.Model

/-- INTERNAL: **at most the last pass takes the output**, unless the first pass takes it too
early.  A pass that is not the last takes it only if its run length divides the number
of records, and then that of the first pass does. -/
theorem tests_of_takesOutput {k n L : ℕ} (hk : 2 ≤ k) (hL : 1 ≤ L) (hn : n < 2 ^ 24)
    (hearly : ¬ (L * k < n ∧ TakesOutput k n L)) {i : ℕ} (hi : L * k ^ i < n)
    (htake : TakesOutput k n (L * k ^ i : ℕ)) :
    ∀ j : ℕ, L * k ^ j < n → (TakesOutput k n (L * k ^ j : ℕ) ↔ n ≤ L * k ^ j * k) := by
  have hexact : ∀ j : ℕ, L * k ^ j < n → (TakesOutput k n (L * k ^ j : ℕ) ↔
      (n : ℤ) ≤ (k - 1) * (L * k ^ j : ℕ) ∨ ((L * k ^ j : ℕ) : ℤ) ∣ n) := by
    intro j hj
    have hpos := one_le_mul_pow hk hL j
    exact takesOutput_iff (by omega) (by exact_mod_cast hj) (by exact_mod_cast hn)
  have hlast : ∀ j : ℕ, L * k ^ j < n → TakesOutput k n (L * k ^ j : ℕ) → n ≤ L * k ^ j * k := by
    intro j hj h
    by_contra hmore
    have hgrow : L ≤ L * k ^ j := Nat.le_mul_of_pos_right L (Nat.pow_pos (by omega))
    refine hearly ⟨(Nat.mul_le_mul_right k hgrow).trans_lt (not_le.mp hmore), ?_⟩
    rcases (hexact j hj).mp h with hfew | hdvd
    · have hle : (n : ℤ) ≤ (L * k ^ j * k : ℕ) := by
        refine hfew.trans ?_
        rw [Nat.cast_mul (L * k ^ j) k, mul_comm]
        exact Int.mul_le_mul_of_nonneg_left (by omega) (Int.natCast_nonneg _)
      omega
    · have hfirst := hexact 0 (by simpa using hgrow.trans_lt hj)
      rw [pow_zero, mul_one] at hfirst
      refine hfirst.mpr (Or.inr ?_)
      exact (Int.natCast_dvd_natCast.mpr (Dvd.intro _ rfl)).trans hdvd
  intro j hj
  refine ⟨hlast j hj, fun hle => ?_⟩
  have hup := hlast i hi htake
  rw [mul_assoc, ← pow_succ] at hle hup
  have h1 : i < j + 1 :=
    (Nat.pow_lt_pow_iff_right hk).mp (Nat.lt_of_mul_lt_mul_left (hi.trans_le hle))
  have h2 : j < i + 1 :=
    (Nat.pow_lt_pow_iff_right hk).mp (Nat.lt_of_mul_lt_mul_left (hj.trans_le hup))
  obtain rfl : i = j := by omega
  exact htake

section Job

variable {args : MsortArgs} {schema : Schema} {env : Env} {n : ℕ} {job : Job}

/-- INTERNAL: the first runs have at least one record. -/
theorem Accepted.initialRunLength_pos (h : Accepted args schema) :
    1 ≤ initialRunLength args schema := by
  have hmem := h.memory
  exact Nat.div_pos (by omega) h.size_pos

/-- INTERNAL: `k` as a natural number. -/
theorem JobOf.k_cast (h : Accepted args schema) (hjob : JobOf args schema env n job) :
    job.k = args.k.toInt.toNat := by
  have hk := h.two_le
  rw [hjob.k_eq]
  omega

/-- INTERNAL: the records that have room in a buffer of the job. -/
theorem JobOf.bufferRecords_eq (hjob : JobOf args schema env n job) :
    job.bufSize / job.schema.recordSize = bufferRecords args schema := by
  rw [hjob.buf_eq, hjob.schema_eq]
  rfl

/-- INTERNAL: a buffer has room for a record if it has room for at least one. -/
theorem JobOf.room_iff (h : Accepted args schema) (hjob : JobOf args schema env n job) :
    job.schema.recordSize ≤ job.bufSize ↔ 1 ≤ bufferRecords args schema := by
  rw [← hjob.bufferRecords_eq, Nat.one_le_div_iff (by rw [hjob.schema_eq]; exact h.size_pos)]

/-- INTERNAL: the merges of the job return with room for a record, and in clear memory. -/
theorem JobOf.ready (h : Accepted args schema) (hjob : JobOf args schema env n job)
    (hroom : 1 ≤ bufferRecords args schema ∨ env = zeroEnv) : Ready job := by
  have hlt := args.memCapacity.toInt_lt
  have hmem := h.memory
  refine ⟨?_, ?_, ?_, ?_, hroom.imp (fun hone => ?_) fun hzero j i => ?_⟩
  · rw [hjob.buf_eq]
    exact (Nat.div_le_self _ _).trans_lt (by omega)
  · rw [hjob.schema_eq]
    exact h.size_pos
  · rw [hjob.schema_eq]
    exact h.size_lt
  · rw [hjob.schema_eq]
    exact h.inside
  · have hsize := h.size_pos
    rw [← hjob.schema_eq] at hsize
    exact hsize.trans_le ((hjob.room_iff h).mpr hone)
  · rw [hjob.env_eq, hzero]
    rfl

/-- INTERNAL: a share is not larger than the stack array. -/
theorem JobOf.buffer_le (hjob : JobOf args schema env n job) :
    job.bufSize ≤ (stackBuffer env args.memCapacity.toInt.toNat).length := by
  rw [hjob.buf_eq, length_stackBuffer]
  exact Nat.div_le_self _ _

/-- INTERNAL: removing the scratch files leaves the others. -/
theorem cleaned_of_ne {fs : FileSystem} {name : String} (h1 : name ≠ "tmp_file")
    (h2 : name ≠ "tmp_file2") : cleaned fs name = fs name := by
  rw [cleaned, Function.update_of_ne h2, Function.update_of_ne h1]

end Job

section Exact

variable {args : MsortArgs} {schema : Schema} {records : List Record} {fs : FileSystem}

/-- INTERNAL: the records `main` reads.  An input file called `tmp_file` is empty by then.
SRCLINE: msort.cc:57-58 -/
def readRecords (args : MsortArgs) (records : List Record) : List Record :=
  if args.inputFile = "tmp_file" then [] else records

/-- INTERNAL: `main` reads all records or none. -/
theorem readRecords_sublist (args : MsortArgs) (records : List Record) :
    (readRecords args records).Sublist records := by
  unfold readRecords
  split_ifs
  · exact List.nil_sublist records
  · exact List.Sublist.refl records

/-- INTERNAL: the bytes `main` reads are those of the records it reads. -/
theorem flatten_readRecords (args : MsortArgs) (records : List Record) :
    (if args.inputFile = "tmp_file" then [] else records.flatten) =
      (readRecords args records).flatten := by
  unfold readRecords
  split_ifs <;> rfl

/-- INTERNAL: a run of `main` that has returned, and the end of its loop. -/
structure Run (args : MsortArgs) (schema : Schema) (records : List Record) (fs : FileSystem)
    (env : Env) (fs₁ : FileSystem) (job : Job) (runs : List Record) (fuel j : ℕ) (c : Control)
    (buf : List Byte) : Prop where
  job_of : JobOf args schema env (readRecords args records).length job
  runs_of : RunsOf schema (initialRunLength args schema) (readRecords args records) runs
  reached : Reaches job fuel ⟨initialRunLength args schema, false⟩
    (Function.update fs "tmp_file" (some runs.flatten))
    (stackBuffer env args.memCapacity.toInt.toNat) j c fs₁ buf
  done : job.numRecords ≤ c.runLength

/-- INTERNAL: every run of `main` that returns comes to the end of its loop. -/
theorem Accepted.run_of_msort (h : Accepted args schema)
    (hplain : PlainRecords schema.recordSize records)
    (hsmall : records.length * schema.recordSize < 2 ^ 31)
    (hin : fs args.inputFile = some records.flatten) {env : Env} {fuel code : ℕ} {fs' : FileSystem}
    (hrun : msort fuel env args fs = some (code, fs')) :
    ∃ fs₁ job runs j c buf, Run args schema records fs env fs₁ job runs fuel j c buf ∧
      fs' = cleaned fs₁ := by
  have hsub := readRecords_sublist args records
  obtain ⟨job, runs, hjob, hof, hruns, -⟩ := h.main (hplain.sublist hsub)
    ((Nat.mul_le_mul_right _ hsub.length_le).trans_lt hsmall) hin
    (flatten_readRecords args records) env
  obtain ⟨fs₁, hmerge, rfl⟩ := hruns fuel code fs' hrun
  obtain ⟨j, c, buf, hreach, hdone⟩ := Reaches.of_mergePasses .start hmerge
  exact ⟨fs₁, job, runs, j, c, buf, ⟨hjob, hof, hreach, hdone⟩, rfl⟩

/-- INTERNAL: **`main` returns** if the schema can be printed, its passes have runs to merge and the
first leaves a file for the second to read.
SRCLINE: msort.cc:28-115 -/
theorem Accepted.returns (h : Accepted args schema) (hnames : namesEnd schema)
    (hplain : PlainRecords schema.recordSize records)
    (hsmall : records.length * schema.recordSize < 2 ^ 31)
    (hin : fs args.inputFile = some records.flatten) {env : Env}
    (hready : ∀ {n : ℕ} {job : Job}, JobOf args schema env n job → Ready job)
    (hruns : ∀ i : ℕ, initialRunLength args schema * args.k.toInt.toNat ^ i <
        (readRecords args records).length →
      0 < numRuns (readRecords args records).length
        (initialRunLength args schema * args.k.toInt.toNat ^ i : ℕ))
    (hother : initialRunLength args schema * args.k.toInt.toNat <
        (readRecords args records).length →
      ¬ TakesOutput args.k.toInt.toNat (readRecords args records).length
        (initialRunLength args schema) ∨ args.outputFile = "tmp_file2") :
    ∃ fuel fs', msort fuel env args fs = some (0, fs') := by
  have hk := h.two_le
  have hL := h.initialRunLength_pos
  have hsub := readRecords_sublist args records
  obtain ⟨job, runs, hjob, -, -, hmsort⟩ := h.main (hplain.sublist hsub)
    ((Nat.mul_le_mul_right _ hsub.length_le).trans_lt hsmall) hin
    (flatten_readRecords args records) env
  suffices hmerge : ∃ fuel fs', job.mergePasses fuel fuel 0 _ _ _ = some fs' by
    obtain ⟨fuel, fs₁, hmerge⟩ := hmerge
    obtain ⟨fuel', hrun⟩ := hmsort fuel fs₁ hmerge hnames
    exact ⟨fuel', _, hrun⟩
  refine (hready hjob).mergePasses_returns (by rw [hjob.k_eq]; exact hk) 0
    (show (1 : ℤ) ≤ (initialRunLength args schema : ℕ) by omega) hjob.buffer_le ?_ ?_ ?_
  · intro i hi
    dsimp only at hi ⊢
    rw [mul_pow_eq_cast (hjob.k_cast h), hjob.num_eq] at hi ⊢
    exact hruns i (by exact_mod_cast hi)
  · rw [show scratch false = "tmp_file" from rfl, Function.update_self]
    exact Option.some_ne_none _
  · intro hmore
    right
    rw [hjob.k_cast h, hjob.num_eq] at hmore
    dsimp only at hmore
    have hpass := hother (by exact_mod_cast hmore)
    rw [← hjob.k_cast h, ← hjob.num_eq] at hpass
    by_cases htake : TakesOutput job.k job.numRecords (initialRunLength args schema)
    · rw [writeFilename_eq_outputFile (c := ⟨initialRunLength args schema, false⟩) htake,
        hjob.output_eq]
      exact hpass.resolve_left (not_not.mpr htake)
    · exact writeFilename_eq_scratch htake

/-- INTERNAL: **passes that fit sort**, in every memory, and `main` returns.
SRCLINE: msort.cc:57-115 -/
theorem SizesFit.sorts (h : Accepted args schema)
    (hplain : PlainRecords schema.recordSize records)
    (hsmall : records.length * schema.recordSize < 2 ^ 31)
    (hin : fs args.inputFile = some records.flatten) (hname : args.inputFile ≠ "tmp_file")
    (h1 : args.outputFile ≠ "tmp_file") (h2 : args.outputFile ≠ "tmp_file2")
    (hfit : SizesFit args.k.toInt.toNat records.length (initialRunLength args schema)
      (bufferRecords args schema)) :
    Sorts args schema records fs ∧
      (namesEnd schema → ∀ env, ∃ fuel fs', msort fuel env args fs = some (0, fs')) := by
  have hk := h.two_le
  have hL := h.initialRunLength_pos
  have hread : readRecords args records = records := if_neg hname
  constructor
  · intro env fuel fs' hrun
    obtain ⟨fs₁, job, runs, j, c, buf, ⟨hjob, hof, hreach, hdone⟩, rfl⟩ :=
      h.run_of_msort hplain hsmall hin hrun
    rw [hread] at hjob hof
    have hsorted := hreach.sorted (hjob.ready h (Or.inl hfit.2.1)) ((hjob.room_iff h).mpr hfit.2.1)
      (hjob.k_cast h) hjob.num_eq (by omega) hL (hjob.output_eq ▸ h1) (hjob.output_eq ▸ h2)
      (hjob.bufferRecords_eq ▸ hfit) (hjob.schema_eq ▸ hplain) rfl (hjob.schema_eq ▸ hof)
      hjob.buffer_le (Function.update_self ..) hdone
    rwa [cleaned_of_ne h1 h2, ← hjob.schema_eq, ← hjob.output_eq]
  · intro hnames env
    apply h.returns hnames hplain hsmall hin fun hjob => hjob.ready h (Or.inl hfit.2.1)
    · intro i hi
      rw [hread] at hi ⊢
      obtain ⟨hcover, -, -⟩ := hfit.2.2 i hi
      by_contra hneg
      have hprod := mul_nonpos_of_nonpos_of_nonneg (not_lt.mp hneg)
        (Int.natCast_nonneg (initialRunLength args schema * args.k.toInt.toNat ^ i))
      omega
    · intro hmore
      rw [hread] at hmore ⊢
      left
      intro htake
      have hfirst := (hfit.2.2 0 (by simpa using hfit.1)).2.1
      rw [pow_zero, mul_one] at hfirst
      exact absurd hmore (not_lt.mpr (hfirst.mp htake))

/-- INTERNAL: in clear memory `main` returns, unless its first pass takes the output too
early and leaves nothing for the second to read. -/
theorem Accepted.exists_run (h : Accepted args schema) (hnames : namesEnd schema)
    (hplain : PlainRecords schema.recordSize records)
    (hsmall : records.length * schema.recordSize < 2 ^ 31)
    (hin : fs args.inputFile = some records.flatten) (hn : records.length < 2 ^ 24)
    (hearly : ¬ (args.inputFile ≠ "tmp_file" ∧ args.outputFile ≠ "tmp_file2" ∧
      initialRunLength args schema * args.k.toInt.toNat < records.length ∧
      TakesOutput args.k.toInt.toNat records.length (initialRunLength args schema))) :
    ∃ fuel fs', msort fuel zeroEnv args fs = some (0, fs') := by
  have hk := h.two_le
  have hL := h.initialRunLength_pos
  have hlen := (readRecords_sublist args records).length_le
  apply h.returns hnames hplain hsmall hin fun hjob => hjob.ready h (Or.inr rfl)
  · intro i hi
    have hpos := one_le_mul_pow (show 2 ≤ args.k.toInt.toNat by omega) hL i
    exact (numRuns_bounds (by omega) (by exact_mod_cast hi) (by omega)).1
  · intro hmore
    have hname : args.inputFile ≠ "tmp_file" := by
      intro hname
      rw [readRecords, if_pos hname] at hmore
      exact absurd hmore (Nat.not_lt_zero _)
    rw [readRecords, if_neg hname] at hmore ⊢
    by_contra hboth
    obtain ⟨htake, hout⟩ := not_or.mp hboth
    exact hearly ⟨hname, hout, hmore, not_not.mp htake⟩

/-- INTERNAL: a file with the sorted records has their bytes. -/
theorem SortedFile.length_eq {size : ℕ} (hplain : PlainRecords size records) {x : List Byte}
    (h : SortedFile schema records (some x)) : x.length = size * records.length := by
  obtain ⟨sorted, hx, hperm, -⟩ := h
  rw [Option.some.inj hx, length_flatten_of_size (hplain.perm hperm).length_eq, hperm.length_eq]

section Run

variable {env : Env} {fs₁ : FileSystem} {job : Job} {runs : List Record} {fuel j : ℕ} {c : Control}
  {buf : List Byte}

/-- INTERNAL: a run whose passes never take the output leaves it as it was. -/
theorem Run.output_unchanged (h : Accepted args schema)
    (hrun : Run args schema records fs env fs₁ job runs fuel j c buf)
    (h1 : args.outputFile ≠ "tmp_file") (h2 : args.outputFile ≠ "tmp_file2")
    (hnone : args.inputFile = "tmp_file" ∨ ∀ j : ℕ,
      initialRunLength args schema * args.k.toInt.toNat ^ j < records.length →
      ¬ TakesOutput args.k.toInt.toNat records.length
        (initialRunLength args schema * args.k.toInt.toNat ^ j : ℕ)) :
    fs₁ args.outputFile = fs args.outputFile := by
  have hjob := hrun.job_of
  have hsame := hrun.reached.output_unchanged (hjob.output_eq ▸ h1) (hjob.output_eq ▸ h2) (by
    intro j hj
    rw [mul_pow_eq_cast (hjob.k_cast h), hjob.num_eq] at hj ⊢
    rw [hjob.k_cast h]
    by_cases hname : args.inputFile = "tmp_file"
    · rw [readRecords, if_pos hname] at hj
      exact absurd hj (not_lt.mpr (Int.natCast_nonneg _))
    · rw [readRecords, if_neg hname] at hj ⊢
      exact hnone.resolve_left hname j (by exact_mod_cast hj))
  rwa [hjob.output_eq, Function.update_of_ne h1] at hsame

/-- INTERNAL: a run in clear memory that is routed well and leaves the records sorted in the
output had room for a record and never over-read. -/
theorem Run.sizesFit (h : Accepted args schema) (hplain : PlainRecords schema.recordSize records)
    (hn : records.length < 2 ^ 24)
    (hrun : Run args schema records fs zeroEnv fs₁ job runs fuel j c buf)
    (hname : args.inputFile ≠ "tmp_file")
    (h1 : args.outputFile ≠ "tmp_file") (h2 : args.outputFile ≠ "tmp_file2")
    (hlt : initialRunLength args schema < records.length)
    (htest : ∀ j : ℕ, initialRunLength args schema * args.k.toInt.toNat ^ j < records.length →
      (TakesOutput args.k.toInt.toNat records.length
        (initialRunLength args schema * args.k.toInt.toNat ^ j : ℕ) ↔
        records.length ≤ initialRunLength args schema * args.k.toInt.toNat ^ j *
          args.k.toInt.toNat))
    (hsorted : SortedFile schema records (fs₁ args.outputFile)) :
    SizesFit args.k.toInt.toNat records.length (initialRunLength args schema)
      (bufferRecords args schema) := by
  have hk := h.two_le
  have hk2 : 2 ≤ args.k.toInt.toNat := by omega
  have hL := h.initialRunLength_pos
  have hjob := hrun.job_of
  have hof := hrun.runs_of
  rw [readRecords, if_neg hname] at hjob hof
  have hready := hjob.ready h (Or.inr rfl)
  have hout1 : job.outputFile ≠ "tmp_file" := hjob.output_eq ▸ h1
  have hout2 : job.outputFile ≠ "tmp_file2" := hjob.output_eq ▸ h2
  have hroute := routed_of_tests (hjob.k_cast h) hjob.num_eq hout1 hout2 htest
  have hroom : 1 ≤ bufferRecords args schema := by
    by_contra hno
    have hempty := hrun.reached.empty hready
      (not_le.mp fun hle => hno ((hjob.room_iff h).mp hle)) (hjob.k_cast h) hk2 hL hroute
      (by rw [hjob.num_eq]; exact_mod_cast hlt) hjob.buffer_le (Function.update_self ..) hrun.done
    rw [hjob.output_eq] at hempty
    rw [hempty] at hsorted
    have hzero := hsorted.length_eq hplain
    have hpos : 0 < schema.recordSize * records.length := Nat.mul_pos h.size_pos (by omega)
    rw [List.length_nil] at hzero
    omega
  refine ⟨hlt, hroom, fun i hi => ⟨?_, htest i hi, ?_⟩⟩
  · have hpos := one_le_mul_pow hk2 hL i
    exact (numRuns_bounds (by omega) (by exact_mod_cast hi) (by exact_mod_cast hn)).2.2
  · by_contra hover
    rw [← hjob.bufferRecords_eq] at hover
    obtain ⟨data, hdata, hmore, hfile⟩ := hrun.reached.overRead hready
      ((hjob.room_iff h).mpr hroom) (hjob.k_cast h) hjob.num_eq hk2 hL hroute hn
      (hjob.schema_eq ▸ hplain.perm hof.perm) hof.perm.length_eq hjob.buffer_le
      (Function.update_self ..) hi hover hrun.done
    rw [hjob.output_eq] at hfile
    rw [hfile] at hsorted
    have hlength := hsorted.length_eq hplain
    rw [length_flatten_of_size hdata.length_eq, hjob.schema_eq] at hlength
    have hsame := Nat.eq_of_mul_eq_mul_left h.size_pos hlength
    omega

end Run

/-- SOURCE: msort.cc:12-115, library.cc:90-297 — **when the merge sort sorts.**  For every
accepted command line and every input file of complete records below two gigabytes:

- if the sizes fit and no file is called like a scratch file, `main` leaves the records sorted in
  the output file whenever it returns `0`, and it does return `0` in every memory if the
  attribute names end in their buffers, so that it can print the schema;
- below `2 ^ 24` records, and without a stale `tmp_file2`, that is the only way in which
  it does its work.  Else, whenever it returns `0`, the output file holds the sorted records
  only if it did before; and it never returns if the first of several passes takes
  the output file and leaves no file to the second, or if a name does not end. -/
theorem msort_sorts_iff (args : MsortArgs) (schema : Schema) (h : Accepted args schema)
    (records : List Record) (hplain : PlainRecords schema.recordSize records)
    (hsmall : records.length * schema.recordSize < 2 ^ 31) (fs : FileSystem)
    (hin : fs args.inputFile = some records.flatten) :
    (args.inputFile ≠ "tmp_file" → args.outputFile ≠ "tmp_file" →
      args.outputFile ≠ "tmp_file2" →
      SizesFit args.k.toInt.toNat records.length (initialRunLength args schema)
        (bufferRecords args schema) →
      Sorts args schema records fs ∧
        (namesEnd schema → ∀ env, ∃ fuel fs', msort fuel env args fs = some (0, fs'))) ∧
    (records.length < 2 ^ 24 → fs "tmp_file2" = none →
      (Sorts args schema records fs ↔
        (args.outputFile ≠ "tmp_file" ∧ args.outputFile ≠ "tmp_file2" ∧
          (args.inputFile ≠ "tmp_file" ∧
              SizesFit args.k.toInt.toNat records.length (initialRunLength args schema)
                (bufferRecords args schema) ∨
            (args.inputFile = "tmp_file" ∨ ∀ j : ℕ,
              initialRunLength args schema * args.k.toInt.toNat ^ j < records.length →
              ¬ TakesOutput args.k.toInt.toNat records.length
                (initialRunLength args schema * args.k.toInt.toNat ^ j : ℕ)) ∧
              SortedFile schema records (fs args.outputFile))) ∨
        (args.inputFile ≠ "tmp_file" ∧ args.outputFile ≠ "tmp_file2" ∧
          initialRunLength args schema * args.k.toInt.toNat < records.length ∧
          TakesOutput args.k.toInt.toNat records.length (initialRunLength args schema)) ∨
        ¬ namesEnd schema)) := by
  refine ⟨fun hname h1 h2 hfit => hfit.sorts h hplain hsmall hin hname h1 h2, ?_⟩
  intro hn hmissing
  have hk := h.two_le
  have hL := h.initialRunLength_pos
  constructor
  · intro hsorts
    by_cases hearly : args.inputFile ≠ "tmp_file" ∧ args.outputFile ≠ "tmp_file2" ∧
        initialRunLength args schema * args.k.toInt.toNat < records.length ∧
        TakesOutput args.k.toInt.toNat records.length (initialRunLength args schema)
    · exact Or.inr (Or.inl hearly)
    by_cases hnames : namesEnd schema
    swap
    · exact Or.inr (Or.inr hnames)
    left
    obtain ⟨fuel, fs', hmsort⟩ := h.exists_run hnames hplain hsmall hin hn hearly
    have hsorted := hsorts zeroEnv fuel fs' hmsort
    obtain ⟨fs₁, job, runs, j, c, buf, hrun, rfl⟩ := h.run_of_msort hplain hsmall hin hmsort
    have h1 : args.outputFile ≠ "tmp_file" := by
      intro hout
      obtain ⟨_, hnone, -⟩ := hsorted
      rw [hout] at hnone
      cases hnone
    have h2 : args.outputFile ≠ "tmp_file2" := by
      intro hout
      obtain ⟨_, hnone, -⟩ := hsorted
      rw [hout] at hnone
      cases hnone
    rw [cleaned_of_ne h1 h2] at hsorted
    refine ⟨h1, h2, ?_⟩
    by_cases hnone : args.inputFile = "tmp_file" ∨ ∀ j : ℕ,
        initialRunLength args schema * args.k.toInt.toNat ^ j < records.length →
        ¬ TakesOutput args.k.toInt.toNat records.length
          (initialRunLength args schema * args.k.toInt.toNat ^ j : ℕ)
    · exact Or.inr ⟨hnone, hrun.output_unchanged h h1 h2 hnone ▸ hsorted⟩
    · push Not at hnone
      obtain ⟨hname, i, hi, htake⟩ := hnone
      have hlt := (Nat.le_mul_of_pos_right (initialRunLength args schema)
        (Nat.pow_pos (show 0 < args.k.toInt.toNat by omega))).trans_lt hi
      refine Or.inl ⟨hname, hrun.sizesFit h hplain hn hname h1 h2 hlt ?_ hsorted⟩
      exact tests_of_takesOutput (by omega) hL hn
        (fun hfirst => hearly ⟨hname, h2, hfirst.1, hfirst.2⟩) hi htake
  · rintro (⟨h1, h2, ⟨hname, hfit⟩ | ⟨hnone, hsorted⟩⟩ | ⟨hname, h2, hmore, htake⟩ | hnames)
    · exact (hfit.sorts h hplain hsmall hin hname h1 h2).1
    · intro env fuel fs' hmsort
      obtain ⟨fs₁, job, runs, j, c, buf, hrun, rfl⟩ := h.run_of_msort hplain hsmall hin hmsort
      rw [cleaned_of_ne h1 h2, hrun.output_unchanged h h1 h2 hnone]
      exact hsorted
    · intro env fuel fs' hmsort
      exfalso
      obtain ⟨fs₁, job, runs, j, c, buf, hrun, rfl⟩ := h.run_of_msort hplain hsmall hin hmsort
      have hjob := hrun.job_of
      rw [readRecords, if_neg hname] at hjob
      refine absurd hrun.done (not_le.mpr (hrun.reached.unfinished_of_missing ?_ ?_ ?_ ?_ ?_ ?_))
      · rw [hjob.k_eq]
        exact hk
      · exact_mod_cast hL
      · rw [hjob.k_cast h, hjob.num_eq]
        exact_mod_cast hmore
      · rw [hjob.k_cast h, hjob.num_eq]
        exact htake
      · rw [hjob.output_eq]
        exact h2
      · rw [Function.update_of_ne (by decide)]
        exact hmissing
    · intro env fuel fs' hmsort
      rw [msort_eq_sortFile h, if_neg hnames] at hmsort
      cases hmsort

end Exact

/-- Six letters, last to first, with memory for three: two full runs, merged in one pass. -/
theorem msort_sorts_six :
    Sorts (letterCommand 6) letterSchema (letters 6).reverse (inputOnly (letters 6).reverse) ∧
      ∀ env, ∃ fuel fs', msort fuel env (letterCommand 6) (inputOnly (letters 6).reverse) =
        some (0, fs') := by
  have hplain := (letters_plain 6 (by decide +kernel)).perm (List.reverse_perm _)
  have hfit : SizesFit 2 6 3 1 := by
    refine ⟨by decide, by decide, fun j hj => ?_⟩
    match j with
    | 0 => decide +kernel
    | j + 1 =>
      have hpow : 1 ≤ 2 ^ j := Nat.one_le_two_pow
      rw [pow_succ] at hj
      omega
  obtain ⟨hreturns, hexact⟩ := msort_sorts_iff (letterCommand 6) letterSchema
    letterCommand_accepted _ hplain (by decide) (inputOnly (letters 6).reverse) rfl
  exact ⟨(hexact (by decide) rfl).mpr (Or.inl ⟨by decide, by decide, Or.inl ⟨by decide, hfit⟩⟩),
    (hreturns (by decide) (by decide) (by decide) hfit).2 (by decide +kernel)⟩

/-- Four letters with memory for three: two runs are not fewer than `k`, so the only pass
writes to a scratch file.  `main` returns `0`, and there is no output file. -/
theorem msort_four_fails :
    Accepted (letterCommand 6) letterSchema ∧ PlainRecords letterSchema.recordSize (letters 4) ∧
      (letters 4).length * letterSchema.recordSize < 2 ^ 31 ∧
      inputOnly (letters 4) (letterCommand 6).inputFile = some (letters 4).flatten ∧
      ¬ Sorts (letterCommand 6) letterSchema (letters 4) (inputOnly (letters 4)) := by
  have haccept := letterCommand_accepted
  have hplain := letters_plain 4 (by decide +kernel)
  refine ⟨haccept, hplain, by decide, rfl, fun hsorts => ?_⟩
  obtain ⟨fuel, fs', hmsort⟩ := haccept.exists_run (by decide +kernel) hplain (by decide)
    (show inputOnly (letters 4) _ = _ from rfl) (by decide) fun hearly => absurd hearly.2.2.1 (by decide)
  have hsorted := hsorts zeroEnv fuel fs' hmsort
  obtain ⟨fs₁, job, runs, j, c, buf, hrun, rfl⟩ :=
    haccept.run_of_msort hplain (by decide) rfl hmsort
  rw [cleaned_of_ne (by decide) (by decide), hrun.output_unchanged haccept (by decide) (by decide)]
    at hsorted
  · obtain ⟨_, hnone, -⟩ := hsorted
    cases hnone
  · right
    intro j hj
    match j with
    | 0 => decide +kernel
    | j + 1 =>
      have hpow : 1 ≤ 2 ^ j := Nat.one_le_two_pow
      have hj' : 3 * 2 ^ (j + 1) < 4 := hj
      rw [pow_succ] at hj'
      omega

end ExternalSort.Analysis
