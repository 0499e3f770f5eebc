import ExternalSort.Analysis.MsortPrepare

/-!
# The number of passes

The run length is multiplied by `k` in every pass, so the loop makes as many passes as it
takes to bring it up to the number of records, if it gets there: `map_runLength_passes` lists
their run lengths, and `Ready.mergePasses_returns_iff` says when the loop returns.  It does not if
the first of several passes takes the output file, because then the second finds no file
to read.
-/

set_option autoImplicit false

namespace ExternalSort.Analysis

open ExternalSort.Lib ExternalSort.Model

section Count

variable {outputFile : String} {k n L : ℤ} {p : ℕ}

/-- INTERNAL: the powers below the least one that is enough. -/
theorem mul_pow_lt_iff (hk : 2 ≤ k) (hL : 1 ≤ L) (hp : IsLeast {p : ℕ | n ≤ L * k ^ p} p)
    (j : ℕ) : L * k ^ j < n ↔ j < p := by
  constructor
  · intro hlt
    by_contra hle
    have hpow : k ^ p ≤ k ^ j := pow_le_pow_right₀ (by omega) (not_lt.mp hle)
    have hmul := mul_le_mul_of_nonneg_left hpow (show 0 ≤ L by omega)
    have hend : n ≤ L * k ^ p := hp.1
    omega
  · intro hlt
    by_contra hle
    exact absurd (hp.2 (not_lt.mp hle)) (not_le.mpr hlt)

/-- INTERNAL: the run length comes up to any number. -/
theorem exists_isLeast_mul_pow (hk : 2 ≤ k) (hL : 1 ≤ L) (n : ℤ) :
    ∃ p, IsLeast {p : ℕ | n ≤ L * k ^ p} p := by
  have hgrow : n ≤ L * k ^ n.toNat := by
    have hpow : (n.toNat : ℤ) < 2 ^ n.toNat := by exact_mod_cast Nat.lt_two_pow_self
    have hbase : (2 : ℤ) ^ n.toNat ≤ k ^ n.toNat := pow_le_pow_left₀ (by decide) hk _
    have hmul := le_mul_of_one_le_left (show 0 ≤ k ^ n.toNat by omega) hL
    omega
  have hex : ∃ p : ℕ, n ≤ L * k ^ p := ⟨_, hgrow⟩
  exact ⟨Nat.find hex, Nat.find_spec hex, fun _ => Nat.find_min' hex⟩

/-- INTERNAL: **the passes, by their run lengths.**  More fuel makes no more passes.  The
induction is on the number of passes still to come.
SRCLINE: msort.cc:71-99 -/
theorem map_runLength_passes {c : Control}
    (hp : ∀ j : ℕ, c.runLength * k ^ j < n ↔ j < p) {fuel : ℕ} (hfuel : p ≤ fuel) :
    (passes outputFile k n fuel c).map Pass.runLength =
      (List.range p).map fun j => c.runLength * k ^ j := by
  induction p generalizing c fuel with
  | zero =>
    have hend := (hp 0).not.mpr (Nat.lt_irrefl 0)
    rw [pow_zero, mul_one, not_lt] at hend
    rw [passes_eq_nil hend]
    rfl
  | succ p ih =>
    obtain ⟨fuel, rfl⟩ : ∃ m, fuel = m + 1 := ⟨fuel - 1, by omega⟩
    have hlt := (hp 0).mpr (Nat.succ_pos p)
    rw [pow_zero, mul_one] at hlt
    have hrest := @ih (c.next k) (fun j => by rw [next_mul_pow, hp, Nat.succ_lt_succ_iff]) fuel
      (by omega)
    rw [passes_eq_cons hlt, List.map_cons, hrest, List.range_succ_eq_map, List.map_cons,
      List.map_map, runLength_pass, pow_zero, mul_one]
    simp only [next_mul_pow]
    rfl

/-- INTERNAL: no run length the loop computes is too long for a `long`: the one before it
was below the number of records.
SRCLINE: msort.cc:98 -/
theorem mul_pow_lt_long (hk : k < 2 ^ 31) (hk0 : 0 < k) (hL : L < 2 ^ 63) (hn : n < 2 ^ 31)
    (hp : ∀ j : ℕ, L * k ^ j < n ↔ j < p) {j : ℕ} (hj : j ≤ p) : L * k ^ j < 2 ^ 63 := by
  cases j with
  | zero => rwa [pow_zero, mul_one]
  | succ j =>
    have hlt := (hp j).mpr hj
    calc L * k ^ (j + 1) = L * k ^ j * k := by rw [pow_succ, mul_assoc]
      _ ≤ 2 ^ 31 * k := mul_le_mul_of_nonneg_right (by omega) hk0.le
      _ < 2 ^ 63 := by omega

end Count

/-! ## The loop -/

/-- The loop of passes returns, and it has made exactly `p` passes by then.
SRCLINE: msort.cc:71-99 -/
def ReturnsAfter (job : Job) (L : ℤ) (fs : FileSystem) (buf : List Byte) (p : ℕ) : Prop :=
  ∃ fuel ps fs', job.mergePasses fuel fuel 0 ⟨L, false⟩ fs buf = some fs' ∧
    Makes job fuel 0 ⟨L, false⟩ fs buf ps fs' ∧ ps.length = p

section Loop

variable {job : Job} {L : ℤ} {fs : FileSystem} {buf : List Byte} {p : ℕ}

/-- INTERNAL: **a loop that returns has made `p` passes**, and the loop returns if it does so with
any number of passes. -/
theorem Makes.length_eq (hp : ∀ j : ℕ, L * job.k ^ j < job.numRecords ↔ j < p) {fuel : ℕ}
    {ps : List Pass} {fs' : FileSystem} (h : Makes job fuel 0 ⟨L, false⟩ fs buf ps fs') :
    ps.length = p := by
  have hall := h.eq_passes (le_max_left ps.length p)
  have hlen := congrArg List.length (@map_runLength_passes job.outputFile job.k job.numRecords p
    ⟨L, false⟩ hp _ (le_max_right ps.length p))
  rw [← hall] at hlen
  simpa using hlen

/-- INTERNAL: the loop returns after `p` passes if it returns. -/
theorem returnsAfter_iff (hp : ∀ j : ℕ, L * job.k ^ j < job.numRecords ↔ j < p) :
    ReturnsAfter job L fs buf p ↔
      ∃ fuel fs', job.mergePasses fuel fuel 0 ⟨L, false⟩ fs buf = some fs' := by
  constructor
  · rintro ⟨fuel, ps, fs', hrun, -, -⟩
    exact ⟨fuel, fs', hrun⟩
  · rintro ⟨fuel, fs', hrun⟩
    obtain ⟨ps, -, hmakes⟩ := mergePasses_eq_some_iff.mp hrun
    exact ⟨fuel, ps, fs', hrun, hmakes, hmakes.length_eq hp⟩

/-- INTERNAL: **when the loop returns**: there is no pass to make, or the first pass has runs, and if
there is a second one, it finds a file to read.
SRCLINE: msort.cc:71-99 -/
theorem Ready.mergePasses_returns_iff (hready : Ready job) (hk : 2 ≤ job.k) (hL : 1 ≤ L)
    (hbuf : job.bufSize ≤ buf.length) (hruns : fs "tmp_file" ≠ none) :
    (∃ fuel fs', job.mergePasses fuel fuel 0 ⟨L, false⟩ fs buf = some fs') ↔
      job.numRecords ≤ L ∨ (0 < numRuns job.numRecords L ∧ (job.numRecords ≤ L * job.k ∨
        fs "tmp_file2" ≠ none ∨ job.outputFile = "tmp_file2" ∨
        ¬ TakesOutput job.k job.numRecords L)) := by
  constructor
  · rintro ⟨fuel, fs', hrun⟩
    obtain ⟨ps, -, hmakes⟩ := mergePasses_eq_some_iff.mp hrun
    cases hmakes with
    | done hdone => exact Or.inl hdone
    | pass hlt hfirst hrest =>
      refine Or.inr ⟨(runPass_eq_some hfirst).1, ?_⟩
      by_contra hneither
      simp only [not_or, not_le, not_not] at hneither
      obtain ⟨hmore, hmissing, hname, htake⟩ := hneither
      obtain ⟨j, c, buf', hreach, hdone⟩ := Reaches.of_mergePasses .start hrun
      exact absurd hdone
        (not_le.mpr (hreach.unfinished_of_missing hk hL hmore htake hname hmissing))
  · rintro (hdone | ⟨hpos, hcond⟩)
    · exact ⟨1, fs, if_neg (not_lt.mpr hdone)⟩
    · refine hready.mergePasses_returns hk 0 hL hbuf (fun i hi => ?_) hruns fun hmore => ?_
      · have hle : L ≤ L * job.k ^ i := le_mul_of_one_le_right (by omega) (one_le_pow₀ (by omega))
        exact (numRuns_antitone (by omega) hle (by dsimp only at hi; omega) hpos).1
      · dsimp only at hmore
        rcases hcond with hlast | hthere | hname | hno
        · exact absurd hmore (not_lt.mpr hlast)
        · exact Or.inl hthere
        · by_cases htake : TakesOutput job.k job.numRecords L
          · exact Or.inr ((writeFilename_eq_outputFile (c := ⟨L, false⟩) htake).trans hname)
          · exact Or.inr (writeFilename_eq_scratch (c := ⟨L, false⟩) htake)
        · exact Or.inr (writeFilename_eq_scratch (c := ⟨L, false⟩) hno)

end Loop

/-- The merges of `n` letters, `k` runs at a time, through buffers of one letter. -/
def letterJob (k n : ℤ) : Job where
  env := zeroEnv
  schema := letterSchema
  outputFile := "out"
  k := k
  numRecords := n
  bufSize := 2

/-- INTERNAL: the merges of letters return. -/
theorem letterJob_ready (k n : ℤ) : Ready (letterJob k n) where
  buf_lt := show 2 < 2 ^ 31 by decide
  size_pos := show 0 < 2 by decide
  size_lt := show 2 < 2 ^ 31 by decide
  inside := letterSchema_layout.inside (by decide)
  room := Or.inl (show 1 ≤ 2 by decide)

/-- A directory with nothing but runs of letters. -/
def runsOnly (n : ℕ) : FileSystem :=
  fun name => if name = "tmp_file" then some (letters n).flatten else none

end ExternalSort.Analysis
