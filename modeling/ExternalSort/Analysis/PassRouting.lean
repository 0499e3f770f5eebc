import ExternalSort.Analysis.RunCover

/-!
# Which files the passes read and write

A pass reads the scratch file its `flip` bit names.  Whether it writes the output file
or the other scratch file is decided by a test of its own (`TakesOutput`), which has to
come out as the loop's exit condition does.  `routing_iff` says for which numbers of records,
run lengths and `k` it does over all passes, also for an output file that is itself called
like a scratch file.
-/

set_option autoImplicit false

namespace ExternalSort.Analysis

open ExternalSort.Lib ExternalSort.Model

/-- The test by which a pass over runs of `runLength` records writes the output file.
SRCLINE: msort.cc:79 -/
def TakesOutput (k numRecords runLength : ℤ) : Prop :=
  numRuns numRecords runLength < k ∨ numRuns numRecords runLength * runLength = numRecords

/-- INTERNAL: it can be decided whether a pass goes to the output file. -/
instance (k numRecords runLength : ℤ) : Decidable (TakesOutput k numRecords runLength) :=
  inferInstanceAs (Decidable (_ ∨ _))

/-- The passes hand their files on: the first reads what `mk_runs` wrote, every later one
what the pass before it wrote, none writes the file it reads, and the output file is
written by the last pass and by no other.
SRCLINE: msort.cc:71-99 -/
structure RoutesWell (outputFile : String) (k numRecords : ℤ) (ps : List Pass) : Prop where
  first : ∀ p ∈ ps.head?, p.readFilename = "tmp_file"
  chain : ps.IsChain fun p q => q.readFilename = p.writeFilename
  apart : ∀ p ∈ ps, p.readFilename ≠ p.writeFilename
  output : ∀ p ∈ ps, p.writeFilename = outputFile ↔ numRecords ≤ p.runLength * k

/-! ## The test for the output file -/

/-- The test for the output file, in numbers: with `x` the quotient of the two operands rounded to
`float`, the rounded number of runs does not fit an `int` (and becomes negative), or is below `k`,
or is exactly the number of full runs there are.
SRCLINE: msort.cc:74, msort.cc:79 -/
def RoundsToOutput (k n R : ℤ) : Prop :=
  AboveMiddle 24 (float32 n / float32 R) (2 ^ 31 - 1) ∨
    ¬ AboveMiddle 24 (float32 n / float32 R) (k - 1) ∨
    (R ∣ n ∧ AboveMiddle 24 (float32 n / float32 R) (n / R - 1) ∧
      ¬ AboveMiddle 24 (float32 n / float32 R) (n / R))

/-- INTERNAL: it can be decided whether rounding takes a pass to the output file. -/
instance (k n R : ℤ) : Decidable (RoundsToOutput k n R) := inferInstanceAs (Decidable (_ ∨ _ ∨ _))

section Test

variable {k n R : ℤ}

/-- INTERNAL: below `2 ^ 24` records, the test for the output file says that there are
fewer than `k` runs or that all of them are full. -/
theorem takesOutput_iff (hR : 0 < R) (hlt : R < n) (hn : n < 2 ^ 24) :
    TakesOutput k n R ↔ n ≤ (k - 1) * R ∨ R ∣ n := by
  obtain ⟨-, hdown, hup⟩ := numRuns_bounds hR hlt hn
  unfold TakesOutput
  constructor
  · intro h
    cases h with
    | inl hfew => exact Or.inl (hup.trans (Int.mul_le_mul_of_nonneg_right (by omega) hR.le))
    | inr hfull => exact Or.inr (Dvd.intro_left _ hfull)
  · intro h
    cases h with
    | inl hfew =>
      have hlt : (numRuns n R - 1) * R < (k - 1) * R := hdown.trans_le hfew
      have := lt_of_mul_lt_mul_right hlt hR.le
      exact Or.inl (by omega)
    | inr hfull =>
      obtain ⟨q, rfl⟩ := hfull
      right
      rw [mul_comm R q] at hdown hup ⊢
      have h1 := lt_of_mul_lt_mul_right hdown hR.le
      have h2 := le_of_mul_le_mul_right hup hR
      have heq : numRuns (q * R) R = q := by omega
      rw [heq]

/-- INTERNAL: the test for the output file, for any number of records an `int` can hold. -/
theorem takesOutput_iff_rounds (hk : 2 ≤ k) (hR : 0 < R) (hlt : R < n) (hn : n < 2 ^ 31) :
    TakesOutput k n R ↔ RoundsToOutput k n R := by
  have hn0 : 0 < n := hR.trans hlt
  have hquot : R ∣ n → 2 ≤ n / R ∧ n / R < 2 ^ 31 ∧ n / R * R = n := by
    rintro ⟨q, rfl⟩
    rw [Int.mul_ediv_cancel_left _ hR.ne']
    refine ⟨by nlinarith, by nlinarith, mul_comm q R⟩
  have hceil : 0 < ⌈float32 (float32 n / float32 R)⌉ := (ceil_float32_antitone hR le_rfl hn0).1
  have htest : RoundsToOutput k n R ↔
      2 ^ 31 ≤ ⌈float32 (float32 n / float32 R)⌉ ∨ ⌈float32 (float32 n / float32 R)⌉ < k ∨
      (R ∣ n ∧ ⌈float32 (float32 n / float32 R)⌉ = n / R) := by
    unfold RoundsToOutput
    rw [← lt_ceil_float32_iff hR hn0 (by omega), ← lt_ceil_float32_iff hR hn0 (by omega)]
    refine or_congr (by omega) (or_congr (by omega) (and_congr_right fun hdvd => ?_))
    obtain ⟨htwo, -, -⟩ := hquot hdvd
    rw [← lt_ceil_float32_iff hR hn0 (by omega), ← lt_ceil_float32_iff hR hn0 (by omega)]
    omega
  rw [htest]
  generalize hc : ⌈float32 (float32 n / float32 R)⌉ = c at hceil
  have hruns : numRuns n R = if c < 2 ^ 31 then c else -2 ^ 31 := by
    rw [numRuns, hc, doubleToInt]
    split_ifs <;> omega
  have hfull : c * R = n ↔ R ∣ n ∧ c = n / R := by
    constructor
    · intro h
      have hdvd : R ∣ n := Dvd.intro_left c h
      exact ⟨hdvd, (Int.ediv_eq_of_eq_mul_left hR.ne' h.symm).symm⟩
    · rintro ⟨hdvd, rfl⟩
      exact (hquot hdvd).2.2
  unfold TakesOutput
  rw [hruns, ← hfull]
  split_ifs with hfits
  · omega
  · have hneg : (-2 ^ 31 : ℤ) < k := by omega
    simp only [hneg, true_or, true_iff]
    omega

end Test

/-! ## The passes -/

section Routing

variable {outputFile : String} {k numRecords : ℤ}

/-- INTERNAL: the run length of a pass. -/
theorem runLength_pass (c : Control) :
    (c.pass outputFile k numRecords).runLength = c.runLength := rfl

/-- INTERNAL: the file a pass reads. -/
theorem readFilename_pass (c : Control) :
    (c.pass outputFile k numRecords).readFilename =
      if c.flip then "tmp_file2" else "tmp_file" := rfl

/-- INTERNAL: the file a pass writes. -/
theorem writeFilename_pass (c : Control) :
    (c.pass outputFile k numRecords).writeFilename =
      if TakesOutput k numRecords c.runLength then outputFile
      else if c.flip then "tmp_file" else "tmp_file2" := rfl

/-- INTERNAL: a loop that makes no pass. -/
theorem passes_eq_nil {fuel : ℕ} {c : Control} (h : numRecords ≤ c.runLength) :
    passes outputFile k numRecords fuel c = [] := by
  cases fuel with
  | zero => rfl
  | succ fuel => simp only [passes, if_neg (not_lt.mpr h)]

/-- INTERNAL: a loop that makes a pass. -/
theorem passes_eq_cons {fuel : ℕ} {c : Control} (h : c.runLength < numRecords) :
    passes outputFile k numRecords (fuel + 1) c =
      c.pass outputFile k numRecords :: passes outputFile k numRecords fuel (c.next k) := by
  simp only [passes, if_pos h]

/-- INTERNAL: the run length grows with every pass, so fuel for the records that are left
above it is enough for all passes. -/
theorem sub_next_lt (numRecords : ℤ) (hk : 2 ≤ k) {c : Control} (hc : 1 ≤ c.runLength) :
    (numRecords - (c.next k).runLength).toNat ≤ (numRecords - c.runLength).toNat - 1 ∧
      1 ≤ (c.next k).runLength := by
  have hgrow : c.runLength + 1 ≤ c.runLength * k := by nlinarith
  simp only [Control.next]
  omega

/-- INTERNAL: the run lengths from the next pass on. -/
theorem next_mul_pow (c : Control) (k : ℤ) (j : ℕ) :
    (c.next k).runLength * k ^ j = c.runLength * k ^ (j + 1) := by
  rw [Control.next, pow_succ', mul_assoc]

/-- INTERNAL: run lengths do not get smaller. -/
theorem not_mul_pow_lt (hk : 2 ≤ k) {runLength : ℤ} (hc : 1 ≤ runLength)
    (h : numRecords ≤ runLength) (j : ℕ) : ¬ runLength * k ^ j < numRecords := by
  have hpow : 1 ≤ k ^ j := one_le_pow₀ (by omega)
  have hle := le_mul_of_one_le_right (show 0 ≤ runLength by omega) hpow
  omega

/-- INTERNAL: **the passes in order**: pass `j` is over runs of `k ^ j` times the first run
length.
SRCLINE: msort.cc:71-99 -/
theorem forall_mem_passes (outputFile : String) (numRecords : ℤ) (hk : 2 ≤ k) (fuel : ℕ)
    (c : Control) (hc : 1 ≤ c.runLength) (hfuel : (numRecords - c.runLength).toNat ≤ fuel)
    (P : ℤ → Prop) :
    (∀ p ∈ passes outputFile k numRecords fuel c, P p.runLength) ↔
      ∀ j : ℕ, c.runLength * k ^ j < numRecords → P (c.runLength * k ^ j) := by
  induction fuel generalizing c with
  | zero =>
    rw [passes_eq_nil (by omega)]
    exact ⟨fun _ j hj => absurd hj (not_mul_pow_lt hk hc (by omega) j), fun _ p hp => by cases hp⟩
  | succ fuel ih =>
    by_cases hlt : c.runLength < numRecords
    · obtain ⟨hless, hnext⟩ := sub_next_lt numRecords hk hc
      rw [passes_eq_cons hlt, List.forall_mem_cons, ih (c.next k) hnext (by omega)]
      simp only [next_mul_pow]
      constructor
      · rintro ⟨hzero, hrest⟩ j hj
        cases j with
        | zero => simpa [Control.pass] using hzero
        | succ j => exact hrest j hj
      · intro h
        refine ⟨?_, fun j hj => h (j + 1) hj⟩
        simpa [Control.pass] using h 0 (by simpa using hlt)
    · rw [passes_eq_nil (not_lt.mp hlt)]
      exact ⟨fun _ j hj => absurd hj (not_mul_pow_lt hk hc (not_lt.mp hlt) j),
        fun _ p hp => by cases hp⟩

/-- INTERNAL: every pass comes from some state of the control. -/
theorem exists_control_of_mem {fuel : ℕ} {c : Control} {p : Pass}
    (hp : p ∈ passes outputFile k numRecords fuel c) :
    ∃ c' : Control, p = c'.pass outputFile k numRecords := by
  induction fuel generalizing c with
  | zero => cases hp
  | succ fuel ih =>
    unfold passes at hp
    split_ifs at hp
    · cases hp with
      | head => exact ⟨c, rfl⟩
      | tail _ hp => exact ih hp
    · cases hp

/-- INTERNAL: with an output file of its own, a pass writes it exactly when its test says
so. -/
theorem writeFilename_eq_output (h1 : outputFile ≠ "tmp_file") (h2 : outputFile ≠ "tmp_file2")
    {fuel : ℕ} {c : Control} {p : Pass} (hp : p ∈ passes outputFile k numRecords fuel c) :
    p.writeFilename = outputFile ↔ TakesOutput k numRecords p.runLength := by
  obtain ⟨c', rfl⟩ := exists_control_of_mem hp
  rw [writeFilename_pass, runLength_pass]
  split_ifs with ht hf
  · simp [ht]
  · simp [ht, h1.symm]
  · simp [ht, h2.symm]

/-- INTERNAL: if the tests agree with the exit condition, every pass reads what the one
before it wrote.  The induction is over the passes still to come.
SRCLINE: msort.cc:76-83 -/
theorem isChain_passes (fuel : ℕ) (c : Control)
    (h : ∀ p ∈ passes outputFile k numRecords fuel c,
      TakesOutput k numRecords p.runLength → numRecords ≤ p.runLength * k) :
    (passes outputFile k numRecords fuel c).IsChain fun p q =>
      q.readFilename = p.writeFilename := by
  induction fuel generalizing c with
  | zero => exact List.isChain_nil
  | succ fuel ih =>
    by_cases hlt : c.runLength < numRecords
    · rw [passes_eq_cons hlt] at h ⊢
      rw [List.isChain_cons]
      refine ⟨?_, ih (c.next k) fun p hp => h p (List.mem_cons_of_mem _ hp)⟩
      intro q hq
      -- a pass that is followed by another one is not the last, so it did not take the output
      by_cases hmore : (c.next k).runLength < numRecords
      · have hno : ¬ TakesOutput k numRecords c.runLength := by
          intro ht
          have hlast := h _ (List.mem_cons_self ..) ht
          simp only [Control.next, Control.pass] at hmore hlast
          omega
        cases fuel with
        | zero => cases hq
        | succ fuel =>
          rw [passes_eq_cons hmore, List.head?_cons, Option.mem_some_iff] at hq
          subst hq
          rw [readFilename_pass, writeFilename_pass, if_neg hno]
          cases hflip : c.flip <;> simp [Control.next, hflip]
      · rw [passes_eq_nil (not_lt.mp hmore)] at hq
        cases hq
    · rw [passes_eq_nil (not_lt.mp hlt)]
      exact List.isChain_nil

/-- INTERNAL: with an output file of its own, the passes are routed well exactly when the
test of every pass agrees with the exit condition of the loop. -/
theorem routesWell_iff_tests (h1 : outputFile ≠ "tmp_file") (h2 : outputFile ≠ "tmp_file2")
    (fuel : ℕ) (L : ℤ) :
    RoutesWell outputFile k numRecords (passes outputFile k numRecords fuel ⟨L, false⟩) ↔
      ∀ p ∈ passes outputFile k numRecords fuel ⟨L, false⟩,
        (TakesOutput k numRecords p.runLength ↔ numRecords ≤ p.runLength * k) := by
  constructor
  · intro h p hp
    rw [← writeFilename_eq_output h1 h2 hp, h.output p hp]
  · intro h
    refine ⟨?_, isChain_passes fuel _ fun p hp => (h p hp).mp, ?_, ?_⟩
    · intro p hp
      cases fuel with
      | zero => cases hp
      | succ fuel =>
        unfold passes at hp
        split_ifs at hp
        · cases hp
          rfl
        · cases hp
    · intro p hp
      obtain ⟨c, rfl⟩ := exists_control_of_mem hp
      rw [readFilename_pass, writeFilename_pass]
      split_ifs <;> simp [h1.symm, h2.symm]
    · intro p hp
      rw [writeFilename_eq_output h1 h2 hp, h p hp]

/-- INTERNAL: a loop of one pass. -/
theorem passes_one {fuel : ℕ} {c : Control} (h : c.runLength < numRecords)
    (hlast : numRecords ≤ (c.next k).runLength) :
    passes outputFile k numRecords (fuel + 1) c = [c.pass outputFile k numRecords] := by
  rw [passes_eq_cons h, passes_eq_nil hlast]

/-- INTERNAL: an output file called like the second scratch file: the first pass writes it
in either case, so it has to be the last.
SRCLINE: msort.cc:77-83 -/
theorem routesWell_tmp_file2 {L : ℤ} (hL : L < numRecords) (fuel : ℕ) :
    RoutesWell "tmp_file2" k numRecords (passes "tmp_file2" k numRecords (fuel + 1) ⟨L, false⟩) ↔
      numRecords ≤ L * k := by
  have hwrite : ((⟨L, false⟩ : Control).pass "tmp_file2" k numRecords).writeFilename =
      "tmp_file2" := by
    rw [writeFilename_pass]
    simp
  constructor
  · intro h
    rw [passes_eq_cons hL] at h
    exact (h.output _ (List.mem_cons_self ..)).mp hwrite
  · intro hlast
    rw [passes_one hL hlast]
    refine ⟨?_, List.isChain_singleton _, ?_, ?_⟩
    · intro p hp
      cases hp
      rfl
    · intro p hp
      rw [List.mem_singleton] at hp
      rw [hp, hwrite]
      exact show "tmp_file" ≠ "tmp_file2" by decide
    · intro p hp
      rw [List.mem_singleton] at hp
      rw [hp, hwrite, runLength_pass]
      exact ⟨fun _ => hlast, fun _ => rfl⟩

/-- INTERNAL: an output file called like the first scratch file: the first pass must leave
it alone, and the second pass writes it in either case.
SRCLINE: msort.cc:77-83 -/
theorem routesWell_tmp_file {L : ℤ} (hL : L < numRecords) (fuel : ℕ) :
    RoutesWell "tmp_file" k numRecords (passes "tmp_file" k numRecords (fuel + 2) ⟨L, false⟩) ↔
      L * k < numRecords ∧ numRecords ≤ L * k ^ 2 ∧ ¬ TakesOutput k numRecords L := by
  have hread : ((⟨L, false⟩ : Control).pass "tmp_file" k numRecords).readFilename =
      "tmp_file" := rfl
  have hwrite : ((⟨L * k, true⟩ : Control).pass "tmp_file" k numRecords).writeFilename =
      "tmp_file" := by
    rw [writeFilename_pass]
    simp
  have hnext : (⟨L, false⟩ : Control).next k = ⟨L * k, true⟩ := rfl
  have hsq : L * k ^ 2 = L * k * k := by ring
  constructor
  · intro h
    rw [passes_eq_cons hL] at h
    have hno : ¬ TakesOutput k numRecords L := by
      intro ht
      apply h.apart _ (List.mem_cons_self ..)
      rw [hread, writeFilename_pass, if_pos ht]
    have hmore : L * k < numRecords := by
      by_contra hle
      have hout := (h.output _ (List.mem_cons_self ..)).mpr (not_lt.mp hle)
      rw [writeFilename_pass, if_neg hno] at hout
      exact absurd hout (show "tmp_file2" ≠ "tmp_file" by decide)
    rw [hnext, passes_eq_cons hmore] at h
    have hlast := (h.output _ (List.mem_cons_of_mem _ (List.mem_cons_self ..))).mp hwrite
    rw [runLength_pass] at hlast
    exact ⟨hmore, hsq ▸ hlast, hno⟩
  · rintro ⟨hmore, hlast, hno⟩
    have hwrite0 : ((⟨L, false⟩ : Control).pass "tmp_file" k numRecords).writeFilename =
        "tmp_file2" := by
      rw [writeFilename_pass, if_neg hno]
      rfl
    have hend : numRecords ≤ ((⟨L * k, true⟩ : Control).next k).runLength := hlast.trans_eq hsq
    rw [passes_eq_cons hL, hnext, passes_one hmore hend]
    refine ⟨?_, ?_, ?_, ?_⟩
    · intro p hp
      cases hp
      rfl
    · rw [List.isChain_pair, hwrite0]
      rfl
    · intro p hp
      rcases List.mem_pair.mp hp with rfl | rfl
      · rw [hread, hwrite0]
        decide
      · rw [hwrite]
        exact show "tmp_file2" ≠ "tmp_file" by decide
    · intro p hp
      rcases List.mem_pair.mp hp with rfl | rfl
      · rw [hwrite0, runLength_pass]
        refine ⟨fun heq => absurd heq (by decide), fun hle => absurd hmore (not_lt.mpr hle)⟩
      · rw [hwrite, runLength_pass]
        exact ⟨fun _ => hsq ▸ hlast, fun _ => rfl⟩

/-- INTERNAL: the passes are routed well if there is none; or the output file is not called like a
scratch file and the test of every pass comes out as the exit condition of the loop does; or it
is called like a scratch file and the number of passes happens to fit. -/
theorem routesWell_iff (outputFile : String) (hk : 2 ≤ k) {L : ℤ} (hL : 1 ≤ L) {fuel : ℕ}
    (hfuel : numRecords ≤ fuel) :
    RoutesWell outputFile k numRecords (passes outputFile k numRecords fuel ⟨L, false⟩) ↔
      numRecords ≤ L ∨
      (outputFile ≠ "tmp_file" ∧ outputFile ≠ "tmp_file2" ∧ ∀ j : ℕ, L * k ^ j < numRecords →
        (TakesOutput k numRecords (L * k ^ j) ↔ numRecords ≤ L * k ^ (j + 1))) ∨
      (outputFile = "tmp_file2" ∧ numRecords ≤ L * k) ∨
      (outputFile = "tmp_file" ∧ L * k < numRecords ∧ numRecords ≤ L * k ^ 2 ∧
        ¬ TakesOutput k numRecords L) := by
  by_cases hnone : numRecords ≤ L
  · rw [passes_eq_nil hnone]
    simp only [hnone, true_or, iff_true]
    exact ⟨by simp, List.isChain_nil, by simp, by simp⟩
  obtain ⟨fuel, rfl⟩ : ∃ m, fuel = m + 2 := ⟨fuel - 2, by omega⟩
  have hlt : L < numRecords := not_le.mp hnone
  by_cases h2 : outputFile = "tmp_file2"
  · subst h2
    rw [routesWell_tmp_file2 hlt]
    simp [hnone]
  by_cases h1 : outputFile = "tmp_file"
  · subst h1
    rw [routesWell_tmp_file hlt]
    simp [hnone]
  · have htests := forall_mem_passes outputFile numRecords hk (fuel + 2) ⟨L, false⟩ hL
      (by dsimp only; omega) fun R => TakesOutput k numRecords R ↔ numRecords ≤ R * k
    rw [routesWell_iff_tests h1 h2, htests]
    simp only [hnone, h1, h2, false_or, or_false, false_and, ne_eq, not_false_eq_true, true_and,
      pow_succ, mul_assoc]

/-- INTERNAL: the run lengths of the passes. -/
theorem mul_pow_pos (hk : 2 ≤ k) {L : ℤ} (hL : 1 ≤ L) (j : ℕ) : 0 < L * k ^ j :=
  mul_pos (by omega) (pow_pos (by omega) j)

/-- INTERNAL: a pass with more than `k` runs takes the output exactly if all its runs are full. -/
theorem takesOutput_early_iff {R : ℤ} (hR : 0 < R) (hmore : R * k < numRecords)
    (hk : 2 ≤ k) (hn : numRecords < 2 ^ 24) :
    TakesOutput k numRecords R ↔ R ∣ numRecords := by
  have hlt : R < numRecords := by nlinarith
  rw [takesOutput_iff hR hlt hn]
  refine or_iff_right fun hfew => ?_
  have hle : (k - 1) * R ≤ R * k := by nlinarith
  omega

/-- INTERNAL: below `2 ^ 24` records, the tests come out right if the run length of the first of
several passes does not divide the number of records, and the last pass has fewer than `k` runs or
only full ones. -/
theorem tests_iff (hk : 2 ≤ k) {L : ℤ} (hL : 1 ≤ L) (hn : numRecords < 2 ^ 24) :
    (∀ j : ℕ, L * k ^ j < numRecords →
      (TakesOutput k numRecords (L * k ^ j) ↔ numRecords ≤ L * k ^ (j + 1))) ↔
    (L * k < numRecords → ¬ L ∣ numRecords) ∧
      ∀ j : ℕ, L * k ^ j < numRecords → numRecords ≤ L * k ^ (j + 1) →
        numRecords ≤ (k - 1) * (L * k ^ j) ∨ L * k ^ j ∣ numRecords := by
  have hnext : ∀ j : ℕ, L * k ^ (j + 1) = L * k ^ j * k := fun j => by rw [pow_succ, mul_assoc]
  constructor
  · intro h
    constructor
    · intro hmore hdvd
      have hfirst := h 0 (by rw [pow_zero, mul_one]; nlinarith)
      rw [pow_zero, mul_one, zero_add, pow_one,
        takesOutput_early_iff (by omega) hmore hk hn] at hfirst
      exact absurd hmore (not_lt.mpr (hfirst.mp hdvd))
    · intro j hlt hlast
      exact (takesOutput_iff (mul_pow_pos hk hL j) hlt hn).mp ((h j hlt).mpr hlast)
  · rintro ⟨hearly, hlast⟩ j hlt
    refine ⟨fun htake => ?_, fun hle =>
      (takesOutput_iff (mul_pow_pos hk hL j) hlt hn).mpr (hlast j hlt hle)⟩
    by_contra hmore
    rw [hnext, not_le] at hmore
    have hdvd := (takesOutput_early_iff (mul_pow_pos hk hL j) hmore hk hn).mp htake
    have hfirst : L ≤ L * k ^ j := le_mul_of_one_le_right (by omega) (one_le_pow₀ (by omega))
    refine hearly ?_ ((Dvd.intro _ rfl).trans hdvd)
    exact (mul_le_mul_of_nonneg_right hfirst (by omega)).trans_lt hmore

/-- SOURCE: msort.cc:71-99 — **when the passes hand their files on.**  With a first run length of at
least one and `k` of at least two, the passes are routed well if and only if there is no pass; or
the output file is not called like a scratch file and the numbers work out; or it is called like
a scratch file and the number of passes happens to fit.  Below `2 ^ 24` records the numbers work
out if the initial run length does not divide the number of records, unless there is
only one pass, and the last pass has fewer than `k` runs or only full ones.  In
general the number of runs is rounded, and the test must come out false on every pass but
the last and true on that one. -/
theorem routing_iff (outputFile : String) (k numRecords L : ℤ) (hk : 2 ≤ k) (hL : 1 ≤ L)
    (hn : numRecords < 2 ^ 31) (fuel : ℕ) (hfuel : numRecords ≤ fuel) :
    (numRecords < 2 ^ 24 →
      (RoutesWell outputFile k numRecords (passes outputFile k numRecords fuel ⟨L, false⟩) ↔
        numRecords ≤ L ∨
        (outputFile ≠ "tmp_file" ∧ outputFile ≠ "tmp_file2" ∧
          (L * k < numRecords → ¬ L ∣ numRecords) ∧
          ∀ j : ℕ, L * k ^ j < numRecords → numRecords ≤ L * k ^ (j + 1) →
            numRecords ≤ (k - 1) * (L * k ^ j) ∨ L * k ^ j ∣ numRecords) ∨
        (outputFile = "tmp_file2" ∧ numRecords ≤ L * k) ∨
        (outputFile = "tmp_file" ∧ L * k < numRecords ∧ numRecords ≤ L * k ^ 2 ∧
          ¬ L ∣ numRecords))) ∧
    (RoutesWell outputFile k numRecords (passes outputFile k numRecords fuel ⟨L, false⟩) ↔
      numRecords ≤ L ∨
      (outputFile ≠ "tmp_file" ∧ outputFile ≠ "tmp_file2" ∧
        (∀ j : ℕ, L * k ^ (j + 1) < numRecords → ¬ RoundsToOutput k numRecords (L * k ^ j)) ∧
        ∀ j : ℕ, L * k ^ j < numRecords → numRecords ≤ L * k ^ (j + 1) →
          RoundsToOutput k numRecords (L * k ^ j)) ∨
      (outputFile = "tmp_file2" ∧ numRecords ≤ L * k) ∨
      (outputFile = "tmp_file" ∧ L * k < numRecords ∧ numRecords ≤ L * k ^ 2 ∧
        ¬ RoundsToOutput k numRecords L)) := by
  rw [routesWell_iff outputFile hk hL hfuel]
  have hLk : L * k < numRecords → L < numRecords := fun hmore => by nlinarith
  constructor
  · intro hsmall
    refine or_congr_right (or_congr (and_congr_right fun _ => and_congr_right fun _ =>
      tests_iff hk hL hsmall) (or_congr_right (and_congr_right fun _ => and_congr_right fun hmore =>
      and_congr_right fun _ => not_congr ?_)))
    exact takesOutput_early_iff (by omega) hmore hk hsmall
  · refine or_congr_right (or_congr (and_congr_right fun _ => and_congr_right fun _ => ?_)
      (or_congr_right (and_congr_right fun _ => and_congr_right fun hmore =>
      and_congr_right fun _ => not_congr ?_)))
    · have hrounds : ∀ j : ℕ, L * k ^ j < numRecords →
          (TakesOutput k numRecords (L * k ^ j) ↔ RoundsToOutput k numRecords (L * k ^ j)) :=
        fun j hlt => takesOutput_iff_rounds hk (mul_pow_pos hk hL j) hlt hn
      have hgrow : ∀ j : ℕ, L * k ^ (j + 1) < numRecords → L * k ^ j < numRecords := by
        intro j hlt
        have hpos := mul_pow_pos hk hL j
        rw [pow_succ, ← mul_assoc] at hlt
        nlinarith
      constructor
      · intro h
        refine ⟨fun j hmore hout => ?_, fun j hlt hlast => ?_⟩
        · have hle := (h j (hgrow j hmore)).mp ((hrounds j (hgrow j hmore)).mpr hout)
          exact absurd hmore (not_lt.mpr hle)
        · exact (hrounds j hlt).mp ((h j hlt).mpr hlast)
      · rintro ⟨hearly, hlast⟩ j hlt
        rw [hrounds j hlt]
        refine ⟨fun hout => ?_, hlast j hlt⟩
        by_contra hmore
        exact hearly j (not_le.mp hmore) hout
    · exact takesOutput_iff_rounds hk (by omega) (hLk hmore) hn

end Routing

/-- Eleven records in runs of two, merged three at a time: two passes, routed well. -/
theorem routing_eleven :
    RoutesWell "sorted" 3 11 (passes "sorted" 3 11 11 ⟨2, false⟩) := by
  apply ((routing_iff "sorted" 3 11 2 (by decide) (by decide) (by decide) 11 (by decide)).1
    (by decide)).mpr
  refine Or.inr (Or.inl ⟨by decide, by decide, fun _ => by decide, ?_⟩)
  intro j hlt hlast
  match j with
  | 0 => exact absurd hlast (by decide)
  | 1 => exact Or.inl (by decide)
  | j + 2 =>
    have hpow : (1 : ℤ) ≤ 3 ^ j := one_le_pow₀ (by decide)
    rw [pow_succ, pow_succ] at hlt
    omega

/-- Three records in runs of two, merged two at a time: the one pass there is writes to a
scratch file, because two runs are not fewer than `k`. -/
theorem routing_three_fails :
    ¬ RoutesWell "sorted" 2 3 (passes "sorted" 2 3 3 ⟨2, false⟩) := by
  intro h
  have hout := h.output ⟨2, 2, "tmp_file", "tmp_file2"⟩ (by decide +kernel)
  revert hout
  decide

end ExternalSort.Analysis
