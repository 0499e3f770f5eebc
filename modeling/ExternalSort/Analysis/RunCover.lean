import ExternalSort.Lib.Rounding
import ExternalSort.Model.Msort

/-!
# The runs of a pass and the records of the file

`num_runs` is right if it is the ceiling of the quotient, and it is computed through three
roundings to single precision.  Rounded to `float`, the quotient of the two rounded
operands has to stay between the ceiling and the integer below it; `AboveMiddle` says
from where on it is rounded above an integer.
-/

set_option autoImplicit false

namespace ExternalSort.Analysis

open ExternalSort.Lib ExternalSort.Model

/-- The runs of a pass reach to the end of the file, and the last one is not empty.
SRCLINE: msort.cc:74 -/
def RunsCover (n R : ℤ) : Prop :=
  (numRuns n R - 1) * R < n ∧ n ≤ numRuns n R * R

section Cover

variable {n R R' : ℤ}

/-- INTERNAL: below `2 ^ 24` records the number of runs is the ceiling of the quotient.
SRCLINE: msort.cc:74 -/
theorem numRuns_eq_ceil (hR : 0 < R) (hlt : R < n) (hn : n < 2 ^ 24) :
    numRuns n R = ⌈(n : ℚ) / R⌉ := by
  have hRpos : (0 : ℚ) < R := by exact_mod_cast hR
  have hnpos : (0 : ℚ) < n := by exact_mod_cast hR.trans hlt
  have hle : ⌈(n : ℚ) / R⌉ ≤ n :=
    Int.ceil_le.mpr (div_le_self hnpos.le (by exact_mod_cast hR))
  have hpos : 0 < ⌈(n : ℚ) / R⌉ := Int.ceil_pos.mpr (div_pos hnpos hRpos)
  rw [numRuns, float32_intCast (hR.trans hlt) hn, float32_intCast hR (hlt.trans hn),
    ceil_float32_div hR hlt hn]
  apply doubleToInt_of_lt <;> omega

/-- INTERNAL: below `2 ^ 24` records single precision is exact: the runs cover the records
and the last run is not empty.
SRCLINE: msort.cc:74 -/
theorem numRuns_bounds (hR : 0 < R) (hlt : R < n) (hn : n < 2 ^ 24) :
    0 < numRuns n R ∧ (numRuns n R - 1) * R < n ∧ n ≤ numRuns n R * R := by
  have hRpos : (0 : ℚ) < R := by exact_mod_cast hR
  have hnpos : (0 : ℚ) < n := by exact_mod_cast hR.trans hlt
  rw [numRuns_eq_ceil hR hlt hn]
  have hup := Int.le_ceil ((n : ℚ) / R)
  have hdown := Int.ceil_lt_add_one ((n : ℚ) / R)
  refine ⟨Int.ceil_pos.mpr (div_pos hnpos hRpos), ?_, ?_⟩
  · rw [← sub_lt_iff_lt_add, lt_div_iff₀ hRpos] at hdown
    exact_mod_cast hdown
  · rw [div_le_iff₀ hRpos] at hup
    exact_mod_cast hup

/-- INTERNAL: the number of runs of `R` records is compared without a division. -/
theorem lt_ceil_div_iff {R : ℤ} (hR : 0 < R) (z : ℤ) : z < ⌈(n : ℚ) / R⌉ ↔ z * R < n := by
  have hpos : (0 : ℚ) < R := by exact_mod_cast hR
  rw [Int.lt_ceil, lt_div_iff₀ hpos]
  exact_mod_cast Iff.rfl

/-- INTERNAL: rounding leaves a positive number positive. -/
theorem float32_pos {x : ℚ} (hx : 0 < x) : 0 < float32 x :=
  (zpow_pos (by norm_num) _).trans_le (zpow_log_le_roundSig (by decide) hx)

/-- INTERNAL: the only number of runs that covers the records is the ceiling of the
quotient. -/
theorem runsCover_iff_eq_ceil (hR : 0 < R) : RunsCover n R ↔ numRuns n R = ⌈(n : ℚ) / R⌉ := by
  rw [RunsCover, ← lt_ceil_div_iff hR, ← not_lt, ← lt_ceil_div_iff hR]
  omega

/-- INTERNAL: a conversion to `int` that gives an `int` other than the least one is exact. -/
theorem doubleToInt_eq_iff {x m : ℤ} (h0 : -2 ^ 31 < m) (h : m < 2 ^ 31) :
    doubleToInt x = m ↔ x = m := by
  unfold doubleToInt
  split_ifs <;> omega

/-- INTERNAL: the ceiling is right if the rounded quotient is above the integer below it, and
not above it.
SRCLINE: msort.cc:74 -/
theorem numRuns_eq_iff (hR : 0 < R) (hlt : R < n) {m : ℤ} (hm : 2 ≤ m) (hm31 : m < 2 ^ 31) :
    numRuns n R = m ↔ AboveMiddle 24 (float32 n / float32 R) (m - 1) ∧
      ¬ AboveMiddle 24 (float32 n / float32 R) m := by
  have hRpos : (0 : ℚ) < R := by exact_mod_cast hR
  have hnpos : (0 : ℚ) < n := by exact_mod_cast hR.trans hlt
  have hquot : 0 < float32 n / float32 R := div_pos (float32_pos hnpos) (float32_pos hRpos)
  rw [numRuns, doubleToInt_eq_iff (by omega) hm31, Int.ceil_eq_iff,
    ← lt_roundSig_iff (by decide) hquot (show 1 ≤ m - 1 by omega),
    ← lt_roundSig_iff (by decide) hquot (show 1 ≤ m by omega), not_lt, Int.cast_sub, Int.cast_one]
  rfl

/-- INTERNAL: what is above an integer after rounding. -/
theorem lt_ceil_float32_iff (hR : 0 < R) (hn : 0 < n) {z : ℤ} (hz : 1 ≤ z) :
    z < ⌈float32 (float32 n / float32 R)⌉ ↔ AboveMiddle 24 (float32 n / float32 R) z := by
  have hquot : 0 < float32 n / float32 R :=
    div_pos (float32_pos (by exact_mod_cast hn)) (float32_pos (by exact_mod_cast hR))
  rw [Int.lt_ceil]
  exact lt_roundSig_iff (by decide) hquot hz

/-- INTERNAL: there is a run unless the rounded quotient does not fit an `int`.
SRCLINE: msort.cc:74 -/
theorem numRuns_pos_iff (hR : 0 < R) (hn : 0 < n) :
    0 < numRuns n R ↔ ¬ AboveMiddle 24 (float32 n / float32 R) (2 ^ 31 - 1) := by
  have hquot : 0 < float32 n / float32 R :=
    div_pos (float32_pos (by exact_mod_cast hn)) (float32_pos (by exact_mod_cast hR))
  have hceil : 0 < ⌈float32 (float32 n / float32 R)⌉ := Int.ceil_pos.mpr (float32_pos hquot)
  rw [← lt_ceil_float32_iff hR hn (by omega), numRuns, doubleToInt]
  split_ifs <;> omega

/-- INTERNAL: the rounded quotient does not grow with the run length. -/
theorem ceil_float32_antitone (hR : 0 < R) (hle : R ≤ R') (hn : 0 < n) :
    0 < ⌈float32 (float32 n / float32 R')⌉ ∧
      ⌈float32 (float32 n / float32 R')⌉ ≤ ⌈float32 (float32 n / float32 R)⌉ := by
  have hRpos : (0 : ℚ) < R := by exact_mod_cast hR
  have hRle : (R : ℚ) ≤ R' := by exact_mod_cast hle
  have hn0 : 0 < float32 n := float32_pos (by exact_mod_cast hn)
  have hquot : float32 n / float32 R' ≤ float32 n / float32 R :=
    div_le_div_of_nonneg_left hn0.le (float32_pos hRpos) (roundSig_mono (by decide) hRpos hRle)
  have hpos' : 0 < float32 n / float32 R' :=
    div_pos hn0 (float32_pos (hRpos.trans_le hRle))
  exact ⟨Int.ceil_pos.mpr (float32_pos hpos'),
    Int.ceil_le_ceil (roundSig_mono (by decide) hpos' hquot)⟩

/-- INTERNAL: longer runs are not more runs, and if the first pass has a run, so have the later
ones.
SRCLINE: msort.cc:74 -/
theorem numRuns_antitone (hR : 0 < R) (hle : R ≤ R') (hn : 0 < n) (hpos : 0 < numRuns n R) :
    0 < numRuns n R' ∧ numRuns n R' ≤ numRuns n R := by
  obtain ⟨hceil, hmono⟩ := ceil_float32_antitone hR hle hn
  unfold numRuns doubleToInt at hpos ⊢
  split_ifs at hpos ⊢ <;> omega

end Cover

/-- SOURCE: msort.cc:72-90 — **when the runs of a pass cover the file.**  For a run length below
the number of records, `num_runs` covers the records exactly if there are less than
`2 ^ 24` of them, or the quotient of the two rounded operands lies above the middle that
belongs to the integer below the exact number of runs, and not above the middle that
belongs to this number. -/
theorem runs_cover_iff (n R : ℤ) (hR : 1 ≤ R) (hlt : R < n) (hn : n < 2 ^ 31) :
    RunsCover n R ↔ n < 2 ^ 24 ∨
      (AboveMiddle 24 (float32 n / float32 R) (⌈(n : ℚ) / R⌉ - 1) ∧
        ¬ AboveMiddle 24 (float32 n / float32 R) ⌈(n : ℚ) / R⌉) := by
  have hR0 : 0 < R := by omega
  have htwo : 2 ≤ ⌈(n : ℚ) / R⌉ := by
    have hone : 1 < ⌈(n : ℚ) / R⌉ := (lt_ceil_div_iff hR0 1).mpr (by omega)
    omega
  have hle : ⌈(n : ℚ) / R⌉ ≤ n := by
    rw [← not_lt, lt_ceil_div_iff hR0, not_lt]
    exact le_mul_of_one_le_right (by omega) hR
  have hexact := numRuns_eq_iff hR0 hlt htwo (by omega)
  rw [← hexact, runsCover_iff_eq_ceil hR0]
  constructor
  · exact Or.inr
  · rintro (hsmall | heq)
    · exact numRuns_eq_ceil hR0 hlt hsmall
    · exact heq

/-- Seven million records in runs of a thousand, and twenty million and three, which are more
than a `float` can count one by one. -/
theorem runs_cover_seven_million : RunsCover 7000001 1000 ∧ RunsCover 20000003 1000 :=
  ⟨(runs_cover_iff 7000001 1000 (by decide) (by decide) (by decide)).mpr (Or.inl (by decide)),
    (runs_cover_iff 20000003 1000 (by decide) (by decide) (by decide)).mpr
      (Or.inr (by decide +kernel))⟩

/-- `2 ^ 24 + 1` records in runs of one: the number is rounded to `2 ^ 24`, and there is no
run for the last record. -/
theorem runs_cover_fails : ¬ RunsCover (2 ^ 24 + 1) 1 := by
  have hruns : numRuns (2 ^ 24 + 1) 1 = 2 ^ 24 := by decide +kernel
  rw [RunsCover, hruns]
  omega

end ExternalSort.Analysis
