import ExternalSort.Lib.MachineArith

/-!
# Rounding to single precision

Rounding to the nearest never goes past an integer multiple of the unit in the last
place (`roundHalfEven_le`) and leaves such a multiple alone.  So integers of at most 24
bits are exact, and although the quotient of two of them is rounded, its ceiling is
not affected (`ceil_float32_div`).
-/

set_option autoImplicit false

namespace ExternalSort.Lib

/-- INTERNAL: a whole number is not changed. -/
theorem roundHalfEven_intCast (z : ℤ) : roundHalfEven z = z := by
  unfold roundHalfEven
  rw [Int.fract_intCast, if_pos (by norm_num), Int.floor_intCast]

/-- INTERNAL: a number is not rounded below its floor. -/
theorem floor_le_roundHalfEven (x : ℚ) : ⌊x⌋ ≤ roundHalfEven x := by
  unfold roundHalfEven
  split_ifs <;> omega

/-- INTERNAL: a number is rounded to its floor or to the whole number above. -/
theorem roundHalfEven_le_floor_add_one (x : ℚ) : roundHalfEven x ≤ ⌊x⌋ + 1 := by
  unfold roundHalfEven
  split_ifs <;> omega

/-- INTERNAL: **rounding keeps the order.** -/
theorem roundHalfEven_mono {x y : ℚ} (h : x ≤ y) : roundHalfEven x ≤ roundHalfEven y := by
  rcases (Int.floor_le_floor h).lt_or_eq with hlt | heq
  · have := roundHalfEven_le_floor_add_one x
    have := floor_le_roundHalfEven y
    omega
  · have hfr : Int.fract x ≤ Int.fract y := by
      unfold Int.fract
      rw [heq]
      linarith
    unfold roundHalfEven
    rw [heq]
    split_ifs <;> first | omega | (exfalso; linarith)

/-- INTERNAL: rounding does not pass a whole number above. -/
theorem roundHalfEven_le {x : ℚ} {z : ℤ} (h : x ≤ z) : roundHalfEven x ≤ z :=
  (roundHalfEven_mono h).trans_eq (roundHalfEven_intCast z)

/-- INTERNAL: rounding does not pass a whole number below. -/
theorem le_roundHalfEven {x : ℚ} {z : ℤ} (h : (z : ℚ) ≤ x) : z ≤ roundHalfEven x :=
  (roundHalfEven_intCast z).symm.trans_le (roundHalfEven_mono h)

/-- INTERNAL: more than a half is rounded up. -/
theorem lt_roundHalfEven {x : ℚ} {z : ℤ} (h : (z : ℚ) + 1 / 2 < x) : z < roundHalfEven x := by
  have hfl : z ≤ ⌊x⌋ := Int.le_floor.mpr (by linarith)
  rcases hfl.lt_or_eq with hlt | heq
  · unfold roundHalfEven
    split_ifs <;> omega
  · have hfr : 1 / 2 < Int.fract x := by
      unfold Int.fract
      rw [← heq]
      linarith
    unfold roundHalfEven
    rw [if_neg (not_lt.mpr hfr.le), if_pos hfr]
    omega

/-- INTERNAL: less than a half is rounded down. -/
theorem roundHalfEven_le_of_lt {x : ℚ} {z : ℤ} (h : x < (z : ℚ) + 1 / 2) :
    roundHalfEven x ≤ z := by
  have hfl : ⌊x⌋ ≤ z := Int.lt_add_one_iff.mp (Int.floor_lt.mpr (by push_cast; linarith))
  rcases hfl.lt_or_eq with hlt | heq
  · have := roundHalfEven_le_floor_add_one x
    omega
  · have hfr : Int.fract x < 1 / 2 := by
      unfold Int.fract
      rw [heq]
      linarith
    rw [roundHalfEven, if_pos hfr, heq]

/-- INTERNAL: half way below an even number is rounded to it. -/
theorem le_roundHalfEven_of_even {x : ℚ} {z : ℤ} (hz : z % 2 = 0) (h : (z : ℚ) - 1 / 2 ≤ x) :
    z ≤ roundHalfEven x := by
  have hfl : z - 1 ≤ ⌊x⌋ := Int.le_floor.mpr (by push_cast; linarith)
  rcases hfl.lt_or_eq with hlt | heq
  · have := floor_le_roundHalfEven x
    omega
  · have hfr : ¬ Int.fract x < 1 / 2 := by
      unfold Int.fract
      rw [← heq]
      push_cast
      linarith
    unfold roundHalfEven
    rw [if_neg hfr, ← heq]
    split_ifs <;> omega

/-- INTERNAL: a multiple of its own unit in the last place is not rounded. -/
theorem roundSig_of_multiple {p : ℕ} {x : ℚ} {z : ℤ}
    (h : x = z * 2 ^ (Int.log 2 |x| - (p - 1 : ℤ))) : roundSig p x = x := by
  have hu : (2 : ℚ) ^ (Int.log 2 |x| - (p - 1 : ℤ)) ≠ 0 := zpow_ne_zero _ (by norm_num)
  have hz : x / 2 ^ (Int.log 2 |x| - (p - 1 : ℤ)) = z := by
    rw [div_eq_iff hu]
    exact h
  rw [roundSig, hz, roundHalfEven_intCast, ← h]

/-- INTERNAL: the exponent of a number below a power of two. -/
theorem log_lt_of_lt {x : ℚ} (h0 : 0 < x) {e : ℤ} (h : x < 2 ^ e) : Int.log 2 x < e := by
  have hself : ((2 : ℕ) : ℚ) ^ Int.log 2 x ≤ x := Int.zpow_log_le_self (by norm_num) h0
  have hlt : (2 : ℚ) ^ Int.log 2 x < 2 ^ e := lt_of_le_of_lt (by exact_mod_cast hself) h
  exact (zpow_lt_zpow_iff_right₀ (by norm_num)).mp hlt

/-- INTERNAL: a whole number is a multiple of a power of two that is not greater than one. -/
theorem exists_intCast_eq (z : ℤ) {e : ℤ} (he : e ≤ 0) : ∃ a : ℤ, (z : ℚ) = a * 2 ^ e := by
  refine ⟨z * 2 ^ (-e).toNat, ?_⟩
  have hcancel : (2 : ℚ) ^ (-e).toNat * 2 ^ e = 1 := by
    rw [← zpow_natCast, Int.toNat_of_nonneg (by omega), ← zpow_add₀ (by norm_num)]
    simp
  push_cast
  rw [mul_assoc, hcancel, mul_one]

/-- INTERNAL: an integer of at most 24 bits is a `float`. -/
theorem float32_intCast {n : ℤ} (h0 : 0 < n) (hn : n < 2 ^ 24) : float32 n = n := by
  have hpos : (0 : ℚ) < n := by exact_mod_cast h0
  have hlog := log_lt_of_lt hpos (e := 24) (by exact_mod_cast hn)
  have he : Int.log 2 |(n : ℚ)| - ((24 : ℕ) - 1 : ℤ) ≤ 0 := by
    rw [abs_of_pos hpos]
    push_cast
    omega
  obtain ⟨a, ha⟩ := exists_intCast_eq n he
  exact roundSig_of_multiple ha

/-- INTERNAL: **the quotient of two such integers, rounded to a `float`, has the ceiling of
the quotient.**  Half a unit in the last place is less than the distance to the
integer below. -/
theorem ceil_float32_div {n r : ℤ} (hr : 0 < r) (hrn : r < n) (hn : n < 2 ^ 24) :
    ⌈float32 ((n : ℚ) / r)⌉ = ⌈(n : ℚ) / r⌉ := by
  have hrpos : (0 : ℚ) < r := by exact_mod_cast hr
  have hnpos : (0 : ℚ) < n := by exact_mod_cast hr.trans hrn
  have hn24 : (n : ℚ) < 2 ^ (24 : ℤ) := by exact_mod_cast hn
  have hx0 : 0 < (n : ℚ) / r := div_pos hnpos hrpos
  have hlog := log_lt_of_lt hx0 ((div_le_self hnpos.le (by exact_mod_cast hr)).trans_lt hn24)
  have hself : (2 : ℚ) ^ Int.log 2 ((n : ℚ) / r) ≤ (n : ℚ) / r := by
    exact_mod_cast Int.zpow_log_le_self (b := 2) (by norm_num) hx0
  obtain ⟨x, hx⟩ : ∃ x, x = (n : ℚ) / r := ⟨_, rfl⟩
  obtain ⟨e, he⟩ : ∃ e, e = Int.log 2 x - ((24 : ℕ) - 1 : ℤ) := ⟨_, rfl⟩
  rw [← hx] at hx0 hlog hself ⊢
  have he0 : e ≤ 0 := by
    push_cast at he
    omega
  have hu : (0 : ℚ) < 2 ^ e := zpow_pos (by norm_num) _
  have hround : float32 x = roundHalfEven (x / 2 ^ e) * 2 ^ e := by
    rw [float32, roundSig, abs_of_pos hx0, he]
  have hhalf : 2 ^ e / 2 < 1 / (r : ℚ) := by
    have hunit : (2 : ℚ) ^ e / 2 = 2 ^ Int.log 2 x / 2 ^ (24 : ℤ) := by
      rw [he, ← zpow_sub₀ (by norm_num), div_eq_mul_inv, ← zpow_sub_one₀ (by norm_num)]
      congr 1
      push_cast
      ring
    rw [hunit, div_lt_div_iff₀ (by norm_num) hrpos, one_mul]
    calc 2 ^ Int.log 2 x * (r : ℚ) ≤ x * r := mul_le_mul_of_nonneg_right hself hrpos.le
      _ = n := by rw [hx, div_mul_cancel₀ _ hrpos.ne']
      _ < 2 ^ (24 : ℤ) := hn24
  -- `q` is the integer below `x`
  obtain ⟨q, hq⟩ : ∃ q : ℤ, ⌈x⌉ = q + 1 := ⟨⌈x⌉ - 1, by ring⟩
  have hxq : x ≤ ((q + 1 : ℤ) : ℚ) := hq ▸ Int.le_ceil x
  have hqx : (q : ℚ) + 1 / r ≤ x := by
    have hlt : (q : ℚ) < x := Int.lt_ceil.mp (by omega)
    rw [hx, lt_div_iff₀ hrpos] at hlt
    have hint : q * r + 1 ≤ n := by exact_mod_cast hlt
    have hcast : (q : ℚ) * r + 1 ≤ n := by exact_mod_cast hint
    rw [hx, le_div_iff₀ hrpos, add_mul, one_div_mul_cancel hrpos.ne']
    exact hcast
  obtain ⟨a, ha⟩ := exists_intCast_eq q he0
  obtain ⟨b, hb⟩ := exists_intCast_eq (q + 1) he0
  have hupper : roundHalfEven (x / 2 ^ e) ≤ b := by
    apply roundHalfEven_le
    rw [div_le_iff₀ hu, ← hb]
    exact hxq
  have hlower : a < roundHalfEven (x / 2 ^ e) := by
    apply lt_roundHalfEven
    rw [lt_div_iff₀ hu, add_mul, ← ha]
    linarith
  rw [hq, Int.ceil_eq_iff, hround]
  constructor
  · rw [show (((q + 1 : ℤ) : ℚ) - 1) = a * 2 ^ e by rw [← ha]; push_cast; ring]
    exact mul_lt_mul_of_pos_right (by exact_mod_cast hlower) hu
  · rw [hb]
    exact mul_le_mul_of_nonneg_right (by exact_mod_cast hupper) hu.le

/-! ## Rounding and powers of two -/

/-- INTERNAL: what is rounded to more than `g`. -/
theorem lt_roundHalfEven_iff (x : ℚ) (g : ℤ) :
    g < roundHalfEven x ↔ (g : ℚ) + 1 / 2 < x ∨ (x = g + 1 / 2 ∧ g % 2 = 1) := by
  rcases lt_trichotomy x (g + 1 / 2) with hlt | heq | hgt
  · have hle := roundHalfEven_le_of_lt hlt
    simp only [hle.not_gt, hlt.not_gt, hlt.ne, false_and, or_false]
  · have hfl : ⌊x⌋ = g := by
      rw [Int.floor_eq_iff, heq]
      constructor <;> linarith
    have hfr : Int.fract x = 1 / 2 := by
      rw [Int.fract, hfl, heq]
      ring
    rw [roundHalfEven, hfr, hfl, if_neg (lt_irrefl _), if_neg (lt_irrefl _)]
    simp only [heq, lt_irrefl, true_and, false_or]
    split_ifs <;> omega
  · simp only [lt_roundHalfEven hgt, hgt, true_or]

section Binade

variable {p : ℕ} {x : ℚ}

/-- INTERNAL: a number is not below the power of two of its logarithm. -/
theorem zpow_log_le (hx : 0 < x) : (2 : ℚ) ^ Int.log 2 x ≤ x := by
  exact_mod_cast @Int.zpow_log_le_self ℚ _ _ _ _ 2 x (by norm_num) hx

/-- INTERNAL: a number is below the next power of two. -/
theorem lt_zpow_log_add_one (x : ℚ) : x < (2 : ℚ) ^ (Int.log 2 x + 1) := by
  exact_mod_cast @Int.lt_zpow_succ_log_self ℚ _ _ _ _ 2 (by norm_num) x

/-- INTERNAL: a power of two at or above the unit in the last place is a multiple of it. -/
theorem exists_zpow_eq_mul {e f : ℤ} (h : f ≤ e) : ∃ a : ℤ, (2 : ℚ) ^ e = a * 2 ^ f := by
  refine ⟨2 ^ (e - f).toNat, ?_⟩
  rw [Int.cast_pow, Int.cast_ofNat, ← zpow_natCast, Int.toNat_of_nonneg (by omega),
    ← zpow_add₀ (by norm_num)]
  congr 1
  omega

/-- INTERNAL: rounding does not go past a power of two. -/
theorem roundSig_le_zpow (hp : 1 ≤ p) (hx : 0 < x) {e : ℤ} (h : x ≤ 2 ^ e) :
    roundSig p x ≤ 2 ^ e := by
  have hlog : Int.log 2 x ≤ e := (zpow_le_zpow_iff_right₀ (by norm_num)).mp ((zpow_log_le hx).trans h)
  obtain ⟨a, ha⟩ := @exists_zpow_eq_mul e (Int.log 2 x - (p - 1 : ℤ)) (by omega)
  have hu : (0 : ℚ) < 2 ^ (Int.log 2 x - (p - 1 : ℤ)) := zpow_pos (by norm_num) _
  rw [roundSig, abs_of_pos hx, ha]
  apply mul_le_mul_of_nonneg_right _ hu.le
  exact Int.cast_le.mpr (roundHalfEven_le (by rwa [div_le_iff₀ hu, ← ha]))

/-- INTERNAL: rounding does not pass the power of two below. -/
theorem zpow_log_le_roundSig (hp : 1 ≤ p) (hx : 0 < x) :
    (2 : ℚ) ^ Int.log 2 x ≤ roundSig p x := by
  obtain ⟨a, ha⟩ := @exists_zpow_eq_mul (Int.log 2 x) (Int.log 2 x - (p - 1 : ℤ)) (by omega)
  have hu : (0 : ℚ) < 2 ^ (Int.log 2 x - (p - 1 : ℤ)) := zpow_pos (by norm_num) _
  rw [roundSig, abs_of_pos hx]
  nth_rewrite 1 [ha]
  apply mul_le_mul_of_nonneg_right _ hu.le
  exact Int.cast_le.mpr (le_roundHalfEven (by rw [le_div_iff₀ hu, ← ha]; exact zpow_log_le hx))

/-- INTERNAL: **rounding is monotone.**  Between two numbers of different exponents there
is a power of two. -/
theorem roundSig_mono (hp : 1 ≤ p) (hx : 0 < x) {y : ℚ} (h : x ≤ y) :
    roundSig p x ≤ roundSig p y := by
  have hy : 0 < y := hx.trans_le h
  rcases (Int.log_mono_right hx h : Int.log 2 x ≤ Int.log 2 y).lt_or_eq with hlt | heq
  · calc roundSig p x ≤ 2 ^ (Int.log 2 x + 1) :=
          roundSig_le_zpow hp hx (lt_zpow_log_add_one x).le
      _ ≤ 2 ^ Int.log 2 y := zpow_le_zpow_right₀ (by norm_num) hlt
      _ ≤ roundSig p y := zpow_log_le_roundSig hp hy
  · have hu : (0 : ℚ) < 2 ^ (Int.log 2 y - (p - 1 : ℤ)) := zpow_pos (by norm_num) _
    rw [roundSig, roundSig, abs_of_pos hx, abs_of_pos hy, heq]
    apply mul_le_mul_of_nonneg_right _ hu.le
    exact Int.cast_le.mpr (roundHalfEven_mono (div_le_div_of_nonneg_right h hu.le))

/-- INTERNAL: `x` lies above the middle between the last number of `p` bits up to `z` and the
next one, or in the middle if the next one is even. -/
def AboveMiddle (p : ℕ) (x : ℚ) (z : ℤ) : Prop :=
  let u : ℚ := 2 ^ (Int.log 2 (z : ℚ) - (p - 1 : ℤ))
  let g := ⌊(z : ℚ) / u⌋
  (g + 1 / 2) * u < x ∨ (x = (g + 1 / 2) * u ∧ g % 2 = 1)

/-- INTERNAL: it can be decided on which side of the middle a number lies. -/
instance (p : ℕ) (x : ℚ) (z : ℤ) : Decidable (AboveMiddle p x z) :=
  inferInstanceAs (Decidable (_ ∨ _))

/-- INTERNAL: **what is rounded to more than an integer.**  Outside the binade of `z` both sides
are decided by a power of two. -/
theorem lt_roundSig_iff (hp : 1 ≤ p) (hx : 0 < x) {z : ℤ} (hz : 1 ≤ z) :
    (z : ℚ) < roundSig p x ↔ AboveMiddle p x z := by
  have hz0 : (0 : ℚ) < z := by exact_mod_cast hz
  unfold AboveMiddle
  dsimp only
  obtain ⟨e, he⟩ : ∃ e, e = Int.log 2 (z : ℚ) - (p - 1 : ℤ) := ⟨_, rfl⟩
  have hu : (0 : ℚ) < 2 ^ e := zpow_pos (by norm_num) _
  rw [← he]
  -- the numbers of the binade of `z` are the integers from `2 ^ (p - 1)` on, below `2 ^ p`
  obtain ⟨a, ha⟩ := @exists_zpow_eq_mul (Int.log 2 (z : ℚ)) e (by omega)
  obtain ⟨b, hb⟩ := @exists_zpow_eq_mul (Int.log 2 (z : ℚ) + 1) e (by omega)
  have hlow : a ≤ ⌊(z : ℚ) / 2 ^ e⌋ := by
    rw [Int.le_floor, le_div_iff₀ hu, ← ha]
    exact zpow_log_le hz0
  have hhigh : ⌊(z : ℚ) / 2 ^ e⌋ + 1 ≤ b := by
    rw [Int.add_one_le_iff, Int.floor_lt, div_lt_iff₀ hu, ← hb]
    exact lt_zpow_log_add_one _
  rcases lt_trichotomy (Int.log 2 x) (Int.log 2 (z : ℚ)) with hlt | heq | hgt
  · have hxlt : x < 2 ^ Int.log 2 (z : ℚ) :=
      (lt_zpow_log_add_one x).trans_le (zpow_le_zpow_right₀ (by norm_num) hlt)
    have hround : roundSig p x ≤ z := (roundSig_le_zpow hp hx hxlt.le).trans (zpow_log_le hz0)
    have hmiddle : x < (⌊(z : ℚ) / 2 ^ e⌋ + 1 / 2) * 2 ^ e := by
      refine hxlt.trans ?_
      rw [ha]
      apply mul_lt_mul_of_pos_right _ hu
      have : (a : ℚ) ≤ ⌊(z : ℚ) / 2 ^ e⌋ := by exact_mod_cast hlow
      linarith
    simp only [hround.not_gt, hmiddle.not_gt, hmiddle.ne, false_and, or_false]
  · have hsig : roundSig p x = roundHalfEven (x / 2 ^ e) * 2 ^ e := by
      rw [roundSig, abs_of_pos hx, heq, he]
    rw [hsig, ← div_lt_iff₀ hu, ← Int.floor_lt, lt_roundHalfEven_iff, lt_div_iff₀ hu,
      div_eq_iff hu.ne']
  · have hxge : (2 : ℚ) ^ (Int.log 2 (z : ℚ) + 1) ≤ 2 ^ Int.log 2 x :=
      zpow_le_zpow_right₀ (by norm_num) hgt
    have hround : (z : ℚ) < roundSig p x :=
      (lt_zpow_log_add_one _).trans_le (hxge.trans (zpow_log_le_roundSig hp hx))
    have hmiddle : (⌊(z : ℚ) / 2 ^ e⌋ + 1 / 2) * 2 ^ e < x := by
      refine lt_of_lt_of_le ?_ (hxge.trans (zpow_log_le hx))
      rw [hb]
      apply mul_lt_mul_of_pos_right _ hu
      have : (⌊(z : ℚ) / 2 ^ e⌋ : ℚ) + 1 ≤ b := by exact_mod_cast hhigh
      linarith
    simp only [hround, hmiddle, true_or]

end Binade

end ExternalSort.Lib
