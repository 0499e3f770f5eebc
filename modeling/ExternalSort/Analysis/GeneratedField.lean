import ExternalSort.Model.DataGenerator
import ExternalSort.Lib.Rounding
import Mathlib.Algebra.Order.Floor.Semifield

/-!
# The fields of numbers

How many characters a number takes in a generated record.  `significant` is what the twelve
digits of `str` stand for; it keeps the order of the numbers (`significant_mono`).

Numbers of hundredths have the digits of their integer part in front of the point up to `1e+11`
(`length_whole_str`); above `str` is in scientific notation and `generate_record` takes too few
of them for the integer part (`length_whole_str_le`).  So a number rendered to exactly the width
of its column is rounded to the places that are left behind its own integer part
(`format_exact`).
-/

set_option autoImplicit false

namespace ExternalSort.Analysis

open ExternalSort.Lib ExternalSort.Model

section Significant

variable {x : ℚ}

/-- INTERNAL: the number that the twelve digits of `str` stand for. -/
def significant (x : ℚ) : ℚ := (twelveDigits x : ℚ) / 10 ^ (11 - exponent x)

/-- INTERNAL: the exponent of a number from below. -/
theorem zpow_exponent_le (hx : x ≠ 0) : (10 : ℚ) ^ exponent x ≤ |x| := by
  exact_mod_cast @Int.zpow_log_le_self ℚ _ _ _ _ 10 |x| (by decide) (abs_pos.mpr hx)

/-- INTERNAL: the exponent of a number from above. -/
theorem lt_zpow_exponent (x : ℚ) : |x| < (10 : ℚ) ^ (exponent x + 1) := by
  exact_mod_cast @Int.lt_zpow_succ_log_self ℚ _ _ _ _ 10 (by decide) |x|

/-- INTERNAL: the exponent of a number below a power of ten. -/
theorem exponent_lt {e : ℤ} (hx : x ≠ 0) (h : |x| < 10 ^ e) : exponent x < e := by
  rw [exponent, ← Int.lt_zpow_iff_log_lt (by decide) (abs_pos.mpr hx)]
  exact_mod_cast h

/-- INTERNAL: the exponent of a number from a power of ten on. -/
theorem le_exponent {e : ℤ} (hx : x ≠ 0) (h : 10 ^ e ≤ |x|) : e ≤ exponent x := by
  rw [exponent, ← Int.zpow_le_iff_le_log (by decide) (abs_pos.mpr hx)]
  exact_mod_cast h

/-- INTERNAL: a power of ten is split. -/
theorem zpow_mul_zpow_sub (a b : ℤ) : (10 : ℚ) ^ a * 10 ^ (b - a) = 10 ^ b := by
  rw [← zpow_add₀ (by norm_num), add_sub_cancel]

/-- INTERNAL: the twelve digits are what is rounded. -/
theorem twelveDigits_eq (x : ℚ) :
    (twelveDigits x : ℤ) = roundHalfEven (|x| * 10 ^ (11 - exponent x)) := by
  have hvalue : |x| / 10 ^ (exponent x - 11) = |x| * 10 ^ (11 - exponent x) := by
    rw [div_eq_mul_inv, ← zpow_neg, neg_sub]
  rw [twelveDigits, hvalue, Int.toNat_of_nonneg]
  apply le_roundHalfEven
  rw [Int.cast_zero]
  positivity

/-- INTERNAL: the first digit is not zero. -/
theorem le_twelveDigits (hx : x ≠ 0) : 10 ^ 11 ≤ twelveDigits x := by
  zify
  rw [twelveDigits_eq]
  apply le_roundHalfEven
  calc (((10 : ℤ) ^ 11 : ℤ) : ℚ) = 10 ^ exponent x * 10 ^ (11 - exponent x) := by
        rw [zpow_mul_zpow_sub]
        norm_num
    _ ≤ |x| * 10 ^ (11 - exponent x) := by
        gcongr
        exact zpow_exponent_le hx

/-- INTERNAL: rounding can carry, but no further than to a one in front. -/
theorem twelveDigits_le (x : ℚ) : twelveDigits x ≤ 10 ^ 12 := by
  zify
  rw [twelveDigits_eq]
  apply roundHalfEven_le
  calc |x| * 10 ^ (11 - exponent x) ≤ 10 ^ (exponent x + 1) * 10 ^ (11 - exponent x) := by
        gcongr
        exact (lt_zpow_exponent x).le
    _ = (((10 : ℤ) ^ 12 : ℤ) : ℚ) := by
        rw [← zpow_add₀ (by norm_num), show exponent x + 1 + (11 - exponent x) = 12 by omega]
        norm_num

/-- INTERNAL: twelve digits of a number are not below the power of ten of its exponent. -/
theorem zpow_exponent_le_significant (hx : x ≠ 0) : (10 : ℚ) ^ exponent x ≤ significant x := by
  rw [significant, le_div_iff₀ (by positivity), zpow_mul_zpow_sub]
  exact_mod_cast le_twelveDigits hx

/-- INTERNAL: twelve digits of a number do not pass the next power of ten. -/
theorem significant_le_zpow (x : ℚ) : significant x ≤ 10 ^ (exponent x + 1) := by
  rw [significant, div_le_iff₀ (by positivity), ← zpow_add₀ (by norm_num),
    show exponent x + 1 + (11 - exponent x) = 12 by omega]
  exact_mod_cast twelveDigits_le x

/-- INTERNAL: **rounding to twelve digits keeps the order.**  With the same exponent it is one
rounding for both; otherwise a power of ten lies between. -/
theorem significant_mono {y : ℚ} (hx : x ≠ 0) (hy : y ≠ 0) (h : |x| ≤ |y|) :
    significant x ≤ significant y := by
  have hexp : exponent x ≤ exponent y := Int.log_mono_right (abs_pos.mpr hx) h
  rcases hexp.lt_or_eq with hlt | heq
  · calc significant x ≤ 10 ^ (exponent x + 1) := significant_le_zpow x
      _ ≤ 10 ^ exponent y := zpow_le_zpow_right₀ (by norm_num) (by omega)
      _ ≤ significant y := zpow_exponent_le_significant hy
  · have hdigits : (twelveDigits x : ℤ) ≤ twelveDigits y := by
      rw [twelveDigits_eq, twelveDigits_eq, heq]
      apply roundHalfEven_mono
      gcongr
    rw [significant, significant, heq]
    gcongr
    exact_mod_cast hdigits

/-- INTERNAL: a number of at most twelve digits is not rounded. -/
theorem significant_of_int {z : ℤ} (h : |x| * 10 ^ (11 - exponent x) = z) :
    significant x = |x| := by
  have hdigits : (twelveDigits x : ℤ) = z := by rw [twelveDigits_eq, h, roundHalfEven_intCast]
  rw [significant, div_eq_iff (by positivity), h]
  exact_mod_cast hdigits

/-- INTERNAL: the digits in front of the point. -/
theorem whole_twelveDigits (hplaces : 0 ≤ 11 - exponent x) :
    twelveDigits x / 10 ^ (11 - exponent x).toNat = ⌊significant x⌋₊ := by
  have hpow : (10 : ℚ) ^ (11 - exponent x) = ((10 ^ (11 - exponent x).toNat : ℕ) : ℚ) := by
    rw [Nat.cast_pow, Nat.cast_ofNat, ← zpow_natCast, Int.toNat_of_nonneg hplaces]
  rw [significant, hpow, Nat.floor_div_eq_div]

/-- INTERNAL: below `1e+11` there is at least one place behind the point. -/
theorem exponent_lt_of_significant (hx : x ≠ 0) (h : significant x < 10 ^ 11) :
    exponent x < 11 := by
  have hpow : (10 : ℚ) ^ exponent x < 10 ^ (11 : ℤ) :=
    (zpow_exponent_le_significant hx).trans_lt (by exact_mod_cast h)
  exact (zpow_lt_zpow_iff_right₀ (by norm_num)).mp hpow

end Significant

section Hundredths

variable {x : ℚ} {a : ℕ}

/-- INTERNAL: below `1e+11` rounding to twelve digits leaves the number of digits in front of
the point alone.  Up to ten of them the number is not rounded at all. -/
theorem length_whole_significant (hx : x ≠ 0) (habs : |x| = (a : ℚ) / 100)
    (h : a + 5 < 10 ^ 13) :
    significant x < 10 ^ 11 ∧
      (decimalNat ⌊significant x⌋₊).length = (decimalNat (a / 100)).length := by
  have hcast : (a : ℚ) + 5 < 10 ^ 13 := by exact_mod_cast h
  have hexp : exponent x < 10 + 1 := by
    apply exponent_lt hx
    rw [habs]
    norm_num
    linarith
  rcases (Int.lt_add_one_iff.mp hexp).lt_or_eq with hlt | heq
  · -- a hundredth is one of the twelve digits
    have hexact : significant x = |x| := by
      apply significant_of_int (z := a * 10 ^ (9 - exponent x).toNat)
      have hpow : (10 : ℚ) ^ (11 - exponent x) = 10 ^ (9 - exponent x).toNat * 100 := by
        rw [← zpow_natCast, Int.toNat_of_nonneg (by omega),
          show (100 : ℚ) = 10 ^ (2 : ℤ) by norm_num, ← zpow_add₀ (by norm_num)]
        congr 1
        omega
      rw [habs, hpow]
      push_cast
      ring
    have hfloor : ⌊(a : ℚ) / 100⌋₊ = a / 100 := by
      rw [Nat.floor_div_ofNat, Nat.floor_natCast]
    rw [hexact, habs, hfloor]
    refine ⟨?_, rfl⟩
    linarith
  · have hdigits : twelveDigits x ≤ 10 ^ 12 - 1 := by
      zify
      rw [twelveDigits_eq]
      apply roundHalfEven_le_of_lt
      rw [habs, heq]
      norm_num
      linarith
    have hlow := zpow_exponent_le hx
    have hsig := zpow_exponent_le_significant hx
    rw [heq] at hlow hsig
    rw [habs] at hlow
    have hupper : significant x < 10 ^ 11 := by
      have hcast : (twelveDigits x : ℚ) < 10 ^ 12 := by
        exact_mod_cast (by omega : twelveDigits x < 10 ^ 12)
      rw [significant, heq, div_lt_iff₀ (by positivity)]
      norm_num at hcast ⊢
      linarith
    refine ⟨hupper, ?_⟩
    have hfloor : 10 ^ 10 ≤ ⌊significant x⌋₊ := by
      apply Nat.le_floor
      exact_mod_cast hsig
    have hfloor' : ⌊significant x⌋₊ < 10 ^ 11 := by
      rw [Nat.floor_lt (le_trans (by positivity) hsig)]
      exact_mod_cast hupper
    have hwhole : 10 ^ 12 ≤ a := by
      have hcast : (10 : ℚ) ^ 12 ≤ a := by
        norm_num at hlow
        linarith
      exact_mod_cast hcast
    rw [length_decimalNat_eq (m := 10) hfloor hfloor',
      length_decimalNat_eq (m := 10) (by omega) (by omega)]

/-- INTERNAL: from `1e+11` on, where the last half tenth below counts too, rounding does not go
below. -/
theorem significant_large (hx : x ≠ 0) (habs : |x| = (a : ℚ) / 100) (h : 10 ^ 13 ≤ a + 5) :
    10 ^ 11 ≤ significant x := by
  have hcast : (10 : ℚ) ^ 13 ≤ a + 5 := by exact_mod_cast h
  have hexp : 10 ≤ exponent x := by
    apply le_exponent hx
    rw [habs]
    norm_num
    linarith
  rcases hexp.lt_or_eq with hlt | heq
  · calc (10 : ℚ) ^ 11 = 10 ^ (11 : ℤ) := by norm_num
      _ ≤ 10 ^ exponent x := zpow_le_zpow_right₀ (by norm_num) (by omega)
      _ ≤ significant x := zpow_exponent_le_significant hx
  · have hdigits : 10 ^ 12 ≤ twelveDigits x := by
      zify
      rw [twelveDigits_eq]
      apply le_roundHalfEven_of_even (by decide)
      rw [habs, ← heq]
      norm_num
      linarith
    have hcast : (10 : ℚ) ^ 12 ≤ twelveDigits x := by exact_mod_cast hdigits
    rw [significant, ← heq, le_div_iff₀ (by positivity)]
    norm_num at hcast ⊢
    linarith

end Hundredths

section IntegerPart

variable {x : ℚ} {a : ℕ}

/-- INTERNAL: the integer part of a number, with its sign. -/
def integerPart (x : ℚ) : List Byte := minus x ++ decimalNat ⌊|x|⌋₊

/-- INTERNAL: the integer part of a number of hundredths. -/
theorem integerPart_eq (habs : |x| = (a : ℚ) / 100) :
    integerPart x = minus x ++ decimalNat (a / 100) := by
  rw [integerPart, habs, Nat.floor_div_ofNat, Nat.floor_natCast]

/-- INTERNAL: the sign of an integer. -/
theorem decimalInt_eq (n : ℤ) : decimalInt n = minus n ++ decimalNat n.natAbs := by
  unfold decimalInt minus
  simp only [Int.cast_lt_zero]
  split_ifs <;> rfl

/-- INTERNAL: a sign is not a point. -/
theorem minus_ne_point (x : ℚ) : ∀ b ∈ minus x, decide (b ≠ 46) = true := by
  unfold minus
  split_ifs <;> simp

/-- INTERNAL: a digit is not a point. -/
theorem digits_ne_point {s : List Byte} (h : Digits s) : ∀ b ∈ s, decide (b ≠ 46) = true := by
  intro b hb
  rw [decide_eq_true_iff]
  rintro rfl
  exact h.not_mem (by decide) hb

/-- INTERNAL: the two notations of a `float`. -/
theorem str_float (x : ℚ) : (Value.float x).str = minus x ++
    if significant x < 10 ^ 11 then
      decimalNat (twelveDigits x / 10 ^ (11 - exponent x).toNat) ++
        46 :: fraction (fixedDigits (11 - exponent x).toNat (twelveDigits x))
    else scientific x := rfl

/-- INTERNAL: the characters `generate_record` counts are the integer part.
SRCLINE: data_generator.py:51 -/
theorem length_whole_str (hx : x ≠ 0) (habs : |x| = (a : ℚ) / 100) (h : a + 5 < 10 ^ 13) :
    ((Value.float x).str.takeWhile (· ≠ 46)).length = (integerPart x).length := by
  obtain ⟨hlt, hlen⟩ := length_whole_significant hx habs h
  have hexp := exponent_lt_of_significant hx hlt
  rw [str_float, if_pos hlt, whole_twelveDigits (by omega),
    List.takeWhile_append_of_pos (minus_ne_point x),
    List.takeWhile_append_of_pos (digits_ne_point (digits_decimalNat _)), integerPart_eq habs]
  simp [hlen]

/-- INTERNAL: what is in front of a point, in a text with more behind it. -/
theorem length_takeWhile_pointText_le (w f r : List Byte) :
    ((pointText w f ++ r).takeWhile (· ≠ 46)).length ≤ w.length + r.length := by
  unfold pointText
  split_ifs
  · exact (List.takeWhile_sublist _).length_le.trans_eq List.length_append
  · rw [List.append_assoc, List.takeWhile_append]
    split_ifs
    · simp
    · exact (List.takeWhile_sublist _).length_le.trans (Nat.le_add_right _ _)

/-- INTERNAL: in scientific notation they are at least two fewer.
SRCLINE: data_generator.py:51 -/
theorem length_whole_str_le (hx : x ≠ 0) (habs : |x| = (a : ℚ) / 100) (h : 10 ^ 13 ≤ a + 5) :
    ((Value.float x).str.takeWhile (· ≠ 46)).length + 2 ≤ (integerPart x).length := by
  have hlarge := significant_large hx habs h
  have hdigits : (decimalNat (twelveDigits x)).length ≤ 13 :=
    length_decimalNat_le (by decide) ((twelveDigits_le x).trans_lt (by decide))
  obtain ⟨W, hW⟩ : ∃ W, (decimalNat (a / 100)).length = W + 11 := by
    have hlow := (Nat.pow_lt_pow_iff_right (by decide)).mp
      (lt_of_le_of_lt (by omega : 10 ^ 10 ≤ a / 100) (lt_pow_length_decimalNat _))
    exact ⟨_, (Nat.sub_add_cancel hlow).symm⟩
  -- the integer part has a digit more than the exponent says, so the exponent has few digits
  have hexp : exponent x < W + 11 := by
    apply exponent_lt hx
    have hlt : a < 10 ^ (W + 11) * 100 := by
      rw [← Nat.div_lt_iff_lt_mul (by decide), ← hW]
      exact lt_pow_length_decimalNat _
    rw [habs, div_lt_iff₀ (by norm_num)]
    exact_mod_cast hlt
  have hfew : (decimalNat (exponent x + ((decimalNat (twelveDigits x)).length - 12)).toNat).length ≤
      W + 6 := by
    apply length_decimalNat_le (by omega)
    have hpow := Nat.lt_pow_self (n := W + 5) (a := 10) (by decide)
    rw [Nat.pow_succ]
    omega
  rw [str_float, if_neg (not_lt.mpr hlarge), scientific, List.append_assoc,
    List.takeWhile_append_of_pos (minus_ne_point x), List.length_append, integerPart_eq habs,
    List.length_append]
  have hfront := length_takeWhile_pointText_le
    (((decimalNat (twelveDigits x)).rdropWhile (· = digitByte 0)).take 1)
    (((decimalNat (twelveDigits x)).rdropWhile (· = digitByte 0)).drop 1)
    ([101, 43] ++ decimalNat (exponent x + ((decimalNat (twelveDigits x)).length - 12)).toNat)
  have hone := List.length_take_le 1
    ((decimalNat (twelveDigits x)).rdropWhile (· = digitByte 0))
  rw [List.length_append, List.length_cons, List.length_singleton] at hfront
  omega

end IntegerPart

section Quantize

variable {x : ℚ} {places : ℕ}

/-- INTERNAL: the digits of the field, without the point. -/
def coefficient (x : ℚ) (places : ℕ) : ℕ := (roundHalfEven (|x| * 10 ^ places)).toNat

/-- INTERNAL: the field of a number with the given places behind the point. -/
def fieldText (x : ℚ) (places : ℕ) : List Byte :=
  minus x ++ pointText (decimalNat (coefficient x places / 10 ^ places))
    (fixedDigits places (coefficient x places))

/-- INTERNAL: the field `quantize` gives.
SRCLINE: data_generator.py:53 -/
theorem quantize_eq_ok_iff {s : List Byte} :
    quantize x places = .ok s ↔ coefficient x places < 10 ^ 28 ∧ fieldText x places = s := by
  change (if coefficient x places < 10 ^ 28 then .ok (fieldText x places)
    else .error GeneratorError.invalidOperation) = Except.ok s ↔ _
  by_cases h : coefficient x places < 10 ^ 28
  · rw [if_pos h, Except.ok.injEq]
    exact ⟨fun heq => ⟨h, heq⟩, fun heq => heq.2⟩
  · rw [if_neg h]
    exact iff_of_false nofun fun heq => h heq.1

/-- INTERNAL: the length of a field. -/
theorem length_fieldText (x : ℚ) (places : ℕ) :
    (fieldText x places).length =
      (minus x).length + (decimalNat (coefficient x places / 10 ^ places)).length +
        if places = 0 then 0 else places + 1 := by
  rw [fieldText, List.length_append, length_pointText]
  simp only [fixedDigits_eq_nil_iff, length_fixedDigits]
  omega

/-- INTERNAL: with the same places, a larger number has no smaller coefficient. -/
theorem coefficient_mono {y : ℚ} (h : |x| ≤ |y|) (places : ℕ) :
    coefficient x places ≤ coefficient y places := by
  apply Int.toNat_le_toNat
  apply roundHalfEven_mono
  gcongr

/-- INTERNAL: rounding keeps at least the integer part. -/
theorem whole_le_coefficient (x : ℚ) (places : ℕ) :
    ⌊|x|⌋₊ ≤ coefficient x places / 10 ^ places := by
  rw [Nat.le_div_iff_mul_le (by positivity), coefficient]
  have hround : ((⌊|x|⌋₊ * 10 ^ places : ℕ) : ℤ) ≤ roundHalfEven (|x| * 10 ^ places) := by
    apply le_roundHalfEven
    rw [Int.cast_natCast, Nat.cast_mul, Nat.cast_pow, Nat.cast_ofNat]
    gcongr
    exact Nat.floor_le (abs_nonneg x)
  exact Int.ofNat_le.mp (hround.trans (Int.self_le_toNat _))

/-- INTERNAL: a field is at least as long as the integer part and the places. -/
theorem length_integerPart_le (x : ℚ) (places : ℕ) :
    (integerPart x).length + (if places = 0 then 0 else places + 1) ≤
      (fieldText x places).length := by
  have hwhole := length_decimalNat_mono (whole_le_coefficient x places)
  rw [length_fieldText, integerPart, List.length_append]
  omega

variable {a : ℕ} (habs : |x| = (a : ℚ) / 100)

include habs

/-- INTERNAL: with two places or more no hundredths are rounded. -/
theorem coefficient_exact (h : 2 ≤ places) : coefficient x places = a * 10 ^ (places - 2) := by
  obtain ⟨k, rfl⟩ := Nat.exists_eq_add_of_le' h
  have hvalue : |x| * 10 ^ (k + 2) = ((a * 10 ^ k : ℕ) : ℤ) := by
    rw [habs]
    push_cast
    ring
  rw [coefficient, hvalue, roundHalfEven_intCast, Int.toNat_natCast, Nat.add_sub_cancel]

/-- INTERNAL: with one place, half a tenth is rounded to an even digit, and that of a power
of ten is even. -/
theorem coefficient_one_lt_iff (m : ℕ) :
    coefficient x 1 < 10 ^ (m + 1) ↔ a + 5 < 10 ^ (m + 2) := by
  have hpow : (10 : ℤ) ^ (m + 1) % 2 = 0 := by
    rw [pow_succ, Int.mul_emod]
    simp
  constructor
  · contrapose!
    intro hge
    have hcast : (10 : ℚ) ^ (m + 1) * 10 ≤ a + 5 := by exact_mod_cast hge
    have hround : (10 : ℤ) ^ (m + 1) ≤ roundHalfEven (|x| * 10 ^ 1) := by
      apply le_roundHalfEven_of_even hpow
      rw [Int.cast_pow, Int.cast_ofNat, habs]
      linarith
    rw [coefficient]
    zify
    exact hround.trans (Int.self_le_toNat _)
  · intro hlt
    have hcast : (a : ℚ) + 5 < 10 ^ (m + 1) * 10 := by exact_mod_cast hlt
    have hround : roundHalfEven (|x| * 10 ^ 1) ≤ 10 ^ (m + 1) - 1 := by
      apply roundHalfEven_le_of_lt
      rw [Int.cast_sub, Int.cast_pow, Int.cast_ofNat, Int.cast_one, habs]
      linarith
    have hpos : 0 < 10 ^ (m + 1) := by positivity
    rw [coefficient, Int.toNat_lt' hpos]
    push_cast
    omega

/-- INTERNAL: the coefficient has at most 28 digits. -/
theorem coefficient_lt_of_fits (h : a * 10 ^ places < 10 ^ 30) (hone : 1 ≤ places)
    (hbound : a + 5 < 10 ^ 13) : coefficient x places < 10 ^ 28 := by
  rcases Nat.lt_or_ge places 2 with hlt | htwo
  · obtain rfl : places = 1 := by omega
    have hfew := (coefficient_one_lt_iff habs 11).mpr hbound
    exact hfew.trans (by decide)
  · rw [coefficient_exact habs htwo]
    rw [← Nat.sub_add_cancel htwo, pow_add, ← mul_assoc] at h
    exact Nat.lt_of_mul_lt_mul_right (a := 10 ^ 2) h

/-- INTERNAL: rounding leaves the number of digits in front of the point alone, unless it
carries, which takes a single place. -/
theorem length_whole_fieldText (hone : 1 ≤ places)
    (hcarry : places = 1 → a + 5 < 10 ^ ((decimalNat (a / 100)).length + 2)) :
    (decimalNat (coefficient x places / 10 ^ places)).length = (decimalNat (a / 100)).length := by
  rcases Nat.lt_or_ge places 2 with hlt | htwo
  · obtain rfl : places = 1 := by omega
    have hcoef := (coefficient_one_lt_iff habs _).mpr (hcarry rfl)
    rw [pow_succ, ← Nat.div_lt_iff_lt_mul (by decide)] at hcoef
    have hwhole := length_decimalNat_mono (whole_le_coefficient x 1)
    rw [habs, Nat.floor_div_ofNat, Nat.floor_natCast] at hwhole
    exact le_antisymm (length_decimalNat_le (length_decimalNat_pos _) hcoef) hwhole
  · rw [coefficient_exact habs htwo]
    conv_lhs => rw [← Nat.sub_add_cancel htwo]
    rw [Nat.add_sub_cancel, pow_add, mul_comm a, Nat.mul_div_mul_left _ _ (by positivity)]
    norm_num

end Quantize

section Format

variable {type : Option (List Byte)} {length : ℤ} {x : ℚ} {a : ℕ} {s : List Byte}

/-- INTERNAL: the places that are left behind the integer part and the point. -/
def placesFor (length : ℤ) (x : ℚ) : ℕ := (length - (integerPart x).length - 1).toNat

/-- INTERNAL: what a column that is not of integers asks `quantize` for.
SRCLINE: data_generator.py:51-53 -/
theorem format_plain (htype : type ≠ some integerType) (hx : x ≠ 0) (habs : |x| = (a : ℚ) / 100)
    (hplain : a + 5 < 10 ^ 13) :
    formatValue type length (.float x) = quantize x (placesFor length x) := by
  rw [formatValue, if_neg htype, length_whole_str hx habs hplain, placesFor, Value.toRat]

/-- INTERNAL: **what a field of exactly the width of its column is.**  A number that `str`
writes in scientific notation always gets a field that is too long.
SRCLINE: data_generator.py:51-53 -/
theorem format_exact (htype : type ≠ some integerType) (hx : x ≠ 0) (habs : |x| = (a : ℚ) / 100)
    (h : formatValue type length (.float x) = .ok s) (hlen : (s.length : ℤ) = length) :
    a + 5 < 10 ^ 13 ∧ s = fieldText x (placesFor length x) := by
  have hplain : a + 5 < 10 ^ 13 := by
    by_contra hlarge
    have hfew := length_whole_str_le hx habs (not_lt.mp hlarge)
    rw [formatValue, if_neg htype, quantize_eq_ok_iff, Value.toRat] at h
    have htext := congrArg List.length h.2
    have hlong := length_integerPart_le x
      (length - ((Value.float x).str.takeWhile (· ≠ 46)).length - 1).toNat
    split_ifs at hlong <;> omega
  rw [format_plain htype hx habs hplain, quantize_eq_ok_iff] at h
  exact ⟨hplain, h.2.symm⟩

/-- INTERNAL: **when a `float` fits.**  Its integer part leaves room for at least one digit
behind the point.  With one such digit, rounding may not carry into a new one in front; and
`quantize` has 28 digits.
SRCLINE: data_generator.py:51-53 -/
theorem format_float_iff (htype : type ≠ some integerType) (hx : x ≠ 0)
    (habs : |x| = (a : ℚ) / 100) (hroom : ((integerPart x).length : ℤ) + 2 ≤ length) :
    (∃ s, formatValue type length (.float x) = .ok s ∧ (s.length : ℤ) = length) ↔
      a + 5 < 10 ^ 13 ∧
      (placesFor length x = 1 → a + 5 < 10 ^ ((decimalNat (a / 100)).length + 2)) ∧
      a * 10 ^ placesFor length x < 10 ^ 30 := by
  have hplaces : (placesFor length x : ℤ) = length - (integerPart x).length - 1 :=
    Int.toNat_of_nonneg (by omega)
  have hpos : 1 ≤ placesFor length x := by omega
  have hlength := length_fieldText x (placesFor length x)
  rw [if_neg (by omega)] at hlength
  have hinteger := congrArg List.length (integerPart_eq habs)
  rw [List.length_append] at hinteger
  have hwhole := length_decimalNat_pos (a / 100)
  constructor
  · rintro ⟨s, hs, hlen⟩
    obtain ⟨hplain, rfl⟩ := format_exact htype hx habs hs hlen
    rw [format_plain htype hx habs hplain, quantize_eq_ok_iff] at hs
    refine ⟨hplain, fun hone => ?_, ?_⟩
    · rw [hone] at hlength hlen
      apply (coefficient_one_lt_iff habs _).mp
      rw [pow_succ, ← Nat.div_lt_iff_lt_mul (by decide)]
      have hdigits := lt_pow_length_decimalNat (coefficient x 1 / 10 ^ 1)
      rwa [show (decimalNat (coefficient x 1 / 10 ^ 1)).length =
        (decimalNat (a / 100)).length by omega] at hdigits
    · rcases Nat.lt_or_ge (placesFor length x) 2 with hone | htwo
      · calc a * 10 ^ placesFor length x ≤ a * 10 ^ 1 :=
              Nat.mul_le_mul_left _ (Nat.pow_le_pow_right (by decide) (by omega))
          _ < 10 ^ 30 := by omega
      · rw [← Nat.sub_add_cancel htwo, pow_add, ← mul_assoc, ← coefficient_exact habs htwo]
        exact Nat.mul_lt_mul_of_pos_right hs.1 (by decide)
  · rintro ⟨hplain, hone, hlimit⟩
    refine ⟨fieldText x (placesFor length x), ?_, ?_⟩
    · rw [format_plain htype hx habs hplain, quantize_eq_ok_iff]
      exact ⟨coefficient_lt_of_fits habs hlimit hpos hplain, rfl⟩
    · rw [length_whole_fieldText habs hpos hone] at hlength
      omega

/-- INTERNAL: zeros go between the sign and the digits.
SRCLINE: data_generator.py:49 -/
theorem zfill_signed {text : List Byte} (hhead : text.head? ≠ some 45) (length : ℤ) :
    zfill (minus x ++ text) length = minus x ++
      (List.replicate (length - (minus x ++ text).length).toNat (digitByte 0) ++ text) := by
  unfold zfill minus
  by_cases hneg : x < 0
  · simp [if_pos hneg]
  · simp [if_neg hneg, hhead]

/-- INTERNAL: the length of a padded text. -/
theorem length_zfill {text : List Byte} (hhead : text.head? ≠ some 45) (length : ℤ) :
    ((zfill (minus x ++ text) length).length : ℤ) = max ((minus x ++ text).length : ℤ) length := by
  rw [zfill_signed hhead]
  simp only [List.length_append, List.length_replicate]
  omega

end Format

section Clean

/-- INTERNAL: the bytes of a field: no separator, line end or NUL. -/
def Clean (s : List Byte) : Prop := ∀ b ∈ s, 43 ≤ (b : ℕ) ∧ b ≠ 44

/-- INTERNAL: clean texts one behind the other. -/
theorem clean_append {s t : List Byte} (hs : Clean s) (ht : Clean t) : Clean (s ++ t) := by
  intro b hb
  cases List.mem_append.mp hb with
  | inl h => exact hs b h
  | inr h => exact ht b h

/-- INTERNAL: digits are clean. -/
theorem clean_of_digits {s : List Byte} (h : Digits s) : Clean s := by
  intro b hb
  obtain ⟨d, hd, rfl⟩ := h b hb
  refine ⟨?_, digitByte_ne hd (by decide)⟩
  rw [val_digitByte hd]
  omega

/-- INTERNAL: a sign is clean. -/
theorem clean_minus (x : ℚ) : Clean (minus x) := by
  unfold minus
  split_ifs <;> simp [Clean]

/-- INTERNAL: a point is clean. -/
theorem clean_pointText {w f : List Byte} (hw : Clean w) (hf : Clean f) :
    Clean (pointText w f) := by
  unfold pointText
  split_ifs
  · exact hw
  · exact clean_append hw (clean_append (s := [46]) (by simp [Clean]) hf)

/-- INTERNAL: what is left of digits is digits. -/
theorem digits_of_sublist {s t : List Byte} (hs : Digits s) (h : t.Sublist s) : Digits t :=
  fun b hb => hs b (h.subset hb)

/-- INTERNAL: the digits behind a point are digits, and there is one. -/
theorem digits_fraction {s : List Byte} (hs : Digits s) :
    Digits (fraction s) ∧ fraction s ≠ [] := by
  unfold fraction
  dsimp only
  split_ifs with h
  · exact ⟨digits_replicate 1, List.cons_ne_nil _ _⟩
  · exact ⟨digits_of_sublist hs (List.rdropWhile_prefix _ _).sublist, h⟩

/-- INTERNAL: the text of a number without its sign, taken apart: digits, more of them behind a
point, and an exponent. -/
structure NumberText (text w f e : List Byte) : Prop where
  eq : text = pointText w f ++ e
  digits : Digits (w ++ f)
  whole_ne : w ≠ []
  exponent : e = [] ∨ ∃ e', e = 101 :: 43 :: e' ∧ Digits e'

/-- INTERNAL: the digits of a coefficient, with the point anywhere. -/
theorem numeralValue_coefficient (c places : ℕ) :
    numeralValue (decimalNat (c / 10 ^ places) ++ fixedDigits places c) = c := by
  rw [numeralValue_append, numeralValue_decimalNat, numeralValue_fixedDigits, length_fixedDigits,
    mul_comm, Nat.div_add_mod]

/-- INTERNAL: what `quantize` writes has no exponent. -/
theorem numberText_field (x : ℚ) (places : ℕ) :
    NumberText (pointText (decimalNat (coefficient x places / 10 ^ places))
      (fixedDigits places (coefficient x places)))
      (decimalNat (coefficient x places / 10 ^ places))
      (fixedDigits places (coefficient x places)) [] where
  eq := (List.append_nil _).symm
  digits := (digits_decimalNat _).append (digits_fixedDigits _ _)
  whole_ne := decimalNat_ne_nil _
  exponent := Or.inl rfl

/-- INTERNAL: scientific notation has an exponent. -/
theorem scientific_text {x : ℚ} (hx : x ≠ 0) :
    ∃ w f e, NumberText (scientific x) w f e ∧ e ≠ [] := by
  have hkept : (decimalNat (twelveDigits x)).rdropWhile (· = digitByte 0) ≠ [] := by
    rw [ne_eq, List.rdropWhile_eq_nil_iff]
    intro hall
    -- a number of zeros only would be zero
    have hzero : decimalNat (twelveDigits x) =
        List.replicate (decimalNat (twelveDigits x)).length (digitByte 0) :=
      List.eq_replicate_of_mem fun b hb => of_decide_eq_true (hall b hb)
    have hvalue := numeralValue_decimalNat (twelveDigits x)
    rw [hzero, numeralValue_replicate] at hvalue
    have hpos := le_twelveDigits hx
    omega
  have hdigits := digits_of_sublist (digits_decimalNat (twelveDigits x))
    (List.rdropWhile_prefix (· = digitByte 0) _).sublist
  refine ⟨_, _, _, ⟨List.append_assoc _ _ _, ?_, ?_, Or.inr ⟨_, rfl, digits_decimalNat _⟩⟩,
    List.cons_ne_nil _ _⟩
  · rw [List.take_append_drop]
    exact hdigits
  · rw [ne_eq, List.take_eq_nil_iff]
    simp [hkept]

/-- INTERNAL: zeros at the end of a fraction do not count.  The induction takes the last digit
away. -/
theorem numeralValue_fraction (w d : List Byte) :
    numeralValue (w ++ fraction d) * 10 ^ d.length =
      numeralValue (w ++ d) * 10 ^ (fraction d).length := by
  have hzero : numeralValue [digitByte 0] = 0 := numeralValue_replicate 1
  induction d using List.reverseRecOn with
  | nil =>
    have hfraction : fraction [] = [digitByte 0] := rfl
    rw [hfraction, numeralValue_append, hzero, List.append_nil]
    simp
  | append_singleton d x ih =>
    by_cases hx : x = digitByte 0
    · have hfraction : fraction (d ++ [x]) = fraction d := by
        rw [fraction, List.rdropWhile_concat_pos _ _ x (by simpa using hx), fraction]
      rw [hfraction, hx, ← List.append_assoc, numeralValue_append (w ++ d), hzero,
        List.length_append, List.length_singleton, pow_succ, ← mul_assoc, ih]
      ring
    · have hfraction : fraction (d ++ [x]) = d ++ [x] := by
        rw [fraction, List.rdropWhile_concat_neg _ _ x (by simpa using hx), if_neg (by simp)]
      rw [hfraction]

/-- INTERNAL: the number `str` writes: an `int` as it is, a `float` with twelve digits. -/
def writtenValue : Value → ℚ
  | .int n => |(n : ℚ)|
  | .float x => significant x

/-- INTERNAL: **`str` of a number that is not zero.**  Without an exponent, its digits are those
of the number it writes. -/
theorem str_text {v : Value} (hv : v.toRat ≠ 0) :
    ∃ text w f e, v.str = minus v.toRat ++ text ∧ NumberText text w f e ∧
      (e = [] → (numeralValue (w ++ f) : ℚ) = writtenValue v * 10 ^ f.length) := by
  cases v with
  | int n =>
    refine ⟨_, decimalNat n.natAbs, [], [], decimalInt_eq n, ⟨?_, ?_, decimalNat_ne_nil _,
      Or.inl rfl⟩, fun _ => ?_⟩
    · rw [pointText, if_pos rfl, List.append_nil]
    · rw [List.append_nil]
      exact digits_decimalNat _
    · rw [List.append_nil, numeralValue_decimalNat, List.length_nil, pow_zero, mul_one,
        writtenValue, Nat.cast_natAbs, Int.cast_abs]
  | float x =>
    change x ≠ 0 at hv
    rw [str_float]
    split_ifs with hplain
    · have hexp := exponent_lt_of_significant hv hplain
      generalize hplaces : (11 - exponent x).toNat = places
      obtain ⟨hdigits, hne⟩ := digits_fraction (digits_fixedDigits places (twelveDigits x))
      refine ⟨_, decimalNat (twelveDigits x / 10 ^ places), _, [], rfl, ⟨?_,
        (digits_decimalNat _).append hdigits, decimalNat_ne_nil _, Or.inl rfl⟩, fun _ => ?_⟩
      · rw [pointText, if_neg hne, List.append_nil]
      · have hvalue := numeralValue_fraction (decimalNat (twelveDigits x / 10 ^ places))
          (fixedDigits places (twelveDigits x))
        rw [length_fixedDigits, numeralValue_coefficient] at hvalue
        have hpow : (10 : ℚ) ^ (11 - exponent x) = 10 ^ places := by
          rw [← zpow_natCast, ← hplaces, Int.toNat_of_nonneg (by omega)]
        rw [writtenValue, significant, hpow, div_mul_eq_mul_div, eq_div_iff (by positivity)]
        exact_mod_cast hvalue
    · obtain ⟨w, f, e, htext, he⟩ := scientific_text hv
      exact ⟨_, w, f, e, rfl, htext, fun hnil => absurd hnil he⟩

/-- INTERNAL: a number without its sign does not begin with one. -/
theorem NumberText.head_ne {text w f e : List Byte} (h : NumberText text w f e) :
    text.head? ≠ some 45 := by
  obtain ⟨d, w, rfl⟩ := List.exists_cons_of_ne_nil h.whole_ne
  have hne : d ≠ 45 := fun heq => h.digits.of_append.1.not_mem (b := 45) (by decide)
    (by rw [heq]; exact List.mem_cons_self ..)
  rw [h.eq]
  unfold pointText
  split_ifs <;> simp [hne]

/-- INTERNAL: the text of a number is clean, and not empty. -/
theorem NumberText.clean {text w f e : List Byte} (h : NumberText text w f e) :
    Clean text ∧ text ≠ [] := by
  obtain ⟨hw, hf⟩ := h.digits.of_append
  rw [h.eq]
  constructor
  · refine clean_append (clean_pointText (clean_of_digits hw) (clean_of_digits hf)) ?_
    rcases h.exponent with rfl | ⟨e, rfl, he⟩
    · exact nofun
    · exact clean_append (s := [101, 43]) (by simp [Clean]) (clean_of_digits he)
  · apply List.append_ne_nil_of_left_ne_nil
    rw [← List.length_pos_iff, length_pointText]
    have hpos := List.length_pos_iff.mpr h.whole_ne
    omega

/-- INTERNAL: **the field of a number that is not zero** does not break the line, and is not
empty. -/
theorem formatValue_clean {type : Option (List Byte)} {length : ℤ} {v : Value} {s : List Byte}
    (hv : v.toRat ≠ 0) (h : formatValue type length v = .ok s) : Clean s ∧ s ≠ [] := by
  unfold formatValue at h
  split_ifs at h
  · cases h
    obtain ⟨text, w, f, e, hstr, htext, -⟩ := str_text hv
    obtain ⟨hclean, hne⟩ := htext.clean
    rw [hstr, zfill_signed htext.head_ne]
    exact ⟨clean_append (clean_minus _)
      (clean_append (clean_of_digits (digits_replicate _)) hclean),
      List.append_ne_nil_of_right_ne_nil _ (List.append_ne_nil_of_right_ne_nil _ hne)⟩
  · obtain ⟨-, rfl⟩ := quantize_eq_ok_iff.mp h
    obtain ⟨hclean, hne⟩ := (numberText_field v.toRat _).clean
    exact ⟨clean_append (clean_minus _) hclean, List.append_ne_nil_of_right_ne_nil _ hne⟩

/-- INTERNAL: the characters of a string are clean. -/
theorem clean_alphabet (s : List (Fin 36)) : Clean (s.map alphabet) := by
  have hall : ∀ i, 43 ≤ (alphabet i : ℕ) ∧ alphabet i ≠ 44 := by decide
  intro b hb
  obtain ⟨i, -, rfl⟩ := List.mem_map.mp hb
  exact hall i

end Clean

end ExternalSort.Analysis
