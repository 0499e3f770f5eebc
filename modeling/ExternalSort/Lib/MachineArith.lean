import Mathlib.Data.Int.Log
import Mathlib.Data.Rat.Floor
import Mathlib.Tactic

/-!
# Machine integers and floating point numbers

The conversions a C++ program applies without saying so: to `size_t`, to `int`, to
`unsigned int`, and from a `double` to an `int` (which gives `INT_MIN` when the value
does not fit, as x86-64 does).  A 24-bit significand is `float` and one of 53 bits `double`: a
rational is rounded to the nearest multiple of its unit in the last place, ties to even.
-/

set_option autoImplicit false

namespace ExternalSort.Lib

/-- INTERNAL: conversion to a 64-bit `size_t` or `unsigned long`. -/
def toSizeT (x : ℤ) : ℕ := (x % 2 ^ 64).toNat

/-- INTERNAL: conversion to a 32-bit `int`, two's complement. -/
def toInt (x : ℤ) : ℤ := Int.bmod x (2 ^ 32)

/-- INTERNAL: conversion to a 32-bit `unsigned int`. -/
def toUnsignedInt (x : ℕ) : ℕ := x % 2 ^ 32

/-- INTERNAL: conversion of an integral `double` to a 32-bit `int`. -/
def doubleToInt (x : ℤ) : ℤ := if -2 ^ 31 ≤ x ∧ x < 2 ^ 31 then x else -2 ^ 31

/-- INTERNAL: the nearest integer, ties to even. -/
def roundHalfEven (x : ℚ) : ℤ :=
  if Int.fract x < 1 / 2 then ⌊x⌋
  else if 1 / 2 < Int.fract x then ⌊x⌋ + 1
  else if ⌊x⌋ % 2 = 0 then ⌊x⌋ else ⌊x⌋ + 1

/-- INTERNAL: the nearest number with a significand of `p` bits. -/
def roundSig (p : ℕ) (x : ℚ) : ℚ :=
  roundHalfEven (x / 2 ^ (Int.log 2 |x| - (p - 1 : ℤ))) * 2 ^ (Int.log 2 |x| - (p - 1 : ℤ))

/-- INTERNAL: rounding to single precision. -/
def float32 (x : ℚ) : ℚ := roundSig 24 x

/-- INTERNAL: rounding to double precision. -/
def float64 (x : ℚ) : ℚ := roundSig 53 x

/-- INTERNAL: a value that fits is not changed by the conversion to `size_t`. -/
theorem toSizeT_of_lt {x : ℤ} (h0 : 0 ≤ x) (h : x < 2 ^ 64) : toSizeT x = x.toNat := by
  unfold toSizeT
  rw [Int.emod_eq_of_lt h0 h]

/-- INTERNAL: the conversion to `int`, written with the remainder. -/
theorem toInt_eq (x : ℤ) :
    toInt x = if x % 4294967296 < 2147483648 then x % 4294967296
      else x % 4294967296 - 4294967296 := by
  unfold toInt Int.bmod
  norm_num

/-- INTERNAL: a value that fits is not changed by the conversion to `int`. -/
theorem toInt_of_lt {x : ℤ} (h0 : -2 ^ 31 ≤ x) (h : x < 2 ^ 31) : toInt x = x := by
  rw [toInt_eq]
  split_ifs <;> omega

/-- INTERNAL: every `int` lies below `2 ^ 31`. -/
theorem toInt_lt (x : ℤ) : toInt x < 2 ^ 31 := by
  rw [toInt_eq]
  split_ifs <;> omega

/-- INTERNAL: the conversion to `int` never makes a non-negative value larger. -/
theorem toInt_le_self {x : ℤ} (h : 0 ≤ x) : toInt x ≤ x := by
  rw [toInt_eq]
  split_ifs <;> omega

/-- A natural number kept in an `int` does not get larger. -/
theorem toNat_toInt_le (n : ℕ) : (toInt n).toNat ≤ n := by
  have hle := toInt_le_self (Int.natCast_nonneg n)
  exact Int.toNat_le.mpr hle

/-- A natural number that does not fit an `int` gets smaller in it. -/
theorem toNat_toInt_lt {n : ℕ} (h : 2 ^ 31 ≤ n) : (toInt n).toNat < n := by
  have hlt := toInt_lt n
  generalize toInt n = x at hlt
  omega

/-- INTERNAL: wrapping at every step is wrapping at the end. -/
theorem toInt_toInt_add (x y : ℤ) : toInt (toInt x + y) = toInt (x + y) := by
  simp only [toInt_eq]
  split_ifs <;> omega

/-- INTERNAL: a sum that wraps at every step, its terms included, is the wrapped sum. -/
theorem foldl_toInt {α : Type} (term : α → ℤ) (l : List α) (start : ℤ) :
    l.foldl (fun sum a => toInt (sum + toInt (term a))) (toInt start) =
      toInt (l.foldl (fun sum a => sum + term a) start) := by
  induction l generalizing start with
  | nil => rfl
  | cons a l ih =>
    have hstep : toInt (toInt start + toInt (term a)) = toInt (start + term a) := by
      rw [toInt_toInt_add, add_comm start, toInt_toInt_add, add_comm (term a)]
    rw [List.foldl_cons, List.foldl_cons, hstep, ih]

/-- INTERNAL: two values become the same `int` if they differ by a multiple of `2 ^ 32`. -/
theorem toInt_eq_toInt_iff (x y : ℤ) : toInt x = toInt y ↔ x % 2 ^ 32 = y % 2 ^ 32 := by
  simp only [toInt_eq]
  split_ifs <;> omega

/-- INTERNAL: how far an `int` is from zero. -/
theorem natAbs_toInt_le (x : ℤ) : (toInt x).natAbs ≤ 2 ^ 31 := by
  rw [toInt_eq]
  split_ifs <;> omega

/-- INTERNAL: a value that fits is not changed by the conversion from `double`. -/
theorem doubleToInt_of_lt {x : ℤ} (h0 : -2 ^ 31 ≤ x) (h : x < 2 ^ 31) : doubleToInt x = x :=
  if_pos ⟨h0, h⟩

end ExternalSort.Lib
