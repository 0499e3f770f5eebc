import ExternalSort.Lib.Bytes
import Mathlib.Data.Nat.Digits.Lemmas

/-!
# Decimal numerals

`decimalNat` and `decimalInt` are the bytes `%d` prints.  Different numbers have different
numerals, and a numeral has no NUL in it.
-/

set_option autoImplicit false

namespace ExternalSort.Lib

/-- INTERNAL: the byte of a decimal digit. -/
def digitByte (d : ℕ) : Byte := Fin.ofNat 256 (48 + d)

/-- INTERNAL: the numeral of a natural number. -/
def decimalNat (n : ℕ) : List Byte :=
  if n = 0 then [digitByte 0] else (Nat.digits 10 n).reverse.map digitByte

/-- INTERNAL: the numeral of an integer, with a sign if it is negative. -/
def decimalInt (z : ℤ) : List Byte :=
  if z < 0 then 45 :: decimalNat z.natAbs else decimalNat z.natAbs

/-- INTERNAL: the byte of a digit as a number. -/
theorem val_digitByte {d : ℕ} (h : d < 10) : ((digitByte d : Byte) : ℕ) = 48 + d := by
  rw [digitByte, Fin.val_ofNat]
  omega

/-- INTERNAL: a digit is not a byte below `0`. -/
theorem digitByte_ne {d : ℕ} (h : d < 10) {b : Byte} (hb : (b : ℕ) < 48) : digitByte d ≠ b := by
  intro heq
  have hval := val_digitByte h
  rw [heq] at hval
  omega

/-- INTERNAL: the digits of a number are below ten. -/
theorem lt_of_mem_digits {n d : ℕ} (h : d ∈ (Nat.digits 10 n).reverse) : d < 10 :=
  Nat.digits_lt_base (by decide) (List.mem_reverse.mp h)

/-- INTERNAL: the bytes of a numeral are bytes of digits. -/
theorem exists_digit_of_mem {n : ℕ} {b : Byte} (h : b ∈ decimalNat n) :
    ∃ d < 10, b = digitByte d := by
  unfold decimalNat at h
  split_ifs at h
  · exact ⟨0, by decide, List.mem_singleton.mp h⟩
  · obtain ⟨d, hd, rfl⟩ := List.mem_map.mp h
    exact ⟨d, lt_of_mem_digits hd, rfl⟩

/-- INTERNAL: the digit a byte stands for. -/
def digitValue (b : Byte) : ℕ := (b : ℕ) - 48

/-- INTERNAL: the number a string of digits stands for. -/
def numeralValue (s : List Byte) : ℕ := Nat.ofDigits 10 (s.map digitValue).reverse

/-- INTERNAL: the value of a numeral with one more digit in front. -/
theorem numeralValue_cons (b : Byte) (s : List Byte) :
    numeralValue (b :: s) = numeralValue s + 10 ^ s.length * digitValue b := by
  rw [numeralValue, List.map_cons, List.reverse_cons, Nat.ofDigits_append, List.length_reverse,
    List.length_map, Nat.ofDigits_singleton]
  rfl

/-- INTERNAL: the numeral of a number stands for it. -/
theorem numeralValue_decimalNat (n : ℕ) : numeralValue (decimalNat n) = n := by
  unfold numeralValue decimalNat
  split_ifs with h
  · subst h
    rfl
  · have hback : ((Nat.digits 10 n).reverse.map digitByte).map digitValue =
        (Nat.digits 10 n).reverse := by
      rw [List.map_map]
      conv_rhs => rw [← List.map_id (Nat.digits 10 n).reverse]
      apply List.map_congr_left
      intro d hd
      simp only [Function.comp, digitValue, val_digitByte (lt_of_mem_digits hd), id]
      omega
    rw [hback, List.reverse_reverse, Nat.ofDigits_digits]

/-- INTERNAL: **different numbers have different numerals.** -/
theorem decimalNat_injective : Function.Injective decimalNat :=
  Function.LeftInverse.injective numeralValue_decimalNat

/-- INTERNAL: a numeral has a digit. -/
theorem decimalNat_ne_nil (n : ℕ) : decimalNat n ≠ [] := by
  unfold decimalNat
  split_ifs with h
  · exact List.cons_ne_nil _ _
  · simpa using Nat.digits_ne_nil_iff_ne_zero.mpr h

/-- INTERNAL: different integers have different numerals. -/
theorem decimalInt_injective : Function.Injective decimalInt := by
  -- the numeral of a natural number does not begin with a sign
  have hsign : ∀ m n : ℕ, (45 : Byte) :: decimalNat m ≠ decimalNat n := by
    intro m n h
    obtain ⟨d, hd, heq⟩ := exists_digit_of_mem (n := n) (h ▸ List.mem_cons_self ..)
    exact digitByte_ne hd (by decide) heq.symm
  intro x y h
  unfold decimalInt at h
  split_ifs at h with hx hy hy
  · have habs := decimalNat_injective (List.cons.inj h).2
    omega
  · exact absurd h (hsign _ _)
  · exact absurd h.symm (hsign _ _)
  · have habs := decimalNat_injective h
    omega

/-- INTERNAL: the number of digits is the logarithm and one. -/
theorem length_decimalNat (n : ℕ) : (decimalNat n).length = Nat.log 10 n + 1 := by
  unfold decimalNat
  split_ifs with hn
  · rw [hn, Nat.log_zero_right]
    rfl
  · rw [List.length_map, List.length_reverse, Nat.length_digits 10 n (by decide) hn]

/-- INTERNAL: a number below a power of ten has no more digits than the exponent says. -/
theorem length_decimalNat_le {n m : ℕ} (hm : 1 ≤ m) (h : n < 10 ^ m) :
    (decimalNat n).length ≤ m := by
  unfold decimalNat
  split_ifs with hn
  · exact hm
  · rw [List.length_map, List.length_reverse]
    exact (Nat.digits_length_le_iff (by decide) n).mpr h

end ExternalSort.Lib
