import ExternalSort.Lib.Bytes

/-!
# Numbers as bytes

`littleEndian n v` is a number in `n` bytes, the lowest first; `ofLittleEndian` reads it
back.  The bit operations of a codec are turned into arithmetic here, so that what is built
on them is a matter of quotients and remainders.
-/

set_option autoImplicit false

namespace ExternalSort.Lib

/-- INTERNAL: the lowest byte of a number, as a store to an `unsigned char` keeps it. -/
def lowByte (v : ℕ) : Byte := Fin.ofNat 256 v

/-- INTERNAL: the lowest byte as a number. -/
@[simp] theorem val_lowByte (v : ℕ) : (lowByte v : ℕ) = v % 256 := rfl

/-- INTERNAL: a number in `n` bytes, the lowest first. -/
def littleEndian : ℕ → ℕ → List Byte
  | 0, _ => []
  | n + 1, v => lowByte v :: littleEndian n (v / 256)

/-- INTERNAL: the number in some bytes, the lowest first. -/
def ofLittleEndian : List Byte → ℕ
  | [] => 0
  | b :: bs => b + 256 * ofLittleEndian bs

/-- INTERNAL: how many bytes a number of fixed width takes. -/
@[simp] theorem length_littleEndian (n v : ℕ) : (littleEndian n v).length = n := by
  induction n generalizing v with
  | zero => rfl
  | succ n ih => rw [littleEndian, List.length_cons, ih]

/-- INTERNAL: **a number that fits is read back.** -/
theorem ofLittleEndian_littleEndian {n v : ℕ} (h : v < 256 ^ n) :
    ofLittleEndian (littleEndian n v) = v := by
  induction n generalizing v with
  | zero =>
    rw [pow_zero] at h
    rw [littleEndian, ofLittleEndian]
    omega
  | succ n ih =>
    rw [littleEndian, ofLittleEndian, ih (Nat.div_lt_of_lt_mul (by rwa [pow_succ'] at h)),
      val_lowByte, Nat.mod_add_div]

/-! ## Groups of seven bits -/

/-- INTERNAL: a byte with its high bit set, made of the lowest seven bits of a number. -/
theorem val_lowByte_or (v : ℕ) : (lowByte (v ||| 128) : ℕ) = v % 128 + 128 := by
  have hsmall : ∀ x < 256, x ||| 128 = x % 128 + 128 := by decide +kernel
  have hmod : (v ||| 128) % 2 ^ 8 = v % 2 ^ 8 ||| 128 % 2 ^ 8 := Nat.or_mod_two_pow
  have hlt : v % 256 < 256 := Nat.mod_lt _ (by decide)
  rw [val_lowByte]
  calc (v ||| 128) % 256 = v % 256 ||| 128 := hmod
    _ = v % 256 % 128 + 128 := hsmall _ hlt
    _ = v % 128 + 128 := by omega

/-- INTERNAL: the high bit of a byte. -/
theorem and_128_ne_zero_iff (b : Byte) : (b : ℕ) &&& 128 ≠ 0 ↔ 128 ≤ (b : ℕ) := by
  revert b
  decide +kernel

/-- INTERNAL: the low seven bits of a byte. -/
theorem and_127_eq (b : Byte) : (b : ℕ) &&& 127 = b % 128 := Nat.and_two_pow_sub_one_eq_mod b 7

/-- INTERNAL: bits that are set above all others are added. -/
theorem or_shiftLeft {r x shift : ℕ} (h : r < 2 ^ shift) :
    r ||| (x <<< shift) = r + x * 2 ^ shift := by
  rw [Nat.shiftLeft_eq, Nat.or_comm, mul_comm, ← Nat.two_pow_add_eq_or_of_lt h, add_comm]

end ExternalSort.Lib
