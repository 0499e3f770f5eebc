import ExternalSort.Model.LevelDb.Coding

/-!
# What is encoded is decoded

Every decoder of the store gives back what the encoder wrote, with the bytes behind it
untouched.  The loop over the groups of a variable-width number is followed group by group
(`fallback_more`, `fallback_last`): what it has read so far lies below its shift, so setting
further bits is adding.
-/

set_option autoImplicit false

namespace ExternalSort.Analysis

open ExternalSort.Lib ExternalSort.Model

/-- INTERNAL: a number of four bytes is read back, whatever is behind it. -/
theorem decodeFixed32_append {v : ℕ} (h : v < 2 ^ 32) (rest : List Byte) :
    decodeFixed32 (encodeFixed32 v ++ rest) = v := by
  rw [decodeFixed32, encodeFixed32, List.take_left' (length_littleEndian 4 v)]
  exact ofLittleEndian_littleEndian h

/-- INTERNAL: a number of eight bytes is read back, whatever is behind it. -/
theorem decodeFixed64_append {v : ℕ} (h : v < 2 ^ 64) (rest : List Byte) :
    decodeFixed64 (encodeFixed64 v ++ rest) = v := by
  rw [decodeFixed64, encodeFixed64, List.take_left' (length_littleEndian 8 v)]
  exact ofLittleEndian_littleEndian h

/-- INTERNAL: four bytes. -/
@[simp] theorem length_encodeFixed32 (v : ℕ) : (encodeFixed32 v).length = 4 :=
  length_littleEndian 4 v

/-- INTERNAL: eight bytes. -/
@[simp] theorem length_encodeFixed64 (v : ℕ) : (encodeFixed64 v).length = 8 :=
  length_littleEndian 8 v

/-! ## Numbers of variable width -/

section Varint

variable {shift r v : ℕ} (rest : List Byte)

/-- INTERNAL: the loop reads a group that is not the last.
SRCLINE: leveldb-1.15.0/util/coding.cc:116-121 -/
theorem fallback_more (hshift : shift ≤ 21) (hr : r < 2 ^ shift) :
    getVarint32PtrFallback shift r (lowByte (v ||| 128) :: rest) =
      getVarint32PtrFallback (shift + 7) (r + v % 128 * 2 ^ shift) rest := by
  have hbyte : ((lowByte (v ||| 128) : ℕ) &&& 127) = v % 128 := by
    rw [and_127_eq, val_lowByte_or]
    omega
  have hhigh : (lowByte (v ||| 128) : ℕ) &&& 128 ≠ 0 := by
    rw [and_128_ne_zero_iff, val_lowByte_or]
    omega
  have hfit : r + v % 128 * 2 ^ shift < 2 ^ 32 :=
    calc r + v % 128 * 2 ^ shift < 2 ^ shift + 127 * 2 ^ shift := by
          have hle : v % 128 * 2 ^ shift ≤ 127 * 2 ^ shift := Nat.mul_le_mul_right _ (by omega)
          omega
      _ = 2 ^ (7 + shift) := by ring
      _ ≤ 2 ^ 32 := Nat.pow_le_pow_right (by decide) (by omega)
  rw [getVarint32PtrFallback, if_neg (by omega), if_pos hhigh, hbyte, or_shiftLeft hr,
    Nat.mod_eq_of_lt hfit]

/-- INTERNAL: the loop reads the last group.
SRCLINE: leveldb-1.15.0/util/coding.cc:122-126 -/
theorem fallback_last (hshift : shift ≤ 28) (hr : r < 2 ^ shift) (hv : v < 128)
    (hfit : r + v * 2 ^ shift < 2 ^ 32) :
    getVarint32PtrFallback shift r (lowByte v :: rest) = some (r + v * 2 ^ shift, rest) := by
  have hval : (lowByte v : ℕ) = v := by
    rw [val_lowByte]
    omega
  have hlow : ¬ (lowByte v : ℕ) &&& 128 ≠ 0 := by
    rw [and_128_ne_zero_iff, hval]
    omega
  rw [getVarint32PtrFallback, if_neg (by omega), if_neg hlow, hval, or_shiftLeft hr,
    Nat.mod_eq_of_lt hfit]

/-- INTERNAL: a first byte with its high bit set is left to the loop. -/
theorem getVarint32Ptr_more :
    getVarint32Ptr (lowByte (v ||| 128) :: rest) =
      getVarint32PtrFallback 0 0 (lowByte (v ||| 128) :: rest) := by
  have hhigh : (lowByte (v ||| 128) : ℕ) &&& 128 ≠ 0 := by
    rw [and_128_ne_zero_iff, val_lowByte_or]
    omega
  rw [getVarint32Ptr, if_neg hhigh]

/-- INTERNAL: **a number of variable width is read back**, and nothing behind it is read.
SRCLINE: leveldb-1.15.0/util/coding.cc:47-79, leveldb-1.15.0/util/coding.h:89-100 -/
theorem getVarint32Ptr_append (h : v < 2 ^ 32) :
    getVarint32Ptr (encodeVarint32 v ++ rest) = some (v, rest) := by
  unfold encodeVarint32
  simp only [Nat.shiftRight_eq_div_pow]
  split_ifs with h7 h14 h21 h28
  · have hval : (lowByte v : ℕ) = v := by
      rw [val_lowByte]
      omega
    have hlow : (lowByte v : ℕ) &&& 128 = 0 := by
      by_contra hne
      rw [← ne_eq, and_128_ne_zero_iff, hval] at hne
      omega
    rw [List.singleton_append, getVarint32Ptr, if_pos hlow, hval]
  · rw [List.cons_append, getVarint32Ptr_more, fallback_more _ (by omega) (by omega),
      List.cons_append, fallback_last _ (by omega) (by omega) (by omega) (by omega)]
    congr 2
    omega
  · rw [List.cons_append, getVarint32Ptr_more, fallback_more _ (by omega) (by omega),
      List.cons_append, fallback_more _ (by omega) (by omega),
      List.cons_append, fallback_last _ (by omega) (by omega) (by omega) (by omega)]
    congr 2
    omega
  · rw [List.cons_append, getVarint32Ptr_more, fallback_more _ (by omega) (by omega),
      List.cons_append, fallback_more _ (by omega) (by omega),
      List.cons_append, fallback_more _ (by omega) (by omega),
      List.cons_append, fallback_last _ (by omega) (by omega) (by omega) (by omega)]
    congr 2
    omega
  · rw [List.cons_append, getVarint32Ptr_more, fallback_more _ (by omega) (by omega),
      List.cons_append, fallback_more _ (by omega) (by omega),
      List.cons_append, fallback_more _ (by omega) (by omega),
      List.cons_append, fallback_more _ (by omega) (by omega),
      List.cons_append, fallback_last _ (by omega) (by omega) (by omega) (by omega)]
    congr 2
    omega

end Varint

/-- INTERNAL: **a string with its length in front is read back**, and nothing behind it is read.
SRCLINE: leveldb-1.15.0/util/coding.cc:98-101, leveldb-1.15.0/util/coding.cc:182-192 -/
theorem getLengthPrefixedSlice_append {value : List Byte} (h : value.length < 2 ^ 32)
    (rest : List Byte) :
    getLengthPrefixedSlice (putLengthPrefixedSlice value ++ rest) = some (value, rest) := by
  have hread : getVarint32Ptr (putLengthPrefixedSlice value ++ rest) =
      some (value.length, value ++ rest) := by
    rw [putLengthPrefixedSlice, Nat.mod_eq_of_lt h, List.append_assoc, getVarint32Ptr_append _ h]
  have hlen : value.length ≤ (value ++ rest).length := by
    rw [List.length_append]
    omega
  simp only [getLengthPrefixedSlice, hread, if_pos hlen, List.take_left, List.drop_left]

end ExternalSort.Analysis
