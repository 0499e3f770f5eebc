import ExternalSort.Lib.ByteNumbers

/-!
# The encodings of the store

Numbers of fixed width and of variable width, and strings with their length in front, as the
log, the write batches, the memtables and the tables hold them.  A decoder is given the bytes
from its pointer to its limit; it returns the value with the bytes behind it, or `none` where
the source returns `NULL` or `false`.
-/

set_option autoImplicit false

namespace ExternalSort.Model

open ExternalSort.Lib

/-- A 32-bit number.
SRCLINE: leveldb-1.15.0/util/coding.cc:9-18 -/
def encodeFixed32 (value : ℕ) : List Byte := littleEndian 4 value

/-- A 64-bit number.
SRCLINE: leveldb-1.15.0/util/coding.cc:20-33 -/
def encodeFixed64 (value : ℕ) : List Byte := littleEndian 8 value

/-- The 32-bit number at a pointer.
SRCLINE: leveldb-1.15.0/util/coding.h:58-70 -/
def decodeFixed32 (p : List Byte) : ℕ := ofLittleEndian (p.take 4)

/-- The 64-bit number at a pointer.
SRCLINE: leveldb-1.15.0/util/coding.h:72-83 -/
def decodeFixed64 (p : List Byte) : ℕ := ofLittleEndian (p.take 8)

/-- A 32-bit number in groups of seven bits, the lowest first; all bytes but the last have the
high bit set.
SRCLINE: leveldb-1.15.0/util/coding.cc:47-79 -/
def encodeVarint32 (v : ℕ) : List Byte :=
  if v < 2 ^ 7 then [lowByte v]
  else if v < 2 ^ 14 then [lowByte (v ||| 128), lowByte (v >>> 7)]
  else if v < 2 ^ 21 then [lowByte (v ||| 128), lowByte (v >>> 7 ||| 128), lowByte (v >>> 14)]
  else if v < 2 ^ 28 then
    [lowByte (v ||| 128), lowByte (v >>> 7 ||| 128), lowByte (v >>> 14 ||| 128),
      lowByte (v >>> 21)]
  else
    [lowByte (v ||| 128), lowByte (v >>> 7 ||| 128), lowByte (v >>> 14 ||| 128),
      lowByte (v >>> 21 ||| 128), lowByte (v >>> 28)]

/-- The loop that reads the groups of a 32-bit number.
SRCLINE: leveldb-1.15.0/util/coding.cc:112-129 -/
def getVarint32PtrFallback : ℕ → ℕ → List Byte → Option (ℕ × List Byte)
  | _, _, [] => none
  | shift, result, byte :: p =>
      if 28 < shift then none
      else if (byte : ℕ) &&& 128 ≠ 0 then
        getVarint32PtrFallback (shift + 7)
          ((result ||| (((byte : ℕ) &&& 127) <<< shift)) % 2 ^ 32) p
      else some ((result ||| ((byte : ℕ) <<< shift)) % 2 ^ 32, p)

/-- The 32-bit number at a pointer; a single byte is read without the loop.
SRCLINE: leveldb-1.15.0/util/coding.h:89-100 -/
def getVarint32Ptr (p : List Byte) : Option (ℕ × List Byte) :=
  match p with
  | [] => getVarint32PtrFallback 0 0 p
  | result :: rest =>
      if (result : ℕ) &&& 128 = 0 then some (result, rest) else getVarint32PtrFallback 0 0 p

/-- A string with its length in front.
SRCLINE: leveldb-1.15.0/util/coding.cc:98-101 -/
def putLengthPrefixedSlice (value : List Byte) : List Byte :=
  encodeVarint32 (value.length % 2 ^ 32) ++ value

/-- The string at the front of the input, and the input behind it.
SRCLINE: leveldb-1.15.0/util/coding.cc:182-192 -/
def getLengthPrefixedSlice (input : List Byte) : Option (List Byte × List Byte) :=
  match getVarint32Ptr input with
  | none => none
  | some (len, input) =>
      if len ≤ input.length then some (input.take len, input.drop len) else none

end ExternalSort.Model
