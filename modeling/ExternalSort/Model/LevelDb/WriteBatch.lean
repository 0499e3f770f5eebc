import ExternalSort.Lib.Loop
import ExternalSort.Model.LevelDb.InternalKey

/-!
# Write batches

A batch is kept as the bytes that go into the log: a sequence number, the number of records, and
the records.  `iterate` reads the records of any bytes and stops at the first that cannot be
read; what it has read until then has been handed on by then.

The number of records is taken as it is stored, without a sign.
-/

set_option autoImplicit false

namespace ExternalSort.Model

open ExternalSort.Lib

/-- What a batch asks for.
SRCLINE: leveldb-1.15.0/include/leveldb/write_batch.h:46-51 -/
inductive BatchOp where
  | put (key value : List Byte)
  | delete (key : List Byte)
  deriving DecidableEq, Repr

namespace WriteBatch

/-- SRCLINE: leveldb-1.15.0/db/write_batch.cc:27 -/
def kHeader : ℕ := 12

/-- An empty batch.
SRCLINE: leveldb-1.15.0/db/write_batch.cc:37-40 -/
def clear : List Byte := List.replicate kHeader 0

/-- SRCLINE: leveldb-1.15.0/db/write_batch.cc:82-84 -/
def count (rep : List Byte) : ℕ := decodeFixed32 (rep.drop 8)

/-- SRCLINE: leveldb-1.15.0/db/write_batch.cc:86-88 -/
def setCount (rep : List Byte) (n : ℕ) : List Byte := rep.take 8 ++ encodeFixed32 n ++ rep.drop 12

/-- SRCLINE: leveldb-1.15.0/db/write_batch.cc:90-92 -/
def sequence (rep : List Byte) : ℕ := decodeFixed64 rep

/-- SRCLINE: leveldb-1.15.0/db/write_batch.cc:94-96 -/
def setSequence (rep : List Byte) (seq : ℕ) : List Byte := encodeFixed64 seq ++ rep.drop 8

/-- The bytes of a record.
SRCLINE: leveldb-1.15.0/db/write_batch.cc:100-102, leveldb-1.15.0/db/write_batch.cc:107-108 -/
def record : BatchOp → List Byte
  | .put key value =>
      lowByte (ValueType.value.toNat) :: putLengthPrefixedSlice key ++ putLengthPrefixedSlice value
  | .delete key => lowByte (ValueType.deletion.toNat) :: putLengthPrefixedSlice key

/-- `Put` and `Delete`.
SRCLINE: leveldb-1.15.0/db/write_batch.cc:98-109 -/
def add (rep : List Byte) (op : BatchOp) : List Byte := setCount rep (count rep + 1) ++ record op

/-- The records of another batch are added.
SRCLINE: leveldb-1.15.0/db/write_batch.cc:141-145 -/
def append (dst src : List Byte) : List Byte :=
  setCount dst (count dst + count src) ++ src.drop kHeader

/-- How the reading of a batch ends: with an error, or not. -/
abbrev Status := Option String

/-- A round of the loop over the records: the input that is left, and what was handed on.
SRCLINE: leveldb-1.15.0/db/write_batch.cc:51-75 -/
def iterateRound (rep : List Byte) (s : List Byte × List BatchOp) :
    Option ((List Byte × List BatchOp) ⊕ List BatchOp × Status) :=
  match s with
  | ([], ops) =>
      if ops.length ≠ count rep then some (.inr (ops, some "WriteBatch has wrong count"))
      else some (.inr (ops, none))
  | (tag :: input, ops) =>
      if (tag : ℕ) = ValueType.value.toNat then
        match getLengthPrefixedSlice input with
        | none => some (.inr (ops, some "bad WriteBatch Put"))
        | some (key, input) =>
            match getLengthPrefixedSlice input with
            | none => some (.inr (ops, some "bad WriteBatch Put"))
            | some (value, input) => some (.inl (input, ops ++ [.put key value]))
      else if (tag : ℕ) = ValueType.deletion.toNat then
        match getLengthPrefixedSlice input with
        | none => some (.inr (ops, some "bad WriteBatch Delete"))
        | some (key, input) => some (.inl (input, ops ++ [.delete key]))
      else some (.inr (ops, some "unknown WriteBatch tag"))

/-- What a batch hands on, and how its reading ends.
SRCLINE: leveldb-1.15.0/db/write_batch.cc:42-81 -/
def iterate (fuel : ℕ) (rep : List Byte) : Option (List BatchOp × Status) :=
  if rep.length < kHeader then some ([], some "malformed WriteBatch (too small)")
  else loop (iterateRound rep) fuel (rep.drop kHeader, [])

end WriteBatch

end ExternalSort.Model
