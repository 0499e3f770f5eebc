import ExternalSort.Model.LevelDb.Coding

/-!
# User keys and internal keys

The store keeps every version of a user key under an internal key: the user key, followed by
eight bytes with the number of the write and whether it was a value or a deletion.  User keys
are ordered byte by byte; versions of one user key are ordered from the newest to the oldest.

`size_t` lengths of keys are not wrapped here: a key is taken to be shorter than `2^31` bytes.
-/

set_option autoImplicit false

namespace ExternalSort.Model

open ExternalSort.Lib

/-- `memcmp` of two regions of the same length.
SRCLINE: leveldb-1.15.0/include/leveldb/slice.h:98 -/
def memcmp : List Byte → List Byte → ℤ
  | x :: a, y :: b => if x ≠ y then ((x : ℕ) : ℤ) - ((y : ℕ) : ℤ) else memcmp a b
  | _, _ => 0

/-- The comparison of two slices, which is that of user keys.
SRCLINE: leveldb-1.15.0/include/leveldb/slice.h:96-104, leveldb-1.15.0/util/comparator.cc:25-27 -/
def sliceCompare (a b : List Byte) : ℤ :=
  let minLen := if a.length < b.length then a.length else b.length
  let r := memcmp (a.take minLen) (b.take minLen)
  if r = 0 then if a.length < b.length then -1 else if b.length < a.length then 1 else 0
  else r

/-- What was written.
SRCLINE: leveldb-1.15.0/db/dbformat.h:51-54 -/
inductive ValueType where
  | deletion
  | value
  deriving DecidableEq, Repr

/-- The number that stands for a type in a key.
SRCLINE: leveldb-1.15.0/db/dbformat.h:51-54 -/
def ValueType.toNat : ValueType → ℕ
  | deletion => 0
  | value => 1

/-- SRCLINE: leveldb-1.15.0/db/dbformat.h:61 -/
def kValueTypeForSeek : ValueType := .value

/-- SRCLINE: leveldb-1.15.0/db/dbformat.h:67-68 -/
def kMaxSequenceNumber : ℕ := 2 ^ 56 - 1

/-- The parts of an internal key.
SRCLINE: leveldb-1.15.0/db/dbformat.h:70-79 -/
structure ParsedInternalKey where
  userKey : List Byte
  sequence : ℕ
  type : ValueType
  deriving DecidableEq, Repr

/-- SRCLINE: leveldb-1.15.0/db/dbformat.cc:12-16 -/
def packSequenceAndType (seq : ℕ) (t : ValueType) : ℕ := ((seq <<< 8) ||| t.toNat) % 2 ^ 64

/-- The bytes of an internal key.
SRCLINE: leveldb-1.15.0/db/dbformat.cc:18-21 -/
def appendInternalKey (key : ParsedInternalKey) : List Byte :=
  key.userKey ++ encodeFixed64 (packSequenceAndType key.sequence key.type)

/-- The user key in an internal key.
SRCLINE: leveldb-1.15.0/db/dbformat.h:98-101 -/
def extractUserKey (internalKey : List Byte) : List Byte :=
  internalKey.take (internalKey.length - 8)

/-- The number in the last eight bytes of an internal key.
SRCLINE: leveldb-1.15.0/db/dbformat.h:180, leveldb-1.15.0/db/dbformat.cc:57-58 -/
def internalKeyTag (internalKey : List Byte) : ℕ :=
  decodeFixed64 (internalKey.drop (internalKey.length - 8))

/-- The parts of an internal key, if it is one.
SRCLINE: leveldb-1.15.0/db/dbformat.h:176-186 -/
def parseInternalKey (internalKey : List Byte) : Option ParsedInternalKey :=
  if internalKey.length < 8 then none
  else
    let num := internalKeyTag internalKey
    let c := num &&& 255
    if c = 0 then some ⟨extractUserKey internalKey, num >>> 8, .deletion⟩
    else if c = 1 then some ⟨extractUserKey internalKey, num >>> 8, .value⟩
    else none

/-- The comparison of internal keys: ascending user keys, then descending numbers.
SRCLINE: leveldb-1.15.0/db/dbformat.cc:50-66 -/
def internalKeyCompare (akey bkey : List Byte) : ℤ :=
  let r := sliceCompare (extractUserKey akey) (extractUserKey bkey)
  if r = 0 then
    let anum := internalKeyTag akey
    let bnum := internalKeyTag bkey
    if bnum < anum then -1 else if anum < bnum then 1 else 0
  else r

end ExternalSort.Model
