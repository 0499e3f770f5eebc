import ExternalSort.Model.LevelDb.InternalKey
import ExternalSort.Model.LevelDb.SkipList
import ExternalSort.Model.LevelDb.WriteBatch

/-!
# Memtables

A memtable is a skip list of entries.  An entry is one piece of memory with an internal key and
a value, each with its length in front; entries are compared by their internal keys.  Lengths
are stored in 32 bits.
-/

set_option autoImplicit false

namespace ExternalSort.Model

open ExternalSort.Lib

/-- A memtable.
SRCLINE: leveldb-1.15.0/db/memtable.h:66-87 -/
abbrev MemTable := SkipList (List Byte)

namespace MemTable

/-- The string at a pointer, and what is behind it; it is taken not to be corrupt.
SRCLINE: leveldb-1.15.0/db/memtable.cc:14-19 -/
def lengthPrefixedSlice (data : List Byte) : List Byte × List Byte :=
  match getVarint32Ptr data with
  | none => ([], [])
  | some (len, p) => (p.take len, p.drop len)

/-- SRCLINE: leveldb-1.15.0/db/memtable.cc:33-39 -/
def keyComparator (a b : List Byte) : ℤ :=
  internalKeyCompare (lengthPrefixedSlice a).1 (lengthPrefixedSlice b).1

/-- SRCLINE: leveldb-1.15.0/db/memtable.cc:44-49 -/
def encodeKey (target : List Byte) : List Byte :=
  encodeVarint32 (target.length % 2 ^ 32) ++ target

/-- The bytes of an entry.
SRCLINE: leveldb-1.15.0/db/memtable.cc:85-104 -/
def entry (seq : ℕ) (type : ValueType) (key value : List Byte) : List Byte :=
  encodeVarint32 ((key.length + 8) % 2 ^ 32) ++ key ++ encodeFixed64 ((seq <<< 8) ||| type.toNat) ++
    encodeVarint32 (value.length % 2 ^ 32) ++ value

/-- SRCLINE: leveldb-1.15.0/db/memtable.cc:82-106 -/
def add (fuel : ℕ) (seq : ℕ) (type : ValueType) (key value : List Byte) (table : MemTable) :
    Option MemTable :=
  SkipList.insert keyComparator fuel (entry seq type key value) table

/-- A move of the iterator over the skip list: a key that is sought becomes an entry.
SRCLINE: leveldb-1.15.0/db/memtable.cc:56-60 -/
def entryMove : Move (List Byte) → Move (List Byte)
  | .seek k => .seek (encodeKey k)
  | mv => mv

/-- The iterator over a memtable that no one changes; its state is a node, or null.
SRCLINE: leveldb-1.15.0/db/memtable.cc:51-80 -/
def iterator (fuel : ℕ) (table : MemTable) : IteratorOps (Option ℕ) (List Byte) (List Byte) where
  current node := ((SkipList.iterator keyComparator fuel table).current node).map fun e =>
    let key := lengthPrefixedSlice e.1
    (key.1, (lengthPrefixedSlice key.2).1)
  move mv node := (SkipList.iterator keyComparator fuel table).move (entryMove mv) node

/-- A record of a batch goes into the table under the next sequence number.
SRCLINE: leveldb-1.15.0/db/write_batch.cc:112-125 -/
def insertOp (fuel : ℕ) (s : ℕ × MemTable) (op : BatchOp) : Option (ℕ × MemTable) :=
  match op with
  | .put key value => (s.2.add fuel s.1 .value key value).map fun table => (s.1 + 1, table)
  | .delete key => (s.2.add fuel s.1 .deletion key []).map fun table => (s.1 + 1, table)

/-- The records of a batch go into a table.
SRCLINE: leveldb-1.15.0/db/write_batch.cc:128-134 -/
def insertInto (fuel : ℕ) (rep : List Byte) (table : MemTable) :
    Option (MemTable × WriteBatch.Status) :=
  (WriteBatch.iterate fuel rep).bind fun r =>
    (r.1.foldlM (insertOp fuel) (WriteBatch.sequence rep, table)).map fun s => (s.2, r.2)

end MemTable

end ExternalSort.Model
