import ExternalSort.Lib.Comparator
import ExternalSort.Model.LevelDb.MemTable
import ExternalSort.Model.LevelDb.MergingIterator
import ExternalSort.Model.LevelDb.TwoLevelIterator
import ExternalSort.Model.LevelDb.Version

/-!
# The iterator over everything a store holds

The memtables, the tables of level 0 and the other levels are each read through an iterator of
their own, and a merging iterator puts them together.

What a table holds is the list of pairs its builder was given (`Tables`), and an iterator over a
table is the cursor over them: the blocks of a table are not part of this module.  A table that
is not there is read as an error, which shows nothing.
-/

set_option autoImplicit false

namespace ExternalSort.Model

open ExternalSort.Lib

/-- The tables on disk by number, as the pairs they hold. -/
abbrev Tables := ℕ → Option (List (List Byte × List Byte))

/-- An iterator over a table.
SRCLINE: leveldb-1.15.0/db/table_cache.cc:82-103 -/
inductive FileIterator where
  | error
  | table (number : ℕ) (position : Option ℕ)
  deriving DecidableEq, Repr

namespace FileIterator

/-- The pairs of a table, as an iterator over it finds them. -/
def cursor (tables : Tables) (number : ℕ) : IteratorOps (Option ℕ) (List Byte) (List Byte) :=
  cursorOps (lessBy internalKeyCompare) ((tables number).getD [])

/-- An error stands nowhere, and its seeks do nothing.
SRCLINE: leveldb-1.15.0/table/iterator.cc:42-56 -/
def ops (tables : Tables) : IteratorOps FileIterator (List Byte) (List Byte) where
  current
    | .error => none
    | .table number position => (cursor tables number).current position
  move mv
    | .error =>
        match mv with
        | .next | .prev => none
        | _ => some .error
    | .table number position => ((cursor tables number).move mv position).map (.table number)

/-- SRCLINE: leveldb-1.15.0/db/version_set.cc:218-230 -/
def getFileIterator (fileValue : List Byte) : FileIterator :=
  if fileValue.length ≠ 16 then .error else .table (decodeFixed64 fileValue) none

end FileIterator

/-- The iterators a merging iterator of a store has under it. -/
inductive ChildIterator where
  | memTable (table : MemTable) (node : Option ℕ)
  | file (it : FileIterator)
  | level (files : List FileMetaData) (it : TwoLevelIterator ℕ (List Byte) FileIterator)

namespace ChildIterator

/-- SRCLINE: leveldb-1.15.0/db/version_set.cc:232-237 -/
def levelOps (tables : Tables) (fuel : ℕ) (files : List FileMetaData) :
    IteratorOps (TwoLevelIterator ℕ (List Byte) FileIterator) (List Byte) (List Byte) :=
  TwoLevelIterator.ops (LevelFileNumIterator.ops files) FileIterator.getFileIterator
    (FileIterator.ops tables) fuel

/-- An iterator over a part is asked and moved as its own kind is. -/
def ops (tables : Tables) (fuel : ℕ) : IteratorOps ChildIterator (List Byte) (List Byte) where
  current
    | .memTable table node => (MemTable.iterator fuel table).current node
    | .file it => (FileIterator.ops tables).current it
    | .level files it => (levelOps tables fuel files).current it
  move mv
    | .memTable table node => ((MemTable.iterator fuel table).move mv node).map (.memTable table)
    | .file it => ((FileIterator.ops tables).move mv it).map .file
    | .level files it => ((levelOps tables fuel files).move mv it).map (.level files)

/-- The iterator over a table of level 0. -/
def newFile (f : FileMetaData) : ChildIterator := .file (.table f.number none)

/-- The iterator over the tables of a sorted level.
SRCLINE: leveldb-1.15.0/db/version_set.cc:232-237 -/
def newConcatenatingIterator (files : List FileMetaData) : ChildIterator :=
  .level files (.new (LevelFileNumIterator.new files))

end ChildIterator

/-- SRCLINE: leveldb-1.15.0/db/version_set.cc:239-256 -/
def Version.addIterators (v : Version) : List ChildIterator :=
  (v.files 0).map ChildIterator.newFile ++
    ((List.range' 1 (kNumLevels - 1)).filter fun level => !(v.files level).isEmpty).map fun level =>
      ChildIterator.newConcatenatingIterator (v.files level)

/-- SRCLINE: leveldb-1.15.0/db/db_impl.cc:1035-1064 -/
def newInternalIterator (mem : MemTable) (imm : Option MemTable) (v : Version) :
    MergedIterator ChildIterator :=
  MergedIterator.newMergingIterator
    (.memTable mem none :: imm.toList.map (.memTable · none) ++ v.addIterators)

/-- The moves of the iterator over everything. -/
def internalOps (tables : Tables) (fuel : ℕ) :
    IteratorOps (MergedIterator ChildIterator) (List Byte) (List Byte) :=
  MergedIterator.ops (ChildIterator.ops tables fuel) internalKeyCompare

end ExternalSort.Model
