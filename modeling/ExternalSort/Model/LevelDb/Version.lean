import ExternalSort.Lib.Cursor
import ExternalSort.Lib.Loop
import ExternalSort.Model.LevelDb.InternalKey

/-!
# The tables of a version, level by level

A `Version` says which tables hold the data that is not in memory.  The tables of level 0 may
overlap; those of a higher level are sorted and do not.  Here are the searches for a table, for
the tables that overlap a range of user keys, the level a new table is put on, and the edits that
lead from one version to the next.

Keys in a `FileMetaData` are the bytes of internal keys.  Left out are the counters `refs` and
`allowed_seeks`, and the score that prompts compactions; sizes are not wrapped.
-/

set_option autoImplicit false

namespace ExternalSort.Model

open ExternalSort.Lib

/-- SRCLINE: leveldb-1.15.0/db/dbformat.h:22 -/
def kNumLevels : ℕ := 7

/-- SRCLINE: leveldb-1.15.0/db/dbformat.h:39 -/
def kMaxMemCompactLevel : ℕ := 2

/-- SRCLINE: leveldb-1.15.0/db/version_set.cc:23 -/
def kTargetFileSize : ℕ := 2 * 1048576

/-- SRCLINE: leveldb-1.15.0/db/version_set.cc:27 -/
def kMaxGrandParentOverlapBytes : ℕ := 10 * kTargetFileSize

/-- SRCLINE: leveldb-1.15.0/db/version_set.cc:32 -/
def kExpandedCompactionByteSizeLimit : ℕ := 25 * kTargetFileSize

/-- SRCLINE: leveldb-1.15.0/db/version_edit.h:17-26 -/
structure FileMetaData where
  number : ℕ
  fileSize : ℕ
  smallest : List Byte
  largest : List Byte
  deriving DecidableEq, Repr

/-- The user key of the smallest key of a table. -/
def FileMetaData.smallestUserKey (f : FileMetaData) : List Byte := extractUserKey f.smallest

/-- The user key of the largest key of a table. -/
def FileMetaData.largestUserKey (f : FileMetaData) : List Byte := extractUserKey f.largest

/-- SRCLINE: leveldb-1.15.0/db/version_set.h:59-147 -/
structure Version where
  files : ℕ → List FileMetaData

/-- SRCLINE: leveldb-1.15.0/db/version_set.cc:49-55 -/
def totalFileSize (files : List FileMetaData) : ℕ := (files.map FileMetaData.fileSize).sum

/-! ## Searches -/

/-- The binary search for a table.  A round makes the interval smaller, so there are no more
rounds than tables.
SRCLINE: leveldb-1.15.0/db/version_set.cc:96-108 -/
def findFileFrom (files : List FileMetaData) (key : List Byte) : ℕ → ℕ → ℕ → ℕ
  | 0, _, right => right
  | rounds + 1, left, right =>
      if left < right then
        let mid := (left + right) / 2
        match files[mid]? with
        | none => right
        | some f =>
            if internalKeyCompare f.largest key < 0 then findFileFrom files key rounds (mid + 1) right
            else findFileFrom files key rounds left mid
      else right

/-- The index of the first table whose largest key is not smaller than a key.
SRCLINE: leveldb-1.15.0/db/version_set.cc:91-110 -/
def findFile (files : List FileMetaData) (key : List Byte) : ℕ :=
  findFileFrom files key files.length 0 files.length

/-- SRCLINE: leveldb-1.15.0/db/version_set.cc:112-117 -/
def afterFile (userKey : Option (List Byte)) (f : FileMetaData) : Bool :=
  match userKey with
  | none => false
  | some k => decide (sliceCompare k f.largestUserKey > 0)

/-- SRCLINE: leveldb-1.15.0/db/version_set.cc:119-124 -/
def beforeFile (userKey : Option (List Byte)) (f : FileMetaData) : Bool :=
  match userKey with
  | none => false
  | some k => decide (sliceCompare k f.smallestUserKey < 0)

/-- SRCLINE: leveldb-1.15.0/db/version_set.cc:126-161 -/
def someFileOverlapsRange (disjointSortedFiles : Bool) (files : List FileMetaData)
    (smallestUserKey largestUserKey : Option (List Byte)) : Bool :=
  if disjointSortedFiles then
    let index := match smallestUserKey with
      | none => 0
      | some k => findFile files (appendInternalKey ⟨k, kMaxSequenceNumber, kValueTypeForSeek⟩)
    match files[index]? with
    | none => false
    | some f => !beforeFile largestUserKey f
  else files.any fun f => !(afterFile smallestUserKey f || beforeFile largestUserKey f)

namespace Version

/-- SRCLINE: leveldb-1.15.0/db/version_set.cc:500-505 -/
def overlapInLevel (v : Version) (level : ℕ) (smallestUserKey largestUserKey : Option (List Byte)) :
    Bool :=
  someFileOverlapsRange (decide (0 < level)) (v.files level) smallestUserKey largestUserKey

/-! ## The tables that overlap a range -/

/-- The search for tables that overlap a range: what is left of the pass, the range, and the
tables found. -/
structure Overlapping where
  rest : List FileMetaData
  userBegin : Option (List Byte)
  userEnd : Option (List Byte)
  inputs : List FileMetaData

/-- A round of the search.  On level 0 a table may widen the range, and then the pass starts
again.
SRCLINE: leveldb-1.15.0/db/version_set.cc:552-578 -/
def overlappingRound (v : Version) (level : ℕ) (s : Overlapping) :
    Option (Overlapping ⊕ List FileMetaData) :=
  match s.rest with
  | [] => some (.inr s.inputs)
  | f :: rest =>
      let fileStart := f.smallestUserKey
      let fileLimit := f.largestUserKey
      if s.userBegin.any fun k => decide (sliceCompare fileLimit k < 0) then
        some (.inl { s with rest := rest })
      else if s.userEnd.any fun k => decide (sliceCompare fileStart k > 0) then
        some (.inl { s with rest := rest })
      else if level = 0 ∧ s.userBegin.any fun k => decide (sliceCompare fileStart k < 0) then
        some (.inl ⟨v.files level, some fileStart, s.userEnd, []⟩)
      else if level = 0 ∧ s.userEnd.any fun k => decide (sliceCompare fileLimit k > 0) then
        some (.inl ⟨v.files level, s.userBegin, some fileLimit, []⟩)
      else some (.inl { s with rest := rest, inputs := s.inputs ++ [f] })

/-- All tables of a level that overlap the user keys of a range.
SRCLINE: leveldb-1.15.0/db/version_set.cc:536-579 -/
def getOverlappingInputs (v : Version) (fuel level : ℕ) (begin_ end_ : Option (List Byte)) :
    Option (List FileMetaData) :=
  loop (v.overlappingRound level) fuel
    ⟨v.files level, begin_.map extractUserKey, end_.map extractUserKey, []⟩

/-- The level of a new table: as far down as it overlaps nothing on the way and not too much on
the level behind.
SRCLINE: leveldb-1.15.0/db/version_set.cc:507-533 -/
def pickLevelFrom (v : Version) (fuel : ℕ) (smallestUserKey largestUserKey : List Byte) :
    ℕ → ℕ → Option ℕ
  | 0, level => some level
  | rounds + 1, level =>
      if v.overlapInLevel (level + 1) (some smallestUserKey) (some largestUserKey) then some level
      else if level + 2 < kNumLevels then
        let start := appendInternalKey ⟨smallestUserKey, kMaxSequenceNumber, kValueTypeForSeek⟩
        let limit := appendInternalKey ⟨largestUserKey, 0, .deletion⟩
        (v.getOverlappingInputs fuel (level + 2) (some start) (some limit)).bind fun overlaps =>
          if totalFileSize overlaps > kMaxGrandParentOverlapBytes then some level
          else v.pickLevelFrom fuel smallestUserKey largestUserKey rounds (level + 1)
      else v.pickLevelFrom fuel smallestUserKey largestUserKey rounds (level + 1)

/-- SRCLINE: leveldb-1.15.0/db/version_set.cc:507-533 -/
def pickLevelForMemTableOutput (v : Version) (fuel : ℕ)
    (smallestUserKey largestUserKey : List Byte) : Option ℕ :=
  if v.overlapInLevel 0 (some smallestUserKey) (some largestUserKey) then some 0
  else v.pickLevelFrom fuel smallestUserKey largestUserKey kMaxMemCompactLevel 0

end Version

/-! ## Edits -/

/-- The tables an edit adds and deletes, each with its level.
SRCLINE: leveldb-1.15.0/db/version_edit.h:79-103 -/
structure VersionEdit where
  deletedFiles : List (ℕ × ℕ)
  newFiles : List (ℕ × FileMetaData)

/-- The order of the tables of a level.
SRCLINE: leveldb-1.15.0/db/version_set.cc:611-623 -/
def bySmallestKey (f₁ f₂ : FileMetaData) : Bool :=
  let r := internalKeyCompare f₁.smallest f₂.smallest
  if r ≠ 0 then decide (r < 0) else decide (f₁.number < f₂.number)

/-- The edits of one level.
SRCLINE: leveldb-1.15.0/db/version_set.cc:626-629 -/
structure LevelState where
  deletedFiles : List ℕ
  addedFiles : List FileMetaData

/-- The edits of all levels, on top of a version.
SRCLINE: leveldb-1.15.0/db/version_set.cc:608-634 -/
structure Builder where
  base : Version
  levels : ℕ → LevelState

namespace Builder

/-- SRCLINE: leveldb-1.15.0/db/version_set.cc:637-647 -/
def new (base : Version) : Builder := ⟨base, fun _ => ⟨[], []⟩⟩

/-- `std::set::insert`: nothing happens if there is an element that is neither before nor behind.
-/
def insertFile (f : FileMetaData) : List FileMetaData → List FileMetaData
  | [] => [f]
  | g :: files =>
      if bySmallestKey f g then f :: g :: files
      else if bySmallestKey g f then g :: insertFile f files
      else g :: files

/-- SRCLINE: leveldb-1.15.0/db/version_set.cc:679-686 -/
def deleteFile (b : Builder) (d : ℕ × ℕ) : Builder :=
  let state := b.levels d.1
  { b with levels := Function.update b.levels d.1 ⟨d.2 :: state.deletedFiles, state.addedFiles⟩ }

/-- SRCLINE: leveldb-1.15.0/db/version_set.cc:689-712 -/
def addFile (b : Builder) (n : ℕ × FileMetaData) : Builder :=
  let state := b.levels n.1
  { b with levels := Function.update b.levels n.1 ⟨state.deletedFiles.filter (· ≠ n.2.number),
    insertFile n.2 state.addedFiles⟩ }

/-- SRCLINE: leveldb-1.15.0/db/version_set.cc:670-713 -/
def apply (b : Builder) (edit : VersionEdit) : Builder :=
  edit.newFiles.foldl addFile (edit.deletedFiles.foldl deleteFile b)

/-- The added tables among those of the base version; `upper_bound` is the first table of the
base that the added one is before.
SRCLINE: leveldb-1.15.0/db/version_set.cc:726-745 -/
def mergeFiles : List FileMetaData → List FileMetaData → List FileMetaData
  | base, [] => base
  | base, f :: added =>
      base.takeWhile (fun g => !bySmallestKey f g) ++
        f :: mergeFiles (base.dropWhile fun g => !bySmallestKey f g) added

/-- The version that the edits lead to.  Only tables that are not deleted are kept.
SRCLINE: leveldb-1.15.0/db/version_set.cc:716-777 -/
def saveTo (b : Builder) : Version where
  files level :=
    (mergeFiles (b.base.files level) (b.levels level).addedFiles).filter fun f =>
      decide (f.number ∉ (b.levels level).deletedFiles)

end Builder

/-- The version that an edit leads to.
SRCLINE: leveldb-1.15.0/db/version_set.cc:840-844 -/
def Version.applyEdit (v : Version) (edit : VersionEdit) : Version :=
  ((Builder.new v).apply edit).saveTo

/-! ## The iterator over the tables of a level -/

namespace LevelFileNumIterator

/-- The key is the largest key of the table, the value its number and size; an index behind the
last table marks an invalid iterator.
SRCLINE: leveldb-1.15.0/db/version_set.cc:168-216 -/
def ops (files : List FileMetaData) : IteratorOps ℕ (List Byte) (List Byte) where
  current index :=
    files[index]?.map fun f => (f.largest, encodeFixed64 f.number ++ encodeFixed64 f.fileSize)
  move mv index :=
    match mv with
    | .seek target => some (findFile files target)
    | .seekToFirst => some 0
    | .seekToLast => some (if files.isEmpty then 0 else files.length - 1)
    | .next => if index < files.length then some (index + 1) else none
    | .prev =>
        if index < files.length then some (if index = 0 then files.length else index - 1) else none

/-- SRCLINE: leveldb-1.15.0/db/version_set.cc:170-174 -/
def new (files : List FileMetaData) : ℕ := files.length

end LevelFileNumIterator

end ExternalSort.Model
