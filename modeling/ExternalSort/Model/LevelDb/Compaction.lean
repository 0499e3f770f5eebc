import ExternalSort.Model.LevelDb.InternalIterator

/-!
# Compactions

A compaction takes tables of a level and the tables of the next level that overlap them, merges
their entries, and writes those that are still needed to new tables of the next level.  Here are
the choice of the tables and the loop that writes the new ones.

Which level is compacted, and which of its tables is taken first, is left open: a compaction may
begin with any table of any level but the last.  Compactions that are asked for by hand are not
modelled, and neither are snapshots: there are none, so the smallest one is the last sequence
number.  The sizes of tables are a parameter (`Sizes`).
-/

set_option autoImplicit false

namespace ExternalSort.Model

open ExternalSort.Lib

/-- SRCLINE: leveldb-1.15.0/db/version_set.h:322-390 -/
structure Compaction where
  level : ℕ
  inputs0 : List FileMetaData
  inputs1 : List FileMetaData
  grandparents : List FileMetaData
  inputVersion : Version
  grandparentIndex : ℕ
  seenKey : Bool
  overlappedBytes : ℕ
  levelPtrs : ℕ → ℕ

namespace Compaction

/-! ## The choice of the tables -/

/-- The range of one more table.
SRCLINE: leveldb-1.15.0/db/version_set.cc:1201-1206 -/
def widenRange (range : List Byte × List Byte) (f : FileMetaData) : List Byte × List Byte :=
  (if internalKeyCompare f.smallest range.1 < 0 then f.smallest else range.1,
    if internalKeyCompare f.largest range.2 > 0 then f.largest else range.2)

/-- The smallest and the largest key of some tables.
SRCLINE: leveldb-1.15.0/db/version_set.cc:1190-1210 -/
def getRange : List FileMetaData → List Byte × List Byte
  | [] => ([], [])
  | f :: inputs => inputs.foldl widenRange (f.smallest, f.largest)

/-- More tables of the level, if that takes in no more tables of the next level.
SRCLINE: leveldb-1.15.0/db/version_set.cc:1322-1354 -/
def expandInputs (v : Version) (fuel level : ℕ) (inputs0 inputs1 : List FileMetaData) :
    Option (List FileMetaData × List FileMetaData) := do
  if inputs1.isEmpty then return (inputs0, inputs1)
  let all := getRange (inputs0 ++ inputs1)
  let expanded0 ← v.getOverlappingInputs fuel level (some all.1) (some all.2)
  if expanded0.length > inputs0.length ∧
      totalFileSize inputs1 + totalFileSize expanded0 < kExpandedCompactionByteSizeLimit then
    let range := getRange expanded0
    let expanded1 ← v.getOverlappingInputs fuel (level + 1) (some range.1) (some range.2)
    if expanded1.length = inputs1.length then return (expanded0, expanded1)
  return (inputs0, inputs1)

/-- The tables of the level behind the next that overlap a compaction.
SRCLINE: leveldb-1.15.0/db/version_set.cc:1356-1361 -/
def findGrandparents (v : Version) (fuel level : ℕ) (inputs : List FileMetaData) :
    Option (List FileMetaData) :=
  let all := getRange inputs
  if level + 2 < kNumLevels then v.getOverlappingInputs fuel (level + 2) (some all.1) (some all.2)
  else some []

/-- SRCLINE: leveldb-1.15.0/db/version_set.cc:1311-1377 -/
def setupOtherInputs (v : Version) (fuel level : ℕ) (inputs0 : List FileMetaData) :
    Option Compaction := do
  let range := getRange inputs0
  let inputs1 ← v.getOverlappingInputs fuel (level + 1) (some range.1) (some range.2)
  let inputs ← expandInputs v fuel level inputs0 inputs1
  let grandparents ← findGrandparents v fuel level (inputs.1 ++ inputs.2)
  return ⟨level, inputs.1, inputs.2, grandparents, v, 0, false, 0, fun _ => 0⟩

/-- The tables of its level that a compaction begins with.
SRCLINE: leveldb-1.15.0/db/version_set.cc:1294-1304 -/
def firstInputs (v : Version) (fuel level : ℕ) (f : FileMetaData) : Option (List FileMetaData) :=
  if level = 0 then v.getOverlappingInputs fuel 0 (some f.smallest) (some f.largest)
  else some [f]

/-- The compaction that begins with a table of a level.
SRCLINE: leveldb-1.15.0/db/version_set.cc:1257-1309 -/
def pickCompaction (v : Version) (fuel level : ℕ) (f : FileMetaData) : Option Compaction :=
  (firstInputs v fuel level f).bind (setupOtherInputs v fuel level)

/-- SRCLINE: leveldb-1.15.0/db/version_set.cc:1431-1438 -/
def isTrivialMove (c : Compaction) : Bool :=
  decide (c.inputs0.length = 1 ∧ c.inputs1.length = 0 ∧
    totalFileSize c.grandparents ≤ kMaxGrandParentOverlapBytes)

/-- SRCLINE: leveldb-1.15.0/db/version_set.cc:1440-1446 -/
def inputDeletions (c : Compaction) : List (ℕ × ℕ) :=
  c.inputs0.map (fun f => (c.level, f.number)) ++ c.inputs1.map fun f => (c.level + 1, f.number)

/-! ## Questions of the loop -/

/-- The first table of a level, from an index on, that does not end before a user key.
SRCLINE: leveldb-1.15.0/db/version_set.cc:1453-1463 -/
def advance (files : List FileMetaData) (userKey : List Byte) (ptr : ℕ) : ℕ :=
  ptr + ((files.drop ptr).takeWhile fun f =>
    decide (sliceCompare userKey f.largestUserKey > 0)).length

/-- Whether no table of some levels covers a user key, and how far the search has come.
SRCLINE: leveldb-1.15.0/db/version_set.cc:1451-1466 -/
def baseLevelFrom (v : Version) (userKey : List Byte) : ℕ → ℕ → (ℕ → ℕ) → Bool × (ℕ → ℕ)
  | 0, _, ptrs => (true, ptrs)
  | rounds + 1, lvl, ptrs =>
      let ptr := advance (v.files lvl) userKey (ptrs lvl)
      let ptrs := Function.update ptrs lvl ptr
      match (v.files lvl)[ptr]? with
      | none => baseLevelFrom v userKey rounds (lvl + 1) ptrs
      | some f =>
          if sliceCompare userKey f.smallestUserKey ≥ 0 then (false, ptrs)
          else baseLevelFrom v userKey rounds (lvl + 1) ptrs

/-- SRCLINE: leveldb-1.15.0/db/version_set.cc:1448-1467 -/
def isBaseLevelForKey (c : Compaction) (userKey : List Byte) : Bool × Compaction :=
  let r := baseLevelFrom c.inputVersion userKey (kNumLevels - (c.level + 2)) (c.level + 2) c.levelPtrs
  (r.1, { c with levelPtrs := r.2 })

/-- Whether a table should end in front of a key, since it overlaps too much two levels down.
SRCLINE: leveldb-1.15.0/db/version_set.cc:1469-1489 -/
def shouldStopBefore (c : Compaction) (internalKey : List Byte) : Bool × Compaction :=
  let passed := (c.grandparents.drop c.grandparentIndex).takeWhile fun f =>
    decide (internalKeyCompare internalKey f.largest > 0)
  let overlapped := c.overlappedBytes + if c.seenKey then totalFileSize passed else 0
  let c := { c with grandparentIndex := c.grandparentIndex + passed.length, seenKey := true }
  if overlapped > kMaxGrandParentOverlapBytes then (true, { c with overlappedBytes := 0 })
  else (false, { c with overlappedBytes := overlapped })

/-- SRCLINE: leveldb-1.15.0/db/version_set.cc:1224-1255 -/
def makeInputIterator (c : Compaction) : MergedIterator ChildIterator :=
  let iterators (which : ℕ) (files : List FileMetaData) : List ChildIterator :=
    if files.isEmpty then []
    else if c.level + which = 0 then files.map ChildIterator.newFile
    else [ChildIterator.newConcatenatingIterator files]
  MergedIterator.newMergingIterator (iterators 0 c.inputs0 ++ iterators 1 c.inputs1)

end Compaction

/-! ## The loop -/

/-- The sizes of a table: while it is built, and when it is finished. -/
structure Sizes where
  builder : List (List Byte × List Byte) → ℕ
  table : List (List Byte × List Byte) → ℕ

/-- A table that is being built. -/
structure Output where
  number : ℕ
  pairs : List (List Byte × List Byte)

/-- What is noted about a finished table.
SRCLINE: leveldb-1.15.0/db/db_impl.cc:958-963, leveldb-1.15.0/db/builder.cc:36-46 -/
def Output.metaData (sizes : Sizes) (out : Output) : FileMetaData where
  number := out.number
  fileSize := sizes.table out.pairs
  smallest := (out.pairs.head?.map Prod.fst).getD []
  largest := (out.pairs.getLast?.map Prod.fst).getD []

/-- `currentUserKey` is `none` if there is none yet.
SRCLINE: leveldb-1.15.0/db/db_impl.cc:50-80, leveldb-1.15.0/db/db_impl.cc:881-883 -/
structure CompactionState where
  compaction : Compaction
  smallestSnapshot : ℕ
  outputs : List FileMetaData
  builder : Option Output
  input : MergedIterator ChildIterator
  currentUserKey : Option (List Byte)
  lastSequenceForKey : ℕ

namespace CompactionState

/-- The loop before its first round.
SRCLINE: leveldb-1.15.0/db/db_impl.cc:855-883 -/
def start (tables : Tables) (fuel : ℕ) (c : Compaction) (lastSequence : ℕ) : Option CompactionState :=
  ((internalOps tables fuel).move .seekToFirst c.makeInputIterator).map fun input =>
    ⟨c, lastSequence, [], none, input, none, kMaxSequenceNumber⟩

/-- Whether a version is the first of its user key.
SRCLINE: leveldb-1.15.0/db/db_impl.cc:914-917 -/
def isFirst (s : CompactionState) (userKey : List Byte) : Bool :=
  match s.currentUserKey with
  | none => true
  | some k => decide (sliceCompare userKey k ≠ 0)

/-- Whether a version is dropped, where `last` is the sequence number of the version of the same
key in front of it: if it is hidden by that one, or if it is a deletion with nothing left to hide.
SRCLINE: leveldb-1.15.0/db/db_impl.cc:924-937 -/
def dropRule (s : CompactionState) (ikey : ParsedInternalKey) (last : ℕ) : Bool × Compaction :=
  if last ≤ s.smallestSnapshot then (true, s.compaction)
  else if ikey.type = .deletion ∧ ikey.sequence ≤ s.smallestSnapshot then
    s.compaction.isBaseLevelForKey ikey.userKey
  else (false, s.compaction)

/-- What happens to a version.
SRCLINE: leveldb-1.15.0/db/db_impl.cc:907-940 -/
def dropEntry (s : CompactionState) (key : List Byte) : Bool × CompactionState :=
  match parseInternalKey key with
  | none => (false, { s with currentUserKey := none, lastSequenceForKey := kMaxSequenceNumber })
  | some ikey =>
      let first := s.isFirst ikey.userKey
      let dropped := s.dropRule ikey (if first then kMaxSequenceNumber else s.lastSequenceForKey)
      (dropped.1, { s with
        compaction := dropped.2
        currentUserKey := if first then some ikey.userKey else s.currentUserKey
        lastSequenceForKey := ikey.sequence })

end CompactionState

/-- A compaction with what it shares with the rest of the store. -/
structure CompactionWork where
  state : CompactionState
  nextFileNumber : ℕ
  tables : Tables

namespace CompactionWork

variable (sizes : Sizes)

/-- A table is finished: it is on disk under its number, and one of the outputs.
SRCLINE: leveldb-1.15.0/db/db_impl.cc:796-815 -/
def addTable (w : CompactionWork) (out : Output) : CompactionWork where
  state := { w.state with builder := none, outputs := w.state.outputs ++ [out.metaData sizes] }
  nextFileNumber := w.nextFileNumber
  tables := Function.update w.tables out.number (some out.pairs)

/-- The table that is being built is finished, if there is one.
SRCLINE: leveldb-1.15.0/db/db_impl.cc:782-831 -/
def finishCompactionOutputFile (w : CompactionWork) : CompactionWork :=
  match w.state.builder with
  | none => w
  | some out => w.addTable sizes out

/-- The output to add to; a new one takes the next number.
SRCLINE: leveldb-1.15.0/db/db_impl.cc:757-780 -/
def openCompactionOutputFile (w : CompactionWork) : Output × ℕ :=
  match w.state.builder with
  | none => (⟨w.nextFileNumber, []⟩, w.nextFileNumber + 1)
  | some out => (out, w.nextFileNumber)

/-- A version is added to the output.
SRCLINE: leveldb-1.15.0/db/db_impl.cc:951-964 -/
def addEntry (w : CompactionWork) (key value : List Byte) : CompactionWork :=
  let opened := w.openCompactionOutputFile
  { w with
    nextFileNumber := opened.2
    state := { w.state with
      builder := some { opened.1 with pairs := opened.1.pairs ++ [(key, value)] } } }

/-- The size of the table that is being built. -/
def builderSize (w : CompactionWork) : ℕ := (w.state.builder.map fun out => sizes.builder out.pairs).getD 0

/-- A version is kept: it is added to the output, which ends if it is big enough.
SRCLINE: leveldb-1.15.0/db/db_impl.cc:951-973 -/
def keepEntry (w : CompactionWork) (key value : List Byte) : CompactionWork :=
  let w := w.addEntry key value
  if w.builderSize sizes ≥ kTargetFileSize then w.finishCompactionOutputFile sizes else w

/-- The output ends in front of a key, if it should.
SRCLINE: leveldb-1.15.0/db/db_impl.cc:896-903 -/
def stopBefore (w : CompactionWork) (key : List Byte) : CompactionWork :=
  let stop := w.state.compaction.shouldStopBefore key
  let w := { w with state := { w.state with compaction := stop.2 } }
  if stop.1 then w.finishCompactionOutputFile sizes else w

/-- A version is dropped or kept.
SRCLINE: leveldb-1.15.0/db/db_impl.cc:905-973 -/
def sift (w : CompactionWork) (key value : List Byte) : CompactionWork :=
  let drop := w.state.dropEntry key
  let w := { w with state := drop.2 }
  if drop.1 then w else w.keepEntry sizes key value

/-- A round of the loop, without the flush of a memtable that may come first.  It is for a valid
input.
SRCLINE: leveldb-1.15.0/db/db_impl.cc:884-976 -/
def round (fuel : ℕ) (w : CompactionWork) : Option CompactionWork :=
  ((internalOps w.tables fuel).current w.state.input).bind fun p =>
    let w := (w.stopBefore sizes p.1).sift sizes p.1 p.2
    ((internalOps w.tables fuel).move .next w.state.input).map fun input =>
      { w with state := { w.state with input := input } }

/-- The edit of a compaction whose input has come to its end.
SRCLINE: leveldb-1.15.0/db/db_impl.cc:834-853 -/
def installEdit (w : CompactionWork) : VersionEdit where
  deletedFiles := w.state.compaction.inputDeletions
  newFiles := w.state.outputs.map fun f => (w.state.compaction.level + 1, f)

end CompactionWork

end ExternalSort.Model
