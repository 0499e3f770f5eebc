import ExternalSort.Model.LevelDb.Compaction
import ExternalSort.Model.LevelDb.DbIter

/-!
# An open database

The state of an open database is what it has in memory, the tables on disk with the version that
says where they belong, and the compaction that is going on, if there is one.  Writers and the
thread in the background take turns under a lock; what one of them does while it has the lock, or
while no one else can see it, is one `Action`, and a run is any sequence of actions.

Left open, so that every choice is a run: which writers are in a group, when a memtable is full,
and which table a compaction begins with.  Log files, the manifest, opening a database that is
there already, snapshots, compactions by hand and `Get` are not modelled, and no file operation
fails.
-/

set_option autoImplicit false

namespace ExternalSort.Model

open ExternalSort.Lib

/-! ## Batches -/

namespace WriteBatch

/-- A batch after some calls of `Put` and `Delete`.
SRCLINE: leveldb-1.15.0/db/write_batch.cc:98-109 -/
def ofOps (ops : List BatchOp) : List Byte := ops.foldl add clear

/-- The batches of a group of writers become one.  The batch of a single writer is taken as it is.
SRCLINE: leveldb-1.15.0/db/db_impl.cc:1237-1282 -/
def buildBatchGroup (first : List Byte) (others : List (List Byte)) : List Byte :=
  if others.isEmpty then first else others.foldl append (append clear first)

end WriteBatch

/-! ## The state -/

/-- What an open database has.
SRCLINE: leveldb-1.15.0/db/db_impl.h:130-190 -/
structure Store where
  mem : MemTable
  imm : Option MemTable
  version : Version
  tables : Tables
  lastSequence : ℕ
  nextFileNumber : ℕ
  compacting : Option CompactionState

namespace Store

/-- A database that was just made: its manifests and its log have the numbers up to 3.
SRCLINE: leveldb-1.15.0/db/db_impl.cc:177-207, leveldb-1.15.0/db/db_impl.cc:1445-1474,
leveldb-1.15.0/db/version_set.cc:1010-1020 -/
def new : Store where
  mem := SkipList.new
  imm := none
  version := ⟨fun _ => []⟩
  tables := fun _ => none
  lastSequence := 0
  nextFileNumber := 4
  compacting := none

variable (fuel : ℕ) (sizes : Sizes)

/-! ## Writers -/

/-- A group of writers is served: its records take the next sequence numbers.
SRCLINE: leveldb-1.15.0/db/db_impl.cc:1178-1217 -/
def write (first : List BatchOp) (others : List (List BatchOp)) (s : Store) : Option Store :=
  let updates := WriteBatch.setSequence
    (WriteBatch.buildBatchGroup (WriteBatch.ofOps first) (others.map WriteBatch.ofOps))
    (s.lastSequence + 1)
  (s.mem.insertInto fuel updates).map fun r =>
    { s with mem := r.1, lastSequence := s.lastSequence + WriteBatch.count updates }

/-- A new memtable, and a number for its log; as long as the last one waits to be written to disk,
this waits too.
SRCLINE: leveldb-1.15.0/db/db_impl.cc:1314-1343 -/
def makeRoomForWrite (s : Store) : Store :=
  if s.imm.isSome then s
  else { s with
    mem := SkipList.new, imm := some s.mem, nextFileNumber := s.nextFileNumber + 1 }

/-! ## The thread in the background -/

/-- The entries of a memtable are written to a table, if there are any, and a level is picked for
it.
SRCLINE: leveldb-1.15.0/db/db_impl.cc:457-501, leveldb-1.15.0/db/builder.cc:17-86 -/
def writeLevel0Table (table : MemTable) (s : Store) : Option (Store × VersionEdit) :=
  ((MemTable.iterator fuel table).scan fuel none).bind fun pairs =>
    let out : Output := ⟨s.nextFileNumber, pairs⟩
    let s := { s with nextFileNumber := s.nextFileNumber + 1 }
    if pairs.isEmpty then some (s, ⟨[], []⟩)
    else
      let f := out.metaData sizes
      (s.version.pickLevelForMemTableOutput fuel f.smallestUserKey f.largestUserKey).map fun level =>
        ({ s with tables := Function.update s.tables out.number (some pairs) }, ⟨[], [(level, f)]⟩)

/-- The memtable that waits is written to disk.
SRCLINE: leveldb-1.15.0/db/db_impl.cc:503-534 -/
def compactMemTable (s : Store) : Option Store :=
  match s.imm with
  | none => some s
  | some table =>
      (s.writeLevel0Table fuel sizes table).map fun r =>
        { r.1 with imm := none, version := r.1.version.applyEdit r.2 }

/-- A table goes to the next level as it is.
SRCLINE: leveldb-1.15.0/db/db_impl.cc:685-692 -/
def moveEdit (c : Compaction) : VersionEdit where
  deletedFiles := c.inputs0.map fun f => (c.level, f.number)
  newFiles := c.inputs0.map fun f => (c.level + 1, f)

/-- A compaction begins, with a table of a level.  One is made at a time, and a memtable that waits
comes first.
SRCLINE: leveldb-1.15.0/db/db_impl.cc:655-714 -/
def backgroundCompaction (level index : ℕ) (s : Store) : Option Store :=
  if s.compacting.isSome ∨ s.imm.isSome ∨ kNumLevels ≤ level + 1 then some s
  else
    match (s.version.files level)[index]? with
    | none => some s
    | some f =>
        (Compaction.pickCompaction s.version fuel level f).bind fun c =>
          if c.isTrivialMove then some { s with version := s.version.applyEdit (moveEdit c) }
          else
            (CompactionState.start s.tables fuel c s.lastSequence).map fun state =>
              { s with compacting := some state }

/-- What a compaction works on. -/
def work (s : Store) (state : CompactionState) : CompactionWork :=
  ⟨state, s.nextFileNumber, s.tables⟩

/-- The next round of a compaction, if its input has not come to its end.
SRCLINE: leveldb-1.15.0/db/db_impl.cc:884-976 -/
def doCompactionWork (s : Store) : Option Store :=
  match s.compacting with
  | none => some s
  | some state =>
      if ((internalOps s.tables fuel).current state.input).isNone then some s
      else
        ((s.work state).round sizes fuel).map fun w =>
          { s with
            tables := w.tables, nextFileNumber := w.nextFileNumber, compacting := some w.state }

/-- The end of a compaction whose input has come to its end.
SRCLINE: leveldb-1.15.0/db/db_impl.cc:834-853, leveldb-1.15.0/db/db_impl.cc:981-1010 -/
def installCompactionResults (s : Store) : Store :=
  match s.compacting with
  | none => s
  | some state =>
      if ((internalOps s.tables fuel).current state.input).isSome then s
      else
        let w := (s.work state).finishCompactionOutputFile sizes
        { s with
          tables := w.tables
          version := s.version.applyEdit w.installEdit
          compacting := none }

end Store

/-! ## Runs -/

/-- What the threads of a database do. -/
inductive Action where
  | write (first : List BatchOp) (others : List (List BatchOp))
  | makeRoom
  | flush
  | compact (level index : ℕ)
  | round
  | install
  deriving DecidableEq, Repr

/-- The records that an action writes. -/
def Action.ops : Action → List BatchOp
  | .write first others => first ++ others.flatten
  | .makeRoom => []
  | .flush => []
  | .compact _ _ => []
  | .round => []
  | .install => []

namespace Store

variable (fuel : ℕ) (sizes : Sizes)

/-- One action.  What has nothing to do, or has to wait, leaves the database as it is. -/
def act (s : Store) : Action → Option Store
  | .write first others => s.write fuel first others
  | .makeRoom => some s.makeRoomForWrite
  | .flush => s.compactMemTable fuel sizes
  | .compact level index => s.backgroundCompaction fuel level index
  | .round => s.doCompactionWork fuel sizes
  | .install => some (s.installCompactionResults fuel sizes)

/-- Some actions, one after the other. -/
def run (actions : List Action) (s : Store) : Option Store := actions.foldlM (act fuel sizes) s

/-- An iterator over the database as it is now.
SRCLINE: leveldb-1.15.0/db/db_impl.cc:1124-1134 -/
def newIterator (s : Store) : DbIter (MergedIterator ChildIterator) :=
  .new (newInternalIterator s.mem s.imm s.version) s.lastSequence

/-- The moves of an iterator over the database as it is now. -/
def iteratorOps (s : Store) :
    IteratorOps (DbIter (MergedIterator ChildIterator)) (List Byte) (List Byte) :=
  DbIter.ops (internalOps s.tables fuel) fuel

end Store

end ExternalSort.Model
