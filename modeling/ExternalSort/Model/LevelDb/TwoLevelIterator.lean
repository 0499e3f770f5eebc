import ExternalSort.Lib.Cursor
import ExternalSort.Lib.Loop

/-!
# The iterator over the blocks of an index

`TwoLevelIterator` walks through an index whose entries name blocks, and through the block the
index stands on.  It is used twice: over the blocks of a table, and over the tables of a level.
A block is opened when the index comes to it, unless it is the one that is open.

The status that keeps errors of blocks is not modelled: a block that cannot be read is outside
of this model.
-/

set_option autoImplicit false

namespace ExternalSort.Model

open ExternalSort.Lib

/-- `data` is `data_iter_` with `data_block_handle_`, which is read only if there is a block.
SRCLINE: leveldb-1.15.0/table/two_level_iterator.cc:64-73 -/
structure TwoLevelIterator (σ H τ : Type) where
  index : σ
  data : Option (H × τ)

namespace TwoLevelIterator

variable {σ τ K H V : Type} [DecidableEq H] (index : IteratorOps σ K H) (blockFunction : H → τ)
  (block : IteratorOps τ K V)

/-- SRCLINE: leveldb-1.15.0/table/two_level_iterator.cc:76-86 -/
def new (iter : σ) : TwoLevelIterator σ H τ := ⟨iter, none⟩

/-- The key and the value, if the iterator is valid.
SRCLINE: leveldb-1.15.0/table/two_level_iterator.cc:32-42 -/
def current (it : TwoLevelIterator σ H τ) : Option (K × V) :=
  it.data.bind fun d => block.current d.2

/-- SRCLINE: leveldb-1.15.0/table/two_level_iterator.cc:156-171 -/
def initDataBlock (it : TwoLevelIterator σ H τ) : TwoLevelIterator σ H τ :=
  match index.current it.index with
  | none => { it with data := none }
  | some (_, handle) =>
      match it.data with
      | none => { it with data := some (handle, blockFunction handle) }
      | some d => if handle = d.1 then it else { it with data := some (handle, blockFunction handle) }

/-- A move of the block, if there is one.
SRCLINE: leveldb-1.15.0/table/two_level_iterator.cc:91-121 -/
def moveData (mv : Move K) (it : TwoLevelIterator σ H τ) : Option (TwoLevelIterator σ H τ) :=
  match it.data with
  | none => some it
  | some d => (block.move mv d.2).map fun iter => { it with data := some (d.1, iter) }

/-- A round of the loops that skip empty blocks: `onIndex` is the move to the block that comes
next, `onBlock` the one to its nearest pair.
SRCLINE: leveldb-1.15.0/table/two_level_iterator.cc:126-135,
leveldb-1.15.0/table/two_level_iterator.cc:139-148 -/
def skipRound (onIndex onBlock : Move K) (it : TwoLevelIterator σ H τ) :
    Option (TwoLevelIterator σ H τ ⊕ TwoLevelIterator σ H τ) :=
  if (current block it).isSome then some (.inr it)
  else if (index.current it.index).isNone then some (.inr { it with data := none })
  else
    (index.move onIndex it.index).bind fun iter =>
      (({ it with index := iter }.initDataBlock index blockFunction).moveData block onBlock).map .inl

/-- SRCLINE: leveldb-1.15.0/table/two_level_iterator.cc:125-136 -/
def skipEmptyDataBlocksForward (fuel : ℕ) :
    TwoLevelIterator σ H τ → Option (TwoLevelIterator σ H τ) :=
  loop (skipRound index blockFunction block .next .seekToFirst) fuel

/-- SRCLINE: leveldb-1.15.0/table/two_level_iterator.cc:138-149 -/
def skipEmptyDataBlocksBackward (fuel : ℕ) :
    TwoLevelIterator σ H τ → Option (TwoLevelIterator σ H τ) :=
  loop (skipRound index blockFunction block .prev .seekToLast) fuel

/-- A move of the index and then of the block it stands on.
SRCLINE: leveldb-1.15.0/table/two_level_iterator.cc:91-109 -/
def reposition (mv : Move K) (it : TwoLevelIterator σ H τ) : Option (TwoLevelIterator σ H τ) :=
  (index.move mv it.index).bind fun iter =>
    ({ it with index := iter }.initDataBlock index blockFunction).moveData block mv

/-- The iterator as its users see it; `next` and `prev` are for a valid iterator.
SRCLINE: leveldb-1.15.0/table/two_level_iterator.cc:91-122 -/
def ops (fuel : ℕ) : IteratorOps (TwoLevelIterator σ H τ) K V where
  current := current block
  move mv it :=
    match mv with
    | .seek target =>
        (it.reposition index blockFunction block (.seek target)).bind
          (skipEmptyDataBlocksForward index blockFunction block fuel)
    | .seekToFirst =>
        (it.reposition index blockFunction block .seekToFirst).bind
          (skipEmptyDataBlocksForward index blockFunction block fuel)
    | .seekToLast =>
        (it.reposition index blockFunction block .seekToLast).bind
          (skipEmptyDataBlocksBackward index blockFunction block fuel)
    | .next =>
        if (current block it).isSome then
          (it.moveData block .next).bind
            (skipEmptyDataBlocksForward index blockFunction block fuel)
        else none
    | .prev =>
        if (current block it).isSome then
          (it.moveData block .prev).bind
            (skipEmptyDataBlocksBackward index blockFunction block fuel)
        else none

end TwoLevelIterator

end ExternalSort.Model
