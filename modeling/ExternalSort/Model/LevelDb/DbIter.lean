import ExternalSort.Lib.Cursor
import ExternalSort.Lib.Loop
import ExternalSort.Model.LevelDb.InternalKey
import ExternalSort.Model.LevelDb.MergingIterator

/-!
# The iterator of the database

`DBIter` stands on top of an iterator over all versions of all keys, and shows of every user
key the newest version that is not newer than its sequence number, unless this is a deletion.
Moving forward, it stands on the version it shows.  Moving backward, it has copied what it
shows, and the iterator below stands before all versions of this key.

A move is `none` if it asks an iterator that stands nowhere for its key, or is out of fuel.
Left out: the sampling of reads (it only prompts compactions), and the capacity of the saved
value.
-/

set_option autoImplicit false

namespace ExternalSort.Model

open ExternalSort.Lib

/-- The iterator, on an internal iterator with states `σ`.
SRCLINE: leveldb-1.15.0/db/db_iter.cc:51-61, leveldb-1.15.0/db/db_iter.cc:111-123 -/
structure DbIter (σ : Type) where
  iter : σ
  sequence : ℕ
  status : Option String
  savedKey : List Byte
  savedValue : List Byte
  direction : Direction
  valid : Bool

namespace DbIter

variable {σ : Type} (m : IteratorOps σ (List Byte) (List Byte))

/-- SRCLINE: leveldb-1.15.0/db/db_iter.cc:51-61 -/
def new (iter : σ) (sequence : ℕ) : DbIter σ where
  iter := iter
  sequence := sequence
  status := none
  savedKey := []
  savedValue := []
  direction := .forward
  valid := false

/-- The key and the value, if the iterator is valid.
SRCLINE: leveldb-1.15.0/db/db_iter.cc:65-73 -/
def current (it : DbIter σ) : Option (List Byte × List Byte) :=
  if it.valid then
    match it.direction with
    | .forward => (m.current it.iter).map fun p => (extractUserKey p.1, p.2)
    | .reverse => some (it.savedKey, it.savedValue)
  else none

/-- The parts of the key below; a key that cannot be parsed is noted in the status.
SRCLINE: leveldb-1.15.0/db/db_iter.cc:130-144 -/
def parseKey (it : DbIter σ) (key : List Byte) : DbIter σ × Option ParsedInternalKey :=
  match parseInternalKey key with
  | none => ({ it with status := some "corrupted internal key in DBIter" }, none)
  | some ikey => (it, some ikey)

/-- The end of a round of the forward loop: step on, and leave the loop at the end.
SRCLINE: leveldb-1.15.0/db/db_iter.cc:199-202 -/
def stepForward (it : DbIter σ) (skipping : Bool) : Option ((DbIter σ × Bool) ⊕ DbIter σ) :=
  (m.move .next it.iter).map fun iter =>
    match m.current iter with
    | some _ => .inl ({ it with iter := iter }, skipping)
    | none => .inr { it with iter := iter, savedKey := [], valid := false }

/-- A round of the loop for the next entry to show.  `skip` is always `saved_key_`.
SRCLINE: leveldb-1.15.0/db/db_iter.cc:177-200 -/
def nextRound (s : DbIter σ × Bool) : Option ((DbIter σ × Bool) ⊕ DbIter σ) :=
  match m.current s.1.iter with
  | none => none
  | some (key, _) =>
      match s.1.parseKey key with
      | (it, none) => it.stepForward m s.2
      | (it, some ikey) =>
          if ikey.sequence ≤ it.sequence then
            match ikey.type with
            | .deletion => { it with savedKey := ikey.userKey }.stepForward m true
            | .value =>
                if s.2 ∧ sliceCompare ikey.userKey it.savedKey ≤ 0 then it.stepForward m s.2
                else some (.inr { it with savedKey := [], valid := true })
          else it.stepForward m s.2

/-- Move on to an entry to show.
SRCLINE: leveldb-1.15.0/db/db_iter.cc:173-203 -/
def findNextUserEntry (fuel : ℕ) (skipping : Bool) (it : DbIter σ) : Option (DbIter σ) :=
  loop (nextRound m) fuel (it, skipping)

/-- What the backward loop leaves when it ends.
SRCLINE: leveldb-1.15.0/db/db_iter.cc:263-271 -/
def prevDone (it : DbIter σ) (valueType : ValueType) : DbIter σ :=
  match valueType with
  | .deletion => { it with valid := false, savedKey := [], savedValue := [], direction := .forward }
  | .value => { it with valid := true }

/-- The end of a round of the backward loop: step back, and leave the loop at the end.
SRCLINE: leveldb-1.15.0/db/db_iter.cc:259-260 -/
def stepBackward (it : DbIter σ) (valueType : ValueType) :
    Option ((DbIter σ × ValueType) ⊕ DbIter σ) :=
  (m.move .prev it.iter).map fun iter =>
    match m.current iter with
    | some _ => .inl ({ it with iter := iter }, valueType)
    | none => .inr ({ it with iter := iter }.prevDone valueType)

/-- A round of the loop for the previous entry to show.
SRCLINE: leveldb-1.15.0/db/db_iter.cc:237-260 -/
def prevRound (s : DbIter σ × ValueType) : Option ((DbIter σ × ValueType) ⊕ DbIter σ) :=
  match m.current s.1.iter with
  | none => none
  | some (key, value) =>
      match s.1.parseKey key with
      | (it, none) => it.stepBackward m s.2
      | (it, some ikey) =>
          if ikey.sequence ≤ it.sequence then
            if s.2 ≠ .deletion ∧ sliceCompare ikey.userKey it.savedKey < 0 then
              some (.inr (it.prevDone s.2))
            else
              match ikey.type with
              | .deletion => { it with savedKey := [], savedValue := [] }.stepBackward m .deletion
              | .value =>
                  { it with savedKey := extractUserKey key, savedValue := value }.stepBackward m
                    .value
          else it.stepBackward m s.2

/-- Move back to an entry to show.
SRCLINE: leveldb-1.15.0/db/db_iter.cc:232-272 -/
def findPrevUserEntry (fuel : ℕ) (it : DbIter σ) : Option (DbIter σ) :=
  match m.current it.iter with
  | none => some (it.prevDone .deletion)
  | some _ => loop (prevRound m) fuel (it, .deletion)

/-- The move forward.
SRCLINE: leveldb-1.15.0/db/db_iter.cc:146-171 -/
def next (fuel : ℕ) (it : DbIter σ) : Option (DbIter σ) :=
  match it.direction with
  | .reverse =>
      -- the iterator below is before all entries of the key shown
      let below := if (m.current it.iter).isNone then m.move .seekToFirst it.iter
        else m.move .next it.iter
      below.bind fun iter =>
        let it := { it with direction := .forward, iter := iter }
        if (m.current iter).isNone then some { it with valid := false, savedKey := [] }
        else it.findNextUserEntry m fuel true
  | .forward =>
      match m.current it.iter with
      | none => none
      | some (key, _) => { it with savedKey := extractUserKey key }.findNextUserEntry m fuel true

/-- A round of the loop that leaves the entries of the key shown backward.
SRCLINE: leveldb-1.15.0/db/db_iter.cc:213-225 -/
def leaveRound (it : DbIter σ) : Option (DbIter σ ⊕ DbIter σ) :=
  (m.move .prev it.iter).map fun iter =>
    let it := { it with iter := iter }
    match m.current iter with
    | none => .inr { it with valid := false, savedKey := [], savedValue := [] }
    | some (key, _) =>
        if sliceCompare (extractUserKey key) it.savedKey < 0 then
          .inr { it with direction := .reverse }
        else .inl it

/-- The move backward.
SRCLINE: leveldb-1.15.0/db/db_iter.cc:205-230 -/
def prev (fuel : ℕ) (it : DbIter σ) : Option (DbIter σ) :=
  match it.direction with
  | .reverse => it.findPrevUserEntry m fuel
  | .forward =>
      match m.current it.iter with
      | none => none
      | some (key, _) =>
          (loop (leaveRound m) fuel { it with savedKey := extractUserKey key }).bind fun it =>
            match it.direction with
            | .forward => some it
            | .reverse => it.findPrevUserEntry m fuel

/-- SRCLINE: leveldb-1.15.0/db/db_iter.cc:274-286 -/
def seek (fuel : ℕ) (target : List Byte) (it : DbIter σ) : Option (DbIter σ) :=
  let savedKey := appendInternalKey ⟨target, it.sequence, kValueTypeForSeek⟩
  (m.move (.seek savedKey) it.iter).bind fun iter =>
    let it :=
      { it with direction := .forward, savedValue := [], savedKey := savedKey, iter := iter }
    if (m.current iter).isSome then it.findNextUserEntry m fuel false
    else some { it with valid := false }

/-- SRCLINE: leveldb-1.15.0/db/db_iter.cc:288-297 -/
def seekToFirst (fuel : ℕ) (it : DbIter σ) : Option (DbIter σ) :=
  (m.move .seekToFirst it.iter).bind fun iter =>
    let it := { it with direction := .forward, savedValue := [], iter := iter }
    if (m.current iter).isSome then it.findNextUserEntry m fuel false
    else some { it with valid := false }

/-- SRCLINE: leveldb-1.15.0/db/db_iter.cc:299-304 -/
def seekToLast (fuel : ℕ) (it : DbIter σ) : Option (DbIter σ) :=
  (m.move .seekToLast it.iter).bind fun iter =>
    { it with direction := .reverse, savedValue := [], iter := iter }.findPrevUserEntry m fuel

/-- The iterator as its users see it; `next` and `prev` are for a valid iterator.
SRCLINE: leveldb-1.15.0/db/db_iter.cc:65-86 -/
def ops (fuel : ℕ) : IteratorOps (DbIter σ) (List Byte) (List Byte) where
  current := current m
  move mv it :=
    match mv with
    | .seekToFirst => it.seekToFirst m fuel
    | .seekToLast => it.seekToLast m fuel
    | .seek target => it.seek m fuel target
    | .next => if it.valid then it.next m fuel else none
    | .prev => if it.valid then it.prev m fuel else none

end DbIter

end ExternalSort.Model
