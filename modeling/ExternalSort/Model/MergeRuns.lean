import ExternalSort.Lib.Loop
import ExternalSort.Model.RunIterator

/-!
# Sessions and the merge

A `Session` is what the iterators of a program share: the open files, by the handle an
iterator keeps, and the iterators, by their index in the array.  A call of an iterator
changes that iterator and the handle it reads through, and nothing else.

`mergeRuns` is the merge: its outer loop asks whether any iterator has a record, its
inner loop fills the buffer with the smallest current records, and what was filled is
written out.  Asking for the current record may start an iterator, so all of these
pass the session on.  The record size is kept in an `int`; a result `none` is a division by
a record size of zero, or a comparison of bytes outside of the records.
-/

set_option autoImplicit false

namespace ExternalSort.Model

open ExternalSort.Lib

/-- The open files and the iterators. -/
structure Session where
  files : ℕ → File
  iters : ℕ → RunIterator

namespace Session

/-- One call of iterator `i`: `op` is the method, run on the iterator and its handle. -/
def call {α : Type} (s : Session) (i : ℕ)
    (op : RunIterator → File → α × RunIterator × File) : α × Session :=
  let it := s.iters i
  let (r, it', fp') := op it (s.files it.fp)
  (r, { files := Function.update s.files it.fp fp', iters := Function.update s.iters i it' })

/-- A new iterator on an open file, put into the array at index `i`.
SRCLINE: msort.cc:88 -/
def construct (s : Session) (handle i : ℕ) (args : RunArgs) : Session :=
  let (it, fp) := RunIterator.new handle (s.files handle) args
  { files := Function.update s.files handle fp, iters := Function.update s.iters i it }

/-- New iterators at the indices below the given number, all on one open file.
SRCLINE: msort.cc:87-89 -/
def constructRuns (s : Session) (handle : ℕ) (args : ℕ → RunArgs) : ℕ → Session
  | 0 => s
  | n + 1 => (s.constructRuns handle args n).construct handle n (args n)

/-- `iterators[i]->get_current_record()`. -/
def getCurrentRecord (s : Session) (i : ℕ) : Option Record × Session :=
  s.call i RunIterator.getCurrentRecord

/-- `iterators[i]->next()`. -/
def next (s : Session) (i : ℕ) : Option Record × Session := s.call i RunIterator.next

/-- An interleaving of calls: each names the iterator it goes to, and so does its reply. -/
def runCalls : List (ℕ × Call) → Session → List (ℕ × Reply)
  | [], _ => []
  | (i, c) :: cs, s =>
      let (r, s) := s.call i c.run
      (i, r) :: runCalls cs s

end Session

/-- The entries of an interleaving that belong to iterator `i`. -/
def ofIndex {α : Type} (i : ℕ) (log : List (ℕ × α)) : List α :=
  log.filterMap fun e => if e.1 = i then some e.2 else none

/-- Does any of the iterators have a current record?  The search ends at the first.
SRCLINE: library.cc:230-238 -/
def iteratorsHaveRecords : List ℕ → Session → Bool × Session
  | [], s => (false, s)
  | i :: is, s =>
      let (cur, s) := s.getCurrentRecord i
      if cur.isSome then (true, s) else iteratorsHaveRecords is s

/-- The index of the iterator with the smallest current record; an earlier iterator is
kept unless its record is greater.
SRCLINE: library.cc:240-250 -/
def getIteratorWithSmallestValue : List ℕ → Option ℕ → Session → Option (Option ℕ × Session)
  | [], min, s => some (min, s)
  | i :: is, min, s =>
      let (cur, s) := s.getCurrentRecord i
      match cur with
      | none => getIteratorWithSmallestValue is min s
      | some cur =>
          match min with
          | none => getIteratorWithSmallestValue is (some i) s
          | some m =>
              let (least, s) := s.getCurrentRecord m
              (recordObjectComparator (s.iters m).schema (least.getD []) cur).bind fun v =>
                getIteratorWithSmallestValue is (some (if 0 < v then i else m)) s

/-- The state of the loop that fills the buffer. -/
structure Filling where
  session : Session
  buf : List Byte
  recordsInBuffer : ℕ

/-- Fill the buffer with at most that many records, each copied behind the last.
SRCLINE: library.cc:280-290 -/
def fillBuffer (indices : List ℕ) (recordSize : ℕ) : ℕ → Filling → Option Filling
  | 0, st => some st
  | n + 1, st =>
      (getIteratorWithSmallestValue indices none st.session).bind fun found =>
        match found with
        | (none, s) => some { st with session := s }
        | (some m, s) =>
            let (cur, s) := s.getCurrentRecord m
            let (_, s) := s.next m
            fillBuffer indices recordSize n
              { session := s
                buf := overwrite st.buf (st.recordsInBuffer * recordSize)
                  (strncpy (cur.getD []) recordSize)
                recordsInBuffer := st.recordsInBuffer + 1 }

/-- The number of records the output buffer takes.
SRCLINE: library.cc:270-271 -/
def maxNumberOfRecordsInBuffer (bufSize : ℕ) (recordSize : ℤ) : ℤ :=
  doubleToInt (Int.tdiv bufSize recordSize)

/-- The state of the merge: the session, the output file and the output buffer. -/
structure Merging where
  session : Session
  out : File
  buf : List Byte

/-- One round of the merge: fill the buffer and write it out, while there are records.
SRCLINE: library.cc:277-296 -/
def mergeRound (numRuns recordSize : ℕ) (maxRecords : ℤ) (st : Merging) :
    Option (Merging ⊕ Merging) :=
  let indices := List.range numRuns
  let (more, s) := iteratorsHaveRecords indices st.session
  if more then
    (fillBuffer indices recordSize maxRecords.toNat ⟨s, st.buf, 0⟩).map fun filled =>
      .inl
        { session := filled.session
          out := st.out.fwrite (filled.buf.take (recordSize * filled.recordsInBuffer))
          buf := filled.buf }
  else some (.inr { st with session := s })

/-- Merge the runs of the iterators `0 .. numRuns - 1` into `out` from `startPos` on.  With a
negative record size the buffer takes no record, so the size is used only if it is positive.
SRCLINE: library.cc:264-297 -/
def mergeRuns (fuel : ℕ) (s : Session) (numRuns : ℕ) (out : File) (startPos : ℕ)
    (buf : List Byte) (bufSize : ℕ) : Option Merging :=
  let recordSize := (s.iters 0).getRecordSize
  if recordSize = 0 then none
  else
    loop (mergeRound numRuns recordSize.toNat (maxNumberOfRecordsInBuffer bufSize recordSize)) fuel
      ⟨s, out.fseek startPos, buf⟩

end ExternalSort.Model
