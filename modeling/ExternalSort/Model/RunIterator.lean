import ExternalSort.Lib.ByteFile
import ExternalSort.Model.Schema

/-!
# The run iterator

`RunIterator` is the object of the same name: a window of records between the run on
disk and the reader.  Its handle is shared, so every operation takes the handle and
returns it; the object itself only remembers where it will read next (`filePos`).

Memory comes from `malloc`, so its first contents are whatever `heap` says.  The chunk
`malloc` returns holds at least one byte, also for a request of none: that byte is
what `has_next` looks at when the buffer is empty.
-/

set_option autoImplicit false

namespace ExternalSort.Model

open ExternalSort.Lib

/-- The contents of a record, `record_size` bytes. -/
abbrev Record := List Byte

/-- A run iterator.  `fp` names the open file it reads from, `bufferPointer` is an index
into `buffer`, and `currentRecord` is `none` for a NULL pointer.
SRCLINE: library.h:59-104 -/
structure RunIterator where
  fp : ℕ
  schema : Schema
  bufSize : ℕ
  leftInBuf : ℤ
  filePos : ℤ
  runLength : ℕ
  recordsLeft : ℤ
  buffer : List Byte
  bufferPointer : ℕ
  currentRecord : Option Record
  deriving DecidableEq, Repr

/-- Memory as `malloc` returns it.
SRCLINE: library.cc:156, library.cc:159 -/
def malloc (heap : ℕ → Byte) (size : ℕ) : List Byte :=
  (List.range (max size 1)).map heap

/-- The arguments of the constructor: the memory it gets, where the run starts, how many
records it has, the bytes of buffer, and the schema.
SRCLINE: library.h:66-67 -/
structure RunArgs where
  heap : ℕ → Byte
  startPos : ℕ
  runLength : ℕ
  bufSize : ℕ
  schema : Schema

/-- The number of records a refill asks for.  The quotient is compared as an
`unsigned int`.
SRCLINE: library.cc:176-180 -/
def refillCount (bufSize recordSize runLength : ℕ) : ℕ :=
  if toUnsignedInt (bufSize / recordSize) < runLength then bufSize / recordSize else runLength

namespace RunIterator

/-- The record size of the run, as an `int`.
SRCLINE: library.cc:225-227 -/
def getRecordSize (it : RunIterator) : ℤ := toInt it.schema.recordSize

/-- The constructor.  It moves the handle to the start of the run and reads nothing.
SRCLINE: library.cc:141-163 -/
def new (handle : ℕ) (fp : File) (args : RunArgs) : RunIterator × File :=
  ({ fp := handle
     schema := args.schema
     bufSize := args.bufSize
     leftInBuf := 0
     filePos := args.startPos
     runLength := args.runLength
     recordsLeft := args.runLength
     buffer := malloc args.heap args.bufSize
     bufferPointer := 0
     currentRecord := some (malloc args.heap args.schema.recordSize) },
    fp.fseek args.startPos)

/-- The iterator after `fread` stored `data` and returned `recordsRead`, of the records
asked for.  A short read means that the file has ended: what was read is all that is
left.
SRCLINE: library.cc:182-192 -/
def afterRead (it : RunIterator) (asked : ℕ) (recordsRead : ℤ) (data : List Byte) : RunIterator :=
  { it with
    leftInBuf := if recordsRead < asked then recordsRead else asked
    recordsLeft := if recordsRead < asked then recordsRead else it.recordsLeft
    buffer := overwrite (overwrite it.buffer 0 (List.replicate it.bufSize 0)) 0 data
    filePos := it.filePos + it.schema.recordSize * recordsRead
    bufferPointer := 0 }

/-- Refill the buffer from `filePos` on, unless it still holds a record or the run is
used up.
SRCLINE: library.cc:171-193 -/
def readIntoBuffer (it : RunIterator) (fp : File) : RunIterator × File :=
  if 0 < it.leftInBuf ∨ it.recordsLeft = 0 then (it, fp)
  else
    let asked := refillCount it.bufSize it.schema.recordSize it.runLength
    let (data, items, fp) := (fp.fseek it.filePos).fread it.schema.recordSize asked
    (it.afterRead asked (toInt items) data, fp)

/-- Is there another record?  An empty buffer is refilled first.
SRCLINE: library.cc:217-223 -/
def hasNext (it : RunIterator) (fp : File) : Bool × RunIterator × File :=
  let (it, fp) := if it.leftInBuf = 0 then it.readIntoBuffer fp else (it, fp)
  let potentiallyHasNextRecord := decide (0 < it.leftInBuf ∨ it.buffer.headD 0 ≠ 0)
  (decide (0 < it.recordsLeft) && potentiallyHasNextRecord, it, fp)

/-- The next record, or NULL at the end of the run.
SRCLINE: library.cc:202-215 -/
def next (it : RunIterator) (fp : File) : Option Record × RunIterator × File :=
  let (more, it, fp) := it.hasNext fp
  if more then
    let data := strncpy (it.buffer.drop it.bufferPointer) it.schema.recordSize
    (some data,
      { it with
        currentRecord := some data
        bufferPointer := it.bufferPointer + it.schema.recordSize
        leftInBuf := it.leftInBuf - 1
        recordsLeft := it.recordsLeft - 1 }, fp)
  else (none, { it with currentRecord := none }, fp)

/-- The current record.  An iterator that still has its whole run left has not started,
and is started here.
SRCLINE: library.cc:195-200 -/
def getCurrentRecord (it : RunIterator) (fp : File) : Option Record × RunIterator × File :=
  if it.recordsLeft = it.runLength then it.next fp else (it.currentRecord, it, fp)

end RunIterator

/-! ## Sequences of calls -/

/-- The calls a client makes of an iterator.
SRCLINE: library.h:77-86 -/
inductive Call where
  | next
  | hasNext
  | getCurrentRecord
  deriving DecidableEq, Repr

/-- What a call returns. -/
inductive Reply where
  | flag (b : Bool)
  | record (r : Option Record)
  deriving DecidableEq, Repr

/-- One call. -/
def Call.run : Call → RunIterator → File → Reply × RunIterator × File
  | .next, it, fp => let (r, st) := it.next fp; (.record r, st)
  | .hasNext, it, fp => let (b, st) := it.hasNext fp; (.flag b, st)
  | .getCurrentRecord, it, fp => let (r, st) := it.getCurrentRecord fp; (.record r, st)

/-- The replies to a sequence of calls of one iterator on its own handle. -/
def runCalls : List Call → RunIterator → File → List Reply
  | [], _, _ => []
  | c :: cs, it, fp =>
      let (r, it, fp) := c.run it fp
      r :: runCalls cs it fp

end ExternalSort.Model
