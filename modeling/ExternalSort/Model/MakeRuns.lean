import ExternalSort.Lib.ByteFile
import ExternalSort.Lib.Loop
import ExternalSort.Model.Schema

/-!
# Making the initial runs

`mkRuns` reads the input in blocks of `runLength` records, sorts each block in memory
and appends it to the output.  It counts the records of a block by their first byte, so
an incomplete record at the end of the file counts too, filled up with NULs.

The size of a block is a product in `size_t`, so it can wrap around, and so does the request
of `fread`; the count of the records is an `int`.  A result `none` is a block in which the
program looks behind its buffer, counts beyond the largest `int`, or compares records by bytes
outside of them.  `malloc` and the array of pointers on the stack are taken to succeed.

`qsort` is the C library's.  `Qsort` holds what is assumed of it: for a comparison
function that is a total preorder, a sorted permutation.
-/

set_option autoImplicit false

namespace ExternalSort.Model

open ExternalSort.Lib

/-- A comparison function that `qsort` may be called with. -/
structure TotalPreorder {α : Type} (cmp : α → α → ℤ) : Prop where
  total : ∀ a b, cmp a b ≤ 0 ∨ cmp b a ≤ 0
  trans : ∀ a b c, cmp a b ≤ 0 → cmp b c ≤ 0 → cmp a c ≤ 0
  sign : ∀ a b, 0 < cmp a b ↔ cmp b a < 0

/-- The C library's `qsort`. -/
structure Qsort where
  sort : (List Byte → List Byte → ℤ) → List (List Byte) → List (List Byte)
  perm : ∀ cmp, TotalPreorder cmp → ∀ l, (sort cmp l).Perm l
  sorted : ∀ cmp, TotalPreorder cmp → ∀ l, (sort cmp l).Pairwise fun a b => cmp a b ≤ 0

/-- The records of a block, from slot `j` on with `left` slots to go: those up to the first that
begins with a NUL.
SRCLINE: library.cc:110-122 -/
def blockRecords (buffer : List Byte) (recordSize : ℕ) : ℕ → ℕ → Option (List (List Byte))
  | 0, _ => some []
  | left + 1, j =>
      if buffer.length ≤ recordSize * j then none
      else if buffer.getD (recordSize * j) 0 = 0 then some []
      else if buffer.length < recordSize * (j + 1) ∨ j + 1 = 2 ^ 31 then none
      else
        (blockRecords buffer recordSize left (j + 1)).map fun records =>
          slot buffer recordSize 0 j :: records

/-- Sort the records of a block, if any two of them can be compared.
SRCLINE: library.cc:125 -/
def sortBlock (qsort : Qsort) (schema : Schema) (records : List (List Byte)) :
    Option (List (List Byte)) :=
  if records.Pairwise fun r1 r2 => (recordObjectComparator schema r1 r2).isSome then
    some (qsort.sort (recordComparator schema) records)
  else none

/-- One block: read it, sort it, append it.  The loop goes on while blocks are full.
SRCLINE: library.cc:94-95, library.cc:99-134 -/
def mkRun (qsort : Qsort) (schema : Schema) (runLength : ℕ) (st : File × File) :
    Option ((File × File) ⊕ (File × File)) :=
  let bufferSize := toSizeT (schema.recordSize * runLength)
  let (data, items, inFp) := st.1.freadWrapped schema.recordSize runLength
  if items = 0 then some (.inr (inFp, st.2))
  else
    let buffer := overwrite (List.replicate bufferSize 0) 0 data
    (blockRecords buffer schema.recordSize runLength 0).bind fun records =>
      (sortBlock qsort schema records).map fun sorted =>
        let outFp := sorted.foldl File.fwrite st.2
        if records.length = runLength then .inl (inFp, outFp) else .inr (inFp, outFp)

/-- Make sorted runs of `runLength` records from all records of the input.
SRCLINE: library.cc:90-137 -/
def mkRuns (fuel : ℕ) (qsort : Qsort) (inFp outFp : File) (runLength : ℕ) (schema : Schema) :
    Option (File × File) :=
  loop (mkRun qsort schema runLength) fuel (inFp.fseek 0, outFp.fseek 0)

/-- The size of a file, as an `int`.
SRCLINE: library.cc:252-258 -/
def filesize (fp : File) : ℤ := toInt fp.contents.length

/-- The number of complete records in a file.  The quotient is taken in `size_t`.
SRCLINE: library.cc:260-262 -/
def numberOfRecords (fp : File) (recordSize : ℕ) : ℤ :=
  toInt (toSizeT (filesize fp) / recordSize : ℕ)

/-- A call of `filesize`, with the handle as it leaves it.  The position is saved in an `int`,
and the last `fseek` fails if that is negative.
SRCLINE: library.cc:252-258 -/
def filesizeCall (fp : File) : ℤ × File :=
  let prevLocation := toInt fp.ftell
  let fp := fp.fseekEnd
  let fileSize := toInt fp.ftell
  (fileSize, fp.fseek prevLocation)

/-- A call of `number_of_records`, with the handle as it leaves it.
SRCLINE: library.cc:260-262 -/
def numberOfRecordsCall (fp : File) (recordSize : ℕ) : ℤ × File :=
  let (fileSize, fp) := filesizeCall fp
  (toInt (toSizeT fileSize / recordSize : ℕ), fp)

end ExternalSort.Model
