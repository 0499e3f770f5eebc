import ExternalSort.Model.MakeRuns
import ExternalSort.Model.MergeRuns

/-!
# The main program of the merge sort

`msort` is `main`: it reads the schema, resolves the sort attributes, makes the initial
runs in `tmp_file` and merges them in passes.  A result `some (code, fs)` is a run that
returns `code` and leaves the files `fs`; `none` is a run that does not return: it
crashes (a NULL handle, a division by zero, a buffer the stack cannot hold, no
iterator to ask for the record size, a name that does not end in its buffer) or is out of
fuel.

Which files a pass reads and writes is decided by `Control` alone: the run length and
the `flip` bit.  Names that differ are taken to be different files.
-/

set_option autoImplicit false

namespace ExternalSort.Model

open ExternalSort.Lib

/-- What the program cannot know: the library's `qsort`, what is in the memory `malloc`
returns to iterator `i` of pass `j`, and what is on the stack. -/
structure Env where
  qsort : Qsort
  heap : ℕ → ℕ → ℕ → Byte
  stack : ℕ → Byte

/-- The command line, numbers already converted by `atoi`, and the parsed schema file.
SRCLINE: msort.cc:13-17, msort.cc:37, msort.cc:42, msort.cc:54-55, msort.cc:66 -/
structure MsortArgs where
  schema : Option JsonArray
  inputFile : String
  outputFile : String
  memCapacity : Int32
  k : Int32
  sortAttrs : List (List Byte)

/-! ## The control of the passes -/

/-- The number of runs of a pass, computed in single precision.
SRCLINE: msort.cc:74 -/
def numRuns (numRecords runLength : ℤ) : ℤ :=
  doubleToInt ⌈float32 (float32 numRecords / float32 runLength)⌉

/-- What a pass does: the runs it reads, from where, and where it writes.
SRCLINE: msort.cc:74-83 -/
structure Pass where
  runLength : ℤ
  numRuns : ℤ
  readFilename : String
  writeFilename : String
  deriving DecidableEq, Repr

/-- What the loop keeps from pass to pass.
SRCLINE: msort.cc:57, msort.cc:71 -/
structure Control where
  runLength : ℤ
  flip : Bool
  deriving DecidableEq, Repr

namespace Control

/-- The pass made next.
SRCLINE: msort.cc:74-83 -/
def pass (c : Control) (outputFile : String) (k numRecords : ℤ) : Pass :=
  let numRuns := numRuns numRecords c.runLength
  { runLength := c.runLength
    numRuns := numRuns
    readFilename := if c.flip then "tmp_file2" else "tmp_file"
    writeFilename :=
      if numRuns < k ∨ numRuns * c.runLength = numRecords then outputFile
      else if c.flip then "tmp_file" else "tmp_file2" }

/-- The control after a pass.
SRCLINE: msort.cc:97-98 -/
def next (c : Control) (k : ℤ) : Control := ⟨c.runLength * k, !c.flip⟩

end Control

/-- The passes the loop makes, in order.
SRCLINE: msort.cc:71-99 -/
def passes (outputFile : String) (k numRecords : ℤ) : ℕ → Control → List Pass
  | 0, _ => []
  | fuel + 1, c =>
      if c.runLength < numRecords then
        c.pass outputFile k numRecords :: passes outputFile k numRecords fuel (c.next k)
      else []

/-! ## The passes -/

/-- What is fixed during the passes.
SRCLINE: msort.cc:42-71 -/
structure Job where
  env : Env
  schema : Schema
  outputFile : String
  k : ℤ
  numRecords : ℤ
  bufSize : ℕ

/-- The arguments of iterator `i` of pass `j`.
SRCLINE: msort.cc:88 -/
def Job.runArgs (job : Job) (j : ℕ) (runLength : ℕ) (i : ℕ) : RunArgs where
  heap := job.env.heap j i
  startPos := runLength * job.schema.recordSize * i
  runLength := runLength
  bufSize := job.bufSize
  schema := job.schema

/-- The iterators of pass `j`, all on one handle to a file with the given contents.
SRCLINE: msort.cc:85-89 -/
def Job.session (job : Job) (j : ℕ) (runLength numRuns : ℕ) (contents : List Byte) : Session :=
  let fp := File.open_ contents
  let slots : Session :=
    { files := fun _ => fp, iters := fun i => (RunIterator.new 0 fp (job.runArgs j runLength i)).1 }
  slots.constructRuns 0 (job.runArgs j runLength) numRuns

/-- What the iterators of a pass will see.  Their constructors read nothing, so it is what
the file they stand on holds after the file to write was emptied.
SRCLINE: msort.cc:86, msort.cc:92 -/
def Job.runsFile (job : Job) (c : Control) (fs : FileSystem) : List Byte :=
  let p := c.pass job.outputFile job.k job.numRecords
  (Function.update fs p.writeFilename (some []) p.readFilename).getD []

/-- Pass `j`.
SRCLINE: msort.cc:72-95 -/
def Job.runPass (job : Job) (fuel j : ℕ) (c : Control) (fs : FileSystem) (buf : List Byte) :
    Option (FileSystem × List Byte) :=
  let p := c.pass job.outputFile job.k job.numRecords
  if p.numRuns ≤ 0 then none
  else
    match fs p.readFilename with
    | none => none
    | some _ =>
        let s := job.session j c.runLength.toNat p.numRuns.toNat (job.runsFile c fs)
        (mergeRuns fuel s p.numRuns.toNat (File.open_ []) 0 buf job.bufSize).map fun m =>
          (Function.update fs p.writeFilename (some m.out.contents), m.buf)

/-- The loop of passes, from pass `j` on.
SRCLINE: msort.cc:71-99 -/
def Job.mergePasses (job : Job) (fuel : ℕ) :
    ℕ → ℕ → Control → FileSystem → List Byte → Option FileSystem
  | 0, _, _, _, _ => none
  | rounds + 1, j, c, fs, buf =>
      if c.runLength < job.numRecords then
        match job.runPass fuel j c fs buf with
        | none => none
        | some (fs, buf) => job.mergePasses fuel rounds (j + 1) (c.next job.k) fs buf
      else some fs

/-- The stack array of `main`.
SRCLINE: msort.cc:68 -/
def stackBuffer (env : Env) (capacity : ℕ) : List Byte := (List.range capacity).map env.stack

/-- Make the runs: `main` from the first `fopen` to the loop of passes.  It gives what is
fixed during the passes, and the files with the runs in `tmp_file`.
SRCLINE: msort.cc:57-69 -/
def prepare (fuel : ℕ) (env : Env) (args : MsortArgs) (schema : Schema) (capacity : ℕ)
    (fs : FileSystem) : Option (Job × FileSystem) :=
  match fs args.inputFile with
  | none => none
  | some _ =>
      let fs := Function.update fs "tmp_file" (some [])
      let inFp := File.open_ ((fs args.inputFile).getD [])
      match mkRuns fuel env.qsort inFp (File.open_ []) (capacity / schema.recordSize) schema with
      | none => none
      | some (inFp, tmpOut) =>
          let divisor := toSizeT (toInt (args.k.toInt + 1))
          if divisor = 0 then none
          else some
            ({ env := env
               schema := schema
               outputFile := args.outputFile
               k := args.k.toInt
               numRecords := numberOfRecords inFp schema.recordSize
               bufSize := capacity / divisor },
              Function.update fs "tmp_file" (some tmpOut.contents))

/-- Make the runs and merge them: `main` from the first `fopen` on.
SRCLINE: msort.cc:57-114 -/
def sortFile (fuel : ℕ) (env : Env) (args : MsortArgs) (schema : Schema) (capacity : ℕ)
    (fs : FileSystem) : Option (ℕ × FileSystem) :=
  match prepare fuel env args schema capacity fs with
  | none => none
  | some (job, fs) =>
      (job.mergePasses fuel fuel 0 ⟨(capacity / schema.recordSize : ℕ), false⟩ fs
        (stackBuffer env capacity)).map fun fs =>
          (0, Function.update (Function.update fs "tmp_file" none) "tmp_file2" none)

/-- The schema can be printed: every name ends inside its buffer.
SRCLINE: msort.cc:28-35 -/
def namesEnd (schema : Schema) : Bool := schema.attrs.all fun a => a.name.contains 0

/-- The main program.
SRCLINE: msort.cc:12-115 -/
def msort (fuel : ℕ) (env : Env) (args : MsortArgs) (fs : FileSystem) :
    Option (ℕ × FileSystem) :=
  if args.sortAttrs = [] then some (1, fs)
  else
    match readSchema args.schema with
    | none => some (1, fs)
    | some schema =>
        if namesEnd schema then
          match initSortAttrs schema args.sortAttrs with
          | none => none
          | some (code, schema) =>
              let capacity := toSizeT args.memCapacity.toInt
              if code ≠ 0 then some (2, fs)
              else if capacity < schema.recordSize then some (3, fs)
              else if schema.recordSize = 0 ∨ args.memCapacity.toInt < 0 then none
              else sortFile fuel env args schema capacity fs
        else none

end ExternalSort.Model
