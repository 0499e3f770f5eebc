import ExternalSort.Lib.ByteFile
import ExternalSort.Lib.Decimal
import ExternalSort.Lib.Loop
import ExternalSort.Lib.OrderedStore
import ExternalSort.Model.Schema

/-!
# The main program of the tree sort

`bsort` puts every record into a database under its sort fields followed by the record's
number, and writes the values out in the order of the keys.  The database is kept in
`./leveldb_dir` from one run to the next; it is a map in which the last write wins,
listed in ascending order of the keys' bytes.

A result `some (code, world)` is a run that returns `code`; `none` is a run that reads an
unassigned sort attribute, reads or writes outside of a buffer, or is out of fuel.  `fopen`
for writing and opening the database are taken to succeed, and so are the arrays on the stack.
-/

set_option autoImplicit false

namespace ExternalSort.Model

open ExternalSort.Lib

/-- The database.
SRCLINE: bsort.cc:46-50 -/
abbrev Database := Std.TreeMap (List Byte) (List Byte) compare

/-- What is in the working directory.
SRCLINE: bsort.cc:31-50 -/
structure World where
  files : FileSystem
  db : Database

/-- The command line, with the parsed schema file.
SRCLINE: bsort.cc:11-27 -/
structure BsortArgs where
  schema : Option JsonArray
  inputFile : String
  outIndex : String
  sortAttrs : List (List Byte)

/-- The offset of a sort attribute, which the program adds up itself, in an `int`.
SRCLINE: bsort.cc:76-80 -/
def sortOffset (schema : Schema) (attr : ℕ) : ℤ :=
  (schema.attrs.take attr).foldl (fun offset a => toInt (offset + toInt (a.length.toInt + 1))) 0

/-- `strncat` finds the bytes of a field, or the NUL that ends them, in the buffer.
SRCLINE: bsort.cc:82 -/
def readsBuffer (schema : Schema) (buffer : List Byte) (attr : ℕ) : Bool :=
  decide (attrLength schema attr = 0 ∨ 0 ≤ sortOffset schema attr ∧
    ((sortOffset schema attr).toNat + toSizeT (attrLength schema attr) ≤ buffer.length ∨
      (buffer.drop (sortOffset schema attr).toNat).contains 0))

/-- The sort fields of the record in the buffer, one behind the other.  There is no result
when a slot was never assigned, or when bytes outside of the buffer are read.
SRCLINE: bsort.cc:73-83 -/
def sortBuffer (schema : Schema) (buffer : List Byte) : List (Option ℕ) → Option (List Byte)
  | [] => some []
  | none :: _ => none
  | some attr :: attrs =>
      if readsBuffer schema buffer attr then
        (sortBuffer schema buffer attrs).map fun rest =>
          cstr (buffer.drop (sortOffset schema attr).toNat) (toSizeT (attrLength schema attr))
            ++ rest
      else none

/-- The key of the record in the buffer: its sort fields and its number, if they have room in
the buffer for the key.
SRCLINE: bsort.cc:65, bsort.cc:85-90 -/
def sortKey (schema : Schema) (buffer : List Byte) (counter : ℤ) : Option (List Byte) :=
  (sortBuffer schema buffer schema.sortAttrs).bind fun fields =>
    let key := fields ++ decimalInt counter
    if key.length < schema.recordSize + 51 then some key else none

/-- The state of the loop over the records.
SRCLINE: bsort.cc:64-70 -/
structure Loading where
  buffer : List Byte
  input : File
  counter : ℤ
  db : Database

/-- `fgets` into the buffer.  It stores a NUL behind what it reads.
SRCLINE: bsort.cc:67, bsort.cc:96 -/
def Loading.fgets (st : Loading) (size : ℤ) : Loading :=
  match st.input.fgets size with
  | (none, input) => { st with input := input }
  | (some line, input) => { st with buffer := overwrite st.buffer 0 (line ++ [0]), input := input }

/-- Read the next line into the buffer.  The bound is an `int`.
SRCLINE: bsort.cc:67, bsort.cc:96 -/
def readLine (schema : Schema) (st : Loading) : Loading := st.fgets (toInt (schema.recordSize + 2))

/-- One round of the loop over the records.  Without a byte in a record, the NUL behind it is
written in front of the buffer.
SRCLINE: bsort.cc:71-98 -/
def loadRecord (schema : Schema) (st : Loading) : Option (Loading ⊕ Loading) :=
  if st.input.feof then some (.inr st)
  else if schema.recordSize = 0 then none
  else
    (sortKey schema st.buffer st.counter).map fun key =>
      let buffer := overwrite st.buffer (schema.recordSize - 1) [0]
      let value := cstr buffer buffer.length
      .inl (readLine schema
        { buffer := buffer
          input := st.input
          counter := toInt (st.counter + 1)
          db := st.db.insert key value })

/-- What is written to the index file: the values in the order of their keys, one a line.
SRCLINE: bsort.cc:101-111 -/
def indexLines (db : Database) : List Byte := db.toList.flatMap fun p => p.2 ++ [10]

/-- The state in which the loop over the records begins: what is on the stack is in the buffer,
and the first line in front of it.
SRCLINE: bsort.cc:64-69 -/
def loadStart (schema : Schema) (stack : ℕ → Byte) (contents : List Byte) (db : Database) :
    Loading :=
  readLine schema
    { buffer := (List.range (schema.recordSize + 3)).map stack
      input := File.open_ contents
      counter := 0
      db := db }

/-- Load the records of a file and write the index: `main` from the first `fgets` on.
SRCLINE: bsort.cc:63-125 -/
def loadFile (fuel : ℕ) (stack : ℕ → Byte) (args : BsortArgs) (schema : Schema) (w : World) :
    Option (ℕ × World) :=
  let start := loadStart schema stack ((w.files args.inputFile).getD []) w.db
  (loop (loadRecord schema) fuel start).map fun st =>
    (0, { files := Function.update w.files args.outIndex (some (indexLines st.db)), db := st.db })

/-- The main program.  A sort attribute that is not found is reported, and the run goes
on.
SRCLINE: bsort.cc:11-126 -/
def bsort (fuel : ℕ) (stack : ℕ → Byte) (args : BsortArgs) (w : World) : Option (ℕ × World) :=
  if args.sortAttrs = [] then some (1, w)
  else
    match readSchema args.schema with
    | none => some (2, w)
    | some schema =>
        match initSortAttrs schema args.sortAttrs with
        | none => none
        | some (_, schema) =>
            match w.files args.inputFile with
            | none => some (3, w)
            | some _ =>
                loadFile fuel stack args schema
                  { w with files := Function.update w.files args.outIndex (some []) }

end ExternalSort.Model
