import ExternalSort.Lib.Bytes
import ExternalSort.Lib.MachineArith
import Mathlib.Data.List.ReduceOption

/-!
# Schemas, sort attributes and the record comparator

The schema file is a JSON array of attribute objects; `JsonArray` is what the parser
returns for it.  `readSchema` keeps of every object its name, copied into a buffer of
255 bytes, and its length.  `initSortAttrs` resolves the requested names to attribute
indices by comparing them with these buffers; the slots it did not get to stay
unassigned (`none`).  `recordObjectComparator` compares two records field by field in
the order of the sort attributes.

The record size is added up in `size_t`, the offset of an attribute in `int`.  So an offset
can wrap around to a negative number, and the comparator then reads outside of the record.
-/

set_option autoImplicit false

namespace ExternalSort.Model

open ExternalSort.Lib

/-- The `distribution` object of a column; only the data generator looks at it.
SRCLINE: data_generator.py:35-45 -/
inductive Distribution where
  | uniform (min max : ℚ)
  | normal (mu sigma : ℚ)
  | other
  deriving DecidableEq, Repr

/-- One attribute object of the schema file, with the members the programs read.
SRCLINE: library.cc:17-29, data_generator.py:35-36 -/
structure JsonAttribute where
  name : Option (List Byte)
  type : Option (List Byte)
  length : Option Int32
  distribution : Option Distribution

/-- The parsed schema file.  Its size is kept in an `int`.
SRCLINE: library.cc:12 -/
structure JsonArray where
  elems : List JsonAttribute
  size_lt : elems.length < 2 ^ 31

/-- What the programs keep of an attribute: the buffer with its name, and its length.
SRCLINE: library.h:11-18 -/
structure Attribute where
  name : List Byte
  length : Int32
  deriving DecidableEq, Repr

/-- A record schema.  A slot of `sortAttrs` is `none` while it is allocated and not yet
assigned.
SRCLINE: library.h:26-33 -/
structure Schema where
  attrs : List Attribute
  sortAttrs : List (Option ℕ)
  recordSize : ℕ
  deriving DecidableEq, Repr

/-- The attribute made of one object of the array: `name` defaults to the empty string
and `length` to `0`.
SRCLINE: library.cc:16-31 -/
def readAttribute (json : JsonAttribute) : Attribute where
  name := strncpy (json.name.getD []) 255
  length := json.length.getD 0

/-- The schema of a parsed file; `none` when the file could not be parsed.  The record
size counts one separator for every attribute.
SRCLINE: library.cc:3-36 -/
def readSchema : Option JsonArray → Option Schema
  | none => none
  | some root =>
      let attrs := root.elems.map readAttribute
      some
        { attrs := attrs
          sortAttrs := []
          recordSize := attrs.foldl (fun size a => toSizeT (size + a.length.toInt)) attrs.length }

/-- `strcmp` of a C string with a buffer: `none` when it reads behind the buffer.
SRCLINE: library.cc:45 -/
def strcmp : List Byte → List Byte → Option ℤ
  | _, [] => none
  | [], y :: _ => some (0 - ((y : ℕ) : ℤ))
  | x :: a, y :: b =>
      if x ≠ y then some (((x : ℕ) : ℤ) - ((y : ℕ) : ℤ)) else if x = 0 then some 0 else strcmp a b

/-- The search for one name: the first attribute whose name equals it, from index `j`
on; `some none` when there is none.
SRCLINE: library.cc:43-49 -/
def findAttr (name : List Byte) : List Attribute → ℕ → Option (Option ℕ)
  | [], _ => some none
  | a :: attrs, j =>
      match strcmp name a.name with
      | none => none
      | some v => if v = 0 then some (some j) else findAttr name attrs (j + 1)

/-- The loop over the requested names: the return code and the slots.  At the first name
that is not found it returns, so this slot and all later ones stay unassigned.
SRCLINE: library.cc:41-55 -/
def resolveAttrs (attrs : List Attribute) : List (List Byte) → Option (ℤ × List (Option ℕ))
  | [] => some (0, [])
  | name :: names =>
      match findAttr name attrs 0 with
      | none => none
      | some none => some (1, List.replicate (names.length + 1) none)
      | some (some j) => (resolveAttrs attrs names).map fun r => (r.1, some j :: r.2)

/-- Resolve the sort attributes of a schema.
SRCLINE: library.cc:38-56 -/
def initSortAttrs (schema : Schema) (names : List (List Byte)) : Option (ℤ × Schema) :=
  (resolveAttrs schema.attrs names).map fun r => (r.1, { schema with sortAttrs := r.2 })

/-- The offset of an attribute in a record: one separator behind every earlier one.  The sum
is an `int`.
SRCLINE: library.cc:58-65 -/
def offsetToAttribute (schema : Schema) (attr : ℕ) : ℤ :=
  (schema.attrs.take attr).foldl (fun offset a => toInt (offset + toInt (1 + a.length.toInt))) 0

/-- The declared length of an attribute.
SRCLINE: library.cc:73 -/
def attrLength (schema : Schema) (attr : ℕ) : ℤ :=
  ((schema.attrs[attr]?).map fun a => a.length.toInt).getD 0

/-- The field of an attribute is read from the record, or no byte is read.
SRCLINE: library.cc:72-74 -/
def readsRecord (schema : Schema) (attr : ℕ) : Bool :=
  decide (attrLength schema attr = 0 ∨ 0 ≤ offsetToAttribute schema attr ∧
    offsetToAttribute schema attr + toSizeT (attrLength schema attr) ≤ schema.recordSize)

/-- The comparator's loop over the sort attributes; the first difference decides.  There is no
result when it reads outside of the records.
SRCLINE: library.cc:70-78 -/
def compareAttrs (schema : Schema) (r1 r2 : List Byte) : List ℕ → Option ℤ
  | [] => some 0
  | attr :: attrs =>
      if readsRecord schema attr then
        let offset := (offsetToAttribute schema attr).toNat
        let v := strncmp (r1.drop offset) (r2.drop offset) (toSizeT (attrLength schema attr))
        if v ≠ 0 then some v else compareAttrs schema r1 r2 attrs
      else none

/-- Compare two records.  It is reached only after `initSortAttrs` returned `0`, when
every slot is assigned.
SRCLINE: library.cc:67-81 -/
def recordObjectComparator (schema : Schema) (r1 r2 : List Byte) : Option ℤ :=
  compareAttrs schema r1 r2 schema.sortAttrs.reduceOption

/-- The function `qsort` is given.  Where the comparator has no result, its value does not
matter: `mkRun` has none either.
SRCLINE: library.cc:83-88 -/
def recordComparator (schema : Schema) (r1 r2 : List Byte) : ℤ :=
  (recordObjectComparator schema r1 r2).getD 0

end ExternalSort.Model
