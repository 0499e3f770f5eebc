import ExternalSort.Analysis.BsortChunks
import Mathlib.Order.CompletePartialOrder

/-!
# The fields tile the record

Three loops describe where the fields of a record are: `read_schema` adds up the record size,
`offset_to_attribute` the offset of an attribute, and `bsort` adds the offset up once more.
For lengths that are not negative they describe one layout: every field is followed by one
byte, and by the next field or the end of the record (`fieldStart_succ`).

A record size below `2 ^ 31` leaves nothing to wrap in the `int` variables of the two loops
over offsets, since the offsets grow up to the record size (`Layout.offset_exact`).
-/

set_option autoImplicit false

namespace ExternalSort.Analysis

open ExternalSort.Lib ExternalSort.Model

/-- The bytes of a record that belong to an attribute.
SRCLINE: library.cc:72-74 -/
def fieldRange (schema : Schema) (attr : ℕ) : Set ℤ :=
  Set.Ico (offsetToAttribute schema attr)
    (offsetToAttribute schema attr + attrLength schema attr)

/-- A line of fields: commas between them, and a newline at the end.
SRCLINE: data_generator.py:29 -/
def fieldLine (fields : List (List Byte)) : List Byte := [44].intercalate fields ++ [10]

/-- The attributes of a schema tile its records.
SRCLINE: library.cc:12-33, library.cc:58-65, bsort.cc:76-82 -/
structure TilesRecord (schema : Schema) : Prop where
  offset_exact : ∀ attr, offsetToAttribute schema attr =
    ((schema.attrs.take attr).map fun a => 1 + a.length.toInt).sum
  sort_offset_exact : ∀ attr, sortOffset schema attr =
    ((schema.attrs.take attr).map fun a => a.length.toInt + 1).sum
  sort_offset : ∀ attr, sortOffset schema attr = offsetToAttribute schema attr
  inside : ∀ i < schema.attrs.length, 0 ≤ offsetToAttribute schema i ∧
    offsetToAttribute schema i + attrLength schema i < schema.recordSize
  separated : ∀ i, i + 1 < schema.attrs.length →
    offsetToAttribute schema (i + 1) = offsetToAttribute schema i + attrLength schema i + 1
  disjoint : ∀ i < schema.attrs.length, ∀ j < schema.attrs.length, i ≠ j →
    Disjoint (fieldRange schema i) (fieldRange schema j)
  ends : offsetToAttribute schema schema.attrs.length = schema.recordSize
  reads_back : schema.attrs ≠ [] → ∀ fields : List (List Byte),
    (fields.map fun s => (s.length : ℤ)) = (schema.attrs.map fun a => a.length.toInt) →
    (fieldLine fields).length = schema.recordSize ∧
    ∀ i (hi : i < fields.length),
      ((fieldLine fields).drop (offsetToAttribute schema i).toNat).take
        (attrLength schema i).toNat = fields[i]

namespace Layout

variable {schema : Schema}

/-- INTERNAL: no field begins behind the end of the record. -/
theorem fieldStart_le (h : Layout schema) (i : ℕ) : fieldStart schema i ≤ schema.recordSize := by
  rw [h.size_eq, fieldStart]
  exact ((List.take_sublist i schema.attrs).map span).sum_le_sum fun _ _ => Nat.zero_le _

/-- INTERNAL: **in a record of less than `2 ^ 31` bytes every offset is exact.**
SRCLINE: library.cc:58-65 -/
theorem offset_exact (h : Layout schema) (hsize : schema.recordSize < 2 ^ 31) (i : ℕ) :
    offsetToAttribute schema i = fieldStart schema i :=
  h.offset_of_lt ((h.fieldStart_le i).trans_lt hsize)

/-- INTERNAL: the place of a field, as a sum of declared lengths. -/
theorem natCast_fieldStart (h : Layout schema) (i : ℕ) :
    (fieldStart schema i : ℤ) = ((schema.attrs.take i).map fun a => 1 + a.length.toInt).sum := by
  rw [fieldStart, Nat.cast_list_sum, List.map_map]
  congr 1
  apply List.map_congr_left
  intro a ha
  have hpos := h.nonneg a (List.mem_of_mem_take ha)
  rw [Function.comp_apply, span]
  omega

/-- INTERNAL: the span of an attribute is its declared length and one byte. -/
theorem natCast_span (h : Layout schema) {i : ℕ} (hi : i < schema.attrs.length) :
    (span schema.attrs[i] : ℤ) = attrLength schema i + 1 := by
  have hpos := h.nonneg _ (List.getElem_mem hi)
  rw [attrLength_eq hi, span]
  omega

/-- INTERNAL: a field ends before the next begins. -/
theorem start_add_attrLength_lt (h : Layout schema) {i j : ℕ} (hij : i < j)
    (hj : j ≤ schema.attrs.length) :
    (fieldStart schema i : ℤ) + attrLength schema i < fieldStart schema j := by
  have hle := fieldStart_add_span_le (hij.trans_le hj) hij hj
  have hspan := h.natCast_span (hij.trans_le hj)
  omega

/-- INTERNAL: different fields have no byte in common. -/
theorem disjoint_fieldRange (h : Layout schema) (hsize : schema.recordSize < 2 ^ 31) {i j : ℕ}
    (hi : i < schema.attrs.length) (hj : j < schema.attrs.length) (hne : i ≠ j) :
    Disjoint (fieldRange schema i) (fieldRange schema j) := by
  rw [Set.disjoint_left, fieldRange, fieldRange, h.offset_exact hsize, h.offset_exact hsize]
  rintro x ⟨hi1, hi2⟩ ⟨hj1, hj2⟩
  rcases lt_or_gt_of_ne hne with hlt | hgt
  · have hbefore := h.start_add_attrLength_lt hlt hj.le
    omega
  · have hbefore := h.start_add_attrLength_lt hgt hi.le
    omega

/-- INTERNAL: **a line of fields of the declared lengths is a record**, and the fields are read
back from it. -/
theorem fieldLine_reads_back (h : Layout schema) (hsize : schema.recordSize < 2 ^ 31)
    (hne : schema.attrs ≠ []) {fields : List (List Byte)}
    (hfields : (fields.map fun s => (s.length : ℤ)) = schema.attrs.map fun a => a.length.toInt) :
    (fieldLine fields).length = schema.recordSize ∧
    ∀ i (hi : i < fields.length),
      ((fieldLine fields).drop (offsetToAttribute schema i).toNat).take
        (attrLength schema i).toNat = fields[i] := by
  have hspans : (fields.map fun s => s.length + 1) = schema.attrs.map span := by
    have hmap := congrArg (List.map fun z : ℤ => z.toNat + 1) hfields
    rw [List.map_map, List.map_map] at hmap
    exact hmap
  have hcount : fields.length = schema.attrs.length := by
    simpa using congrArg List.length hfields
  have hfields_ne : fields ≠ [] := by
    rintro rfl
    exact hne (List.length_eq_zero_iff.mp hcount.symm)
  obtain ⟨hlen, hread⟩ := h.joined hfields_ne hspans 44 10
  refine ⟨hlen, fun i hi => ?_⟩
  have hlength : attrLength schema i = fields[i].length := by
    have hget := congrArg (fun l => l[i]?) hfields
    simp only [List.getElem?_map, List.getElem?_eq_getElem hi, Option.map_some] at hget
    rw [attrLength, ← hget, Option.getD_some]
  rw [hlength, Int.toNat_natCast, h.offset_exact hsize, Int.toNat_natCast]
  exact hread i hi

end Layout

/-- SOURCE: library.cc:12-33, library.cc:58-65, bsort.cc:76-82 — **the attributes tile the
record.**  In every schema that is read with lengths that are not negative and with a record
size below `2 ^ 31`, the fields are disjoint, lie inside the record and are separated by one
byte each; both programs look for them in the same places; and if there is an attribute at
all, every line of fields of the declared lengths is a record from which they are read back. -/
theorem attributes_tile_record (json : Option JsonArray) (schema : Schema)
    (hread : readSchema json = some schema) (hlengths : ∀ a ∈ schema.attrs, 0 ≤ a.length.toInt)
    (hsize : schema.recordSize < 2 ^ 31) : TilesRecord schema := by
  have h : Layout schema := layout_of_read hread hlengths
  have hexact := h.offset_exact hsize
  exact
    { offset_exact := fun attr => by rw [hexact, h.natCast_fieldStart]
      sort_offset_exact := fun attr => by
        simp only [sortOffset_eq, hexact, h.natCast_fieldStart, add_comm]
      sort_offset := sortOffset_eq schema
      inside := by
        intro i hi
        have hlt := h.start_add_attrLength_lt hi le_rfl
        rw [h.fieldStart_length] at hlt
        rw [hexact]
        exact ⟨Int.natCast_nonneg _, hlt⟩
      separated := by
        intro i hi
        have hi' : i < schema.attrs.length := (Nat.lt_succ_self i).trans hi
        rw [hexact, hexact, fieldStart_succ hi', Nat.cast_add, h.natCast_span hi', add_assoc]
      disjoint := fun i hi j hj hne => h.disjoint_fieldRange hsize hi hj hne
      ends := by rw [hexact, h.fieldStart_length]
      reads_back := fun hne fields hfields => h.fieldLine_reads_back hsize hne hfields }

/-- A schema file with three attributes, the second of them without a byte. -/
def threeFields : JsonArray :=
  ⟨[⟨some [97], none, some 2, none⟩, ⟨some [98], none, none, none⟩,
    ⟨some [99], none, some 3, none⟩], by decide⟩

/-- The schema of three attributes: a record has eight bytes. -/
def threeFieldsSchema : Schema where
  attrs := threeFields.elems.map readAttribute
  sortAttrs := []
  recordSize := 8

/-- Three fields tile a record of eight bytes. -/
theorem attributes_tile_three_fields : TilesRecord threeFieldsSchema :=
  attributes_tile_record (some threeFields) threeFieldsSchema (by decide +kernel) (by decide)
    (by decide)

/-- Without an attribute a record has no byte, but a line without fields has its newline. -/
theorem empty_line_is_no_record :
    readSchema (some ⟨[], by decide⟩) = some ⟨[], [], 0⟩ ∧
    (([] : List (List Byte)).map fun s => (s.length : ℤ)) =
      ([] : List Attribute).map (fun a => a.length.toInt) ∧
    (fieldLine []).length ≠ 0 := by
  refine ⟨rfl, rfl, ?_⟩
  rw [fieldLine, List.length_append, List.length_singleton]
  exact Nat.succ_ne_zero _

end ExternalSort.Analysis
