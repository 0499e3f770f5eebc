import ExternalSort.Model.Schema

/-!
# The record comparator is a total preorder

`sortFields` is the tuple of sort fields of a record, each taken as the C string the
comparator sees.  `recordObjectComparator` compares these tuples from the front on; it has
no result if it comes to an attribute outside of the records (`compareAttrs_spec`).  On a
schema without such an attribute (`Inside`) it has the sign of the lexicographic comparison,
so the order it gives is the one Mathlib puts on lists, pulled back along `sortFields`: total
and transitive, with ties exactly between records that agree on every sort field.

`qsort` gets a total preorder on every schema: that of the fields before the first such
attribute.
-/

set_option autoImplicit false

namespace ExternalSort.Analysis

open ExternalSort.Lib ExternalSort.Model

/-- INTERNAL: one field of a record, as the comparator reads it.
SRCLINE: library.cc:71-74 -/
def field (schema : Schema) (r : List Byte) (attr : ℕ) : List Byte :=
  cstr (r.drop (offsetToAttribute schema attr).toNat) (toSizeT (attrLength schema attr))

/-- INTERNAL: the sort fields of a record, in the order of the sort attributes. -/
def sortFields (schema : Schema) (r : List Byte) : List (List Byte) :=
  schema.sortAttrs.reduceOption.map (field schema r)

/-- The comparator reads no byte outside of a record.
SRCLINE: library.cc:71-74 -/
def Inside (schema : Schema) : Prop :=
  ∀ attr ∈ schema.sortAttrs.reduceOption, readsRecord schema attr

/-- INTERNAL: it can be decided whether the fields lie inside of the record. -/
instance (schema : Schema) : Decidable (Inside schema) :=
  inferInstanceAs (Decidable (∀ attr ∈ schema.sortAttrs.reduceOption, _))

/-- INTERNAL: the sort attributes up to the first one that lies outside of the record. -/
def comparedAttrs (schema : Schema) : List ℕ :=
  schema.sortAttrs.reduceOption.takeWhile (readsRecord schema)

/-- INTERNAL: the fields of a record that can be compared. -/
def comparedFields (schema : Schema) (r : List Byte) : List (List Byte) :=
  (comparedAttrs schema).map (field schema r)

/-- INTERNAL: the comparator's loop compares the tuples of fields; the first difference
decides, and without one it comes to the first attribute outside of the records.
SRCLINE: library.cc:70-78 -/
theorem compareAttrs_spec (schema : Schema) (r1 r2 : List Byte) (attrs : List ℕ) :
    let read := attrs.takeWhile (readsRecord schema)
    ((compareAttrs schema r1 r2 attrs).getD 0 < 0 ↔
      read.map (field schema r1) < read.map (field schema r2)) ∧
    ((compareAttrs schema r1 r2 attrs).getD 0 = 0 ↔
      read.map (field schema r1) = read.map (field schema r2)) ∧
    (compareAttrs schema r1 r2 attrs = none ↔
      read ≠ attrs ∧ read.map (field schema r1) = read.map (field schema r2)) := by
  induction attrs with
  | nil => simp [compareAttrs]
  | cons attr attrs ih =>
    rw [compareAttrs, List.takeWhile_cons]
    by_cases hinside : readsRecord schema attr
    · obtain ⟨hlt, heq⟩ := strncmp_spec (r1.drop (offsetToAttribute schema attr).toNat)
        (r2.drop (offsetToAttribute schema attr).toNat) (toSizeT (attrLength schema attr))
      change _ ↔ field schema r1 attr < field schema r2 attr at hlt
      change _ ↔ field schema r1 attr = field schema r2 attr at heq
      simp only [hinside, if_true, List.map_cons, List.cons_lt_cons_iff, List.cons.injEq,
        ne_eq, true_and]
      split_ifs with hv
      · have he : field schema r1 attr = field schema r2 attr := heq.mp hv
        simpa [he] using ih
      · have hne : field schema r1 attr ≠ field schema r2 attr := fun h => hv (heq.mpr h)
        simp [hlt, heq, hne]
    · simp [hinside]

section Order

variable (schema : Schema)

/-- INTERNAL: the function `qsort` is given is negative exactly when the first record's compared
fields come first. -/
theorem recordComparator_neg_iff (r1 r2 : List Byte) :
    recordComparator schema r1 r2 < 0 ↔ comparedFields schema r1 < comparedFields schema r2 :=
  (compareAttrs_spec schema r1 r2 _).1

/-- INTERNAL: the function `qsort` is given is not positive exactly when the compared fields are
in order. -/
theorem recordComparator_le_zero_iff (r1 r2 : List Byte) :
    recordComparator schema r1 r2 ≤ 0 ↔ comparedFields schema r1 ≤ comparedFields schema r2 := by
  rw [le_iff_lt_or_eq, le_iff_lt_or_eq, recordComparator_neg_iff]
  exact or_congr Iff.rfl (compareAttrs_spec schema r1 r2 _).2.1

/-- INTERNAL: the comparator has no result exactly when all that can be compared is equal and
there is more. -/
theorem recordObjectComparator_eq_none_iff (r1 r2 : List Byte) :
    recordObjectComparator schema r1 r2 = none ↔
      ¬ Inside schema ∧ comparedFields schema r1 = comparedFields schema r2 := by
  refine (compareAttrs_spec schema r1 r2 _).2.2.trans (and_congr ?_ Iff.rfl)
  rw [ne_eq, List.takeWhile_eq_self_iff]
  rfl

end Order

section Inside

variable {schema : Schema}

/-- INTERNAL: on a schema without attributes outside of the record all sort fields are
compared. -/
theorem Inside.comparedFields_eq (h : Inside schema) (r : List Byte) :
    comparedFields schema r = sortFields schema r := by
  rw [comparedFields, comparedAttrs, List.takeWhile_eq_self_iff.mpr h, sortFields]

/-- INTERNAL: **the comparator has the sign of the comparison of the sort fields.**
SRCLINE: library.cc:67-81 -/
theorem Inside.comparator_spec (h : Inside schema) (r1 r2 : List Byte) :
    ∃ v, recordObjectComparator schema r1 r2 = some v ∧
      (v < 0 ↔ sortFields schema r1 < sortFields schema r2) ∧
      (v = 0 ↔ sortFields schema r1 = sortFields schema r2) ∧
      (0 < v ↔ sortFields schema r2 < sortFields schema r1) := by
  have hsome : recordObjectComparator schema r1 r2 ≠ none := fun hnone =>
    ((recordObjectComparator_eq_none_iff schema r1 r2).mp hnone).1 h
  obtain ⟨v, hv⟩ := Option.ne_none_iff_exists'.mp hsome
  have hvalue : recordComparator schema r1 r2 = v := by rw [recordComparator, hv, Option.getD_some]
  have hneg := recordComparator_neg_iff schema r1 r2
  have hle := recordComparator_le_zero_iff schema r1 r2
  rw [hvalue, h.comparedFields_eq, h.comparedFields_eq] at hneg hle
  have hge : 0 ≤ v ↔ sortFields schema r2 ≤ sortFields schema r1 := by rw [← not_lt, hneg, not_lt]
  refine ⟨v, hv, hneg, ?_, by rw [← not_le, hle, not_le]⟩
  rw [le_antisymm_iff, le_antisymm_iff, hle, hge]

end Inside

/-- The comparator puts a record before another, or takes them for equal.
SRCLINE: library.cc:67-81 -/
def InOrder (schema : Schema) (r1 r2 : List Byte) : Prop :=
  ∃ v ∈ recordObjectComparator schema r1 r2, v ≤ 0

/-- INTERNAL: it can be decided whether two records are in order. -/
instance (schema : Schema) (r1 r2 : List Byte) : Decidable (InOrder schema r1 r2) :=
  decidable_of_iff ((recordObjectComparator schema r1 r2).any (decide <| · ≤ 0) = true) (by
    simp [InOrder, Option.any_eq_true])

/-- The order of the sort fields, as a test.
SRCLINE: library.cc:67-88 -/
def recordLe (schema : Schema) (r1 r2 : List Byte) : Bool :=
  decide (sortFields schema r1 ≤ sortFields schema r2)

/-- INTERNAL: the test is the order of the sort fields. -/
theorem recordLe_iff (schema : Schema) (r1 r2 : List Byte) :
    recordLe schema r1 r2 ↔ sortFields schema r1 ≤ sortFields schema r2 := by
  rw [recordLe, decide_eq_true_iff]

/-- INTERNAL: the order of the sort fields is transitive. -/
theorem recordLe_trans (schema : Schema) (a b c : List Byte) (hab : recordLe schema a b)
    (hbc : recordLe schema b c) : recordLe schema a c := by
  rw [recordLe_iff] at *
  exact hab.trans hbc

/-- INTERNAL: the order of the sort fields is total. -/
theorem recordLe_total (schema : Schema) (a b : List Byte) :
    recordLe schema a b || recordLe schema b a := by
  rw [Bool.or_eq_true, recordLe_iff, recordLe_iff]
  exact le_total _ _

/-- INTERNAL: the comparator's order is that of the sort fields. -/
theorem Inside.inOrder_iff {schema : Schema} (h : Inside schema) (r1 r2 : List Byte) :
    InOrder schema r1 r2 ↔ sortFields schema r1 ≤ sortFields schema r2 := by
  obtain ⟨v, hv, -, -, hpos⟩ := h.comparator_spec r1 r2
  simp only [InOrder, hv, Option.mem_some_iff, exists_eq_left']
  rw [← not_lt, hpos, not_lt]

/-- Sorted by the comparator: every record comes before those behind it. -/
def RecordSorted (schema : Schema) (records : List (List Byte)) : Prop :=
  records.Pairwise (InOrder schema)

/-- INTERNAL: it can be decided whether records are sorted. -/
instance (schema : Schema) (records : List (List Byte)) :
    Decidable (RecordSorted schema records) :=
  inferInstanceAs (Decidable (records.Pairwise _))

/-- INTERNAL: sortedness, in terms of the test. -/
theorem Inside.recordSorted_iff {schema : Schema} (h : Inside schema)
    (records : List (List Byte)) :
    RecordSorted schema records ↔ records.Pairwise fun a b => recordLe schema a b := by
  rw [RecordSorted]
  exact List.Pairwise.iff fun a b => (h.inOrder_iff a b).trans (recordLe_iff schema a b).symm

/-- The file holds the records, sorted. -/
def SortedFile (schema : Schema) (records : List (List Byte)) (file : Option (List Byte)) : Prop :=
  ∃ sorted : List (List Byte), file = some sorted.flatten ∧ sorted.Perm records ∧
    RecordSorted schema sorted

end ExternalSort.Analysis
