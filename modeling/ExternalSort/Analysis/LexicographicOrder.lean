import ExternalSort.Analysis.SchemaLayout
import Mathlib.Data.Sign.Basic

/-!
# The comparator and the order of the declared fields

`declaredField` is the field of an attribute as the schema declares it: the bytes from its
place in the record up to its length or the first NUL.  The comparator looks for it at an
offset it adds up in an `int`.  As long as no sort field begins at `2 ^ 31` or behind, the two
are the same (`field_eq_declaredField`), and the comparator is the lexicographic order on the
declared fields.

Of the sort fields that begin behind, the last is read by no comparison: its own offset wraps
to a place in front of it, and so do those of the others.  Two records that differ in its
first byte alone are taken for equal (`comparator_blind`).
-/

set_option autoImplicit false

namespace ExternalSort.Analysis

open ExternalSort.Lib ExternalSort.Model

/-- The declared length of an attribute, in bytes. -/
def declaredBytes (schema : Schema) (attr : ℕ) : ℕ :=
  ((schema.attrs[attr]?).map fun a => a.length.toInt.toNat).getD 0

/-- The field of an attribute as the schema declares it: from its place on, up to its length or
its first NUL. -/
def declaredField (schema : Schema) (r : List Byte) (attr : ℕ) : List Byte :=
  ((r.drop (fieldStart schema attr)).take (declaredBytes schema attr)).takeWhile (· ≠ 0)

/-- The declared sort fields of a record, in the order of the sort attributes. -/
def declaredFields (schema : Schema) (r : List Byte) : List (List Byte) :=
  schema.sortAttrs.reduceOption.map (declaredField schema r)

/-- The comparator is the lexicographic order on the declared sort fields of records.
SRCLINE: library.cc:58-81 -/
structure Lexicographic (schema : Schema) : Prop where
  sign : ∀ r1 r2 : List Byte, r1.length = schema.recordSize → r2.length = schema.recordSize →
    ∃ v, recordObjectComparator schema r1 r2 = some v ∧
      (v < 0 ↔ declaredFields schema r1 < declaredFields schema r2) ∧
      (v = 0 ↔ declaredFields schema r1 = declaredFields schema r2) ∧
      (0 < v ↔ declaredFields schema r2 < declaredFields schema r1)
  refl : ∀ r : List Byte, r.length = schema.recordSize → InOrder schema r r
  trans : ∀ r1 r2 r3 : List Byte, r1.length = schema.recordSize →
    r2.length = schema.recordSize → r3.length = schema.recordSize →
    InOrder schema r1 r2 → InOrder schema r2 r3 → InOrder schema r1 r3
  total : ∀ r1 r2 : List Byte, r1.length = schema.recordSize → r2.length = schema.recordSize →
    InOrder schema r1 r2 ∨ InOrder schema r2 r1
  swap : ∀ r1 r2 : List Byte, r1.length = schema.recordSize → r2.length = schema.recordSize →
    ∃ v w, recordObjectComparator schema r1 r2 = some v ∧
      recordObjectComparator schema r2 r1 = some w ∧ SignType.sign w = -SignType.sign v

/-- Every sort field with a byte begins below `2 ^ 31`. -/
def StartsFit (schema : Schema) : Prop :=
  ∀ attr ∈ schema.sortAttrs.reduceOption,
    declaredBytes schema attr = 0 ∨ fieldStart schema attr < 2 ^ 31

/-- INTERNAL: it can be decided whether the fields start where an `int` can tell. -/
instance (schema : Schema) : Decidable (StartsFit schema) :=
  inferInstanceAs (Decidable (∀ attr ∈ schema.sortAttrs.reduceOption, _))

section Fields

variable {schema : Schema} {attr : ℕ}

/-- INTERNAL: the length the comparator hands on is the declared one.
SRCLINE: library.cc:73-74 -/
theorem Layout.toSizeT_attrLength (h : Layout schema) (hattr : attr < schema.attrs.length) :
    toSizeT (attrLength schema attr) = declaredBytes schema attr := by
  have hlength := h.length_eq hattr
  rw [declaredBytes, List.getElem?_eq_getElem hattr, Option.map_some, Option.getD_some]
  exact Nat.succ.inj hlength

/-- INTERNAL: **the comparator reads the declared field**, if it begins below `2 ^ 31`. -/
theorem field_eq_declaredField (h : Layout schema) (hattr : attr < schema.attrs.length)
    (hfits : declaredBytes schema attr = 0 ∨ fieldStart schema attr < 2 ^ 31) (r : List Byte) :
    field schema r attr = declaredField schema r attr := by
  rw [field, h.toSizeT_attrLength hattr, declaredField, cstr]
  rcases hfits with hzero | hlt
  · rw [hzero, List.take_zero, List.take_zero]
  · rw [h.offset_of_lt hlt, Int.toNat_natCast]

/-- INTERNAL: the sort fields the comparator reads are the declared ones. -/
theorem sortFields_eq_declaredFields (h : Layout schema) (hfits : StartsFit schema)
    (r : List Byte) : sortFields schema r = declaredFields schema r := by
  apply List.map_congr_left
  intro attr hattr
  exact field_eq_declaredField h (h.lt_of_mem_sortAttrs hattr) (hfits attr hattr) r

/-- INTERNAL: fields that begin below `2 ^ 31` are read from the record. -/
theorem inside_of_startsFit (h : Layout schema) (hfits : StartsFit schema) : Inside schema := by
  intro attr hattr
  have hlt := h.lt_of_mem_sortAttrs hattr
  rw [readsRecord, decide_eq_true_iff]
  rcases hfits attr hattr with hzero | hstart
  · left
    have hpos := h.nonneg _ (List.getElem_mem hlt)
    rw [declaredBytes, List.getElem?_eq_getElem hlt, Option.map_some, Option.getD_some] at hzero
    rw [attrLength_eq hlt]
    omega
  · right
    have hends := h.start_add_length_lt hlt
    rw [h.offset_of_lt hstart]
    exact ⟨Int.natCast_nonneg _, by omega⟩

/-- INTERNAL: **sort fields that begin below `2 ^ 31` are compared lexicographically.** -/
theorem lexicographic_of_startsFit (h : Layout schema) (hfits : StartsFit schema) :
    Lexicographic schema := by
  have hinside := inside_of_startsFit h hfits
  have hspec := fun r1 r2 => hinside.comparator_spec r1 r2
  have horder := fun r1 r2 => hinside.inOrder_iff r1 r2
  simp only [sortFields_eq_declaredFields h hfits] at hspec horder
  refine ⟨fun r1 r2 _ _ => hspec r1 r2, ?_, ?_, ?_, ?_⟩
  · intro r _
    exact (horder r r).mpr le_rfl
  · intro r1 r2 r3 _ _ _ h12 h23
    exact (horder r1 r3).mpr (((horder r1 r2).mp h12).trans ((horder r2 r3).mp h23))
  · intro r1 r2 _ _
    exact (le_total _ _).imp (horder r1 r2).mpr (horder r2 r1).mpr
  · intro r1 r2 _ _
    obtain ⟨v, hv, hneg, hzero, hpos⟩ := hspec r1 r2
    obtain ⟨w, hw, hneg', hzero', hpos'⟩ := hspec r2 r1
    refine ⟨v, w, hv, hw, ?_⟩
    rcases lt_trichotomy v 0 with hlt | heq | hgt
    · rw [sign_neg hlt, sign_pos (hpos'.mpr (hneg.mp hlt)), neg_neg]
    · rw [heq, hzero'.mpr (hzero.mp heq).symm, sign_zero, neg_zero]
    · rw [sign_pos hgt, sign_neg (hneg'.mpr (hpos.mp hgt))]

end Fields

section Blind

variable {schema : Schema} {attr : ℕ}

/-- INTERNAL: a window of a record that does not hold a byte does not see it change. -/
theorem window_set {r : List Byte} {p start n : ℕ} (x : Byte) (h : p < start ∨ start + n ≤ p) :
    ((r.set p x).drop start).take n = (r.drop start).take n := by
  rw [List.drop_set]
  split_ifs with hp
  · rfl
  · rw [List.take_set, List.set_eq_of_length_le]
    rw [List.length_take]
    omega

/-- INTERNAL: **the last sort field that begins at `2 ^ 31` or behind is not read.**  Two records
that differ in its first byte alone are equal to the comparator, if it has a result at all. -/
theorem comparator_blind (h : Layout schema) (hinside : Inside schema)
    (hattr : attr ∈ schema.sortAttrs.reduceOption) (hbytes : declaredBytes schema attr ≠ 0)
    (hstart : 2 ^ 31 ≤ fieldStart schema attr)
    (hlast : ∀ attr' ∈ schema.sortAttrs.reduceOption, declaredBytes schema attr' ≠ 0 →
      2 ^ 31 ≤ fieldStart schema attr' → fieldStart schema attr' ≤ fieldStart schema attr)
    (r : List Byte) (x : Byte) :
    recordObjectComparator schema r (r.set (fieldStart schema attr) x) = some 0 := by
  obtain ⟨v, hv, -, hzero, -⟩ := hinside.comparator_spec r (r.set (fieldStart schema attr) x)
  rw [hv, hzero.mpr]
  apply List.map_congr_left
  intro attr' hattr'
  have hlt' := h.lt_of_mem_sortAttrs hattr'
  have hlt := h.lt_of_mem_sortAttrs hattr
  have hshort : toSizeT (attrLength schema attr) < 2 ^ 31 := by
    have hlength := h.length_eq hlt
    have hbound := (schema.attrs[attr]).length.toInt_lt
    rw [span] at hlength
    omega
  rw [field, field, cstr, cstr]
  congr 1
  by_cases hnone : declaredBytes schema attr' = 0
  · rw [h.toSizeT_attrLength hlt', hnone, List.take_zero, List.take_zero]
  -- a field that fits ends before the byte or begins behind it; one that does not fit is looked
  -- for at least `2 ^ 32` bytes too far in front
  refine (window_set x ?_).symm
  have hoffset := h.offset_eq attr'
  rw [toInt_eq] at hoffset
  rcases lt_or_ge (fieldStart schema attr') (2 ^ 31) with hfits | hwraps
  · have hne : attr' ≠ attr := by
      rintro rfl
      omega
    rw [h.offset_of_lt hfits, Int.toNat_natCast]
    rcases lt_or_gt_of_ne hne with hbefore | hbehind
    · right
      have hends := h.start_add_length_lt_start hbefore hlt.le
      omega
    · have hends := h.start_add_length_lt_start hbehind hlt'.le
      omega
  · have hle := hlast attr' hattr' hnone hwraps
    right
    have hend : fieldStart schema attr' + toSizeT (attrLength schema attr') ≤
        fieldStart schema attr + toSizeT (attrLength schema attr) := by
      rcases lt_trichotomy attr' attr with hbefore | rfl | hbehind
      · have hends := h.start_add_length_lt_start hbefore hlt.le
        omega
      · exact le_rfl
      · have hends := h.start_add_length_lt_start hbehind hlt'.le
        omega
    split_ifs at hoffset <;> omega

/-- INTERNAL: of the sort fields that begin at `2 ^ 31` or behind, one is the last. -/
theorem exists_last_start (hnot : ¬ StartsFit schema) :
    ∃ attr ∈ schema.sortAttrs.reduceOption, declaredBytes schema attr ≠ 0 ∧
      2 ^ 31 ≤ fieldStart schema attr ∧
      ∀ attr' ∈ schema.sortAttrs.reduceOption, declaredBytes schema attr' ≠ 0 →
        2 ^ 31 ≤ fieldStart schema attr' → fieldStart schema attr' ≤ fieldStart schema attr := by
  set behind := schema.sortAttrs.reduceOption.toFinset.filter fun attr =>
    declaredBytes schema attr ≠ 0 ∧ 2 ^ 31 ≤ fieldStart schema attr with hbehind
  have hmem : ∀ attr, attr ∈ behind ↔ attr ∈ schema.sortAttrs.reduceOption ∧
      declaredBytes schema attr ≠ 0 ∧ 2 ^ 31 ≤ fieldStart schema attr := by
    intro attr
    rw [hbehind, Finset.mem_filter, List.mem_toFinset]
  have hne : behind.Nonempty := by
    simp only [StartsFit, not_forall, not_or, not_lt] at hnot
    obtain ⟨attr, hattr, hbytes, hstart⟩ := hnot
    exact ⟨attr, (hmem attr).mpr ⟨hattr, hbytes, hstart⟩⟩
  obtain ⟨attr, hattr, hlast⟩ := behind.exists_max_image (fieldStart schema) hne
  obtain ⟨hsort, hbytes, hstart⟩ := (hmem attr).mp hattr
  refine ⟨attr, hsort, hbytes, hstart, fun attr' hattr' hbytes' hstart' => ?_⟩
  exact hlast attr' ((hmem attr').mpr ⟨hattr', hbytes', hstart'⟩)

/-- INTERNAL: a sort field that begins at `2 ^ 31` or behind is not compared as it should. -/
theorem not_lexicographic (h : Layout schema) (hnot : ¬ StartsFit schema) :
    ¬ Lexicographic schema := by
  intro hlex
  have hplain : (List.replicate schema.recordSize (1 : Byte)).length = schema.recordSize :=
    List.length_replicate
  have hinside : Inside schema := by
    by_contra hout
    obtain ⟨v, hv, -⟩ := hlex.sign _ _ hplain hplain
    rw [(recordObjectComparator_eq_none_iff schema _ _).mpr ⟨hout, rfl⟩] at hv
    cases hv
  obtain ⟨attr, hattr, hbytes, hstart, hlast⟩ := exists_last_start hnot
  have hlt := h.start_add_length_lt (h.lt_of_mem_sortAttrs hattr)
  obtain ⟨v, hv, -, hzero, -⟩ := hlex.sign (List.replicate schema.recordSize 1)
    ((List.replicate schema.recordSize 1).set (fieldStart schema attr) 2) hplain
    (by rw [List.length_set, hplain])
  rw [comparator_blind h hinside hattr hbytes hstart hlast] at hv
  -- the comparator finds the two records equal, but the field begins with different bytes
  have heq := List.map_inj_left.mp (hzero.mp (Option.some.inj hv).symm) attr hattr
  obtain ⟨n, hn⟩ := Nat.exists_eq_succ_of_ne_zero hbytes
  have hpos : 0 < schema.recordSize - fieldStart schema attr := by omega
  obtain ⟨m, hm⟩ := Nat.exists_eq_succ_of_ne_zero hpos.ne'
  rw [declaredField, declaredField, List.drop_set, if_neg (lt_irrefl _), List.drop_replicate,
    Nat.sub_self, hm, hn, List.replicate_succ, List.set_cons_zero, List.take_succ_cons,
    List.take_succ_cons, List.takeWhile_cons_of_pos (by decide),
    List.takeWhile_cons_of_pos (by decide)] at heq
  exact absurd (List.cons.inj heq).1 (by decide)

end Blind

/-- SOURCE: library.cc:58-88 — **when the comparator is the lexicographic order on the sort
fields.**  For every schema without negative lengths, any list of its attributes to sort by, and
records of any bytes: the comparator returns with the sign of the comparison of the two tuples
of declared fields, it is reflexive, transitive and total, and swapping the records reverses
its sign, if and only if every sort field with a byte begins below `2 ^ 31`. -/
theorem comparator_lexicographic_iff (schema : Schema) (h : Layout schema) :
    Lexicographic schema ↔ StartsFit schema := by
  constructor
  · intro hlex
    by_contra hnot
    exact not_lexicographic h hnot hlex
  · exact lexicographic_of_startsFit h

/-- Three fields of two, none and three bytes, sorted by the last, the second and the first. -/
def threeSorted : Schema where
  attrs := [⟨strncpy [97] 255, 2⟩, ⟨strncpy [98] 255, 0⟩, ⟨strncpy [99] 255, 3⟩]
  sortAttrs := [some 2, some 1, some 0]
  recordSize := 8

/-- Three small fields are compared lexicographically. -/
theorem comparator_lexicographic_three : Lexicographic threeSorted :=
  (comparator_lexicographic_iff threeSorted ⟨by decide, by decide, by decide⟩).mpr (by decide)

/-- Two fields, the first of which takes all an `int` can count; sorted by the second. -/
def behindInt : Schema where
  attrs := [⟨strncpy [97] 255, 2147483647⟩, ⟨strncpy [98] 255, 1⟩]
  sortAttrs := [some 1]
  recordSize := 2147483650

/-- The offset of the second field wraps around to `-2 ^ 31`, and the comparator reads in front of
the records. -/
theorem comparator_reads_outside :
    Layout behindInt ∧ offsetToAttribute behindInt 1 = -2147483648 ∧
    (∀ r1 r2, recordObjectComparator behindInt r1 r2 = none) ∧ ¬ Lexicographic behindInt := by
  have hlayout : Layout behindInt := ⟨by decide, by decide, by decide⟩
  refine ⟨hlayout, by decide +kernel, fun r1 r2 => ?_, ?_⟩
  · rw [recordObjectComparator_eq_none_iff]
    exact ⟨by decide +kernel, by
      rw [comparedFields, comparedFields, show comparedAttrs behindInt = [] by decide +kernel]
      rfl⟩
  · exact not_lexicographic hlayout (by decide +kernel)

end ExternalSort.Analysis
