import ExternalSort.Analysis.BsortSorts

/-!
# The room for a key, and the order of the keys

The tree sort builds every key in a buffer of `record_size + 51` bytes.  A record without NULs
fills its fields, so the key takes the declared lengths of all sort attributes, the digits of
the record's number, and a NUL (`length_keyOf`).  Different attributes have room in a record
(`length_sortFields_le`).  But nothing keeps a name from being given more than once, and then
the attribute is appended as often.

Where two keys have room, their order is that of the comparator, with the numbers behind it.
-/

set_option autoImplicit false

namespace ExternalSort.Analysis

open ExternalSort.Lib ExternalSort.Model

/-- The bytes of a key that come from the record: the declared lengths of the sort attributes,
each as often as it was asked for.
SRCLINE: bsort.cc:74-83 -/
def keyFieldsLength (schema : Schema) : ℤ :=
  (schema.sortAttrs.reduceOption.map (attrLength schema)).sum

/-- The key that is built of the record in the buffer, whether or not it has room: its sort fields
and a number.
SRCLINE: bsort.cc:73-90 -/
def builtKey (schema : Schema) (buffer : List Byte) (counter : ℤ) : Option (List Byte) :=
  (sortBuffer schema buffer schema.sortAttrs).map fun fields => fields ++ decimalInt counter

/-- The key of the record in the buffer, with the NUL behind it, has room in its buffer.
SRCLINE: bsort.cc:65, bsort.cc:73-88 -/
def KeyHasRoom (schema : Schema) (buffer : List Byte) (counter : ℤ) : Prop :=
  ∃ key, builtKey schema buffer counter = some key ∧ key.length + 1 ≤ schema.recordSize + 51

section Room

variable {schema : Schema} {r s : List Byte}

/-- INTERNAL: the program goes on with a key that has room, and with no other. -/
theorem sortKey_ne_none_iff (buffer : List Byte) (counter : ℤ) :
    sortKey schema buffer counter ≠ none ↔ KeyHasRoom schema buffer counter := by
  unfold sortKey KeyHasRoom builtKey
  cases sortBuffer schema buffer schema.sortAttrs with
  | none => simp
  | some fields =>
    rw [Option.bind_some, Option.map_some]
    dsimp only
    constructor
    · intro hsome
      refine ⟨_, rfl, ?_⟩
      by_contra hlong
      exact hsome (if_neg (by omega))
    · rintro ⟨key, hkey, hlength⟩
      obtain rfl := Option.some.inj hkey
      rw [if_pos (by omega)]
      exact Option.some_ne_none _

/-- INTERNAL: the bytes of the sort fields, as a sum of declared lengths. -/
theorem natCast_length_sortFields (h : Layout schema) (hfree : NulFree r)
    (hlen : r.length = schema.recordSize) :
    ((sortFields schema r).flatten.length : ℤ) = keyFieldsLength schema := by
  rw [length_flatten_sortFields_eq h hfree hlen, keyFieldsLength, Nat.cast_list_sum, List.map_map]
  congr 1
  apply List.map_congr_left
  intro attr hattr
  have hattr' := h.lt_of_mem_sortAttrs hattr
  have hlt := (schema.attrs[attr]).length.toInt_lt
  have hnonneg := h.nonneg _ (List.getElem_mem hattr')
  rw [Function.comp_apply, attrLength_eq hattr', toSizeT_of_lt hnonneg (by omega)]
  exact Int.toNat_of_nonneg hnonneg

/-- INTERNAL: **the length of a key.**
SRCLINE: bsort.cc:73-88 -/
theorem length_keyOf (h : Layout schema) (hfree : NulFree r) (hlen : r.length = schema.recordSize)
    (counter : ℤ) :
    ((keyOf schema r counter).length : ℤ) =
      keyFieldsLength schema + (decimalInt counter).length := by
  rw [keyOf, List.length_append, Nat.cast_add, natCast_length_sortFields h hfree hlen]

/-- INTERNAL: when the key of a record in the buffer can be made, in terms of the schema and the
number. -/
theorem keyFits_record_iff (h : Layout schema) (hfree : NulFree r)
    (hlen : r.length = schema.recordSize) (junk : List Byte) (counter : ℤ) :
    KeyFits schema (r ++ 0 :: junk) counter ↔ StartsInside schema ∧
      keyFieldsLength schema + (decimalInt counter).length ≤ schema.recordSize + 50 := by
  rw [keyFits_buffer_iff h hlen, ← length_keyOf h hfree hlen]
  norm_cast

end Room

/-- SOURCE: bsort.cc:63-88, library.cc:38-56 — **when the key has room.**  For every schema that is
read without negative lengths, any list of names that are all found, every record without NULs
and every number: the key and its NUL fit the buffer if and only if the declared lengths of the
sort attributes, as often as each is named, and the digits of the number are not more than 50
bytes longer than a record, and no sort field with a byte begins at an offset that is negative as
an `int`. -/
theorem key_fits_iff (json : Option JsonArray) (schema₀ schema : Schema)
    (names : List (List Byte)) (hread : readSchema json = some schema₀)
    (hlengths : ∀ a ∈ schema₀.attrs, 0 ≤ a.length.toInt)
    (hresolve : initSortAttrs schema₀ names = some (0, schema)) (r : List Byte)
    (hfree : NulFree r) (hlen : r.length = schema.recordSize) (junk : List Byte) (counter : ℕ) :
    KeyHasRoom schema (r ++ 0 :: junk) counter ↔
      keyFieldsLength schema + (Nat.log 10 counter + 1 : ℕ) ≤ schema.recordSize + 50 ∧
      StartsInside schema := by
  obtain ⟨hlayout, -⟩ := layout_of_resolve hread hlengths hresolve
  have hnumber : decimalInt counter = decimalNat counter := by
    rw [decimalInt, if_neg (not_lt.mpr (Int.natCast_nonneg counter)), Int.natAbs_natCast]
  rw [← sortKey_ne_none_iff, ne_eq, sortKey_eq_none_iff, not_not,
    keyFits_record_iff hlayout hfree hlen, hnumber, length_decimalNat]
  exact and_comm

/-- A schema file with fields of two, no and three bytes. -/
def threeJson : JsonArray :=
  ⟨[⟨some [97], none, some 2, none⟩, ⟨some [98], none, some 0, none⟩, ⟨some [99], none, some 3, none⟩],
    by decide⟩

/-- Its schema, sorted by the last field, the others, and the last field again. -/
def againSchema : Schema where
  attrs := [⟨strncpy [97] 255, 2⟩, ⟨strncpy [98] 255, 0⟩, ⟨strncpy [99] 255, 3⟩]
  sortAttrs := [some 2, some 0, some 1, some 2]
  recordSize := 8

/-- The key of a record has room with one attribute named twice, and with the largest number. -/
theorem key_fits_again : KeyHasRoom againSchema
    ([120, 121, 44, 44, 65, 66, 67, 10] ++ 0 :: [88]) ((2147483647 : ℕ) : ℤ) :=
  (key_fits_iff (some threeJson) { againSchema with sortAttrs := [] } againSchema
    [[99], [97], [98], [99]] (by decide +kernel) (by decide) (by decide +kernel)
    [120, 121, 44, 44, 65, 66, 67, 10] (by decide +kernel) rfl [88] 2147483647).mpr
      (by decide +kernel)

/-- A schema file with one attribute of sixty bytes. -/
def longJson : JsonArray := ⟨[⟨some [97], none, some 60, none⟩], by decide⟩

/-- Its schema, with the attribute named twice. -/
def twiceSchema : Schema where
  attrs := [⟨strncpy [97] 255, 60⟩]
  sortAttrs := [some 0, some 0]
  recordSize := 61

/-- A record of sixty bytes `b`. -/
def sixty (b : Byte) : List Byte := List.replicate 60 b ++ [10]

/-- INTERNAL: named twice, sixty bytes take more than the buffer for the key has beside a record,
and the program goes beyond it. -/
theorem sortKey_twice : sortKey twiceSchema (sixty 97 ++ 0 :: []) 0 = none := by decide +kernel

/-- The key of the attribute named twice does not fit. -/
theorem key_twice_does_not_fit :
    readSchema (some longJson) = some { twiceSchema with sortAttrs := [] } ∧
    initSortAttrs { twiceSchema with sortAttrs := [] } [[97], [97]] = some (0, twiceSchema) ∧
    NulFree (sixty 97) ∧ (sixty 97).length = twiceSchema.recordSize ∧
    ¬ KeyHasRoom twiceSchema (sixty 97 ++ 0 :: []) 0 ∧
    sortKey twiceSchema (sixty 97 ++ 0 :: []) 0 = none := by
  refine ⟨by decide +kernel, by decide +kernel, by decide +kernel, rfl, ?_, sortKey_twice⟩
  rw [← sortKey_ne_none_iff]
  exact not_not.mpr sortKey_twice

/-! ## The order of the keys -/

/-- The keys that are built of two records are in the order the comparator gives the records, and
they differ if the numbers do.
SRCLINE: bsort.cc:73-92, library.cc:67-81 -/
def KeysRefine (schema : Schema) (r s junk junk' : List Byte) (counter counter' : ℤ) : Prop :=
  ∃ key key' v, sortKey schema (r ++ 0 :: junk) counter = some key ∧
    sortKey schema (s ++ 0 :: junk') counter' = some key' ∧
    recordObjectComparator schema r s = some v ∧
    (v < 0 → key < key') ∧ (0 < v → key' < key) ∧ (counter ≠ counter' → key ≠ key')

/-- SOURCE: bsort.cc:73-92, library.cc:58-81 — **when the order of the keys refines the comparator.**
For every layout and any list of its attributes, any two records and any two numbers: the keys are
built, and they are in the order of the comparator if it tells the records apart, and differ if the
numbers do, if and only if both keys have room beside the 50 bytes, and no sort field with a byte
begins at an offset that is negative as an `int`. -/
theorem key_order_iff (schema : Schema) (h : Layout schema) (r s : List Byte)
    (hr : NulFree r) (hs : NulFree s) (hrlen : r.length = schema.recordSize)
    (hslen : s.length = schema.recordSize) (junk junk' : List Byte) (counter counter' : ℤ) :
    KeysRefine schema r s junk junk' counter counter' ↔
      keyFieldsLength schema + (decimalInt counter).length ≤ schema.recordSize + 50 ∧
      keyFieldsLength schema + (decimalInt counter').length ≤ schema.recordSize + 50 ∧
      StartsInside schema := by
  have hfits := keyFits_record_iff h hr hrlen junk counter
  have hfits' := keyFits_record_iff h hs hslen junk' counter'
  constructor
  · rintro ⟨key, key', v, hkey, hkey', -⟩
    have hroom := hfits.mp ((sortKey_eq_some_iff _ _).mp hkey).1
    have hroom' := hfits'.mp ((sortKey_eq_some_iff _ _).mp hkey').1
    exact ⟨hroom.2, hroom'.2, hroom.1⟩
  · rintro ⟨hroom, hroom', hinside⟩
    have hsame := forall₂_length_sortFields h hr hs hrlen hslen
    have hlength := length_flatten_sortFields h hr hs hrlen hslen
    obtain ⟨v, hv, hneg, -, hpos⟩ := (h.inside_iff.mpr hinside).comparator_spec r s
    refine ⟨keyOf schema r counter, keyOf schema s counter', v,
      (sortKey_eq_some_iff _ _).mpr ⟨hfits.mpr ⟨hinside, hroom⟩, keyOf_buffer h hrlen junk _⟩,
      (sortKey_eq_some_iff _ _).mpr ⟨hfits'.mpr ⟨hinside, hroom'⟩, keyOf_buffer h hslen junk' _⟩,
      hv, fun hlt => ?_, fun hgt => ?_, fun hne heq => ?_⟩
    · exact (append_lt_append_iff hlength _ _).mpr
        (Or.inl ((flatten_lt_flatten_iff hsame).mpr (hneg.mp hlt)))
    · exact (append_lt_append_iff hlength.symm _ _).mpr
        (Or.inl ((flatten_lt_flatten_iff (forall₂_length_sortFields h hs hr hslen hrlen)).mpr
          (hpos.mp hgt)))
    · exact hne (decimalInt_injective (List.append_inj heq hlength).2)

/-- Two records that differ in the first field only, the second with a smaller number. -/
theorem key_order_again :
    KeysRefine againSchema [120, 121, 44, 44, 65, 66, 67, 10] [120, 122, 44, 44, 65, 66, 67, 10]
      [88] [] 2147483647 (-2147483648) :=
  (key_order_iff againSchema ⟨by decide, by decide, by decide⟩ _ _
    (by simp [NulFree]) (by simp [NulFree]) rfl rfl [88] [] 2147483647 (-2147483648)).mpr (by decide +kernel)

/-- With the attribute of sixty bytes named twice the comparator tells two records apart, but there
are no keys to be in its order. -/
theorem key_order_twice_fails :
    Layout twiceSchema ∧ NulFree (sixty 97) ∧ NulFree (sixty 98) ∧
    recordObjectComparator twiceSchema (sixty 97) (sixty 98) = some (-1) ∧
    ¬ KeysRefine twiceSchema (sixty 97) (sixty 98) [] [] 0 1 := by
  refine ⟨⟨by decide, by decide, by decide⟩, by decide +kernel, by decide +kernel,
    by decide +kernel, ?_⟩
  rintro ⟨key, -, -, hkey, -⟩
  rw [sortKey_twice] at hkey
  cases hkey

end ExternalSort.Analysis
