import ExternalSort.Analysis.LevelDb.Coding
import ExternalSort.Lib.Comparator
import ExternalSort.Model.LevelDb.InternalKey
import Mathlib.Data.Prod.Lex

/-!
# The order of user keys and of internal keys

The comparison of user keys is the order of byte sequences, and the comparison of internal
keys is the lexicographic order of user keys and of descending tags.  An `Entry` is one version
of a key with its parts named; its internal key is parsed into these parts, and entries are
ordered as their internal keys are.
-/

set_option autoImplicit false

namespace ExternalSort.Analysis

open ExternalSort.Lib ExternalSort.Model

/-! ## User keys -/

/-- INTERNAL: strings are compared byte by byte. -/
theorem sliceCompare_cons (x y : Byte) (a b : List Byte) :
    sliceCompare (x :: a) (y :: b) =
      if x ≠ y then ((x : ℕ) : ℤ) - ((y : ℕ) : ℤ) else sliceCompare a b := by
  have hmin : (if (x :: a).length < (y :: b).length then (x :: a).length else (y :: b).length) =
      (if a.length < b.length then a.length else b.length) + 1 := by
    simp only [List.length_cons, Nat.add_lt_add_iff_right]
    split_ifs <;> rfl
  unfold sliceCompare
  simp only [hmin]
  simp only [List.take_succ_cons, memcmp, List.length_cons, Nat.add_lt_add_iff_right]
  by_cases hxy : x = y
  · simp only [hxy, ne_eq, not_true_eq_false, if_false]
  · have hne : ((x : ℕ) : ℤ) - ((y : ℕ) : ℤ) ≠ 0 := fun h => hxy (Fin.ext (by omega))
    simp only [ne_eq, hxy, not_false_eq_true, if_true, if_neg hne]

/-- INTERNAL: **user keys are compared as byte sequences.**
SRCLINE: leveldb-1.15.0/include/leveldb/slice.h:96-104 -/
theorem sliceCompare_represents : Represents sliceCompare (id : List Byte → List Byte) := by
  have key : ∀ a b : List Byte, (sliceCompare a b < 0 ↔ a < b) ∧ (sliceCompare a b = 0 ↔ a = b) := by
    intro a
    induction a with
    | nil =>
      intro b
      cases b with
      | nil => simp [sliceCompare, memcmp]
      | cons y b => simp [sliceCompare, memcmp]
    | cons x a ih =>
      intro b
      cases b with
      | nil => simp [sliceCompare, memcmp]
      | cons y b =>
        rw [sliceCompare_cons, List.cons_lt_cons_iff, List.cons.injEq]
        by_cases hxy : x = y
        · rw [if_neg (not_not.mpr hxy), (ih b).1, (ih b).2]
          simp [hxy]
        · have hne : (x : ℕ) ≠ y := fun h => hxy (Fin.ext h)
          rw [if_pos hxy, Fin.lt_def]
          simp only [hxy, false_and, or_false, iff_false]
          exact ⟨by omega, by omega⟩
  exact ⟨fun a b => (key a b).1, fun a b => (key a b).2⟩

/-! ## Internal keys -/

/-- What an internal key is ordered by. -/
def internalRank (key : List Byte) : List Byte ×ₗ ℕᵒᵈ :=
  toLex (extractUserKey key, OrderDual.toDual (internalKeyTag key))

/-- INTERNAL: **internal keys are ordered by user key, then from new to old.**
SRCLINE: leveldb-1.15.0/db/dbformat.cc:50-66 -/
theorem internalKeyCompare_represents : Represents internalKeyCompare internalRank where
  neg_iff a b := by
    have hneg := sliceCompare_represents.neg_iff (extractUserKey a) (extractUserKey b)
    have hzero := sliceCompare_represents.zero_iff (extractUserKey a) (extractUserKey b)
    rw [id, id] at hneg hzero
    rw [internalRank, internalRank, Prod.Lex.toLex_lt_toLex, ← hneg, ← hzero]
    simp only [internalKeyCompare, OrderDual.toDual_lt_toDual]
    split_ifs <;> omega
  zero_iff a b := by
    have hzero := sliceCompare_represents.zero_iff (extractUserKey a) (extractUserKey b)
    rw [id, id] at hzero
    rw [internalRank, internalRank, toLex_inj, Prod.mk.injEq, OrderDual.toDual_inj, ← hzero]
    simp only [internalKeyCompare]
    split_ifs with h1 h2 h3
    · rw [false_iff]
      omega
    all_goals omega

/-- INTERNAL: internal keys in order have user keys in order. -/
theorem userKey_le_of_rank_le {k k' : List Byte} (h : internalRank k ≤ internalRank k') :
    extractUserKey k ≤ extractUserKey k' := by
  rcases Prod.Lex.toLex_le_toLex.mp h with h | ⟨h, -⟩
  · exact h.le
  · exact h.le

/-- INTERNAL: the user key is read back from the internal key. -/
theorem extractUserKey_append (key : ParsedInternalKey) :
    extractUserKey (appendInternalKey key) = key.userKey := by
  rw [extractUserKey, appendInternalKey]
  exact List.take_left' (by rw [List.length_append, length_encodeFixed64]; omega)

/-- INTERNAL: an internal key is eight bytes longer than the user key. -/
theorem length_appendInternalKey (key : ParsedInternalKey) :
    (appendInternalKey key).length = key.userKey.length + 8 := by
  rw [appendInternalKey, List.length_append, length_encodeFixed64]

/-- INTERNAL: the sequence number is in the upper bytes and the type in the lowest. -/
theorem packSequenceAndType_eq {seq : ℕ} (h : seq ≤ kMaxSequenceNumber) (t : ValueType) :
    packSequenceAndType seq t = seq * 256 + t.toNat := by
  have ht : t.toNat < 2 ^ 8 := by cases t <;> decide
  have ht' : t.toNat ≤ 1 := by cases t <;> decide
  rw [kMaxSequenceNumber] at h
  rw [packSequenceAndType, Nat.or_comm, or_shiftLeft ht, Nat.mod_eq_of_lt (by omega)]
  omega

/-- INTERNAL: the tag of an internal key is the number that was packed. -/
theorem internalKeyTag_append {key : ParsedInternalKey}
    (h : key.sequence ≤ kMaxSequenceNumber) :
    internalKeyTag (appendInternalKey key) = key.sequence * 256 + key.type.toNat := by
  have ht : key.type.toNat ≤ 1 := by cases key.type <;> decide
  have hdrop : (appendInternalKey key).drop ((appendInternalKey key).length - 8) =
      encodeFixed64 (packSequenceAndType key.sequence key.type) := by
    rw [appendInternalKey]
    exact List.drop_left' (by rw [List.length_append, length_encodeFixed64]; omega)
  have hround := decodeFixed64_append (v := key.sequence * 256 + key.type.toNat)
    (by rw [kMaxSequenceNumber] at h; omega) []
  rw [List.append_nil] at hround
  rw [internalKeyTag, hdrop, packSequenceAndType_eq h, hround]

/-- INTERNAL: **an internal key is parsed into its parts.**
SRCLINE: leveldb-1.15.0/db/dbformat.cc:18-21, leveldb-1.15.0/db/dbformat.h:176-186 -/
theorem parseInternalKey_append {key : ParsedInternalKey}
    (h : key.sequence ≤ kMaxSequenceNumber) :
    parseInternalKey (appendInternalKey key) = some key := by
  obtain ⟨userKey, sequence, type⟩ := key
  have hand : ∀ n : ℕ, n &&& 255 = n % 256 := fun n => Nat.and_two_pow_sub_one_eq_mod n 8
  have hlen := length_appendInternalKey ⟨userKey, sequence, type⟩
  simp only [parseInternalKey, internalKeyTag_append h, extractUserKey_append, hand,
    Nat.shiftRight_eq_div_pow]
  rw [if_neg (by omega)]
  cases type with
  | deletion =>
    rw [if_pos (by simp only [ValueType.toNat]; omega)]
    congr 2
    simp only [ValueType.toNat]
    omega
  | value =>
    rw [if_neg (by simp only [ValueType.toNat]; omega),
      if_pos (by simp only [ValueType.toNat]; omega)]
    congr 2
    simp only [ValueType.toNat]
    omega

/-! ## Entries -/

/-- One version of a key. -/
structure Entry where
  userKey : List Byte
  sequence : ℕ
  type : ValueType
  value : List Byte
  deriving DecidableEq, Repr

/-- The parts of an entry's internal key. -/
def Entry.parsed (e : Entry) : ParsedInternalKey := ⟨e.userKey, e.sequence, e.type⟩

/-- An entry as the tables and memtables hold it. -/
def Entry.pair (e : Entry) : List Byte × List Byte := (appendInternalKey e.parsed, e.value)

/-- An entry stands before another: a smaller key, or a newer version of the same. -/
def Entry.Before (a b : Entry) : Prop :=
  a.userKey < b.userKey ∨ a.userKey = b.userKey ∧ b.sequence < a.sequence

/-- INTERNAL: it can be decided which of two entries comes first. -/
instance : DecidableRel Entry.Before := fun a b =>
  inferInstanceAs (Decidable (a.userKey < b.userKey ∨ a.userKey = b.userKey ∧ b.sequence < a.sequence))

/-- Entries as an iterator over a part of the store shows them. -/
structure Ordered (es : List Entry) : Prop where
  sorted : es.Pairwise Entry.Before
  sequence_le : ∀ e ∈ es, e.sequence ≤ kMaxSequenceNumber

/-- Two entries are versions of different keys, or different versions. -/
def Entry.Apart (a b : Entry) : Prop := a.userKey = b.userKey → a.sequence ≠ b.sequence

/-- INTERNAL: which of two entries is named first does not matter. -/
theorem Entry.Apart.symm {a b : Entry} (h : a.Apart b) : b.Apart a :=
  fun hkey heq => h hkey.symm heq.symm

/-- INTERNAL: ordered entries are apart. -/
theorem Ordered.apart {es : List Entry} (h : Ordered es) : es.Pairwise Entry.Apart := by
  apply h.sorted.imp
  rintro a b (hlt | ⟨-, hlt⟩) hkey
  · exact absurd hkey hlt.ne
  · exact hlt.ne'

/-- INTERNAL: an entry in front has no greater user key. -/
theorem Entry.Before.userKey_le {a b : Entry} (h : a.Before b) : a.userKey ≤ b.userKey := by
  rcases h with h | ⟨h, -⟩
  · exact h.le
  · exact h.le

/-- INTERNAL: entries are ordered as their internal keys are. -/
theorem internalRank_lt_iff {a b : Entry} (ha : a.sequence ≤ kMaxSequenceNumber)
    (hb : b.sequence ≤ kMaxSequenceNumber) (hne : a.userKey = b.userKey → a.sequence ≠ b.sequence) :
    internalRank (appendInternalKey a.parsed) < internalRank (appendInternalKey b.parsed) ↔
      a.Before b := by
  have hta : a.type.toNat ≤ 1 := by cases a.type <;> decide
  have htb : b.type.toNat ≤ 1 := by cases b.type <;> decide
  rw [internalRank, internalRank, Prod.Lex.toLex_lt_toLex, extractUserKey_append,
    extractUserKey_append, internalKeyTag_append ha, internalKeyTag_append hb,
    OrderDual.toDual_lt_toDual, Entry.Before]
  simp only [Entry.parsed]
  constructor
  · rintro (h | ⟨heq, h⟩)
    · exact Or.inl h
    · have hseq := hne heq
      exact Or.inr ⟨heq, by omega⟩
  · rintro (h | ⟨heq, h⟩)
    · exact Or.inl h
    · exact Or.inr ⟨heq, by omega⟩

/-- INTERNAL: an entry in front has the smaller internal key. -/
theorem Entry.Before.internalRank_lt {a b : Entry} (h : a.Before b)
    (ha : a.sequence ≤ kMaxSequenceNumber) (hb : b.sequence ≤ kMaxSequenceNumber) :
    internalRank (appendInternalKey a.parsed) < internalRank (appendInternalKey b.parsed) := by
  apply (internalRank_lt_iff ha hb ?_).mpr h
  intro heq
  rcases h with h | ⟨-, h⟩
  · exact absurd heq h.ne
  · exact h.ne'

/-- INTERNAL: the internal keys of ordered entries ascend. -/
theorem Ordered.pairwise_rank {es : List Entry} (h : Ordered es) :
    (es.map Entry.pair).Pairwise fun p q => internalRank p.1 < internalRank q.1 := by
  rw [List.pairwise_map]
  exact h.sorted.imp_of_mem fun ha hb hab =>
    hab.internalRank_lt (h.sequence_le _ ha) (h.sequence_le _ hb)

end ExternalSort.Analysis
