import Mathlib.Tactic

/-!
# A store of key-value pairs in the order of its keys

The store is `Std.TreeMap`.  `putAll` writes pairs one after the other, so the last write
of a key wins.  A listing is determined by the lookups (`toList_eq_of_lookup`).  Writing
pairs with distinct keys that are not there adds them all to the listing (`toList_putAll_perm`),
and fewer than all otherwise (`distinct_of_length_toList_putAll`).  What was in the store before
shows in the listing exactly if some key of it is not written again
(`putAll_congr`, `exists_extra_of_key`).
-/

set_option autoImplicit false

namespace ExternalSort.Lib

section OrderedStore

variable {K V : Type} {cmp : K → K → Ordering} [Std.TransCmp cmp] [Std.LawfulEqCmp cmp]
  {m m' : Std.TreeMap K V cmp} {l : List (K × V)}

/-- INTERNAL: the pairs, written one after the other. -/
def putAll (m : Std.TreeMap K V cmp) (l : List (K × V)) : Std.TreeMap K V cmp :=
  l.foldl (fun m p => m.insert p.1 p.2) m

omit [Std.TransCmp cmp] [Std.LawfulEqCmp cmp] in
/-- INTERNAL: one more pair is written. -/
theorem putAll_concat (m : Std.TreeMap K V cmp) (l : List (K × V)) (p : K × V) :
    putAll m (l ++ [p]) = (putAll m l).insert p.1 p.2 := by
  simp [putAll]

/-- INTERNAL: a look-up after a write finds what was written, or what was there. -/
theorem lookup_insert (m : Std.TreeMap K V cmp) (k : K) (v : V) (a : K) :
    (m.insert k v)[a]? = some v ∧ k = a ∨ (m.insert k v)[a]? = m[a]? ∧ k ≠ a := by
  rw [Std.TreeMap.getElem?_insert]
  by_cases h : k = a
  · left
    rw [if_pos (Std.LawfulEqCmp.compare_eq_iff_eq.mpr h)]
    exact ⟨rfl, h⟩
  · right
    rw [if_neg fun heq => h (Std.LawfulEqCmp.compare_eq_iff_eq.mp heq)]
    exact ⟨rfl, h⟩

/-- INTERNAL: only a key that is not written remembers the store before. -/
theorem putAll_congr {k : K} (h : k ∉ l.map Prod.fst → m[k]? = m'[k]?) :
    (putAll m l)[k]? = (putAll m' l)[k]? := by
  induction l generalizing m m' with
  | nil => exact h List.not_mem_nil
  | cons p l ih =>
    apply ih
    intro hk
    rcases lookup_insert m p.1 p.2 k with ⟨h1, hp⟩ | ⟨h1, hp⟩
    · rcases lookup_insert m' p.1 p.2 k with ⟨h2, -⟩ | ⟨-, hp'⟩
      · rw [h1, h2]
      · exact absurd hp hp'
    · rcases lookup_insert m' p.1 p.2 k with ⟨-, hp'⟩ | ⟨h2, -⟩
      · exact absurd hp' hp
      · rw [h1, h2]
        exact h (by simp [Ne.symm hp, hk])

/-- INTERNAL: a key that is not written keeps its value. -/
theorem lookup_putAll_of_not_mem {k : K} (h : k ∉ l.map Prod.fst) : (putAll m l)[k]? = m[k]? := by
  induction l generalizing m with
  | nil => rfl
  | cons p l ih =>
    simp only [List.map_cons, List.mem_cons, not_or] at h
    have hrest : (putAll (m.insert p.1 p.2) l)[k]? = (m.insert p.1 p.2)[k]? := ih h.2
    rcases lookup_insert m p.1 p.2 k with ⟨-, hp⟩ | ⟨h1, -⟩
    · exact absurd hp.symm h.1
    · exact hrest.trans h1

/-- INTERNAL: every value found was written, or was there before. -/
theorem mem_or_lookup_of_putAll {k : K} {v : V} (h : (putAll m l)[k]? = some v) :
    (k, v) ∈ l ∨ m[k]? = some v := by
  induction l generalizing m with
  | nil => exact Or.inr h
  | cons p l ih =>
    cases ih (m := m.insert p.1 p.2) h with
    | inl hmem => exact Or.inl (List.mem_cons_of_mem p hmem)
    | inr hold =>
      rcases lookup_insert m p.1 p.2 k with ⟨h1, rfl⟩ | ⟨h1, -⟩
      · rw [h1] at hold
        cases hold
        exact Or.inl (List.mem_cons_self ..)
      · exact Or.inr (h1 ▸ hold)

/-- INTERNAL: a key that is written is found. -/
theorem lookup_putAll_ne_none {k : K} (h : k ∈ l.map Prod.fst ∨ m[k]? ≠ none) :
    (putAll m l)[k]? ≠ none := by
  induction l generalizing m with
  | nil => exact h.resolve_left List.not_mem_nil
  | cons p l ih =>
    apply ih (m := m.insert p.1 p.2)
    rcases lookup_insert m p.1 p.2 k with ⟨h1, -⟩ | ⟨h1, hp⟩
    · right
      rw [h1]
      exact Option.some_ne_none _
    · rw [h1]
      refine h.imp_left fun hmem => ?_
      cases List.mem_cons.mp hmem with
      | inl heq => exact absurd heq.symm hp
      | inr hmem => exact hmem

omit [Std.LawfulEqCmp cmp] in
/-- INTERNAL: no pair is listed twice. -/
theorem nodup_toList (m : Std.TreeMap K V cmp) : m.toList.Nodup := by
  apply List.Nodup.of_map Prod.fst
  rw [Std.TreeMap.map_fst_toList_eq_keys]
  exact Std.TreeMap.nodup_keys

/-- INTERNAL: the listing is determined by the lookups. -/
theorem toList_eq_of_lookup (h : ∀ k : K, m[k]? = m'[k]?) : m.toList = m'.toList := by
  have hperm : m.toList.Perm m'.toList := by
    rw [List.perm_ext_iff_of_nodup (nodup_toList m) (nodup_toList m')]
    rintro ⟨k, v⟩
    rw [Std.TreeMap.mem_toList_iff_getElem?_eq_some, Std.TreeMap.mem_toList_iff_getElem?_eq_some, h]
  refine hperm.eq_of_pairwise ?_ Std.TreeMap.ordered_keys_toList Std.TreeMap.ordered_keys_toList
  intro p q _ _ hpq hqp
  have hswap : cmp p.1 q.1 = (cmp q.1 p.1).swap := Std.OrientedCmp.eq_swap
  rw [hpq, hqp] at hswap
  cases hswap

/-- INTERNAL: pairs with distinct keys that are not in the store are listed beside what was there. -/
theorem toList_putAll_perm (h : (l.map Prod.fst).Nodup)
    (hnew : ∀ k ∈ l.map Prod.fst, m[k]? = none) :
    (putAll m l).toList.Perm (m.toList ++ l) := by
  have hdisjoint : m.toList.Disjoint l := by
    rintro ⟨k, v⟩ hold hmem
    rw [Std.TreeMap.mem_toList_iff_getElem?_eq_some,
      hnew k (List.mem_map_of_mem (f := Prod.fst) hmem)] at hold
    cases hold
  rw [List.perm_ext_iff_of_nodup (nodup_toList _)
    (List.nodup_append'.mpr ⟨nodup_toList m, List.Nodup.of_map Prod.fst h, hdisjoint⟩)]
  rintro ⟨k, v⟩
  rw [List.mem_append, Std.TreeMap.mem_toList_iff_getElem?_eq_some,
    Std.TreeMap.mem_toList_iff_getElem?_eq_some]
  constructor
  · intro hk
    exact (mem_or_lookup_of_putAll hk).symm
  · rintro (hold | hmem)
    · rw [lookup_putAll_of_not_mem, hold]
      intro hk
      rw [hnew k hk] at hold
      cases hold
    · have hkey := List.mem_map_of_mem (f := Prod.fst) hmem
      obtain ⟨w, hw⟩ := Option.ne_none_iff_exists'.mp
        (lookup_putAll_ne_none (m := m) (Or.inl hkey))
      cases mem_or_lookup_of_putAll hw with
      | inl hmem' =>
        cases List.inj_on_of_nodup_map h hmem hmem' rfl
        exact hw
      | inr hold =>
        rw [hnew k hkey] at hold
        cases hold

omit [Std.LawfulEqCmp cmp] in
/-- INTERNAL: no more pairs are listed than were there and were written. -/
theorem length_toList_putAll_le (m : Std.TreeMap K V cmp) (l : List (K × V)) :
    (putAll m l).toList.length ≤ m.toList.length + l.length := by
  induction l generalizing m with
  | nil => exact le_rfl
  | cons p l ih =>
    have hrest := ih (m.insert p.1 p.2)
    have hinsert := Std.TreeMap.size_insert_le (t := m) (k := p.1) (v := p.2)
    rw [Std.TreeMap.length_toList, Std.TreeMap.length_toList] at hrest ⊢
    rw [List.length_cons]
    exact hrest.trans (by omega)

/-- INTERNAL: if all are listed, the keys are distinct and none was there.  The induction is on
the writes. -/
theorem distinct_of_length_toList_putAll
    (h : m.toList.length + l.length ≤ (putAll m l).toList.length) :
    (l.map Prod.fst).Nodup ∧ ∀ k ∈ l.map Prod.fst, m[k]? = none := by
  induction l generalizing m with
  | nil => simp
  | cons p l ih =>
    have hrest : (putAll m (p :: l)).toList.length ≤
        (m.insert p.1 p.2).toList.length + l.length := length_toList_putAll_le _ l
    have hinsert := Std.TreeMap.size_insert (t := m) (k := p.1) (v := p.2)
    rw [List.length_cons] at h
    have hgrows : (m.insert p.1 p.2).toList.length = m.toList.length + 1 ∧
        m.contains p.1 = false := by
      rw [Std.TreeMap.length_toList, Std.TreeMap.length_toList] at *
      split_ifs at hinsert with hthere
      · omega
      · exact ⟨hinsert, Bool.eq_false_iff.mpr hthere⟩
    have hfirst : m[p.1]? = none :=
      Std.TreeMap.getElem?_eq_none_of_contains_eq_false hgrows.2
    obtain ⟨hnodup, hnew⟩ := ih (m := m.insert p.1 p.2)
      (by rw [hgrows.1, Nat.add_assoc, Nat.add_comm 1]; exact h)
    have hother : ∀ k ∈ l.map Prod.fst, m[k]? = none ∧ p.1 ≠ k := by
      intro k hk
      rcases lookup_insert m p.1 p.2 k with ⟨h1, -⟩ | ⟨h1, hne⟩
      · rw [hnew k hk] at h1
        cases h1
      · exact ⟨h1 ▸ hnew k hk, hne⟩
    rw [List.map_cons, List.nodup_cons, List.forall_mem_cons]
    exact ⟨⟨fun hmem => (hother _ hmem).2 rfl, hnodup⟩, hfirst, fun k hk => (hother k hk).1⟩

/-- INTERNAL: writes without a property add no pair that has it. -/
theorem countP_toList_putAll_le (P : K × V → Bool) (h : ∀ p ∈ l, ¬ P p) :
    (putAll m l).toList.countP P ≤ m.toList.countP P := by
  have hsub : (putAll m l).toList.filter P ⊆ m.toList.filter P := by
    rintro ⟨k, v⟩ hmem
    obtain ⟨hmem, hP⟩ := List.mem_filter.mp hmem
    rw [Std.TreeMap.mem_toList_iff_getElem?_eq_some] at hmem
    cases mem_or_lookup_of_putAll hmem with
    | inl hnew => exact absurd hP (h _ hnew)
    | inr hold =>
      exact List.mem_filter.mpr ⟨Std.TreeMap.mem_toList_iff_getElem?_eq_some.mpr hold, hP⟩
  rw [List.countP_eq_length_filter, List.countP_eq_length_filter]
  exact (List.subperm_of_subset ((nodup_toList _).filter P) hsub).length_le

/-- INTERNAL: a store with the same pairs and one more key lists one more pair. -/
theorem exists_extra_of_key (h : ∀ (k : K) (v : V), m[k]? = some v → m'[k]? = some v) {k : K}
    (hk : m'[k]? ≠ none) (hnone : m[k]? = none) :
    ∃ p, (p :: m.toList).Subperm m'.toList := by
  have hsub : m.toList ⊆ m'.toList := by
    rintro ⟨a, v⟩ hmem
    rw [Std.TreeMap.mem_toList_iff_getElem?_eq_some] at hmem ⊢
    exact h a v hmem
  obtain ⟨v, hv⟩ := Option.ne_none_iff_exists'.mp hk
  refine ⟨(k, v), List.subperm_of_subset (List.nodup_cons.mpr ⟨?_, nodup_toList m⟩) ?_⟩
  · rw [Std.TreeMap.mem_toList_iff_getElem?_eq_some, hnone]
    exact (Option.some_ne_none v).symm
  · rw [List.cons_subset]
    exact ⟨Std.TreeMap.mem_toList_iff_getElem?_eq_some.mpr hv, hsub⟩

/-- INTERNAL: a part of a list counts no more than the list. -/
theorem sum_map_le_of_subperm {α : Type} {l₁ l₂ : List α} (h : l₁.Subperm l₂) (f : α → ℕ) :
    (l₁.map f).sum ≤ (l₂.map f).sum := by
  obtain ⟨l, hperm, hsub⟩ := h
  rw [← (hperm.map f).sum_eq]
  exact (hsub.map f).sum_le_sum fun _ _ => Nat.zero_le _

end OrderedStore

end ExternalSort.Lib
