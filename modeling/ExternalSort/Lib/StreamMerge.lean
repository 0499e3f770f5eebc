import Mathlib.Data.List.Sort
import Mathlib.Tactic

/-!
# Merging streams

`Draws le m R taken R'` is the merge of `m` streams: again and again the head of the first
stream with a least head (`Least`) is taken.  What is drawn and what is left are always
a permutation of the streams (`Draws.perm`).  If the streams are sorted, what is drawn is
the front of their stable sort (`Draws.mergeSort_eq`): `List.mergeSort` is stable, so a
least element that stands before its equals comes out first (`mergeSort_append_cons`).
-/

set_option autoImplicit false

namespace ExternalSort.Lib

section StreamMerge

variable {α : Type} {le : α → α → Bool}

/-- INTERNAL: a sorted list is cut in one way into what lies strictly below `y` and what
does not. -/
theorem append_split_unique {l₁ l₂ m₁ m₂ : List α} {y : α} (h : l₁ ++ l₂ = m₁ ++ m₂)
    (hl₁ : ∀ b ∈ l₁, ¬ le y b) (hl₂ : ∀ b ∈ l₂, le y b) (hm₁ : ∀ b ∈ m₁, ¬ le y b)
    (hm₂ : ∀ b ∈ m₂, le y b) : l₁ = m₁ ∧ l₂ = m₂ := by
  have cut : ∀ s t : List α, (∀ b ∈ s, ¬ le y b) → (∀ b ∈ t, le y b) →
      (s ++ t).takeWhile (fun b => !le y b) = s := by
    intro s t hs ht
    rw [List.takeWhile_append_of_pos (by intro b hb; simpa using hs b hb)]
    cases t with
    | nil => simp
    | cons b t => simp [ht b (List.mem_cons_self ..)]
  have h1 : l₁ = m₁ := by rw [← cut l₁ l₂ hl₁ hl₂, h, cut m₁ m₂ hm₁ hm₂]
  subst h1
  exact ⟨rfl, List.append_cancel_left h⟩

/-- INTERNAL: **a least element comes first.**  If `x` is below everything after it and
everything before it is strictly greater, the stable sort starts with `x`.
The induction is on what stands before `x`. -/
theorem mergeSort_append_cons (trans : ∀ a b c, le a b → le b c → le a c)
    (total : ∀ a b, le a b || le b a) {front back : List α} {x : α}
    (hfront : ∀ y ∈ front, ¬ le y x) (hback : ∀ y ∈ back, le x y) :
    (front ++ x :: back).mergeSort le = x :: (front ++ back).mergeSort le := by
  induction front with
  | nil =>
    obtain ⟨l₁, l₂, h1, h2, h3⟩ := List.mergeSort_cons trans total x back
    have hl₁ : l₁ = [] := by
      rw [List.eq_nil_iff_forall_not_mem]
      intro b hb
      have hmem : b ∈ back := by
        rw [← List.mem_mergeSort, h2]
        exact List.mem_append_left _ hb
      have := h3 b hb
      rw [hback b hmem] at this
      cases this
    subst hl₁
    simpa [h2] using h1
  | cons y front ih =>
    have hyx : ¬ le y x := hfront y (List.mem_cons_self ..)
    have ih' := ih fun z hz => hfront z (List.mem_cons_of_mem _ hz)
    obtain ⟨l₁, l₂, h1, h2, h3⟩ := List.mergeSort_cons trans total y (front ++ x :: back)
    obtain ⟨m₁, m₂, k1, k2, k3⟩ := List.mergeSort_cons trans total y (front ++ back)
    have hs1 := List.pairwise_mergeSort trans total (y :: (front ++ x :: back))
    have hs2 := List.pairwise_mergeSort trans total (y :: (front ++ back))
    rw [h1, List.pairwise_append] at hs1
    rw [k1, List.pairwise_append] at hs2
    have hl₂ : ∀ b ∈ l₂, le y b := (List.pairwise_cons.mp hs1.2.1).1
    have hm₂ : ∀ b ∈ m₂, le y b := (List.pairwise_cons.mp hs2.2.1).1
    rw [h2] at ih'
    cases l₁ with
    | nil =>
      -- then `y` would come before `x`, which is strictly smaller
      rw [List.nil_append] at ih'
      exact absurd (hl₂ x (ih' ▸ List.mem_cons_self ..)) hyx
    | cons z l₁ =>
      rw [List.cons_append, List.cons.injEq] at ih'
      obtain ⟨rfl, hrest⟩ := ih'
      obtain ⟨e1, e2⟩ := append_split_unique (hrest.trans k2)
        (fun b hb => by simpa using h3 b (List.mem_cons_of_mem _ hb)) hl₂
        (fun b hb => by simpa using k3 b hb) hm₂
      rw [List.cons_append, List.cons_append, h1, k1, e1, e2, List.cons_append]

/-- INTERNAL: replacing one of the streams leaves the concatenation before and behind it. -/
theorem flatMap_range_split (streams : ℕ → List α) {m i : ℕ} (hi : i < m) (t : List α) :
    (List.range m).flatMap (Function.update streams i t) =
      (List.range i).flatMap streams ++ t ++
        (List.range' (i + 1) (m - (i + 1))).flatMap streams := by
  have hm : List.range m = List.range i ++ i :: List.range' (i + 1) (m - (i + 1)) := by
    have happ : List.range' 0 i ++ List.range' (0 + i) (m - i) = List.range' 0 (i + (m - i)) :=
      List.range'_append_1
    rw [Nat.zero_add, Nat.add_sub_cancel' hi.le] at happ
    rw [List.range_eq_range', List.range_eq_range', ← happ,
      show m - i = (m - (i + 1)) + 1 by omega, List.range'_succ]
  rw [hm, List.flatMap_append, List.flatMap_cons, Function.update_self, List.append_assoc]
  congr 1
  · refine List.flatMap_congr fun j hj => ?_
    rw [Function.update_of_ne (by have := List.mem_range.mp hj; omega)]
  · congr 1
    refine List.flatMap_congr fun j hj => ?_
    rw [Function.update_of_ne (by have := List.mem_range'_1.mp hj; omega)]

/-- INTERNAL: the streams, one behind the other. -/
def pooled (m : ℕ) (R : ℕ → List α) : List α := (List.range m).flatMap R

/-- INTERNAL: nothing is left in the pool if all streams have ended. -/
theorem pooled_eq_nil {m : ℕ} {R : ℕ → List α} : pooled m R = [] ↔ ∀ i < m, R i = [] := by
  simp [pooled]

/-- INTERNAL: what is in the pool is in a stream. -/
theorem mem_pooled {m : ℕ} {R : ℕ → List α} {x : α} : x ∈ pooled m R ↔ ∃ i < m, x ∈ R i := by
  simp [pooled]

/-- INTERNAL: one more stream comes behind the others. -/
theorem pooled_succ (m : ℕ) (R : ℕ → List α) : pooled (m + 1) R = pooled m R ++ R m := by
  rw [pooled, List.range_succ, List.flatMap_append, List.flatMap_singleton]
  rfl

/-- INTERNAL: the pool has the elements of all streams. -/
theorem length_pooled (m : ℕ) (R : ℕ → List α) :
    (pooled m R).length = ∑ i ∈ Finset.range m, (R i).length := by
  induction m with
  | zero => rfl
  | succ m ih => rw [pooled_succ, List.length_append, ih, Finset.sum_range_succ]

/-- INTERNAL: consecutive blocks of one list, one behind the other. -/
theorem pooled_blocks (l : List α) (size m : ℕ) :
    (pooled m fun i => (l.drop (size * i)).take size) = l.take (size * m) := by
  induction m with
  | zero => rfl
  | succ m ih => rw [pooled_succ, ih, Nat.mul_succ, List.take_add]

/-- INTERNAL: an element is drawn: those of the streams in front and behind stay where they are. -/
theorem pooled_update {m i : ℕ} (R : ℕ → List α) (hi : i < m) {x : α} {t : List α}
    (hx : R i = x :: t) : ∃ front back : List α, pooled m R = front ++ x :: (t ++ back) ∧
      pooled m (Function.update R i t) = front ++ (t ++ back) ∧
      (∀ y ∈ front, ∃ j < i, y ∈ R j) ∧ ∀ y ∈ back, ∃ j, i < j ∧ j < m ∧ y ∈ R j := by
  refine ⟨(List.range i).flatMap R, (List.range' (i + 1) (m - (i + 1))).flatMap R, ?_, ?_, ?_, ?_⟩
  · have hself := flatMap_range_split R hi (x :: t)
    rw [← hx, Function.update_eq_self, hx, List.append_assoc, List.cons_append] at hself
    exact hself
  · rw [pooled, flatMap_range_split R hi t, List.append_assoc]
  · intro y hy
    obtain ⟨j, hj, hyj⟩ := List.mem_flatMap.mp hy
    exact ⟨j, List.mem_range.mp hj, hyj⟩
  · intro y hy
    obtain ⟨j, hj, hyj⟩ := List.mem_flatMap.mp hy
    have hbounds := List.mem_range'_1.mp hj
    exact ⟨j, by omega, by omega, hyj⟩

/-- INTERNAL: every stream is sorted. -/
def SortedStreams (le : α → α → Bool) (m : ℕ) (R : ℕ → List α) : Prop :=
  ∀ i < m, (R i).Pairwise fun a b => le a b

/-- INTERNAL: the choice among the first `k` streams: the first one with a least head. -/
def Least (le : α → α → Bool) (R : ℕ → List α) (k : ℕ) : Option ℕ → Prop
  | none => ∀ j < k, R j = []
  | some m => m < k ∧ ∃ x, (R m).head? = some x ∧
      (∀ j < m, ∀ y, (R j).head? = some y → ¬ le y x) ∧
      (∀ j, m < j → j < k → ∀ y, (R j).head? = some y → le x y)

/-- INTERNAL: taking the least heads one after the other. -/
inductive Draws (le : α → α → Bool) (m : ℕ) : (ℕ → List α) → List α → (ℕ → List α) → Prop
  | nil (R : ℕ → List α) : Draws le m R [] R
  | cons {R R' : ℕ → List α} {i : ℕ} {x : α} {t taken : List α} (hi : Least le R m (some i))
      (hx : R i = x :: t) (rest : Draws le m (Function.update R i t) taken R') :
      Draws le m R (x :: taken) R'

/-- INTERNAL: one comparison of the search for a least head: stream `k` takes the place of
the least stream found so far exactly when its head is strictly smaller. -/
theorem least_succ (trans : ∀ a b c, le a b → le b c → le a c) (total : ∀ a b, le a b || le b a)
    {R : ℕ → List α} {k : ℕ} {min : Option ℕ} (h : Least le R k min) :
    (R k = [] → Least le R (k + 1) min) ∧
    ∀ y, (R k).head? = some y →
      (min = none → Least le R (k + 1) (some k)) ∧
      ∀ m x, min = some m → (R m).head? = some x →
        (¬ le x y → Least le R (k + 1) (some k)) ∧ (le x y → Least le R (k + 1) (some m)) := by
  constructor
  · intro hk
    cases min with
    | none =>
      intro j hj
      rcases Nat.lt_succ_iff_lt_or_eq.mp hj with hlt | rfl
      · exact h j hlt
      · exact hk
    | some m =>
      obtain ⟨hm, x, hx, hbefore, hbehind⟩ := h
      refine ⟨by omega, x, hx, hbefore, ?_⟩
      intro j hmj hj y hy
      rcases Nat.lt_succ_iff_lt_or_eq.mp hj with hlt | rfl
      · exact hbehind j hmj hlt y hy
      · rw [hk] at hy
        cases hy
  · intro y hy
    constructor
    · rintro rfl
      refine ⟨Nat.lt_succ_self k, y, hy, ?_, fun j hkj hj => by omega⟩
      intro j hj z hz
      rw [h j hj] at hz
      cases hz
    · rintro m x rfl hx
      obtain ⟨hm, x', hx', hbefore, hbehind⟩ := h
      obtain rfl : x = x' := Option.some.inj (hx.symm.trans hx')
      constructor
      · intro hxy
        refine ⟨Nat.lt_succ_self k, y, hy, ?_, fun j hkj hj => by omega⟩
        intro j hj z hz hzy
        have hyx : le y x := by
          have := total x y
          simpa [hxy] using this
        have hzx := trans z y x hzy hyx
        rcases lt_trichotomy j m with hlt | rfl | hgt
        · exact hbefore j hlt z hz hzx
        · obtain rfl : x = z := Option.some.inj (hx.symm.trans hz)
          exact hxy hzy
        · exact hxy (trans x z y (hbehind j hgt hj z hz) hzy)
      · intro hxy
        refine ⟨by omega, x, hx, hbefore, ?_⟩
        intro j hmj hj z hz
        rcases Nat.lt_succ_iff_lt_or_eq.mp hj with hlt | rfl
        · exact hbehind j hmj hlt z hz
        · obtain rfl : y = z := Option.some.inj (hy.symm.trans hz)
          exact hxy

/-- INTERNAL: **one selection from sorted streams** takes the first record of their stable
sort. -/
theorem mergeSort_selected (trans : ∀ a b c, le a b → le b c → le a c)
    (total : ∀ a b, le a b || le b a) {m i : ℕ} {R : ℕ → List α} (hR : SortedStreams le m R)
    (hi : Least le R m (some i)) {x : α} {t : List α} (hx : R i = x :: t) :
    (pooled m R).mergeSort le = x :: (pooled m (Function.update R i t)).mergeSort le := by
  obtain ⟨hlt, x', hx', hbefore, hbehind⟩ := hi
  obtain rfl : x' = x := by
    rw [hx] at hx'
    exact (Option.some.inj hx').symm
  -- the head of a sorted stream is below all of it
  have hhead : ∀ j < m, ∀ y ∈ R j, ∃ z, (R j).head? = some z ∧ (le z y ∨ z = y) := by
    intro j hj y hy
    have hsorted := hR j hj
    cases hRj : R j with
    | nil => rw [hRj] at hy; cases hy
    | cons z u =>
      rw [hRj] at hy hsorted
      rcases List.mem_cons.mp hy with rfl | hy
      · exact ⟨y, rfl, Or.inr rfl⟩
      · exact ⟨z, rfl, Or.inl ((List.pairwise_cons.mp hsorted).1 y hy)⟩
  obtain ⟨front, back, hpool, hrest, hfront, hback⟩ := pooled_update R hlt hx
  rw [hpool, hrest]
  apply mergeSort_append_cons trans total
  · intro y hy hle
    obtain ⟨j, hj, hyj⟩ := hfront y hy
    obtain ⟨z, hz, hzy⟩ := hhead j (by omega) y hyj
    rcases hzy with hzy | rfl
    · exact hbefore j hj z hz (trans z y _ hzy hle)
    · exact hbefore j hj z hz hle
  · intro y hy
    rcases List.mem_append.mp hy with hy | hy
    · have hsorted := hR i hlt
      rw [hx] at hsorted
      exact (List.pairwise_cons.mp hsorted).1 y hy
    · obtain ⟨j, hij, hj, hyj⟩ := hback y hy
      obtain ⟨z, hz, hzy⟩ := hhead j hj y hyj
      rcases hzy with hzy | rfl
      · exact trans _ z y (hbehind j hij hj z hz) hzy
      · exact hbehind j hij hj z hz

/-- INTERNAL: a stream stays sorted when its first element is drawn. -/
theorem SortedStreams.update {m i : ℕ} {R : ℕ → List α} (hR : SortedStreams le m R) (hi : i < m)
    {x : α} {t : List α} (hx : R i = x :: t) : SortedStreams le m (Function.update R i t) := by
  intro j hj
  by_cases hji : j = i
  · subst hji
    have hsorted := hR j hi
    rw [hx] at hsorted
    rw [Function.update_self]
    exact (List.pairwise_cons.mp hsorted).2
  · rw [Function.update_of_ne hji]
    exact hR j hj

namespace Draws

variable {m : ℕ} {R R' R'' : ℕ → List α} {taken taken' : List α}

/-- INTERNAL: some draws, and then more. -/
theorem append (h : Draws le m R taken R') (h' : Draws le m R' taken' R'') :
    Draws le m R (taken ++ taken') R'' := by
  induction h with
  | nil R => exact h'
  | cons hi hx _ ih => exact .cons hi hx (ih h')

/-- INTERNAL: nothing is lost or duplicated. -/
theorem perm (h : Draws le m R taken R') : (taken ++ pooled m R').Perm (pooled m R) := by
  induction h with
  | nil R => exact List.Perm.refl _
  | cons hi hx _ ih =>
    obtain ⟨front, back, hpool, hrest, -, -⟩ := pooled_update _ hi.1 hx
    rw [hrest] at ih
    rw [hpool, List.cons_append]
    exact (ih.cons _).trans List.perm_middle.symm

/-- INTERNAL: **from sorted streams the merge draws their stable sort.** -/
theorem mergeSort_eq (trans : ∀ a b c, le a b → le b c → le a c)
    (total : ∀ a b, le a b || le b a) (h : Draws le m R taken R') (hR : SortedStreams le m R) :
    (pooled m R).mergeSort le = taken ++ (pooled m R').mergeSort le := by
  induction h with
  | nil R => rfl
  | cons hi hx _ ih =>
    rw [mergeSort_selected trans total hR hi hx, ih (hR.update hi.1 hx), List.cons_append]

end Draws

end StreamMerge

end ExternalSort.Lib
