import ExternalSort.Lib.Cut
import ExternalSort.Model.LevelDb.MergingIterator

/-!
# The merging iterator is a cursor over the merged list

Each child stands for the cursor over a list of its own.  The merging iterator stands for the
cursor over the merged list: the pairs of all children in ascending order.  Moving forward all
children stand behind one cut, moving backward in front of one (`Merged`), so the smallest or
largest key among them is the one behind or in front of this cut in the merged list.  A change
of direction brings all children to the other side of the key shown.

No key may come twice, in one child or in two.
-/

set_option autoImplicit false

namespace ExternalSort.Analysis

open ExternalSort.Lib ExternalSort.Model

/-! ## Loops over the children -/

section ForEach

variable {σ β : Type}

/-- Something holds of each child and its list. -/
structure EachChild (Q : ℕ → σ → β → Prop) (children : List σ) (ls : List β) : Prop where
  length_eq : children.length = ls.length
  holds : ∀ {i s l}, children[i]? = some s → ls[i]? = some l → Q i s l

/-- INTERNAL: all children are moved, each by its own move. -/
theorem forEach_getElem (move : ℕ → σ → Option σ) (children : List σ) (n : ℕ)
    (h : ∀ i s, children[i]? = some s → ∃ s', move (n + i) s = some s') :
    ∃ children', MergingIterator.forEach move n children = some children' ∧
      children'.length = children.length ∧
      ∀ i s s', children[i]? = some s → children'[i]? = some s' → move (n + i) s = some s' := by
  induction children generalizing n with
  | nil => exact ⟨[], rfl, rfl, by simp⟩
  | cons s children ih =>
    obtain ⟨s', hs'⟩ := h 0 s rfl
    have hshift : ∀ i : ℕ, n + 1 + i = n + (i + 1) := fun i => by omega
    obtain ⟨children', hrest, hlen, hall⟩ := ih (n + 1) fun i t ht => by
      rw [hshift]
      exact h (i + 1) t ht
    refine ⟨s' :: children', ?_, by simp [hlen], ?_⟩
    · rw [Nat.add_zero] at hs'
      simp [MergingIterator.forEach, hs', hrest]
    · intro i t t' ht ht'
      cases i with
      | zero =>
        simp only [List.getElem?_cons_zero] at ht ht'
        cases ht
        cases ht'
        exact hs'
      | succ i =>
        rw [← hshift]
        exact hall i t t' ht ht'

/-- INTERNAL: **a loop over the children moves each of them.** -/
theorem EachChild.forEach {Q Q' : ℕ → σ → β → Prop} {move : ℕ → σ → Option σ} {children : List σ}
    {ls : List β} (h : EachChild Q children ls)
    (hmove : ∀ i s l, ls[i]? = some l → Q i s l → ∃ s', move i s = some s' ∧ Q' i s' l) :
    ∃ children', MergingIterator.forEach move 0 children = some children' ∧
      EachChild Q' children' ls := by
  have hlist : ∀ {i s}, children[i]? = some s → ∃ l, ls[i]? = some l := fun hs =>
    ⟨_, List.getElem?_eq_getElem (h.length_eq ▸ (List.getElem?_eq_some_iff.mp hs).1)⟩
  obtain ⟨children', heq, hlen, hall⟩ := forEach_getElem move children 0 fun i s hs => by
    obtain ⟨l, hl⟩ := hlist hs
    obtain ⟨s', hs', -⟩ := hmove i s l hl (h.holds hs hl)
    exact ⟨s', by rwa [Nat.zero_add]⟩
  refine ⟨children', heq, hlen.trans h.length_eq, ?_⟩
  intro i s' l hs' hl
  obtain ⟨s, hs⟩ : ∃ s, children[i]? = some s :=
    ⟨_, List.getElem?_eq_getElem (hlen ▸ (List.getElem?_eq_some_iff.mp hs').1)⟩
  obtain ⟨t, ht, hQ⟩ := hmove i s l hl (h.holds hs hl)
  have heq := hall i s s' hs hs'
  rw [Nat.zero_add, ht] at heq
  exact Option.some.inj heq ▸ hQ

end ForEach

/-! ## The child to show -/

section Pick

variable {σ K V O : Type} [LinearOrder O] {m : IteratorOps σ K V} {cmp : K → K → ℤ} {rank : K → O}
  {wins : ℤ → Bool}

/-- What a search finds: a candidate with the least key, if there are candidates. -/
def IsBest (rank : K → O) (candidates : List (ℕ × K)) : Option (ℕ × K) → Prop
  | none => candidates = []
  | some best => best ∈ candidates ∧ ∀ c ∈ candidates, rank best.2 ≤ rank c.2

/-- INTERNAL: a candidate that is no better than another one does not matter. -/
theorem IsBest.insert {x y : ℕ × K} {candidates others : List (ℕ × K)} {best : Option (ℕ × K)}
    (h : IsBest rank candidates best) (hx : x ∈ candidates) (hxy : rank x.2 ≤ rank y.2)
    (hmem : ∀ c, c ∈ others ↔ c = y ∨ c ∈ candidates) : IsBest rank others best := by
  cases best with
  | none =>
    rw [IsBest] at h
    simp [h] at hx
  | some best =>
    refine ⟨(hmem best).mpr (Or.inr h.1), fun c hc => ?_⟩
    rcases (hmem c).mp hc with rfl | hc
    · exact (h.2 x hx).trans hxy
    · exact h.2 c hc

/-- The keys the children stand on. -/
def candidatesOf (m : IteratorOps σ K V) (children : List (σ × ℕ)) : List (ℕ × K) :=
  children.filterMap fun c => (m.current c.1).map fun p => (c.2, p.1)

/-- INTERNAL: **the search finds the least key**.  The induction is on the children. -/
theorem pick_isBest (hwins : ∀ a b, wins (cmp a b) = true ↔ rank a < rank b)
    (children : List (σ × ℕ)) (found : Option (ℕ × K)) :
    IsBest rank (found.toList ++ candidatesOf m children)
      (MergingIterator.pick m cmp wins children found) := by
  induction children generalizing found with
  | nil => cases found <;> simp [MergingIterator.pick, IsBest, candidatesOf]
  | cons c children ih =>
    obtain ⟨s, i⟩ := c
    rw [MergingIterator.pick]
    cases hs : m.current s with
    | none => simpa [candidatesOf, hs] using ih found
    | some p =>
      obtain ⟨key, v⟩ := p
      have hcands : candidatesOf m ((s, i) :: children) = (i, key) :: candidatesOf m children := by
        simp [candidatesOf, hs]
      rw [hcands]
      cases found with
      | none => exact ih (some (i, key))
      | some f =>
        obtain ⟨j, best⟩ := f
        by_cases hwin : wins (cmp key best) = true
        · simp only [hwin, if_true]
          apply (ih (some (i, key))).insert (x := (i, key)) (y := (j, best))
          · simp
          · exact ((hwins key best).mp hwin).le
          · simp
        · simp only [hwin]
          apply (ih (some (j, best))).insert (x := (j, best)) (y := (i, key))
          · simp
          · exact not_lt.mp ((hwins key best).not.mp hwin)
          · intro c
            simp only [Option.toList_some, List.cons_append, List.nil_append, List.mem_cons]
            tauto

end Pick

/-! ## The merged list -/

section Merge

variable {σ K V O : Type} [LinearOrder O] {ok : K → Prop} {m : IteratorOps σ K V}
  {cmp : K → K → ℤ} {rank : K → O} {R : List (K × V) → σ → Option ℕ → Prop} {ls : List (List (K × V))} {merged : List (K × V)}

/-- Each child stands for the cursor over a list; `merged` has the pairs of all lists in
ascending order, and no key twice. -/
structure Merges (ok : K → Prop) (m : IteratorOps σ K V) (cmp : K → K → ℤ) (rank : K → O)
    (R : List (K × V) → σ → Option ℕ → Prop) (ls : List (List (K × V))) (merged : List (K × V)) :
    Prop where
  represents : Represents cmp rank
  simulates : ∀ l ∈ ls, Simulates ok m (cursorOps (lessBy cmp) l) (R l)
  within : ∀ p ∈ merged, ok p.1
  child : ∀ l ∈ ls, Ascends rank l
  ascends : Ascends rank merged
  perm : merged.Perm ls.flatten

/-- INTERNAL: what is merged is what the children have. -/
theorem Merges.mem_iff (h : Merges ok m cmp rank R ls merged) {p : K × V} :
    p ∈ merged ↔ ∃ l ∈ ls, p ∈ l := by
  rw [h.perm.mem_iff, List.mem_flatten]

/-- INTERNAL: two children have no key in common. -/
theorem Merges.rank_ne (h : Merges ok m cmp rank R ls merged) {i j : ℕ} {l l' : List (K × V)}
    (hl : ls[i]? = some l) (hl' : ls[j]? = some l') (hij : i ≠ j) {p q : K × V} (hp : p ∈ l)
    (hq : q ∈ l') : rank p.1 ≠ rank q.1 := by
  have hne : ls.flatten.Pairwise fun p q => rank p.1 ≠ rank q.1 := by
    rw [← h.perm.pairwise_iff fun hab => hab.symm]
    exact h.ascends.imp fun hab => hab.ne
  have hpair := (List.pairwise_flatten.mp hne).2
  obtain ⟨hi, rfl⟩ := List.getElem?_eq_some_iff.mp hl
  obtain ⟨hj, rfl⟩ := List.getElem?_eq_some_iff.mp hl'
  rcases Nat.lt_or_gt_of_ne hij with hlt | hlt
  · exact List.pairwise_iff_getElem.mp hpair i j hi hj hlt p hp q hq
  · exact (List.pairwise_iff_getElem.mp hpair j i hj hi hlt q hq p hp).symm

/-- INTERNAL: **the child that is picked shows the edge of the merged list**, if each child
shows the edge of its own list. -/
theorem pick_edge {O' : Type} [LinearOrder O'] (rank' : K → O') {wins : ℤ → Bool} (S : K → Bool)
    {children : List σ} {order : List (σ × ℕ)} {e : Option (K × V)}
    (hwins : ∀ a b, wins (cmp a b) = true ↔ rank' a < rank' b)
    (horder : ∀ s i, (s, i) ∈ order ↔ children[i]? = some s)
    (hall : EachChild (fun _ s l => IsEdge rank' S l (m.current s)) children ls)
    (hmem : ∀ p, p ∈ merged ↔ ∃ l ∈ ls, p ∈ l)
    (hdistinct : ∀ p ∈ merged, ∀ q ∈ merged, rank' p.1 = rank' q.1 → p = q)
    (he : IsEdge rank' S merged e) :
    match (MergingIterator.pick m cmp wins order none).map Prod.fst with
    | none => e = none
    | some i => ∃ s l p, children[i]? = some s ∧ ls[i]? = some l ∧ m.current s = some p ∧
        e = some p := by
  have hbest := pick_isBest (m := m) hwins order none
  have hchild : ∀ {p}, p ∈ merged → ∃ (i : ℕ) (s : σ) (l : List (K × V)),
      children[i]? = some s ∧ ls[i]? = some l ∧ p ∈ l := by
    intro p hp
    obtain ⟨l, hl, hpl⟩ := (hmem p).mp hp
    obtain ⟨i, hi⟩ := List.mem_iff_getElem?.mp hl
    exact ⟨i, _, l, List.getElem?_eq_getElem
      (hall.length_eq ▸ (List.getElem?_eq_some_iff.mp hi).1), hi, hpl⟩
  have hcand : ∀ {i : ℕ} {s p}, children[i]? = some s → m.current s = some p →
      (i, p.1) ∈ candidatesOf m order := by
    intro i s p hs hp
    exact List.mem_filterMap.mpr ⟨(s, i), (horder s i).mpr hs, by simp [hp]⟩
  cases hpick : MergingIterator.pick m cmp wins order none with
  | none =>
    rw [hpick] at hbest
    simp only [IsBest, Option.toList_none, List.nil_append] at hbest
    apply he.unique hdistinct
    intro q hq
    obtain ⟨i, s, l, hs, hl, hql⟩ := hchild hq
    have hedge := hall.holds hs hl
    cases hcur : m.current s with
    | none =>
      rw [hcur] at hedge
      exact hedge q hql
    | some p =>
      have := hcand hs hcur
      simp [hbest] at this
  | some best =>
    obtain ⟨i, key⟩ := best
    rw [hpick] at hbest
    obtain ⟨hin, hleast⟩ := hbest
    simp only [Option.toList_none, List.nil_append] at hin hleast
    obtain ⟨⟨s, i'⟩, hsi, hp⟩ := List.mem_filterMap.mp hin
    obtain ⟨p, hcur, hpk⟩ := Option.map_eq_some_iff.mp hp
    cases hpk
    have hs := (horder s i').mp hsi
    obtain ⟨l, hl⟩ : ∃ l, ls[i']? = some l :=
      ⟨_, List.getElem?_eq_getElem (hall.length_eq ▸ (List.getElem?_eq_some_iff.mp hs).1)⟩
    refine ⟨s, l, p, hs, hl, hcur, he.unique hdistinct ?_⟩
    have hedge := hall.holds hs hl
    simp only at hcur
    rw [hcur] at hedge
    refine ⟨(hmem p).mpr ⟨l, List.mem_of_getElem? hl, hedge.1⟩, hedge.2.1, fun q hq hqS => ?_⟩
    obtain ⟨j, t, l', ht, hl', hql⟩ := hchild hq
    have hedge' := hall.holds ht hl'
    cases hcur' : m.current t with
    | none =>
      rw [hcur'] at hedge'
      have := hedge' q hql
      simp [hqS] at this
    | some p' =>
      rw [hcur'] at hedge'
      exact (hleast _ (hcand ht hcur')).trans (hedge'.2.2 q hql hqS)

/-- INTERNAL: moving forward, the child that is picked is on the pair behind the cut. -/
theorem findSmallest_spec (h : Merges ok m cmp rank R ls merged) {P : K → Bool}
    (hP : DownClosed rank P) {children : List σ}
    (hall : EachChild (fun _ s l => R l s (forwardAt P l)) children ls) :
    match MergingIterator.findSmallest m cmp children with
    | none => merged[cut P merged]? = none
    | some i => ∃ s l p, children[i]? = some s ∧ ls[i]? = some l ∧ m.current s = some p ∧
        merged[cut P merged]? = some p := by
  apply pick_edge rank fun k => !P k
  · intro a b
    rw [decide_eq_true_iff, h.represents.neg_iff]
  · exact fun s i => List.mem_zipIdx_iff_getElem?
  · refine ⟨hall.length_eq, fun {i s l} hs hl => ?_⟩
    have hmem := List.mem_of_getElem? hl
    rw [(h.simulates l hmem).current (hall.holds hs hl), current_forwardAt]
    exact isEdge_forward (h.child l hmem) hP
  · exact fun p => h.mem_iff
  · exact fun p hp q hq => h.ascends.eq_of_rank_eq hp hq
  · exact isEdge_forward h.ascends hP

/-- INTERNAL: moving backward, the child that is picked is on the pair in front of the cut. -/
theorem findLargest_spec (h : Merges ok m cmp rank R ls merged) {P : K → Bool}
    (hP : DownClosed rank P) {children : List σ}
    (hall : EachChild (fun _ s l => R l s (backwardAt P l)) children ls) :
    match MergingIterator.findLargest m cmp children with
    | none => (if cut P merged = 0 then none else merged[cut P merged - 1]?) = none
    | some i => ∃ s l p, children[i]? = some s ∧ ls[i]? = some l ∧ m.current s = some p ∧
        (if cut P merged = 0 then none else merged[cut P merged - 1]?) = some p := by
  apply pick_edge (OrderDual.toDual ∘ rank) P
  · intro a b
    rw [decide_eq_true_iff]
    exact h.represents.pos_iff a b
  · intro s i
    rw [List.mem_reverse]
    exact List.mem_zipIdx_iff_getElem?
  · refine ⟨hall.length_eq, fun {i s l} hs hl => ?_⟩
    have hmem := List.mem_of_getElem? hl
    rw [(h.simulates l hmem).current (hall.holds hs hl), current_backwardAt]
    exact isEdge_backward (h.child l hmem) hP
  · exact fun p => h.mem_iff
  · exact fun p hp q hq => h.ascends.eq_of_rank_eq hp hq
  · exact isEdge_backward h.ascends hP

/-- Where the merging iterator stands in the merged list: all children are behind one cut, or
all in front of one. -/
inductive Merged (m : IteratorOps σ K V) (cmp : K → K → ℤ) (rank : K → O)
    (R : List (K × V) → σ → Option ℕ → Prop) (ls : List (List (K × V))) (merged : List (K × V)) :
    MergingIterator σ → Option ℕ → Prop
  | nowhere {children : List σ} {direction : Direction} :
      EachChild (fun _ s l => ∃ q, R l s q) children ls →
      Merged m cmp rank R ls merged ⟨children, none, direction⟩ none
  | forward {children : List σ} {P : K → Bool} : DownClosed rank P →
      EachChild (fun _ s l => R l s (forwardAt P l)) children ls →
      Merged m cmp rank R ls merged
        ⟨children, MergingIterator.findSmallest m cmp children, .forward⟩ (forwardAt P merged)
  | reverse {children : List σ} {P : K → Bool} : DownClosed rank P →
      EachChild (fun _ s l => R l s (backwardAt P l)) children ls →
      Merged m cmp rank R ls merged
        ⟨children, MergingIterator.findLargest m cmp children, .reverse⟩ (backwardAt P merged)

/-- INTERNAL: every child stands somewhere. -/
theorem Merged.each {it : MergingIterator σ} {p : Option ℕ}
    (hs : Merged m cmp rank R ls merged it p) :
    EachChild (fun _ s l => ∃ q, R l s q) it.children ls := by
  cases hs with
  | nowhere hall => exact hall
  | forward _ hall => exact ⟨hall.length_eq, fun hs hl => ⟨_, hall.holds hs hl⟩⟩
  | reverse _ hall => exact ⟨hall.length_eq, fun hs hl => ⟨_, hall.holds hs hl⟩⟩

/-- INTERNAL: the child shown: where it is, and what it shows. -/
theorem Merged.shown (h : Merges ok m cmp rank R ls merged) {it : MergingIterator σ} {p : Option ℕ}
    (hs : Merged m cmp rank R ls merged it p) :
    match it.current with
    | none => (cursorOps (lessBy cmp) merged).current p = none
    | some i => ∃ s l x, it.children[i]? = some s ∧ ls[i]? = some l ∧ m.current s = some x ∧
        (cursorOps (lessBy cmp) merged).current p = some x := by
  cases hs with
  | nowhere => rfl
  | forward hP hall =>
    rw [current_forwardAt]
    exact findSmallest_spec h hP hall
  | reverse hP hall =>
    rw [current_backwardAt]
    exact findLargest_spec h hP hall

/-- INTERNAL: **the merging iterator shows what the cursor shows.**
SRCLINE: leveldb-1.15.0/table/merger.cc:31-33, leveldb-1.15.0/table/merger.cc:114-122 -/
theorem Merged.current_eq (h : Merges ok m cmp rank R ls merged) {it : MergingIterator σ}
    {p : Option ℕ} (hs : Merged m cmp rank R ls merged it p) :
    it.currentPair m = (cursorOps (lessBy cmp) merged).current p := by
  have hshown := hs.shown h
  rw [MergingIterator.currentPair]
  cases hi : it.current with
  | none =>
    rw [hi] at hshown
    simpa using hshown.symm
  | some i =>
    rw [hi] at hshown
    obtain ⟨s, l, x, hsi, -, hcur, heq⟩ := hshown
    simp [hsi, hcur, heq]

/-! ## Moves of the children -/

/-- INTERNAL: a move of a child that its list can follow. -/
theorem Merges.moves (h : Merges ok m cmp rank R ls merged) {i : ℕ} {l : List (K × V)} {s : σ}
    {q q' : Option ℕ} (hl : ls[i]? = some l) (mv : Move K) (hok : mv.Within ok) (hR : R l s q)
    (hmove : cursorMove (lessBy cmp) l mv q = some q') : ∃ s', m.move mv s = some s' ∧ R l s' q' :=
  (h.simulates l (List.mem_of_getElem? hl)).move mv hok hR hmove

/-- INTERNAL: a seek goes to the cut below the target. -/
theorem forwardAt_seek (h : Merges ok m cmp rank R ls merged) (l : List (K × V)) (target : K) :
    clip l (seekIndex (lessBy cmp) l target) = forwardAt (below rank target) l := by
  congr 1
  apply cut_congr (P := fun k => lessBy cmp k target)
  intro p _
  rw [Bool.eq_iff_iff, h.represents.lessBy_iff, below, decide_eq_true_iff]

/-- INTERNAL: a key of one child cuts the list of another one in one way. -/
theorem Merges.cut_other (h : Merges ok m cmp rank R ls merged) {i j : ℕ} {l l' : List (K × V)}
    (hl : ls[i]? = some l) (hl' : ls[j]? = some l') (hij : j ≠ i) {p : K × V} (hp : p ∈ l) :
    cut (upTo rank p.1) l' = cut (below rank p.1) l' := by
  apply cut_congr
  intro q hq
  have hne := h.rank_ne hl hl' hij.symm hp hq
  simp only [upTo, below, decide_eq_decide]
  exact ⟨fun hle => lt_of_le_of_ne hle hne.symm, fun hlt => hlt.le⟩

/-- INTERNAL: the cut behind which a key is the first one, in any of the lists. -/
theorem Merges.cut_first (h : Merges ok m cmp rank R ls merged) {P : K → Bool}
    (hP : DownClosed rank P) {p : K × V} (hp : merged[cut P merged]? = some p) {l : List (K × V)}
    (hl : l ∈ ls) : cut P l = cut (below rank p.1) l := by
  have hedge := isEdge_forward h.ascends hP
  rw [hp] at hedge
  apply cut_congr
  intro q hq
  have hq' := h.mem_iff.mpr ⟨l, hl, hq⟩
  rw [Bool.eq_iff_iff, below, decide_eq_true_iff]
  constructor
  · intro hin
    exact hP.lt hin (by simpa using hedge.2.1)
  · intro hlt
    by_contra hout
    exact absurd hlt (hedge.2.2 q hq' (by simpa using hout)).not_gt

/-- INTERNAL: the cut in front of which a key is the last one, in any of the lists. -/
theorem Merges.cut_last (h : Merges ok m cmp rank R ls merged) {P : K → Bool}
    (hP : DownClosed rank P) {p : K × V}
    (hp : (if cut P merged = 0 then none else merged[cut P merged - 1]?) = some p)
    {l : List (K × V)} (hl : l ∈ ls) : cut P l = cut (upTo rank p.1) l := by
  have hedge := isEdge_backward h.ascends hP
  rw [hp] at hedge
  apply cut_congr
  intro q hq
  have hq' := h.mem_iff.mpr ⟨l, hl, hq⟩
  rw [Bool.eq_iff_iff, upTo, decide_eq_true_iff]
  constructor
  · exact fun hin => hedge.2.2 q hq' hin
  · exact fun hle => hP q.1 p.1 hle hedge.2.1

/-- The child shown is on the pair shown, and the other children are at some position. -/
def Around (R : List (K × V) → σ → Option ℕ → Prop) (i : ℕ) (x : K × V)
    (position : List (K × V) → Option ℕ) (j : ℕ) (s : σ) (l : List (K × V)) : Prop :=
  if j = i then ∃ q, R l s (some q) ∧ l[q]? = some x else R l s (position l)

/-- INTERNAL: a child that shows a pair is on this pair. -/
theorem Merges.onPair (h : Merges ok m cmp rank R ls merged) {l : List (K × V)} (hl : l ∈ ls) {s : σ}
    {p : Option ℕ} {x : K × V} (hR : R l s p) (hcur : m.current s = some x) :
    ∃ q, R l s (some q) ∧ l[q]? = some x := by
  rw [(h.simulates l hl).current hR] at hcur
  cases p with
  | none => cases hcur
  | some q => exact ⟨q, hR, hcur⟩

/-- INTERNAL: the move of the child shown brings it where the others are. -/
theorem moveCurrent_spec (h : Merges ok m cmp rank R ls merged) {children : List σ} {i : ℕ}
    {x : K × V} {position : List (K × V) → Option ℕ} (mv : Move K) (hok : mv.Within ok)
    (hall : EachChild (Around R i x position) children ls)
    (hmove : ∀ l ∈ ls, ∀ q, l[q]? = some x →
      cursorMove (lessBy cmp) l mv (some q) = some (position l)) :
    ∃ children', MergingIterator.moveCurrent m mv i children = some children' ∧
      EachChild (fun _ s l => R l s (position l)) children' ls := by
  apply hall.forEach
  intro j s l hl hs
  rw [Around] at hs
  split_ifs at hs ⊢ with hj
  · obtain ⟨q, hR, hq⟩ := hs
    exact h.moves hl mv hok hR (hmove l (List.mem_of_getElem? hl) q hq)
  · exact ⟨s, rfl, hs⟩

/-- INTERNAL: **a change of direction** brings the other children to the right side. -/
theorem turn_spec {children : List σ} {i : ℕ} {x : K × V} {s₀ : σ}
    {position : List (K × V) → Option ℕ} {place : K → σ → Option σ}
    (h : Merges ok m cmp rank R ls merged) (hs₀ : children[i]? = some s₀)
    (hx : m.current s₀ = some x) (hall : EachChild (fun _ s l => ∃ q, R l s q) children ls)
    (hplace : ∀ j s l q, ls[j]? = some l → j ≠ i → R l s q →
      ∃ s', place x.1 s = some s' ∧ R l s' (position l)) :
    ∃ children', MergingIterator.turn place i x.1 children = some children' ∧
      EachChild (Around R i x position) children' ls := by
  have hstart : EachChild (fun j s l => (∃ q, R l s q) ∧ (j = i → m.current s = some x)) children ls := by
    refine ⟨hall.length_eq, fun {j s l} hs hl => ⟨hall.holds hs hl, ?_⟩⟩
    rintro rfl
    rw [hs₀] at hs
    exact Option.some.inj hs ▸ hx
  apply hstart.forEach
  rintro j s l hl ⟨⟨q, hR⟩, hcur⟩
  simp only [Around]
  split_ifs with hj
  · exact ⟨s, rfl, h.onPair (List.mem_of_getElem? hl) hR (hcur hj)⟩
  · exact hplace j s l q hl hj hR

/-- INTERNAL: without a change of direction the other children are where they have to be. -/
theorem stay_spec {children : List σ} {i : ℕ} {x : K × V} {s₀ : σ}
    {position position' : List (K × V) → Option ℕ}
    (h : Merges ok m cmp rank R ls merged) (hs₀ : children[i]? = some s₀)
    (hx : m.current s₀ = some x) (hall : EachChild (fun _ s l => R l s (position' l)) children ls)
    (hsame : ∀ j l, ls[j]? = some l → j ≠ i → position' l = position l) :
    EachChild (Around R i x position) children ls := by
  refine ⟨hall.length_eq, fun {j s l} hs hl => ?_⟩
  have hR := hall.holds hs hl
  rw [Around]
  split_ifs with hj
  · subst hj
    rw [hs₀] at hs
    cases hs
    exact h.onPair (List.mem_of_getElem? hl) hR hx
  · rwa [← hsame j l hl hj]

/-- INTERNAL: another child is positioned behind the key shown.
SRCLINE: leveldb-1.15.0/table/merger.cc:71-75 -/
theorem placeAfter_spec (h : Merges ok m cmp rank R ls merged) {i j : ℕ} {l l' : List (K × V)}
    {x : K × V} {s : σ} {q : Option ℕ} (hl : ls[i]? = some l) (hx : x ∈ l) (hl' : ls[j]? = some l')
    (hji : j ≠ i) (hR : R l' s q) :
    ∃ s', MergingIterator.placeAfter m cmp x.1 s = some s' ∧ R l' s' (forwardAt (upTo rank x.1) l') := by
  have hok : (Move.seek x.1).Within ok :=
    h.within x (h.mem_iff.mpr ⟨l, List.mem_of_getElem? hl, hx⟩)
  obtain ⟨s', hmove, hR'⟩ := h.moves hl' (.seek x.1) hok hR rfl
  rw [forwardAt_seek h] at hR'
  have hcur := (h.simulates l' (List.mem_of_getElem? hl')).current hR'
  rw [current_forwardAt] at hcur
  have hother : forwardAt (upTo rank x.1) l' = forwardAt (below rank x.1) l' := by
    rw [forwardAt, h.cut_other hl hl' hji hx, forwardAt]
  refine ⟨s', ?_, hother ▸ hR'⟩
  rw [MergingIterator.placeAfter, hmove, Option.bind_some, hcur]
  cases hy : l'[cut (below rank x.1) l']? with
  | none => rfl
  | some y =>
    have hne := h.rank_ne hl hl' hji.symm hx (List.mem_of_getElem? hy)
    simp [h.represents.zero_iff, hne]

/-- INTERNAL: another child is positioned in front of the key shown.
SRCLINE: leveldb-1.15.0/table/merger.cc:97-104 -/
theorem placeBefore_spec (h : Merges ok m cmp rank R ls merged) {j : ℕ} {l' : List (K × V)}
    {x : K × V} {s : σ} {q : Option ℕ} (hx : x ∈ merged) (hl' : ls[j]? = some l') (hR : R l' s q) :
    ∃ s', MergingIterator.placeBefore m x.1 s = some s' ∧
      R l' s' (backwardAt (below rank x.1) l') := by
  obtain ⟨s', hmove, hR'⟩ := h.moves hl' (.seek x.1) (h.within x hx) hR rfl
  rw [forwardAt_seek h] at hR'
  have hcur := (h.simulates l' (List.mem_of_getElem? hl')).current hR'
  rw [current_forwardAt] at hcur
  have hvalid : (m.current s').isSome = (forwardAt (below rank x.1) l').isSome := by
    rw [hcur, forwardAt, clip]
    split_ifs with hlt
    · simp [hlt]
    · simp [List.getElem?_eq_none (not_lt.mp hlt)]
  have hok : (if (forwardAt (below rank x.1) l').isSome then Move.prev else .seekToLast).Within ok := by
    split_ifs <;> trivial
  obtain ⟨s'', hmove', hR''⟩ := h.moves hl' _ hok hR' (cursorMove_turn (lessBy cmp) (below rank x.1))
  refine ⟨s'', ?_, hR''⟩
  rw [MergingIterator.placeBefore, hmove, Option.bind_some, hvalid, ← hmove']
  split_ifs <;> rfl

/-! ## The simulation -/

variable {it : MergingIterator σ}

/-- INTERNAL: a merging iterator on a pair is within the merged list. -/
theorem Merged.valid {j : ℕ} (hs : Merged m cmp rank R ls merged it (some j)) :
    ∃ x, merged[j]? = some x := by
  generalize hp : some j = p at hs
  suffices j < merged.length from ⟨_, List.getElem?_eq_getElem this⟩
  cases hs with
  | nowhere => cases hp
  | forward =>
    obtain ⟨rfl, hlt⟩ := clip_eq_some hp.symm
    exact hlt
  | reverse =>
    rw [backwardAt] at hp
    split_ifs at hp
    obtain ⟨rfl, hlt⟩ := clip_eq_some hp.symm
    exact hlt

/-- INTERNAL: the child shown, when the iterator is valid. -/
theorem Merged.child {j : ℕ} (h : Merges ok m cmp rank R ls merged)
    (hs : Merged m cmp rank R ls merged it (some j)) :
    ∃ i s l x, it.current = some i ∧ it.children[i]? = some s ∧ ls[i]? = some l ∧
      m.current s = some x ∧ x ∈ l ∧ merged[j]? = some x ∧ it.currentPair m = some x := by
  obtain ⟨x, hx⟩ := hs.valid
  have hshown := hs.shown h
  cases hi : it.current with
  | none =>
    rw [hi] at hshown
    have hnone : merged[j]? = none := hshown
    rw [hx] at hnone
    cases hnone
  | some i =>
    rw [hi] at hshown
    obtain ⟨s, l, y, hsi, hl, hcur, hy⟩ := hshown
    have heq : merged[j]? = some y := hy
    obtain ⟨q, hR⟩ := hs.each.holds hsi hl
    obtain ⟨q, -, hq⟩ := h.onPair (List.mem_of_getElem? hl) hR hcur
    exact ⟨i, s, l, y, rfl, hsi, hl, hcur, List.mem_of_getElem? hq, heq,
      (hs.current_eq h).trans hy⟩

/-- INTERNAL: a seek of all children brings each of them to its place. -/
theorem Merged.moveAll (h : Merges ok m cmp rank R ls merged) {p : Option ℕ}
    (hs : Merged m cmp rank R ls merged it p) (mv : Move K) (hok : mv.Within ok)
    (position : List (K × V) → Option ℕ)
    (hmove : ∀ l q, cursorMove (lessBy cmp) l mv q = some (position l)) :
    ∃ children, MergingIterator.forEach (fun _ => m.move mv) 0 it.children = some children ∧
      EachChild (fun _ s l => R l s (position l)) children ls := by
  apply hs.each.forEach
  rintro i s l hl ⟨q, hR⟩
  exact h.moves hl mv hok hR (hmove l q)

/-- INTERNAL: **to the first pair.**
SRCLINE: leveldb-1.15.0/table/merger.cc:35-41 -/
theorem seekToFirst_merged (h : Merges ok m cmp rank R ls merged) {p : Option ℕ}
    (hs : Merged m cmp rank R ls merged it p) :
    ∃ it', it.seekToFirst m cmp = some it' ∧
      Merged m cmp rank R ls merged it' (forwardAt (fun _ => false) merged) := by
  obtain ⟨children, heq, hall⟩ :=
    hs.moveAll h .seekToFirst trivial _ fun l q => cursorMove_seekToFirst (lessBy cmp) q
  refine ⟨_, ?_, .forward (downClosed_const false) hall⟩
  rw [MergingIterator.seekToFirst, heq, Option.map_some]

/-- INTERNAL: **to the last pair.**
SRCLINE: leveldb-1.15.0/table/merger.cc:43-49 -/
theorem seekToLast_merged (h : Merges ok m cmp rank R ls merged) {p : Option ℕ}
    (hs : Merged m cmp rank R ls merged it p) :
    ∃ it', it.seekToLast m cmp = some it' ∧
      Merged m cmp rank R ls merged it' (backwardAt (fun _ => true) merged) := by
  obtain ⟨children, heq, hall⟩ :=
    hs.moveAll h .seekToLast trivial _ fun l q => cursorMove_seekToLast (lessBy cmp) q
  refine ⟨_, ?_, .reverse (downClosed_const true) hall⟩
  rw [MergingIterator.seekToLast, heq, Option.map_some]

/-- INTERNAL: **to a key.**
SRCLINE: leveldb-1.15.0/table/merger.cc:51-57 -/
theorem seek_merged (h : Merges ok m cmp rank R ls merged) {p : Option ℕ} (target : K)
    (hok : ok target) (hs : Merged m cmp rank R ls merged it p) :
    ∃ it', it.seek m cmp target = some it' ∧
      Merged m cmp rank R ls merged it' (forwardAt (below rank target) merged) := by
  obtain ⟨children, heq, hall⟩ := hs.moveAll h (.seek target) hok _ fun l q =>
    congrArg some (forwardAt_seek h l target)
  refine ⟨_, ?_, .forward (downClosed_below target) hall⟩
  rw [MergingIterator.seek, heq, Option.map_some]

/-- INTERNAL: the move forward, with or without a change of direction.
SRCLINE: leveldb-1.15.0/table/merger.cc:59-83 -/
theorem next_merged (h : Merges ok m cmp rank R ls merged) {j : ℕ}
    (hs : Merged m cmp rank R ls merged it (some j)) :
    ∃ it', it.next m cmp = some it' ∧ Merged m cmp rank R ls merged it' (clip merged (j + 1)) := by
  obtain ⟨i, s, l, x, hi, hsi, hl, hcur, hxl, hx, hpair⟩ := hs.child h
  have hturned : ∃ children, (if it.direction ≠ .forward then
      MergingIterator.turn (MergingIterator.placeAfter m cmp) i x.1 it.children
      else some it.children) = some children ∧
      EachChild (Around R i x (forwardAt (upTo rank x.1))) children ls := by
    have hturn := turn_spec h hsi hcur hs.each fun j s l' q hl' hji hR =>
      placeAfter_spec h hl hxl hl' hji hR
    generalize hp : some j = p at hs
    cases hs with
    | nowhere => cases hp
    | reverse => exact hturn
    | @forward children P hP hall =>
      refine ⟨children, if_neg (not_not.mpr rfl), stay_spec h hsi hcur hall fun j l' hl' hji => ?_⟩
      obtain ⟨rfl, -⟩ := clip_eq_some hp.symm
      rw [forwardAt, forwardAt, h.cut_first hP hx (List.mem_of_getElem? hl'),
        h.cut_other hl hl' hji hxl]
  obtain ⟨children, hturn, haround⟩ := hturned
  obtain ⟨children', hmove, hall⟩ := moveCurrent_spec h .next trivial haround fun l hl q hq =>
    cursorMove_next (h.child l hl) _ hq
  have hplace : clip merged (j + 1) = forwardAt (upTo rank x.1) merged := by
    rw [forwardAt, cut_upTo h.ascends hx]
  rw [hplace]
  refine ⟨_, ?_, .forward (downClosed_upTo x.1) hall⟩
  simp only [MergingIterator.next, hi, hpair, hturn, Option.bind_some, hmove, Option.map_some]

/-- INTERNAL: the move backward, with or without a change of direction.
SRCLINE: leveldb-1.15.0/table/merger.cc:85-112 -/
theorem prev_merged (h : Merges ok m cmp rank R ls merged) {j : ℕ}
    (hs : Merged m cmp rank R ls merged it (some j)) :
    ∃ it', it.prev m cmp = some it' ∧
      Merged m cmp rank R ls merged it' (if j = 0 then none else clip merged (j - 1)) := by
  obtain ⟨i, s, l, x, hi, hsi, hl, hcur, hxl, hx, hpair⟩ := hs.child h
  have hturned : ∃ children, (if it.direction ≠ .reverse then
      MergingIterator.turn (MergingIterator.placeBefore m) i x.1 it.children
      else some it.children) = some children ∧
      EachChild (Around R i x (backwardAt (below rank x.1))) children ls := by
    have hturn := turn_spec h hsi hcur hs.each fun j s l' q hl' _ hR =>
      placeBefore_spec h (List.mem_of_getElem? hx) hl' hR
    generalize hp : some j = p at hs
    cases hs with
    | nowhere => cases hp
    | forward => exact hturn
    | @reverse children P hP hall =>
      refine ⟨children, if_neg (not_not.mpr rfl), stay_spec h hsi hcur hall fun j l' hl' hji => ?_⟩
      rw [backwardAt] at hp
      split_ifs at hp with hzero
      obtain ⟨rfl, -⟩ := clip_eq_some hp.symm
      rw [backwardAt, backwardAt, h.cut_last hP (by rw [if_neg hzero, hx])
        (List.mem_of_getElem? hl'), h.cut_other hl hl' hji hxl]
  obtain ⟨children, hturn, haround⟩ := hturned
  obtain ⟨children', hmove, hall⟩ := moveCurrent_spec h .prev trivial haround fun l hl q hq =>
    cursorMove_prev (h.child l hl) _ hq
  have hplace : (if j = 0 then none else clip merged (j - 1)) =
      backwardAt (below rank x.1) merged := by
    rw [backwardAt, cut_below h.ascends hx]
  rw [hplace]
  refine ⟨_, ?_, .reverse (downClosed_below x.1) hall⟩
  simp only [MergingIterator.prev, hi, hpair, hturn, Option.bind_some, hmove, Option.map_some]

/-- INTERNAL: **the merging iterator stands for the cursor over the merged list.**
SRCLINE: leveldb-1.15.0/table/merger.cc:13-184 -/
theorem merging_simulates (h : Merges ok m cmp rank R ls merged) :
    Simulates ok (MergingIterator.ops m cmp) (cursorOps (lessBy cmp) merged)
      (Merged m cmp rank R ls merged) where
  current hs := hs.current_eq h
  move := by
    intro it p p' mv hok hs hmove
    cases mv with
    | seekToFirst =>
      obtain rfl := Option.some.inj ((cursorMove_seekToFirst (lessBy cmp) p).symm.trans hmove)
      exact seekToFirst_merged h hs
    | seekToLast =>
      obtain rfl := Option.some.inj ((cursorMove_seekToLast (lessBy cmp) p).symm.trans hmove)
      exact seekToLast_merged h hs
    | seek target =>
      cases hmove
      rw [forwardAt_seek h]
      exact seek_merged h target hok hs
    | next =>
      obtain ⟨j, rfl, rfl⟩ := Option.map_eq_some_iff.mp hmove
      exact next_merged h hs
    | prev =>
      obtain ⟨j, rfl, rfl⟩ := Option.map_eq_some_iff.mp hmove
      exact prev_merged h hs

/-! ## Any number of children -/

/-- Where the iterator that merges some children stands in the merged list. -/
inductive Combined (m : IteratorOps σ K V) (cmp : K → K → ℤ) (rank : K → O)
    (R : List (K × V) → σ → Option ℕ → Prop) (ls : List (List (K × V))) (merged : List (K × V)) :
    MergedIterator σ → Option ℕ → Prop
  | empty : ls = [] → Combined m cmp rank R ls merged .empty none
  | single {l : List (K × V)} {child : σ} {p : Option ℕ} : ls = [l] → R l child p →
      Combined m cmp rank R ls merged (.single child) p
  | merging {it : MergingIterator σ} {p : Option ℕ} : Merged m cmp rank R ls merged it p →
      Combined m cmp rank R ls merged (.merging it) p

/-- INTERNAL: lists with the same pairs in ascending order are the same. -/
theorem Merges.eq_of_single (h : Merges ok m cmp rank R ls merged) {l : List (K × V)}
    (hl : ls = [l]) : merged = l := by
  have hperm := h.perm
  rw [hl, List.flatten_singleton] at hperm
  refine List.Perm.eq_of_pairwise ?_ h.ascends (h.child l (by simp [hl])) hperm
  exact fun p q _ _ hpq hqp => absurd hpq hqp.not_gt

/-- INTERNAL: **the iterator that merges any number of children stands for the cursor over the
merged list.**
SRCLINE: leveldb-1.15.0/table/merger.cc:186-195 -/
theorem merged_simulates (h : Merges ok m cmp rank R ls merged) :
    Simulates ok (MergedIterator.ops m cmp) (cursorOps (lessBy cmp) merged)
      (Combined m cmp rank R ls merged) where
  current := by
    intro it p hs
    cases hs with
    | empty => rfl
    | single hl hR =>
      rw [h.eq_of_single hl]
      exact (h.simulates _ (by simp [hl])).current hR
    | merging hs => exact hs.current_eq h
  move := by
    intro it p p' mv hok hs hmove
    cases hs with
    | empty hl =>
      have hnil : merged = [] := by
        have hperm := h.perm
        rw [hl] at hperm
        exact hperm.eq_nil
      rw [hnil] at hmove
      cases mv with
      | next => cases hmove
      | prev => cases hmove
      | seekToFirst => exact ⟨.empty, rfl, Option.some.inj hmove ▸ .empty hl⟩
      | seekToLast => exact ⟨.empty, rfl, Option.some.inj hmove ▸ .empty hl⟩
      | seek target => exact ⟨.empty, rfl, Option.some.inj hmove ▸ .empty hl⟩
    | single hl hR =>
      rw [h.eq_of_single hl] at hmove
      obtain ⟨s', hs', hR'⟩ := (h.simulates _ (by simp [hl])).move mv hok hR hmove
      exact ⟨.single s', by simp [MergedIterator.ops, hs'], .single hl hR'⟩
    | merging hs =>
      obtain ⟨it', hit, hs'⟩ := (merging_simulates h).move mv hok hs hmove
      exact ⟨.merging it', by simp [MergedIterator.ops, hit], .merging hs'⟩

/-- INTERNAL: a fresh iterator stands nowhere. -/
theorem newMergingIterator_combined {children : List σ}
    (hall : EachChild (fun _ s l => R l s none) children ls) :
    Combined m cmp rank R ls merged (MergedIterator.newMergingIterator children) none := by
  match children, ls, hall with
  | [], [], _ => exact .empty rfl
  | [s], [l], hall => exact .single rfl (hall.holds (i := 0) rfl rfl)
  | s :: t :: children, ls, hall =>
    exact .merging (.nowhere ⟨hall.length_eq, fun hs hl => ⟨none, hall.holds hs hl⟩⟩)
  | [], l :: ls, hall => simpa using hall.length_eq
  | [s], [], hall => simpa using hall.length_eq
  | [s], l :: l' :: ls, hall => simpa using hall.length_eq

/-! ## Other children that show the same -/

/-- INTERNAL: which child is picked depends on what the children show. -/
theorem pick_congr {m' : IteratorOps σ K V} {wins : ℤ → Bool} {children : List (σ × ℕ)}
    (h : ∀ c ∈ children, m'.current c.1 = m.current c.1) (found : Option (ℕ × K)) :
    MergingIterator.pick m' cmp wins children found =
      MergingIterator.pick m cmp wins children found := by
  induction children generalizing found with
  | nil => rfl
  | cons c children ih =>
    have hrest := ih fun c hc => h c (List.mem_cons_of_mem _ hc)
    simp only [MergingIterator.pick, h c List.mem_cons_self, hrest]

/-- INTERNAL: each child has a list, and what holds of all pairs of them holds of it. -/
theorem EachChild.forall_mem {Q : ℕ → σ → List (K × V) → Prop} {children : List σ} {φ : σ → Prop}
    (hall : EachChild Q children ls) (h : ∀ i s, ∀ l ∈ ls, Q i s l → φ s) :
    ∀ s ∈ children, φ s := by
  intro s hs
  obtain ⟨i, hi, rfl⟩ := List.getElem_of_mem hs
  have hl : i < ls.length := hall.length_eq ▸ hi
  exact h i _ _ (List.getElem_mem hl)
    (hall.holds (List.getElem?_eq_getElem hi) (List.getElem?_eq_getElem hl))

/-- INTERNAL: **where an iterator stands** does not change with children that stand where they did
and show what they did. -/
theorem Combined.congr {m' : IteratorOps σ K V} {R' : List (K × V) → σ → Option ℕ → Prop}
    {it : MergedIterator σ} {p : Option ℕ} (hs : Combined m cmp rank R ls merged it p)
    (h : ∀ l ∈ ls, ∀ s q, R l s q → R' l s q ∧ m'.current s = m.current s) :
    Combined m' cmp rank R' ls merged it p := by
  cases hs with
  | empty hl => exact .empty hl
  | single hl hR => exact .single hl (h _ (by simp [hl]) _ _ hR).1
  | merging hs =>
    refine .merging ?_
    cases hs with
    | nowhere hall =>
      refine .nowhere ⟨hall.length_eq, fun hs hl => ?_⟩
      obtain ⟨q, hR⟩ := hall.holds hs hl
      exact ⟨q, (h _ (List.mem_of_getElem? hl) _ _ hR).1⟩
    | @forward children P hP hall =>
      have hcurrent := hall.forall_mem fun _ s l hl hR => (h l hl s _ hR).2
      have hpick : MergingIterator.findSmallest m' cmp children =
          MergingIterator.findSmallest m cmp children := by
        rw [MergingIterator.findSmallest, MergingIterator.findSmallest,
          pick_congr fun c hc => hcurrent _ (List.fst_mem_of_mem_zipIdx hc)]
      rw [← hpick]
      exact .forward hP ⟨hall.length_eq, fun hs hl =>
        (h _ (List.mem_of_getElem? hl) _ _ (hall.holds hs hl)).1⟩
    | @reverse children P hP hall =>
      have hcurrent := hall.forall_mem fun _ s l hl hR => (h l hl s _ hR).2
      have hpick : MergingIterator.findLargest m' cmp children =
          MergingIterator.findLargest m cmp children := by
        rw [MergingIterator.findLargest, MergingIterator.findLargest,
          pick_congr fun c hc => hcurrent _ (List.fst_mem_of_mem_zipIdx (List.mem_reverse.mp hc))]
      rw [← hpick]
      exact .reverse hP ⟨hall.length_eq, fun hs hl =>
        (h _ (List.mem_of_getElem? hl) _ _ (hall.holds hs hl)).1⟩

end Merge

end ExternalSort.Analysis
