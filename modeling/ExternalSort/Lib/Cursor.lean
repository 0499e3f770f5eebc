import Mathlib.Tactic

/-!
# Iterators and the cursor they stand for

An iterator over key-value pairs is known by what it shows and how it moves
(`IteratorOps`).  A move that does not come back is `none`.  The cursor over a list
(`cursorOps`) is the simplest iterator: its state is an index, or `none` when it stands on no
pair.  It refuses to move on or back from there, as the callers of an iterator must.

`Simulates` says that one iterator does whatever another one does.  It carries over whole
sequences of moves (`Simulates.shows`), and an iterator that simulates the cursor over a list is
read from the first pair to the last by the usual loop (`Simulates.scan`).

An iterator that skips pairs stands for the cursor over a filtered list.  `place` is the index
that an index of the list has among the pairs that are kept.
-/

set_option autoImplicit false

namespace ExternalSort.Lib

/-- INTERNAL: the moves of an iterator. -/
inductive Move (K : Type) where
  | seekToFirst
  | seekToLast
  | seek (target : K)
  | next
  | prev
  deriving DecidableEq, Repr

/-- INTERNAL: a move that seeks no key but one of a certain kind. -/
def Move.Within {K : Type} (ok : K → Prop) : Move K → Prop
  | .seek target => ok target
  | _ => True

/-- INTERNAL: an iterator: the pair it stands on, and its moves. -/
structure IteratorOps (σ K V : Type) where
  current : σ → Option (K × V)
  move : Move K → σ → Option σ

section Iterators

variable {σ τ υ K V : Type}

/-- INTERNAL: what is seen after each of some moves. -/
def IteratorOps.shows (m : IteratorOps σ K V) : List (Move K) → σ → Option (List (Option (K × V)))
  | [], _ => some []
  | mv :: moves, s =>
      (m.move mv s).bind fun s' => (m.shows moves s').map (m.current s' :: ·)

/-- INTERNAL: the loop that reads from where an iterator stands to the end. -/
def IteratorOps.readOn (m : IteratorOps σ K V) : ℕ → σ → Option (List (K × V))
  | 0, _ => none
  | fuel + 1, s =>
      match m.current s with
      | none => some []
      | some p => (m.move .next s).bind fun s' => (m.readOn fuel s').map (p :: ·)

/-- INTERNAL: the loop that reads an iterator from its first pair to its last. -/
def IteratorOps.scan (m : IteratorOps σ K V) (fuel : ℕ) (s : σ) : Option (List (K × V)) :=
  (m.move .seekToFirst s).bind (m.readOn fuel)

/-- INTERNAL: `m` does whatever `m'` does, when no key is sought but of a certain kind. -/
structure Simulates (ok : K → Prop) (m : IteratorOps σ K V) (m' : IteratorOps τ K V)
    (R : σ → τ → Prop) : Prop where
  current : ∀ {s t}, R s t → m.current s = m'.current t
  move : ∀ {s t t'} (mv : Move K), mv.Within ok → R s t → m'.move mv t = some t' →
    ∃ s', m.move mv s = some s' ∧ R s' t'

namespace Simulates

variable {ok : K → Prop} {m : IteratorOps σ K V} {m' : IteratorOps τ K V} {R : σ → τ → Prop}

/-- INTERNAL: **every sequence of moves shows the same.** -/
theorem shows (h : Simulates ok m m' R) {moves : List (Move K)}
    (hok : ∀ mv ∈ moves, mv.Within ok) {s : σ} {t : τ} (hst : R s t)
    {seen : List (Option (K × V))} (hseen : m'.shows moves t = some seen) :
    m.shows moves s = some seen := by
  induction moves generalizing s t seen with
  | nil => exact hseen
  | cons mv moves ih =>
    rw [IteratorOps.shows, Option.bind_eq_some_iff] at hseen
    obtain ⟨t', hmove, hrest⟩ := hseen
    rw [Option.map_eq_some_iff] at hrest
    obtain ⟨rest, hrest, rfl⟩ := hrest
    obtain ⟨s', hs, hst'⟩ := h.move mv (hok mv List.mem_cons_self) hst hmove
    rw [IteratorOps.shows, hs, Option.bind_some,
      ih (fun mv' hmv' => hok mv' (List.mem_cons_of_mem mv hmv')) hst' hrest, h.current hst']
    rfl

/-- INTERNAL: the loop that reads to the end reads the same. -/
theorem readOn (h : Simulates ok m m' R) {fuel : ℕ} {s : σ} {t : τ} (hst : R s t)
    {l : List (K × V)} (hl : m'.readOn fuel t = some l) : m.readOn fuel s = some l := by
  induction fuel generalizing s t l with
  | zero => cases hl
  | succ fuel ih =>
    rw [IteratorOps.readOn, h.current hst]
    rw [IteratorOps.readOn] at hl
    cases hp : m'.current t with
    | none =>
      rw [hp] at hl
      exact hl
    | some p =>
      rw [hp] at hl
      obtain ⟨t', hmove, hmap⟩ := Option.bind_eq_some_iff.mp hl
      obtain ⟨rest, hrest, rfl⟩ := Option.map_eq_some_iff.mp hmap
      obtain ⟨s', hs, hst'⟩ := h.move .next trivial hst hmove
      simp only [hs, Option.bind_some, ih hst' hrest, Option.map_some]

end Simulates

/-! ## The cursor over a list -/

/-- INTERNAL: a search depends only on the answers for the elements. -/
theorem findIdx_congr {α : Type} {f g : α → Bool} {l : List α} (h : ∀ a ∈ l, f a = g a) :
    l.findIdx f = l.findIdx g := by
  induction l with
  | nil => rfl
  | cons a l ih =>
    rw [List.findIdx_cons, List.findIdx_cons, h a List.mem_cons_self,
      ih fun b hb => h b (List.mem_cons_of_mem a hb)]

/-- INTERNAL: where the elements to be passed come first, they are the ones in front of the
first that is looked for. -/
theorem lt_findIdx_iff {α : Type} {f : α → Bool} {l : List α}
    (hl : l.Pairwise fun a b => f b = false → f a = false) {i : ℕ} {a : α} (ha : l[i]? = some a) :
    i < l.findIdx f ↔ f a = false := by
  induction l generalizing i with
  | nil => cases ha
  | cons x l ih =>
    obtain ⟨hx, hl⟩ := List.pairwise_cons.mp hl
    rw [List.findIdx_cons]
    cases hfx : f x with
    | true =>
      rw [cond_true]
      cases i with
      | zero =>
        cases ha
        simp [hfx]
      | succ i =>
        have hnot : ¬ f a = false := fun hb => by
          rw [hx a (List.mem_of_getElem? ha) hb] at hfx
          cases hfx
        simp [hnot]
    | false =>
      rw [cond_false]
      cases i with
      | zero =>
        cases ha
        simp [hfx]
      | succ i => rw [Nat.add_lt_add_iff_right, ← ih hl ha]

variable (before : K → K → Bool) (l : List (K × V))

/-- INTERNAL: an index, if there is something at it. -/
def clip (i : ℕ) : Option ℕ := if i < l.length then some i else none

/-- INTERNAL: the index of the first pair whose key is not before the target. -/
def seekIndex (target : K) : ℕ := l.findIdx fun p => !before p.1 target

/-- INTERNAL: the moves of the cursor over a list. -/
def cursorMove : Move K → Option ℕ → Option (Option ℕ)
  | .seekToFirst, _ => some (clip l 0)
  | .seekToLast, _ => some (clip l (l.length - 1))
  | .seek target, _ => some (clip l (seekIndex before l target))
  | .next, p => p.map fun i => clip l (i + 1)
  | .prev, p => p.map fun i => if i = 0 then none else clip l (i - 1)

/-- INTERNAL: the cursor over a list. -/
def cursorOps : IteratorOps (Option ℕ) K V where
  current p := p.bind fun i => l[i]?
  move := cursorMove before l

variable {before l}

/-- INTERNAL: an index inside of the list. -/
theorem clip_of_lt {i : ℕ} (h : i < l.length) : clip l i = some i := if_pos h

/-- INTERNAL: an index behind the list. -/
theorem clip_of_le {i : ℕ} (h : l.length ≤ i) : clip l i = none := if_neg (not_lt.mpr h)

/-- INTERNAL: an index that is there was not changed. -/
theorem clip_eq_some {i j : ℕ} (h : clip l i = some j) : j = i ∧ i < l.length := by
  unfold clip at h
  split_ifs at h with hi
  exact ⟨(Option.some.inj h).symm, hi⟩

/-- INTERNAL: what the cursor shows at an index. -/
theorem current_clip (i : ℕ) : (cursorOps before l).current (clip l i) = l[i]? := by
  unfold clip
  split_ifs with hi
  · rfl
  · exact (List.getElem?_eq_none (not_lt.mp hi)).symm

/-- INTERNAL: from an index on, the cursor reads what is left of the list. -/
theorem readOn_cursor {fuel i : ℕ} (hfuel : l.length - i < fuel) :
    (cursorOps before l).readOn fuel (clip l i) = some (l.drop i) := by
  induction fuel generalizing i with
  | zero => omega
  | succ fuel ih =>
    rw [IteratorOps.readOn, current_clip]
    by_cases hi : i < l.length
    · rw [List.getElem?_eq_getElem hi, clip_of_lt hi]
      have hmove : (cursorOps before l).move .next (some i) = some (clip l (i + 1)) := rfl
      simp only [hmove, Option.bind_some, ih (show l.length - (i + 1) < fuel by omega),
        Option.map_some]
      rw [← List.drop_eq_getElem_cons hi]
    · rw [List.getElem?_eq_none (not_lt.mp hi), List.drop_eq_nil_of_le (not_lt.mp hi)]

/-- INTERNAL: **the loop over an iterator** that stands for the cursor over a list reads this
list. -/
theorem Simulates.scan {ok : K → Prop} {m : IteratorOps σ K V} {R : σ → Option ℕ → Prop}
    (h : Simulates ok m (cursorOps before l) R) {s : σ} {p : Option ℕ} (hs : R s p) {fuel : ℕ}
    (hfuel : l.length < fuel) : m.scan fuel s = some l := by
  obtain ⟨s', hmove, hs'⟩ := h.move .seekToFirst trivial hs rfl
  rw [IteratorOps.scan, hmove, Option.bind_some,
    h.readOn hs' (readOn_cursor (by omega)), List.drop_zero]

end Iterators

/-! ## Places in a filtered list -/

section Place

variable {α : Type} (P : α → Bool) (l : List α)

/-- INTERNAL: how many of the first `i` elements are kept. -/
def place (i : ℕ) : ℕ := ((l.take i).filter P).length

variable {P l}

/-- INTERNAL: in front of the first element nothing is kept. -/
@[simp] theorem place_zero : place P l 0 = 0 := rfl

/-- INTERNAL: behind the last element all that is kept was counted. -/
theorem place_length : place P l l.length = (l.filter P).length := by
  rw [place, List.take_length]

/-- INTERNAL: one element more counts if it is kept. -/
theorem place_succ {i : ℕ} {x : α} (h : l[i]? = some x) :
    place P l (i + 1) = place P l i + if P x then 1 else 0 := by
  rw [place, place, List.take_add_one, h, Option.toList_some, List.filter_append,
    List.length_append]
  by_cases hx : P x = true
  · simp [hx]
  · simp [hx]

/-- INTERNAL: an element that is kept is found at its place. -/
theorem getElem?_filter_place {i : ℕ} {x : α} (h : l[i]? = some x) (hx : P x = true) :
    (l.filter P)[place P l i]? = some x := by
  obtain ⟨hi, rfl⟩ := List.getElem?_eq_some_iff.mp h
  have hsplit : l.filter P = (l.take i).filter P ++ l[i] :: (l.drop (i + 1)).filter P := by
    conv_lhs => rw [← List.take_append_drop i l, List.drop_eq_getElem_cons hi, List.filter_append]
    rw [List.filter_cons_of_pos hx]
  rw [hsplit, place, List.getElem?_append_right le_rfl, Nat.sub_self]
  rfl

/-- INTERNAL: elements that are not kept do not move the place. -/
theorem place_eq_of_none {i j : ℕ} (hij : i ≤ j)
    (h : ∀ c x, i ≤ c → c < j → l[c]? = some x → P x = false) : place P l j = place P l i := by
  induction j, hij using Nat.le_induction with
  | base => rfl
  | succ j hij ih =>
    have hbelow := ih fun c x hic hcj => h c x hic (by omega)
    cases hx : l[j]? with
    | none =>
      have hj := List.getElem?_eq_none_iff.mp hx
      rw [← hbelow, place, place, List.take_of_length_le (by omega), List.take_of_length_le hj]
    | some x => rw [place_succ hx, hbelow, h j x hij (Nat.lt_succ_self j) hx, if_neg (by decide), add_zero]

/-- INTERNAL: if nothing is kept from an index on, its place is the end. -/
theorem place_eq_length {i : ℕ} (h : ∀ c x, i ≤ c → l[c]? = some x → P x = false) :
    place P l i = (l.filter P).length := by
  by_cases hi : i ≤ l.length
  · rw [← place_length, place_eq_of_none hi fun c x hic _ => h c x hic]
  · rw [place, List.take_of_length_le (by omega)]

/-- INTERNAL: a search for the first element of the second part of a list finds it. -/
theorem findIdx_append_of_split {f : α → Bool} {a b : List α} (ha : ∀ x ∈ a, f x = false)
    (hb : ∀ x ∈ b, f x = true) : (a ++ b).findIdx f = a.length := by
  induction a with
  | nil =>
    cases b with
    | nil => rfl
    | cons x b => simp [List.findIdx_cons, hb x (List.mem_cons_self ..)]
  | cons x a ih =>
    rw [List.cons_append, List.findIdx_cons, ha x (List.mem_cons_self ..), cond_false,
      ih fun y hy => ha y (List.mem_cons_of_mem x hy), List.length_cons]

end Place

end ExternalSort.Lib
