import ExternalSort.Lib.Comparator
import ExternalSort.Lib.Cursor

/-!
# Cuts of a sorted list

A downward closed set of keys cuts a sorted list in two.  A cursor that moves forward stands on
the first pair behind a cut, one that moves backward on the last pair in front of it
(`forwardAt`, `backwardAt`), and each move of a cursor leads from a cut to another one.  This
says where a cursor is without naming an index, so several cursors over different lists can
stand at the same cut.
-/

set_option autoImplicit false

namespace ExternalSort.Lib

variable {K V O : Type} [LinearOrder O]

/-- INTERNAL: a set of keys that has with a key all smaller ones. -/
def DownClosed (rank : K → O) (P : K → Bool) : Prop :=
  ∀ a b, rank a ≤ rank b → P b = true → P a = true

/-- INTERNAL: the keys of a list ascend. -/
def Ascends (rank : K → O) (l : List (K × V)) : Prop :=
  l.Pairwise fun p q => rank p.1 < rank q.1

/-- INTERNAL: how many pairs of a list lie in front of a cut. -/
def cut (P : K → Bool) (l : List (K × V)) : ℕ := l.findIdx fun p => !P p.1

/-- INTERNAL: where a cursor stands behind a cut. -/
def forwardAt (P : K → Bool) (l : List (K × V)) : Option ℕ := clip l (cut P l)

/-- INTERNAL: where a cursor stands in front of a cut. -/
def backwardAt (P : K → Bool) (l : List (K × V)) : Option ℕ :=
  if cut P l = 0 then none else clip l (cut P l - 1)

/-- INTERNAL: the cut in front of a key. -/
def below (rank : K → O) (k x : K) : Bool := decide (rank x < rank k)

/-- INTERNAL: the cut behind a key. -/
def upTo (rank : K → O) (k x : K) : Bool := decide (rank x ≤ rank k)

variable {rank : K → O} {P Q : K → Bool} {l : List (K × V)} {i : ℕ} {p : K × V} {k : K}

/-- INTERNAL: the keys below a key are closed downwards. -/
theorem downClosed_below (k : K) : DownClosed rank (below rank k) := by
  intro a b hab hb
  simp only [below, decide_eq_true_eq] at hb ⊢
  exact hab.trans_lt hb

/-- INTERNAL: the keys up to a key are closed downwards. -/
theorem downClosed_upTo (k : K) : DownClosed rank (upTo rank k) := by
  intro a b hab hb
  simp only [upTo, decide_eq_true_eq] at hb ⊢
  exact hab.trans hb

/-- INTERNAL: all keys are closed downwards, and so are none. -/
theorem downClosed_const (b : Bool) : DownClosed rank fun _ => b := fun _ _ _ h => h

/-- INTERNAL: a key inside of a set that is closed downwards lies below one outside. -/
theorem DownClosed.lt (hP : DownClosed rank P) {a b : K} (ha : P a = true) (hb : P b = false) :
    rank a < rank b := by
  by_contra hle
  rw [hP b a (not_lt.mp hle) ha] at hb
  cases hb

/-- INTERNAL: the rank grows with the index. -/
theorem Ascends.rank_lt (hl : Ascends rank l) {j : ℕ} {q : K × V} (hp : l[i]? = some p)
    (hq : l[j]? = some q) (hij : i < j) : rank p.1 < rank q.1 := by
  obtain ⟨hi, rfl⟩ := List.getElem?_eq_some_iff.mp hp
  obtain ⟨hj, rfl⟩ := List.getElem?_eq_some_iff.mp hq
  exact List.pairwise_iff_getElem.mp hl i j hi hj hij

/-- INTERNAL: a list is cut at its end at the latest. -/
theorem cut_le_length : cut P l ≤ l.length := List.findIdx_le_length

/-- INTERNAL: **the pairs in front of a cut** are those with a key in the set. -/
theorem lt_cut_iff (hl : Ascends rank l) (hP : DownClosed rank P) (hp : l[i]? = some p) :
    i < cut P l ↔ P p.1 = true := by
  rw [cut, lt_findIdx_iff _ hp, Bool.not_eq_false']
  apply hl.imp
  intro a b hab hb
  rw [Bool.not_eq_false'] at hb ⊢
  exact hP a.1 b.1 hab.le hb

/-- INTERNAL: where a list is cut depends only on its own keys. -/
theorem cut_congr (h : ∀ p ∈ l, P p.1 = Q p.1) : cut P l = cut Q l :=
  findIdx_congr fun p hp => by rw [h p hp]

/-- INTERNAL: where a list is cut does not depend on the values. -/
theorem cut_map {W : Type} (f : K × V → W) :
    cut P (l.map fun p => (p.1, f p)) = cut P l := by
  rw [cut, List.findIdx_map]
  rfl

/-- INTERNAL: nothing is cut off in front of a list. -/
theorem cut_false : cut (fun _ => false) l = 0 := by
  cases l with
  | nil => rfl
  | cons p l => simp [cut, List.findIdx_cons]

/-- INTERNAL: the whole list is cut off. -/
theorem cut_true : cut (fun _ => true) l = l.length := by
  induction l with
  | nil => rfl
  | cons p l ih =>
    simp only [cut, List.findIdx_cons] at ih ⊢
    simp

/-- INTERNAL: a cut between two pairs that follow each other, or before the first pair. -/
theorem cut_eq (hl : Ascends rank l) (hP : DownClosed rank P) (hp : l[i]? = some p)
    (hout : P p.1 = false) (hin : ∀ j q, j < i → l[j]? = some q → P q.1 = true) :
    cut P l = i := by
  have hle : ¬ i < cut P l := by simp [lt_cut_iff hl hP hp, hout]
  have hi := (List.getElem?_eq_some_iff.mp hp).1
  by_contra hne
  have hlt : cut P l < i := by omega
  have hq := List.getElem?_eq_getElem (hlt.trans hi)
  have := (lt_cut_iff hl hP hq).mpr (hin _ _ hlt hq)
  omega

/-- INTERNAL: cut below a key of the list. -/
theorem cut_below (hl : Ascends rank l) (hp : l[i]? = some p) : cut (below rank p.1) l = i := by
  apply cut_eq hl (downClosed_below p.1) hp
  · simp [below]
  · intro j q hji hq
    simpa [below] using hl.rank_lt hq hp hji

/-- INTERNAL: cut behind a key of the list. -/
theorem cut_upTo (hl : Ascends rank l) (hp : l[i]? = some p) : cut (upTo rank p.1) l = i + 1 := by
  have hi : i < cut (upTo rank p.1) l :=
    (lt_cut_iff hl (downClosed_upTo p.1) hp).mpr (by simp [upTo])
  by_contra hne
  have hlt : i + 1 < cut (upTo rank p.1) l := by omega
  have hq := List.getElem?_eq_getElem (hlt.trans_le cut_le_length)
  have hle := (lt_cut_iff hl (downClosed_upTo p.1) hq).mp hlt
  simp only [upTo, decide_eq_true_eq] at hle
  exact absurd (hl.rank_lt hp hq (Nat.lt_succ_self i)) hle.not_gt

/-! ## The moves of a cursor -/

/-- INTERNAL: the first pair is the one behind an empty cut. -/
theorem cursorMove_seekToFirst (before : K → K → Bool) (q : Option ℕ) :
    cursorMove before l .seekToFirst q = some (forwardAt (fun _ => false) l) := by
  rw [forwardAt, cut_false]
  rfl

/-- INTERNAL: the last pair is the one in front of the cut behind the list. -/
theorem cursorMove_seekToLast (before : K → K → Bool) (q : Option ℕ) :
    cursorMove before l .seekToLast q = some (backwardAt (fun _ => true) l) := by
  rw [backwardAt, cut_true, cursorMove]
  split_ifs with h
  · rw [clip_of_le (by omega)]
  · rfl

/-- INTERNAL: the next pair is the one behind the cut behind a key. -/
theorem cursorMove_next (hl : Ascends rank l) (before : K → K → Bool) (hp : l[i]? = some p) :
    cursorMove before l .next (some i) = some (forwardAt (upTo rank p.1) l) := by
  rw [forwardAt, cut_upTo hl hp]
  rfl

/-- INTERNAL: the pair before is the one in front of the cut below a key. -/
theorem cursorMove_prev (hl : Ascends rank l) (before : K → K → Bool) (hp : l[i]? = some p) :
    cursorMove before l .prev (some i) = some (backwardAt (below rank p.1) l) := by
  rw [backwardAt, cut_below hl hp]
  rfl

/-- INTERNAL: from behind a cut to the front of it: a step back, or the last pair. -/
theorem cursorMove_turn (before : K → K → Bool) (P : K → Bool) :
    cursorMove before l (if (forwardAt P l).isSome then .prev else .seekToLast) (forwardAt P l) =
      some (backwardAt P l) := by
  by_cases h : cut P l < l.length
  · rw [forwardAt, clip_of_lt h]
    rfl
  · have hcut : cut P l = l.length := le_antisymm cut_le_length (not_lt.mp h)
    rw [forwardAt, clip_of_le (not_lt.mp h), backwardAt, hcut]
    simp only [Option.isSome_none, Bool.false_eq_true, if_false, cursorMove]
    split_ifs with hzero
    · rw [clip_of_le (by omega)]
    · rfl

/-! ## What a cursor sees at a cut -/

/-- INTERNAL: the pair behind a cut. -/
theorem current_forwardAt (before : K → K → Bool) :
    (cursorOps before l).current (forwardAt P l) = l[cut P l]? := current_clip _

/-- INTERNAL: the pair in front of a cut. -/
theorem current_backwardAt (before : K → K → Bool) :
    (cursorOps before l).current (backwardAt P l) =
      if cut P l = 0 then none else l[cut P l - 1]? := by
  rw [backwardAt]
  split_ifs
  · rfl
  · exact current_clip _

/-- INTERNAL: the least of the pairs of a list with a key in a set, if there is one. -/
def IsEdge (rank : K → O) (S : K → Bool) (l : List (K × V)) : Option (K × V) → Prop
  | none => ∀ q ∈ l, S q.1 = false
  | some p => p ∈ l ∧ S p.1 = true ∧ ∀ q ∈ l, S q.1 = true → rank p.1 ≤ rank q.1

/-- INTERNAL: where keys are distinct, there is one edge. -/
theorem IsEdge.unique {S : K → Bool} {e e' : Option (K × V)}
    (hl : ∀ p ∈ l, ∀ q ∈ l, rank p.1 = rank q.1 → p = q) (h : IsEdge rank S l e)
    (h' : IsEdge rank S l e') : e = e' := by
  cases e with
  | none =>
    cases e' with
    | none => rfl
    | some q =>
      rw [IsEdge] at h
      exact absurd h'.2.1 (by simp [h q h'.1])
  | some p =>
    cases e' with
    | none =>
      rw [IsEdge] at h'
      exact absurd h.2.1 (by simp [h' p h.1])
    | some q =>
      rw [hl p h.1 q h'.1 (le_antisymm (h.2.2 q h'.1 h'.2.1) (h'.2.2 p h.1 h.2.1))]

/-- INTERNAL: a rank names a pair of the list. -/
theorem Ascends.eq_of_rank_eq (hl : Ascends rank l) {q : K × V} (hp : p ∈ l) (hq : q ∈ l)
    (hrank : rank p.1 = rank q.1) : p = q := by
  obtain ⟨i, hi⟩ := List.mem_iff_getElem?.mp hp
  obtain ⟨j, hj⟩ := List.mem_iff_getElem?.mp hq
  rcases lt_trichotomy i j with hij | rfl | hij
  · exact absurd hrank (hl.rank_lt hi hj hij).ne
  · rw [hi] at hj
    exact Option.some.inj hj
  · exact absurd hrank (hl.rank_lt hj hi hij).ne'

/-- INTERNAL: behind a cut stands the least pair that is not in front. -/
theorem isEdge_forward (hl : Ascends rank l) (hP : DownClosed rank P) :
    IsEdge rank (fun k => !P k) l l[cut P l]? := by
  cases hp : l[cut P l]? with
  | none =>
    intro q hq
    obtain ⟨j, hj⟩ := List.mem_iff_getElem?.mp hq
    have hlen := List.getElem?_eq_none_iff.mp hp
    have hlt := (List.getElem?_eq_some_iff.mp hj).1
    simpa using (lt_cut_iff hl hP hj).mp (by omega)
  | some p =>
    have hout : ¬ P p.1 = true := (lt_cut_iff hl hP hp).not.mp (lt_irrefl _)
    refine ⟨List.mem_of_getElem? hp, by simpa using hout, fun q hq hqout => ?_⟩
    obtain ⟨j, hj⟩ := List.mem_iff_getElem?.mp hq
    have hle : ¬ j < cut P l := by simpa [lt_cut_iff hl hP hj] using hqout
    rcases (not_lt.mp hle).eq_or_lt with heq | hlt
    · rw [heq, hj] at hp
      cases hp
      exact le_rfl
    · exact (hl.rank_lt hp hj hlt).le

/-- INTERNAL: in front of a cut stands the greatest pair that is not behind. -/
theorem isEdge_backward (hl : Ascends rank l) (hP : DownClosed rank P) :
    IsEdge (OrderDual.toDual ∘ rank) P l (if cut P l = 0 then none else l[cut P l - 1]?) := by
  split_ifs with hzero
  · intro q hq
    obtain ⟨j, hj⟩ := List.mem_iff_getElem?.mp hq
    simpa using (lt_cut_iff hl hP hj).not.mp (by omega)
  · have hlt : cut P l - 1 < l.length := by
      have := cut_le_length (P := P) (l := l)
      omega
    obtain ⟨p, hp⟩ : ∃ p, l[cut P l - 1]? = some p := ⟨_, List.getElem?_eq_getElem hlt⟩
    rw [hp]
    refine ⟨List.mem_of_getElem? hp, (lt_cut_iff hl hP hp).mp (by omega), fun q hq hqin => ?_⟩
    obtain ⟨j, hj⟩ := List.mem_iff_getElem?.mp hq
    have hjlt := (lt_cut_iff hl hP hj).mpr hqin
    rcases (show j ≤ cut P l - 1 by omega).eq_or_lt with heq | hlt'
    · rw [← heq, hj] at hp
      cases hp
      exact le_rfl
    · exact (hl.rank_lt hj hp hlt').le

end ExternalSort.Lib
