import Mathlib.Order.Lattice
import Mathlib.Tactic

/-!
# Ranges of a linear order

Things that cover a range of keys, from `lo f` to `hi f`.  A thing meets a range of keys or
misses it.  Some things span a range if there is no gap between them in it: a range that they
all miss is in front of it or behind.  What is spanned grows with a thing that meets it
(`Spans.widen`), and what misses all things of a gapless list lies beside all of them
(`Gapless.beside`).
-/

set_option autoImplicit false

namespace ExternalSort.Lib

section Ranges

variable {β α : Type} [LinearOrder α] (lo hi : β → α)

/-- INTERNAL: a thing and a range of keys are not apart. -/
def Meets (f : β) (a b : α) : Prop := lo f ≤ b ∧ a ≤ hi f

/-- INTERNAL: it can be decided whether a thing meets a range. -/
instance (f : β) (a b : α) : Decidable (Meets lo hi f a b) :=
  inferInstanceAs (Decidable (_ ∧ _))

/-- INTERNAL: some things leave no gap in a range. -/
def Spans (S : List β) (A B : α) : Prop :=
  ∀ a b, a ≤ b → (∀ f ∈ S, ¬ Meets lo hi f a b) → b < A ∨ B < a

/-- INTERNAL: there is no gap between some things. -/
def Gapless (S : List β) : Prop := ∃ A B, Spans lo hi S A B ∧ ∀ f ∈ S, Meets lo hi f A B

/-- INTERNAL: a thing lies on one side of some others. -/
def Beside (g : β) (S : List β) : Prop := (∀ f ∈ S, hi f < lo g) ∨ ∀ f ∈ S, hi g < lo f

variable {lo hi} {f g : β} {a b A B : α} {S T : List β}

/-- INTERNAL: a thing that does not meet a range is in front of it or behind. -/
theorem not_meets_iff : ¬ Meets lo hi f a b ↔ hi f < a ∨ b < lo f := by
  rw [Meets, not_and_or, not_le, not_le, or_comm]

/-- INTERNAL: a thing spans its own range. -/
theorem spans_self (hf : f ∈ S) : Spans lo hi S (lo f) (hi f) := by
  intro a b _ hmiss
  exact (not_meets_iff.mp (hmiss f hf)).symm

/-- INTERNAL: more things span no less. -/
theorem Spans.mono (h : Spans lo hi S A B) (hsub : ∀ f ∈ S, f ∈ T) : Spans lo hi T A B :=
  fun a b hab hmiss => h a b hab fun f hf => hmiss f (hsub f hf)

/-- INTERNAL: **what is spanned grows to the left** with a thing that meets it. -/
theorem Spans.widen_left (h : Spans lo hi S A B) (hg : g ∈ S) (hA : A ≤ hi g) :
    Spans lo hi S (lo g) B := by
  intro a b hab hmiss
  rcases h a b hab hmiss with hb | ha
  · left
    rcases not_meets_iff.mp (hmiss g hg) with h' | h'
    · exact absurd (hA.trans_lt h') (hab.trans_lt hb).not_gt
    · exact h'
  · exact Or.inr ha

/-- INTERNAL: **what is spanned grows to the right** with a thing that meets it. -/
theorem Spans.widen_right (h : Spans lo hi S A B) (hg : g ∈ S) (hB : lo g ≤ B) :
    Spans lo hi S A (hi g) := by
  intro a b hab hmiss
  rcases h a b hab hmiss with hb | ha
  · exact Or.inl hb
  · right
    rcases not_meets_iff.mp (hmiss g hg) with h' | h'
    · exact h'
    · exact absurd (h'.trans_le hB) (ha.trans_le hab).not_gt

/-- INTERNAL: what misses all of some things without a gap lies beside them. -/
theorem Gapless.beside (h : Gapless lo hi S) (hg : lo g ≤ hi g)
    (hmiss : ∀ f ∈ S, ¬ Meets lo hi f (lo g) (hi g)) : Beside lo hi g S := by
  obtain ⟨A, B, hspans, hmeets⟩ := h
  rcases hspans _ _ hg hmiss with hlt | hlt
  · right
    intro f hf
    rcases not_meets_iff.mp (hmiss f hf) with h' | h'
    · exact absurd ((hmeets f hf).2.trans_lt h') (hg.trans_lt hlt).not_gt
    · exact h'
  · left
    intro f hf
    rcases not_meets_iff.mp (hmiss f hf) with h' | h'
    · exact h'
    · exact absurd (h'.trans_le (hmeets f hf).1) (hlt.trans_le hg).not_gt

end Ranges

end ExternalSort.Lib
