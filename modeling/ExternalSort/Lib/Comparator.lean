import Mathlib.Order.Basic
import Mathlib.Tactic

/-!
# Comparison functions

A C comparison function gives a negative, zero or positive number.  `Represents cmp rank`
says that it compares the ranks of its arguments in a linear order, so that every fact about
the function is one about this order.
-/

set_option autoImplicit false

namespace ExternalSort.Lib

section Comparator

variable {K α : Type} [LinearOrder α]

/-- INTERNAL: a comparison function compares ranks. -/
structure Represents (cmp : K → K → ℤ) (rank : K → α) : Prop where
  neg_iff : ∀ a b, cmp a b < 0 ↔ rank a < rank b
  zero_iff : ∀ a b, cmp a b = 0 ↔ rank a = rank b

/-- INTERNAL: the test a comparison function stands for. -/
def lessBy (cmp : K → K → ℤ) (a b : K) : Bool := decide (cmp a b < 0)

variable {cmp : K → K → ℤ} {rank : K → α}

/-- INTERNAL: less by the comparator is less by rank. -/
theorem Represents.lessBy_iff (h : Represents cmp rank) (a b : K) :
    lessBy cmp a b = true ↔ rank a < rank b := by
  rw [lessBy, decide_eq_true_iff, h.neg_iff]

/-- INTERNAL: a positive result says greater. -/
theorem Represents.pos_iff (h : Represents cmp rank) (a b : K) :
    0 < cmp a b ↔ rank b < rank a := by
  have hneg := h.neg_iff a b
  have hzero := h.zero_iff a b
  constructor
  · intro hpos
    rcases lt_trichotomy (rank a) (rank b) with hlt | heq | hgt
    · exact absurd (hneg.mpr hlt) (by omega)
    · exact absurd (hzero.mpr heq) (by omega)
    · exact hgt
  · intro hgt
    have h1 : ¬ cmp a b < 0 := fun h => absurd (hneg.mp h) hgt.not_gt
    have h2 : cmp a b ≠ 0 := fun h => absurd (hzero.mp h) hgt.ne'
    omega

/-- INTERNAL: a result that is not positive says not greater. -/
theorem Represents.nonpos_iff (h : Represents cmp rank) (a b : K) :
    cmp a b ≤ 0 ↔ rank a ≤ rank b := by
  rw [← not_lt, h.pos_iff, not_lt]

/-- INTERNAL: what is said about two ranks can be said about their images. -/
theorem Represents.comp {J : Type} (h : Represents cmp rank) (f : J → K) :
    Represents (fun a b => cmp (f a) (f b)) (rank ∘ f) where
  neg_iff a b := h.neg_iff (f a) (f b)
  zero_iff a b := h.zero_iff (f a) (f b)

end Comparator

end ExternalSort.Lib
