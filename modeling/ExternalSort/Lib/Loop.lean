import Mathlib.Tactic

/-!
# Loops with fuel

`loop step fuel s` runs a loop whose body is `step`: each round either continues with
a new state (`.inl`) or leaves the loop with a result (`.inr`).  A round that does not
come back, and a loop that is given too little fuel, return `none`, so a result
`some r` is a finished run.

* `loop_total`: an invariant and a variant that decreases give a finished run.
* `loop_invariant`: an invariant holds at the end of every finished run.
* `loop_diverges`: an invariant under which every round continues excludes one.
* `loop_mono`: more fuel keeps the result.
-/

set_option autoImplicit false

namespace ExternalSort.Lib

section Loop

variable {σ ρ : Type}

/-- INTERNAL: run the rounds of a loop. -/
def loop (step : σ → Option (σ ⊕ ρ)) : ℕ → σ → Option ρ
  | 0, _ => none
  | fuel + 1, s =>
      match step s with
      | none => none
      | some (.inl s') => loop step fuel s'
      | some (.inr r) => some r

/-- INTERNAL: a round that continues hands the rest of the fuel on. -/
theorem loop_succ_inl {step : σ → Option (σ ⊕ ρ)} {s s' : σ} (h : step s = some (.inl s'))
    (fuel : ℕ) : loop step (fuel + 1) s = loop step fuel s' := by
  simp only [loop, h]

/-- INTERNAL: a round that leaves the loop gives its result. -/
theorem loop_succ_inr {step : σ → Option (σ ⊕ ρ)} {s : σ} {r : ρ} (h : step s = some (.inr r))
    (fuel : ℕ) : loop step (fuel + 1) s = some r := by
  simp only [loop, h]

/-- INTERNAL: a loop whose first round does not come back has no finished run. -/
theorem loop_eq_none {step : σ → Option (σ ⊕ ρ)} {s : σ} (h : step s = none) (fuel : ℕ) :
    loop step fuel s = none := by
  cases fuel with
  | zero => rfl
  | succ fuel => simp only [loop, h]

/-- INTERNAL: **the total rule.**  `I n s` is an invariant with a variant `n`.  If every
round from a state with `I` either continues with a smaller variant or leaves with a
result in `Q`, then fuel above the variant gives a result in `Q`. -/
theorem loop_total {step : σ → Option (σ ⊕ ρ)} (I : ℕ → σ → Prop) (Q : ρ → Prop)
    (hstep : ∀ n s, I n s → (∃ n' s', step s = some (.inl s') ∧ I n' s' ∧ n' < n) ∨
      ∃ r, step s = some (.inr r) ∧ Q r)
    {n : ℕ} {s : σ} (hs : I n s) {fuel : ℕ} (hfuel : n < fuel) :
    ∃ r, loop step fuel s = some r ∧ Q r := by
  induction fuel generalizing n s with
  | zero => omega
  | succ fuel ih =>
    rcases hstep n s hs with ⟨n', s', he, hs', hlt⟩ | ⟨r, he, hr⟩
    · rw [loop_succ_inl he]
      exact ih hs' (by omega)
    · exact ⟨r, loop_succ_inr he fuel, hr⟩

/-- INTERNAL: **the invariant rule.**  What every round preserves holds where a finished
run ends. -/
theorem loop_invariant {step : σ → Option (σ ⊕ ρ)} (I : σ → Prop) (Q : ρ → Prop)
    (hinl : ∀ s s', I s → step s = some (.inl s') → I s')
    (hinr : ∀ s r, I s → step s = some (.inr r) → Q r)
    {s : σ} (hs : I s) {fuel : ℕ} {r : ρ} (h : loop step fuel s = some r) : Q r := by
  induction fuel generalizing s with
  | zero => simp [loop] at h
  | succ fuel ih =>
    cases he : step s with
    | none => simp [loop, he] at h
    | some next =>
      cases next with
      | inl s' =>
        rw [loop_succ_inl he] at h
        exact ih (hinl s s' hs he) h
      | inr r' =>
        rw [loop_succ_inr he] at h
        cases h
        exact hinr s _ hs he

/-- INTERNAL: **the divergence rule.**  A loop whose rounds all continue has no finished
run. -/
theorem loop_diverges {step : σ → Option (σ ⊕ ρ)} (I : σ → Prop)
    (hstep : ∀ s, I s → ∃ s', step s = some (.inl s') ∧ I s') {s : σ} (hs : I s) (fuel : ℕ) :
    loop step fuel s = none := by
  induction fuel generalizing s with
  | zero => rfl
  | succ fuel ih =>
    obtain ⟨s', he, hs'⟩ := hstep s hs
    rw [loop_succ_inl he]
    exact ih hs'

/-- INTERNAL: more fuel keeps the result. -/
theorem loop_mono {step : σ → Option (σ ⊕ ρ)} {s : σ} {fuel fuel' : ℕ} {r : ρ}
    (hle : fuel ≤ fuel') (h : loop step fuel s = some r) : loop step fuel' s = some r := by
  induction fuel generalizing s fuel' with
  | zero => simp [loop] at h
  | succ fuel ih =>
    obtain ⟨fuel', rfl⟩ : ∃ m, fuel' = m + 1 := ⟨fuel' - 1, by omega⟩
    cases he : step s with
    | none => simp [loop, he] at h
    | some next =>
      cases next with
      | inl s' =>
        rw [loop_succ_inl he] at h ⊢
        exact ih (by omega) h
      | inr r' =>
        rw [loop_succ_inr he] at h ⊢
        exact h

/-- INTERNAL: all finished runs of a loop have the same result. -/
theorem loop_unique {step : σ → Option (σ ⊕ ρ)} {s : σ} {fuel fuel' : ℕ} {r r' : ρ}
    (h : loop step fuel s = some r) (h' : loop step fuel' s = some r') : r = r' := by
  have h1 := loop_mono (Nat.le_max_left fuel fuel') h
  have h2 := loop_mono (Nat.le_max_right fuel fuel') h'
  exact Option.some.inj (h1.symm.trans h2)

end Loop

end ExternalSort.Lib
