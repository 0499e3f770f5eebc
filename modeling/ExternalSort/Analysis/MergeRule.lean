import ExternalSort.Model.MergeRuns

/-!
# A rule for merges that return

`merge_runs` does two things with its iterators: it peeks at them, and it takes a record from
one that it has seen a record of.  `MergeRule` lists what has to be known of a peek and of a
take for an invariant that speaks about a value `g` outside of the program, such as what the
iterators are still to deliver.  Then the invariant holds whenever a merge returns, and what was
written is paid for by the size of `g` (`MergeRule.mergeRuns`).

Nothing here says that a merge returns, or what the comparator does.
-/

set_option autoImplicit false

namespace ExternalSort.Analysis

open ExternalSort.Lib ExternalSort.Model

/-- What a peek and a take do to an invariant.  `Shown g s m` says that iterator `m` shows a
record.
SRCLINE: library.cc:230-250, library.cc:286-289 -/
structure MergeRule {γ : Type} (numRuns : ℕ) (Inv : γ → Session → Prop)
    (Shown : γ → Session → ℕ → Prop) (size : γ → ℕ) : Prop where
  peek : ∀ {g s i}, Inv g s → i < numRuns → Inv g (s.getCurrentRecord i).2
  shown : ∀ {g s i}, Inv g s → i < numRuns → (s.getCurrentRecord i).1.isSome →
    Shown g (s.getCurrentRecord i).2 i
  keep : ∀ {g s i m}, Inv g s → i < numRuns → m < numRuns → Shown g s m →
    Shown g (s.getCurrentRecord i).2 m
  take : ∀ {g s m}, Inv g s → m < numRuns → Shown g s m →
    ∃ g', Inv g' ((s.getCurrentRecord m).2.next m).2 ∧ size g' + 1 ≤ size g

namespace MergeRule

variable {γ : Type} {numRuns : ℕ} {Inv : γ → Session → Prop} {Shown : γ → Session → ℕ → Prop}
  {size : γ → ℕ} {g : γ}

/-- INTERNAL: asking for records peeks.
SRCLINE: library.cc:230-238 -/
theorem iteratorsHaveRecords (rule : MergeRule numRuns Inv Shown size) (is : List ℕ)
    (his : ∀ i ∈ is, i < numRuns) (s : Session) (h : Inv g s) :
    Inv g (Model.iteratorsHaveRecords is s).2 := by
  induction is generalizing s with
  | nil => exact h
  | cons i is ih =>
    have hpeek := rule.peek h (his i (List.mem_cons_self ..))
    unfold Model.iteratorsHaveRecords
    dsimp only
    split_ifs
    · exact hpeek
    · exact ih (fun j hj => his j (List.mem_cons_of_mem _ hj)) _ hpeek

/-- INTERNAL: the selection peeks, and the iterator it finds shows a record.
SRCLINE: library.cc:240-250 -/
theorem getIteratorWithSmallestValue (rule : MergeRule numRuns Inv Shown size) (is : List ℕ)
    (his : ∀ i ∈ is, i < numRuns) (min : Option ℕ) (s : Session) (h : Inv g s)
    (hmin : ∀ m, min = some m → m < numRuns ∧ Shown g s m) {found : Option ℕ} {s' : Session}
    (hfound : Model.getIteratorWithSmallestValue is min s = some (found, s')) :
    Inv g s' ∧ ∀ m, found = some m → m < numRuns ∧ Shown g s' m := by
  induction is generalizing min s with
  | nil =>
    cases hfound
    exact ⟨h, hmin⟩
  | cons i is ih =>
    have hi := his i (List.mem_cons_self ..)
    have hlater : ∀ j ∈ is, j < numRuns := fun j hj => his j (List.mem_cons_of_mem _ hj)
    have hpeek := rule.peek h hi
    have hkept : ∀ m, min = some m → m < numRuns ∧ Shown g (s.getCurrentRecord i).2 m :=
      fun m hm => ⟨(hmin m hm).1, rule.keep h hi (hmin m hm).1 (hmin m hm).2⟩
    unfold Model.getIteratorWithSmallestValue at hfound
    dsimp only at hfound
    cases hcur : (s.getCurrentRecord i).1 with
    | none =>
      rw [hcur] at hfound
      exact ih hlater _ _ hpeek hkept hfound
    | some cur =>
      rw [hcur] at hfound
      have hshown : Shown g (s.getCurrentRecord i).2 i :=
        rule.shown h hi (Option.isSome_iff_exists.mpr ⟨cur, hcur⟩)
      cases min with
      | none =>
        refine ih hlater _ _ hpeek (fun m hm => ?_) hfound
        cases hm
        exact ⟨hi, hshown⟩
      | some m =>
        -- the least record so far is looked at once more
        obtain ⟨hm, hleast⟩ := hkept m rfl
        obtain ⟨v, -, hrest⟩ := Option.bind_eq_some_iff.mp hfound
        refine ih hlater _ _ (rule.peek hpeek hm) (fun m' hm' => ?_) hrest
        cases hm'
        split_ifs
        · exact ⟨hi, rule.keep hpeek hm hi hshown⟩
        · exact ⟨hm, rule.keep hpeek hm hm hleast⟩

/-- INTERNAL: **every record that goes to the buffer is paid for.**
SRCLINE: library.cc:280-290 -/
theorem fillBuffer (rule : MergeRule numRuns Inv Shown size) (recordSize k : ℕ) (st : Filling)
    (g : γ) (h : Inv g st.session) {filled : Filling}
    (hfill : Model.fillBuffer (List.range numRuns) recordSize k st = some filled) :
    ∃ g', Inv g' filled.session ∧
      filled.recordsInBuffer + size g' ≤ st.recordsInBuffer + size g := by
  induction k generalizing st g with
  | zero =>
    cases hfill
    exact ⟨g, h, le_rfl⟩
  | succ k ih =>
    obtain ⟨⟨found, s⟩, hfound, hfill⟩ := Option.bind_eq_some_iff.mp hfill
    obtain ⟨hpeeked, hshown⟩ := rule.getIteratorWithSmallestValue (List.range numRuns)
      (fun i hi => List.mem_range.mp hi) none st.session h (fun m hm => by cases hm) hfound
    cases found with
    | none =>
      cases hfill
      exact ⟨g, hpeeked, le_rfl⟩
    | some m =>
      obtain ⟨hm, hshow⟩ := hshown m rfl
      obtain ⟨g₁, htaken, hpaid⟩ := rule.take hpeeked hm hshow
      obtain ⟨g', hg', hle⟩ := ih ⟨_, _, st.recordsInBuffer + 1⟩ g₁ htaken hfill
      exact ⟨g', hg', by dsimp only at hle; omega⟩

/-- INTERNAL: a round of the merge pays for what it writes.
SRCLINE: library.cc:277-296 -/
theorem mergeRound (rule : MergeRule numRuns Inv Shown size) {recordSize : ℕ} {maxRecords : ℤ}
    {st st' : Merging} (h : Inv g st.session)
    (hround : Model.mergeRound numRuns recordSize maxRecords st = some (.inl st')) :
    ∃ g', Inv g' st'.session ∧
      st'.out.pos + recordSize * size g' ≤ st.out.pos + recordSize * size g := by
  have hasked := rule.iteratorsHaveRecords (List.range numRuns)
    (fun i hi => List.mem_range.mp hi) st.session h
  unfold Model.mergeRound at hround
  dsimp only at hround
  split_ifs at hround
  · obtain ⟨filled, hfill, hround⟩ := Option.map_eq_some_iff.mp hround
    obtain rfl := Sum.inl.inj hround
    obtain ⟨g', hg', hcount⟩ := rule.fillBuffer recordSize maxRecords.toNat _ g hasked hfill
    refine ⟨g', hg', ?_⟩
    have hmul := Nat.mul_le_mul_left recordSize hcount
    have htake := List.length_take_le (recordSize * filled.recordsInBuffer) filled.buf
    rw [Nat.mul_add] at hmul
    simp only [File.fwrite, Nat.zero_add] at hmul ⊢
    omega
  · cases hround

/-- INTERNAL: **a merge that returns** has written no more than was paid for, and has found no
record at the end.
SRCLINE: library.cc:264-297 -/
theorem mergeRuns (rule : MergeRule numRuns Inv Shown size) {fuel : ℕ} {s : Session} (h : Inv g s)
    {out : File} {startPos : ℕ} {buf : List Byte} {bufSize : ℕ} {result : Merging}
    (hrun : Model.mergeRuns fuel s numRuns out startPos buf bufSize = some result) :
    ∃ g' s', Inv g' s' ∧
      Model.iteratorsHaveRecords (List.range numRuns) s' = (false, result.session) ∧
      result.out.pos + (s.iters 0).getRecordSize.toNat * size g' ≤
        startPos + (s.iters 0).getRecordSize.toNat * size g := by
  set width := (s.iters 0).getRecordSize.toNat with hwidth
  unfold Model.mergeRuns at hrun
  dsimp only at hrun
  rw [← hwidth] at hrun
  split_ifs at hrun
  -- the invariant of the loop: the rest is still paid for
  refine loop_invariant (fun st : Merging => ∃ g', Inv g' st.session ∧
      st.out.pos + width * size g' ≤ startPos + width * size g)
    (fun st : Merging => ∃ g' s', Inv g' s' ∧
      Model.iteratorsHaveRecords (List.range numRuns) s' = (false, st.session) ∧
      st.out.pos + width * size g' ≤ startPos + width * size g) ?_ ?_ ⟨g, h, le_rfl⟩ hrun
  · rintro st st' ⟨g₁, hg₁, hle⟩ hround
    obtain ⟨g₂, hg₂, hle'⟩ := rule.mergeRound hg₁ hround
    exact ⟨g₂, hg₂, hle'.trans hle⟩
  · rintro st r ⟨g₁, hg₁, hle⟩ hround
    unfold Model.mergeRound at hround
    dsimp only at hround
    split_ifs at hround with hmore
    · obtain ⟨filled, -, hround⟩ := Option.map_eq_some_iff.mp hround
      cases hround
    · cases hround
      exact ⟨g₁, st.session, hg₁, Prod.ext (Bool.eq_false_iff.mpr hmore) rfl, hle⟩

end MergeRule

section Fuel

variable {s : Session} {numRuns : ℕ} {out : File} {startPos : ℕ} {buf : List Byte} {bufSize : ℕ}
  {fuel fuel' : ℕ} {result result' : Merging}

/-- INTERNAL: more fuel does not change the result of a merge. -/
theorem mergeRuns_mono (hle : fuel ≤ fuel')
    (h : mergeRuns fuel s numRuns out startPos buf bufSize = some result) :
    mergeRuns fuel' s numRuns out startPos buf bufSize = some result := by
  unfold mergeRuns at h ⊢
  dsimp only at h ⊢
  split_ifs at h ⊢
  exact loop_mono hle h

/-- INTERNAL: the result of a merge does not depend on the fuel. -/
theorem mergeRuns_unique (h : mergeRuns fuel s numRuns out startPos buf bufSize = some result)
    (h' : mergeRuns fuel' s numRuns out startPos buf bufSize = some result') :
    result = result' := by
  unfold mergeRuns at h h'
  dsimp only at h h'
  split_ifs at h h'
  exact loop_unique h h'

end Fuel

end ExternalSort.Analysis
