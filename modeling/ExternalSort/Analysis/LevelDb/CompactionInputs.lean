import ExternalSort.Analysis.LevelDb.Version
import ExternalSort.Model.LevelDb.Compaction

/-!
# The tables of a compaction

Whatever table a compaction begins with, there is no gap between the tables it takes.  On level 0
it takes every table that overlaps one it has, and of the next level all that overlap those.  So
every other table of the next level lies beside all tables of the compaction.
-/

set_option autoImplicit false

namespace ExternalSort.Analysis

open ExternalSort.Lib ExternalSort.Model

/-- The levels of a version from 1 on are sorted. -/
structure LevelsSorted (v : Version) : Prop where
  bounds : ∀ level, ∀ f ∈ v.files level, FileBounds f
  apart : ∀ level, 0 < level → (v.files level).Pairwise fun f g => hi f < lo g

/-- INTERNAL: a level from 1 on is sorted. -/
theorem LevelsSorted.sortedLevel {v : Version} (h : LevelsSorted v) {level : ℕ} (hl : 0 < level) :
    SortedLevel (v.files level) := ⟨h.bounds level, h.apart level hl⟩

/-! ## The range of some tables -/

/-- The ends of some tables. -/
structure RangeOf (files : List FileMetaData) (range : List Byte × List Byte) : Prop where
  low : ∃ f ∈ files, f.smallest = range.1
  high : ∃ f ∈ files, f.largest = range.2
  low_le : ∀ f ∈ files, internalRank range.1 ≤ internalRank f.smallest
  le_high : ∀ f ∈ files, internalRank f.largest ≤ internalRank range.2

section Range

variable {files : List FileMetaData} {range : List Byte × List Byte} {f : FileMetaData}

/-- INTERNAL: the range of one more table. -/
theorem RangeOf.widen (h : RangeOf files range) (f : FileMetaData) :
    RangeOf (files ++ [f]) (Compaction.widenRange range f) := by
  have hneg := internalKeyCompare_represents.neg_iff f.smallest range.1
  have hpos := internalKeyCompare_represents.pos_iff f.largest range.2
  obtain ⟨g, hg, hlow⟩ := h.low
  obtain ⟨k, hk, hhigh⟩ := h.high
  have hmem : f ∈ files ++ [f] := by simp
  simp only [Compaction.widenRange, gt_iff_lt, hneg, hpos]
  refine ⟨?_, ?_, fun x hx => ?_, fun x hx => ?_⟩ <;> dsimp only
  · split_ifs
    · exact ⟨f, hmem, rfl⟩
    · exact ⟨g, List.mem_append_left _ hg, hlow⟩
  · split_ifs
    · exact ⟨f, hmem, rfl⟩
    · exact ⟨k, List.mem_append_left _ hk, hhigh⟩
  · rcases List.mem_append.mp hx with hx | hx
    · split_ifs with hlt
      · exact hlt.le.trans (h.low_le x hx)
      · exact h.low_le x hx
    · rw [List.mem_singleton.mp hx]
      split_ifs with hlt
      · exact le_rfl
      · exact not_lt.mp hlt
  · rcases List.mem_append.mp hx with hx | hx
    · split_ifs with hlt
      · exact (h.le_high x hx).trans hlt.le
      · exact h.le_high x hx
    · rw [List.mem_singleton.mp hx]
      split_ifs with hlt
      · exact le_rfl
      · exact not_lt.mp hlt

/-- INTERNAL: **the range of some tables** goes from their least key to their greatest.
SRCLINE: leveldb-1.15.0/db/version_set.cc:1190-1210 -/
theorem rangeOf_getRange (hne : files ≠ []) : RangeOf files (Compaction.getRange files) := by
  obtain ⟨f, rest, rfl⟩ := List.exists_cons_of_ne_nil hne
  have hfold : ∀ (rest seen : List FileMetaData) range, RangeOf seen range →
      RangeOf (seen ++ rest) (rest.foldl Compaction.widenRange range) := by
    intro rest
    induction rest with
    | nil => exact fun seen range h => by simpa using h
    | cons g rest ih =>
      intro seen range h
      simpa using ih (seen ++ [g]) _ (h.widen g)
  apply hfold rest [f]
  exact ⟨⟨f, by simp, rfl⟩, ⟨f, by simp, rfl⟩, by simp, by simp⟩

/-- The user keys from the least to the greatest of some tables. -/
structure Hull (files : List FileMetaData) (a b : List Byte) : Prop where
  low : ∃ f ∈ files, lo f = a
  high : ∃ f ∈ files, hi f = b
  low_le : ∀ f ∈ files, a ≤ lo f
  le_high : ∀ f ∈ files, hi f ≤ b

/-- INTERNAL: the user keys at the ends of some tables. -/
theorem hull_getRange (hne : files ≠ []) :
    Hull files (extractUserKey (Compaction.getRange files).1)
      (extractUserKey (Compaction.getRange files).2) := by
  have h := rangeOf_getRange hne
  obtain ⟨f, hf, hlow⟩ := h.low
  obtain ⟨g, hg, hhigh⟩ := h.high
  exact ⟨⟨f, hf, congrArg extractUserKey hlow⟩, ⟨g, hg, congrArg extractUserKey hhigh⟩,
    fun x hx => userKey_le_of_rank_le (h.low_le x hx),
    fun x hx => userKey_le_of_rank_le (h.le_high x hx)⟩

/-- INTERNAL: each of some tables meets the range from the first to the last. -/
theorem Hull.meets {a b : List Byte} (h : Hull files a b) (hf : f ∈ files) (hrange : lo f ≤ hi f) :
    Meets lo hi f a b :=
  ⟨hrange.trans (h.le_high f hf), (h.low_le f hf).trans hrange⟩

/-- INTERNAL: tables that meet what some things span are spanned with them. -/
theorem Hull.spans {a b A B : List Byte} {T : List FileMetaData} (h : Hull files a b)
    (hsub : ∀ f ∈ files, f ∈ T) (hmeets : ∀ f ∈ files, Meets lo hi f A B)
    (hspans : Spans lo hi T A B) : Spans lo hi T a b := by
  obtain ⟨f, hf, rfl⟩ := h.low
  obtain ⟨g, hg, rfl⟩ := h.high
  exact (hspans.widen_left (hsub f hf) (hmeets f hf).2).widen_right (hsub g hg) (hmeets g hg).1

end Range

/-! ## The choice -/

/-- The tables that were chosen from two levels. -/
structure Chosen (v : Version) (level : ℕ) (inputs0 inputs1 : List FileMetaData) : Prop where
  sub0 : inputs0.Sublist (v.files level)
  sub1 : inputs1.Sublist (v.files (level + 1))
  ne : inputs0 ≠ []
  gapless : Gapless lo hi (inputs0 ++ inputs1)
  closed : level = 0 → ∀ f ∈ v.files 0, f ∉ inputs0 → ∀ g ∈ inputs0, ¬ Meets lo hi f (lo g) (hi g)
  beside : ∀ f ∈ v.files (level + 1), f ∉ inputs1 → Beside lo hi f (inputs0 ++ inputs1)

section Choice

variable {v : Version} {fuel level : ℕ} {inputs0 inputs1 : List FileMetaData} {f : FileMetaData}

/-- INTERNAL: the tables that meet a range stay in their order. -/
theorem meeting_sublist (v : Version) (level : ℕ) (A B : List Byte) :
    (meeting v level A B).Sublist (v.files level) := List.filter_sublist

/-- INTERNAL: two tables of a sorted level do not meet. -/
theorem LevelsSorted.not_meets (hv : LevelsSorted v) {g : FileMetaData} (hl : 0 < level)
    (hf : f ∈ v.files level) (hg : g ∈ v.files level) (hne : f ≠ g) :
    ¬ Meets lo hi g (lo f) (hi f) := by
  rw [not_meets_iff]
  obtain ⟨i, hi', rfl⟩ := List.getElem_of_mem hf
  obtain ⟨j, hj, rfl⟩ := List.getElem_of_mem hg
  have hpair := List.pairwise_iff_getElem.mp (hv.apart level hl)
  rcases lt_trichotomy i j with hij | rfl | hij
  · exact Or.inr (hpair i j hi' hj hij)
  · exact absurd rfl hne
  · exact Or.inl (hpair j i hj hi' hij)

/-- INTERNAL: **tables without a gap**, with those of the next level that meet them, are a choice.
-/
theorem chosen_of_spans (hv : LevelsSorted v) (hsub : inputs0.Sublist (v.files level))
    {a b : List Byte} (hull : Hull inputs0 a b)
    (hspans : Spans lo hi (inputs0 ++ meeting v (level + 1) a b) a b)
    (hclosed : level = 0 → ∀ f ∈ v.files 0, f ∉ inputs0 →
      ∀ g ∈ inputs0, ¬ Meets lo hi f (lo g) (hi g)) :
    Chosen v level inputs0 (meeting v (level + 1) a b) := by
  have hne : inputs0 ≠ [] := by
    obtain ⟨f, hf, -⟩ := hull.low
    exact List.ne_nil_of_mem hf
  have hgapless : Gapless lo hi (inputs0 ++ meeting v (level + 1) a b) := by
    refine ⟨a, b, hspans, fun f hf => ?_⟩
    rcases List.mem_append.mp hf with hf | hf
    · exact hull.meets hf (hv.bounds level f (hsub.subset hf)).range
    · exact (mem_meeting.mp hf).2
  refine ⟨hsub, meeting_sublist v (level + 1) a b, hne, hgapless, hclosed, fun f hf hnot => ?_⟩
  have hmiss : ¬ Meets lo hi f a b := fun hmeets => hnot (mem_meeting.mpr ⟨hf, hmeets⟩)
  apply hgapless.beside (hv.bounds _ f hf).range
  intro g hg hmeets
  rcases List.mem_append.mp hg with hg | hg
  · exact hmiss ⟨hmeets.2.trans (hull.le_high g hg), (hull.low_le g hg).trans hmeets.1⟩
  · refine hv.not_meets (Nat.succ_pos level) hf (mem_meeting.mp hg).1 ?_ hmeets
    rintro rfl
    exact hnot hg

/-- INTERNAL: the choice may be widened.
SRCLINE: leveldb-1.15.0/db/version_set.cc:1322-1354 -/
theorem expandInputs_chosen (hv : LevelsSorted v)
    (hfuel : ∀ l, overlapFuel (v.files l) ≤ fuel) {a b : List Byte} (hull : Hull inputs0 a b)
    (hsub : inputs0.Sublist (v.files level)) (hnext : inputs1 = meeting v (level + 1) a b)
    (hspans : Spans lo hi (inputs0 ++ inputs1) a b)
    (hclosed : level = 0 → ∀ f ∈ v.files 0, f ∉ inputs0 →
      ∀ g ∈ inputs0, ¬ Meets lo hi f (lo g) (hi g)) :
    ∃ inputs, Compaction.expandInputs v fuel level inputs0 inputs1 = some inputs ∧
      Chosen v level inputs.1 inputs.2 := by
  have hstay : Chosen v level inputs0 inputs1 := by
    subst hnext
    exact chosen_of_spans hv hsub hull hspans hclosed
  have hrange0 : ∀ f ∈ inputs0, lo f ≤ hi f := fun f hf => (hv.bounds level f (hsub.subset hf)).range
  -- the range of both inputs is spanned by them
  have hboth : inputs0 ++ inputs1 ≠ [] := by simp [hstay.ne]
  have hall := hull_getRange hboth
  have hmeets : ∀ f ∈ inputs0 ++ inputs1, Meets lo hi f a b := by
    intro f hf
    rcases List.mem_append.mp hf with hf | hf
    · exact hull.meets hf (hrange0 f hf)
    · exact (mem_meeting.mp (hnext ▸ hf)).2
  have hspans' := hall.spans (fun f hf => hf) hmeets hspans
  obtain ⟨A, B, hexpanded, hoverlap, hwithin⟩ := getOverlappingInputs_spec level
    (Compaction.getRange (inputs0 ++ inputs1)).1 (Compaction.getRange (inputs0 ++ inputs1)).2
    (hfuel level)
  set expanded := meeting v level A B with hexp
  have hsub0 : ∀ f ∈ inputs0, f ∈ expanded := by
    intro f hf
    have hmem : f ∈ inputs0 ++ inputs1 := List.mem_append_left _ hf
    refine mem_meeting.mpr ⟨hsub.subset hf, ?_, ?_⟩
    · exact (hrange0 f hf).trans ((hall.le_high f hmem).trans hoverlap.right)
    · exact (hoverlap.left.trans (hall.low_le f hmem)).trans (hrange0 f hf)
  have hne : expanded ≠ [] := by
    obtain ⟨f, hf, -⟩ := hull.low
    exact List.ne_nil_of_mem (hsub0 f hf)
  have hull' := hull_getRange hne
  obtain ⟨A', B', hnext', hoverlap', -⟩ := getOverlappingInputs_spec (level + 1)
    (Compaction.getRange expanded).1 (Compaction.getRange expanded).2 (hfuel (level + 1))
  obtain ⟨rfl, rfl⟩ := hoverlap'.fixed (Nat.succ_ne_zero level)
  set a' := extractUserKey (Compaction.getRange expanded).1
  set b' := extractUserKey (Compaction.getRange expanded).2
  have hsub1 : ∀ f ∈ inputs1, f ∈ meeting v (level + 1) a' b' := by
    intro f hf
    rw [hnext, mem_meeting] at hf
    obtain ⟨g, hg, rfl⟩ := hull.low
    obtain ⟨k, hk, rfl⟩ := hull.high
    exact mem_meeting.mpr ⟨hf.1, hf.2.1.trans (hull'.le_high k (hsub0 k hk)),
      (hull'.low_le g (hsub0 g hg)).trans hf.2.2⟩
  have hwide : Chosen v level expanded (meeting v (level + 1) a' b') := by
    have hT : Spans lo hi (expanded ++ meeting v (level + 1) a' b') A B := by
      apply hoverlap.spans _ fun f hf => List.mem_append_left _ hf
      apply hspans'.mono
      intro f hf
      rcases List.mem_append.mp hf with hf | hf
      · exact List.mem_append_left _ (hsub0 f hf)
      · exact List.mem_append_right _ (hsub1 f hf)
    apply chosen_of_spans hv (meeting_sublist v level A B) hull'
    · exact hull'.spans (fun f hf => List.mem_append_left _ hf)
        (fun f hf => (mem_meeting.mp hf).2) hT
    · intro hlevel f hf hnot g hg hmeet
      subst hlevel
      obtain ⟨hA, hB⟩ := hwithin rfl g hg
      exact hnot (mem_meeting.mpr ⟨hf, hmeet.1.trans hB, hA.trans hmeet.2⟩)
  simp only [Compaction.expandInputs, hexpanded, Option.bind_eq_bind, Option.bind_some, hnext']
  split_ifs
  · exact ⟨_, rfl, hstay⟩
  · exact ⟨_, rfl, hwide⟩
  · exact ⟨_, rfl, hstay⟩
  · exact ⟨_, rfl, hstay⟩

/-- INTERNAL: **the tables of a compaction**, whatever table it begins with.
SRCLINE: leveldb-1.15.0/db/version_set.cc:1291-1309, leveldb-1.15.0/db/version_set.cc:1311-1377 -/
theorem pickCompaction_spec (hv : LevelsSorted v) (hfuel : ∀ l, overlapFuel (v.files l) ≤ fuel)
    (hf : f ∈ v.files level) :
    ∃ c, Compaction.pickCompaction v fuel level f = some c ∧ c.level = level ∧
      c.inputVersion = v ∧ c.levelPtrs = (fun _ => 0) ∧ Chosen v level c.inputs0 c.inputs1 := by
  -- the first inputs span their range, and on level 0 no other table meets them
  have hfirst : ∃ inputs0, Compaction.firstInputs v fuel level f = some inputs0 ∧
      inputs0.Sublist (v.files level) ∧ inputs0 ≠ [] ∧
      (∀ a b, Hull inputs0 a b → Spans lo hi inputs0 a b) ∧
      (level = 0 → ∀ f ∈ v.files 0, f ∉ inputs0 → ∀ g ∈ inputs0, ¬ Meets lo hi f (lo g) (hi g)) := by
    by_cases hlevel : level = 0
    · subst hlevel
      obtain ⟨A, B, hinputs, hoverlap, hwithin⟩ :=
        getOverlappingInputs_spec 0 f.smallest f.largest (hfuel 0)
      have hmem : f ∈ meeting v 0 A B := by
        have hrange := (hv.bounds 0 f hf).range
        exact mem_meeting.mpr ⟨hf, hrange.trans hoverlap.right, hoverlap.left.trans hrange⟩
      refine ⟨_, (if_pos rfl).trans hinputs, meeting_sublist v 0 A B, List.ne_nil_of_mem hmem, ?_, ?_⟩
      · intro a b hull
        apply hull.spans (fun g hg => hg) (fun g hg => (mem_meeting.mp hg).2)
        exact hoverlap.spans _ (fun g hg => hg) (spans_self hmem)
      · intro _ g hg hnot k hk hmeet
        obtain ⟨hA, hB⟩ := hwithin rfl k hk
        exact hnot (mem_meeting.mpr ⟨hg, hmeet.1.trans hB, hA.trans hmeet.2⟩)
    · refine ⟨[f], if_neg hlevel, by simpa using hf, List.cons_ne_nil _ _, ?_, fun h => absurd h hlevel⟩
      intro a b hull
      obtain ⟨g, hg, rfl⟩ := hull.low
      obtain ⟨k, hk, rfl⟩ := hull.high
      rw [List.mem_singleton.mp hg, List.mem_singleton.mp hk]
      exact spans_self List.mem_cons_self
  obtain ⟨inputs0, hinputs, hsub, hne, hspans, hclosed⟩ := hfirst
  have hull := hull_getRange hne
  obtain ⟨A, B, hnext, hoverlap, -⟩ := getOverlappingInputs_spec (level + 1)
    (Compaction.getRange inputs0).1 (Compaction.getRange inputs0).2 (hfuel (level + 1))
  obtain ⟨rfl, rfl⟩ := hoverlap.fixed (Nat.succ_ne_zero level)
  obtain ⟨inputs, hexpand, hchosen⟩ := expandInputs_chosen hv hfuel hull hsub rfl
    ((hspans _ _ hull).mono fun g hg => List.mem_append_left _ hg) hclosed
  obtain ⟨grandparents, hgrand⟩ : ∃ grandparents,
      Compaction.findGrandparents v fuel level (inputs.1 ++ inputs.2) = some grandparents := by
    rw [Compaction.findGrandparents]
    split_ifs
    · obtain ⟨A, B, hinputs, -, -⟩ := getOverlappingInputs_spec (level + 2)
        (Compaction.getRange (inputs.1 ++ inputs.2)).1
        (Compaction.getRange (inputs.1 ++ inputs.2)).2 (hfuel (level + 2))
      exact ⟨_, hinputs⟩
    · exact ⟨[], rfl⟩
  refine ⟨⟨level, inputs.1, inputs.2, grandparents, v, 0, false, 0, fun _ => 0⟩, ?_, rfl, rfl, rfl,
    hchosen⟩
  simp [Compaction.pickCompaction, hinputs, Compaction.setupOtherInputs, hnext, hexpand, hgrand]

end Choice

end ExternalSort.Analysis
