import ExternalSort.Analysis.LevelDb.InternalKey
import ExternalSort.Lib.Ranges
import ExternalSort.Model.LevelDb.Version

/-!
# Searches among the tables of a level

The binary search finds the first table whose largest key is not before the key sought, and so
the test for an overlap on a sorted level is right.  The tables that overlap a range are those
that meet it; on level 0 the range grows until no table that meets it sticks out, and it grows
without a gap.
-/

set_option autoImplicit false

namespace ExternalSort.Analysis

open ExternalSort.Lib ExternalSort.Model

/-- The keys a table is said to cover: smallest user key. -/
abbrev lo : FileMetaData → List Byte := FileMetaData.smallestUserKey

/-- The keys a table is said to cover: largest user key. -/
abbrev hi : FileMetaData → List Byte := FileMetaData.largestUserKey

/-- The bytes of an internal key. -/
def IsInternalKey (key : List Byte) : Prop :=
  ∃ k : ParsedInternalKey, k.sequence ≤ kMaxSequenceNumber ∧ appendInternalKey k = key

/-- The ends of a table are internal keys, in this order. -/
structure FileBounds (f : FileMetaData) : Prop where
  smallest : IsInternalKey f.smallest
  largest : IsInternalKey f.largest
  range : lo f ≤ hi f

/-- The tables of a level that do not overlap, in order. -/
structure SortedLevel (files : List FileMetaData) : Prop where
  bounds : ∀ f ∈ files, FileBounds f
  apart : files.Pairwise fun f g => hi f < lo g

variable {files : List FileMetaData} {f : FileMetaData}

/-! ## The binary search -/

/-- INTERNAL: the largest keys of a sorted level ascend. -/
theorem SortedLevel.pairwise_largest (h : SortedLevel files) :
    files.Pairwise fun f g => internalRank f.largest < internalRank g.largest := by
  apply h.apart.imp_of_mem
  intro f g _ hg hfg
  exact Prod.Lex.toLex_lt_toLex.mpr (Or.inl (hfg.trans_le (h.bounds g hg).range))

/-- The tables a search for a key passes. -/
def endsBefore (key : List Byte) (f : FileMetaData) : Bool := lessBy internalKeyCompare f.largest key

/-- INTERNAL: a table that ends before a key. -/
theorem endsBefore_iff {key : List Byte} :
    endsBefore key f = true ↔ internalRank f.largest < internalRank key :=
  internalKeyCompare_represents.lessBy_iff f.largest key

/-- INTERNAL: the search ends at the only index that both ends of its interval allow. -/
theorem findFileFrom_eq {key : List Byte}
    (h : files.Pairwise fun f g => internalRank f.largest < internalRank g.largest)
    {rounds left right : ℕ} (hleft : left ≤ files.findIdx fun f => !endsBefore key f)
    (hright : (files.findIdx fun f => !endsBefore key f) ≤ right) (hlen : right ≤ files.length)
    (hrounds : right - left ≤ rounds) :
    findFileFrom files key rounds left right = files.findIdx fun f => !endsBefore key f := by
  induction rounds generalizing left right with
  | zero =>
    rw [findFileFrom]
    omega
  | succ rounds ih =>
    rw [findFileFrom]
    split_ifs with hlt
    · have hmid : (left + right) / 2 < files.length := by omega
      have hmem := List.getElem?_eq_getElem hmid
      have hiff := lt_findIdx_iff (f := fun f => !endsBefore key f) (l := files) (by
        apply h.imp
        intro a b hab hb
        rw [Bool.not_eq_false'] at hb ⊢
        rw [endsBefore_iff] at hb ⊢
        exact hab.trans hb) hmem
      rw [Bool.not_eq_false', endsBefore, lessBy, decide_eq_true_iff] at hiff
      simp only [hmem]
      split_ifs with hcmp
      · apply ih _ hright hlen (by omega)
        have := hiff.mpr hcmp
        omega
      · apply ih hleft _ (by omega) (by omega)
        exact not_lt.mp (mt hiff.mp hcmp)
    · omega

/-- INTERNAL: **the binary search finds the first table** that does not end before a key.
SRCLINE: leveldb-1.15.0/db/version_set.cc:91-110 -/
theorem SortedLevel.findFile_eq (h : SortedLevel files) (key : List Byte) :
    findFile files key = files.findIdx fun f => !endsBefore key f :=
  findFileFrom_eq h.pairwise_largest (Nat.zero_le _) List.findIdx_le_length le_rfl (by omega)

/-! ## Overlaps -/

/-- INTERNAL: a user key behind a table. -/
theorem afterFile_iff {k : List Byte} : afterFile (some k) f = true ↔ hi f < k := by
  rw [afterFile, decide_eq_true_iff, gt_iff_lt, sliceCompare_represents.pos_iff]
  rfl

/-- INTERNAL: a user key in front of a table. -/
theorem beforeFile_iff {k : List Byte} : beforeFile (some k) f = true ↔ k < lo f := by
  rw [beforeFile, decide_eq_true_iff, sliceCompare_represents.neg_iff]
  rfl

/-- INTERNAL: the earliest internal key of a user key is not after a table that reaches it. -/
theorem endsBefore_seek {k : List Byte} (h : IsInternalKey f.largest) :
    endsBefore (appendInternalKey ⟨k, kMaxSequenceNumber, kValueTypeForSeek⟩) f = true ↔
      hi f < k := by
  obtain ⟨largest, hseq, heq⟩ := h
  have ht : largest.type.toNat ≤ 1 := by cases largest.type <;> decide
  have hnot : ¬ kMaxSequenceNumber * 256 + kValueTypeForSeek.toNat <
      largest.sequence * 256 + largest.type.toNat := by
    have hone : kValueTypeForSeek.toNat = 1 := rfl
    omega
  rw [endsBefore_iff, internalRank, internalRank, Prod.Lex.toLex_lt_toLex, extractUserKey_append,
    internalKeyTag_append le_rfl, ← heq, internalKeyTag_append hseq, OrderDual.toDual_lt_toDual]
  simp only [hnot, and_false, or_false]
  rw [heq]
  rfl

/-- INTERNAL: **the test for an overlap is right**, on level 0 and on a sorted level.
SRCLINE: leveldb-1.15.0/db/version_set.cc:126-161 -/
theorem someFileOverlapsRange_iff {sorted : Bool} (h : sorted = true → SortedLevel files)
    {a b : List Byte} :
    someFileOverlapsRange sorted files (some a) (some b) = true ↔
      ∃ f ∈ files, Meets lo hi f a b := by
  cases sorted with
  | false =>
    simp only [someFileOverlapsRange, Bool.false_eq_true, if_false, List.any_eq_true]
    apply exists_congr
    intro f
    rw [Bool.not_eq_true', Bool.or_eq_false_iff, ← Bool.not_eq_true, ← Bool.not_eq_true,
      afterFile_iff, beforeFile_iff, not_lt, not_lt, Meets, and_comm (a := a ≤ hi f)]
  | true =>
    have hs := h rfl
    simp only [someFileOverlapsRange, if_true, hs.findFile_eq]
    set key := appendInternalKey ⟨a, kMaxSequenceNumber, kValueTypeForSeek⟩ with hkey
    have hpassed : ∀ f ∈ files, endsBefore key f = true ↔ hi f < a :=
      fun f hf => endsBefore_seek (hs.bounds f hf).largest
    by_cases hlt : (files.findIdx fun f => !endsBefore key f) < files.length
    · have hmem := List.getElem?_eq_getElem hlt
      set i := files.findIdx fun f => !endsBefore key f with hi'
      have hreach : a ≤ hi files[i] := by
        have hfound : (!endsBefore key files[i]) = true := List.findIdx_getElem (w := hlt)
        rw [Bool.not_eq_true', ← Bool.not_eq_true, hpassed _ (List.getElem_mem _), not_lt] at hfound
        exact hfound
      rw [hmem]
      show (!beforeFile (some b) files[i]) = true ↔ _
      rw [Bool.not_eq_true', ← Bool.not_eq_true, beforeFile_iff, not_lt]
      refine ⟨fun hle => ⟨files[i], List.getElem_mem _, hle, hreach⟩, ?_⟩
      rintro ⟨f, hf, hfb, haf⟩
      obtain ⟨j, hj, rfl⟩ := List.getElem_of_mem hf
      -- a table in front ends before the range, so the one that meets it is this or a later one
      have hij : i ≤ j := by
        by_contra hji
        have hbefore := List.not_of_lt_findIdx (not_le.mp hji)
        rw [Bool.not_eq_false', hpassed _ hf] at hbefore
        exact absurd haf hbefore.not_ge
      rcases hij.eq_or_lt with heq | hij
      · simpa only [heq] using hfb
      · have hapart := List.pairwise_iff_getElem.mp hs.apart i j hlt hj hij
        exact ((hs.bounds _ (List.getElem_mem _)).range.trans hapart.le).trans hfb
    · have hlen : (files.findIdx fun f => !endsBefore key f) = files.length :=
        le_antisymm List.findIdx_le_length (not_lt.mp hlt)
      rw [hlen, List.getElem?_eq_none le_rfl]
      simp only [Bool.false_eq_true, false_iff]
      rintro ⟨f, hf, -, haf⟩
      have hbefore := List.findIdx_eq_length.mp hlen f hf
      rw [Bool.not_eq_false', hpassed f hf] at hbefore
      exact absurd haf hbefore.not_ge

/-! ## The tables that overlap a range -/

section Overlapping

variable {v : Version} {level fuel : ℕ}

/-- The tables of a level that meet a range. -/
def meeting (v : Version) (level : ℕ) (A B : List Byte) : List FileMetaData :=
  (v.files level).filter fun f => decide (Meets lo hi f A B)

/-- INTERNAL: the tables that meet a range. -/
theorem mem_meeting {A B : List Byte} :
    f ∈ meeting v level A B ↔ f ∈ v.files level ∧ Meets lo hi f A B := by
  rw [meeting, List.mem_filter, decide_eq_true_iff]

/-- What the search for the tables that overlap a range has found: `[A, B]` is the range it has
grown to. -/
structure Overlap (v : Version) (level : ℕ) (a b A B : List Byte) : Prop where
  left : A ≤ a
  right : b ≤ B
  fixed : level ≠ 0 → A = a ∧ B = b
  spans : ∀ T, (∀ f ∈ meeting v level A B, f ∈ T) → Spans lo hi T a b → Spans lo hi T A B

/-- INTERNAL: the search begins with the range that is asked for. -/
theorem overlap_self (v : Version) (level : ℕ) (a b : List Byte) : Overlap v level a b a b :=
  ⟨le_rfl, le_rfl, fun _ => ⟨rfl, rfl⟩, fun _ _ h => h⟩

variable {a b A B : List Byte}

/-- INTERNAL: a table of level 0 sticks out to the left. -/
theorem Overlap.left_of (h : Overlap v level a b A B) (hlevel : level = 0)
    (hf : f ∈ v.files level) (hmeets : Meets lo hi f A B) (hout : lo f < A) :
    Overlap v level a b (lo f) B where
  left := hout.le.trans h.left
  right := h.right
  fixed hne := absurd hlevel hne
  spans T hT hspans := by
    have hmem : f ∈ T := hT f (mem_meeting.mpr ⟨hf, hmeets.1, hout.le.trans hmeets.2⟩)
    refine (h.spans T (fun g hg => hT g ?_) hspans).widen_left hmem hmeets.2
    rw [mem_meeting] at hg ⊢
    exact ⟨hg.1, hg.2.1, hout.le.trans hg.2.2⟩

/-- INTERNAL: a table of level 0 sticks out to the right. -/
theorem Overlap.right_of (h : Overlap v level a b A B) (hlevel : level = 0)
    (hf : f ∈ v.files level) (hmeets : Meets lo hi f A B) (hout : B < hi f) :
    Overlap v level a b A (hi f) where
  left := h.left
  right := h.right.trans hout.le
  fixed hne := absurd hlevel hne
  spans T hT hspans := by
    have hmem : f ∈ T := hT f (mem_meeting.mpr ⟨hf, hmeets.1.trans hout.le, hmeets.2⟩)
    refine (h.spans T (fun g hg => hT g ?_) hspans).widen_right hmem hmeets.1
    rw [mem_meeting] at hg ⊢
    exact ⟨hg.1, hg.2.1.trans hout.le, hg.2.2⟩

/-- How many tables of a level stick out of a range on one side. -/
def sticking (files : List FileMetaData) (A B : List Byte) : ℕ :=
  files.countP (fun f => decide (lo f < A)) + files.countP fun f => decide (B < hi f)

/-- INTERNAL: fewer elements satisfy a stronger condition, if one satisfies only the weaker. -/
theorem countP_lt_of_imp {α : Type} {P Q : α → Bool} {l : List α} {x : α}
    (himp : ∀ y, P y = true → Q y = true) (hx : x ∈ l) (hQ : Q x = true) (hP : P x = false) :
    l.countP P < l.countP Q := by
  have hfilter : l.countP P = (l.filter Q).countP P := by
    rw [List.countP_filter]
    apply List.countP_congr
    intro y _
    simpa using himp y
  rw [hfilter, List.countP_eq_length_filter (p := Q), List.countP_lt_length_iff]
  exact ⟨x, List.mem_filter.mpr ⟨hx, hQ⟩, by simp [hP]⟩

/-- INTERNAL: fewer tables stick out when the range grows to the left. -/
theorem sticking_left (hf : f ∈ files) (hout : lo f < A) :
    sticking files (lo f) B < sticking files A B := by
  apply Nat.add_lt_add_right
  apply countP_lt_of_imp _ hf (decide_eq_true hout) (by simp)
  exact fun g hg => decide_eq_true ((of_decide_eq_true hg).trans hout)

/-- INTERNAL: fewer tables stick out when the range grows to the right. -/
theorem sticking_right (hf : f ∈ files) (hout : B < hi f) :
    sticking files A (hi f) < sticking files A B := by
  apply Nat.add_lt_add_left
  apply countP_lt_of_imp _ hf (decide_eq_true hout) (by simp)
  exact fun g hg => decide_eq_true (hout.trans (of_decide_eq_true hg))

/-- A moment of the search: the tables that were passed, and the range. -/
structure Passing (v : Version) (level : ℕ) (a b : List Byte) (s : Version.Overlapping)
    (passed : List FileMetaData) (A B : List Byte) : Prop where
  split : v.files level = passed ++ s.rest
  userBegin : s.userBegin = some A
  userEnd : s.userEnd = some B
  inputs : s.inputs = passed.filter fun f => decide (Meets lo hi f A B)
  overlap : Overlap v level a b A B
  within : level = 0 → ∀ f ∈ s.inputs, A ≤ lo f ∧ hi f ≤ B

/-- The rounds that are left at most: some more passes, and the rest of this one. -/
def roundsLeft (v : Version) (level : ℕ) (s : Version.Overlapping) (A B : List Byte) : ℕ :=
  sticking (v.files level) A B * ((v.files level).length + 1) + s.rest.length

/-- Rounds that are enough to find the tables that overlap a range. -/
def overlapFuel (files : List FileMetaData) : ℕ := (2 * files.length + 1) * (files.length + 1)

/-- INTERNAL: a pass that starts again is shorter than what it saves. -/
theorem roundsLeft_restart {s s' : Version.Overlapping} {A' B' : List Byte}
    (hrest : s'.rest = v.files level)
    (hlt : sticking (v.files level) A' B' < sticking (v.files level) A B) :
    roundsLeft v level s' A' B' < roundsLeft v level s A B := by
  have hmul := Nat.mul_le_mul_right ((v.files level).length + 1) hlt
  rw [Nat.succ_mul] at hmul
  rw [roundsLeft, roundsLeft, hrest]
  omega

/-- INTERNAL: a round of the search.
SRCLINE: leveldb-1.15.0/db/version_set.cc:552-578 -/
theorem Passing.round {s : Version.Overlapping} {passed : List FileMetaData}
    (h : Passing v level a b s passed A B) :
    (s.rest = [] ∧ v.overlappingRound level s = some (.inr s.inputs)) ∨
    ∃ s' passed' A' B', v.overlappingRound level s = some (.inl s') ∧
      Passing v level a b s' passed' A' B' ∧
      roundsLeft v level s' A' B' < roundsLeft v level s A B := by
  cases hrest : s.rest with
  | nil => exact Or.inl ⟨rfl, by simp [Version.overlappingRound, hrest]⟩
  | cons f rest =>
    right
    have hmem : f ∈ v.files level := by simp [h.split, hrest]
    have hsplit : v.files level = (passed ++ [f]) ++ rest := by simp [h.split, hrest]
    have hshorter : ∀ inputs, roundsLeft v level ⟨rest, s.userBegin, s.userEnd, inputs⟩ A B <
        roundsLeft v level s A B := by
      intro inputs
      simp only [roundsLeft, hrest, List.length_cons]
      omega
    have hneg := fun x y => sliceCompare_represents.neg_iff x y
    have hpos := fun x y => sliceCompare_represents.pos_iff x y
    simp only [id] at hneg hpos
    simp only [Version.overlappingRound, hrest, h.userBegin, h.userEnd, Option.any_some, hneg,
      gt_iff_lt, hpos, decide_eq_true_eq]
    by_cases hmeets : Meets lo hi f A B
    · rw [if_neg hmeets.2.not_gt, if_neg hmeets.1.not_gt]
      by_cases hleft : level = 0 ∧ lo f < A
      · rw [if_pos hleft]
        refine ⟨_, [], lo f, B, rfl, ⟨rfl, rfl, rfl, rfl, ?_, by simp⟩, ?_⟩
        · exact h.overlap.left_of hleft.1 hmem hmeets hleft.2
        · exact roundsLeft_restart rfl (sticking_left hmem hleft.2)
      by_cases hright : level = 0 ∧ B < hi f
      · rw [if_neg hleft, if_pos hright]
        refine ⟨_, [], A, hi f, rfl, ⟨rfl, rfl, rfl, rfl, ?_, by simp⟩, ?_⟩
        · exact h.overlap.right_of hright.1 hmem hmeets hright.2
        · exact roundsLeft_restart rfl (sticking_right hmem hright.2)
      rw [if_neg hleft, if_neg hright]
      refine ⟨_, passed ++ [f], A, B, rfl, ⟨hsplit, rfl, rfl, ?_, h.overlap, ?_⟩, ?_⟩
      · simp [h.inputs, List.filter_append, hmeets]
      · intro hlevel g hg
        rcases List.mem_append.mp hg with hg | hg
        · exact h.within hlevel g hg
        · rw [List.mem_singleton.mp hg]
          exact ⟨not_lt.mp fun hlt => hleft ⟨hlevel, hlt⟩,
            not_lt.mp fun hlt => hright ⟨hlevel, hlt⟩⟩
      · rw [← h.userBegin, ← h.userEnd]
        exact hshorter _
    · have hskip : Passing v level a b ⟨rest, some A, some B, s.inputs⟩ (passed ++ [f]) A B := by
        refine ⟨hsplit, rfl, rfl, ?_, h.overlap, h.within⟩
        simp [h.inputs, List.filter_append, hmeets]
      have hless := hshorter s.inputs
      rw [h.userBegin, h.userEnd] at hless
      rcases not_meets_iff.mp hmeets with hlt | hlt
      · rw [if_pos hlt]
        exact ⟨_, _, A, B, rfl, hskip, hless⟩
      · rw [if_pos hlt, ite_self]
        exact ⟨_, _, A, B, rfl, hskip, hless⟩

/-- INTERNAL: **the tables that overlap a range are found**: those that meet it, or on level 0
those that meet a range that has grown without a gap until none of them sticks out.
SRCLINE: leveldb-1.15.0/db/version_set.cc:536-579 -/
theorem getOverlappingInputs_spec (level : ℕ) (begin_ end_ : List Byte)
    (hfuel : overlapFuel (v.files level) ≤ fuel) :
    ∃ A B, v.getOverlappingInputs fuel level (some begin_) (some end_) =
        some (meeting v level A B) ∧
      Overlap v level (extractUserKey begin_) (extractUserKey end_) A B ∧
      (level = 0 → ∀ f ∈ meeting v level A B, A ≤ lo f ∧ hi f ≤ B) := by
  set a := extractUserKey begin_
  set b := extractUserKey end_
  have hstart : Passing v level a b ⟨v.files level, some a, some b, []⟩ [] a b :=
    ⟨rfl, rfl, rfl, rfl, overlap_self v level a b, by simp⟩
  have hbound : roundsLeft v level ⟨v.files level, some a, some b, []⟩ a b < fuel := by
    have hcount : sticking (v.files level) a b ≤ 2 * (v.files level).length := by
      have h1 := List.countP_le_length (p := fun f => decide (lo f < a)) (l := v.files level)
      have h2 := List.countP_le_length (p := fun f => decide (b < hi f)) (l := v.files level)
      rw [sticking]
      omega
    have hmul := Nat.mul_le_mul_right ((v.files level).length + 1) hcount
    rw [overlapFuel, Nat.succ_mul] at hfuel
    show sticking (v.files level) a b * ((v.files level).length + 1) + (v.files level).length < fuel
    omega
  obtain ⟨inputs, hloop, A, B, rfl, hoverlap, hwithin⟩ := loop_total
    (fun n s => ∃ passed A B, Passing v level a b s passed A B ∧ n = roundsLeft v level s A B)
    (fun inputs => ∃ A B, inputs = meeting v level A B ∧ Overlap v level a b A B ∧
      (level = 0 → ∀ f ∈ inputs, A ≤ lo f ∧ hi f ≤ B)) (by
      rintro n s ⟨passed, A, B, hs, rfl⟩
      rcases hs.round with ⟨hrest, hround⟩ | ⟨s', passed', A', B', hround, hs', hlt⟩
      · refine Or.inr ⟨_, hround, A, B, ?_, hs.overlap, hs.within⟩
        rw [hs.inputs, meeting, hs.split, hrest, List.append_nil]
      · exact Or.inl ⟨_, s', hround, ⟨passed', A', B', hs', rfl⟩, hlt⟩)
    ⟨[], a, b, hstart, rfl⟩ hbound
  exact ⟨A, B, hloop, hoverlap, hwithin⟩

/-! ## The level of a new table -/

/-- INTERNAL: what is known of the level that is picked. -/
theorem pickLevelFrom_spec (rounds : ℕ) (hsorted : ∀ l, 0 < l → SortedLevel (v.files l))
    (hfuel : ∀ l, overlapFuel (v.files l) ≤ fuel) (hno : ∀ f ∈ v.files level, ¬ Meets lo hi f a b) :
    ∃ picked, v.pickLevelFrom fuel a b rounds level = some picked ∧ level ≤ picked ∧
      picked ≤ level + rounds ∧ ∀ l, level ≤ l → l ≤ picked → ∀ f ∈ v.files l, ¬ Meets lo hi f a b := by
  induction rounds generalizing level with
  | zero =>
    refine ⟨level, rfl, le_rfl, le_rfl, fun l hl hl' => ?_⟩
    rwa [le_antisymm hl' hl]
  | succ rounds ih =>
    have hstay : ∃ picked, some level = some picked ∧ level ≤ picked ∧
        picked ≤ level + (rounds + 1) ∧
        ∀ l, level ≤ l → l ≤ picked → ∀ f ∈ v.files l, ¬ Meets lo hi f a b := by
      refine ⟨level, rfl, le_rfl, Nat.le_add_right _ _, fun l hl hl' => ?_⟩
      rwa [le_antisymm hl' hl]
    rw [Version.pickLevelFrom]
    split_ifs with hover hlast
    · exact hstay
    all_goals
      have hnext : ∀ f ∈ v.files (level + 1), ¬ Meets lo hi f a b := by
        intro f hf hmeets
        exact hover ((someFileOverlapsRange_iff fun _ => hsorted _ (Nat.succ_pos _)).mpr
          ⟨f, hf, hmeets⟩)
      obtain ⟨picked, hpicked, hle, hbound, hall⟩ := ih hnext
      have hfound : ∃ picked, v.pickLevelFrom fuel a b rounds (level + 1) = some picked ∧
          level ≤ picked ∧ picked ≤ level + (rounds + 1) ∧
          ∀ l, level ≤ l → l ≤ picked → ∀ f ∈ v.files l, ¬ Meets lo hi f a b := by
        refine ⟨picked, hpicked, by omega, by omega, fun l hl hl' => ?_⟩
        rcases hl.eq_or_lt with rfl | hl
        · exact hno
        · exact hall l hl hl'
    · obtain ⟨A, B, hinputs, -, -⟩ := getOverlappingInputs_spec (level + 2)
        (appendInternalKey ⟨a, kMaxSequenceNumber, kValueTypeForSeek⟩)
        (appendInternalKey ⟨b, 0, .deletion⟩) (hfuel (level + 2))
      simp only [hinputs, Option.bind_some]
      split_ifs
      · exact hstay
      · exact hfound
    · exact hfound

/-- INTERNAL: **the level of a new table**: on the levels from 0 to this one no table meets it,
unless it is put on level 0.
SRCLINE: leveldb-1.15.0/db/version_set.cc:507-533 -/
theorem pickLevelForMemTableOutput_spec (hsorted : ∀ l, 0 < l → SortedLevel (v.files l))
    (hfuel : ∀ l, overlapFuel (v.files l) ≤ fuel) :
    ∃ picked, v.pickLevelForMemTableOutput fuel a b = some picked ∧ picked ≤ kMaxMemCompactLevel ∧
      (0 < picked → ∀ l ≤ picked, ∀ f ∈ v.files l, ¬ Meets lo hi f a b) := by
  rw [Version.pickLevelForMemTableOutput]
  split_ifs with hover
  · exact ⟨0, rfl, Nat.zero_le _, fun h => absurd h (lt_irrefl 0)⟩
  · have hno : ∀ f ∈ v.files 0, ¬ Meets lo hi f a b := by
      intro f hf hmeets
      exact hover ((someFileOverlapsRange_iff fun h => absurd h (by decide)).mpr ⟨f, hf, hmeets⟩)
    obtain ⟨picked, hpicked, -, hbound, hall⟩ :=
      pickLevelFrom_spec kMaxMemCompactLevel hsorted hfuel hno
    exact ⟨picked, hpicked, by omega, fun _ l hl => hall l (Nat.zero_le l) hl⟩

end Overlapping

end ExternalSort.Analysis
