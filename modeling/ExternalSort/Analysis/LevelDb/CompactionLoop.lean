import ExternalSort.Analysis.LevelDb.CompactionInputs
import ExternalSort.Analysis.LevelDb.InternalIterator

/-!
# The loop of a compaction

The input of a compaction shows the versions of its tables in order, so all versions of a key come
one after the other, the newest first.  There is no snapshot, so the loop keeps at most the newest
one (`Sifted`): a deletion is dropped too, if no table behind the next level can hold an older
version for it to hide.  What is kept goes to tables one after the other (`Written`).

`Loop` is the invariant of a round; it says which versions have been read, and what was kept of
them.
-/

set_option autoImplicit false

namespace ExternalSort.Analysis

open ExternalSort.Lib ExternalSort.Model

/-! ## Tables that were written -/

/-- A table whose ends are keys of it. -/
structure TableOk (tables : Tables) (f : FileMetaData) : Prop extends FileOk tables f where
  low : ∃ e ∈ tableEntries tables f.number, e.userKey = lo f
  high : ∃ e ∈ tableEntries tables f.number, e.userKey = hi f

section Tables

variable {tables tables' : Tables} {f : FileMetaData} {es : List Entry} {number : ℕ}

/-- INTERNAL: a table stays as it is when others are added. -/
theorem TableOk.extend (h : TableOk tables f) (hext : Extends tables tables') : TableOk tables' f := by
  have heq := h.tableEntries_eq hext
  exact ⟨h.toFileOk.extend hext, heq ▸ h.low, heq ▸ h.high⟩

/-- INTERNAL: the entries that were written are read back. -/
theorem tableEntries_update (hes : Ordered es) (tables : Tables) (number : ℕ) :
    tableEntries (Function.update tables number (some (es.map Entry.pair))) number = es := by
  rw [tableEntries, Function.update_self, Option.getD_some, List.map_map]
  conv_rhs => rw [← List.map_id es]
  exact List.map_congr_left fun e he => entryOf_pair (hes.sequence_le e he)

/-- INTERNAL: the least and the greatest internal key of ordered entries. -/
theorem Ordered.ends (hes : Ordered es) (hne : es ≠ []) :
    ∃ a ∈ es, ∃ b ∈ es, (es.map Entry.pair).head? = some a.pair ∧
      (es.map Entry.pair).getLast? = some b.pair ∧
      ∀ e ∈ es, internalRank a.pair.1 ≤ internalRank e.pair.1 ∧
        internalRank e.pair.1 ≤ internalRank b.pair.1 := by
  have hrank := hes.pairwise_rank
  rw [List.pairwise_map] at hrank
  have hle : es.Pairwise fun a b => internalRank a.pair.1 ≤ internalRank b.pair.1 :=
    hrank.imp le_of_lt
  have : Std.Refl fun a b : Entry => internalRank a.pair.1 ≤ internalRank b.pair.1 :=
    ⟨fun _ => le_rfl⟩
  refine ⟨es.head hne, List.head_mem hne, es.getLast hne, List.getLast_mem hne, ?_, ?_, ?_⟩
  · rw [List.head?_map, List.head?_eq_some_head hne, Option.map_some]
  · rw [List.getLast?_map, List.getLast?_eq_some_getLast hne, Option.map_some]
  · exact fun e he => ⟨hle.rel_head he, hle.rel_getLast he⟩

/-- INTERNAL: **a new table**: its ends are the first and the last key that were added.
SRCLINE: leveldb-1.15.0/db/db_impl.cc:958-963, leveldb-1.15.0/db/builder.cc:36-46 -/
theorem tableOk_new (sizes : Sizes) (hes : Ordered es) (hfits : ∀ e ∈ es, MemTable.EntryFits e)
    (hne : es ≠ []) (hnumber : number < 2 ^ 64) (tables : Tables) :
    TableOk (Function.update tables number (some (es.map Entry.pair)))
      (Output.metaData sizes ⟨number, es.map Entry.pair⟩) := by
  obtain ⟨a, ha, b, hb, hhead, hlast, hends⟩ := hes.ends hne
  have hread := tableEntries_update hes tables number
  have hsmallest : (Output.metaData sizes ⟨number, es.map Entry.pair⟩).smallest = a.pair.1 := by
    simp only [Output.metaData, hhead, Option.map_some, Option.getD_some]
  have hlargest : (Output.metaData sizes ⟨number, es.map Entry.pair⟩).largest = b.pair.1 := by
    simp only [Output.metaData, hlast, Option.map_some, Option.getD_some]
  have hlow : a.userKey = lo (Output.metaData sizes ⟨number, es.map Entry.pair⟩) := by
    rw [lo, FileMetaData.smallestUserKey, hsmallest]
    exact (extractUserKey_append a.parsed).symm
  have hhigh : b.userKey = hi (Output.metaData sizes ⟨number, es.map Entry.pair⟩) := by
    rw [hi, FileMetaData.largestUserKey, hlargest]
    exact (extractUserKey_append b.parsed).symm
  have hrange : a.userKey ≤ b.userKey := by
    have hle := userKey_le_of_rank_le (hends b hb).1
    rwa [show extractUserKey a.pair.1 = a.userKey from extractUserKey_append a.parsed,
      show extractUserKey b.pair.1 = b.userKey from extractUserKey_append b.parsed] at hle
  have hnum : (Output.metaData sizes ⟨number, es.map Entry.pair⟩).number = number := rfl
  refine ⟨⟨⟨?_, ?_, ?_⟩, hnumber, ?_, ?_, ?_, ?_⟩, ?_, ?_⟩
  · rw [hsmallest]
    exact ⟨a.parsed, hes.sequence_le a ha, rfl⟩
  · rw [hlargest]
    exact ⟨b.parsed, hes.sequence_le b hb, rfl⟩
  · rwa [← hlow, ← hhigh]
  · rw [hnum, hread, Function.update_self]
  · rwa [hnum, hread]
  · rwa [hnum, hread]
  · rw [hnum, hread, hsmallest, hlargest]
    exact hends
  · rw [hnum, hread]
    exact ⟨a, ha, hlow⟩
  · rw [hnum, hread]
    exact ⟨b, hb, hhigh⟩

end Tables

/-! ## The tables behind the next level -/

section Base

variable {v : Version} {key : List Byte} {ptrs : ℕ → ℕ} {files : List FileMetaData}

/-- No table behind the next level covers a user key. -/
def BaseFor (v : Version) (level : ℕ) (key : List Byte) : Prop :=
  ∀ l, level + 2 ≤ l → l < kNumLevels → ∀ f ∈ v.files l, ¬ (lo f ≤ key ∧ key ≤ hi f)

/-- The tables that were passed on each level end before a user key. -/
def PtrsBelow (v : Version) (ptrs : ℕ → ℕ) (key : List Byte) : Prop :=
  ∀ l, ∀ f ∈ (v.files l).take (ptrs l), hi f < key

/-- INTERNAL: tables that end before a key end before a greater one. -/
theorem PtrsBelow.mono {key' : List Byte} (h : PtrsBelow v ptrs key) (hle : key ≤ key') :
    PtrsBelow v ptrs key' := fun l f hf => (h l f hf).trans_le hle

/-- INTERNAL: the tables that are passed end before the key.
SRCLINE: leveldb-1.15.0/db/version_set.cc:1453-1463 -/
theorem hi_lt_of_mem_advance {ptr : ℕ} (h : ∀ f ∈ files.take ptr, hi f < key) :
    ∀ f ∈ files.take (Compaction.advance files key ptr), hi f < key := by
  intro f hf
  rw [Compaction.advance, List.take_add,
    ← List.prefix_iff_eq_take.mp (List.takeWhile_prefix _)] at hf
  rcases List.mem_append.mp hf with hf | hf
  · exact h f hf
  · have hpasses := List.mem_takeWhile_imp hf
    exact (sliceCompare_represents.pos_iff key f.largestUserKey).mp (decide_eq_true_iff.mp hpasses)

/-- INTERNAL: **the search for older versions** finds a table that covers the key, if there is one.
The induction is on the levels that are left.
SRCLINE: leveldb-1.15.0/db/version_set.cc:1448-1467 -/
theorem baseLevelFrom_spec (hsorted : ∀ l, 0 < l → SortedLevel (v.files l)) (rounds : ℕ) {lvl : ℕ}
    (hlvl : 0 < lvl) (hptrs : PtrsBelow v ptrs key) :
    PtrsBelow v (Compaction.baseLevelFrom v key rounds lvl ptrs).2 key ∧
      ((Compaction.baseLevelFrom v key rounds lvl ptrs).1 = true → ∀ l, lvl ≤ l → l < lvl + rounds →
        ∀ f ∈ v.files l, ¬ (lo f ≤ key ∧ key ≤ hi f)) := by
  induction rounds generalizing lvl ptrs with
  | zero => exact ⟨hptrs, fun _ l hl hl' => absurd hl' (by omega)⟩
  | succ rounds ih =>
    have hpassed := hi_lt_of_mem_advance (hptrs lvl)
    set ptr := Compaction.advance (v.files lvl) key (ptrs lvl) with hptr
    have hptrs' : PtrsBelow v (Function.update ptrs lvl ptr) key := by
      intro l f hf
      by_cases hl : l = lvl
      · subst hl
        rw [Function.update_self] at hf
        exact hpassed f hf
      · rw [Function.update_of_ne hl] at hf
        exact hptrs l f hf
    -- no table of this level covers the key, and the search goes on
    have hgoes : (∀ f ∈ v.files lvl, ¬ (lo f ≤ key ∧ key ≤ hi f)) →
        PtrsBelow v (Compaction.baseLevelFrom v key rounds (lvl + 1)
            (Function.update ptrs lvl ptr)).2 key ∧
          ((Compaction.baseLevelFrom v key rounds (lvl + 1) (Function.update ptrs lvl ptr)).1 = true →
            ∀ l, lvl ≤ l → l < lvl + (rounds + 1) →
              ∀ f ∈ v.files l, ¬ (lo f ≤ key ∧ key ≤ hi f)) := by
      intro hhere
      obtain ⟨h1, h2⟩ := ih (Nat.succ_pos lvl) hptrs'
      refine ⟨h1, fun hbase l hl hl' => ?_⟩
      rcases hl.eq_or_lt with rfl | hl
      · exact hhere
      · exact h2 hbase l hl (by omega)
    rw [Compaction.baseLevelFrom, ← hptr]
    cases hat : (v.files lvl)[ptr]? with
    | none =>
      apply hgoes
      intro f hf hcovers
      rw [List.getElem?_eq_none_iff] at hat
      exact absurd hcovers.2 (hpassed f (by rwa [List.take_of_length_le hat])).not_ge
    | some f =>
      dsimp only
      split_ifs with hcovers
      · exact ⟨hptrs', fun h => absurd h (by simp)⟩
      · apply hgoes
        have hbefore : key < lo f :=
          (sliceCompare_represents.neg_iff key f.smallestUserKey).mp (not_le.mp hcovers)
        obtain ⟨hlt, hfile⟩ := List.getElem?_eq_some_iff.mp hat
        intro g hg hgcovers
        obtain ⟨j, hj, rfl⟩ := List.getElem_of_mem hg
        rcases lt_trichotomy j ptr with hjp | rfl | hjp
        · have hmem : (v.files lvl)[j] ∈ (v.files lvl).take ptr :=
            List.mem_take_iff_getElem.mpr ⟨j, by omega, rfl⟩
          exact absurd hgcovers.2 (hpassed _ hmem).not_ge
        · rw [hfile] at hgcovers
          exact absurd hgcovers.1 hbefore.not_ge
        · have hapart := List.pairwise_iff_getElem.mp (hsorted lvl hlvl).apart ptr j hlt hj hjp
          have hrange := ((hsorted lvl hlvl).bounds _ (List.getElem_mem hlt)).range
          rw [hfile] at hapart hrange
          exact absurd hgcovers.1 ((hbefore.trans_le hrange).trans hapart).not_ge

end Base

/-! ## What a compaction is about -/

/-- What stays the same while a compaction is made. -/
structure Task where
  level : ℕ
  inputs0 : List FileMetaData
  inputs1 : List FileMetaData
  version : Version

/-- What a compaction is about. -/
def taskOf (c : Compaction) : Task := ⟨c.level, c.inputs0, c.inputs1, c.inputVersion⟩

/-- The parts some tables of a level are read as. -/
def levelParts (level : ℕ) (files : List FileMetaData) : List Part :=
  if files.isEmpty then [] else if level = 0 then files.map .file else [.level files]

namespace Task

/-- The tables of a compaction. -/
def inputs (t : Task) : List FileMetaData := t.inputs0 ++ t.inputs1

/-- The parts that the input of a compaction merges. -/
def parts (t : Task) : List Part := levelParts t.level t.inputs0 ++ levelParts (t.level + 1) t.inputs1

end Task

/-- INTERNAL: the entries of the parts some tables are read as. -/
theorem levelParts_entries (tables : Tables) (level : ℕ) (files : List FileMetaData) :
    (levelParts level files).flatMap (Part.entries tables) = levelEntries tables files := by
  rw [levelParts]
  split_ifs with hempty
  · rw [List.isEmpty_iff.mp hempty]
    rfl
  · rw [List.flatMap_map]
    rfl
  · rw [List.flatMap_singleton]
    rfl

/-- INTERNAL: the entries of the input of a compaction. -/
theorem Task.parts_entries (t : Task) (tables : Tables) :
    t.parts.flatMap (Part.entries tables) = levelEntries tables t.inputs := by
  rw [Task.parts, List.flatMap_append, levelParts_entries, levelParts_entries, Task.inputs,
    levelEntries, levelEntries, levelEntries, List.flatMap_append]

/-- INTERNAL: the input of a compaction merges its parts.
SRCLINE: leveldb-1.15.0/db/version_set.cc:1224-1255 -/
theorem makeInputIterator_eq (c : Compaction) :
    c.makeInputIterator = MergedIterator.newMergingIterator ((taskOf c).parts.map Part.child) := by
  have hparts : ∀ level files, (levelParts level files).map Part.child =
      if files.isEmpty then [] else if level = 0 then files.map ChildIterator.newFile
      else [ChildIterator.newConcatenatingIterator files] := by
    intro level files
    rw [levelParts]
    split_ifs
    · rfl
    · rw [List.map_map]
      rfl
    · rfl
  rw [Compaction.makeInputIterator, Task.parts, List.map_append, hparts, hparts]
  rfl

/-! ## Which versions are dropped -/

/-- A version of a key than which there is no newer one. -/
def Newest (es : List Entry) (e : Entry) : Prop :=
  ∀ e' ∈ es, e'.userKey = e.userKey → e'.sequence ≤ e.sequence

/-- What is kept of the first `i` versions. -/
structure Sifted (t : Task) (es : List Entry) (i : ℕ) (kept : List Entry) : Prop where
  sub : kept.Sublist (es.take i)
  newest : ∀ e ∈ kept, Newest es e
  dropped : ∀ e ∈ es.take i, Newest es e →
    e ∈ kept ∨ e.type = .deletion ∧ BaseFor t.version t.level e.userKey

/-- What the loop remembers of the first `i` versions. -/
structure Reading (t : Task) (es : List Entry) (i : ℕ) (s : CompactionState) : Prop where
  task : taskOf s.compaction = t
  key : s.currentUserKey = (es.take i).getLast?.map Entry.userKey
  sequence : ∀ e, (es.take i).getLast? = some e → s.lastSequenceForKey = e.sequence
  ptrs : ∀ e ∈ es.drop i, PtrsBelow t.version s.compaction.levelPtrs e.userKey
  snapshot : ∀ e ∈ es, e.sequence ≤ s.smallestSnapshot
  snapshot_lt : s.smallestSnapshot < kMaxSequenceNumber

section Drop

variable {t : Task} {es kept : List Entry} {i : ℕ} {s : CompactionState} {e : Entry}

/-- INTERNAL: the versions up to one that is read. -/
theorem take_succ_eq (he : es[i]? = some e) : es.take (i + 1) = es.take i ++ [e] := by
  rw [List.take_add_one, he, Option.toList_some]

/-- INTERNAL: a version that comes right behind another of its key is not the newest. -/
theorem not_newest_of_last (hes : Ordered es) (he : es[i]? = some e) {p : Entry}
    (hp : (es.take i).getLast? = some p) (hkey : p.userKey = e.userKey) : ¬ Newest es e := by
  intro hnewest
  have hmem := List.mem_of_getLast? hp
  have hpair := hes.sorted.sublist (List.take_sublist (i + 1) es)
  rw [take_succ_eq he, List.pairwise_append] at hpair
  rcases hpair.2.2 p hmem e (by simp) with hlt | ⟨-, hlt⟩
  · exact absurd hkey hlt.ne
  · exact absurd (hnewest p (List.mem_of_mem_take hmem) hkey) hlt.not_ge

/-- INTERNAL: a version that comes behind none of its key is the newest. -/
theorem newest_of_last (hes : Ordered es) (he : es[i]? = some e)
    (hfirst : ∀ p, (es.take i).getLast? = some p → p.userKey ≠ e.userKey) : Newest es e := by
  intro e' he' hkey
  by_contra hnewer
  obtain ⟨j, hj⟩ := List.getElem?_of_mem he'
  have hji := hes.lt_of_newer hj he hkey (not_le.mp hnewer)
  obtain ⟨hi, -⟩ := List.getElem?_eq_some_iff.mp he
  have hlast : (es.take i).getLast? = es[i - 1]? := by
    rw [List.getLast?_eq_getElem?, List.length_take, Nat.min_eq_left hi.le,
      List.getElem?_take_of_lt (by omega)]
  have hp := List.getElem?_eq_getElem (show i - 1 < es.length by omega)
  refine hfirst _ (hlast.trans hp) (le_antisymm ?_ ?_)
  · exact hes.userKey_le hp he (by omega)
  · exact hkey ▸ hes.userKey_le hj hp (by omega)

/-- INTERNAL: the search for older versions changes nothing but how far it has come. -/
theorem isBaseLevelForKey_spec {c : Compaction} {key : List Byte}
    (hsorted : ∀ l, 0 < l → SortedLevel (c.inputVersion.files l))
    (hptrs : PtrsBelow c.inputVersion c.levelPtrs key) :
    taskOf (c.isBaseLevelForKey key).2 = taskOf c ∧
      PtrsBelow c.inputVersion (c.isBaseLevelForKey key).2.levelPtrs key ∧
      ((c.isBaseLevelForKey key).1 = true → BaseFor c.inputVersion c.level key) := by
  obtain ⟨h1, h2⟩ := baseLevelFrom_spec hsorted (kNumLevels - (c.level + 2))
    (show 0 < c.level + 2 by omega) hptrs
  refine ⟨rfl, h1, fun hbase l hl hlt => h2 hbase l hl ?_⟩
  omega

/-- INTERNAL: **what happens to a version**: it is dropped behind another of its key; otherwise it
is dropped only if it is a deletion with nothing left to hide.
SRCLINE: leveldb-1.15.0/db/db_impl.cc:907-940 -/
theorem Reading.dropEntry_eq (h : Reading t es i s) (hes : Ordered es)
    (hsorted : ∀ l, 0 < l → SortedLevel (t.version.files l)) (he : es[i]? = some e) :
    ∃ dropped c, s.dropEntry e.pair.1 = (dropped, { s with
        compaction := c, currentUserKey := some e.userKey, lastSequenceForKey := e.sequence }) ∧
      taskOf c = t ∧ PtrsBelow t.version c.levelPtrs e.userKey ∧
      (¬ Newest es e → dropped = true) ∧
      (Newest es e → dropped = true →
        e.type = .deletion ∧ BaseFor t.version t.level e.userKey) := by
  have hmem : e ∈ es := List.mem_of_getElem? he
  have hparse : parseInternalKey e.pair.1 = some e.parsed :=
    parseInternalKey_append (hes.sequence_le e hmem)
  have hsnap := h.snapshot e hmem
  obtain rfl := h.task
  have hptrs : PtrsBelow s.compaction.inputVersion s.compaction.levelPtrs e.userKey := by
    apply h.ptrs
    rw [List.mem_drop_iff_getElem]
    obtain ⟨hi, rfl⟩ := List.getElem?_eq_some_iff.mp he
    exact ⟨0, by simpa using hi, by simp⟩
  by_cases hsame : ∃ p, (es.take i).getLast? = some p ∧ p.userKey = e.userKey
  · obtain ⟨p, hp, hkey⟩ := hsame
    have hhidden := not_newest_of_last hes he hp hkey
    have hcurrent : s.currentUserKey = some e.userKey := by
      rw [h.key, hp, Option.map_some, hkey]
    have hfirst : s.isFirst e.parsed.userKey = false := by
      rw [CompactionState.isFirst, hcurrent]
      exact decide_eq_false (not_not.mpr ((sliceCompare_represents.zero_iff _ _).mpr rfl))
    have hdrop : s.dropRule e.parsed s.lastSequenceForKey = (true, s.compaction) := by
      rw [CompactionState.dropRule, if_pos]
      rw [h.sequence p hp]
      exact h.snapshot p (List.mem_of_mem_take (List.mem_of_getLast? hp))
    refine ⟨true, s.compaction, ?_, rfl, hptrs, fun _ => rfl, fun hn => absurd hn hhidden⟩
    simp only [CompactionState.dropEntry, hparse, hfirst, Bool.false_eq_true, if_false, hdrop,
      hcurrent]
    rfl
  · have hother : ∀ p, (es.take i).getLast? = some p → p.userKey ≠ e.userKey :=
      fun p hp hkey => hsame ⟨p, hp, hkey⟩
    have hnewest := newest_of_last hes he hother
    have hfirst : s.isFirst e.parsed.userKey = true := by
      rw [CompactionState.isFirst, h.key]
      cases hp : (es.take i).getLast? with
      | none => rfl
      | some p =>
        refine decide_eq_true fun hzero => hother p hp ?_
        exact ((sliceCompare_represents.zero_iff _ _).mp hzero).symm
    obtain ⟨hsame', hptrs', hbase⟩ := isBaseLevelForKey_spec hsorted hptrs
    have hrule : s.dropRule e.parsed kMaxSequenceNumber =
        if e.type = .deletion then s.compaction.isBaseLevelForKey e.userKey
        else (false, s.compaction) := by
      rw [CompactionState.dropRule, if_neg (not_le.mpr h.snapshot_lt)]
      simp only [Entry.parsed, hsnap, and_true]
    simp only [CompactionState.dropEntry, hparse, hfirst, if_true, hrule]
    by_cases hdel : e.type = .deletion
    · simp only [if_pos hdel]
      exact ⟨_, _, rfl, hsame', hptrs', fun hn => absurd hnewest hn, fun _ hd => ⟨hdel, hbase hd⟩⟩
    · simp only [if_neg hdel]
      exact ⟨false, s.compaction, rfl, rfl, hptrs, fun hn => absurd hnewest hn,
        fun _ hd => absurd hd (by simp)⟩

/-- INTERNAL: what the loop remembers after one more version. -/
theorem Reading.next (h : Reading t es i s) (hes : Ordered es) (he : es[i]? = some e)
    {c : Compaction} (htask : taskOf c = t) (hptrs : PtrsBelow t.version c.levelPtrs e.userKey) :
    Reading t es (i + 1) { s with
      compaction := c, currentUserKey := some e.userKey, lastSequenceForKey := e.sequence } where
  task := htask
  key := by rw [take_succ_eq he, List.getLast?_concat, Option.map_some]
  sequence := by
    intro e' he'
    rw [take_succ_eq he, List.getLast?_concat] at he'
    cases he'
    rfl
  ptrs := by
    intro e' he'
    obtain ⟨j, hj⟩ := List.getElem?_of_mem he'
    rw [List.getElem?_drop] at hj
    exact hptrs.mono (hes.userKey_le he hj (by omega))
  snapshot := h.snapshot
  snapshot_lt := h.snapshot_lt

/-- INTERNAL: one more version is kept. -/
theorem Sifted.keep (h : Sifted t es i kept) (he : es[i]? = some e) (hnewest : Newest es e) :
    Sifted t es (i + 1) (kept ++ [e]) where
  sub := by
    rw [take_succ_eq he]
    exact h.sub.append (List.Sublist.refl [e])
  newest := by
    intro e' he'
    rcases List.mem_append.mp he' with he' | he'
    · exact h.newest e' he'
    · exact List.mem_singleton.mp he' ▸ hnewest
  dropped := by
    intro e' he' hn
    rw [take_succ_eq he] at he'
    rcases List.mem_append.mp he' with he' | he'
    · exact (h.dropped e' he' hn).imp_left (List.mem_append_left _)
    · exact Or.inl (List.mem_append_right _ he')

/-- INTERNAL: one more version is dropped. -/
theorem Sifted.drop (h : Sifted t es i kept) (he : es[i]? = some e)
    (hdrop : Newest es e → e.type = .deletion ∧ BaseFor t.version t.level e.userKey) :
    Sifted t es (i + 1) kept where
  sub := h.sub.trans (List.take_sublist_take_left (Nat.le_succ i))
  newest := h.newest
  dropped := by
    intro e' he' hn
    rw [take_succ_eq he] at he'
    rcases List.mem_append.mp he' with he' | he'
    · exact h.dropped e' he' hn
    · rw [List.mem_singleton] at he'
      subst he'
      exact Or.inr (hdrop hn)

/-- INTERNAL: kept versions of different places have different keys, in order. -/
theorem Sifted.pairwise_lt (h : Sifted t es i kept) (hes : Ordered es) :
    kept.Pairwise fun a b => a.userKey < b.userKey := by
  have hsub : kept.Sublist es := h.sub.trans (List.take_sublist i es)
  apply (hes.sorted.sublist hsub).imp_of_mem
  rintro a b ha hb (hlt | ⟨heq, hlt⟩)
  · exact hlt
  · exact absurd (h.newest b hb a (hsub.subset ha) heq) hlt.not_ge

end Drop

/-! ## What is written -/

/-- The table that is being built holds some entries. -/
def Building (w : CompactionWork) (last : List Entry) : Prop :=
  match w.state.builder with
  | none => last = []
  | some out => last ≠ [] ∧ out.pairs = last.map Entry.pair ∧ out.number < w.nextFileNumber ∧
      w.tables out.number = none

/-- What a compaction has written: whole tables, and the one that is being built. -/
structure Written (w : CompactionWork) (kept : List Entry) : Prop where
  table : ∀ f ∈ w.state.outputs, TableOk w.tables f
  number_lt : ∀ f ∈ w.state.outputs, f.number < w.nextFileNumber
  nodup : (w.state.outputs.map FileMetaData.number).Nodup
  unused : ∀ number, w.nextFileNumber ≤ number → w.tables number = none
  split : ∃ last, kept = levelEntries w.tables w.state.outputs ++ last ∧ Building w last

/-- Tables were added, and the outputs that are new were not there before. -/
structure Grows (w w' : CompactionWork) : Prop where
  tables : Extends w.tables w'.tables
  next_le : w.nextFileNumber ≤ w'.nextFileNumber
  outputs : ∀ f ∈ w'.state.outputs, f ∈ w.state.outputs ∨ w.tables f.number = none

/-- Nothing has changed but what is written. -/
structure Writes (w w' : CompactionWork) : Prop extends Grows w w' where
  compaction : w'.state.compaction = w.state.compaction
  input : w'.state.input = w.state.input
  snapshot : w'.state.smallestSnapshot = w.state.smallestSnapshot
  key : w'.state.currentUserKey = w.state.currentUserKey
  sequence : w'.state.lastSequenceForKey = w.state.lastSequenceForKey

section Write

variable {w : CompactionWork} {kept : List Entry} {e : Entry}

/-- INTERNAL: nothing is written. -/
theorem writes_self (w : CompactionWork) : Writes w w :=
  ⟨⟨fun _ _ h => h, le_rfl, fun _ hf => Or.inl hf⟩, rfl, rfl, rfl, rfl, rfl⟩

/-- INTERNAL: tables are added, and then more. -/
theorem Grows.trans {w' w'' : CompactionWork} (h : Grows w w') (h' : Grows w' w'') :
    Grows w w'' where
  tables := fun number l hl => h'.tables number l (h.tables number l hl)
  next_le := h.next_le.trans h'.next_le
  outputs := by
    intro f hf
    rcases h'.outputs f hf with hf | hnone
    · exact h.outputs f hf
    · right
      cases hold : w.tables f.number with
      | none => rfl
      | some l =>
        rw [h.tables _ _ hold] at hnone
        cases hnone

/-- INTERNAL: something is written, and then more. -/
theorem Writes.trans {w' w'' : CompactionWork} (h : Writes w w') (h' : Writes w' w'') :
    Writes w w'' where
  toGrows := h.toGrows.trans h'.toGrows
  compaction := h'.compaction.trans h.compaction
  input := h'.input.trans h.input
  snapshot := h'.snapshot.trans h.snapshot
  key := h'.key.trans h.key
  sequence := h'.sequence.trans h.sequence

/-- INTERNAL: the entries of tables do not change when others are added. -/
theorem levelEntries_extend {tables tables' : Tables} {files : List FileMetaData}
    (h : ∀ f ∈ files, TableOk tables f) (hext : Extends tables tables') :
    levelEntries tables' files = levelEntries tables files :=
  List.flatMap_congr fun f hf => (h f hf).tableEntries_eq hext

/-- INTERNAL: **a table is finished.**
SRCLINE: leveldb-1.15.0/db/db_impl.cc:796-815 -/
theorem Written.addTable {out : Output} (h : Written w kept) (sizes : Sizes) (hkept : Ordered kept)
    (hfits : ∀ e ∈ kept, MemTable.EntryFits e) (hnumber : w.nextFileNumber ≤ 2 ^ 64)
    (hbuilder : w.state.builder = some out) :
    Written (w.addTable sizes out) kept ∧ Writes w (w.addTable sizes out) := by
  obtain ⟨last, hsplit, hbuild⟩ := h.split
  rw [Building, hbuilder] at hbuild
  obtain ⟨hne, hpairs, hlt, hnone⟩ := hbuild
  have hlast : last.Sublist kept := hsplit ▸ List.sublist_append_right _ _
  have hordered : Ordered last :=
    ⟨hkept.sorted.sublist hlast, fun e he => hkept.sequence_le e (hlast.subset he)⟩
  have hext := extends_update hnone out.pairs
  have htable : TableOk (Function.update w.tables out.number (some out.pairs)) (out.metaData sizes) := by
    have hnew := tableOk_new sizes hordered (fun e he => hfits e (hlast.subset he)) hne
      (hlt.trans_le hnumber) w.tables
    rwa [← hpairs] at hnew
  have hread : tableEntries (Function.update w.tables out.number (some out.pairs)) out.number = last := by
    rw [hpairs]
    exact tableEntries_update hordered w.tables out.number
  have houtputs : ∀ f ∈ (w.addTable sizes out).state.outputs,
      f ∈ w.state.outputs ∨ f = out.metaData sizes := by
    intro f hf
    simpa using List.mem_append.mp hf
  refine ⟨⟨?_, ?_, ?_, ?_, [], ?_, rfl⟩, ⟨hext, le_rfl, ?_⟩, rfl, rfl, rfl, rfl, rfl⟩
  · intro f hf
    rcases houtputs f hf with hf | rfl
    · exact (h.table f hf).extend hext
    · exact htable
  · intro f hf
    rcases houtputs f hf with hf | rfl
    · exact h.number_lt f hf
    · exact hlt
  · show ((w.state.outputs ++ [out.metaData sizes]).map FileMetaData.number).Nodup
    rw [List.map_append, List.nodup_append]
    refine ⟨h.nodup, List.nodup_singleton _, ?_⟩
    rintro number hold number' hnew rfl
    obtain ⟨f, hf, rfl⟩ := List.mem_map.mp hold
    have hsame : f.number = out.number := List.mem_singleton.mp hnew
    rw [hsame.symm, (h.table f hf).content] at hnone
    cases hnone
  · intro number (hle : w.nextFileNumber ≤ number)
    show Function.update w.tables out.number (some out.pairs) number = none
    rw [Function.update_of_ne (by omega : number ≠ out.number)]
    exact h.unused number hle
  · show kept = levelEntries (Function.update w.tables out.number (some out.pairs))
      (w.state.outputs ++ [out.metaData sizes]) ++ []
    rw [List.append_nil, levelEntries, List.flatMap_append, List.flatMap_singleton, hsplit]
    exact congrArg₂ _ (levelEntries_extend h.table hext).symm hread.symm
  · intro f hf
    rcases houtputs f hf with hf | rfl
    · exact Or.inl hf
    · exact Or.inr hnone

/-- INTERNAL: the table that is being built is finished, if there is one.
SRCLINE: leveldb-1.15.0/db/db_impl.cc:782-831 -/
theorem Written.finish (h : Written w kept) (sizes : Sizes) (hkept : Ordered kept)
    (hfits : ∀ e ∈ kept, MemTable.EntryFits e) (hnumber : w.nextFileNumber ≤ 2 ^ 64) :
    Written (w.finishCompactionOutputFile sizes) kept ∧
      Writes w (w.finishCompactionOutputFile sizes) ∧
      (w.finishCompactionOutputFile sizes).state.builder = none ∧
      (w.finishCompactionOutputFile sizes).nextFileNumber = w.nextFileNumber := by
  rw [CompactionWork.finishCompactionOutputFile]
  cases hbuilder : w.state.builder with
  | none => exact ⟨h, writes_self w, hbuilder, rfl⟩
  | some out =>
    obtain ⟨hwritten, hwrites⟩ := h.addTable sizes hkept hfits hnumber hbuilder
    exact ⟨hwritten, hwrites, rfl, rfl⟩

/-- INTERNAL: **a version is added.**
SRCLINE: leveldb-1.15.0/db/db_impl.cc:951-964 -/
theorem Written.addEntry (h : Written w kept) (e : Entry) :
    Written (w.addEntry e.pair.1 e.pair.2) (kept ++ [e]) ∧ Writes w (w.addEntry e.pair.1 e.pair.2) ∧
      (w.addEntry e.pair.1 e.pair.2).nextFileNumber ≤ w.nextFileNumber + 1 := by
  obtain ⟨last, hsplit, hbuild⟩ := h.split
  rw [Building] at hbuild
  have hkept : kept ++ [e] = levelEntries w.tables w.state.outputs ++ (last ++ [e]) := by
    rw [hsplit, List.append_assoc]
  -- the output that the version is added to, and the next number
  have hopen : w.nextFileNumber ≤ w.openCompactionOutputFile.2 ∧
      w.openCompactionOutputFile.2 ≤ w.nextFileNumber + 1 ∧
      w.openCompactionOutputFile.1.pairs = last.map Entry.pair ∧
      w.openCompactionOutputFile.1.number < w.openCompactionOutputFile.2 ∧
      w.tables w.openCompactionOutputFile.1.number = none := by
    rw [CompactionWork.openCompactionOutputFile]
    cases hbuilder : w.state.builder with
    | none =>
      rw [hbuilder] at hbuild
      exact ⟨Nat.le_succ _, le_rfl, by simp [hbuild], Nat.lt_succ_self _, h.unused _ le_rfl⟩
    | some out =>
      rw [hbuilder] at hbuild
      exact ⟨le_rfl, Nat.le_succ _, hbuild.2.1, hbuild.2.2.1, hbuild.2.2.2⟩
  obtain ⟨hle, hnext, hpairs, hlt, hnone⟩ := hopen
  refine ⟨⟨h.table, ?_, h.nodup, ?_, last ++ [e], hkept, ?_⟩,
    ⟨⟨fun _ _ hl => hl, hle, fun f hf => Or.inl hf⟩, rfl, rfl, rfl, rfl, rfl⟩, hnext⟩
  · exact fun f hf => (h.number_lt f hf).trans_le hle
  · exact fun number hnumber => h.unused number (hle.trans hnumber)
  · refine ⟨by simp, ?_, hlt, hnone⟩
    rw [hpairs, List.map_append]
    rfl

/-- INTERNAL: a version is kept.
SRCLINE: leveldb-1.15.0/db/db_impl.cc:951-973 -/
theorem Written.keepEntry (h : Written w kept) (sizes : Sizes) (e : Entry)
    (hkept : Ordered (kept ++ [e])) (hfits : ∀ e' ∈ kept ++ [e], MemTable.EntryFits e')
    (hnumber : w.nextFileNumber < 2 ^ 64) :
    Written (w.keepEntry sizes e.pair.1 e.pair.2) (kept ++ [e]) ∧
      Writes w (w.keepEntry sizes e.pair.1 e.pair.2) ∧
      (w.keepEntry sizes e.pair.1 e.pair.2).nextFileNumber ≤ w.nextFileNumber + 1 := by
  obtain ⟨hadd, hwrites, hle⟩ := h.addEntry e
  rw [CompactionWork.keepEntry]
  split_ifs
  · obtain ⟨hfinish, hwrites', -, hnext⟩ := hadd.finish sizes hkept hfits (by omega)
    exact ⟨hfinish, hwrites.trans hwrites', hnext.trans_le hle⟩
  · exact ⟨hadd, hwrites, hle⟩

end Write

/-! ## A round -/

/-- The first `i` versions have been read, and of them some were kept; the input stands at `p`. -/
structure Loop (fuel : ℕ) (t : Task) (es : List Entry) (i : ℕ) (p : Option ℕ) (kept : List Entry)
    (w : CompactionWork) : Prop where
  reading : Reading t es i w.state
  sifted : Sifted t es i kept
  written : Written w kept
  input : MergedAt w.tables fuel t.parts es w.state.input p
  parts : ∀ part ∈ t.parts, part.Ok w.tables fuel
  entries : es.Perm (levelEntries w.tables t.inputs)
  ordered : Ordered es
  old : ∀ l, 0 < l → SortedLevel (t.version.files l)

section Round

variable {fuel i : ℕ} {t : Task} {es kept : List Entry} {p : Option ℕ} {w w' : CompactionWork}
  {e : Entry}

/-- INTERNAL: the input of a compaction is read as the cursor over its versions. -/
theorem Loop.under (h : Loop fuel t es i p kept w) :
    Under (internalOps w.tables fuel) es (MergedAt w.tables fuel t.parts es) :=
  parts_under h.parts h.ordered (t.parts_entries w.tables ▸ h.entries)

/-- INTERNAL: all versions of the input can be stored. -/
theorem Loop.fits (h : Loop fuel t es i p kept w) : ∀ e ∈ es, MemTable.EntryFits e := by
  intro e he
  have hmem := h.entries.mem_iff.mp he
  rw [← t.parts_entries w.tables] at hmem
  obtain ⟨part, hpart, he⟩ := List.mem_flatMap.mp hmem
  exact (h.parts part hpart).fits he

/-- INTERNAL: what was kept is in order. -/
theorem Loop.kept_ordered (h : Loop fuel t es i p kept w) : Ordered kept := by
  have hsub : kept.Sublist es := h.sifted.sub.trans (List.take_sublist i es)
  exact ⟨h.ordered.sorted.sublist hsub, fun e he => h.ordered.sequence_le e (hsub.subset he)⟩

/-- INTERNAL: what was kept can be stored. -/
theorem Loop.kept_fits (h : Loop fuel t es i p kept w) : ∀ e ∈ kept, MemTable.EntryFits e :=
  fun e he => h.fits e (List.mem_of_mem_take (h.sifted.sub.subset he))

/-- INTERNAL: writing changes nothing of what is read.  Other tables may have been added too. -/
theorem Loop.extend (h : Loop fuel t es i p kept w) {kept' : List Entry} {j : ℕ}
    (hreading : Reading t es j w'.state) (hsifted : Sifted t es j kept')
    (hwritten : Written w' kept') (hinput : w'.state.input = w.state.input)
    (hext : Extends w.tables w'.tables) : Loop fuel t es j p kept' w' where
  reading := hreading
  sifted := hsifted
  written := hwritten
  input := hinput ▸ h.input.extend hext h.parts
  parts := fun part hpart => (h.parts part hpart).extend hext
  entries := by
    have hentries : levelEntries w'.tables t.inputs = levelEntries w.tables t.inputs := by
      rw [← t.parts_entries, ← t.parts_entries]
      exact List.flatMap_congr fun part hpart => (h.parts part hpart).entries_eq hext
    rw [hentries]
    exact h.entries
  ordered := h.ordered
  old := h.old

/-- INTERNAL: the loop does not notice tables that others write under new numbers. -/
theorem Loop.others (h : Loop fuel t es i p kept w) {tables' : Tables} {next : ℕ}
    (hext : Extends w.tables tables') (hnext : w.nextFileNumber ≤ next)
    (hsame : ∀ number < w.nextFileNumber, tables' number = w.tables number)
    (hunused : ∀ number, next ≤ number → tables' number = none) :
    Loop fuel t es i p kept ⟨w.state, next, tables'⟩ := by
  obtain ⟨last, hsplit, hbuild⟩ := h.written.split
  have hbuild' : Building ⟨w.state, next, tables'⟩ last := by
    rw [Building] at hbuild ⊢
    cases hbuilder : w.state.builder with
    | none =>
      rw [hbuilder] at hbuild
      exact hbuild
    | some out =>
      rw [hbuilder] at hbuild
      obtain ⟨hne, hpairs, hlt, hnone⟩ := hbuild
      exact ⟨hne, hpairs, hlt.trans_le hnext, (hsame _ hlt).trans hnone⟩
  refine h.extend h.reading h.sifted ⟨fun f hf => (h.written.table f hf).extend hext,
    fun f hf => (h.written.number_lt f hf).trans_le hnext, h.written.nodup, hunused, last, ?_,
    hbuild'⟩ rfl hext
  rw [hsplit]
  exact congrArg (· ++ last) (levelEntries_extend h.written.table hext).symm

/-- INTERNAL: what is remembered does not depend on what is written. -/
theorem Reading.of_writes (h : Reading t es i w.state) (hw : Writes w w') :
    Reading t es i w'.state where
  task := hw.compaction ▸ h.task
  key := hw.key ▸ h.key
  sequence := fun e he => hw.sequence ▸ h.sequence e he
  ptrs := hw.compaction ▸ h.ptrs
  snapshot := fun e he => hw.snapshot ▸ h.snapshot e he
  snapshot_lt := hw.snapshot ▸ h.snapshot_lt

/-- INTERNAL: the question where a table should end changes nothing but its own notes.
SRCLINE: leveldb-1.15.0/db/version_set.cc:1469-1489 -/
theorem shouldStopBefore_spec (c : Compaction) (key : List Byte) :
    taskOf (c.shouldStopBefore key).2 = taskOf c ∧
      (c.shouldStopBefore key).2.levelPtrs = c.levelPtrs := by
  rw [Compaction.shouldStopBefore]
  dsimp only
  split_ifs <;> exact ⟨rfl, rfl⟩

/-- INTERNAL: the output may end.
SRCLINE: leveldb-1.15.0/db/db_impl.cc:896-903 -/
theorem Loop.stopBefore (h : Loop fuel t es i p kept w) (sizes : Sizes) (key : List Byte)
    (hnumber : w.nextFileNumber ≤ 2 ^ 64) :
    Loop fuel t es i p kept (w.stopBefore sizes key) ∧ Grows w (w.stopBefore sizes key) ∧
      (w.stopBefore sizes key).nextFileNumber = w.nextFileNumber := by
  obtain ⟨htask, hptrs⟩ := shouldStopBefore_spec w.state.compaction key
  set w₁ : CompactionWork :=
    { w with state := { w.state with compaction := (w.state.compaction.shouldStopBefore key).2 } }
  have hreading : Reading t es i w₁.state :=
    ⟨htask.trans h.reading.task, h.reading.key, h.reading.sequence, hptrs ▸ h.reading.ptrs,
      h.reading.snapshot, h.reading.snapshot_lt⟩
  have hwritten : Written w₁ kept :=
    ⟨h.written.table, h.written.number_lt, h.written.nodup, h.written.unused, h.written.split⟩
  have hloop := h.extend hreading h.sifted hwritten rfl fun _ _ hl => hl
  have hgrows : Grows w w₁ := ⟨fun _ _ hl => hl, le_rfl, fun f hf => Or.inl hf⟩
  rw [CompactionWork.stopBefore]
  split_ifs
  · obtain ⟨hwritten', hwrites, -, hnext⟩ :=
      hwritten.finish sizes h.kept_ordered h.kept_fits hnumber
    exact ⟨hloop.extend (hreading.of_writes hwrites) h.sifted hwritten' hwrites.input
      hwrites.tables, hgrows.trans hwrites.toGrows, hnext⟩
  · exact ⟨hloop, hgrows, rfl⟩

/-- INTERNAL: **the next version is dropped or kept.**
SRCLINE: leveldb-1.15.0/db/db_impl.cc:905-973 -/
theorem Loop.sift (h : Loop fuel t es i p kept w) (sizes : Sizes) (he : es[i]? = some e)
    (hnumber : w.nextFileNumber < 2 ^ 64) :
    ∃ kept', Loop fuel t es (i + 1) p kept' (w.sift sizes e.pair.1 e.pair.2) ∧
      Grows w (w.sift sizes e.pair.1 e.pair.2) ∧
      (w.sift sizes e.pair.1 e.pair.2).nextFileNumber ≤ w.nextFileNumber + 1 := by
  obtain ⟨dropped, c, hdrop, htask, hptrs, hhidden, hobsolete⟩ :=
    h.reading.dropEntry_eq h.ordered h.old he
  have hreading := h.reading.next h.ordered he htask hptrs
  set s := { w.state with
    compaction := c, currentUserKey := some e.userKey, lastSequenceForKey := e.sequence }
  have hwritten : Written { w with state := s } kept :=
    ⟨h.written.table, h.written.number_lt, h.written.nodup, h.written.unused, h.written.split⟩
  have hgrows : Grows w { w with state := s } :=
    ⟨fun _ _ hl => hl, le_rfl, fun f hf => Or.inl hf⟩
  rw [CompactionWork.sift, hdrop]
  cases dropped with
  | true =>
    have hsifted := h.sifted.drop he fun hn => hobsolete hn rfl
    exact ⟨kept, h.extend hreading hsifted hwritten rfl hgrows.tables, hgrows, Nat.le_succ _⟩
  | false =>
    have hnewest : Newest es e := by
      by_contra hn
      exact absurd (hhidden hn) (by simp)
    have hsifted := h.sifted.keep he hnewest
    have hsub : (kept ++ [e]).Sublist es := hsifted.sub.trans (List.take_sublist _ es)
    obtain ⟨hwritten', hwrites, hnext⟩ := hwritten.keepEntry sizes e
      ⟨h.ordered.sorted.sublist hsub, fun e' he' => h.ordered.sequence_le e' (hsub.subset he')⟩
      (fun e' he' => h.fits e' (hsub.subset he')) hnumber
    have hgrows' := hgrows.trans hwrites.toGrows
    exact ⟨kept ++ [e], h.extend (hreading.of_writes hwrites) hsifted hwritten' hwrites.input
      hgrows'.tables, hgrows', hnext⟩

/-- INTERNAL: **a round of the loop** reads the next version.
SRCLINE: leveldb-1.15.0/db/db_impl.cc:884-976 -/
theorem Loop.round (h : Loop fuel t es i (clip (es.map Entry.pair) i) kept w) (sizes : Sizes)
    (he : es[i]? = some e) (hnumber : w.nextFileNumber < 2 ^ 64) :
    ∃ w' kept', w.round sizes fuel = some w' ∧
      Loop fuel t es (i + 1) (clip (es.map Entry.pair) (i + 1)) kept' w' ∧ Grows w w' ∧
      w'.nextFileNumber ≤ w.nextFileNumber + 1 := by
  have hat : clip (es.map Entry.pair) i = some i :=
    clip_of_lt (by simpa using (List.getElem?_eq_some_iff.mp he).1)
  have hcurrent : (internalOps w.tables fuel).current w.state.input = some e.pair :=
    h.under.current (hat ▸ h.input) he
  obtain ⟨hstop, hgrows, hnext⟩ := h.stopBefore sizes e.pair.1 hnumber.le
  obtain ⟨kept', hsift, hgrows', hnext'⟩ := hstop.sift sizes he (hnext ▸ hnumber)
  have hcursor : (cursorOps internalBefore (es.map Entry.pair)).move .next (some i) =
      some (clip (es.map Entry.pair) (i + 1)) := rfl
  obtain ⟨input, hmove, hinput⟩ :=
    hsift.under.simulates.move .next trivial (hat ▸ hsift.input) hcursor
  set w₂ := (w.stopBefore sizes e.pair.1).sift sizes e.pair.1 e.pair.2
  refine ⟨{ w₂ with state := { w₂.state with input := input } }, kept', ?_, ?_, ?_, ?_⟩
  · rw [CompactionWork.round, hcurrent, Option.bind_some]
    exact congrArg (Option.map _) hmove
  · exact ⟨⟨hsift.reading.task, hsift.reading.key, hsift.reading.sequence, hsift.reading.ptrs,
      hsift.reading.snapshot, hsift.reading.snapshot_lt⟩, hsift.sifted,
      ⟨hsift.written.table, hsift.written.number_lt, hsift.written.nodup, hsift.written.unused,
        hsift.written.split⟩, hinput, hsift.parts, hsift.entries, hsift.ordered, hsift.old⟩
  · exact hgrows.trans ⟨hgrows'.tables, hgrows'.next_le, hgrows'.outputs⟩
  · exact hnext'.trans_eq (congrArg (· + 1) hnext)

end Round

end ExternalSort.Analysis
