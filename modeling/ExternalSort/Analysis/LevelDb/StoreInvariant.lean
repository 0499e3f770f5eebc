import ExternalSort.Analysis.LevelDb.CompactionLoop
import ExternalSort.Analysis.LevelDb.VersionEdit
import ExternalSort.Model.LevelDb.Store

/-!
# What holds of a database at all times

The entries of a database lie at depths (`EntryAt`): in the memtable, in the one that waits, and on
the levels.  `StoreOk` says how: on the levels from 1 on the tables are apart, and of two versions
of a key the newer one does not lie deeper.  `Keeps` compares the entries with all records that were
ever written: nothing else is there, and the newest version of every key is, unless it is a deletion
and no other version of the key is left.
-/

set_option autoImplicit false

namespace ExternalSort.Analysis

open ExternalSort.Lib ExternalSort.Model

/-! ## Where the entries are -/

/-- An entry lies at a depth: 0 is the memtable, 1 the one that waits, and `l + 2` is level `l`. -/
def EntryAt (s : Store) : ℕ → Entry → Prop
  | 0, e => e ∈ memEntries s.mem
  | 1, e => ∃ table, s.imm = some table ∧ e ∈ memEntries table
  | l + 2, e => e ∈ levelEntries s.tables (s.version.files l)

/-- The tables of a version. -/
structure VersionOk (tables : Tables) (v : Version) : Prop where
  table : ∀ l, ∀ f ∈ v.files l, TableOk tables f
  sorted : ∀ l, FilesSorted (v.files l)
  disjoint : ∀ l, 0 < l → ∀ f ∈ v.files l, ∀ g ∈ v.files l, f ≠ g → hi f < lo g ∨ hi g < lo f
  apart : ∀ f ∈ v.files 0, ∀ g ∈ v.files 0, f ≠ g →
    ∀ e ∈ tableEntries tables f.number, ∀ e' ∈ tableEntries tables g.number, e.Apart e'
  unique : ∀ l l' f f', f ∈ v.files l → f' ∈ v.files l' → f.number = f'.number → l = l' ∧ f = f'
  top : ∀ l, kNumLevels ≤ l → v.files l = []

/-- What is in a database, and how it is arranged. -/
structure StoreOk (s : Store) : Prop where
  mem : MemTable.Holds s.mem (memEntries s.mem)
  imm : ∀ table, s.imm = some table → MemTable.Holds table (memEntries table)
  version : VersionOk s.tables s.version
  recent : ∀ d d' e e', d < d' → EntryAt s d e → EntryAt s d' e' → e'.userKey = e.userKey →
    e'.sequence < e.sequence
  unused : ∀ number, s.nextFileNumber ≤ number → s.tables number = none

/-- A database keeps what was written. -/
structure Keeps (s : Store) (log : List BatchOp) : Prop where
  last : s.lastSequence = log.length
  logged : ∀ d e, EntryAt s d e → e ∈ MemTable.batchEntries 1 log
  newest : ∀ e ∈ MemTable.batchEntries 1 log, Newest (MemTable.batchEntries 1 log) e →
    (∃ d, EntryAt s d e) ∨ e.type = .deletion ∧ ∀ d e', EntryAt s d e' → e'.userKey ≠ e.userKey

section Basic

variable {tables : Tables} {v : Version} {s : Store} {log : List BatchOp} {l : ℕ} {e e' : Entry}

/-- INTERNAL: the tables of a level from 1 on are apart, in order. -/
theorem VersionOk.pairwise (h : VersionOk tables v) (hl : 0 < l) :
    (v.files l).Pairwise fun f g => hi f < lo g := by
  apply (h.sorted l).imp_of_mem
  intro f g hf hg hlt
  have hne : f ≠ g := fun heq => absurd (congrArg fileRank heq) hlt.ne
  rcases h.disjoint l hl f hf g hg hne with hfg | hgf
  · exact hfg
  · have hle : lo f ≤ lo g := by
      apply userKey_le_of_rank_le
      rcases Prod.Lex.toLex_lt_toLex.mp hlt with hlt | ⟨heq, -⟩
      · exact hlt.le
      · exact heq.le
    exact absurd ((hle.trans (h.table l g hg).bounds.range).trans_lt hgf) (lt_irrefl _)

/-- INTERNAL: the tables of a level from 1 on can be read one after the other. -/
theorem VersionOk.levelOk (h : VersionOk tables v) (hl : 0 < l) : LevelOk tables (v.files l) :=
  ⟨fun f hf => (h.table l f hf).toFileOk, h.pairwise hl⟩

/-- INTERNAL: the levels of a version are sorted. -/
theorem VersionOk.levelsSorted (h : VersionOk tables v) : LevelsSorted v :=
  ⟨fun l f hf => (h.table l f hf).bounds, fun _ hl => h.pairwise hl⟩

/-- INTERNAL: an entry of a table lies on the level of the table. -/
theorem entryAt_level {f : FileMetaData} (hf : f ∈ s.version.files l)
    (he : e ∈ tableEntries s.tables f.number) : EntryAt s (l + 2) e :=
  mem_levelEntries.mpr ⟨f, hf, he⟩

/-- All entries of a database. -/
def storeEntries (s : Store) : List Entry :=
  (storeParts s.mem s.imm s.version).flatMap (Part.entries s.tables)

/-- INTERNAL: the entries of a database are those that lie at some depth. -/
theorem StoreOk.mem_storeEntries (h : StoreOk s) : e ∈ storeEntries s ↔ ∃ d, EntryAt s d e := by
  rw [storeEntries, List.mem_flatMap]
  constructor
  · rintro ⟨part, hpart, he⟩
    rcases List.mem_append.mp hpart with hpart | hpart
    · rcases List.mem_cons.mp hpart with rfl | hpart
      · exact ⟨0, he⟩
      · obtain ⟨table, himm, rfl⟩ := List.mem_map.mp hpart
        exact ⟨1, table, Option.mem_toList.mp himm, he⟩
    · rcases List.mem_append.mp hpart with hpart | hpart
      · obtain ⟨f, hf, rfl⟩ := List.mem_map.mp hpart
        exact ⟨2, entryAt_level hf he⟩
      · obtain ⟨l, -, rfl⟩ := List.mem_map.mp hpart
        exact ⟨l + 2, he⟩
  · rintro ⟨d, hd⟩
    match d, hd with
    | 0, he => exact ⟨.memTable s.mem, by simp [storeParts], he⟩
    | 1, ⟨table, himm, he⟩ => exact ⟨.memTable table, by simp [storeParts, himm], he⟩
    | 2, he =>
      obtain ⟨f, hf, he⟩ := mem_levelEntries.mp he
      exact ⟨.file f, by simp [storeParts, hf], he⟩
    | l + 3, he =>
      obtain ⟨f, hf, -⟩ := mem_levelEntries.mp he
      have hne : s.version.files (l + 1) ≠ [] := List.ne_nil_of_mem hf
      have hlt : l + 1 < kNumLevels := by
        by_contra hle
        exact hne (h.version.top _ (not_lt.mp hle))
      refine ⟨.level (s.version.files (l + 1)), ?_, he⟩
      simp only [storeParts, List.mem_append, List.mem_map, List.mem_filter, List.mem_range'_1]
      refine Or.inr (Or.inr ⟨l + 1, ⟨⟨by omega, by omega⟩, ?_⟩, rfl⟩)
      simpa using hne

/-- INTERNAL: the versions of a key at two depths differ. -/
theorem StoreOk.apart_of_lt (h : StoreOk s) {d d' : ℕ} (hd : d < d') (he : EntryAt s d e)
    (he' : EntryAt s d' e') : e.Apart e' :=
  fun hkey => (h.recent d d' e e' hd he he' hkey.symm).ne'

/-- INTERNAL: no version comes twice on a level. -/
theorem VersionOk.levelEntries_apart (h : VersionOk tables v) (l : ℕ) :
    (levelEntries tables (v.files l)).Pairwise Entry.Apart := by
  rcases Nat.eq_zero_or_pos l with rfl | hl
  · rw [levelEntries, List.pairwise_flatMap]
    refine ⟨fun f hf => (h.table 0 f hf).ordered.apart, ?_⟩
    apply (h.sorted 0).imp_of_mem
    intro f g hf hg hlt
    exact h.apart f hf g hg fun heq => absurd (congrArg fileRank heq) hlt.ne
  · exact (h.levelOk hl).ordered.apart

/-- INTERNAL: the entries of a database, from the memtable downwards. -/
theorem storeEntries_eq (s : Store) : storeEntries s =
    memEntries s.mem ++ (s.imm.toList.flatMap memEntries ++ (levelEntries s.tables (s.version.files 0) ++
      ((List.range' 1 (kNumLevels - 1)).filter fun l => !(s.version.files l).isEmpty).flatMap fun l =>
        levelEntries s.tables (s.version.files l))) := by
  simp only [storeEntries, storeParts, List.flatMap_append, List.flatMap_cons, List.flatMap_map,
    List.append_assoc]
  rfl

/-- INTERNAL: **no version comes twice.** -/
theorem StoreOk.apart (h : StoreOk s) : (storeEntries s).Pairwise Entry.Apart := by
  have himm : ∀ e ∈ s.imm.toList.flatMap memEntries, EntryAt s 1 e := by
    intro e he
    obtain ⟨table, htable, he⟩ := List.mem_flatMap.mp he
    exact ⟨table, Option.mem_toList.mp htable, he⟩
  have hdeep : ∀ e ∈ ((List.range' 1 (kNumLevels - 1)).filter fun l =>
      !(s.version.files l).isEmpty).flatMap fun l => levelEntries s.tables (s.version.files l),
      ∃ d, 2 < d ∧ EntryAt s d e := by
    intro e he
    obtain ⟨l, hl, he⟩ := List.mem_flatMap.mp he
    have hpos := (List.mem_range'_1.mp (List.mem_filter.mp hl).1).1
    exact ⟨l + 2, by omega, he⟩
  rw [storeEntries_eq, List.pairwise_append, List.pairwise_append, List.pairwise_append]
  refine ⟨h.mem.ordered.apart, ⟨?_, ⟨h.version.levelEntries_apart 0, ?_, ?_⟩, ?_⟩, ?_⟩
  · cases hs : s.imm with
    | none => exact List.Pairwise.nil
    | some table =>
      rw [Option.toList_some, List.flatMap_singleton]
      exact (h.imm table hs).ordered.apart
  · rw [List.pairwise_flatMap]
    refine ⟨fun l _ => h.version.levelEntries_apart l, ?_⟩
    apply ((List.pairwise_lt_range' ..).filter _).imp
    intro l l' hl e he e' he'
    exact h.apart_of_lt (show l + 2 < l' + 2 by omega) he he'
  · intro e he e' he'
    obtain ⟨d, hd, he'⟩ := hdeep e' he'
    exact h.apart_of_lt (d := 2) hd he he'
  · intro e he e' he'
    rcases List.mem_append.mp he' with he' | he'
    · exact h.apart_of_lt (show 1 < 2 by omega) (himm e he) he'
    · obtain ⟨d, hd, he'⟩ := hdeep e' he'
      exact h.apart_of_lt (show 1 < d by omega) (himm e he) he'
  · intro e he e' he'
    rcases List.mem_append.mp he' with he' | he'
    · exact h.apart_of_lt (show 0 < 1 by omega) he (himm e' he')
    · rcases List.mem_append.mp he' with he' | he'
      · exact h.apart_of_lt (show 0 < 2 by omega) he he'
      · obtain ⟨d, hd, he'⟩ := hdeep e' he'
        exact h.apart_of_lt (show 0 < d by omega) he he'

/-- INTERNAL: entries that are apart can be put in order. -/
theorem exists_ordered {es : List Entry} (hapart : es.Pairwise Entry.Apart)
    (hseq : ∀ e ∈ es, e.sequence ≤ kMaxSequenceNumber) :
    ∃ sorted, Ordered sorted ∧ sorted.Perm es := by
  set le : Entry → Entry → Bool := fun a b =>
    decide (a.userKey < b.userKey ∨ a.userKey = b.userKey ∧ b.sequence ≤ a.sequence)
  have hle : ∀ a b, le a b = true ↔
      a.userKey < b.userKey ∨ a.userKey = b.userKey ∧ b.sequence ≤ a.sequence :=
    fun a b => decide_eq_true_iff
  have htrans : ∀ a b c, le a b = true → le b c = true → le a c = true := by
    intro a b c hab hbc
    rw [hle] at *
    rcases hab with hab | ⟨hab, hseq⟩
    · rcases hbc with hbc | ⟨hbc, -⟩
      · exact Or.inl (hab.trans hbc)
      · exact Or.inl (hbc ▸ hab)
    · rcases hbc with hbc | ⟨hbc, hseq'⟩
      · exact Or.inl (hab ▸ hbc)
      · exact Or.inr ⟨hab.trans hbc, hseq'.trans hseq⟩
  have htotal : ∀ a b, (le a b || le b a) = true := by
    intro a b
    rw [Bool.or_eq_true, hle, hle]
    rcases lt_trichotomy a.userKey b.userKey with hlt | heq | hlt
    · exact Or.inl (Or.inl hlt)
    · rcases le_total b.sequence a.sequence with hle | hle
      · exact Or.inl (Or.inr ⟨heq, hle⟩)
      · exact Or.inr (Or.inr ⟨heq.symm, hle⟩)
    · exact Or.inr (Or.inl hlt)
  have hperm := List.mergeSort_perm es le
  refine ⟨es.mergeSort le, ⟨?_, fun e he => hseq e (hperm.mem_iff.mp he)⟩, hperm⟩
  have hapart' := (hperm.pairwise_iff Entry.Apart.symm).mpr hapart
  apply ((List.pairwise_mergeSort htrans htotal es).and hapart').imp
  rintro a b ⟨hab, hne⟩
  rcases (hle a b).mp hab with hlt | ⟨heq, hseq⟩
  · exact Or.inl hlt
  · exact Or.inr ⟨heq, lt_of_le_of_ne hseq (hne heq).symm⟩

/-- INTERNAL: what was written is kept where entries only change their depth. -/
theorem Keeps.of_entries (hk : Keeps s log) {s' : Store} (hlast : s'.lastSequence = s.lastSequence)
    (hfrom : ∀ d e, EntryAt s' d e → ∃ d₀, EntryAt s d₀ e)
    (hstill : ∀ d e, EntryAt s d e → ∃ d', EntryAt s' d' e) : Keeps s' log := by
  refine ⟨hlast.trans hk.last, fun d e he => ?_, fun e he hnewest => ?_⟩
  · obtain ⟨d₀, he⟩ := hfrom d e he
    exact hk.logged d₀ e he
  · rcases hk.newest e he hnewest with ⟨d, hd⟩ | ⟨hdel, hnone⟩
    · exact Or.inl (hstill d e hd)
    · refine Or.inr ⟨hdel, fun d e' he' => ?_⟩
      obtain ⟨d₀, he'⟩ := hfrom d e' he'
      exact hnone d₀ e' he'

/-! ## How many there are -/

/-- INTERNAL: there are no more entries than records that were written. -/
theorem Keeps.length_le (h : Keeps s log) {es : List Entry} (hapart : es.Pairwise Entry.Apart)
    (hes : ∀ e ∈ es, ∃ d, EntryAt s d e) : es.length ≤ log.length := by
  have hnodup : es.Nodup := hapart.imp fun hne heq => by
    subst heq
    exact hne rfl rfl
  have hsub : es ⊆ MemTable.batchEntries 1 log := by
    intro e he
    obtain ⟨d, hd⟩ := hes e he
    exact h.logged d e hd
  simpa using (List.subperm_of_subset hnodup hsub).length_le

/-- INTERNAL: a level has no more tables than entries. -/
theorem VersionOk.length_files_le (h : VersionOk tables v) (l : ℕ) :
    (v.files l).length ≤ (levelEntries tables (v.files l)).length := by
  have hcount : ∀ files : List FileMetaData, (∀ f ∈ files, TableOk tables f) →
      files.length ≤ (levelEntries tables files).length := by
    intro files hfiles
    induction files with
    | nil => exact Nat.zero_le _
    | cons f files ih =>
      have hrest := ih fun g hg => hfiles g (List.mem_cons_of_mem f hg)
      obtain ⟨e, he, -⟩ := (hfiles f List.mem_cons_self).low
      have hpos := List.length_pos_of_mem he
      rw [levelEntries, List.flatMap_cons, List.length_append, List.length_cons]
      rw [levelEntries] at hrest
      omega
  exact hcount _ (h.table l)

/-- INTERNAL: a level has no more tables than records were written. -/
theorem Keeps.length_files_le (hk : Keeps s log) (h : StoreOk s) (l : ℕ) :
    (s.version.files l).length ≤ log.length :=
  (h.version.length_files_le l).trans
    (hk.length_le (h.version.levelEntries_apart l) fun _ he => ⟨l + 2, he⟩)

/-- The rounds that are enough for every loop, when so many records are written. -/
def storeRounds (n : ℕ) : ℕ := (2 * n + 1) * (n + 1) + n + kMaxHeight + 2

/-- INTERNAL: there are enough rounds to find all tables that overlap a range. -/
theorem Keeps.overlapFuel_le (hk : Keeps s log) (h : StoreOk s) {fuel : ℕ}
    (hfuel : storeRounds log.length ≤ fuel) (l : ℕ) : overlapFuel (s.version.files l) ≤ fuel := by
  have hlen := hk.length_files_le h l
  refine le_trans ?_ (hfuel.trans' (show _ ≤ storeRounds log.length from
    (Nat.le_add_right ((2 * log.length + 1) * (log.length + 1)) (log.length + kMaxHeight + 2))))
  exact Nat.mul_le_mul (by omega) (by omega)

/-- INTERNAL: **all parts of a database can be read.** -/
theorem Keeps.parts_ok (hk : Keeps s log) (h : StoreOk s) {fuel : ℕ}
    (hfuel : storeRounds log.length ≤ fuel) :
    ∀ part ∈ storeParts s.mem s.imm s.version, part.Ok s.tables fuel := by
  have hrounds : log.length + kMaxHeight + 2 ≤ fuel :=
    le_trans (by unfold storeRounds; omega) hfuel
  have hmax : kMaxHeight = 12 := rfl
  intro part hpart
  rcases List.mem_append.mp hpart with hpart | hpart
  · rcases List.mem_cons.mp hpart with rfl | hpart
    · have hlen := hk.length_le h.mem.ordered.apart fun e he => ⟨0, he⟩
      exact ⟨h.mem, by omega⟩
    · obtain ⟨table, himm, rfl⟩ := List.mem_map.mp hpart
      have himm' := Option.mem_toList.mp himm
      have hlen := hk.length_le (h.imm table himm').ordered.apart fun e he => ⟨1, table, himm', he⟩
      exact ⟨h.imm table himm', by omega⟩
  · rcases List.mem_append.mp hpart with hpart | hpart
    · obtain ⟨f, hf, rfl⟩ := List.mem_map.mp hpart
      exact (h.version.table 0 f hf).toFileOk
    · obtain ⟨l, hl, rfl⟩ := List.mem_map.mp hpart
      have hpos := (List.mem_range'_1.mp (List.mem_filter.mp hl).1).1
      have hlen := hk.length_files_le h l
      exact ⟨h.version.levelOk (by omega), by omega⟩

end Basic

end ExternalSort.Analysis
