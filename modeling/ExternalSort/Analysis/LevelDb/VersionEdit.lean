import ExternalSort.Analysis.LevelDb.Version

/-!
# What an edit does to the tables of a level

The tables of a level are kept in the order of their smallest keys and numbers (`FilesSorted`).
After an edit a level has the tables it had and those that were added, without those that were
deleted, in this order.  To apply several edits at once, as when a store is opened, is to apply
them one after the other.
-/

set_option autoImplicit false

namespace ExternalSort.Analysis

open ExternalSort.Lib ExternalSort.Model

/-- What the tables of a level are ordered by. -/
def fileRank (f : FileMetaData) : (List Byte ×ₗ ℕᵒᵈ) ×ₗ ℕ := toLex (internalRank f.smallest, f.number)

/-- The tables of a level are in order. -/
def FilesSorted (files : List FileMetaData) : Prop :=
  files.Pairwise fun f g => fileRank f < fileRank g

variable {f g : FileMetaData} {files base added : List FileMetaData}

/-- INTERNAL: tables of one rank have one number. -/
theorem number_eq_of_fileRank_eq (h : fileRank f = fileRank g) : f.number = g.number :=
  (Prod.mk.inj (toLex_inj.mp h)).2

/-- INTERNAL: the order of the tables is that of their ranks.
SRCLINE: leveldb-1.15.0/db/version_set.cc:611-623 -/
theorem bySmallestKey_iff : bySmallestKey f g = true ↔ fileRank f < fileRank g := by
  have hneg := internalKeyCompare_represents.neg_iff f.smallest g.smallest
  have hzero := internalKeyCompare_represents.zero_iff f.smallest g.smallest
  rw [fileRank, fileRank, Prod.Lex.toLex_lt_toLex, ← hneg, ← hzero, bySmallestKey]
  split_ifs with hne
  · simp [hne]
  · rw [not_not] at hne
    simp [hne]

/-- INTERNAL: sorted tables are known by which they are. -/
theorem FilesSorted.eq_of_mem_iff {files' : List FileMetaData} (h : FilesSorted files)
    (h' : FilesSorted files') (hmem : ∀ f, f ∈ files ↔ f ∈ files') : files = files' := by
  have hnodup : ∀ {l}, FilesSorted l → l.Nodup :=
    fun hl => List.Pairwise.imp (fun hab heq => absurd (congrArg fileRank heq) hab.ne) hl
  have hperm := (List.perm_ext_iff_of_nodup (hnodup h) (hnodup h')).mpr hmem
  exact hperm.eq_of_pairwise (fun _ _ _ _ hab hba => absurd hab hba.not_gt) h h'

/-! ## Adding tables to a set -/

/-- INTERNAL: a table goes into a set of tables, if its number is new there. -/
theorem mem_insertFile (hnew : ∀ g ∈ files, g.number ≠ f.number) :
    g ∈ Builder.insertFile f files ↔ g = f ∨ g ∈ files := by
  induction files with
  | nil => simp [Builder.insertFile]
  | cons h files ih =>
    have hne : fileRank h ≠ fileRank f := fun heq =>
      hnew h List.mem_cons_self (number_eq_of_fileRank_eq heq)
    rw [Builder.insertFile]
    split_ifs with hfh hhf
    · simp
    · rw [List.mem_cons, ih fun g hg => hnew g (List.mem_cons_of_mem h hg), List.mem_cons]
      exact or_left_comm
    · rw [bySmallestKey_iff, not_lt] at hfh hhf
      exact absurd (le_antisymm hfh hhf) hne

/-- INTERNAL: the tables are still sorted when one is added. -/
theorem insertFile_sorted (h : FilesSorted files) (hnew : ∀ g ∈ files, g.number ≠ f.number) :
    FilesSorted (Builder.insertFile f files) := by
  induction files with
  | nil => exact List.pairwise_singleton _ _
  | cons g files ih =>
    obtain ⟨hg, hfiles⟩ := List.pairwise_cons.mp h
    have hnew' : ∀ g ∈ files, g.number ≠ f.number := fun k hk => hnew k (List.mem_cons_of_mem g hk)
    rw [Builder.insertFile]
    split_ifs with hfg hgf
    · rw [bySmallestKey_iff] at hfg
      refine List.pairwise_cons.mpr ⟨fun k hk => ?_, h⟩
      rcases List.mem_cons.mp hk with rfl | hk
      · exact hfg
      · exact hfg.trans (hg k hk)
    · rw [bySmallestKey_iff] at hgf
      refine List.pairwise_cons.mpr ⟨fun k hk => ?_, ih hfiles hnew'⟩
      rcases (mem_insertFile hnew').mp hk with rfl | hk
      · exact hgf
      · exact hg k hk
    · exact h

/-! ## The added tables among the others -/

/-- INTERNAL: all tables are taken over. -/
theorem mergeFiles_perm (base added : List FileMetaData) :
    (Builder.mergeFiles base added).Perm (base ++ added) := by
  induction added generalizing base with
  | nil => simp [Builder.mergeFiles]
  | cons f added ih =>
    rw [Builder.mergeFiles]
    conv_rhs => rw [← List.takeWhile_append_dropWhile (p := fun g => !bySmallestKey f g) (l := base),
      List.append_assoc]
    exact ((ih _).cons f |>.trans List.perm_middle.symm).append_left _

/-- INTERNAL: **the merged tables are in order**, if no added table has the place of another.
The induction is on the added tables. -/
theorem mergeFiles_sorted (hbase : FilesSorted base) (hadded : FilesSorted added)
    (hne : ∀ f ∈ base, ∀ g ∈ added, fileRank f ≠ fileRank g) :
    FilesSorted (Builder.mergeFiles base added) := by
  induction added generalizing base with
  | nil => exact hbase
  | cons f added ih =>
    obtain ⟨hf, hadded⟩ := List.pairwise_cons.mp hadded
    rw [Builder.mergeFiles]
    set low := base.takeWhile fun g => !bySmallestKey f g with hlow
    set high := base.dropWhile fun g => !bySmallestKey f g with hhigh
    have hsplit : base = low ++ high := List.takeWhile_append_dropWhile.symm
    rw [hsplit] at hbase hne
    obtain ⟨hlowsorted, hhighsorted, hlowhigh⟩ := List.pairwise_append.mp hbase
    have hbelow : ∀ g ∈ low, fileRank g < fileRank f := by
      intro g hg
      have hnot := List.mem_takeWhile_imp hg
      rw [Bool.not_eq_true', ← Bool.not_eq_true, bySmallestKey_iff, not_lt] at hnot
      exact lt_of_le_of_ne hnot (hne g (List.mem_append_left _ hg) f List.mem_cons_self)
    have habove : ∀ g ∈ high, fileRank f < fileRank g := by
      intro g hg
      cases hcons : high with
      | nil => simp [hcons] at hg
      | cons k rest =>
        have hk : ¬ (!bySmallestKey f k) = true := by
          have hhead := List.head_dropWhile_not (l := base) (fun g => !bySmallestKey f g)
            (by rw [← hhigh, hcons]; exact List.cons_ne_nil _ _)
          simpa only [← hhigh, hcons, List.head_cons, Bool.not_eq_true] using hhead
        rw [Bool.not_eq_true', Bool.not_eq_false, bySmallestKey_iff] at hk
        rw [hcons] at hg hhighsorted
        rcases List.mem_cons.mp hg with rfl | hg
        · exact hk
        · exact hk.trans ((List.pairwise_cons.mp hhighsorted).1 g hg)
    have hrest := ih hhighsorted hadded fun g hg k hk =>
      hne g (List.mem_append_right _ hg) k (List.mem_cons_of_mem f hk)
    have hmem : ∀ g ∈ Builder.mergeFiles high added, g ∈ high ∨ g ∈ added := fun g hg =>
      List.mem_append.mp ((mergeFiles_perm high added).mem_iff.mp hg)
    refine List.pairwise_append.mpr ⟨hlowsorted, List.pairwise_cons.mpr ⟨?_, hrest⟩, ?_⟩
    · intro g hg
      rcases hmem g hg with hg | hg
      · exact habove g hg
      · exact hf g hg
    · intro g hg k hk
      rcases List.mem_cons.mp hk with rfl | hk
      · exact hbelow g hg
      · rcases hmem k hk with hk | hk
        · exact hlowhigh g hg k hk
        · exact (hbelow g hg).trans (hf k hk)

/-! ## Edits -/

section Edits

variable {b : Builder} {edit : VersionEdit} {level : ℕ}

/-- INTERNAL: the tables of the next version.
SRCLINE: leveldb-1.15.0/db/version_set.cc:716-745 -/
theorem mem_saveTo : f ∈ b.saveTo.files level ↔
    (f ∈ b.base.files level ∨ f ∈ (b.levels level).addedFiles) ∧
      f.number ∉ (b.levels level).deletedFiles := by
  rw [Builder.saveTo, List.mem_filter, (mergeFiles_perm _ _).mem_iff, List.mem_append,
    decide_eq_true_iff]

/-- The tables of a builder: numbers tell them apart. -/
structure BuilderOk (b : Builder) : Prop where
  base : ∀ level, FilesSorted (b.base.files level)
  added : ∀ level, FilesSorted (b.levels level).addedFiles
  apart : ∀ level, ∀ f ∈ b.base.files level, ∀ g ∈ (b.levels level).addedFiles, f.number ≠ g.number

/-- INTERNAL: the levels of the next version are sorted. -/
theorem BuilderOk.sorted (h : BuilderOk b) (level : ℕ) : FilesSorted (b.saveTo.files level) := by
  apply List.Pairwise.filter
  apply mergeFiles_sorted (h.base level) (h.added level)
  intro f hf g hg heq
  exact h.apart level f hf g hg (number_eq_of_fileRank_eq heq)

/-- INTERNAL: a builder on a version, before any edit. -/
theorem builderOk_new {v : Version} (h : ∀ level, FilesSorted (v.files level)) :
    BuilderOk (Builder.new v) :=
  ⟨h, fun _ => List.Pairwise.nil, fun _ _ _ _ hg => absurd hg List.not_mem_nil⟩

/-- The numbers of the tables an edit adds are new on their levels. -/
structure FreshEdit (b : Builder) (newFiles : List (ℕ × FileMetaData)) : Prop where
  nodup : (newFiles.map fun n => n.2.number).Nodup
  base : ∀ n ∈ newFiles, ∀ f ∈ b.base.files n.1, f.number ≠ n.2.number
  added : ∀ n ∈ newFiles, ∀ f ∈ (b.levels n.1).addedFiles, f.number ≠ n.2.number

/-- INTERNAL: the numbers of an edit are noted as deleted. -/
theorem foldl_deleteFile (deleted : List (ℕ × ℕ)) (b : Builder) :
    (deleted.foldl Builder.deleteFile b).base = b.base ∧
    (∀ level, ((deleted.foldl Builder.deleteFile b).levels level).addedFiles =
      (b.levels level).addedFiles) ∧
    ∀ level n, n ∈ ((deleted.foldl Builder.deleteFile b).levels level).deletedFiles ↔
      n ∈ (b.levels level).deletedFiles ∨ (level, n) ∈ deleted := by
  induction deleted generalizing b with
  | nil => simp
  | cons d deleted ih =>
    obtain ⟨hbase, hadded, hdeleted⟩ := ih (b.deleteFile d)
    rw [List.foldl_cons]
    refine ⟨hbase, fun level => (hadded level).trans ?_, fun level n => (hdeleted level n).trans ?_⟩
    · by_cases hlevel : level = d.1
      · simp [Builder.deleteFile, hlevel]
      · simp [Builder.deleteFile, hlevel]
    · by_cases hlevel : level = d.1
      · simp [Builder.deleteFile, hlevel, Prod.ext_iff]
        tauto
      · simp [Builder.deleteFile, hlevel, Prod.ext_iff]

/-- INTERNAL: a table with a new number is noted. -/
theorem BuilderOk.addFile {n : ℕ × FileMetaData} (h : BuilderOk b)
    (hbase : ∀ f ∈ b.base.files n.1, f.number ≠ n.2.number)
    (hadded : ∀ f ∈ (b.levels n.1).addedFiles, f.number ≠ n.2.number) :
    BuilderOk (b.addFile n) := by
  refine ⟨h.base, fun level => ?_, fun level f hf g hg => ?_⟩
  · by_cases hlevel : level = n.1
    · subst hlevel
      simpa [Builder.addFile] using insertFile_sorted (h.added n.1) hadded
    · simpa [Builder.addFile, hlevel] using h.added level
  · by_cases hlevel : level = n.1
    · subst hlevel
      have hg' : g ∈ Builder.insertFile n.2 (b.levels n.1).addedFiles := by
        simpa [Builder.addFile] using hg
      rcases (mem_insertFile hadded).mp hg' with rfl | hg'
      · exact hbase f hf
      · exact h.apart n.1 f hf g hg'
    · exact h.apart level f hf g (by simpa [Builder.addFile, hlevel] using hg)

/-- INTERNAL: what is added and deleted, table by table.  The induction is on the tables. -/
theorem foldl_addFile {newFiles : List (ℕ × FileMetaData)} (h : BuilderOk b)
    (hfresh : FreshEdit b newFiles) :
    (newFiles.foldl Builder.addFile b).base = b.base ∧
    BuilderOk (newFiles.foldl Builder.addFile b) ∧
    (∀ level f, f ∈ ((newFiles.foldl Builder.addFile b).levels level).addedFiles ↔
      f ∈ (b.levels level).addedFiles ∨ (level, f) ∈ newFiles) ∧
    ∀ level d, d ∈ ((newFiles.foldl Builder.addFile b).levels level).deletedFiles ↔
      d ∈ (b.levels level).deletedFiles ∧ ∀ f, (level, f) ∈ newFiles → f.number ≠ d := by
  induction newFiles generalizing b with
  | nil => simpa using h
  | cons n newFiles ih =>
    have hbase := hfresh.base n List.mem_cons_self
    have hadded := hfresh.added n List.mem_cons_self
    obtain ⟨hnumber, hnodup⟩ := List.nodup_cons.mp hfresh.nodup
    have hmem : ∀ level f, f ∈ ((b.addFile n).levels level).addedFiles ↔
        f ∈ (b.levels level).addedFiles ∨ (level, f) = n := by
      intro level f
      by_cases hlevel : level = n.1
      · subst hlevel
        simp [Builder.addFile, mem_insertFile hadded, Prod.ext_iff]
        tauto
      · simp [Builder.addFile, hlevel, Prod.ext_iff]
    have hdel : ∀ level d, d ∈ ((b.addFile n).levels level).deletedFiles ↔
        d ∈ (b.levels level).deletedFiles ∧ (level = n.1 → n.2.number ≠ d) := by
      intro level d
      by_cases hlevel : level = n.1
      · subst hlevel
        simp [Builder.addFile, ne_comm (a := d)]
      · simp [Builder.addFile, hlevel]
    have hfresh' : FreshEdit (b.addFile n) newFiles := by
      refine ⟨hnodup, fun m hm => hfresh.base m (List.mem_cons_of_mem n hm), fun m hm f hf => ?_⟩
      rcases (hmem m.1 f).mp hf with hf | rfl
      · exact hfresh.added m (List.mem_cons_of_mem n hm) f hf
      · exact fun heq => hnumber (List.mem_map.mpr ⟨m, hm, heq.symm⟩)
    obtain ⟨hb, hok, hadd, hrest⟩ := ih (h.addFile hbase hadded) hfresh'
    rw [List.foldl_cons]
    refine ⟨hb, hok, fun level f => ?_, fun level d => ?_⟩
    · rw [hadd, hmem, List.mem_cons]
      tauto
    · rw [hrest, hdel]
      constructor
      · rintro ⟨⟨hd, hn⟩, hall⟩
        refine ⟨hd, fun f hf => ?_⟩
        rcases List.mem_cons.mp hf with heq | hf
        · obtain rfl := heq
          exact hn rfl
        · exact hall f hf
      · rintro ⟨hd, hall⟩
        refine ⟨⟨hd, fun hlevel => ?_⟩, fun f hf => hall f (List.mem_cons_of_mem n hf)⟩
        exact hall n.2 (by simp [hlevel])

/-- INTERNAL: **what an edit leaves on a level.**
SRCLINE: leveldb-1.15.0/db/version_set.cc:670-713 -/
theorem BuilderOk.apply (h : BuilderOk b) (hfresh : FreshEdit b edit.newFiles) :
    BuilderOk (b.apply edit) ∧ ∀ level f, f ∈ (b.apply edit).saveTo.files level ↔
      ((f ∈ b.base.files level ∨ f ∈ (b.levels level).addedFiles) ∧
        (f.number ∈ (b.levels level).deletedFiles ∨ (level, f.number) ∈ edit.deletedFiles →
          ∃ g, (level, g) ∈ edit.newFiles ∧ g.number = f.number)) ∨ (level, f) ∈ edit.newFiles := by
  obtain ⟨hbase, hadded, hdeleted⟩ := foldl_deleteFile edit.deletedFiles b
  set b' := edit.deletedFiles.foldl Builder.deleteFile b with hb'
  have hok : BuilderOk b' := by
    refine ⟨fun level => hbase ▸ h.base level, fun level => hadded level ▸ h.added level, ?_⟩
    intro level f hf g hg
    rw [hbase] at hf
    rw [hadded] at hg
    exact h.apart level f hf g hg
  have hfresh' : FreshEdit b' edit.newFiles := by
    refine ⟨hfresh.nodup, fun n hn f hf => ?_, fun n hn f hf => ?_⟩
    · rw [hbase] at hf
      exact hfresh.base n hn f hf
    · rw [hadded] at hf
      exact hfresh.added n hn f hf
  obtain ⟨hbase', hok', hadd, hdel⟩ := foldl_addFile hok hfresh'
  refine ⟨hok', fun level f => ?_⟩
  rw [Builder.apply, ← hb', mem_saveTo, hadd, hdel, hbase', hbase, hadded, hdeleted]
  constructor
  · rintro ⟨hf, hkeep⟩
    rw [not_and] at hkeep
    rcases hf with hf | hf | hf
    · refine Or.inl ⟨Or.inl hf, fun hd => ?_⟩
      simpa using hkeep hd
    · refine Or.inl ⟨Or.inr hf, fun hd => ?_⟩
      simpa using hkeep hd
    · exact Or.inr hf
  · rintro (⟨hf, hkeep⟩ | hf)
    · refine ⟨by tauto, ?_⟩
      rintro ⟨hd, hall⟩
      obtain ⟨g, hg, heq⟩ := hkeep hd
      exact hall g hg heq
    · exact ⟨Or.inr (Or.inr hf), fun ⟨_, hall⟩ => hall f hf rfl⟩

end Edits

/-- The numbers of the tables an edit adds are new in a version. -/
structure FreshFor (v : Version) (edit : VersionEdit) : Prop where
  nodup : (edit.newFiles.map fun n => n.2.number).Nodup
  fresh : ∀ n ∈ edit.newFiles, ∀ f ∈ v.files n.1, f.number ≠ n.2.number

/-- INTERNAL: **the next version** has the tables that were not deleted and those that were added.
SRCLINE: leveldb-1.15.0/db/version_set.cc:840-844 -/
theorem mem_applyEdit {v : Version} {edit : VersionEdit} {level : ℕ}
    (hv : ∀ level, FilesSorted (v.files level)) (hfresh : FreshFor v edit) :
    f ∈ (v.applyEdit edit).files level ↔
      f ∈ v.files level ∧ (level, f.number) ∉ edit.deletedFiles ∨ (level, f) ∈ edit.newFiles := by
  have hedit : FreshEdit (Builder.new v) edit.newFiles :=
    ⟨hfresh.nodup, hfresh.fresh, fun _ _ _ hf => absurd hf List.not_mem_nil⟩
  rw [Version.applyEdit, ((builderOk_new hv).apply hedit).2]
  simp only [Builder.new, List.not_mem_nil, or_false, false_or]
  refine or_congr_left' fun hnew => and_congr_right fun hf => ⟨fun hkeep hd => ?_, fun hd hd' => ?_⟩
  · obtain ⟨g, hg, heq⟩ := hkeep hd
    exact hfresh.fresh (level, g) hg f hf heq.symm
  · exact absurd hd' hd

/-- INTERNAL: **the levels are still sorted** when an edit was applied. -/
theorem sorted_applyEdit {v : Version} {edit : VersionEdit}
    (hv : ∀ level, FilesSorted (v.files level)) (hfresh : FreshFor v edit) (level : ℕ) :
    FilesSorted ((v.applyEdit edit).files level) := by
  have hedit : FreshEdit (Builder.new v) edit.newFiles :=
    ⟨hfresh.nodup, hfresh.fresh, fun _ _ _ hf => absurd hf List.not_mem_nil⟩
  exact ((builderOk_new hv).apply hedit).1.sorted level

/-- INTERNAL: an edit without tables changes nothing. -/
theorem applyEdit_nil {v : Version} (hv : ∀ level, FilesSorted (v.files level)) :
    v.applyEdit ⟨[], []⟩ = v := by
  have hfresh : FreshFor v ⟨[], []⟩ := ⟨List.nodup_nil, fun _ hn => absurd hn List.not_mem_nil⟩
  have hfiles : (v.applyEdit ⟨[], []⟩).files = v.files := by
    funext level
    apply (sorted_applyEdit hv hfresh level).eq_of_mem_iff (hv level)
    intro f
    simp [mem_applyEdit hv hfresh]
  cases v
  exact congrArg Version.mk hfiles

end ExternalSort.Analysis
