import ExternalSort.Analysis.LevelDb.StoreInvariant

/-!
# What the threads of a database do to its entries

Each action keeps the invariant of a database.  A compaction replaces tables of two levels by others
of the lower one (`Replaces`); the table that is moved as it is, and the tables that the loop has
written, are two cases of this.  While the loop works, memtables may be written to disk:
`Selected` says what is known of the tables that are not part of the compaction, and none of that
changes when a memtable becomes a table.
-/

set_option autoImplicit false

namespace ExternalSort.Analysis

open ExternalSort.Lib ExternalSort.Model

/-! ## The tables of a compaction among the others -/

/-- What is known of the tables of a compaction and of the others. -/
structure Selected (s : Store) (t : Task) (es : List Entry) : Prop where
  level : t.level + 1 < kNumLevels
  sub0 : ∀ f ∈ t.inputs0, f ∈ s.version.files t.level
  sub1 : ∀ f ∈ t.inputs1, f ∈ s.version.files (t.level + 1)
  entries : ∀ e, e ∈ es ↔ e ∈ levelEntries s.tables t.inputs
  others : ∀ f ∈ s.version.files t.level, f ∉ t.inputs0 → ∀ e ∈ tableEntries s.tables f.number,
    ∀ e' ∈ es, e'.userKey = e.userKey → e'.sequence < e.sequence
  gapless : Gapless lo hi t.inputs
  beside : ∀ f ∈ s.version.files (t.level + 1), f ∉ t.inputs1 → Beside lo hi f t.inputs
  below : ∀ l, t.level + 2 ≤ l → ∀ f ∈ s.version.files l,
    f ∈ t.version.files l ∨ ∀ g ∈ t.inputs, ¬ Meets lo hi g (lo f) (hi f)

/-- A table that a compaction leaves on its level. -/
def Stays (t : Task) (l : ℕ) (f : FileMetaData) : Prop :=
  (l = t.level → f ∉ t.inputs0) ∧ (l = t.level + 1 → f ∉ t.inputs1)

/-- The tables of a compaction are replaced by others on the lower one of its levels. -/
structure Replaces (s : Store) (t : Task) (tables' : Tables) (v' : Version)
    (outs : List FileMetaData) (kept : List Entry) : Prop where
  tables : Extends s.tables tables'
  files : ∀ l f, f ∈ v'.files l ↔ (f ∈ s.version.files l ∧ Stays t l f) ∨ l = t.level + 1 ∧ f ∈ outs
  sorted : ∀ l, FilesSorted (v'.files l)
  table : ∀ f ∈ outs, TableOk tables' f
  disjoint : ∀ f ∈ outs, ∀ g ∈ outs, f ≠ g → hi f < lo g ∨ hi g < lo f
  entries : ∀ e, e ∈ levelEntries tables' outs ↔ e ∈ kept
  unique : ∀ f ∈ outs, ∀ l, ∀ g ∈ v'.files l, g.number = f.number → l = t.level + 1 ∧ g = f

section Replace

variable {s : Store} {t : Task} {es kept : List Entry} {tables' : Tables} {v' : Version}
  {outs : List FileMetaData} {state : Option CompactionState} {e : Entry} {d : ℕ}

/-- INTERNAL: an entry of a compaction lies in one of its tables. -/
theorem Selected.exists_input (h : Selected s t es) (hok : StoreOk s) (he : e ∈ es) :
    ∃ f ∈ t.inputs, e ∈ tableEntries s.tables f.number ∧ lo f ≤ e.userKey ∧ e.userKey ≤ hi f ∧
      ∃ d, (d = t.level + 2 ∨ d = t.level + 3) ∧ EntryAt s d e := by
  obtain ⟨f, hf, he⟩ := mem_levelEntries.mp ((h.entries e).mp he)
  rcases List.mem_append.mp hf with hf0 | hf1
  · have hfile := h.sub0 f hf0
    have hrange := (hok.version.table _ f hfile).mem_range he
    exact ⟨f, hf, he, hrange.1, hrange.2, _, Or.inl rfl, entryAt_level hfile he⟩
  · have hfile := h.sub1 f hf1
    have hrange := (hok.version.table _ f hfile).mem_range he
    exact ⟨f, hf, he, hrange.1, hrange.2, _, Or.inr rfl, entryAt_level hfile he⟩

/-- INTERNAL: the keys of a compaction lie on one side of a table that stays on its lower level. -/
theorem Selected.keys_beside (h : Selected s t es) (hok : StoreOk s) {f : FileMetaData}
    (hf : f ∈ s.version.files (t.level + 1)) (hstays : f ∉ t.inputs1) :
    (∀ e ∈ es, e.userKey < lo f) ∨ ∀ e ∈ es, hi f < e.userKey := by
  refine (h.beside f hf hstays).imp (fun hall e he => ?_) fun hall e he => ?_
  · obtain ⟨g, hg, -, -, hhi, -⟩ := h.exists_input hok he
    exact hhi.trans_lt (hall g hg)
  · obtain ⟨g, hg, -, hlo, -, -⟩ := h.exists_input hok he
    exact (hall g hg).trans_le hlo

/-- INTERNAL: tables that are added to no level change nothing for a compaction. -/
theorem Selected.extend (h : Selected s t es) (hok : StoreOk s) {s' : Store}
    (hversion : s'.version = s.version) (htables : Extends s.tables s'.tables) :
    Selected s' t es := by
  have hentries : levelEntries s'.tables t.inputs = levelEntries s.tables t.inputs := by
    refine levelEntries_extend (fun f hf => ?_) htables
    rcases List.mem_append.mp hf with hf | hf
    · exact hok.version.table _ f (h.sub0 f hf)
    · exact hok.version.table _ f (h.sub1 f hf)
  refine ⟨h.level, ?_, ?_, ?_, ?_, h.gapless, ?_, ?_⟩ <;> simp only [hversion, hentries]
  · exact h.sub0
  · exact h.sub1
  · exact h.entries
  · intro f hf hstays e he
    rw [(hok.version.table _ f hf).tableEntries_eq htables] at he
    exact h.others f hf hstays e he
  · exact h.beside
  · exact h.below

/-- INTERNAL: where the entries come from that are there when the tables were replaced. -/
theorem Replaces.entryAt (h : Replaces s t tables' v' outs kept) (hok : StoreOk s)
    (he : EntryAt { s with tables := tables', version := v', compacting := state } d e) :
    (d < 2 ∧ EntryAt s d e) ∨
    (∃ l f, d = l + 2 ∧ f ∈ s.version.files l ∧ Stays t l f ∧
      e ∈ tableEntries s.tables f.number) ∨
    d = t.level + 3 ∧ e ∈ kept := by
  match d, he with
  | 0, he => exact Or.inl ⟨by omega, he⟩
  | 1, he => exact Or.inl ⟨by omega, he⟩
  | l + 2, he =>
    right
    obtain ⟨f, hf, hfe⟩ := mem_levelEntries.mp he
    rcases (h.files l f).mp hf with ⟨hfile, hstays⟩ | ⟨rfl, hout⟩
    · left
      rw [(hok.version.table l f hfile).tableEntries_eq h.tables] at hfe
      exact ⟨l, f, rfl, hfile, hstays, hfe⟩
    · exact Or.inr ⟨rfl, (h.entries e).mp (mem_levelEntries.mpr ⟨f, hout, hfe⟩)⟩

/-- INTERNAL: an entry that is not in a table of the compaction is still there. -/
theorem Replaces.entryAt_of_stays (h : Replaces s t tables' v' outs kept) (hok : StoreOk s)
    {l : ℕ} {f : FileMetaData} (hf : f ∈ s.version.files l) (hstays : Stays t l f)
    (he : e ∈ tableEntries s.tables f.number) :
    EntryAt { s with tables := tables', version := v', compacting := state } (l + 2) e := by
  refine mem_levelEntries.mpr ⟨f, (h.files l f).mpr (Or.inl ⟨hf, hstays⟩), ?_⟩
  rwa [(hok.version.table l f hf).tableEntries_eq h.tables]

/-- INTERNAL: the version has no flaw when the tables were replaced. -/
theorem Replaces.versionOk (h : Replaces s t tables' v' outs kept) (hok : StoreOk s)
    (hsel : Selected s t es) (hsub : ∀ e ∈ kept, e ∈ es) : VersionOk tables' v' := by
  have hends : ∀ f ∈ outs, (∃ e ∈ es, e.userKey = lo f) ∧ ∃ e ∈ es, e.userKey = hi f := by
    intro f hf
    have hmem : ∀ e ∈ tableEntries tables' f.number, e ∈ es := fun e he =>
      hsub e ((h.entries e).mp (mem_levelEntries.mpr ⟨f, hf, he⟩))
    obtain ⟨a, ha, hlo⟩ := (h.table f hf).low
    obtain ⟨b, hb, hhi⟩ := (h.table f hf).high
    exact ⟨⟨a, hmem a ha, hlo⟩, b, hmem b hb, hhi⟩
  have hcross : ∀ f ∈ s.version.files (t.level + 1), Stays t (t.level + 1) f → ∀ g ∈ outs,
      hi f < lo g ∨ hi g < lo f := by
    intro f hf hstays g hg
    obtain ⟨⟨a, ha, hlo⟩, b, hb, hhi⟩ := hends g hg
    rcases hsel.keys_beside hok hf (hstays.2 rfl) with hall | hall
    · exact Or.inr (hhi ▸ hall b hb)
    · exact Or.inl (hlo ▸ hall a ha)
  refine ⟨fun l f hf => ?_, h.sorted, fun l hl f hf g hg hne => ?_, fun f hf g hg hne => ?_,
    fun l l' f f' hf hf' heq => ?_, fun l hl => ?_⟩
  · rcases (h.files l f).mp hf with ⟨hf, -⟩ | ⟨-, hf⟩
    · exact (hok.version.table l f hf).extend h.tables
    · exact h.table f hf
  · rcases (h.files l f).mp hf with ⟨hfold, hfs⟩ | ⟨rfl, hfout⟩
    · rcases (h.files l g).mp hg with ⟨hgold, -⟩ | ⟨rfl, hgout⟩
      · exact hok.version.disjoint l hl f hfold g hgold hne
      · exact hcross f hfold hfs g hgout
    · rcases (h.files _ g).mp hg with ⟨hgold, hgs⟩ | ⟨-, hgout⟩
      · exact (hcross g hgold hgs f hfout).symm
      · exact h.disjoint f hfout g hgout hne
  · have hold : ∀ f ∈ v'.files 0, f ∈ s.version.files 0 := by
      intro f hf
      rcases (h.files 0 f).mp hf with ⟨hf, -⟩ | ⟨hl, -⟩
      · exact hf
      · omega
    rw [(hok.version.table 0 f (hold f hf)).tableEntries_eq h.tables,
      (hok.version.table 0 g (hold g hg)).tableEntries_eq h.tables]
    exact hok.version.apart f (hold f hf) g (hold g hg) hne
  · rcases (h.files l f).mp hf with ⟨hold, -⟩ | ⟨rfl, hout⟩
    · rcases (h.files l' f').mp hf' with ⟨hold', -⟩ | ⟨rfl, hout'⟩
      · exact hok.version.unique l l' f f' hold hold' heq
      · exact h.unique f' hout' l f hf heq
    · obtain ⟨hl, hff⟩ := h.unique f hout l' f' hf' heq.symm
      exact ⟨hl.symm, hff.symm⟩
  · rw [List.eq_nil_iff_forall_not_mem]
    intro f hf
    rcases (h.files l f).mp hf with ⟨hf, -⟩ | ⟨rfl, -⟩
    · rw [hok.version.top l hl] at hf
      cases hf
    · exact absurd hsel.level (not_lt.mpr hl)

/-- INTERNAL: **the tables of a compaction are replaced**, and newer versions still do not lie
deeper. -/
theorem Replaces.storeOk (h : Replaces s t tables' v' outs kept) (hok : StoreOk s)
    (hsel : Selected s t es) (hsub : ∀ e ∈ kept, e ∈ es)
    (hunused : ∀ number, s.nextFileNumber ≤ number → tables' number = none) :
    StoreOk { s with tables := tables', version := v', compacting := state } := by
  refine ⟨hok.mem, hok.imm, h.versionOk hok hsel hsub, ?_, hunused⟩
  intro d d' e e' hd he he' hkey
  -- an entry that was not written by the compaction is where it was
  have hold : ∀ {d e}, (d < 2 ∧ EntryAt s d e) ∨ (∃ l f, d = l + 2 ∧ f ∈ s.version.files l ∧
      Stays t l f ∧ e ∈ tableEntries s.tables f.number) → EntryAt s d e := by
    rintro d e (⟨-, he⟩ | ⟨l, f, rfl, hf, -, he⟩)
    · exact he
    · exact entryAt_level hf he
  rcases or_assoc.mpr (h.entryAt hok he) with hat | ⟨rfl, hkept⟩
  · rcases or_assoc.mpr (h.entryAt hok he') with hat' | ⟨rfl, hkept'⟩
    · exact hok.recent d d' e e' hd (hold hat) (hold hat') hkey
    · -- the deeper one was written: it has come from a table of one of the two levels
      obtain ⟨f, -, -, -, -, d', hd', hfrom⟩ := hsel.exists_input hok (hsub e' hkept')
      by_cases hlevel : d = t.level + 2
      · rcases hat with ⟨hlt, -⟩ | ⟨l, g, heq, hg, hstays, he⟩
        · omega
        · obtain rfl : l = t.level := by omega
          exact hsel.others g hg (hstays.1 rfl) e he e' (hsub e' hkept') hkey
      · exact hok.recent d d' e e' (by omega) (hold hat) hfrom hkey
  · rcases or_assoc.mpr (h.entryAt hok he') with hat' | ⟨rfl, hkept'⟩
    · obtain ⟨f, -, -, -, -, d, hd', hfrom⟩ := hsel.exists_input hok (hsub e hkept)
      exact hok.recent d d' e e' (by omega) hfrom (hold hat') hkey
    · omega

/-- INTERNAL: a deletion that the compaction drops has nothing to hide: in the tables that stay
there is no version of its key that is not newer. -/
theorem Selected.not_stays (hsel : Selected s t es) (hok : StoreOk s) {e' : Entry} {l : ℕ}
    {g : FileMetaData} (hes : e ∈ es) (hbase : BaseFor t.version t.level e.userKey)
    (hg : g ∈ s.version.files l) (hstays : Stays t l g) (he' : e' ∈ tableEntries s.tables g.number)
    (hkey : e'.userKey = e.userKey) : e.sequence < e'.sequence := by
  obtain ⟨f, hf, -, hlo, hhi, d, hd, hat⟩ := hsel.exists_input hok hes
  obtain ⟨hlo', hhi'⟩ := (hok.version.table l g hg).mem_range he'
  rw [hkey] at hlo' hhi'
  rcases lt_trichotomy l t.level with hlt | rfl | hgt
  · exact hok.recent (l + 2) d e' e (by omega) (entryAt_level hg he') hat hkey.symm
  · exact hsel.others g hg (hstays.1 rfl) e' he' e hes hkey.symm
  · rcases (Nat.succ_le_of_lt hgt).eq_or_lt with rfl | hgt
    · rcases hsel.keys_beside hok hg (hstays.2 rfl) with hall | hall
      · exact absurd hlo' (hall e hes).not_ge
      · exact absurd hhi' (hall e hes).not_ge
    · rcases hsel.below l hgt g hg with hold | hmiss
      · have htop : l < kNumLevels := by
          by_contra hle
          rw [hok.version.top l (not_lt.mp hle)] at hg
          cases hg
        exact absurd ⟨hlo', hhi'⟩ (hbase l hgt htop g hold)
      · exact absurd ⟨hlo.trans hhi', hlo'.trans hhi⟩ (hmiss f hf)

/-- INTERNAL: **what was written is kept** when tables are replaced, if all newest versions go on,
but for deletions that hide nothing. -/
theorem Replaces.keeps (h : Replaces s t tables' v' outs kept) (hok : StoreOk s)
    (hsel : Selected s t es) {log : List BatchOp} (hk : Keeps s log) (hsub : ∀ e ∈ kept, e ∈ es)
    (hdropped : ∀ e ∈ es, Newest es e → e ∈ kept ∨ e.type = .deletion ∧
      BaseFor t.version t.level e.userKey ∧ ∀ e' ∈ kept, e'.userKey ≠ e.userKey) :
    Keeps { s with tables := tables', version := v', compacting := state } log := by
  have hfrom : ∀ d e, EntryAt { s with tables := tables', version := v', compacting := state } d e →
      ∃ d, EntryAt s d e := by
    intro d e he
    rcases h.entryAt hok he with ⟨-, he⟩ | ⟨l, f, -, hf, -, he⟩ | ⟨-, hkept⟩
    · exact ⟨d, he⟩
    · exact ⟨l + 2, entryAt_level hf he⟩
    · obtain ⟨f, -, -, -, -, d, -, he⟩ := hsel.exists_input hok (hsub e hkept)
      exact ⟨d, he⟩
  have hlogged : ∀ d e, EntryAt { s with tables := tables', version := v', compacting := state } d e →
      e ∈ MemTable.batchEntries 1 log := by
    intro d e he
    obtain ⟨d, he⟩ := hfrom d e he
    exact hk.logged d e he
  refine ⟨hk.last, hlogged, fun e he hnewest => ?_⟩
  rcases hk.newest e he hnewest with ⟨d, hd⟩ | ⟨hdel, hnone⟩
  · by_cases hes : e ∈ es
    · have hnewest' : Newest es e := by
        intro e' he'
        obtain ⟨f, -, -, -, -, d, -, hat⟩ := hsel.exists_input hok he'
        exact hnewest e' (hk.logged d e' hat)
      rcases hdropped e hes hnewest' with hkept | ⟨hdel, hbase, hgone⟩
      · obtain ⟨f, hf, hfe⟩ := mem_levelEntries.mp ((h.entries e).mpr hkept)
        exact Or.inl ⟨t.level + 3,
          mem_levelEntries.mpr ⟨f, (h.files _ f).mpr (Or.inr ⟨rfl, hf⟩), hfe⟩⟩
      · refine Or.inr ⟨hdel, fun d' e' he' hkey => ?_⟩
        have hle := hnewest e' (hlogged d' e' he') hkey
        rcases h.entryAt hok he' with ⟨hlt, hat'⟩ | ⟨l, g, -, hg, hstays, hge⟩ | ⟨-, hkept⟩
        · obtain ⟨f, -, -, -, -, d, hd, hat⟩ := hsel.exists_input hok hes
          have hnewer := hok.recent d' d e' e (by omega) hat' hat hkey.symm
          omega
        · have hnewer := hsel.not_stays hok hes hbase hg hstays hge hkey
          omega
        · exact hgone e' hkept hkey
    · left
      match d, hd with
      | 0, hd => exact ⟨0, hd⟩
      | 1, hd => exact ⟨1, hd⟩
      | l + 2, hd =>
        obtain ⟨f, hf, hfe⟩ := mem_levelEntries.mp hd
        have hout : f ∉ t.inputs := fun hin =>
          hes ((hsel.entries e).mpr (mem_levelEntries.mpr ⟨f, hin, hfe⟩))
        exact ⟨l + 2, h.entryAt_of_stays hok hf ⟨fun _ h0 => hout (List.mem_append_left _ h0),
          fun _ h1 => hout (List.mem_append_right _ h1)⟩ hfe⟩
  · refine Or.inr ⟨hdel, fun d' e' he' => ?_⟩
    obtain ⟨d, he⟩ := hfrom d' e' he'
    exact hnone d e' he

end Replace

/-! ## The invariant of a database -/

/-- A compaction that is going on: how far its loop has come, what is known of the other tables,
and that its outputs are no tables of the database yet. -/
structure Compacting (fuel : ℕ) (s : Store) (state : CompactionState) (t : Task) (es : List Entry)
    (i : ℕ) (kept : List Entry) : Prop where
  loop : Loop fuel t es i (clip (es.map Entry.pair) i) kept (s.work state)
  selected : Selected s t es
  fresh : ∀ f ∈ state.outputs, ∀ l, ∀ g ∈ s.version.files l, g.number ≠ f.number

/-- What holds of a database at all times. -/
structure StoreInv (fuel : ℕ) (s : Store) (log : List BatchOp) : Prop where
  ok : StoreOk s
  keeps : Keeps s log
  compacting : ∀ state, s.compacting = some state → ∃ t es i kept, Compacting fuel s state t es i kept

section Steps

variable {fuel : ℕ} {s : Store} {log : List BatchOp} {tables' : Tables} {e : Entry} {d : ℕ}

/-- INTERNAL: tables that belong to no level yet change no entry. -/
theorem entryAt_extend (hok : StoreOk s) (hext : Extends s.tables tables') (next : ℕ)
    (state : Option CompactionState) (d : ℕ) (e : Entry) :
    EntryAt { s with tables := tables', nextFileNumber := next, compacting := state } d e ↔
      EntryAt s d e := by
  match d with
  | 0 => exact Iff.rfl
  | 1 => exact Iff.rfl
  | l + 2 =>
    show e ∈ levelEntries tables' (s.version.files l) ↔ _
    rw [levelEntries_extend (hok.version.table l) hext]
    rfl

/-- INTERNAL: a version has no flaw when tables are added to no level. -/
theorem VersionOk.extend {tables : Tables} {v : Version} (h : VersionOk tables v)
    (hext : Extends tables tables') : VersionOk tables' v := by
  refine ⟨fun l f hf => (h.table l f hf).extend hext, h.sorted, h.disjoint, ?_, h.unique, h.top⟩
  intro f hf g hg hne
  rw [(h.table 0 f hf).tableEntries_eq hext, (h.table 0 g hg).tableEntries_eq hext]
  exact h.apart f hf g hg hne

/-- INTERNAL: tables that belong to no level yet, and a compaction that begins or goes on. -/
theorem StoreInv.extend (h : StoreInv fuel s log) (hext : Extends s.tables tables') {next : ℕ}
    {compacting : Option CompactionState}
    (hunused : ∀ number, next ≤ number → tables' number = none)
    (hcompacting : ∀ state, compacting = some state → ∃ t es i kept, Compacting fuel
      { s with tables := tables', nextFileNumber := next, compacting := compacting }
      state t es i kept) :
    StoreInv fuel { s with tables := tables', nextFileNumber := next, compacting := compacting }
      log := by
  have hat := entryAt_extend h.ok hext next compacting
  refine ⟨⟨h.ok.mem, h.ok.imm, h.ok.version.extend hext, fun d d' e e' hd he he' => ?_, hunused⟩,
    h.keeps.of_entries rfl (fun d e he => ⟨d, (hat d e).mp he⟩) fun d e he => ⟨d, (hat d e).mpr he⟩,
    hcompacting⟩
  exact h.ok.recent d d' e e' hd ((hat d e).mp he) ((hat d' e').mp he')

/-! ## Writers -/

/-- INTERNAL: a batch of some records. -/
theorem built_ofOps {ops : List BatchOp} (hops : ∀ op ∈ ops, MemTable.OpStorable op) :
    WriteBatch.Built (WriteBatch.ofOps ops) ops 0 := by
  have hfits : ∀ op, MemTable.OpStorable op → WriteBatch.OpFits op := by
    intro op hop
    cases op with
    | put key value => exact ⟨by have := hop.1; omega, hop.2⟩
    | delete key => exact Nat.lt_of_add_right_lt hop
  have hfold : ∀ (ops done : List BatchOp) rep, (∀ op ∈ ops, MemTable.OpStorable op) →
      WriteBatch.Built rep done 0 →
      WriteBatch.Built (ops.foldl WriteBatch.add rep) (done ++ ops) 0 := by
    intro ops
    induction ops with
    | nil => exact fun done rep _ h => by simpa using h
    | cons op ops ih =>
      intro done rep hall h
      obtain ⟨hop, hall⟩ := List.forall_mem_cons.mp hall
      simpa using ih _ _ hall (h.add (hfits op hop))
  exact hfold ops [] _ hops .clear

/-- INTERNAL: the batch of a group holds the records of all its writers.
SRCLINE: leveldb-1.15.0/db/db_impl.cc:1237-1282 -/
theorem built_buildBatchGroup {first : List BatchOp} {others : List (List BatchOp)}
    (hops : ∀ op ∈ first ++ others.flatten, MemTable.OpStorable op) :
    WriteBatch.Built (WriteBatch.buildBatchGroup (WriteBatch.ofOps first)
      (others.map WriteBatch.ofOps)) (first ++ others.flatten) 0 := by
  obtain ⟨hfirst, hothers⟩ := List.forall_mem_append.mp hops
  have hfold : ∀ (others : List (List BatchOp)) done rep,
      (∀ op ∈ others.flatten, MemTable.OpStorable op) → WriteBatch.Built rep done 0 →
      WriteBatch.Built ((others.map WriteBatch.ofOps).foldl WriteBatch.append rep)
        (done ++ others.flatten) 0 := by
    intro others
    induction others with
    | nil => exact fun done rep _ h => by simpa using h
    | cons ops others ih =>
      intro done rep hall h
      rw [List.flatten_cons] at hall
      obtain ⟨hops, hall⟩ := List.forall_mem_append.mp hall
      simpa using ih _ _ hall (h.append (built_ofOps hops))
  rw [WriteBatch.buildBatchGroup]
  split_ifs with hempty
  · rw [List.isEmpty_iff, List.map_eq_nil_iff] at hempty
    simpa [hempty] using built_ofOps hfirst
  · exact hfold others _ _ hothers (.append .clear (built_ofOps hfirst))

/-- INTERNAL: the rounds that are enough for more records are enough for fewer. -/
theorem storeRounds_mono {m n : ℕ} (h : m ≤ n) : storeRounds m ≤ storeRounds n := by
  unfold storeRounds
  gcongr

/-- INTERNAL: entries with the next sequence numbers come to the memtable. -/
theorem StoreInv.added (h : StoreInv fuel s log) {ops : List BatchOp} {table : MemTable}
    (hholds : MemTable.Holds table (memEntries table))
    (hperm : (memEntries table).Perm
      (MemTable.batchEntries (s.lastSequence + 1) ops ++ memEntries s.mem)) :
    StoreInv fuel { s with mem := table, lastSequence := s.lastSequence + ops.length } (log ++ ops) := by
  have hlog := h.keeps.last
  have hold : ∀ d e, EntryAt s d e → e.sequence < s.lastSequence + 1 := by
    intro d e he
    have hbounds := MemTable.mem_batchEntries (h.keeps.logged d e he)
    omega
  set s' : Store := { s with mem := table, lastSequence := s.lastSequence + ops.length } with hs'
  -- the memtable has the new entries, and nothing else has changed
  have hat : ∀ d e, EntryAt s' d e ↔
      EntryAt s d e ∨ d = 0 ∧ e ∈ MemTable.batchEntries (s.lastSequence + 1) ops := by
    intro d e
    match d with
    | 0 =>
      show e ∈ memEntries table ↔ _
      rw [hperm.mem_iff, List.mem_append]
      simp [EntryAt, or_comm]
    | 1 => simp [EntryAt, hs']
    | l + 2 => simp [EntryAt, hs']
  have hentries : MemTable.batchEntries 1 (log ++ ops) =
      MemTable.batchEntries 1 log ++ MemTable.batchEntries (s.lastSequence + 1) ops := by
    rw [MemTable.batchEntries_append, hlog, Nat.add_comm 1]
  refine ⟨⟨hholds, h.ok.imm, h.ok.version, ?_, h.ok.unused⟩, ⟨?_, ?_, ?_⟩, ?_⟩
  · intro d d' e e' hd he he' hkey
    rcases (hat d' e').mp he' with he' | ⟨rfl, -⟩
    · rcases (hat d e).mp he with he | ⟨rfl, hnew⟩
      · exact h.ok.recent d d' e e' hd he he' hkey
      · have hbefore := hold d' e' he'
        have hbounds := MemTable.mem_batchEntries hnew
        omega
    · omega
  · rw [List.length_append, ← hlog]
  · intro d e he
    rw [hentries, List.mem_append]
    exact ((hat d e).mp he).imp (h.keeps.logged d e) And.right
  · intro e he hnewest
    rw [hentries] at he hnewest
    rcases List.mem_append.mp he with hlogged | hnew
    · have hnewest' : Newest (MemTable.batchEntries 1 log) e := fun e' he' =>
        hnewest e' (List.mem_append_left _ he')
      rcases h.keeps.newest e hlogged hnewest' with ⟨d, hd⟩ | ⟨hdel, hnone⟩
      · exact Or.inl ⟨d, (hat d e).mpr (Or.inl hd)⟩
      · refine Or.inr ⟨hdel, fun d e' he' hkey => ?_⟩
        rcases (hat d e').mp he' with he' | ⟨-, hnew⟩
        · exact hnone d e' he' hkey
        · have hle := hnewest e' (List.mem_append_right _ hnew) hkey
          have hbounds := MemTable.mem_batchEntries hnew
          have hbounds' := MemTable.mem_batchEntries hlogged
          omega
    · exact Or.inl ⟨0, (hat 0 e).mpr (Or.inr ⟨rfl, hnew⟩)⟩
  · intro state hstate
    obtain ⟨t, es, i, kept, hloop, hsel, hfresh⟩ := h.compacting state hstate
    exact ⟨t, es, i, kept, hloop, hsel.extend h.ok rfl fun _ _ hl => hl, hfresh⟩

/-- INTERNAL: **a group of writers is served.**
SRCLINE: leveldb-1.15.0/db/db_impl.cc:1178-1217 -/
theorem StoreInv.write (h : StoreInv fuel s log) {first : List BatchOp}
    {others : List (List BatchOp)} (hops : ∀ op ∈ first ++ others.flatten, MemTable.OpStorable op)
    (hcount : (first ++ others.flatten).length < 2 ^ 31)
    (hseq : (log ++ (first ++ others.flatten)).length ≤ kMaxSequenceNumber)
    (hfuel : storeRounds (log ++ (first ++ others.flatten)).length ≤ fuel) :
    ∃ s', s.write fuel first others = some s' ∧
      StoreInv fuel s' (log ++ (first ++ others.flatten)) ∧ s'.nextFileNumber = s.nextFileNumber := by
  have hlog := h.keeps.last
  have hmem := h.keeps.length_le h.ok.mem.ordered.apart fun e he => ⟨0, he⟩
  have hmax : kMaxSequenceNumber = 2 ^ 56 - 1 := rfl
  have hbuilt := (built_buildBatchGroup hops).setSequence (s.lastSequence + 1)
    (by rw [List.length_append] at hseq; omega)
  have hold : ∀ e ∈ memEntries s.mem, e.sequence < s.lastSequence + 1 := by
    intro e he
    have hbounds := MemTable.mem_batchEntries (h.keeps.logged 0 e he)
    omega
  have hfull := hbuilt.bytes (hcount.trans (by decide))
  have hcounted := hfull.1 ▸ WriteBatch.count_batchBytes (s.lastSequence + 1)
    (hcount.trans (show 2 ^ 31 < 2 ^ 32 by decide))
  generalize hopsdef : first ++ others.flatten = ops at *
  rw [List.length_append] at hseq hfuel
  have hrounds : log.length + ops.length + kMaxHeight ≤ fuel :=
    le_trans (by unfold storeRounds; omega) hfuel
  obtain ⟨table, es, hinsert, hholds, hperm⟩ := h.ok.mem.insertInto hbuilt hops hold (by omega)
    (by omega) (show _ ≤ fuel by omega)
  have hes := hholds.eq_memEntries
  subst hes
  refine ⟨{ s with mem := table, lastSequence := s.lastSequence + ops.length }, ?_,
    h.added hholds hperm, rfl⟩
  rw [Store.write]
  simp only [hinsert, Option.map_some]
  rw [hcounted]

/-- INTERNAL: **a new memtable.**
SRCLINE: leveldb-1.15.0/db/db_impl.cc:1314-1343 -/
theorem StoreInv.makeRoomForWrite (h : StoreInv fuel s log) :
    StoreInv fuel s.makeRoomForWrite log ∧
      s.makeRoomForWrite.nextFileNumber ≤ s.nextFileNumber + 1 := by
  rw [Store.makeRoomForWrite]
  split_ifs with himm
  · exact ⟨h, Nat.le_succ _⟩
  · rw [Bool.not_eq_true, Option.isSome_eq_false_iff, Option.isNone_iff_eq_none] at himm
    set s' : Store := { s with
      mem := SkipList.new, imm := some s.mem, nextFileNumber := s.nextFileNumber + 1 } with hs'
    have hempty : memEntries s'.mem = [] := MemTable.holds_new.eq_memEntries.symm
    -- the entries of the memtable are now in the one that waits
    have hat : ∀ d e, EntryAt s' d e → ∃ d₀, EntryAt s d₀ e ∧ (d₀ < d ∧ d = 1 ∨ d₀ = d ∧ 1 < d) := by
      intro d e he
      match d, he with
      | 0, he =>
        rw [EntryAt, hempty] at he
        cases he
      | 1, he =>
        obtain ⟨table, htable, he⟩ := he
        cases htable
        exact ⟨0, he, by simp⟩
      | l + 2, he => exact ⟨l + 2, he, by simp⟩
    have hstill : ∀ d e, EntryAt s d e → ∃ d', EntryAt s' d' e := by
      intro d e he
      match d, he with
      | 0, he => exact ⟨1, s.mem, rfl, he⟩
      | 1, he =>
        obtain ⟨table, htable, -⟩ := he
        rw [himm] at htable
        cases htable
      | l + 2, he => exact ⟨l + 2, he⟩
    have hunused : ∀ number, s.nextFileNumber + 1 ≤ number → s.tables number = none :=
      fun number hle => h.ok.unused number (by omega)
    refine ⟨⟨⟨?_, ?_, h.ok.version, ?_, hunused⟩, h.keeps.of_entries rfl ?_ hstill, ?_⟩, le_rfl⟩
    · rw [hempty]
      exact MemTable.holds_new
    · rintro table ⟨⟩
      exact h.ok.mem
    · intro d d' e e' hd he he' hkey
      obtain ⟨d₀, he, hd₀⟩ := hat d e he
      obtain ⟨d₀', he', hd₀'⟩ := hat d' e' he'
      exact h.ok.recent d₀ d₀' e e' (by omega) he he' hkey
    · intro d e he
      obtain ⟨d₀, he, -⟩ := hat d e he
      exact ⟨d₀, he⟩
    · intro state hstate
      obtain ⟨t, es, i, kept, hloop, hsel, hfresh⟩ := h.compacting state hstate
      exact ⟨t, es, i, kept, hloop.others (fun _ _ hl => hl) (Nat.le_succ _) (fun _ _ => rfl) hunused,
        hsel.extend h.ok rfl fun _ _ hl => hl, hfresh⟩

/-! ## A memtable is written to disk -/

/-- The entries of the memtable that waits have come to a level. -/
structure Sunk (s s' : Store) (level : ℕ) : Prop where
  mem : s'.mem = s.mem
  imm : s'.imm = none
  levels : ∀ l e, EntryAt s' (l + 2) e ↔ EntryAt s (l + 2) e ∨ l = level ∧ EntryAt s 1 e
  miss : ∀ l < level, ∀ e e', EntryAt s (l + 2) e → EntryAt s 1 e' → e'.userKey ≠ e.userKey

/-- INTERNAL: where the entries come from. -/
theorem Sunk.entryAt {s' : Store} {level : ℕ} (h : Sunk s s' level) (he : EntryAt s' d e) :
    d ≠ 1 ∧ EntryAt s d e ∨ d = level + 2 ∧ EntryAt s 1 e := by
  match d, he with
  | 0, he =>
    rw [EntryAt, h.mem] at he
    exact Or.inl ⟨by omega, he⟩
  | 1, he =>
    obtain ⟨table, htable, -⟩ := he
    rw [h.imm] at htable
    cases htable
  | l + 2, he =>
    rcases (h.levels l e).mp he with he | ⟨rfl, he⟩
    · exact Or.inl ⟨by omega, he⟩
    · exact Or.inr ⟨rfl, he⟩

/-- INTERNAL: newer versions still do not lie deeper. -/
theorem Sunk.recent {s' : Store} {level : ℕ} (h : Sunk s s' level) (hok : StoreOk s) {d' : ℕ}
    {e' : Entry} (hd : d < d') (he : EntryAt s' d e) (he' : EntryAt s' d' e')
    (hkey : e'.userKey = e.userKey) : e'.sequence < e.sequence := by
  rcases h.entryAt he with ⟨hne, hold⟩ | ⟨rfl, hsunk⟩
  · rcases h.entryAt he' with ⟨-, hold'⟩ | ⟨rfl, hsunk'⟩
    · exact hok.recent d d' e e' hd hold hold' hkey
    · rcases Nat.lt_or_ge d 1 with hlt | hge
      · exact hok.recent d 1 e e' hlt hold hsunk' hkey
      · -- a version between the two memtables' places would be met by the new table
        obtain ⟨l, rfl⟩ : ∃ l, d = l + 2 := ⟨d - 2, by omega⟩
        exact absurd hkey (h.miss l (by omega) e e' hold hsunk')
  · rcases h.entryAt he' with ⟨-, hold'⟩ | ⟨rfl, -⟩
    · exact hok.recent 1 d' e e' (by omega) hsunk hold' hkey
    · omega

/-- INTERNAL: nothing is lost. -/
theorem Sunk.keeps {s' : Store} {level : ℕ} (h : Sunk s s' level) (hk : Keeps s log)
    (hlast : s'.lastSequence = s.lastSequence) : Keeps s' log := by
  refine hk.of_entries hlast (fun d e he => ?_) fun d e he => ?_
  · rcases h.entryAt he with ⟨-, he⟩ | ⟨-, he⟩
    · exact ⟨d, he⟩
    · exact ⟨1, he⟩
  · match d, he with
    | 0, he =>
      refine ⟨0, ?_⟩
      rwa [EntryAt, h.mem]
    | 1, he => exact ⟨level + 2, (h.levels level e).mpr (Or.inr ⟨rfl, he⟩)⟩
    | l + 2, he => exact ⟨l + 2, (h.levels l e).mpr (Or.inl he)⟩

/-- The memtable that waits becomes a table of a level. -/
structure Flushes (s : Store) (table : MemTable) (tables' : Tables) (level : ℕ)
    (f : FileMetaData) : Prop where
  imm : s.imm = some table
  tables : Extends s.tables tables'
  new : TableOk tables' f
  entries : tableEntries tables' f.number = memEntries table
  unused : s.tables f.number = none
  level_lt : level < kNumLevels
  miss : 0 < level → ∀ l ≤ level, ∀ g ∈ s.version.files l, ¬ Meets lo hi g (lo f) (hi f)

section Flush

variable {table : MemTable} {level : ℕ} {f : FileMetaData}

/-- INTERNAL: the number of the new table is not used by another. -/
theorem Flushes.number_ne (h : Flushes s table tables' level f) (hok : StoreOk s) {l : ℕ}
    {g : FileMetaData} (hg : g ∈ s.version.files l) : g.number ≠ f.number := by
  intro heq
  have hcontent := (hok.version.table l g hg).content
  rw [heq, h.unused] at hcontent
  cases hcontent

/-- INTERNAL: the edit adds a table with a new number. -/
theorem Flushes.freshFor (h : Flushes s table tables' level f) (hok : StoreOk s) :
    FreshFor s.version ⟨[], [(level, f)]⟩ := by
  refine ⟨List.nodup_singleton _, fun n hn g hg => ?_⟩
  rw [List.mem_singleton] at hn
  subst hn
  exact h.number_ne hok hg

/-- INTERNAL: the tables of the next version. -/
theorem Flushes.files (h : Flushes s table tables' level f) (hok : StoreOk s) (l : ℕ)
    (g : FileMetaData) : g ∈ (s.version.applyEdit ⟨[], [(level, f)]⟩).files l ↔
      g ∈ s.version.files l ∨ l = level ∧ g = f := by
  simp [mem_applyEdit hok.version.sorted (h.freshFor hok)]

/-- INTERNAL: an entry of the new table was in the memtable that waits. -/
theorem Flushes.entryAt (h : Flushes s table tables' level f)
    (he : e ∈ tableEntries tables' f.number) : EntryAt s 1 e :=
  ⟨table, h.imm, h.entries ▸ he⟩

/-- INTERNAL: the version with the new table has no flaw. -/
theorem Flushes.versionOk (h : Flushes s table tables' level f) (hok : StoreOk s) :
    VersionOk tables' (s.version.applyEdit ⟨[], [(level, f)]⟩) := by
  have hfiles := h.files hok
  have hmiss : ∀ l, 0 < l → l = level → ∀ g ∈ s.version.files l, hi g < lo f ∨ hi f < lo g := by
    rintro l hl rfl g hg
    exact not_meets_iff.mp (h.miss hl l le_rfl g hg)
  have hapart : ∀ g ∈ s.version.files 0, ∀ e ∈ tableEntries tables' f.number,
      ∀ e' ∈ tableEntries tables' g.number, e.Apart e' := by
    intro g hg e he e' he'
    rw [(hok.version.table 0 g hg).tableEntries_eq h.tables] at he'
    exact hok.apart_of_lt (show 1 < 2 by omega) (h.entryAt he) (entryAt_level hg he')
  refine ⟨fun l g hg => ?_, sorted_applyEdit hok.version.sorted (h.freshFor hok),
    fun l hl g hg g' hg' hne => ?_, fun g hg g' hg' hne => ?_, fun l l' g g' hg hg' heq => ?_,
    fun l hl => ?_⟩
  · rcases (hfiles l g).mp hg with hg | ⟨-, rfl⟩
    · exact (hok.version.table l g hg).extend h.tables
    · exact h.new
  · rcases (hfiles l g).mp hg with hold | ⟨hlevel, rfl⟩
    · rcases (hfiles l g').mp hg' with hold' | ⟨hlevel, rfl⟩
      · exact hok.version.disjoint l hl g hold g' hold' hne
      · exact hmiss l hl hlevel g hold
    · rcases (hfiles l g').mp hg' with hold' | ⟨-, rfl⟩
      · exact (hmiss l hl hlevel g' hold').symm
      · exact absurd rfl hne
  · rcases (hfiles 0 g).mp hg with hold | ⟨-, rfl⟩
    · rcases (hfiles 0 g').mp hg' with hold' | ⟨-, rfl⟩
      · rw [(hok.version.table 0 g hold).tableEntries_eq h.tables,
          (hok.version.table 0 g' hold').tableEntries_eq h.tables]
        exact hok.version.apart g hold g' hold' hne
      · exact fun e he e' he' => (hapart g hold e' he' e he).symm
    · rcases (hfiles 0 g').mp hg' with hold' | ⟨-, rfl⟩
      · exact hapart g' hold'
      · exact absurd rfl hne
  · rcases (hfiles l g).mp hg with hold | ⟨hlevel, rfl⟩
    · rcases (hfiles l' g').mp hg' with hold' | ⟨-, rfl⟩
      · exact hok.version.unique l l' g g' hold hold' heq
      · exact absurd heq (h.number_ne hok hold)
    · rcases (hfiles l' g').mp hg' with hold' | ⟨hlevel', rfl⟩
      · exact absurd heq.symm (h.number_ne hok hold')
      · exact ⟨hlevel.trans hlevel'.symm, rfl⟩
  · rw [List.eq_nil_iff_forall_not_mem]
    intro g hg
    rcases (hfiles l g).mp hg with hold | ⟨rfl, -⟩
    · rw [hok.version.top l hl] at hold
      cases hold
    · exact absurd h.level_lt (not_lt.mpr hl)

/-- INTERNAL: the entries of the memtable that waited are on the level of the new table. -/
theorem Flushes.sunk (h : Flushes s table tables' level f) (hok : StoreOk s) (next : ℕ) :
    Sunk s { s with
      imm := none
      version := s.version.applyEdit ⟨[], [(level, f)]⟩
      tables := tables'
      nextFileNumber := next } level := by
  refine ⟨rfl, rfl, fun l e => ⟨fun he => ?_, fun he => ?_⟩, fun l hl e e' he he' hkey => ?_⟩
  · obtain ⟨g, hg, hge⟩ := mem_levelEntries.mp he
    rcases (h.files hok l g).mp hg with hold | ⟨hlevel, rfl⟩
    · rw [(hok.version.table l g hold).tableEntries_eq h.tables] at hge
      exact Or.inl (entryAt_level hold hge)
    · exact Or.inr ⟨hlevel, h.entryAt hge⟩
  · rcases he with he | ⟨rfl, he⟩
    · obtain ⟨g, hg, hge⟩ := mem_levelEntries.mp he
      refine mem_levelEntries.mpr ⟨g, (h.files hok l g).mpr (Or.inl hg), ?_⟩
      rwa [(hok.version.table l g hg).tableEntries_eq h.tables]
    · obtain ⟨table', htable, he⟩ := he
      obtain rfl : table = table' := Option.some.inj (h.imm.symm.trans htable)
      exact mem_levelEntries.mpr ⟨f, (h.files hok l f).mpr (Or.inr ⟨rfl, rfl⟩), h.entries ▸ he⟩
  · obtain ⟨table', htable, he'⟩ := he'
    obtain rfl : table = table' := Option.some.inj (h.imm.symm.trans htable)
    obtain ⟨g, hg, hge⟩ := mem_levelEntries.mp he
    obtain ⟨hlo, hhi⟩ := (hok.version.table l g hg).mem_range hge
    obtain ⟨hlo', hhi'⟩ := h.new.mem_range (h.entries ▸ he')
    rw [hkey] at hlo' hhi'
    exact h.miss (by omega) l hl.le g hg ⟨hlo.trans hhi', hlo'.trans hhi⟩

/-- INTERNAL: a compaction that is going on is not touched. -/
theorem Flushes.selected (h : Flushes s table tables' level f) (hok : StoreOk s) {t : Task}
    {es : List Entry} (hsel : Selected s t es) (next : ℕ) :
    Selected { s with
      imm := none
      version := s.version.applyEdit ⟨[], [(level, f)]⟩
      tables := tables'
      nextFileNumber := next } t es := by
  have hfiles := h.files hok
  have hmiss : t.level < level → ∀ g ∈ t.inputs, ¬ Meets lo hi g (lo f) (hi f) := by
    intro hlt g hg
    rcases List.mem_append.mp hg with hg | hg
    · exact h.miss (by omega) t.level hlt.le g (hsel.sub0 g hg)
    · exact h.miss (by omega) (t.level + 1) hlt g (hsel.sub1 g hg)
  have hentries : levelEntries tables' t.inputs = levelEntries s.tables t.inputs := by
    refine levelEntries_extend (fun g hg => ?_) h.tables
    rcases List.mem_append.mp hg with hg | hg
    · exact hok.version.table _ g (hsel.sub0 g hg)
    · exact hok.version.table _ g (hsel.sub1 g hg)
  refine ⟨hsel.level, fun g hg => (hfiles _ g).mpr (Or.inl (hsel.sub0 g hg)),
    fun g hg => (hfiles _ g).mpr (Or.inl (hsel.sub1 g hg)), fun e => ?_,
    fun g hg hstays e he e' he' hkey => ?_, hsel.gapless, fun g hg hstays => ?_,
    fun l hl g hg => ?_⟩
  · rw [hsel.entries e, ← hentries]
  · rcases (hfiles _ g).mp hg with hold | ⟨-, rfl⟩
    · refine hsel.others g hold hstays e ?_ e' he' hkey
      rwa [← (hok.version.table _ g hold).tableEntries_eq h.tables]
    · obtain ⟨-, -, -, -, -, d, hd, hat⟩ := hsel.exists_input hok he'
      exact hok.recent 1 d e e' (by omega) (h.entryAt he) hat hkey
  · rcases (hfiles _ g).mp hg with hold | ⟨hlevel, rfl⟩
    · exact hsel.beside g hold hstays
    · exact hsel.gapless.beside h.new.bounds.range (hmiss (by omega))
  · rcases (hfiles l g).mp hg with hold | ⟨rfl, rfl⟩
    · exact hsel.below l hl g hold
    · exact Or.inr (hmiss (by omega))

end Flush

/-- INTERNAL: **a table from the memtable that waits** keeps the invariant. -/
theorem StoreInv.flushed (h : StoreInv fuel s log) {table : MemTable} {level : ℕ}
    {f : FileMetaData} (hf : Flushes s table tables' level f) (hnumber : f.number = s.nextFileNumber)
    (hsame : ∀ number, number ≠ f.number → tables' number = s.tables number) :
    StoreInv fuel { s with
      imm := none
      version := s.version.applyEdit ⟨[], [(level, f)]⟩
      tables := tables'
      nextFileNumber := s.nextFileNumber + 1 } log := by
  have hsunk := hf.sunk h.ok (s.nextFileNumber + 1)
  have hunused : ∀ number, s.nextFileNumber + 1 ≤ number → tables' number = none := by
    intro number hle
    rw [hsame number (by omega)]
    exact h.ok.unused number (by omega)
  refine ⟨⟨h.ok.mem, fun _ himm => absurd himm (by simp), hf.versionOk h.ok,
    fun _ _ _ _ hd he he' hkey => hsunk.recent h.ok hd he he' hkey, hunused⟩,
    hsunk.keeps h.keeps rfl, fun state hstate => ?_⟩
  obtain ⟨t, es, i, kept, hloop, hsel, hfresh⟩ := h.compacting state hstate
  refine ⟨t, es, i, kept, hloop.others hf.tables (Nat.le_succ _) (fun number hlt => ?_) hunused,
    hf.selected h.ok hsel _, fun g hg l k hk => ?_⟩
  · exact hsame number (by rw [hnumber]; exact hlt.ne)
  · rcases (hf.files h.ok l k).mp hk with hold | ⟨-, rfl⟩
    · exact hfresh g hg l k hold
    · have hlt : g.number < s.nextFileNumber := hloop.written.number_lt g hg
      omega

/-- INTERNAL: an empty memtable that waits is dropped, with the number that was taken for it. -/
theorem StoreInv.dropped (h : StoreInv fuel s log) {table : MemTable} (himm : s.imm = some table)
    (hempty : memEntries table = []) :
    StoreInv fuel { s with imm := none, nextFileNumber := s.nextFileNumber + 1 } log := by
  have hnone : ∀ e, ¬ EntryAt s 1 e := by
    rintro e ⟨table', htable, he⟩
    obtain rfl : table = table' := Option.some.inj (himm.symm.trans htable)
    rw [hempty] at he
    cases he
  have hsunk : Sunk s { s with imm := none, nextFileNumber := s.nextFileNumber + 1 } 0 :=
    ⟨rfl, rfl, fun l e => ⟨Or.inl, fun he => he.resolve_right fun ⟨_, he⟩ => hnone e he⟩,
      fun l hl => absurd hl (Nat.not_lt_zero l)⟩
  have hunused : ∀ number, s.nextFileNumber + 1 ≤ number → s.tables number = none :=
    fun number hle => h.ok.unused number (by omega)
  refine ⟨⟨h.ok.mem, fun _ himm => absurd himm (by simp), h.ok.version,
    fun _ _ _ _ hd he he' hkey => hsunk.recent h.ok hd he he' hkey, hunused⟩,
    hsunk.keeps h.keeps rfl, fun state hstate => ?_⟩
  obtain ⟨t, es, i, kept, hloop, hsel, hfresh⟩ := h.compacting state hstate
  exact ⟨t, es, i, kept, hloop.others (fun _ _ hl => hl) (Nat.le_succ _) (fun _ _ => rfl) hunused,
    hsel.extend h.ok rfl fun _ _ hl => hl, hfresh⟩

/-- INTERNAL: **the memtable that waits is written to disk.**
SRCLINE: leveldb-1.15.0/db/db_impl.cc:457-534 -/
theorem StoreInv.compactMemTable (h : StoreInv fuel s log) (sizes : Sizes)
    (hfuel : storeRounds log.length ≤ fuel) (hnumber : s.nextFileNumber < 2 ^ 64) :
    ∃ s', s.compactMemTable fuel sizes = some s' ∧ StoreInv fuel s' log ∧
      s'.nextFileNumber ≤ s.nextFileNumber + 1 := by
  cases himm : s.imm with
  | none => exact ⟨s, by rw [Store.compactMemTable, himm], h, Nat.le_succ _⟩
  | some table =>
    have hholds := h.ok.imm table himm
    have hlen := h.keeps.length_le hholds.ordered.apart fun e he => ⟨1, table, himm, he⟩
    have hscan := hholds.scan (show (memEntries table).length + kMaxHeight ≤ fuel from
      le_trans (by unfold storeRounds; omega) hfuel)
    by_cases hempty : memEntries table = []
    · refine ⟨_, ?_, h.dropped himm hempty, le_rfl⟩
      rw [hempty, List.map_nil] at hscan
      simp only [Store.compactMemTable, himm, Store.writeLevel0Table, hscan, Option.bind_some,
        List.isEmpty_nil, if_true, Option.map_some, applyEdit_nil h.ok.version.sorted]
    · set f := Output.metaData sizes ⟨s.nextFileNumber, (memEntries table).map Entry.pair⟩ with hf
      obtain ⟨level, hpick, hle, hmiss⟩ := pickLevelForMemTableOutput_spec (a := lo f) (b := hi f)
        (fun l hl => h.ok.version.levelsSorted.sortedLevel hl) fun l => h.keeps.overlapFuel_le h.ok hfuel l
      have hunused := h.ok.unused s.nextFileNumber le_rfl
      have hflushes : Flushes s table (Function.update s.tables s.nextFileNumber
          (some ((memEntries table).map Entry.pair))) level f :=
        ⟨himm, extends_update hunused _, tableOk_new sizes hholds.ordered hholds.fits hempty hnumber _,
          tableEntries_update hholds.ordered _ _, hunused, hle.trans_lt (by decide), hmiss⟩
      refine ⟨_, ?_, h.flushed hflushes rfl fun number hne => Function.update_of_ne hne _ _, le_rfl⟩
      have hpairs : ((memEntries table).map Entry.pair).isEmpty = false := by
        simpa using hempty
      simp only [Store.compactMemTable, himm, Store.writeLevel0Table, hscan, Option.bind_some, hpairs,
        Bool.false_eq_true, if_false]
      exact congrArg (Option.map _) (congrArg (Option.map _) hpick)

/-! ## A compaction begins -/

/-- INTERNAL: what is known of the tables that a compaction has chosen. -/
theorem selected_of_chosen (hok : StoreOk s) {c : Compaction} {es : List Entry}
    (hlevel : c.level + 1 < kNumLevels) (hversion : c.inputVersion = s.version)
    (hchosen : Chosen s.version c.level c.inputs0 c.inputs1)
    (hes : es.Perm (levelEntries s.tables (taskOf c).inputs)) : Selected s (taskOf c) es where
  level := hlevel
  sub0 f hf := hchosen.sub0.subset hf
  sub1 f hf := hchosen.sub1.subset hf
  entries e := hes.mem_iff
  others := by
    intro f hf hstays e he e' he' hkey
    obtain ⟨g, hg, hge⟩ := mem_levelEntries.mp (hes.mem_iff.mp he')
    rcases List.mem_append.mp hg with hg | hg
    · have hfile := hchosen.sub0.subset hg
      have hmiss : ¬ Meets lo hi f (lo g) (hi g) := by
        rcases Nat.eq_zero_or_pos c.level with hzero | hpos
        · exact hchosen.closed hzero f (hzero ▸ hf) hstays g hg
        · have hne : f ≠ g := fun heq => hstays (heq ▸ hg)
          exact not_meets_iff.mpr (hok.version.disjoint c.level hpos f hf g hfile hne)
      obtain ⟨hlo, hhi⟩ := (hok.version.table _ f hf).mem_range he
      obtain ⟨hlo', hhi'⟩ := (hok.version.table _ g hfile).mem_range hge
      rw [hkey] at hlo' hhi'
      exact absurd ⟨hlo.trans hhi', hlo'.trans hhi⟩ hmiss
    · exact hok.recent (c.level + 2) (c.level + 3) e e' (by omega) (entryAt_level hf he)
        (entryAt_level (hchosen.sub1.subset hg) hge) hkey
  gapless := hchosen.gapless
  beside := hchosen.beside
  below l _ f hf := Or.inl (show f ∈ c.inputVersion.files l from hversion ▸ hf)

/-- INTERNAL: no version comes twice in the tables that a compaction has chosen. -/
theorem Chosen.apart {level : ℕ} {inputs0 inputs1 : List FileMetaData}
    (h : Chosen s.version level inputs0 inputs1) (hok : StoreOk s) :
    (levelEntries s.tables (inputs0 ++ inputs1)).Pairwise Entry.Apart := by
  have hsub0 := h.sub0.flatMap fun f => tableEntries s.tables f.number
  have hsub1 := h.sub1.flatMap fun f => tableEntries s.tables f.number
  rw [levelEntries, List.flatMap_append, List.pairwise_append]
  refine ⟨(hok.version.levelEntries_apart _).sublist hsub0,
    (hok.version.levelEntries_apart _).sublist hsub1, fun e he e' he' => ?_⟩
  exact hok.apart_of_lt (show level + 2 < level + 3 by omega) (hsub0.subset he) (hsub1.subset he')

/-- INTERNAL: some tables of a level can be read. -/
theorem levelParts_ok (hok : StoreOk s) {l : ℕ} {files : List FileMetaData}
    (hsub : files.Sublist (s.version.files l)) (hfuel : (s.version.files l).length + 1 < fuel) :
    ∀ part ∈ levelParts l files, part.Ok s.tables fuel := by
  intro part hpart
  rw [levelParts] at hpart
  split_ifs at hpart with hempty hzero
  · cases hpart
  · obtain ⟨f, hf, rfl⟩ := List.mem_map.mp hpart
    exact (hok.version.table l f (hsub.subset hf)).toFileOk
  · rw [List.mem_singleton] at hpart
    subst hpart
    have hlevel := hok.version.levelOk (Nat.pos_of_ne_zero hzero)
    exact ⟨⟨fun f hf => hlevel.file f (hsub.subset hf), hlevel.apart.sublist hsub⟩,
      (Nat.add_le_add_right hsub.length_le 1).trans_lt hfuel⟩

/-- INTERNAL: **the loop before its first round.**
SRCLINE: leveldb-1.15.0/db/db_impl.cc:855-883 -/
theorem StoreInv.start (h : StoreInv fuel s log) {c : Compaction} {es : List Entry}
    (hfuel : storeRounds log.length ≤ fuel) (hseq : log.length < kMaxSequenceNumber)
    (hversion : c.inputVersion = s.version) (hptrs : c.levelPtrs = fun _ => 0)
    (hchosen : Chosen s.version c.level c.inputs0 c.inputs1) (hes : Ordered es)
    (hperm : es.Perm (levelEntries s.tables (taskOf c).inputs)) :
    ∃ state, CompactionState.start s.tables fuel c s.lastSequence = some state ∧
      state.outputs = [] ∧
      Loop fuel (taskOf c) es 0 (clip (es.map Entry.pair) 0) [] (s.work state) := by
  have hlog := h.keeps.last
  have hlen : ∀ l, (s.version.files l).length + 1 < fuel := by
    intro l
    have hle := h.keeps.length_files_le h.ok l
    exact lt_of_lt_of_le (by unfold storeRounds; omega) hfuel
  have hparts : ∀ part ∈ (taskOf c).parts, part.Ok s.tables fuel := by
    intro part hpart
    rcases List.mem_append.mp hpart with hpart | hpart
    · exact levelParts_ok h.ok hchosen.sub0 (hlen _) part hpart
    · exact levelParts_ok h.ok hchosen.sub1 (hlen _) part hpart
  have hunder := parts_under hparts hes ((taskOf c).parts_entries s.tables ▸ hperm)
  obtain ⟨input, hmove, hinput⟩ :=
    hunder.simulates.move .seekToFirst trivial (mergedAt_new hparts es) rfl
  refine ⟨⟨c, s.lastSequence, [], none, input, none, kMaxSequenceNumber⟩, ?_, rfl, ?_⟩
  · rw [CompactionState.start, makeInputIterator_eq, hmove, Option.map_some]
  · have hold : ∀ e ∈ es, e.sequence ≤ s.lastSequence := by
      intro e he
      obtain ⟨f, hf, hfe⟩ := mem_levelEntries.mp (hperm.mem_iff.mp he)
      have hat : ∃ d, EntryAt s d e := by
        rcases List.mem_append.mp hf with hf | hf
        · exact ⟨_, entryAt_level (hchosen.sub0.subset hf) hfe⟩
        · exact ⟨_, entryAt_level (hchosen.sub1.subset hf) hfe⟩
      obtain ⟨d, hat⟩ := hat
      have hbounds := MemTable.mem_batchEntries (h.keeps.logged d e hat)
      omega
    refine ⟨⟨rfl, rfl, fun e he => absurd he (by simp), fun e _ l f hf => ?_, hold, ?_⟩,
      ⟨List.Sublist.refl _, fun e he => absurd he (by simp), fun e he => absurd he (by simp)⟩,
      ⟨fun f hf => absurd hf List.not_mem_nil, fun f hf => absurd hf List.not_mem_nil,
        List.nodup_nil, h.ok.unused, [], rfl, rfl⟩, hinput, hparts, hperm, hes, fun l hl => ?_⟩
    · have hnil : f ∈ (c.inputVersion.files l).take (c.levelPtrs l) := hf
      rw [hptrs, List.take_zero] at hnil
      cases hnil
    · exact hlog ▸ hseq
    · show SortedLevel (c.inputVersion.files l)
      rw [hversion]
      exact h.ok.version.levelsSorted.sortedLevel hl

/-- INTERNAL: **the edit at the end of a compaction** replaces its tables.
SRCLINE: leveldb-1.15.0/db/db_impl.cc:834-853 -/
theorem Selected.replaces (hok : StoreOk s) {c : Compaction} {es kept : List Entry}
    (hsel : Selected s (taskOf c) es) (outs : List FileMetaData)
    (hext : Extends s.tables tables') (htable : ∀ f ∈ outs, TableOk tables' f)
    (hdisjoint : ∀ f ∈ outs, ∀ g ∈ outs, f ≠ g → hi f < lo g ∨ hi g < lo f)
    (hentries : ∀ e, e ∈ levelEntries tables' outs ↔ e ∈ kept)
    (hnodup : (outs.map FileMetaData.number).Nodup)
    (hfresh : ∀ f ∈ outs, ∀ l, ∀ g ∈ s.version.files l, g.number = f.number →
      l = c.level ∧ g ∈ c.inputs0) :
    Replaces s (taskOf c) tables'
      (s.version.applyEdit ⟨c.inputDeletions, outs.map fun f => (c.level + 1, f)⟩) outs kept := by
  have hedit : FreshFor s.version ⟨c.inputDeletions, outs.map fun f => (c.level + 1, f)⟩ := by
    refine ⟨by simpa [Function.comp_def] using hnodup, fun n hn g hg heq => ?_⟩
    obtain ⟨f, hf, rfl⟩ := List.mem_map.mp hn
    have hlevel := (hfresh f hf _ g hg heq).1
    exact absurd hlevel (Nat.succ_ne_self _)
  -- a table of a level is named by its number
  have hstays : ∀ l, ∀ f ∈ s.version.files l,
      ((l, f.number) ∉ c.inputDeletions ↔ Stays (taskOf c) l f) := by
    intro l f hf
    have hnamed : (l, f.number) ∈ c.inputDeletions ↔
        (l = c.level ∧ f ∈ c.inputs0) ∨ l = c.level + 1 ∧ f ∈ c.inputs1 := by
      simp only [Compaction.inputDeletions, List.mem_append, List.mem_map, Prod.mk.injEq]
      constructor
      · rintro (⟨g, hg, rfl, heq⟩ | ⟨g, hg, rfl, heq⟩)
        · have hsame := (hok.version.unique _ _ g f (hsel.sub0 g hg) hf heq).2
          exact Or.inl ⟨rfl, hsame ▸ hg⟩
        · have hsame := (hok.version.unique _ _ g f (hsel.sub1 g hg) hf heq).2
          exact Or.inr ⟨rfl, hsame ▸ hg⟩
      · rintro (⟨rfl, hin⟩ | ⟨rfl, hin⟩)
        · exact Or.inl ⟨f, hin, rfl, rfl⟩
        · exact Or.inr ⟨f, hin, rfl, rfl⟩
    rw [hnamed, not_or, not_and, not_and]
    rfl
  have hfiles : ∀ l f, f ∈ (s.version.applyEdit
      ⟨c.inputDeletions, outs.map fun f => (c.level + 1, f)⟩).files l ↔
      (f ∈ s.version.files l ∧ Stays (taskOf c) l f) ∨ l = c.level + 1 ∧ f ∈ outs := by
    intro l f
    rw [mem_applyEdit hok.version.sorted hedit]
    refine or_congr (and_congr_right fun hf => hstays l f hf) ?_
    constructor
    · intro hmem
      obtain ⟨g, hg, heq⟩ := List.mem_map.mp hmem
      cases heq
      exact ⟨rfl, hg⟩
    · rintro ⟨rfl, hf⟩
      exact List.mem_map_of_mem hf
  refine ⟨hext, hfiles, sorted_applyEdit hok.version.sorted hedit, htable, hdisjoint, hentries, ?_⟩
  intro f hf l g hg heq
  rcases (hfiles l g).mp hg with ⟨hold, hstay⟩ | ⟨hlevel, hout⟩
  · obtain ⟨rfl, hin⟩ := hfresh f hf l g hold heq
    exact absurd hin (hstay.1 rfl)
  · exact ⟨hlevel, List.inj_on_of_nodup_map hnodup hout hf heq⟩

/-- INTERNAL: a table that goes to the next level as it is.
SRCLINE: leveldb-1.15.0/db/db_impl.cc:685-692 -/
theorem StoreInv.move (h : StoreInv fuel s log) {c : Compaction} {es : List Entry}
    (hcompacting : s.compacting = none) (htrivial : c.isTrivialMove = true)
    (hsel : Selected s (taskOf c) es) :
    StoreInv fuel { s with version := s.version.applyEdit (Store.moveEdit c) } log := by
  obtain ⟨hone, hzero, -⟩ := of_decide_eq_true htrivial
  have hinputs1 : c.inputs1 = [] := List.length_eq_zero_iff.mp hzero
  obtain ⟨f, hinputs0⟩ := List.length_eq_one_iff.mp hone
  have hf : f ∈ s.version.files c.level := hsel.sub0 f (by simp [taskOf, hinputs0])
  have hedit : Store.moveEdit c = ⟨c.inputDeletions, c.inputs0.map fun f => (c.level + 1, f)⟩ := by
    rw [Store.moveEdit, Compaction.inputDeletions, hinputs1, List.map_nil, List.append_nil]
  have hentries : ∀ e, e ∈ levelEntries s.tables c.inputs0 ↔ e ∈ es := by
    intro e
    rw [hsel.entries e, Task.inputs, taskOf, hinputs1, List.append_nil]
  have hreplaces := hsel.replaces h.ok c.inputs0 (fun _ _ hl => hl)
    (fun g hg => h.ok.version.table _ g (hsel.sub0 g hg)) ?_ hentries ?_ ?_
  · rw [hedit]
    have hkept : ∀ e ∈ es, e ∈ es := fun _ he => he
    refine ⟨hreplaces.storeOk h.ok hsel hkept h.ok.unused,
      hreplaces.keeps h.ok hsel h.keeps hkept fun e he _ => Or.inl he, fun state hstate => ?_⟩
    exact absurd (hstate.symm.trans hcompacting) (by simp)
  · intro g hg g' hg' hne
    rw [hinputs0, List.mem_singleton] at hg hg'
    exact absurd (hg.trans hg'.symm) hne
  · rw [hinputs0]
    exact List.nodup_singleton _
  · intro g hg l k hk heq
    obtain ⟨hl, rfl⟩ := h.ok.version.unique l _ k g hk (hsel.sub0 g hg) heq
    exact ⟨hl, hg⟩

/-- INTERNAL: **a compaction begins.**
SRCLINE: leveldb-1.15.0/db/db_impl.cc:655-714 -/
theorem StoreInv.backgroundCompaction (h : StoreInv fuel s log) (level index : ℕ)
    (hfuel : storeRounds log.length ≤ fuel) (hseq : log.length < kMaxSequenceNumber) :
    ∃ s', s.backgroundCompaction fuel level index = some s' ∧ StoreInv fuel s' log ∧
      s'.nextFileNumber = s.nextFileNumber := by
  rw [Store.backgroundCompaction]
  split_ifs with hguard
  · exact ⟨s, rfl, h, rfl⟩
  simp only [not_or, Bool.not_eq_true, Option.isSome_eq_false_iff, Option.isNone_iff_eq_none,
    not_le] at hguard
  obtain ⟨hcompacting, -, hlevel⟩ := hguard
  cases hfile : (s.version.files level)[index]? with
  | none => exact ⟨s, rfl, h, rfl⟩
  | some f =>
    obtain ⟨c, hpick, rfl, hversion, hptrs, hchosen⟩ := pickCompaction_spec h.ok.version.levelsSorted
      (fun l => h.keeps.overlapFuel_le h.ok hfuel l) (List.mem_of_getElem? hfile)
    have hapart := hchosen.apart h.ok
    have hbound : ∀ e ∈ levelEntries s.tables (c.inputs0 ++ c.inputs1),
        e.sequence ≤ kMaxSequenceNumber := by
      intro e he
      obtain ⟨g, hg, hge⟩ := mem_levelEntries.mp he
      rcases List.mem_append.mp hg with hg | hg
      · exact ((h.ok.version.table _ g (hchosen.sub0.subset hg)).fits e hge).sequence
      · exact ((h.ok.version.table _ g (hchosen.sub1.subset hg)).fits e hge).sequence
    obtain ⟨es, hes, hperm⟩ := exists_ordered hapart hbound
    have hsel := selected_of_chosen h.ok hlevel hversion hchosen hperm
    simp only [hpick, Option.bind_some]
    split_ifs with htrivial
    · exact ⟨_, rfl, h.move hcompacting htrivial hsel, rfl⟩
    · obtain ⟨state, hstart, houtputs, hloop⟩ := h.start hfuel hseq hversion hptrs hchosen hes hperm
      refine ⟨{ s with compacting := some state }, by rw [hstart, Option.map_some],
        h.extend (fun _ _ hl => hl) h.ok.unused ?_, rfl⟩
      rintro state' ⟨⟩
      refine ⟨taskOf c, es, 0, [], hloop, hsel.extend h.ok rfl fun _ _ hl => hl, ?_⟩
      rw [houtputs]
      exact fun g hg => absurd hg List.not_mem_nil

/-! ## The loop of a compaction -/

/-- INTERNAL: what the input of a compaction shows. -/
theorem Loop.current_eq {t : Task} {es kept : List Entry} {i : ℕ} {w : CompactionWork}
    (h : Loop fuel t es i (clip (es.map Entry.pair) i) kept w) :
    (internalOps w.tables fuel).current w.state.input = es[i]?.map Entry.pair := by
  rw [h.under.simulates.current h.input, current_clip, List.getElem?_map]

/-- INTERNAL: **a round of a compaction.**
SRCLINE: leveldb-1.15.0/db/db_impl.cc:884-976 -/
theorem StoreInv.doCompactionWork (h : StoreInv fuel s log) (sizes : Sizes)
    (hnumber : s.nextFileNumber < 2 ^ 64) :
    ∃ s', s.doCompactionWork fuel sizes = some s' ∧ StoreInv fuel s' log ∧
      s'.nextFileNumber ≤ s.nextFileNumber + 1 := by
  rw [Store.doCompactionWork]
  cases hstate : s.compacting with
  | none => exact ⟨s, rfl, h, Nat.le_succ _⟩
  | some state =>
    obtain ⟨t, es, i, kept, hloop, hsel, hfresh⟩ := h.compacting state hstate
    have hcurrent : (internalOps s.tables fuel).current state.input = es[i]?.map Entry.pair :=
      hloop.current_eq
    cases he : es[i]? with
    | none =>
      rw [he, Option.map_none] at hcurrent
      exact ⟨s, by simp [hcurrent], h, Nat.le_succ _⟩
    | some e =>
      rw [he, Option.map_some] at hcurrent
      obtain ⟨w, kept', hround, hloop', hgrows, hnext⟩ := hloop.round sizes he hnumber
      have hext : Extends s.tables w.tables := hgrows.tables
      refine ⟨{ s with
        tables := w.tables, nextFileNumber := w.nextFileNumber, compacting := some w.state }, ?_,
        h.extend hext hloop'.written.unused ?_, hnext⟩
      · simp only [hcurrent, Option.isNone_some, Bool.false_eq_true, if_false, hround,
          Option.map_some]
      · rintro state' ⟨⟩
        refine ⟨t, es, i + 1, kept', hloop', hsel.extend h.ok rfl hext, fun f hf l g hg heq => ?_⟩
        rcases hgrows.outputs f hf with hold | hnone
        · exact hfresh f hold l g hg heq
        · have hcontent := (h.ok.version.table l g hg).content
          rw [heq, show s.tables f.number = none from hnone] at hcontent
          cases hcontent

/-- INTERNAL: tables with rising keys are apart. -/
theorem disjoint_of_pairwise {tables : Tables} {outs : List FileMetaData}
    (htable : ∀ f ∈ outs, TableOk tables f)
    (hlt : (levelEntries tables outs).Pairwise fun a b => a.userKey < b.userKey) :
    ∀ f ∈ outs, ∀ g ∈ outs, f ≠ g → hi f < lo g ∨ hi g < lo f := by
  have : Std.Symm fun f g : FileMetaData => hi f < lo g ∨ hi g < lo f := ⟨fun _ _ => Or.symm⟩
  have hpair : outs.Pairwise fun f g => hi f < lo g ∨ hi g < lo f := by
    rw [levelEntries, List.pairwise_flatMap] at hlt
    apply hlt.2.imp_of_mem
    intro f g hf hg hfg
    obtain ⟨a, ha, hhigh⟩ := (htable f hf).high
    obtain ⟨b, hb, hlow⟩ := (htable g hg).low
    exact Or.inl (hhigh ▸ hlow ▸ hfg a ha b hb)
  exact fun f hf g hg hne => hpair.forall hf hg hne

/-- INTERNAL: what the end of the loop has made of the newest versions. -/
theorem Sifted.dropped_of_end {t : Task} {es kept : List Entry} {i : ℕ} (h : Sifted t es i kept)
    (hes : Ordered es) (hend : es.length ≤ i) (he : e ∈ es) (hnewest : Newest es e) :
    e ∈ kept ∨ e.type = .deletion ∧ BaseFor t.version t.level e.userKey ∧
      ∀ e' ∈ kept, e'.userKey ≠ e.userKey := by
  by_cases hkept : e ∈ kept
  · exact Or.inl hkept
  · rcases h.dropped e (by rwa [List.take_of_length_le hend]) hnewest with hin | ⟨hdel, hbase⟩
    · exact Or.inl hin
    · refine Or.inr ⟨hdel, hbase, fun e' he' hkey => hkept ?_⟩
      have hmem : e' ∈ es := List.mem_of_mem_take (h.sub.subset he')
      have hle := hnewest e' hmem hkey
      have hge := h.newest e' he' e he hkey.symm
      -- two newest versions of a key are one
      have : Std.Symm Entry.Apart := ⟨fun _ _ => Entry.Apart.symm⟩
      by_contra hne
      have hapart := hes.apart.forall hmem he fun heq => hne (heq ▸ he')
      exact hapart hkey (le_antisymm hle hge)

/-- INTERNAL: **the end of a compaction.**
SRCLINE: leveldb-1.15.0/db/db_impl.cc:834-853, leveldb-1.15.0/db/db_impl.cc:981-1010 -/
theorem StoreInv.installCompactionResults (h : StoreInv fuel s log) (sizes : Sizes)
    (hnumber : s.nextFileNumber ≤ 2 ^ 64) :
    StoreInv fuel (s.installCompactionResults fuel sizes) log ∧
      (s.installCompactionResults fuel sizes).nextFileNumber = s.nextFileNumber := by
  rw [Store.installCompactionResults]
  cases hstate : s.compacting with
  | none => exact ⟨h, rfl⟩
  | some state =>
    obtain ⟨t, es, i, kept, hloop, hsel, hfresh⟩ := h.compacting state hstate
    have hcurrent : (internalOps s.tables fuel).current state.input = es[i]?.map Entry.pair :=
      hloop.current_eq
    dsimp only
    split_ifs with hsome
    · exact ⟨h, rfl⟩
    rw [hcurrent, Option.isSome_map, Bool.not_eq_true, Option.isSome_eq_false_iff,
      Option.isNone_iff_eq_none, List.getElem?_eq_none_iff] at hsome
    obtain ⟨hwritten, hwrites, hbuilder, hnext⟩ :=
      hloop.written.finish sizes hloop.kept_ordered hloop.kept_fits hnumber
    set w := (s.work state).finishCompactionOutputFile sizes
    obtain ⟨last, hsplit, hlast⟩ := hwritten.split
    rw [Building, hbuilder] at hlast
    rw [hlast, List.append_nil] at hsplit
    have htask : taskOf w.state.compaction = t := by
      rw [hwrites.compaction]
      exact hloop.reading.task
    subst htask
    have hsub : ∀ e ∈ kept, e ∈ es := fun e he =>
      List.mem_of_mem_take (hloop.sifted.sub.subset he)
    have hdisjoint := disjoint_of_pairwise hwritten.table
      (hsplit ▸ hloop.sifted.pairwise_lt hloop.ordered)
    have hnew : ∀ f ∈ w.state.outputs, ∀ l, ∀ g ∈ s.version.files l, g.number = f.number →
        l = w.state.compaction.level ∧ g ∈ w.state.compaction.inputs0 := by
      intro f hf l g hg heq
      rcases hwrites.outputs f hf with hold | hnone
      · exact absurd heq (hfresh f hold l g hg)
      · have hcontent := (h.ok.version.table l g hg).content
        rw [heq, show s.tables f.number = none from hnone] at hcontent
        cases hcontent
    have hentries : ∀ e, e ∈ levelEntries w.tables w.state.outputs ↔ e ∈ kept := by
      rw [hsplit]
      exact fun _ => Iff.rfl
    have hreplaces := hsel.replaces h.ok _ hwrites.tables hwritten.table hdisjoint hentries
      hwritten.nodup hnew
    refine ⟨⟨hreplaces.storeOk h.ok hsel hsub fun number hle => hwritten.unused number ?_,
      hreplaces.keeps h.ok hsel h.keeps hsub fun e he hnewest =>
        hloop.sifted.dropped_of_end hloop.ordered hsome he hnewest, fun _ hs => by cases hs⟩, rfl⟩
    exact hnext.trans_le hle

end Steps

end ExternalSort.Analysis
