import ExternalSort.Analysis.LevelDb.DbIter
import ExternalSort.Analysis.LevelDb.StoreSteps
import ExternalSort.Model.Bsort

/-!
# Runs of a database

Whatever the threads of a database do in which order, it comes back (`run_inv`), and an iterator
over it shows the records as a map holds them to which they were applied one after the other
(`replay`).  The map is of the kind that the tree sort is modelled with.
-/

set_option autoImplicit false

namespace ExternalSort.Analysis

open ExternalSort.Lib ExternalSort.Model

/-! ## Whole runs -/

/-- The records that some actions write. -/
def opsOf (actions : List Action) : List BatchOp := actions.flatMap Action.ops

/-- The actions stay within the limits of the format: lengths have 32 bits, the number of records
of a group is an `int`, sequence numbers have 56 bits and file numbers 64.
SRCLINE: leveldb-1.15.0/db/memtable.cc:82-108, leveldb-1.15.0/db/write_batch.cc:80-96,
leveldb-1.15.0/db/dbformat.h:59-64 -/
structure ActionsFit (actions : List Action) : Prop where
  storable : ∀ op ∈ opsOf actions, MemTable.OpStorable op
  group : ∀ a ∈ actions, a.ops.length < 2 ^ 31
  records : (opsOf actions).length < kMaxSequenceNumber
  files : actions.length + 4 ≤ 2 ^ 64

section Runs

variable {fuel : ℕ} {s : Store} {log : List BatchOp} {a : Action}

/-- INTERNAL: a database that was just made. -/
theorem storeInv_new (fuel : ℕ) : StoreInv fuel Store.new [] := by
  have hempty : memEntries SkipList.new = [] := MemTable.holds_new.eq_memEntries.symm
  have hnone : ∀ d e, ¬ EntryAt Store.new d e := by
    intro d e he
    match d, he with
    | 0, he =>
      rw [EntryAt, Store.new, hempty] at he
      cases he
    | 1, ⟨table, htable, _⟩ => cases htable
    | l + 2, he => cases he
  refine ⟨⟨?_, ?_, ?_, fun d _ e _ _ he => absurd he (hnone d e), fun _ _ => rfl⟩,
    ⟨rfl, fun d e he => absurd he (hnone d e), ?_⟩, ?_⟩
  · rw [Store.new, hempty]
    exact MemTable.holds_new
  · intro table htable
    cases htable
  · constructor
    · intro l f hf
      cases hf
    · exact fun l => List.Pairwise.nil
    · intro l hl f hf
      cases hf
    · intro f hf
      cases hf
    · intro l l' f f' hf
      cases hf
    · exact fun l hl => rfl
  · intro e he
    cases he
  · intro state hstate
    cases hstate

/-- INTERNAL: **every action comes back and keeps the invariant.** -/
theorem StoreInv.act (h : StoreInv fuel s log) (sizes : Sizes)
    (hstorable : ∀ op ∈ a.ops, MemTable.OpStorable op) (hgroup : a.ops.length < 2 ^ 31)
    (hrecords : (log ++ a.ops).length < kMaxSequenceNumber) (hfile : s.nextFileNumber < 2 ^ 64)
    (hfuel : storeRounds (log ++ a.ops).length ≤ fuel) :
    ∃ s', s.act fuel sizes a = some s' ∧ StoreInv fuel s' (log ++ a.ops) ∧
      s'.nextFileNumber ≤ s.nextFileNumber + 1 := by
  cases a with
  | write first others =>
    obtain ⟨s', hact, hinv, hnext⟩ := h.write hstorable hgroup hrecords.le hfuel
    exact ⟨s', hact, hinv, by omega⟩
  | makeRoom =>
    rw [Action.ops, List.append_nil]
    exact ⟨_, rfl, h.makeRoomForWrite⟩
  | flush =>
    rw [Action.ops, List.append_nil] at *
    exact h.compactMemTable sizes hfuel hfile
  | compact level index =>
    rw [Action.ops, List.append_nil] at *
    obtain ⟨s', hact, hinv, hnext⟩ := h.backgroundCompaction level index hfuel hrecords
    exact ⟨s', hact, hinv, by omega⟩
  | round =>
    rw [Action.ops, List.append_nil]
    exact h.doCompactionWork sizes hfile
  | install =>
    rw [Action.ops, List.append_nil]
    obtain ⟨hinv, hnext⟩ := h.installCompactionResults sizes hfile.le
    exact ⟨_, rfl, hinv, by omega⟩

/-- INTERNAL: **every run comes back and keeps the invariant.**  The induction is on the
actions. -/
theorem StoreInv.run (h : StoreInv fuel s log) (sizes : Sizes) {actions : List Action}
    (hstorable : ∀ op ∈ opsOf actions, MemTable.OpStorable op)
    (hgroup : ∀ a ∈ actions, a.ops.length < 2 ^ 31)
    (hrecords : (log ++ opsOf actions).length < kMaxSequenceNumber)
    (hfiles : s.nextFileNumber + actions.length ≤ 2 ^ 64)
    (hfuel : storeRounds (log ++ opsOf actions).length ≤ fuel) :
    ∃ s', s.run fuel sizes actions = some s' ∧ StoreInv fuel s' (log ++ opsOf actions) := by
  induction actions generalizing s log with
  | nil => exact ⟨s, rfl, by simpa [opsOf] using h⟩
  | cons a actions ih =>
    have hops : opsOf (a :: actions) = a.ops ++ opsOf actions := List.flatMap_cons
    rw [hops] at hstorable hrecords hfuel ⊢
    rw [← List.append_assoc] at hrecords hfuel ⊢
    rw [List.forall_mem_append] at hstorable
    rw [List.forall_mem_cons] at hgroup
    rw [List.length_cons] at hfiles
    have hle : (log ++ a.ops).length ≤ (log ++ a.ops ++ opsOf actions).length :=
      (List.sublist_append_left _ _).length_le
    obtain ⟨s₁, hact, hinv, hnext⟩ := h.act sizes hstorable.1 hgroup.1 (hle.trans_lt hrecords)
      (by omega) ((storeRounds_mono hle).trans hfuel)
    obtain ⟨s', hrun, hinv'⟩ := ih hinv hstorable.2 hgroup.2 hrecords (by omega) hfuel
    refine ⟨s', ?_, hinv'⟩
    rw [Store.run, List.foldlM_cons, hact]
    exact hrun

/-- INTERNAL: a run from a new database. -/
theorem run_inv (sizes : Sizes) {actions : List Action} (hfit : ActionsFit actions)
    (hfuel : storeRounds (opsOf actions).length ≤ fuel) :
    ∃ s, Store.new.run fuel sizes actions = some s ∧ StoreInv fuel s (opsOf actions) :=
  (storeInv_new fuel).run sizes hfit.storable hfit.group hfit.records
    (by rw [Nat.add_comm]; exact hfit.files) hfuel

end Runs

/-! ## The map that the records make -/

/-- A record is applied to a map. -/
def applyOp (db : Database) : BatchOp → Database
  | .put key value => db.insert key value
  | .delete key => db.erase key

/-- The map that some records make, one after the other. -/
def replay (ops : List BatchOp) : Database := ops.foldl applyOp ∅

section Replay

variable {log : List BatchOp} {es : List Entry} {e last : Entry} {key value : List Byte}

/-- INTERNAL: one more record is applied. -/
theorem replay_concat (log : List BatchOp) (op : BatchOp) :
    replay (log ++ [op]) = applyOp (replay log) op := by
  simp [replay]

/-- INTERNAL: the newest versions when one more record comes. -/
theorem newest_concat (hlast : ∀ e ∈ es, e.sequence < last.sequence) :
    (e ∈ es ++ [last] ∧ Newest (es ++ [last]) e) ↔
      e = last ∨ (e ∈ es ∧ Newest es e) ∧ last.userKey ≠ e.userKey := by
  have hmem : ∀ x, x ∈ es ++ [last] ↔ x ∈ es ∨ x = last := by simp
  constructor
  · rintro ⟨he, hnewest⟩
    rcases (hmem e).mp he with he | rfl
    · refine Or.inr ⟨⟨he, fun e' he' => hnewest e' ((hmem e').mpr (Or.inl he'))⟩, fun hkey => ?_⟩
      exact absurd (hnewest last ((hmem last).mpr (Or.inr rfl)) hkey) (hlast e he).not_ge
    · exact Or.inl rfl
  · rintro (rfl | ⟨⟨he, hnewest⟩, hkey⟩)
    · refine ⟨(hmem e).mpr (Or.inr rfl), fun e' he' _ => ?_⟩
      rcases (hmem e').mp he' with he' | rfl
      · exact (hlast e' he').le
      · exact le_rfl
    · refine ⟨(hmem e).mpr (Or.inl he), fun e' he' hsame => ?_⟩
      rcases (hmem e').mp he' with he' | rfl
      · exact hnewest e' he' hsame
      · exact absurd hsame hkey

/-- INTERNAL: **the map holds the newest versions**, without the deletions.  The induction is on
the records. -/
theorem lookup_replay (log : List BatchOp) (key value : List Byte) :
    (replay log)[key]? = some value ↔ ∃ e, (e ∈ MemTable.batchEntries 1 log ∧
      Newest (MemTable.batchEntries 1 log) e) ∧ e.type = .value ∧ e.userKey = key ∧
      e.value = value := by
  induction log using List.reverseRecOn with
  | nil => simp [replay, MemTable.batchEntries]
  | append_singleton log op ih =>
    have hentries : MemTable.batchEntries 1 (log ++ [op]) =
        MemTable.batchEntries 1 log ++ [MemTable.opEntry (1 + log.length) op] := by
      rw [MemTable.batchEntries_append]
      rfl
    have hlast : ∀ e ∈ MemTable.batchEntries 1 log,
        e.sequence < (MemTable.opEntry (1 + log.length) op).sequence := by
      intro e he
      rw [MemTable.sequence_opEntry]
      exact (MemTable.mem_batchEntries he).2
    rw [replay_concat, hentries]
    simp only [newest_concat hlast]
    by_cases hkey : (MemTable.opEntry (1 + log.length) op).userKey = key
    · -- the last record is the newest version of the key
      have honly : ∀ e, e.userKey = key →
          ¬ ((e ∈ MemTable.batchEntries 1 log ∧ Newest (MemTable.batchEntries 1 log) e) ∧
            (MemTable.opEntry (1 + log.length) op).userKey ≠ e.userKey) :=
        fun e he hold => hold.2 (hkey.trans he.symm)
      have hlookup : (applyOp (replay log) op)[key]? = some value ↔
          (MemTable.opEntry (1 + log.length) op).type = .value ∧
            (MemTable.opEntry (1 + log.length) op).value = value := by
        cases op with
        | put k v =>
          obtain rfl : k = key := hkey
          simp [applyOp, MemTable.opEntry]
        | delete k =>
          obtain rfl : k = key := hkey
          simp [applyOp, MemTable.opEntry]
      rw [hlookup]
      constructor
      · rintro ⟨htype, hvalue⟩
        exact ⟨_, Or.inl rfl, htype, hkey, hvalue⟩
      · rintro ⟨e, rfl | hold, htype, he, hvalue⟩
        · exact ⟨htype, hvalue⟩
        · exact absurd hold (honly e he)
    · have hlookup : (applyOp (replay log) op)[key]? = (replay log)[key]? := by
        cases op with
        | put k v =>
          have hne : k ≠ key := hkey
          simp [applyOp, Std.TreeMap.getElem?_insert, hne]
        | delete k =>
          have hne : k ≠ key := hkey
          simp [applyOp, Std.TreeMap.getElem?_erase, hne]
      rw [hlookup, ih]
      constructor
      · rintro ⟨e, hnewest, htype, rfl, hvalue⟩
        exact ⟨e, Or.inr ⟨hnewest, hkey⟩, htype, rfl, hvalue⟩
      · rintro ⟨e, rfl | ⟨hnewest, -⟩, htype, he, hvalue⟩
        · exact absurd he hkey
        · exact ⟨e, hnewest, htype, he, hvalue⟩

/-- INTERNAL: the map has no more keys than there are records. -/
theorem length_toList_replay_le (log : List BatchOp) :
    (replay log).toList.length ≤ log.length := by
  have hsize : ∀ op (db : Database), (applyOp db op).size ≤ db.size + 1 := by
    intro op db
    cases op with
    | put key value => exact Std.TreeMap.size_insert_le
    | delete key => exact Std.TreeMap.size_erase_le.trans (Nat.le_succ _)
  rw [Std.TreeMap.length_toList]
  induction log using List.reverseRecOn with
  | nil => exact le_rfl
  | append_singleton log op ih =>
    rw [replay_concat, List.length_append, List.length_singleton]
    exact (hsize op _).trans (Nat.add_le_add_right ih 1)

/-- INTERNAL: some version of a key is the newest. -/
theorem exists_newest (he : e ∈ es) : ∃ e' ∈ es, e'.userKey = e.userKey ∧ Newest es e' := by
  obtain ⟨e', he', hmax⟩ := (es.filter (·.userKey = e.userKey)).toFinset.exists_max_image
    Entry.sequence ⟨e, by simp [he]⟩
  simp only [List.mem_toFinset, List.mem_filter, decide_eq_true_eq] at he' hmax
  exact ⟨e', he'.1, he'.2, fun x hx hkey => hmax x ⟨hx, hkey.trans he'.2⟩⟩

end Replay

/-! ## What an iterator shows -/

section Shows

variable {fuel : ℕ} {s : Store} {log : List BatchOp} {es : List Entry} {e : Entry}

/-- INTERNAL: the keys of a listing ascend. -/
theorem Ordered.listing_sorted (h : Ordered es) (snap : ℕ) :
    (listing snap es).Pairwise fun p q => p.1 < q.1 := by
  rw [listing, List.pairwise_map, shownEntries, List.pairwise_filter]
  apply h.sorted.imp_of_mem
  rintro a b ha hb (hlt | ⟨hkey, hlt⟩) hsa hsb
  · exact hlt
  · have hshown := of_decide_eq_true hsb
    exact absurd (hshown.2.2 a ha hkey (of_decide_eq_true hsa).2.1) hlt.not_ge

/-- INTERNAL: **what is shown of the entries** are the newest versions of all that was written. -/
theorem StoreInv.shown_iff (h : StoreInv fuel s log) (hperm : es.Perm (storeEntries s)) :
    (e ∈ es ∧ Shown s.lastSequence es e) ↔ (e ∈ MemTable.batchEntries 1 log ∧
      Newest (MemTable.batchEntries 1 log) e) ∧ e.type = .value := by
  have hes : ∀ e, e ∈ es ↔ ∃ d, EntryAt s d e := fun e =>
    hperm.mem_iff.trans h.ok.mem_storeEntries
  have hsnap : ∀ e ∈ MemTable.batchEntries 1 log, e.sequence ≤ s.lastSequence := by
    intro e he
    have hbounds := MemTable.mem_batchEntries he
    have hlast := h.keeps.last
    omega
  constructor
  · rintro ⟨he, htype, -, hmax⟩
    obtain ⟨d, hd⟩ := (hes e).mp he
    have hlogged := h.keeps.logged d e hd
    refine ⟨⟨hlogged, fun e' he' hkey => ?_⟩, htype⟩
    -- the newest version that was written is still there, so it is not newer than what is shown
    obtain ⟨x, hx, hxkey, hnewest⟩ := exists_newest hlogged
    have hx' : ∃ d, EntryAt s d x := by
      rcases h.keeps.newest x hx hnewest with hat | ⟨-, hnone⟩
      · exact hat
      · exact absurd hxkey.symm (hnone d e hd)
    have hle := hmax x ((hes x).mpr hx') hxkey (hsnap x hx)
    exact (hnewest e' he' (hkey.trans hxkey.symm)).trans hle
  · rintro ⟨⟨he, hnewest⟩, htype⟩
    have hat : ∃ d, EntryAt s d e := by
      rcases h.keeps.newest e he hnewest with hat | ⟨hdel, -⟩
      · exact hat
      · rw [htype] at hdel
        cases hdel
    refine ⟨(hes e).mpr hat, htype, hsnap e he, fun e' he' hkey _ => ?_⟩
    obtain ⟨d, hd⟩ := (hes e').mp he'
    exact hnewest e' (h.keeps.logged d e' hd) hkey

/-- INTERNAL: **the listing is that of the map.** -/
theorem StoreInv.listing_eq (h : StoreInv fuel s log) (hes : Ordered es)
    (hperm : es.Perm (storeEntries s)) : listing s.lastSequence es = (replay log).toList := by
  have hmem : ∀ p, p ∈ listing s.lastSequence es ↔ p ∈ (replay log).toList := by
    rintro ⟨key, value⟩
    rw [Std.TreeMap.mem_toList_iff_getElem?_eq_some, lookup_replay]
    simp only [listing, shownEntries, List.mem_map, List.mem_filter, decide_eq_true_eq,
      h.shown_iff hperm, Prod.mk.injEq, and_assoc]
  have hsorted := hes.listing_sorted s.lastSequence
  have hnodup : (listing s.lastSequence es).Nodup :=
    hsorted.imp fun hlt heq => absurd (congrArg Prod.fst heq) hlt.ne
  have hkeys : (replay log).toList.Pairwise fun p q => p.1 < q.1 := by
    apply (Std.TreeMap.ordered_keys_toList (t := replay log)).imp
    exact fun hlt => (compare_lt_iff _ _).mp hlt
  have hsame := (List.perm_ext_iff_of_nodup hnodup (nodup_toList (replay log))).mpr hmem
  exact hsame.eq_of_pairwise (fun _ _ _ _ hab hba => absurd hab hba.not_gt) hsorted hkeys

/-- INTERNAL: **an iterator over a database is the cursor over the map.**
SRCLINE: leveldb-1.15.0/db/db_impl.cc:1124-1134 -/
theorem StoreInv.iterator_simulates (h : StoreInv fuel s log)
    (hrecords : log.length ≤ kMaxSequenceNumber) (hfuel : storeRounds log.length ≤ fuel) :
    ∃ R : DbIter (MergedIterator ChildIterator) → Option ℕ → Prop,
      Simulates (fun target => target.length + 8 < 2 ^ 32) (s.iteratorOps fuel)
        (cursorOps userBefore (replay log).toList) R ∧ R s.newIterator none := by
  have hparts := h.keeps.parts_ok h.ok hfuel
  have hbound : ∀ e ∈ storeEntries s, e.sequence ≤ kMaxSequenceNumber := by
    intro e he
    obtain ⟨part, hpart, he⟩ := List.mem_flatMap.mp he
    exact ((hparts part hpart).fits he).sequence
  obtain ⟨es, hes, hperm⟩ := exists_ordered h.ok.apart hbound
  have hlen : es.length < fuel := by
    have hle : es.length ≤ log.length := by
      rw [hperm.length_eq]
      exact h.keeps.length_le h.ok.apart fun e he => h.ok.mem_storeEntries.mp he
    exact lt_of_lt_of_le (by unfold storeRounds; omega) hfuel
  have hunder := parts_under hparts hes hperm
  have hsnap : s.lastSequence ≤ kMaxSequenceNumber := h.keeps.last.trans_le hrecords
  have hsim := dbIter_simulates hunder hsnap hlen
  rw [h.listing_eq hes hperm] at hsim
  refine ⟨_, hsim, .nowhere (q := none) rfl rfl ?_⟩
  rw [Store.newIterator, newInternalIterator_eq]
  exact mergedAt_new hparts es

/-- INTERNAL: **the usual loop reads the map** from its first pair to its last. -/
theorem StoreInv.scan (h : StoreInv fuel s log) (hrecords : log.length ≤ kMaxSequenceNumber)
    (hfuel : storeRounds log.length ≤ fuel) :
    (s.iteratorOps fuel).scan fuel s.newIterator = some (replay log).toList := by
  obtain ⟨R, hsim, hnew⟩ := h.iterator_simulates hrecords hfuel
  have hlt : log.length < fuel := lt_of_lt_of_le (by unfold storeRounds; omega) hfuel
  exact hsim.scan hnew ((length_toList_replay_le log).trans_lt hlt)

end Shows

/-! ## The results -/

/-- Two memtables are written to disk and their tables are merged, then there is one more write. -/
def twoTables : List Action :=
  [.write [.put [97] [1], .put [98] [2]] [], .makeRoom, .flush,
    .write [.put [97] [3]] [[.delete [98]]], .makeRoom, .flush,
    .compact 1 0, .round, .round, .round, .round, .install, .write [.put [99] [4]] []]

/-- INTERNAL: these actions stay within the limits. -/
theorem twoTables_fit : ActionsFit twoTables where
  storable := by simp [twoTables, opsOf, Action.ops, MemTable.OpStorable]
  group := by decide
  records := by decide
  files := by decide

end ExternalSort.Analysis
