import ExternalSort.Analysis.LevelDb.SkipListInsert

/-!
# The skip list under one writer and many readers

Readers take no lock, and stores of an insertion come between their loads.  Whatever the
interleaving, no thread loads a link that has not been written, a search gives the answer that
is right for the keys in the list at its last load, and an insertion puts its key there.  A
reader is not held up for ever either: each of its loads comes back and brings it nearer to its
end, and each key inserted meanwhile costs it at most one more (`Loads.bound`).
-/

set_option autoImplicit false

namespace ExternalSort.Analysis

open ExternalSort.Lib ExternalSort.Model

namespace SkipList

variable {K O : Type} [LinearOrder O] {cmp : K → K → ℤ} {rank : K → O} {list list' : SkipList K}

/-! ## Many threads -/

section Threads

variable {t t' : SkipList.Threads K}

/-- INTERNAL: a reader after its own step. -/
@[simp]
theorem setReader_self (t : SkipList.Threads K) (r : ℕ) (reader : SkipList.Reader K) :
    (t.setReader r reader).readers r = some reader := Function.update_self ..

/-- What a reader knows between two loads. -/
structure Reads (list : SkipList K) (P : K → Bool) (c : List (K × ℕ)) (s : SkipList.Search) : Prop where
  front : InFront P c s.node
  ready : Ready list s.node s.level

/-- What holds between any two steps of the threads. -/
def Safe (cmp : K → K → ℤ) (rank : K → O) (t : SkipList.Threads K) : Prop :=
  ∃ todo, Linked rank t.list (entries t.list) ∧
    Planned rank t.list (entries t.list) t.pending todo ∧
    ∀ r goal s, t.readers r = some (.searching goal s) →
      Reads t.list (goal.after cmp) (entries t.list) s

/-- INTERNAL: a reader is not disturbed when the list grows. -/
theorem Reads.mono {P : K → Bool} {c c' : List (K × ℕ)} {s : SkipList.Search}
    (h : Reads list P c s) (hgrows : Grows list c list' c') : Reads list' P c' s :=
  ⟨h.front.mono hgrows.sub, hgrows.ready h.ready⟩

/-- INTERNAL: a reader begins at the head. -/
theorem Linked.reads_start {c : List (K × ℕ)} (h : Linked rank list c) (P : K → Bool) :
    Reads list P c (.start list) := by
  refine ⟨Or.inl rfl, fun j hj => h.head j ?_⟩
  have hle := h.maxHeight_le
  simp only [SkipList.Search.start] at hj
  omega

/-- INTERNAL: a reader that goes on knows what it has to. -/
theorem Reads.outcome {P : K → Bool} {c : List (K × ℕ)} {s s' : SkipList.Search}
    (h : Reads list P c s) (hout : Outcome list P c s (.inl s')) : Reads list P c s' := by
  cases hout with
  | ahead hk hPk hready => exact ⟨Or.inr ⟨_, hk, hPk⟩, hready⟩
  | down hlevel => exact ⟨h.front, fun j hj => h.ready j (by simp only at hj; omega)⟩

/-- INTERNAL: a key that compares equal to none is new. -/
theorem fresh_of_cmp (hcmp : Represents cmp rank) (h : Linked rank list (entries list)) {key : K}
    (hfresh : ∀ node ∈ list.nodes.tail, cmp key node.key ≠ 0) : Fresh rank (entries list) key := by
  intro q hq heq
  obtain ⟨node, hnode, hkey⟩ := Option.map_eq_some_iff.mp (h.keyAt q hq)
  refine hfresh node ?_ ((hcmp.zero_iff key node.key).mpr (hkey ▸ heq.symm))
  rw [List.mem_iff_getElem?]
  obtain ⟨x, hx⟩ : ∃ x, q.2 = x + 1 := Nat.exists_eq_succ_of_ne_zero (h.ne_zero q hq)
  exact ⟨x, by rw [List.getElem?_tail, ← hx, hnode]⟩

/-- INTERNAL: **every step keeps the list safe.** -/
theorem Safe.step (hcmp : Represents cmp rank) (h : Safe cmp rank t)
    (hstep : SkipList.Step cmp t t') : Safe cmp rank t' := by
  obtain ⟨todo, hlist, hplan, hreaders⟩ := h
  cases hstep with
  | @insert fuel key plan hidle hfresh hstores =>
    have hfresh' := fresh_of_cmp hcmp hlist hfresh
    have hentries := (hlist.setSeed plan.2).entries_eq
    refine ⟨some key, hentries ▸ hlist.setSeed plan.2, ?_, fun r goal s hr => ?_⟩
    · rw [hentries]
      exact insertStores_planned hlist hcmp hfresh' hstores
    · rw [hentries]
      obtain ⟨hfront, hready⟩ := hreaders r goal s hr
      exact ⟨hfront, hready⟩
  | @store s rest list hpending happly =>
    rw [hpending] at hplan
    obtain ⟨list', c', todo', happly', hlist', hplan', hgrows, -⟩ := store_spec hlist hplan
    rw [happly] at happly'
    cases happly'
    have hentries := hlist'.entries_eq
    refine ⟨todo', hentries ▸ hlist', hentries ▸ hplan', fun r goal s hr => ?_⟩
    rw [hentries]
    exact (hreaders r goal s hr).mono hgrows
  | start r goal =>
    refine ⟨todo, hlist, hplan, fun r' goal' s' hr' => ?_⟩
    simp only [SkipList.Threads.setReader, Function.update_apply] at hr'
    split_ifs at hr'
    · cases hr'
      exact hlist.reads_start _
    · exact hreaders r' goal' s' hr'
  | @load r goal s s' hr hround =>
    obtain ⟨hfront, hready⟩ := hreaders r goal s hr
    refine ⟨todo, hlist, hplan, fun r' goal' u hr' => ?_⟩
    simp only [SkipList.Threads.setReader, Function.update_apply] at hr'
    split_ifs at hr'
    · cases hr'
      obtain ⟨res, hres, hout⟩ := searchRound_outcome hlist hfront hready
      rw [hround] at hres
      cases hres
      exact Reads.outcome ⟨hfront, hready⟩ hout
    · exact hreaders r' goal' u hr'
  | @finish r goal s s' next hr hround =>
    refine ⟨todo, hlist, hplan, fun r' goal' u hr' => ?_⟩
    simp only [SkipList.Threads.setReader, Function.update_apply] at hr'
    split_ifs at hr'
    · cases hr'
    · exact hreaders r' goal' u hr'

/-- The threads at the start: an empty list, and no one at work. -/
def start [Inhabited K] : SkipList.Threads K := ⟨.new, [], fun _ => none⟩

/-- INTERNAL: the list is safe in every run. -/
theorem safe_of_reachable [Inhabited K] (hcmp : Represents cmp rank)
    (h : Relation.ReflTransGen (SkipList.Step cmp) start t) : Safe cmp rank t := by
  induction h with
  | refl =>
    have hnew := linked_new rank
    refine ⟨none, hnew.entries_eq.symm ▸ hnew, .idle, ?_⟩
    intro r goal s hr
    cases hr
  | tail _ hstep ih => exact ih.step hcmp hstep

/-! ## How far a reader still has to go -/

/-- How many loads a search needs at most, if no key is inserted meanwhile. -/
def loadsLeft (list : SkipList K) (s : SkipList.Search) : ℕ :=
  s.level + 1 + ((entries list).length - (0 :: (entries list).map Prod.snd).idxOf s.node)

/-- INTERNAL: an element does not come earlier when another is inserted. -/
theorem idxOf_le_insert {a b : List ℕ} {x y : ℕ} (hxy : y ≠ x) :
    (a ++ b).idxOf y ≤ (a ++ x :: b).idxOf y := by
  by_cases ha : y ∈ a
  · rw [List.idxOf_append_of_mem ha, List.idxOf_append_of_mem ha]
  · rw [List.idxOf_append_of_notMem ha, List.idxOf_append_of_notMem ha,
      List.idxOf_cons_ne _ hxy.symm]
    omega

/-- INTERNAL: a reader stands on a node of the list. -/
theorem Reads.mem {P : K → Bool} {c : List (K × ℕ)} {s : SkipList.Search} (h : Reads list P c s) :
    s.node ∈ 0 :: c.map Prod.snd := by
  rcases h.front with hzero | ⟨k, hk, -⟩
  · simp [hzero]
  · exact List.mem_cons_of_mem _ (List.mem_map.mpr ⟨_, hk, rfl⟩)

/-- INTERNAL: a load of a reader that goes on. -/
theorem loadsLeft_round (h : Linked rank list (entries list)) {P : K → Bool}
    {s s' : SkipList.Search} (hs : Reads list P (entries list) s)
    (hout : Outcome list P (entries list) s (.inl s')) : loadsLeft list s' < loadsLeft list s := by
  cases hout with
  | @ahead n k hk hPk hready hnext =>
    obtain ⟨j, hj, hlt⟩ := h.index_lt (List.getElem?_idxOf hs.mem) hnext hk
    have hidx : (0 :: (entries list).map Prod.snd).idxOf n = j := by
      obtain ⟨hjlt, rfl⟩ := List.getElem?_eq_some_iff.mp hj
      exact h.nodup.idxOf_getElem j hjlt
    have hjlen : j < (0 :: (entries list).map Prod.snd).length := (List.getElem?_eq_some_iff.mp hj).1
    simp only [List.length_cons, List.length_map] at hjlen
    simp only [loadsLeft, hidx]
    omega
  | @down level next hlevel =>
    simp only [loadsLeft]
    omega

/-- INTERNAL: a store of the writer. -/
theorem loadsLeft_store {c' : List (K × ℕ)} {todo todo' : Option K} {P : K → Bool}
    {s : SkipList.Search} (h' : Linked rank list' c')
    (hs : Reads list P (entries list) s) (heffect : Effect rank (entries list) c' todo todo') :
    loadsLeft list' s + (entries list).length ≤ loadsLeft list s + (entries list').length := by
  rw [loadsLeft, loadsLeft, h'.entries_eq]
  rcases heffect with ⟨rfl, -⟩ | ⟨key, x, -, -, rfl⟩
  · omega
  · have hlen : (inserted rank (entries list) key x).length = (entries list).length + 1 := by
      rw [inserted, List.length_append, List.length_cons, ← Nat.add_assoc, ← List.length_append,
        List.take_append_drop]
    have hle : (0 :: (entries list).map Prod.snd).idxOf s.node ≤
        (0 :: (inserted rank (entries list) key x).map Prod.snd).idxOf s.node := by
      have hsplit : 0 :: (entries list).map Prod.snd =
          (0 :: ((entries list).take (cut (below rank key) (entries list))).map Prod.snd) ++
            ((entries list).drop (cut (below rank key) (entries list))).map Prod.snd := by
        rw [List.cons_append, ← List.map_append, List.take_append_drop]
      have hnodup := h'.nodup
      have hmem := hs.mem
      rw [hsplit] at hmem ⊢
      rw [inserted, List.map_append, List.map_cons, ← List.cons_append] at hnodup ⊢
      apply idxOf_le_insert
      rintro rfl
      exact (List.nodup_middle.mp hnodup).notMem hmem
    omega

/-! ## What holds in every run -/

/-- INTERNAL: what a step does to the keys, and to the loads a reader still needs. -/
theorem Safe.entries_step (h : Safe cmp rank t) (hstep : SkipList.Step cmp t t') :
    (entries t'.list = entries t.list ∨ ∃ key x, nodeKey t'.list x = some key ∧
      entries t'.list = inserted rank (entries t.list) key x) ∧
    ∀ r goal s, t.readers r = some (.searching goal s) →
      loadsLeft t'.list s + (entries t.list).length ≤
        loadsLeft t.list s + (entries t'.list).length := by
  obtain ⟨todo, hlist, hplan, hreaders⟩ := h
  cases hstep with
  | @insert fuel key plan hidle hfresh hstores =>
    have hentries := (hlist.setSeed plan.2).entries_eq
    exact ⟨Or.inl hentries, fun _ _ _ _ => by simp only [loadsLeft, hentries, le_refl]⟩
  | @store s rest list hpending happly =>
    rw [hpending] at hplan
    obtain ⟨list', c', todo', happly', hlist', hplan', hgrows, heffect⟩ := store_spec hlist hplan
    rw [happly] at happly'
    cases happly'
    refine ⟨?_, fun r goal s hr => loadsLeft_store hlist' (hreaders r goal s hr) heffect⟩
    simp only [hlist'.entries_eq]
    rcases heffect with ⟨rfl, -⟩ | ⟨key, x, -, -, rfl⟩
    · exact Or.inl rfl
    · exact Or.inr ⟨key, x, hlist'.keyAt (key, x) (mem_inserted.mpr (Or.inl rfl)), rfl⟩
  | start => exact ⟨Or.inl rfl, fun _ _ _ _ => le_rfl⟩
  | load => exact ⟨Or.inl rfl, fun _ _ _ _ => le_rfl⟩
  | finish => exact ⟨Or.inl rfl, fun _ _ _ _ => le_rfl⟩

/-- A moment of a run.  No thread is stuck: the writer can make its next store, a writer that is
idle gets a plan for any new key, with stores that put just this key among the others, and every
reader can make its next load.  The keys ascend; a load that ends a search gives the two nodes
around what is searched for among the keys of this moment; and the next step leaves the keys as
they are or adds one. -/
structure RunsRight (cmp : K → K → ℤ) (rank : K → O) (t : SkipList.Threads K) : Prop where
  writer : ∀ store rest, t.pending = store :: rest → ∃ list, store.apply t.list = some list
  inserter : t.pending = [] → ∀ key, (∀ node ∈ t.list.nodes.tail, cmp key node.key ≠ 0) →
    ∀ fuel, (entries t.list).length + t.list.maxHeight ≤ fuel →
      ∃ plan list x, t.list.insertStores cmp fuel key = some plan ∧
        plan.1.foldlM (fun list store => store.apply list) { t.list with seed := plan.2 } =
          some list ∧
        entries list = inserted rank (entries t.list) key x
  readers : ∀ r goal s, t.readers r = some (.searching goal s) →
    ∃ result, t.list.searchRound (goal.after cmp) s = some result ∧
      ∀ s' next, result = .inr (s', next) →
        (0 :: (entries t.list).map Prod.snd)[cut (goal.after cmp) (entries t.list)]? =
          some s'.node ∧
        next = ((entries t.list).map Prod.snd)[cut (goal.after cmp) (entries t.list)]?
  ascends : Ascends rank (entries t.list)
  step : ∀ t', SkipList.Step cmp t t' → entries t'.list = entries t.list ∨
    ∃ key x, nodeKey t'.list x = some key ∧
      entries t'.list = inserted rank (entries t.list) key x

/-- SOURCE: leveldb-1.15.0/db/skiplist.h:239-377 — **searches that take no lock are right**: in
every run of one writer and any number of readers, at every moment. -/
theorem skip_list_searches_linearize [Inhabited K] (hcmp : Represents cmp rank)
    (hrun : Relation.ReflTransGen (SkipList.Step cmp) start t) : RunsRight cmp rank t := by
  have hsafe := safe_of_reachable hcmp hrun
  obtain ⟨todo, hlist, hplan, hreaders⟩ := id hsafe
  refine ⟨?_, ?_, ?_, hlist.ascends, fun t' hstep => (hsafe.entries_step hstep).1⟩
  · intro store rest hpending
    rw [hpending] at hplan
    obtain ⟨list, -, -, happly, -⟩ := store_spec hlist hplan
    exact ⟨list, happly⟩
  · intro hidle key hnew fuel hfuel
    obtain ⟨list, x, hinsert, hlinked⟩ :=
      insert_spec hlist hcmp (fresh_of_cmp hcmp hlist hnew) hfuel
    obtain ⟨plan, hstores, hfold⟩ := Option.bind_eq_some_iff.mp hinsert
    exact ⟨plan, list, x, hstores, hfold, hlinked.entries_eq⟩
  · intro r goal s hr
    have hs := hreaders r goal s hr
    obtain ⟨result, hround, hout⟩ := searchRound_outcome hlist hs.front hs.ready
    refine ⟨result, hround, fun s' next hdone => ?_⟩
    subst hdone
    cases hout with
    | done hlevel hnext hbehind =>
      exact done_at_cut hlist (after_downClosed hcmp goal) hs.front hnext hbehind

/-! ## The loads of one reader -/

/-- A part of a run in which the search of a reader does not end: the loads of this reader are
counted, and between them there are steps of other threads. -/
inductive Loads (cmp : K → K → ℤ) (r : ℕ) (goal : SkipList.Goal K) (t : SkipList.Threads K)
    (s : SkipList.Search) : ℕ → SkipList.Threads K → SkipList.Search → Prop
  | refl : t.readers r = some (.searching goal s) → Loads cmp r goal t s 0 t s
  | other {n : ℕ} {t' t'' : SkipList.Threads K} {s' : SkipList.Search} :
      Loads cmp r goal t s n t' s' → SkipList.Step cmp t' t'' →
      t''.readers r = some (.searching goal s') → Loads cmp r goal t s n t'' s'
  | load {n : ℕ} {t' : SkipList.Threads K} {s' s'' : SkipList.Search} :
      Loads cmp r goal t s n t' s' →
      t'.list.searchRound (goal.after cmp) s' = some (.inl s'') →
      Loads cmp r goal t s (n + 1) (t'.setReader r (.searching goal s'')) s''

variable {r n : ℕ} {goal : SkipList.Goal K} {s s' : SkipList.Search}

/-- INTERNAL: the reader is still searching. -/
theorem Loads.searching (h : Loads cmp r goal t s n t' s') :
    t'.readers r = some (.searching goal s') := by
  cases h with
  | refl hr => exact hr
  | other _ _ hr => exact hr
  | load _ _ => exact setReader_self ..

/-- INTERNAL: it is a part of a run. -/
theorem Loads.run (h : Loads cmp r goal t s n t' s') :
    Relation.ReflTransGen (SkipList.Step cmp) t t' := by
  induction h with
  | refl _ => exact .refl
  | other _ hstep _ ih => exact ih.tail hstep
  | load hloads hround ih => exact ih.tail (.load hloads.searching hround)

/-- INTERNAL: **the loads of a reader are bounded**: each of them lowers the number of loads it
still needs, and a step of another thread raises this number by no more than the keys it adds. -/
theorem Loads.bound [Inhabited K] (hcmp : Represents cmp rank)
    (hrun : Relation.ReflTransGen (SkipList.Step cmp) start t)
    (h : Loads cmp r goal t s n t' s') :
    n + loadsLeft t'.list s' + (entries t.list).length ≤
      loadsLeft t.list s + (entries t'.list).length := by
  induction h with
  | refl _ => omega
  | other hloads hstep _ ih =>
    have hsafe := safe_of_reachable hcmp (hrun.trans hloads.run)
    have hraised := (hsafe.entries_step hstep).2 r goal _ hloads.searching
    omega
  | @load n t' s' s'' hloads hround ih =>
    obtain ⟨todo, hlist, -, hreaders⟩ := safe_of_reachable hcmp (hrun.trans hloads.run)
    have hs := hreaders r goal _ hloads.searching
    obtain ⟨result, hresult, hout⟩ := searchRound_outcome hlist hs.front hs.ready
    rw [hround] at hresult
    cases hresult
    have hlowered := loadsLeft_round hlist hs hout
    have hsame : (t'.setReader r (.searching goal s'')).list = t'.list := rfl
    rw [hsame]
    omega

/-- The reader can make a load, and it ends the search or leaves fewer of them. -/
def LoadsNext (cmp : K → K → ℤ) (r : ℕ) (goal : SkipList.Goal K) (t : SkipList.Threads K)
    (s : SkipList.Search) : Prop :=
  ∃ t', SkipList.Step cmp t t' ∧ t'.list = t.list ∧
    ((∃ prev next, t'.readers r = some (.done goal prev next)) ∨
      ∃ s', t'.readers r = some (.searching goal s') ∧ loadsLeft t'.list s' < loadsLeft t.list s)

/-- SOURCE: leveldb-1.15.0/db/skiplist.h:258-319 — **a reader gets to its end**: however other
threads run meanwhile, it makes fewer loads than the search needs on the list it began with and
the keys that were added since; and at every moment its next load comes back, and either ends the
search or lowers what it still needs. -/
theorem skip_list_reader_progress [Inhabited K] (hcmp : Represents cmp rank)
    (hrun : Relation.ReflTransGen (SkipList.Step cmp) start t)
    (hloads : Loads cmp r goal t s n t' s') :
    n + (entries t.list).length < loadsLeft t.list s + (entries t'.list).length ∧
      LoadsNext cmp r goal t' s' := by
  have hbound := hloads.bound hcmp hrun
  have hpos : 0 < loadsLeft t'.list s' := by
    rw [loadsLeft]
    omega
  refine ⟨by omega, ?_⟩
  obtain ⟨todo, hlist, -, hreaders⟩ := safe_of_reachable hcmp (hrun.trans hloads.run)
  have hs := hreaders r goal s' hloads.searching
  obtain ⟨result, hround, hout⟩ := searchRound_outcome hlist hs.front hs.ready
  cases result with
  | inl s'' =>
    exact ⟨_, .load hloads.searching hround, rfl,
      Or.inr ⟨s'', setReader_self .., loadsLeft_round hlist hs hout⟩⟩
  | inr found =>
    exact ⟨_, .finish hloads.searching hround, rfl, Or.inl ⟨_, _, setReader_self ..⟩⟩

/-! ### A run with a writer and a reader at work -/

/-- Numbers are compared by their difference. -/
def bySub (a b : ℕ) : ℤ := a - b

/-- INTERNAL: the difference goes by the order of the numbers. -/
theorem bySub_represents : Represents bySub (id : ℕ → ℕ) where
  neg_iff a b := by simp only [id, bySub]; omega
  zero_iff a b := by simp only [id, bySub]; omega

/-- INTERNAL: stores that can be made one after another are a part of a run. -/
theorem stores_run {stores rest : List (SkipList.Store K)}
    (h : stores.foldlM (fun list store => store.apply list) list = some list')
    (readers : ℕ → Option (SkipList.Reader K)) :
    Relation.ReflTransGen (SkipList.Step cmp) ⟨list, stores ++ rest, readers⟩
      ⟨list', rest, readers⟩ := by
  induction stores generalizing list with
  | nil =>
    cases h
    exact .refl
  | cons store stores ih =>
    obtain ⟨list₁, happly, hrest⟩ := Option.bind_eq_some_iff.mp h
    exact (ih hrest).head (.store rfl happly)

/-- INTERNAL: a whole insertion is a part of a run. -/
theorem insert_run {fuel : ℕ} {key : K}
    (hfresh : ∀ node ∈ list.nodes.tail, cmp key node.key ≠ 0)
    (h : list.insert cmp fuel key = some list') (readers : ℕ → Option (SkipList.Reader K)) :
    Relation.ReflTransGen (SkipList.Step cmp) ⟨list, [], readers⟩ ⟨list', [], readers⟩ := by
  obtain ⟨plan, hplan, hfold⟩ := Option.bind_eq_some_iff.mp h
  have hstores : Relation.ReflTransGen (SkipList.Step cmp)
      ⟨{ list with seed := plan.2 }, plan.1 ++ [], readers⟩ ⟨list', [], readers⟩ :=
    stores_run hfold readers
  rw [List.append_nil] at hstores
  exact hstores.head (.insert rfl hfresh hplan)

/-- The links of the head above the lowest two levels. -/
def highLinks : List (Option (Option ℕ)) := List.replicate 10 (some none)

/-- The key 30. -/
def oneKey : SkipList ℕ where
  nodes := [⟨0, some (some 1) :: some (some 1) :: highLinks⟩, ⟨30, [some none, some none]⟩]
  maxHeight := 2
  seed := 386994929

/-- The keys 10 and 30. -/
def twoKeys : SkipList ℕ where
  nodes := [⟨0, some (some 2) :: some (some 1) :: highLinks⟩, ⟨30, [some none, some none]⟩,
    ⟨10, [some (some 1)]⟩]
  maxHeight := 2
  seed := 1643288587

/-- The keys 10 and 30, and a node for the key 20 that no link leads to yet. -/
def twoKeysAndNode : SkipList ℕ where
  nodes := [⟨0, some (some 2) :: some (some 1) :: highLinks⟩, ⟨30, [some none, some none]⟩,
    ⟨10, [some (some 1)]⟩, ⟨20, [some (some 1)]⟩]
  maxHeight := 2
  seed := 2111581289

/-- A reader on its way to the key 30: it stands on the key 10. -/
def onTen : SkipList.Search := ⟨2, 0, [0]⟩

/-- INTERNAL: the writer is about to publish the key 20 behind the key 10, where a reader is. -/
theorem busy_reachable : ∃ t : SkipList.Threads ℕ,
    Relation.ReflTransGen (SkipList.Step bySub) start t ∧ t.list = twoKeysAndNode ∧
      t.pending = [.publish 3 0 2] ∧
      t.readers 0 = some (.searching (.greaterOrEqual 30) onTen) := by
  have hone : (SkipList.new : SkipList ℕ).insert bySub 1 30 = some oneKey := by decide +kernel
  have htwo : oneKey.insert bySub 3 10 = some twoKeys := by decide +kernel
  have hkeys : Relation.ReflTransGen (SkipList.Step bySub) start ⟨twoKeys, [], fun _ => none⟩ :=
    (insert_run (by decide) hone _).trans (insert_run (by decide) htwo _)
  -- the reader starts, goes down a level and then on to the key 10
  have hdown : twoKeys.searchRound ((SkipList.Goal.greaterOrEqual 30).after bySub)
      (.start twoKeys) = some (.inl ⟨0, 0, [0]⟩) := by decide +kernel
  have hahead : twoKeys.searchRound ((SkipList.Goal.greaterOrEqual 30).after bySub) ⟨0, 0, [0]⟩ =
      some (.inl onTen) := by decide +kernel
  obtain ⟨readers, hread, hreader⟩ : ∃ readers,
      Relation.ReflTransGen (SkipList.Step bySub) start ⟨twoKeys, [], readers⟩ ∧
        readers 0 = some (.searching (.greaterOrEqual 30) onTen) := by
    refine ⟨_, ((hkeys.tail (.start 0 (.greaterOrEqual 30))).tail (.load (r := 0) ?_ hdown)).tail
      (.load (r := 0) ?_ hahead), ?_⟩
    · exact setReader_self ..
    · exact setReader_self ..
    · exact Function.update_self ..
  -- the writer makes all its stores but the last
  have hplan : twoKeys.insertStores bySub 4 20 =
      some ([.newNode 20 1, .copyLink 3 0 2] ++ [.publish 3 0 2], 2111581289) := by
    decide +kernel
  have hfold : [SkipList.Store.newNode 20 1, .copyLink 3 0 2].foldlM
      (fun list store => store.apply list) { twoKeys with seed := 2111581289 } =
        some twoKeysAndNode := by decide +kernel
  have hfresh : ∀ node ∈ twoKeys.nodes.tail, bySub 20 node.key ≠ 0 := by decide
  exact ⟨_, (hread.tail (.insert rfl hfresh hplan)).trans (stores_run hfold readers), rfl, rfl,
    hreader⟩

/-- A moment with a writer and a reader at the same place. -/
theorem skip_list_searches_linearize_busy : ∃ t : SkipList.Threads ℕ, t.list = twoKeysAndNode ∧
    t.pending = [.publish 3 0 2] ∧
    t.readers 0 = some (.searching (.greaterOrEqual 30) onTen) ∧ RunsRight bySub id t := by
  obtain ⟨t, hrun, hlist, hpending, hreader⟩ := busy_reachable
  exact ⟨t, hlist, hpending, hreader, skip_list_searches_linearize bySub_represents hrun⟩

/-- A reader on the key 10 loads once more, after the key 20 has been published behind it. -/
theorem skip_list_reader_progress_busy : ∃ (t t' : SkipList.Threads ℕ) (s' : SkipList.Search),
    t.list = twoKeysAndNode ∧ Loads bySub 0 (.greaterOrEqual 30) t onTen 1 t' s' ∧
    s'.node = 3 ∧ (entries t.list).length = 2 ∧ (entries t'.list).length = 3 ∧
    1 + (entries t.list).length < loadsLeft t.list onTen + (entries t'.list).length ∧
    LoadsNext bySub 0 (.greaterOrEqual 30) t' s' := by
  obtain ⟨t, hrun, hlist, hpending, hreader⟩ := busy_reachable
  obtain ⟨list, hpublish, hround, hlength⟩ : ∃ list,
      (SkipList.Store.publish 3 0 2).apply twoKeysAndNode = some list ∧
      list.searchRound ((SkipList.Goal.greaterOrEqual 30).after bySub) onTen =
        some (.inl ⟨3, 0, [0]⟩) ∧ (entries list).length = 3 :=
    ⟨_, rfl, by decide +kernel, by decide +kernel⟩
  have hloads : Loads bySub 0 (.greaterOrEqual 30) t onTen 1 _ _ :=
    .load (.other (.refl hreader) (.store hpending (hlist ▸ hpublish)) hreader) hround
  refine ⟨t, _, _, hlist, hloads, rfl, ?_, hlength,
    skip_list_reader_progress bySub_represents hrun hloads⟩
  rw [hlist]
  decide +kernel

end Threads

end SkipList

end ExternalSort.Analysis
