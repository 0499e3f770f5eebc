import ExternalSort.Analysis.LevelDb.SkipList

/-!
# Insertion into the skip list, store by store

`Planned` is what the writer knows about the stores it has still to make: the nodes behind which
its key belongs on every level, and how far the new node is written and linked.  Each store
keeps `Linked` and all that a reader relies on (`Grows`), and an insertion takes effect with
one of them, the one that publishes the node on the lowest level.
-/

set_option autoImplicit false

namespace ExternalSort.Analysis

open ExternalSort.Lib ExternalSort.Model

namespace SkipList

variable {K O : Type} [LinearOrder O] {cmp : K → K → ℤ} {rank : K → O} {list list' : SkipList K}

/-! ## The writer -/

section Writer

variable {c : List (K × ℕ)} {key : K} {x i p height : ℕ} {link : Option ℕ}

/-- A node on a level behind which the key belongs. -/
structure KeyGap (rank : K → O) (list : SkipList K) (c : List (K × ℕ)) (key : K) (level x : ℕ) :
    Prop where
  front : InFront (below rank key) c x
  behind : ∃ next, list.next x level = some next ∧
    ∀ n, next = some n → ∃ k, (k, n) ∈ c ∧ rank key < rank k

/-- What is known of the new node when it is linked on the levels below `i`, and its own links
are written below `written`. -/
structure Made (list : SkipList K) (c : List (K × ℕ)) (key : K) (x i written height : ℕ) : Prop where
  keyAt : nodeKey list x = some key
  heightAt : nodeHeight list x = some height
  height_le : height ≤ list.maxHeight
  ne_zero : x ≠ 0
  ready : ∀ j < written, (list.next x j).isSome
  unwritten : ∀ j, written ≤ j → list.next x j = none
  linked : i ≠ 0 → (key, x) ∈ c
  fresh : i = 0 → ∀ k, (k, x) ∉ c

/-- No key compares equal to a new one. -/
def Fresh (rank : K → O) (c : List (K × ℕ)) (key : K) : Prop := ∀ p ∈ c, rank p.1 ≠ rank key

/-- What the writer knows about the stores it has still to make, and the key it is about to put
into the list. -/
inductive Planned (rank : K → O) (list : SkipList K) (c : List (K × ℕ)) :
    List (SkipList.Store K) → Option K → Prop
  | idle : Planned rank list c [] none
  | raise {key : K} {prevs : List ℕ} : list.maxHeight < prevs.length →
      prevs.length ≤ kMaxHeight → Fresh rank c key →
      (∀ q ∈ prevs.zipIdx, KeyGap rank list c key q.2 q.1) →
      Planned rank list c (.setMaxHeight prevs.length :: .newNode key prevs.length ::
        prevs.zipIdx.flatMap (SkipList.linkStores list.nodes.length)) (some key)
  | create {key : K} {prevs : List ℕ} : 0 < prevs.length → prevs.length ≤ list.maxHeight →
      Fresh rank c key → (∀ q ∈ prevs.zipIdx, KeyGap rank list c key q.2 q.1) →
      Planned rank list c (.newNode key prevs.length ::
        prevs.zipIdx.flatMap (SkipList.linkStores list.nodes.length)) (some key)
  | link {key : K} {x i : ℕ} {prevs : List ℕ} : Made list c key x i i (i + prevs.length) →
      0 < i + prevs.length → (i = 0 → Fresh rank c key) →
      (∀ q ∈ prevs.zipIdx i, KeyGap rank list c key q.2 q.1) →
      Planned rank list c ((prevs.zipIdx i).flatMap (SkipList.linkStores x))
        (if i = 0 then some key else none)
  | publish {key : K} {x i p : ℕ} {prevs : List ℕ} :
      Made list c key x i (i + 1) (i + 1 + prevs.length) → (i = 0 → Fresh rank c key) →
      list.next x i = list.next p i → KeyGap rank list c key i p →
      (∀ q ∈ prevs.zipIdx (i + 1), KeyGap rank list c key q.2 q.1) →
      Planned rank list c (.publish x i p :: (prevs.zipIdx (i + 1)).flatMap (SkipList.linkStores x))
        (if i = 0 then some key else none)

/-- What a reader relies on while the list changes. -/
structure Grows (list : SkipList K) (c : List (K × ℕ)) (list' : SkipList K) (c' : List (K × ℕ)) :
    Prop where
  sub : ∀ p ∈ c, p ∈ c'
  isSome : ∀ y j, (list.next y j).isSome → (list'.next y j).isSome

/-- INTERNAL: links that were there are still there. -/
theorem Grows.ready {c' : List (K × ℕ)} (h : Grows list c list' c') {y j : ℕ}
    (hy : Ready list y j) : Ready list' y j := fun l hl => h.isSome y l (hy l hl)

/-- INTERNAL: a store takes no link away. -/
theorem Stored.isSome (h : Stored list list' x i link) (y j : ℕ) (hs : (list.next y j).isSome) :
    (list'.next y j).isSome := by
  rw [h.next]
  split_ifs
  · rfl
  · exact hs

/-- INTERNAL: a store changes one link. -/
theorem Stored.next_of_ne (h : Stored list list' x i link) {y j : ℕ} (hne : ¬ (y = x ∧ j = i)) :
    list'.next y j = list.next y j := by
  rw [h.next, if_neg hne]

/-- INTERNAL: the gap for a key is not touched by stores elsewhere. -/
theorem KeyGap.mono {c' : List (K × ℕ)} {level : ℕ} (h : KeyGap rank list c key level p)
    (hsub : ∀ q ∈ c, q ∈ c') (hnext : list'.next p level = list.next p level) :
    KeyGap rank list' c' key level p := by
  obtain ⟨next, hn, hbehind⟩ := h.behind
  refine ⟨h.front.mono hsub, next, hnext.trans hn, fun n hn' => ?_⟩
  obtain ⟨k, hk, hlt⟩ := hbehind n hn'
  exact ⟨k, hsub _ hk, hlt⟩

/-- INTERNAL: where nothing is linked anew, all that is known stays. -/
theorem Linked.of_same (h : Linked rank list c) (hnext : ∀ y j, list'.next y j = list.next y j)
    (hkey : ∀ q ∈ c, nodeKey list' q.2 = some q.1) (hle : list.maxHeight ≤ list'.maxHeight)
    (hmax : list'.maxHeight ≤ kMaxHeight) : Linked rank list' c where
  chain := chainFrom_congr h.chain fun y _ => hnext y 0
  keyAt := hkey
  ascends := h.ascends
  ne_zero := h.ne_zero
  head j hj := by
    rw [hnext]
    exact h.head j hj
  links hy hn := by
    rw [hnext] at hn
    obtain ⟨k, hk, hready, hlt⟩ := h.links hy hn
    exact ⟨k, hk, fun j hj => by rw [hnext]; exact hready j hj, hlt⟩
  maxHeight_pos := h.maxHeight_pos.trans_le hle
  maxHeight_le := hmax
  above j hj hlt := by
    rw [hnext]
    exact h.above j (hle.trans hj) hlt

/-- INTERNAL: the state of the random numbers is no part of the list. -/
theorem Linked.setSeed (h : Linked rank list c) (seed : ℕ) :
    Linked rank { list with seed := seed } c :=
  h.of_same (fun _ _ => rfl) h.keyAt le_rfl h.maxHeight_le

/-- INTERNAL: the new node is not one behind which its key belongs. -/
theorem Made.ne (hc : Linked rank list c) {written level : ℕ}
    (h : Made list c key x i written height) (hgap : KeyGap rank list c key level p) : p ≠ x := by
  rintro rfl
  rcases hgap.front with hzero | ⟨k, hk, hlt⟩
  · exact h.ne_zero hzero
  · by_cases hi : i = 0
    · exact h.fresh hi k hk
    · rw [hc.key_unique hk (h.linked hi)] at hlt
      simp [below] at hlt

/-- INTERNAL: **the new node's own link** is written before anyone can load it. -/
theorem Linked.copyLink (h : Linked rank list c) (hmade : Made list c key x i i height)
    (hgap : KeyGap rank list c key i p) (hlink : list.next p i = some link)
    (hst : Stored list list' x i link) : Linked rank list' c where
  chain := by
    apply chainFrom_congr h.chain
    intro y hy
    apply hst.next_of_ne
    rintro ⟨rfl, rfl⟩
    rcases List.mem_cons.mp hy with hzero | hy
    · exact hmade.ne_zero hzero
    · obtain ⟨⟨k, y⟩, hk, rfl⟩ := List.mem_map.mp hy
      exact hmade.fresh rfl k hk
  keyAt q hq := (hst.keyAt q.2).trans (h.keyAt q hq)
  ascends := h.ascends
  ne_zero := h.ne_zero
  head j hj := hst.isSome 0 j (h.head j hj)
  links := by
    intro y level z hy hn
    rw [hst.next] at hn
    split_ifs at hn with heq
    · obtain ⟨rfl, rfl⟩ := heq
      cases hn
      obtain ⟨next, hnext, hbehind⟩ := hgap.behind
      rw [hlink] at hnext
      cases hnext
      obtain ⟨k, hk, hlt⟩ := hbehind z rfl
      obtain ⟨-, -, hready, -⟩ := h.links (hgap.front.imp fun _ _ => rfl) hlink
      refine ⟨k, hk, fun j hj => hst.isSome z j (hready j hj), Or.inr ?_⟩
      rcases hy with hzero | ⟨ky, hky, -⟩
      · exact absurd hzero hmade.ne_zero
      · by_cases hlevel : level = 0
        · exact absurd hky (hmade.fresh hlevel ky)
        · exact ⟨key, hmade.linked hlevel, hlt⟩
    · obtain ⟨k, hk, hready, hlt⟩ := h.links hy hn
      exact ⟨k, hk, fun j hj => hst.isSome z j (hready j hj), hlt⟩
  maxHeight_pos := hst.maxHeight ▸ h.maxHeight_pos
  maxHeight_le := hst.maxHeight ▸ h.maxHeight_le
  above j hj hlt := by
    rw [hst.next_of_ne fun heq => hmade.ne_zero heq.1.symm]
    exact h.above j (hst.maxHeight ▸ hj) hlt

/-- The keys with a new one, and its node. -/
def inserted (rank : K → O) (c : List (K × ℕ)) (key : K) (x : ℕ) : List (K × ℕ) :=
  c.take (cut (below rank key) c) ++ (key, x) :: c.drop (cut (below rank key) c)

/-- INTERNAL: the entries when a key was inserted. -/
theorem mem_inserted {q : K × ℕ} : q ∈ inserted rank c key x ↔ q = (key, x) ∨ q ∈ c := by
  conv_rhs => rw [← List.take_append_drop (cut (below rank key) c) c]
  simp only [inserted, List.mem_append, List.mem_cons]
  tauto

/-- INTERNAL: the keys still ascend when one was inserted. -/
theorem ascends_inserted (hc : Ascends rank c) (hfresh : Fresh rank c key) :
    Ascends rank (inserted rank c key x) := by
  have hsplit := hc
  rw [← List.take_append_drop (cut (below rank key) c) c, Ascends, List.pairwise_append] at hsplit
  have hfront : ∀ q ∈ c.take (cut (below rank key) c), rank q.1 < rank key := by
    intro q hq
    obtain ⟨j, hj⟩ := List.mem_iff_getElem?.mp hq
    rw [List.getElem?_take] at hj
    split_ifs at hj with hlt
    simpa [below] using (lt_cut_iff hc (downClosed_below key) hj).mp hlt
  have hback : ∀ q ∈ c.drop (cut (below rank key) c), rank key < rank q.1 := by
    intro q hq
    obtain ⟨j, hj⟩ := List.mem_iff_getElem?.mp hq
    rw [List.getElem?_drop] at hj
    have hnot := (lt_cut_iff hc (downClosed_below key) hj).not.mp (by omega)
    simp only [below, decide_eq_true_eq, not_lt] at hnot
    exact lt_of_le_of_ne hnot (hfresh q (List.mem_of_mem_drop hq)).symm
  rw [inserted, Ascends, List.pairwise_append]
  refine ⟨hsplit.1, List.pairwise_cons.mpr ⟨hback, hsplit.2.1⟩, ?_⟩
  intro a ha b hb
  rcases List.mem_cons.mp hb with rfl | hb
  · exact hfront a ha
  · exact (hfront a ha).trans (hback b hb)

/-- INTERNAL: **the store that puts a key into the list.**
SRCLINE: leveldb-1.15.0/db/skiplist.h:365 -/
theorem Linked.publish_zero (h : Linked rank list c) (hmade : Made list c key x 0 1 height)
    (hfresh : Fresh rank c key) (hcopied : list.next x 0 = list.next p 0)
    (hgap : KeyGap rank list c key 0 p) (hst : Stored list list' p 0 (some x)) :
    Linked rank list' (inserted rank c key x) := by
  have hpx := hmade.ne h hgap
  obtain ⟨next, hnext, hbehind⟩ := hgap.behind
  have hcut := done_at_cut h (downClosed_below key) hgap.front hnext fun n hn => by
    obtain ⟨k, hk, hlt⟩ := hbehind n hn
    exact ⟨k, hk, by simpa [below] using hlt.le⟩
  have hx0 : list'.next x 0 = some next := by
    rw [hst.next_of_ne fun heq => hpx heq.1.symm, hcopied, hnext]
  refine ⟨?_, ?_, ascends_inserted h.ascends hfresh, ?_, ?_, ?_, ?_, ?_, ?_⟩
  · rw [inserted, List.map_append, List.map_cons]
    have hchain := h.chain
    rw [← List.take_append_drop (cut (below rank key) c) c, List.map_append] at hchain
    apply chainFrom_insert hchain
    · rw [← hcut.1, List.length_map, List.length_take, min_eq_left cut_le_length]
      cases hn : cut (below rank key) c with
      | zero => rfl
      | succ n => simp
    · rw [hst.next, if_pos ⟨rfl, rfl⟩]
    · rw [hx0, hcut.2, List.head?_map, List.head?_drop, List.getElem?_map]
    · rw [← List.map_append, List.take_append_drop]
      exact h.nodup
    · exact fun y _ hy => hst.next_of_ne fun heq => hy heq.1
  · intro q hq
    rw [hst.keyAt]
    rcases mem_inserted.mp hq with rfl | hq
    · exact hmade.keyAt
    · exact h.keyAt q hq
  · intro q hq
    rcases mem_inserted.mp hq with rfl | hq
    · exact hmade.ne_zero
    · exact h.ne_zero q hq
  · exact fun j hj => hst.isSome 0 j (h.head j hj)
  · intro y level z hy hn
    rw [hst.next] at hn
    split_ifs at hn with heq
    · obtain ⟨rfl, rfl⟩ := heq
      cases hn
      refine ⟨key, mem_inserted.mpr (Or.inl rfl), fun j hj => ?_, ?_⟩
      · rw [Nat.le_zero.mp hj, hx0]
        rfl
      · rcases hgap.front with hzero | ⟨k, hk, hlt⟩
        · exact Or.inl hzero
        · exact Or.inr ⟨k, mem_inserted.mpr (Or.inr hk), by simpa [below] using hlt⟩
    · by_cases hyx : y = x
      · subst hyx
        cases level with
        | succ level =>
          rw [hmade.unwritten (level + 1) (by omega)] at hn
          cases hn
        | zero =>
          rw [hcopied, hnext] at hn
          cases hn
          obtain ⟨k, hk, hlt⟩ := hbehind z rfl
          obtain ⟨-, -, hready, -⟩ := h.links (hgap.front.imp fun _ _ => rfl) hnext
          exact ⟨k, mem_inserted.mpr (Or.inr hk), fun j hj => hst.isSome z j (hready j hj),
            Or.inr ⟨key, mem_inserted.mpr (Or.inl rfl), hlt⟩⟩
      · have hy' : InFront (fun _ => true) c y := by
          rcases hy with hzero | ⟨k, hk, -⟩
          · exact Or.inl hzero
          · rcases mem_inserted.mp hk with heq | hk
            · exact absurd (congrArg Prod.snd heq) hyx
            · exact Or.inr ⟨k, hk, rfl⟩
        obtain ⟨k, hk, hready, hlt⟩ := h.links hy' hn
        refine ⟨k, mem_inserted.mpr (Or.inr hk), fun j hj => hst.isSome z j (hready j hj), ?_⟩
        rcases hlt with hzero | ⟨ky, hky, hlt⟩
        · exact Or.inl hzero
        · exact Or.inr ⟨ky, mem_inserted.mpr (Or.inr hky), hlt⟩
  · exact hst.maxHeight ▸ h.maxHeight_pos
  · exact hst.maxHeight ▸ h.maxHeight_le
  · intro j hj hlt
    rw [hst.maxHeight] at hj
    have hpos := h.maxHeight_pos
    rw [hst.next_of_ne (by omega)]
    exact h.above j hj hlt

/-- INTERNAL: a store on a higher level only shortens the ways.
SRCLINE: leveldb-1.15.0/db/skiplist.h:365 -/
theorem Linked.publish_succ (h : Linked rank list c) (hi : i ≠ 0)
    (hmade : Made list c key x i (i + 1) height) (hlt : i < height)
    (hgap : KeyGap rank list c key i p) (hst : Stored list list' p i (some x)) :
    Linked rank list' c where
  chain := chainFrom_congr h.chain fun y _ => hst.next_of_ne fun heq => hi heq.2.symm
  keyAt q hq := (hst.keyAt q.2).trans (h.keyAt q hq)
  ascends := h.ascends
  ne_zero := h.ne_zero
  head j hj := hst.isSome 0 j (h.head j hj)
  links := by
    intro y level z hy hn
    rw [hst.next] at hn
    split_ifs at hn with heq
    · obtain ⟨rfl, rfl⟩ := heq
      cases hn
      refine ⟨key, hmade.linked hi, fun j hj => hst.isSome x j (hmade.ready j (by omega)), ?_⟩
      rcases hgap.front with hzero | ⟨k, hk, hlt⟩
      · exact Or.inl hzero
      · exact Or.inr ⟨k, hk, by simpa [below] using hlt⟩
    · obtain ⟨k, hk, hready, hlt⟩ := h.links hy hn
      exact ⟨k, hk, fun j hj => hst.isSome z j (hready j hj), hlt⟩
  maxHeight_pos := hst.maxHeight ▸ h.maxHeight_pos
  maxHeight_le := hst.maxHeight ▸ h.maxHeight_le
  above j hj hlt' := by
    rw [hst.maxHeight] at hj
    have hle := hmade.height_le
    rw [hst.next_of_ne (by omega)]
    exact h.above j hj hlt'

/-- INTERNAL: a store adds a link at most. -/
theorem Stored.grows (h : Stored list list' x i link) {c' : List (K × ℕ)} (hsub : ∀ q ∈ c, q ∈ c') :
    Grows list c list' c' := ⟨hsub, h.isSome⟩

/-- INTERNAL: the head is always there. -/
theorem Linked.length_pos (h : Linked rank list c) : 0 < list.nodes.length := by
  obtain ⟨next, hnext⟩ := Option.isSome_iff_exists.mp (h.head 0 (Nat.zero_le _))
  obtain ⟨node, hnode, -⟩ := Option.bind_eq_some_iff.mp hnext
  exact (List.getElem?_eq_some_iff.mp hnode).1

/-- INTERNAL: the new node, before it is linked. -/
theorem Linked.made (h : Linked rank list c) (key : K) (hle : height ≤ list.maxHeight) :
    Made (list.newNode key height) c key list.nodes.length 0 0 height where
  keyAt := by simp [nodeKey, SkipList.newNode]
  heightAt := by simp [nodeHeight, SkipList.newNode]
  height_le := hle
  ne_zero := h.length_pos.ne'
  ready j hj := absurd hj (Nat.not_lt_zero j)
  unwritten j _ := by
    rw [next_newNode]
    simp [SkipList.next]
  linked hne := absurd rfl hne
  fresh _ k hk := by
    have hkey := h.keyAt _ hk
    simp [nodeKey] at hkey

/-- INTERNAL: the new node, when one more of its links is written. -/
theorem Made.copied (h : Made list c key x i i height) (hst : Stored list list' x i link) :
    Made list' c key x i (i + 1) height where
  keyAt := (hst.keyAt x).trans h.keyAt
  heightAt := (hst.heightAt x).trans h.heightAt
  height_le := hst.maxHeight ▸ h.height_le
  ne_zero := h.ne_zero
  ready j hj := by
    rw [hst.next]
    split_ifs
    · rfl
    · exact h.ready j (by omega)
  unwritten j hj := by
    rw [hst.next_of_ne (by omega)]
    exact h.unwritten j (by omega)
  linked := h.linked
  fresh := h.fresh

/-- INTERNAL: the new node, when it is linked on one more level. -/
theorem Made.published {c' : List (K × ℕ)} (h : Made list c key x i (i + 1) height)
    (hst : Stored list list' p i link) (hpx : p ≠ x) (hmem : (key, x) ∈ c') :
    Made list' c' key x (i + 1) (i + 1) height where
  keyAt := (hst.keyAt x).trans h.keyAt
  heightAt := (hst.heightAt x).trans h.heightAt
  height_le := hst.maxHeight ▸ h.height_le
  ne_zero := h.ne_zero
  ready j hj := hst.isSome x j (h.ready j hj)
  unwritten j hj := by
    rw [hst.next_of_ne fun heq => hpx heq.1.symm]
    exact h.unwritten j hj
  linked _ := hmem
  fresh hzero := absurd hzero (Nat.succ_ne_zero i)

/-- INTERNAL: a store on a level does not touch the gaps on the levels above. -/
theorem keyGaps_above {prevs : List ℕ} {c' : List (K × ℕ)} (hst : Stored list list' x i link)
    (hsub : ∀ q ∈ c, q ∈ c') (hgaps : ∀ q ∈ prevs.zipIdx (i + 1), KeyGap rank list c key q.2 q.1) :
    ∀ q ∈ prevs.zipIdx (i + 1), KeyGap rank list' c' key q.2 q.1 := by
  intro q hq
  have hle := List.le_snd_of_mem_zipIdx hq
  exact (hgaps q hq).mono hsub (hst.next_of_ne (by omega))

/-- What one store does to the keys: nothing, or it puts the key there that was announced. -/
def Effect (rank : K → O) (c c' : List (K × ℕ)) (todo todo' : Option K) : Prop :=
  c' = c ∧ todo' = todo ∨
    ∃ key x, todo = some key ∧ todo' = none ∧ c' = inserted rank c key x

/-- INTERNAL: **each store of an insertion** can be made, keeps what the readers rely on, and
changes the keys at most by the new one.
SRCLINE: leveldb-1.15.0/db/skiplist.h:344-366 -/
theorem store_spec (h : Linked rank list c) {s : SkipList.Store K} {rest : List (SkipList.Store K)}
    {todo : Option K} (hplan : Planned rank list c (s :: rest) todo) :
    ∃ list' c' todo', s.apply list = some list' ∧ Linked rank list' c' ∧
      Planned rank list' c' rest todo' ∧ Grows list c list' c' ∧ Effect rank c c' todo todo' := by
  generalize hstores : s :: rest = stores at hplan
  cases hplan with
  | idle => cases hstores
  | @raise key prevs hlt hle hfresh hgaps =>
    cases hstores
    refine ⟨{ list with maxHeight := prevs.length }, c, some key, rfl,
      h.of_same (fun _ _ => rfl) h.keyAt hlt.le hle, ?_, ⟨fun _ hq => hq, fun _ _ hs => hs⟩,
      Or.inl ⟨rfl, rfl⟩⟩
    exact .create (by omega) le_rfl hfresh fun q hq => (hgaps q hq).mono (fun _ hq => hq) rfl
  | @create key prevs hpos hle hfresh hgaps =>
    cases hstores
    have hnext := next_newNode list key prevs.length
    refine ⟨list.newNode key prevs.length, c, some key, rfl,
      h.of_same hnext (fun q hq => nodeKey_newNode list key _ (h.keyAt q hq)) le_rfl h.maxHeight_le,
      ?_, ⟨fun _ hq => hq, fun y j hs => by rwa [hnext]⟩, Or.inl ⟨rfl, rfl⟩⟩
    apply Planned.link (i := 0)
    · rw [Nat.zero_add]
      exact h.made key hle
    · omega
    · exact fun _ => hfresh
    · exact fun q hq => (hgaps q hq).mono (fun _ hq => hq) (hnext _ _)
  | @link key x i prevs hmade hpos hfresh hgaps =>
    cases prevs with
    | nil => simp at hstores
    | cons p prevs =>
      simp only [List.zipIdx_cons, List.flatMap_cons, SkipList.linkStores, List.cons_append,
        List.nil_append, List.cons.injEq] at hstores
      obtain ⟨rfl, rfl⟩ := hstores
      have hgap := hgaps (p, i) (by simp [List.zipIdx_cons])
      obtain ⟨next, hnext, -⟩ := hgap.behind
      obtain ⟨list', hset, hst⟩ := setNext_spec hmade.heightAt
        (show i < i + (p :: prevs).length by simp) next
      have hpx := hmade.ne h hgap
      refine ⟨list', c, _, by simp [SkipList.Store.apply, hnext, hset],
        h.copyLink hmade hgap hnext hst, ?_, hst.grows fun _ hq => hq, Or.inl ⟨rfl, rfl⟩⟩
      have hmade' := hmade.copied hst
      rw [show i + (p :: prevs).length = i + 1 + prevs.length by rw [List.length_cons]; omega] at hmade'
      refine .publish hmade' hfresh ?_ (hgap.mono (fun _ hq => hq) (hst.next_of_ne fun heq => hpx heq.1))
        (keyGaps_above hst (fun _ hq => hq) fun q hq => hgaps q ?_)
      · rw [hst.next_of_ne (y := p) fun heq => hpx heq.1, hst.next, if_pos ⟨rfl, rfl⟩, hnext]
      · rw [List.zipIdx_cons]
        exact List.mem_cons_of_mem _ hq
  | @publish key x i p prevs hmade hfresh hcopied hgap hgaps =>
    cases hstores
    obtain ⟨next, hnext, -⟩ := hgap.behind
    obtain ⟨list', hset, hst⟩ := setNext_of_next hnext (some x)
    have hpx := hmade.ne h hgap
    -- the node afterwards, whatever the keys are then
    have hafter : ∀ c', (∀ q ∈ c, q ∈ c') → (key, x) ∈ c' →
        Planned rank list' c' ((prevs.zipIdx (i + 1)).flatMap (SkipList.linkStores x)) none := by
      intro c' hsub hmem
      exact .link (hmade.published hst hpx hmem) (by omega) (by omega) (keyGaps_above hst hsub hgaps)
    cases i with
    | zero =>
      have hsub : ∀ q ∈ c, q ∈ inserted rank c key x := fun q hq => mem_inserted.mpr (Or.inr hq)
      exact ⟨list', inserted rank c key x, none, hset,
        h.publish_zero hmade (hfresh rfl) hcopied hgap hst,
        hafter _ hsub (mem_inserted.mpr (Or.inl rfl)), hst.grows hsub, Or.inr ⟨key, x, rfl, rfl, rfl⟩⟩
    | succ i =>
      exact ⟨list', c, none, hset,
        h.publish_succ (Nat.succ_ne_zero i) hmade (by omega) hgap hst,
        hafter c (fun _ hq => hq) (hmade.linked (Nat.succ_ne_zero i)), hst.grows fun _ hq => hq,
        Or.inl ⟨rfl, rfl⟩⟩

end Writer

/-! ## An insertion -/

section Insert

variable {c : List (K × ℕ)} {key : K}

/-- INTERNAL: a new node has a height between 1 and the limit. -/
theorem raiseHeight_bounds {left : ℕ} (hleft : left < kMaxHeight) (seed : ℕ) :
    0 < (raiseHeight left seed).1 ∧ (raiseHeight left seed).1 ≤ kMaxHeight := by
  induction left generalizing seed with
  | zero => exact ⟨show 0 < kMaxHeight by decide, le_rfl⟩
  | succ left ih =>
    rw [raiseHeight]
    split_ifs
    · exact ih (by omega) _
    · exact ⟨by simp only; omega, by simp only; omega⟩

/-- INTERNAL: a search for a key passes the keys below it. -/
theorem after_greaterOrEqual (h : Represents cmp rank) (key : K) :
    (SkipList.Goal.greaterOrEqual key).after cmp = below rank key := by
  funext k
  simp only [SkipList.Goal.after, below, decide_eq_decide]
  exact h.neg_iff k key

/-- INTERNAL: **the plan of an insertion**: what it found in its search holds until it stores.
SRCLINE: leveldb-1.15.0/db/skiplist.h:335-360 -/
theorem insertStores_planned (h : Linked rank list c) (hcmp : Represents cmp rank)
    (hfresh : Fresh rank c key) {fuel : ℕ} {plan : List (SkipList.Store K) × ℕ}
    (hplan : list.insertStores cmp fuel key = some plan) :
    Planned rank { list with seed := plan.2 } c plan.1 (some key) := by
  obtain ⟨found, hfound, rfl⟩ := Option.map_eq_some_iff.mp hplan
  obtain ⟨r, hr, rfl⟩ := Option.map_eq_some_iff.mp hfound
  -- the search that came back is the one that has all the fuel it needs
  obtain ⟨s, next, hs, -, -, hlen, hgaps⟩ :=
    search_spec h hcmp (.greaterOrEqual key) (le_refl (c.length + list.maxHeight))
  obtain rfl : r = (s, next) := loop_unique hr hs
  rw [after_greaterOrEqual hcmp] at hgaps
  obtain ⟨hpos, hle⟩ := raiseHeight_bounds (show kMaxHeight - 1 < kMaxHeight by decide) list.seed
  set height := (randomHeight list.seed).1 with hheight
  change 0 < height at hpos
  change height ≤ kMaxHeight at hle
  set prevs := (s.prev ++ List.replicate (height - list.maxHeight) 0).take height with hprevs
  have hplen : prevs.length = height := by
    rw [hprevs, List.length_take, List.length_append, List.length_replicate, hlen]
    omega
  have hkey : ∀ q ∈ prevs.zipIdx, KeyGap rank list c key q.2 q.1 := by
    rintro ⟨p, j⟩ hq
    have hq := List.mem_zipIdx_iff_getElem?.mp hq
    rw [hprevs, List.getElem?_take] at hq
    split_ifs at hq with hj
    simp only at hj hq ⊢
    by_cases hjlen : j < s.prev.length
    · rw [List.getElem?_append_left hjlen] at hq
      obtain ⟨hfront, next, hnext, hbehind⟩ := hgaps j p hq
      refine ⟨hfront, next, hnext, fun n hn => ?_⟩
      obtain ⟨k, hk, hnot⟩ := hbehind n hn
      simp only [below, decide_eq_false_iff_not, not_lt] at hnot
      exact ⟨k, hk, lt_of_le_of_ne hnot (hfresh _ hk).symm⟩
    · rw [List.getElem?_append_right (not_lt.mp hjlen), List.getElem?_replicate] at hq
      split_ifs at hq
      cases hq
      exact ⟨Or.inl rfl, none, h.above j (by omega) (by omega), by simp⟩
  simp only
  rw [← hprevs]
  by_cases hraise : height > list.maxHeight
  · rw [if_pos hraise, List.singleton_append, ← hplen]
    exact .raise (by rw [hplen]; exact hraise) (by omega) hfresh
      fun q hq => (hkey q hq).mono (fun _ hq => hq) rfl
  · rw [if_neg hraise, List.nil_append, ← hplen]
    exact .create (by omega) (by rw [hplen]; exact not_lt.mp hraise) hfresh
      fun q hq => (hkey q hq).mono (fun _ hq => hq) rfl

/-- INTERNAL: when all stores are made, the announced key is in the list. -/
theorem Planned.todo_none {todo : Option K} (h : Planned rank list c [] todo) : todo = none := by
  generalize hstores : [] = stores at h
  cases h with
  | idle => rfl
  | raise => cases hstores
  | create => cases hstores
  | @link key x i prevs hmade hpos =>
    cases prevs with
    | nil => exact if_neg (by simpa using hpos.ne')
    | cons p prevs => simp [SkipList.linkStores] at hstores
  | publish => cases hstores

/-- INTERNAL: the rest of an insertion, without readers. -/
theorem stores_spec {stores : List (SkipList.Store K)} {todo : Option K} (h : Linked rank list c)
    (hplan : Planned rank list c stores todo) :
    ∃ list' c', stores.foldlM (fun list store => store.apply list) list = some list' ∧
      Linked rank list' c' ∧ Effect rank c c' todo none := by
  induction stores generalizing list c todo with
  | nil => exact ⟨list, c, rfl, h, Or.inl ⟨rfl, hplan.todo_none.symm⟩⟩
  | cons s stores ih =>
    obtain ⟨list₁, c₁, todo₁, happly, h₁, hplan₁, -, heffect⟩ := store_spec h hplan
    obtain ⟨list', c', hfold, h', heffect'⟩ := ih h₁ hplan₁
    refine ⟨list', c', ?_, h', ?_⟩
    · rw [List.foldlM_cons, happly]
      exact hfold
    · rcases heffect with ⟨rfl, rfl⟩ | ⟨key, x, rfl, rfl, rfl⟩
      · exact heffect'
      · rcases heffect' with ⟨rfl, -⟩ | ⟨key', x', hnone, -⟩
        · exact Or.inr ⟨key, x, rfl, rfl, rfl⟩
        · cases hnone

/-- INTERNAL: **an insertion puts its key into the list**, and nothing else.
SRCLINE: leveldb-1.15.0/db/skiplist.h:333-367 -/
theorem insert_spec (h : Linked rank list c) (hcmp : Represents cmp rank)
    (hfresh : Fresh rank c key) {fuel : ℕ} (hfuel : c.length + list.maxHeight ≤ fuel) :
    ∃ list' x, list.insert cmp fuel key = some list' ∧ Linked rank list' (inserted rank c key x) := by
  obtain ⟨s, next, hs, -⟩ := search_spec h hcmp (.greaterOrEqual key) hfuel
  obtain ⟨plan, hplan⟩ : ∃ plan, list.insertStores cmp fuel key = some plan := by
    simp [SkipList.insertStores, SkipList.findGreaterOrEqual, hs]
  obtain ⟨list', c', hfold, h', heffect⟩ :=
    stores_spec (h.setSeed plan.2) (insertStores_planned h hcmp hfresh hplan)
  rcases heffect with ⟨-, hnone⟩ | ⟨key', x, hkey, -, rfl⟩
  · cases hnone
  · cases hkey
    refine ⟨list', x, ?_, h'⟩
    rw [SkipList.insert, hplan, Option.bind_some]
    exact hfold

end Insert

end SkipList

end ExternalSort.Analysis
