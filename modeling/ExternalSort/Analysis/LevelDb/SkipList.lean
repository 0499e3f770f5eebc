import ExternalSort.Lib.Cut
import ExternalSort.Model.LevelDb.SkipList

/-!
# The skip list and its searches

`Linked` is what holds of the list at every moment, whatever part of an insertion has been
stored: the links of the lowest level lead through all nodes in ascending order, and a link of
any other level leads ahead, to a node that can be read on that level and on all below it.  A
search of such a list finds the two nodes around a cut of its keys, so the iterator over a list
stands for the cursor over its keys.
-/

set_option autoImplicit false

namespace ExternalSort.Analysis

open ExternalSort.Lib ExternalSort.Model

namespace SkipList

variable {K O : Type} [LinearOrder O] {cmp : K → K → ℤ} {rank : K → O} {list list' : SkipList K}

/-! ## Loads and stores -/

/-- The key of a node. -/
def nodeKey (list : SkipList K) (x : ℕ) : Option K := list.nodes[x]?.map SkipNode.key

/-- The height of a node. -/
def nodeHeight (list : SkipList K) (x : ℕ) : Option ℕ := list.nodes[x]?.map fun n => n.next.length

/-- INTERNAL: **a store changes one link**, and no key. -/
structure Stored (list list' : SkipList K) (x level : ℕ) (link : Option ℕ) : Prop where
  next : ∀ y j, list'.next y j = if y = x ∧ j = level then some link else list.next y j
  keyAt : ∀ y, nodeKey list' y = nodeKey list y
  heightAt : ∀ y, nodeHeight list' y = nodeHeight list y
  maxHeight : list'.maxHeight = list.maxHeight

/-- INTERNAL: a link that a node has can be stored. -/
theorem setNext_spec {x level height : ℕ} (hheight : nodeHeight list x = some height)
    (hlevel : level < height) (link : Option ℕ) :
    ∃ list', list.setNext x level link = some list' ∧ Stored list list' x level link := by
  obtain ⟨node, hx, rfl⟩ := Option.map_eq_some_iff.mp hheight
  refine ⟨{ list with
    nodes := list.nodes.set x { node with next := node.next.set level (some link) } }, ?_, ?_, ?_,
    ?_, rfl⟩
  · rw [SkipList.setNext, hx, Option.bind_some, if_pos hlevel]
  · intro y j
    have hlt := (List.getElem?_eq_some_iff.mp hx).1
    by_cases hy : y = x
    · subst hy
      simp only [SkipList.next, List.getElem?_set_self hlt, hx, Option.bind_some, true_and]
      by_cases hj : j = level
      · subst hj
        simp [List.getElem?_set_self hlevel]
      · simp [hj, List.getElem?_set_ne (Ne.symm hj)]
    · simp [SkipList.next, hy, List.getElem?_set_ne (Ne.symm hy)]
  · intro y
    have hlt := (List.getElem?_eq_some_iff.mp hx).1
    by_cases hy : y = x
    · subst hy
      simp [nodeKey, List.getElem?_set_self hlt, hx]
    · simp [nodeKey, List.getElem?_set_ne (Ne.symm hy)]
  · intro y
    have hlt := (List.getElem?_eq_some_iff.mp hx).1
    by_cases hy : y = x
    · subst hy
      simp [nodeHeight, List.getElem?_set_self hlt, hx]
    · simp [nodeHeight, List.getElem?_set_ne (Ne.symm hy)]

/-- INTERNAL: a link that can be loaded can be stored. -/
theorem setNext_of_next {x level : ℕ} {old : Option ℕ} (h : list.next x level = some old)
    (link : Option ℕ) :
    ∃ list', list.setNext x level link = some list' ∧ Stored list list' x level link := by
  obtain ⟨node, hx, hnode⟩ := Option.bind_eq_some_iff.mp h
  have hheight : nodeHeight list x = some node.next.length := by rw [nodeHeight, hx, Option.map_some]
  apply setNext_spec hheight
  by_contra hle
  rw [List.getElem?_eq_none (not_lt.mp hle)] at hnode
  cases hnode

/-- INTERNAL: a new node changes no link. -/
theorem next_newNode (list : SkipList K) (key : K) (height x level : ℕ) :
    (list.newNode key height).next x level = list.next x level := by
  rcases lt_trichotomy x list.nodes.length with hlt | rfl | hgt
  · simp [SkipList.next, SkipList.newNode, List.getElem?_append_left hlt]
  · have hnone : list.nodes[list.nodes.length]? = none := List.getElem?_eq_none le_rfl
    simp only [SkipList.next, SkipList.newNode, List.getElem?_concat_length, hnone,
      Option.bind_some, Option.bind_none, List.getElem?_replicate]
    split_ifs <;> rfl
  · have hnone : list.nodes[x]? = none := List.getElem?_eq_none hgt.le
    have hnone' : (list.newNode key height).nodes[x]? = none :=
      List.getElem?_eq_none (by simp [SkipList.newNode]; omega)
    simp [SkipList.next, hnone, hnone']

/-- INTERNAL: a new node changes no key. -/
theorem nodeKey_newNode (list : SkipList K) (key : K) (height : ℕ) {x : ℕ} {k : K}
    (h : nodeKey list x = some k) : nodeKey (list.newNode key height) x = some k := by
  obtain ⟨node, hx, rfl⟩ := Option.map_eq_some_iff.mp h
  have hlt := (List.getElem?_eq_some_iff.mp hx).1
  simp [nodeKey, SkipList.newNode, List.getElem?_append_left hlt, hx]

/-! ## The list at every moment -/

/-- The links of the lowest level lead from a node through others, and end there. -/
def ChainFrom (list : SkipList K) : ℕ → List ℕ → Prop
  | x, [] => list.next x 0 = some none
  | x, y :: cs => list.next x 0 = some (some y) ∧ ChainFrom list y cs

/-- A node that can be read on a level and on all below it. -/
def Ready (list : SkipList K) (x level : ℕ) : Prop := ∀ j ≤ level, (list.next x j).isSome

/-- A node that a search for the keys behind `P` can stand on: the head, or a node in front. -/
def InFront (P : K → Bool) (cs : List (K × ℕ)) (x : ℕ) : Prop := x = 0 ∨ ∃ k, (k, x) ∈ cs ∧ P k = true

/-- What holds of the shared list at every moment; `cs` has the keys and the nodes in order. -/
structure Linked (rank : K → O) (list : SkipList K) (cs : List (K × ℕ)) : Prop where
  chain : ChainFrom list 0 (cs.map Prod.snd)
  keyAt : ∀ p ∈ cs, nodeKey list p.2 = some p.1
  ascends : Ascends rank cs
  ne_zero : ∀ p ∈ cs, p.2 ≠ 0
  head : Ready list 0 (kMaxHeight - 1)
  links : ∀ {x level y}, InFront (fun _ => true) cs x → list.next x level = some (some y) →
    ∃ k, (k, y) ∈ cs ∧ Ready list y level ∧ (x = 0 ∨ ∃ kx, (kx, x) ∈ cs ∧ rank kx < rank k)
  maxHeight_pos : 0 < list.maxHeight
  maxHeight_le : list.maxHeight ≤ kMaxHeight
  above : ∀ j, list.maxHeight ≤ j → j < kMaxHeight → list.next 0 j = some none

/-- INTERNAL: a node has one key. -/
theorem Linked.key_unique {cs : List (K × ℕ)} (h : Linked rank list cs) {k k' : K} {x : ℕ}
    (hk : (k, x) ∈ cs) (hk' : (k', x) ∈ cs) : k = k' :=
  Option.some.inj ((h.keyAt _ hk).symm.trans (h.keyAt _ hk'))

/-- INTERNAL: the links of a chain lead from each node to the next. -/
theorem ChainFrom.next {x : ℕ} {cs : List ℕ} (h : ChainFrom list x cs) {i y : ℕ}
    (hy : (x :: cs)[i]? = some y) : list.next y 0 = some cs[i]? := by
  induction cs generalizing x i with
  | nil =>
    cases i with
    | zero =>
      cases hy
      exact h
    | succ i => simp at hy
  | cons z cs ih =>
    cases i with
    | zero =>
      cases hy
      exact h.1
    | succ i => exact ih h.2 hy

/-- INTERNAL: a chain depends only on the lowest links of its nodes. -/
theorem chainFrom_congr {x : ℕ} {cs : List ℕ} (h : ChainFrom list x cs)
    (hsame : ∀ y ∈ x :: cs, list'.next y 0 = list.next y 0) : ChainFrom list' x cs := by
  induction cs generalizing x with
  | nil => exact (hsame x (by simp)).trans h
  | cons z cs ih =>
    refine ⟨(hsame x (by simp)).trans h.1, ih h.2 fun y hy => hsame y ?_⟩
    exact List.mem_cons_of_mem x hy

/-- INTERNAL: a node is put into a chain by two stores. -/
theorem chainFrom_insert {x n p : ℕ} {a b : List ℕ} (h : ChainFrom list x (a ++ b))
    (hp : (x :: a)[a.length]? = some p) (hnew : list'.next p 0 = some (some n))
    (hlink : list'.next n 0 = some b.head?) (hnodup : (x :: (a ++ b)).Nodup)
    (hsame : ∀ y ∈ x :: (a ++ b), y ≠ p → list'.next y 0 = list.next y 0) :
    ChainFrom list' x (a ++ n :: b) := by
  induction a generalizing x with
  | nil =>
    cases hp
    refine ⟨hnew, ?_⟩
    cases b with
    | nil => exact hlink
    | cons z b =>
      refine ⟨hlink, chainFrom_congr h.2 fun y hy => hsame y (List.mem_cons_of_mem _ hy) ?_⟩
      rintro rfl
      exact (List.nodup_cons.mp hnodup).1 hy
  | cons z a ih =>
    obtain ⟨hx, hrest⟩ := h
    have hp' : (z :: a)[a.length]? = some p := by simpa using hp
    have hne : x ≠ p := by
      rintro rfl
      exact (List.nodup_cons.mp hnodup).1 (List.mem_append_left b (List.mem_of_getElem? hp'))
    refine ⟨(hsame x (by simp) hne).trans hx, ih hrest hp' (List.nodup_cons.mp hnodup).2 ?_⟩
    exact fun y hy => hsame y (List.mem_cons_of_mem x hy)

/-- INTERNAL: no node comes twice in the list. -/
theorem Linked.nodup {cs : List (K × ℕ)} (h : Linked rank list cs) :
    (0 :: cs.map Prod.snd).Nodup := by
  rw [List.nodup_cons]
  constructor
  · rintro hmem
    obtain ⟨p, hp, hzero⟩ := List.mem_map.mp hmem
    exact h.ne_zero p hp hzero
  · rw [List.Nodup, List.pairwise_map]
    apply h.ascends.imp_of_mem
    rintro ⟨k, x⟩ ⟨k', x'⟩ hp hq hlt heq
    simp only at heq hlt
    subst heq
    exact absurd (congrArg rank (h.key_unique hp hq)) hlt.ne

/-! ## The keys of a list -/

/-- The nodes that the links of the lowest level lead to from a node. -/
def walk (list : SkipList K) : ℕ → ℕ → List ℕ
  | 0, _ => []
  | fuel + 1, x =>
      match list.next x 0 with
      | some (some y) => y :: walk list fuel y
      | _ => []

/-- The keys of a list and their nodes, in the order of the links of the lowest level. -/
def entries (list : SkipList K) : List (K × ℕ) :=
  (walk list list.nodes.length 0).filterMap fun x => (nodeKey list x).map fun k => (k, x)

/-- INTERNAL: the walk over the lowest links finds the chain. -/
theorem walk_eq {x fuel : ℕ} {cs : List ℕ} (h : ChainFrom list x cs) (hfuel : cs.length ≤ fuel) :
    walk list fuel x = cs := by
  induction fuel generalizing x cs with
  | zero => simp [walk, List.eq_nil_of_length_eq_zero (Nat.le_zero.mp hfuel)]
  | succ fuel ih =>
    cases cs with
    | nil =>
      rw [ChainFrom] at h
      simp [walk, h]
    | cons y cs => simp [walk, h.1, ih h.2 (by simpa using hfuel)]

/-- INTERNAL: the keys of a list are the ones its links lead to. -/
theorem Linked.entries_eq {cs : List (K × ℕ)} (h : Linked rank list cs) : entries list = cs := by
  have hlen : (cs.map Prod.snd).length ≤ list.nodes.length := by
    have hsub : cs.map Prod.snd ⊆ List.range list.nodes.length := by
      intro x hx
      obtain ⟨q, hq, rfl⟩ := List.mem_map.mp hx
      obtain ⟨node, hnode, -⟩ := Option.map_eq_some_iff.mp (h.keyAt q hq)
      exact List.mem_range.mpr (List.getElem?_eq_some_iff.mp hnode).1
    have hnodup := (List.nodup_cons.mp h.nodup).2
    simpa using (hnodup.subperm hsub).length_le
  rw [entries, walk_eq h.chain hlen, List.filterMap_map]
  have hkeys : ∀ q ∈ cs, ((fun x => (nodeKey list x).map fun k => (k, x)) ∘ Prod.snd) q = some q := by
    intro q hq
    simp [h.keyAt q hq]
  rw [List.filterMap_congr hkeys, List.filterMap_some]

/-- INTERNAL: a new list has no entries. -/
theorem linked_new (rank : K → O) [Inhabited K] : Linked rank (SkipList.new : SkipList K) [] where
  chain := rfl
  keyAt := by simp
  ascends := List.Pairwise.nil
  ne_zero := by simp
  head j hj := by
    have hlt : j < kMaxHeight := by
      have : kMaxHeight = 12 := rfl
      omega
    simp [SkipList.next, SkipList.new, hlt]
  links hx hn := by
    rcases hx with rfl | ⟨k, hk, -⟩
    · simp only [SkipList.next, SkipList.new, List.getElem?_cons_zero, Option.bind_some,
        List.getElem?_replicate] at hn
      split_ifs at hn
      · cases hn
      · cases hn
    · cases hk
  maxHeight_pos := Nat.one_pos
  maxHeight_le := show 1 ≤ kMaxHeight by decide
  above j _ hlt := by simp [SkipList.next, SkipList.new, hlt]

/-! ## Searches -/

section Search

variable {P : K → Bool} {cs : List (K × ℕ)} {s : SkipList.Search}

/-- INTERNAL: a node stays in front when entries are added. -/
theorem InFront.mono {cs' : List (K × ℕ)} {x : ℕ} (h : InFront P cs x) (hsub : ∀ p ∈ cs, p ∈ cs') :
    InFront P cs' x := by
  rcases h with h | ⟨k, hk, hPk⟩
  · exact Or.inl h
  · exact Or.inr ⟨k, hsub _ hk, hPk⟩

/-- INTERNAL: a node that is in front of some keys is in front of fewer. -/
theorem InFront.imp {Q : K → Bool} {x : ℕ} (h : InFront P cs x) (hPQ : ∀ k, P k = true → Q k = true) :
    InFront Q cs x := by
  rcases h with h | ⟨k, hk, hPk⟩
  · exact Or.inl h
  · exact Or.inr ⟨k, hk, hPQ k hPk⟩

/-- INTERNAL: where a node in front stands in the chain. -/
theorem InFront.index (hc : Ascends rank cs) (hP : DownClosed rank P) {x : ℕ} (hx : InFront P cs x) :
    ∃ i, (0 :: cs.map Prod.snd)[i]? = some x ∧ i ≤ cut P cs := by
  rcases hx with rfl | ⟨k, hk, hPk⟩
  · exact ⟨0, rfl, Nat.zero_le _⟩
  · obtain ⟨j, hj⟩ := List.mem_iff_getElem?.mp hk
    exact ⟨j + 1, by simp [hj], (lt_cut_iff hc hP hj).mpr hPk⟩

/-- What a round of a search leads to: ahead on its level, down a level behind the last node in
front, or to the end. -/
inductive Outcome (list : SkipList K) (P : K → Bool) (cs : List (K × ℕ)) (s : SkipList.Search) :
    SkipList.Search ⊕ SkipList.Search × Option ℕ → Prop
  | ahead {n : ℕ} {k : K} : (k, n) ∈ cs → P k = true → Ready list n s.level →
      list.next s.node s.level = some (some n) → Outcome list P cs s (.inl { s with node := n })
  | down {level : ℕ} {next : Option ℕ} : s.level = level + 1 →
      list.next s.node s.level = some next →
      (∀ n, next = some n → ∃ k, (k, n) ∈ cs ∧ P k = false) →
      Outcome list P cs s (.inl ⟨s.node, level, s.node :: s.prev⟩)
  | done {next : Option ℕ} : s.level = 0 → list.next s.node 0 = some next →
      (∀ n, next = some n → ∃ k, (k, n) ∈ cs ∧ P k = false) →
      Outcome list P cs s (.inr ({ s with prev := s.node :: s.prev }, next))

/-- INTERNAL: **a round of a search**: it finds a link it may load, and one of these follows.
SRCLINE: leveldb-1.15.0/db/skiplist.h:263-277 -/
theorem searchRound_outcome (h : Linked rank list cs) (hx : InFront P cs s.node)
    (hready : Ready list s.node s.level) :
    ∃ r, list.searchRound P s = some r ∧ Outcome list P cs s r := by
  obtain ⟨next, hnext⟩ := Option.isSome_iff_exists.mp (hready s.level le_rfl)
  have hdown : (∀ n, next = some n → ∃ k, (k, n) ∈ cs ∧ P k = false) →
      Outcome list P cs s (if s.level = 0 then .inr ({ s with prev := s.node :: s.prev }, next)
        else .inl ⟨s.node, s.level - 1, s.node :: s.prev⟩) := by
    intro hbehind
    split_ifs with hlevel
    · exact .done hlevel (hlevel ▸ hnext) hbehind
    · exact .down (by omega) hnext hbehind
  cases next with
  | none =>
    refine ⟨_, ?_, hdown (by simp)⟩
    simp [SkipList.searchRound, hnext]
  | some n =>
    obtain ⟨k, hk, hn, -⟩ := h.links (hx.imp fun _ _ => rfl) hnext
    obtain ⟨node, hnode, hkey⟩ := Option.map_eq_some_iff.mp (h.keyAt _ hk)
    cases hPk : P k with
    | true =>
      refine ⟨_, ?_, .ahead hk hPk hn hnext⟩
      simp [SkipList.searchRound, hnext, hnode, hkey, hPk]
    | false =>
      refine ⟨_, ?_, hdown fun n' hn' => ⟨k, Option.some.inj hn' ▸ hk, hPk⟩⟩
      simp [SkipList.searchRound, hnext, hnode, hkey, hPk]

/-- INTERNAL: **the last load of a search** sees the two nodes around the cut. -/
theorem done_at_cut (h : Linked rank list cs) (hP : DownClosed rank P) {x : ℕ} {next : Option ℕ}
    (hx : InFront P cs x) (hnext : list.next x 0 = some next)
    (hbehind : ∀ n, next = some n → ∃ k, (k, n) ∈ cs ∧ P k = false) :
    (0 :: cs.map Prod.snd)[cut P cs]? = some x ∧ next = (cs.map Prod.snd)[cut P cs]? := by
  obtain ⟨i, hi, hle⟩ := hx.index h.ascends hP
  have hchain := h.chain.next hi
  rw [hnext, Option.some.injEq] at hchain
  have hcut : i = cut P cs := by
    apply le_antisymm hle
    by_contra hlt
    have hlt := not_le.mp hlt
    obtain ⟨p, hp⟩ : ∃ p, cs[i]? = some p :=
      ⟨_, List.getElem?_eq_getElem (hlt.trans_le cut_le_length)⟩
    have hin := (lt_cut_iff h.ascends hP hp).mp hlt
    have hn : next = some p.2 := by rw [hchain, List.getElem?_map, hp]; rfl
    obtain ⟨k, hk, hPk⟩ := hbehind _ hn
    rw [h.key_unique hk (List.mem_of_getElem? hp), hin] at hPk
    cases hPk
  exact ⟨hcut ▸ hi, hcut ▸ hchain⟩

/-- INTERNAL: what a search goes past comes first. -/
theorem after_downClosed (h : Represents cmp rank) (goal : SkipList.Goal K) :
    DownClosed rank (goal.after cmp) := by
  intro a b hab hb
  cases goal with
  | greaterOrEqual key =>
    simp only [SkipList.Goal.after, decide_eq_true_eq, h.neg_iff] at hb ⊢
    exact hab.trans_lt hb
  | lessThan key =>
    simp only [SkipList.Goal.after, ge_iff_le, Bool.not_eq_true', decide_eq_false_iff_not, not_le,
      h.neg_iff] at hb ⊢
    exact hab.trans_lt hb
  | last => rfl

/-- A node on a level with all that is in front of it, or itself, and none that is behind. -/
structure Gap (list : SkipList K) (P : K → Bool) (cs : List (K × ℕ)) (level x : ℕ) : Prop where
  front : InFront P cs x
  behind : ∃ next, list.next x level = some next ∧
    ∀ n, next = some n → ∃ k, (k, n) ∈ cs ∧ P k = false

/-- INTERNAL: a link leads ahead in the chain. -/
theorem Linked.index_lt (h : Linked rank list cs) {i x level n : ℕ} {k : K}
    (hx : (0 :: cs.map Prod.snd)[i]? = some x) (hnext : list.next x level = some (some n))
    (hk : (k, n) ∈ cs) : ∃ j, (0 :: cs.map Prod.snd)[j]? = some n ∧ i < j := by
  obtain ⟨j, hj⟩ := List.mem_iff_getElem?.mp hk
  refine ⟨j + 1, by simp [hj], ?_⟩
  cases i with
  | zero => omega
  | succ i =>
    rw [List.getElem?_cons_succ, List.getElem?_map] at hx
    obtain ⟨⟨kx, x⟩, hi, rfl⟩ := Option.map_eq_some_iff.mp hx
    have hmem := List.mem_of_getElem? hi
    obtain ⟨k', hk', -, hlt⟩ := h.links (Or.inr ⟨kx, hmem, rfl⟩) hnext
    rcases hlt with hzero | ⟨kx', hkx', hlt⟩
    · exact absurd hzero (h.ne_zero _ hmem)
    · rw [h.key_unique hkx' hmem, h.key_unique hk' hk] at hlt
      rcases lt_trichotomy i j with hij | rfl | hij
      · omega
      · rw [hi] at hj
        cases hj
        exact absurd hlt (lt_irrefl _)
      · exact absurd hlt (h.ascends.rank_lt hj hi hij).not_gt

/-- What holds in a search of a list that does not change, and how far it still has to go. -/
structure Searching (list : SkipList K) (P : K → Bool) (cs : List (K × ℕ)) (left : ℕ)
    (s : SkipList.Search) : Prop where
  front : InFront P cs s.node
  ready : Ready list s.node s.level
  length_prev : s.prev.length + s.level + 1 = list.maxHeight
  prev : ∀ j p, s.prev[j]? = some p → Gap list P cs (s.level + 1 + j) p
  index : ∃ i, (0 :: cs.map Prod.snd)[i]? = some s.node ∧ left = cs.length - i + s.level

/-- INTERNAL: **a search finds the two nodes around the cut**, and on every level a node behind
which the key belongs.
SRCLINE: leveldb-1.15.0/db/skiplist.h:258-319 -/
theorem search_spec (h : Linked rank list cs) (hcmp : Represents cmp rank) (goal : SkipList.Goal K)
    {fuel : ℕ} (hfuel : cs.length + list.maxHeight ≤ fuel) :
    ∃ s next, list.search cmp fuel goal = some (s, next) ∧
      (0 :: cs.map Prod.snd)[cut (goal.after cmp) cs]? = some s.node ∧
      next = (cs.map Prod.snd)[cut (goal.after cmp) cs]? ∧ s.prev.length = list.maxHeight ∧
      ∀ j p, s.prev[j]? = some p → Gap list (goal.after cmp) cs j p := by
  have hP := after_downClosed hcmp goal
  have hpos := h.maxHeight_pos
  have hstart : Searching list (goal.after cmp) cs (cs.length + (list.maxHeight - 1))
      (SkipList.Search.start list) := by
    refine ⟨Or.inl rfl, fun j hj => h.head j ?_, ?_, by simp [SkipList.Search.start], 0, rfl, rfl⟩
    · have hle := h.maxHeight_le
      simp only [SkipList.Search.start] at hj
      omega
    · simp [SkipList.Search.start]
      omega
  have hround : ∀ left s, Searching list (goal.after cmp) cs left s →
      (∃ left' s', list.searchRound (goal.after cmp) s = some (.inl s') ∧
        Searching list (goal.after cmp) cs left' s' ∧ left' < left) ∨
      ∃ r, list.searchRound (goal.after cmp) s = some (.inr r) ∧
        (0 :: cs.map Prod.snd)[cut (goal.after cmp) cs]? = some r.1.node ∧
        r.2 = (cs.map Prod.snd)[cut (goal.after cmp) cs]? ∧ r.1.prev.length = list.maxHeight ∧
        ∀ j p, r.1.prev[j]? = some p → Gap list (goal.after cmp) cs j p := by
    intro left s hs
    obtain ⟨i, hi, hleft⟩ := hs.index
    obtain ⟨r, hr, hout⟩ := searchRound_outcome h hs.front hs.ready
    cases hout with
    | ahead hk hPk hn hnext =>
      obtain ⟨j, hj, hij⟩ := h.index_lt hi hnext hk
      have hjlen : j ≤ cs.length := by
        have := (List.getElem?_eq_some_iff.mp hj).1
        simp only [List.length_cons, List.length_map] at this
        omega
      refine Or.inl ⟨_, _, hr, ⟨Or.inr ⟨_, hk, hPk⟩, hn, hs.length_prev, hs.prev, j, hj, rfl⟩, ?_⟩
      simp only
      omega
    | @down level next hlevel hnext hbehind =>
      have hlen := hs.length_prev
      refine Or.inl ⟨_, _, hr, ⟨hs.front, fun j hj => hs.ready j (by simp only at hj; omega), ?_, ?_,
        i, hi, rfl⟩, ?_⟩
      · simp only [List.length_cons]
        omega
      · intro j p hp
        cases j with
        | zero =>
          cases hp
          exact ⟨hs.front, next, by simpa [hlevel] using hnext, hbehind⟩
        | succ j =>
          have hgap := hs.prev j p hp
          rwa [hlevel, show level + 1 + 1 + j = level + 1 + (j + 1) by omega] at hgap
      · simp only
        omega
    | @done next hlevel hnext hbehind =>
      obtain ⟨hnode, hnext'⟩ := done_at_cut h hP hs.front hnext hbehind
      have hlen := hs.length_prev
      refine Or.inr ⟨_, hr, hnode, hnext', by simp; omega, ?_⟩
      intro j p hp
      cases j with
      | zero =>
        cases hp
        exact ⟨hs.front, next, hnext, hbehind⟩
      | succ j =>
        have hgap := hs.prev j p hp
        rw [hlevel] at hgap
        simpa [Nat.add_comm 1 j] using hgap
  obtain ⟨r, hr, hspec⟩ := loop_total _ _ hround hstart
    (show cs.length + (list.maxHeight - 1) < fuel by omega)
  exact ⟨r.1, r.2, hr, hspec⟩

end Search

/-! ## The iterator -/

section Iterator

variable {cs : List (K × ℕ)} {fuel : ℕ}

/-- The keys of a list, as a cursor goes over them. -/
def keyList (cs : List (K × ℕ)) : List (K × Unit) := cs.map fun p => (p.1, ())

/-- The iterator is on the node at an index, or on no node. -/
structure OnNode (cs : List (K × ℕ)) (node p : Option ℕ) : Prop where
  eq : node = p.bind fun i => (cs.map Prod.snd)[i]?
  valid : ∀ i, p = some i → i < cs.length

/-- INTERNAL: the node at an index, if there is one. -/
theorem onNode_clip (cs : List (K × ℕ)) (i : ℕ) : OnNode cs (cs.map Prod.snd)[i]? (clip (keyList cs) i) := by
  have hlen : (keyList cs).length = cs.length := List.length_map ..
  by_cases hi : i < cs.length
  · rw [clip_of_lt (hlen ▸ hi)]
    exact ⟨rfl, fun j hj => Option.some.inj hj ▸ hi⟩
  · rw [clip_of_le (hlen ▸ not_lt.mp hi)]
    exact ⟨by simp [not_lt.mp hi], by simp⟩

/-- INTERNAL: the node in front of an index of the chain, where the head counts as null. -/
theorem onNode_before (h : Linked rank list cs) {i x : ℕ} (hx : (0 :: cs.map Prod.snd)[i]? = some x) :
    OnNode cs (if x = 0 then none else some x)
      (if i = 0 then none else clip (keyList cs) (i - 1)) := by
  cases i with
  | zero =>
    cases hx
    exact ⟨rfl, by simp⟩
  | succ i =>
    rw [List.getElem?_cons_succ] at hx
    have hne : x ≠ 0 := by
      rw [List.getElem?_map] at hx
      obtain ⟨q, hq, rfl⟩ := Option.map_eq_some_iff.mp hx
      exact h.ne_zero q (List.mem_of_getElem? hq)
    rw [if_neg hne, if_neg (Nat.succ_ne_zero i), Nat.add_sub_cancel, ← hx]
    exact onNode_clip cs i

/-- INTERNAL: **the iterator over a skip list stands for the cursor over its keys.**
SRCLINE: leveldb-1.15.0/db/skiplist.h:187-237 -/
theorem iterator_simulates (h : Linked rank list cs) (hcmp : Represents cmp rank)
    (hfuel : cs.length + list.maxHeight ≤ fuel) :
    Simulates (fun _ => True) (list.iterator cmp fuel) (cursorOps (lessBy cmp) (keyList cs)) (OnNode cs) where
  current := by
    rintro node p ⟨rfl, hvalid⟩
    cases p with
    | none => rfl
    | some i =>
      obtain ⟨q, hq⟩ : ∃ q, cs[i]? = some q := ⟨_, List.getElem?_eq_getElem (hvalid i rfl)⟩
      obtain ⟨node, hnode, hkey⟩ := Option.map_eq_some_iff.mp (h.keyAt q (List.mem_of_getElem? hq))
      simp [SkipList.iterator, cursorOps, keyList, hq, hnode, hkey]
  move := by
    rintro node p p' mv - ⟨rfl, hvalid⟩ hmove
    cases mv with
    | seekToFirst =>
      cases hmove
      exact ⟨_, h.chain.next (i := 0) rfl, onNode_clip cs 0⟩
    | seek target =>
      cases hmove
      obtain ⟨s, next, hs, -, hnext, -⟩ := search_spec h hcmp (.greaterOrEqual target) hfuel
      refine ⟨next, by simp [SkipList.iterator, SkipList.iteratorMove, SkipList.findGreaterOrEqual, hs],
        ?_⟩
      have hcut : seekIndex (lessBy cmp) (keyList cs) target =
          cut ((SkipList.Goal.greaterOrEqual target).after cmp) cs :=
        cut_map (P := fun k => lessBy cmp k target) fun _ => ()
      rw [hnext, hcut]
      exact onNode_clip cs _
    | seekToLast =>
      cases hmove
      obtain ⟨s, next, hs, hnode, -⟩ := search_spec h hcmp .last hfuel
      have hcut : cut ((SkipList.Goal.last).after cmp) cs = cs.length := cut_true
      rw [hcut] at hnode
      refine ⟨if s.node = 0 then none else some s.node,
        by simp [SkipList.iterator, SkipList.iteratorMove, SkipList.findLast, hs], ?_⟩
      have hland := onNode_before h hnode
      have hlen : (keyList cs).length = cs.length := List.length_map ..
      by_cases hzero : cs.length = 0
      · rw [if_pos hzero] at hland
        rwa [clip_of_le (by omega)]
      · rw [if_neg hzero] at hland
        rwa [hlen]
    | next =>
      obtain ⟨i, rfl, rfl⟩ := Option.map_eq_some_iff.mp hmove
      obtain ⟨q, hq⟩ : ∃ q, cs[i]? = some q := ⟨_, List.getElem?_eq_getElem (hvalid i rfl)⟩
      have hnext := h.chain.next (i := i + 1) (y := q.2) (by simp [hq])
      exact ⟨_, by simp [SkipList.iterator, SkipList.iteratorMove, hq, hnext], onNode_clip cs (i + 1)⟩
    | prev =>
      obtain ⟨i, rfl, rfl⟩ := Option.map_eq_some_iff.mp hmove
      obtain ⟨q, hq⟩ : ∃ q, cs[i]? = some q := ⟨_, List.getElem?_eq_getElem (hvalid i rfl)⟩
      obtain ⟨node, hnode, hkey⟩ := Option.map_eq_some_iff.mp (h.keyAt q (List.mem_of_getElem? hq))
      obtain ⟨s, next, hs, hfront, -⟩ := search_spec h hcmp (.lessThan q.1) hfuel
      have hcut : cut ((SkipList.Goal.lessThan q.1).after cmp) cs = i := by
        rw [← cut_below h.ascends hq]
        apply cut_congr
        intro r _
        rw [Bool.eq_iff_iff]
        simp only [SkipList.Goal.after, below, ge_iff_le, Bool.not_eq_true', decide_eq_false_iff_not,
          not_le, decide_eq_true_eq]
        exact hcmp.neg_iff r.1 q.1
      rw [hcut] at hfront
      exact ⟨_, by simp [SkipList.iterator, SkipList.iteratorMove, SkipList.findLessThan, hq, hnode,
        hkey, hs], onNode_before h hfront⟩

end Iterator

end SkipList

end ExternalSort.Analysis
