import ExternalSort.Lib.Cursor
import ExternalSort.Lib.Loop

/-!
# The skip list of a memtable

Nodes are never removed, so a node is known by its place in the arena; node 0 is the head, whose
key is not read.  A link of a node that has not been written yet is `none`, and so is the
result of whatever reads one, or reads or writes a link a node does not have.

`Insert` is a search, then a sequence of single stores.  Readers take no lock: each round of a
search loads one link, and stores of an `Insert` may come between any two rounds (`Step`).
Loads and stores are taken to be sequentially consistent.
-/

set_option autoImplicit false

namespace ExternalSort.Model

open ExternalSort.Lib

/-! ## Random heights -/

/-- SRCLINE: leveldb-1.15.0/util/random.h:19-24 -/
def randomNew (s : ℕ) : ℕ :=
  let seed := s &&& 0x7fffffff
  if seed = 0 ∨ seed = 2147483647 then 1 else seed

/-- SRCLINE: leveldb-1.15.0/util/random.h:25-45 -/
def randomNext (seed : ℕ) : ℕ :=
  let product := seed * 16807 % 2 ^ 64
  let seed := ((product >>> 31) + (product &&& 2147483647)) % 2 ^ 32
  if seed > 2147483647 then seed - 2147483647 else seed

/-- SRCLINE: leveldb-1.15.0/db/skiplist.h:95 -/
def kMaxHeight : ℕ := 12

/-- SRCLINE: leveldb-1.15.0/db/skiplist.h:242 -/
def kBranching : ℕ := 4

/-- The loop that raises the height; `left` is what it may still be raised by.
SRCLINE: leveldb-1.15.0/db/skiplist.h:243-246 -/
def raiseHeight : ℕ → ℕ → ℕ × ℕ
  | 0, seed => (kMaxHeight, seed)
  | left + 1, seed =>
      if randomNext seed % kBranching = 0 then raiseHeight left (randomNext seed)
      else (kMaxHeight - (left + 1), randomNext seed)

/-- A height, and the seed for the next one.
SRCLINE: leveldb-1.15.0/db/skiplist.h:239-250 -/
def randomHeight (seed : ℕ) : ℕ × ℕ := raiseHeight (kMaxHeight - 1) seed

/-! ## Nodes -/

/-- SRCLINE: leveldb-1.15.0/db/skiplist.h:143-177 -/
structure SkipNode (K : Type) where
  key : K
  next : List (Option (Option ℕ))
  deriving DecidableEq, Repr

/-- SRCLINE: leveldb-1.15.0/db/skiplist.h:97-113 -/
structure SkipList (K : Type) where
  nodes : List (SkipNode K)
  maxHeight : ℕ
  seed : ℕ
  deriving DecidableEq, Repr

namespace SkipList

variable {K : Type}

/-- An empty list: all links of the head are null.
SRCLINE: leveldb-1.15.0/db/skiplist.h:321-331 -/
def new [Inhabited K] : SkipList K where
  nodes := [⟨default, List.replicate kMaxHeight (some none)⟩]
  maxHeight := 1
  seed := randomNew 0xdeadbeef

/-- The load of a link.
SRCLINE: leveldb-1.15.0/db/skiplist.h:151-156, leveldb-1.15.0/db/skiplist.h:165-168 -/
def next (list : SkipList K) (x level : ℕ) : Option (Option ℕ) :=
  list.nodes[x]?.bind fun node => node.next[level]?.join

/-- The store of a link.
SRCLINE: leveldb-1.15.0/db/skiplist.h:157-162, leveldb-1.15.0/db/skiplist.h:169-172 -/
def setNext (list : SkipList K) (x level : ℕ) (link : Option ℕ) : Option (SkipList K) :=
  list.nodes[x]?.bind fun node =>
    if level < node.next.length then
      some { list with
        nodes := list.nodes.set x { node with next := node.next.set level (some link) } }
    else none

/-- A node with a key and links that are not written yet.
SRCLINE: leveldb-1.15.0/db/skiplist.h:179-185 -/
def newNode (list : SkipList K) (key : K) (height : ℕ) : SkipList K :=
  { list with nodes := list.nodes ++ [⟨key, List.replicate height none⟩] }

/-! ## Searches -/

/-- Where a search is: a node, a level, and the nodes where it went down a level. -/
structure Search where
  node : ℕ
  level : ℕ
  prev : List ℕ
  deriving DecidableEq, Repr

/-- SRCLINE: leveldb-1.15.0/db/skiplist.h:261-262 -/
def Search.start (list : SkipList K) : Search := ⟨0, list.maxHeight - 1, []⟩

/-- A round of a search, which loads one link.  The search goes on along its level as long as
`after` holds of the next key; null is behind all keys.
SRCLINE: leveldb-1.15.0/db/skiplist.h:263-277, leveldb-1.15.0/db/skiplist.h:285-298, leveldb-1.15.0/db/skiplist.h:306-318 -/
def searchRound (list : SkipList K) (after : K → Bool) (s : Search) :
    Option (Search ⊕ Search × Option ℕ) :=
  let down (next : Option ℕ) : Search ⊕ Search × Option ℕ :=
    if s.level = 0 then .inr ({ s with prev := s.node :: s.prev }, next)
    else .inl ⟨s.node, s.level - 1, s.node :: s.prev⟩
  (list.next s.node s.level).bind fun next =>
    match next with
    | none => some (down none)
    | some n => list.nodes[n]?.map fun node =>
        if after node.key then .inl { s with node := n } else down (some n)

variable (cmp : K → K → ℤ)

/-- What a search goes past: the keys before a key, or all keys.
SRCLINE: leveldb-1.15.0/db/skiplist.h:252-256, leveldb-1.15.0/db/skiplist.h:288, leveldb-1.15.0/db/skiplist.h:308 -/
inductive Goal (K : Type) where
  | greaterOrEqual (key : K)
  | lessThan (key : K)
  | last
  deriving DecidableEq, Repr

/-- The test of a search for the next key. -/
def Goal.after : Goal K → K → Bool
  | .greaterOrEqual key, k => decide (cmp k key < 0)
  | .lessThan key, k => !decide (cmp k key ≥ 0)
  | .last, _ => true

/-- A search, from the head down. -/
def search (fuel : ℕ) (goal : Goal K) (list : SkipList K) : Option (Search × Option ℕ) :=
  loop (list.searchRound (goal.after cmp)) fuel (.start list)

/-- SRCLINE: leveldb-1.15.0/db/skiplist.h:258-278 -/
def findGreaterOrEqual (fuel : ℕ) (key : K) (list : SkipList K) : Option (Option ℕ × List ℕ) :=
  (list.search cmp fuel (.greaterOrEqual key)).map fun r => (r.2, r.1.prev)

/-- SRCLINE: leveldb-1.15.0/db/skiplist.h:280-299 -/
def findLessThan (fuel : ℕ) (key : K) (list : SkipList K) : Option ℕ :=
  (list.search cmp fuel (.lessThan key)).map fun r => r.1.node

/-- SRCLINE: leveldb-1.15.0/db/skiplist.h:301-319 -/
def findLast (fuel : ℕ) (list : SkipList K) : Option ℕ :=
  (list.search cmp fuel .last).map fun r => r.1.node

/-! ## Insertion -/

/-- The stores of an insertion, one by one. -/
inductive Store (K : Type) where
  | setMaxHeight (height : ℕ)
  | newNode (key : K) (height : ℕ)
  | copyLink (x level prev : ℕ)
  | publish (x level prev : ℕ)
  deriving DecidableEq, Repr

/-- SRCLINE: leveldb-1.15.0/db/skiplist.h:357, leveldb-1.15.0/db/skiplist.h:360, leveldb-1.15.0/db/skiplist.h:364-365 -/
def Store.apply : Store K → SkipList K → Option (SkipList K)
  | .setMaxHeight height, list => some { list with maxHeight := height }
  | .newNode key height, list => some (list.newNode key height)
  | .copyLink x level prev, list => (list.next prev level).bind (list.setNext x level)
  | .publish x level prev, list => list.setNext prev level (some x)

/-- The stores that link a node on one level.
SRCLINE: leveldb-1.15.0/db/skiplist.h:361-366 -/
def linkStores (x : ℕ) (p : ℕ × ℕ) : List (Store K) :=
  [.copyLink x p.2 p.1, .publish x p.2 p.1]

/-- What an insertion will store: the search, the height, and the node before the key on every
level, which is the head on new levels.  With it comes the seed for the next height.
SRCLINE: leveldb-1.15.0/db/skiplist.h:335-367 -/
def insertStores (fuel : ℕ) (key : K) (list : SkipList K) : Option (List (Store K) × ℕ) :=
  (list.findGreaterOrEqual cmp fuel key).map fun found =>
    let height := (randomHeight list.seed).1
    let prev := found.2 ++ List.replicate (height - list.maxHeight) 0
    let raise := if height > list.maxHeight then [.setMaxHeight height] else []
    (raise ++ .newNode key height ::
      (prev.take height).zipIdx.flatMap (linkStores list.nodes.length),
      (randomHeight list.seed).2)

/-- SRCLINE: leveldb-1.15.0/db/skiplist.h:334-367 -/
def insert (fuel : ℕ) (key : K) (list : SkipList K) : Option (SkipList K) :=
  (list.insertStores cmp fuel key).bind fun plan =>
    plan.1.foldlM (fun list store => store.apply list) { list with seed := plan.2 }

/-! ## Iterators -/

/-- SRCLINE: leveldb-1.15.0/db/skiplist.h:187-237 -/
def iteratorMove (fuel : ℕ) (list : SkipList K) (mv : Move K) (node : Option ℕ) :
    Option (Option ℕ) :=
  let orNull (x : ℕ) : Option ℕ := if x = 0 then none else some x
  match mv with
  | .seekToFirst => list.next 0 0
  | .seekToLast => (list.findLast cmp fuel).map orNull
  | .seek target => (list.findGreaterOrEqual cmp fuel target).map Prod.fst
  | .next => node.bind fun x => list.next x 0
  | .prev => node.bind fun x => list.nodes[x]?.bind fun n =>
      (list.findLessThan cmp fuel n.key).map orNull

/-- The iterator over a list that no one changes; its state is a node, or null. -/
def iterator (fuel : ℕ) (list : SkipList K) : IteratorOps (Option ℕ) K Unit where
  current node := node.bind fun x => list.nodes[x]?.map fun n => (n.key, ())
  move := list.iteratorMove cmp fuel

/-! ## One writer and many readers -/

/-- A reader: what it searches for, and where it is or what it found. -/
inductive Reader (K : Type) where
  | searching (goal : Goal K) (s : Search)
  | done (goal : Goal K) (prev : ℕ) (next : Option ℕ)
  deriving DecidableEq, Repr

/-- The list, the stores the writer has still to make, and the readers. -/
structure Threads (K : Type) where
  list : SkipList K
  pending : List (Store K)
  readers : ℕ → Option (Reader K)

/-- One of the readers is in a new state. -/
def Threads.setReader (t : Threads K) (r : ℕ) (reader : Reader K) : Threads K :=
  { t with readers := Function.update t.readers r (some reader) }

/-- All that can happen next.  Writers exclude each other, and no key is inserted that compares
equal to one that is there.
SRCLINE: leveldb-1.15.0/db/skiplist.h:8-11, leveldb-1.15.0/db/skiplist.h:48-50 -/
inductive Step : Threads K → Threads K → Prop
  | insert {t : Threads K} {fuel : ℕ} {key : K} {plan : List (Store K) × ℕ} : t.pending = [] →
      (∀ node ∈ t.list.nodes.tail, cmp key node.key ≠ 0) →
      t.list.insertStores cmp fuel key = some plan →
      Step t { t with list := { t.list with seed := plan.2 }, pending := plan.1 }
  | store {t : Threads K} {s : Store K} {rest : List (Store K)} {list : SkipList K} :
      t.pending = s :: rest → s.apply t.list = some list →
      Step t { t with list := list, pending := rest }
  | start {t : Threads K} (r : ℕ) (goal : Goal K) :
      Step t (t.setReader r (.searching goal (.start t.list)))
  | load {t : Threads K} {r : ℕ} {goal : Goal K} {s s' : Search} :
      t.readers r = some (.searching goal s) →
      t.list.searchRound (goal.after cmp) s = some (.inl s') →
      Step t (t.setReader r (.searching goal s'))
  | finish {t : Threads K} {r : ℕ} {goal : Goal K} {s s' : Search} {next : Option ℕ} :
      t.readers r = some (.searching goal s) →
      t.list.searchRound (goal.after cmp) s = some (.inr (s', next)) →
      Step t (t.setReader r (.done goal s'.node next))

end SkipList

end ExternalSort.Model
