import ExternalSort.Lib.Cursor

/-!
# The iterator that merges several iterators

`MergingIterator` shows the smallest of the keys its children stand on when it moves forward,
and the largest when it moves backward.  A change of direction positions all children but the
current one anew.  The wrapper around a child that keeps the child's key is not modelled: it
is brought up to date after every move.
-/

set_option autoImplicit false

namespace ExternalSort.Model

open ExternalSort.Lib

/-- SRCLINE: leveldb-1.15.0/table/merger.cc:148-151, leveldb-1.15.0/db/db_iter.cc:46-49 -/
inductive Direction where
  | forward
  | reverse
  deriving DecidableEq, Repr

/-- SRCLINE: leveldb-1.15.0/table/merger.cc:142-152 -/
structure MergingIterator (σ : Type) where
  children : List σ
  current : Option ℕ
  direction : Direction

namespace MergingIterator

variable {σ K V : Type} (m : IteratorOps σ K V) (cmp : K → K → ℤ)

/-- SRCLINE: leveldb-1.15.0/table/merger.cc:16-25 -/
def new (children : List σ) : MergingIterator σ where
  children := children
  current := none
  direction := .forward

/-- The search for the child to show: `wins` says when a key replaces the one found so far.
SRCLINE: leveldb-1.15.0/table/merger.cc:155-183 -/
def pick (wins : ℤ → Bool) : List (σ × ℕ) → Option (ℕ × K) → Option (ℕ × K)
  | [], found => found
  | (child, i) :: rest, found =>
      match m.current child with
      | none => pick wins rest found
      | some (key, _) =>
          match found with
          | none => pick wins rest (some (i, key))
          | some (j, best) =>
              if wins (cmp key best) then pick wins rest (some (i, key))
              else pick wins rest (some (j, best))

/-- SRCLINE: leveldb-1.15.0/table/merger.cc:155-168 -/
def findSmallest (children : List σ) : Option ℕ :=
  (pick m cmp (fun c => decide (c < 0)) children.zipIdx none).map Prod.fst

/-- SRCLINE: leveldb-1.15.0/table/merger.cc:170-183 -/
def findLargest (children : List σ) : Option ℕ :=
  (pick m cmp (fun c => decide (c > 0)) children.zipIdx.reverse none).map Prod.fst

/-- A loop over the children, counted from `i`. -/
def forEach (move : ℕ → σ → Option σ) : ℕ → List σ → Option (List σ)
  | _, [] => some []
  | i, child :: rest =>
      (move i child).bind fun child' => (forEach move (i + 1) rest).map (child' :: ·)

/-- The key and the value, if the iterator is valid.
SRCLINE: leveldb-1.15.0/table/merger.cc:31-33, leveldb-1.15.0/table/merger.cc:114-122 -/
def currentPair (it : MergingIterator σ) : Option (K × V) :=
  it.current.bind fun i => it.children[i]?.bind m.current

/-- SRCLINE: leveldb-1.15.0/table/merger.cc:35-41 -/
def seekToFirst (it : MergingIterator σ) : Option (MergingIterator σ) :=
  (forEach (fun _ => m.move .seekToFirst) 0 it.children).map fun children =>
    ⟨children, findSmallest m cmp children, .forward⟩

/-- SRCLINE: leveldb-1.15.0/table/merger.cc:43-49 -/
def seekToLast (it : MergingIterator σ) : Option (MergingIterator σ) :=
  (forEach (fun _ => m.move .seekToLast) 0 it.children).map fun children =>
    ⟨children, findLargest m cmp children, .reverse⟩

/-- SRCLINE: leveldb-1.15.0/table/merger.cc:51-57 -/
def seek (target : K) (it : MergingIterator σ) : Option (MergingIterator σ) :=
  (forEach (fun _ => m.move (.seek target)) 0 it.children).map fun children =>
    ⟨children, findSmallest m cmp children, .forward⟩

/-- A child that is positioned behind a key.
SRCLINE: leveldb-1.15.0/table/merger.cc:71-75 -/
def placeAfter (key : K) (child : σ) : Option σ :=
  (m.move (.seek key) child).bind fun child =>
    match m.current child with
    | none => some child
    | some (k, _) => if cmp key k = 0 then m.move .next child else some child

/-- A child that is positioned in front of a key.
SRCLINE: leveldb-1.15.0/table/merger.cc:97-104 -/
def placeBefore (key : K) (child : σ) : Option σ :=
  (m.move (.seek key) child).bind fun child =>
    if (m.current child).isSome then m.move .prev child else m.move .seekToLast child

/-- The children after a change of direction: all but the current one are positioned anew. -/
def turn (position : K → σ → Option σ) (current : ℕ) (key : K) (children : List σ) :
    Option (List σ) :=
  forEach (fun i child => if i = current then some child else position key child) 0 children

/-- The move of the current child. -/
def moveCurrent (mv : Move K) (current : ℕ) (children : List σ) : Option (List σ) :=
  forEach (fun i child => if i = current then m.move mv child else some child) 0 children

/-- The move forward; it is for a valid iterator.
SRCLINE: leveldb-1.15.0/table/merger.cc:59-83 -/
def next (it : MergingIterator σ) : Option (MergingIterator σ) :=
  match it.current, it.currentPair m with
  | some i, some (key, _) =>
      let turned := if it.direction ≠ .forward then turn (placeAfter m cmp) i key it.children
        else some it.children
      (turned.bind (moveCurrent m .next i)).map fun children =>
        ⟨children, findSmallest m cmp children, .forward⟩
  | _, _ => none

/-- The move backward; it is for a valid iterator.
SRCLINE: leveldb-1.15.0/table/merger.cc:85-112 -/
def prev (it : MergingIterator σ) : Option (MergingIterator σ) :=
  match it.current, it.currentPair m with
  | some i, some (key, _) =>
      let turned := if it.direction ≠ .reverse then turn (placeBefore m) i key it.children
        else some it.children
      (turned.bind (moveCurrent m .prev i)).map fun children =>
        ⟨children, findLargest m cmp children, .reverse⟩
  | _, _ => none

/-- The iterator as its users see it. -/
def ops : IteratorOps (MergingIterator σ) K V where
  current := currentPair m
  move mv it :=
    match mv with
    | .seekToFirst => it.seekToFirst m cmp
    | .seekToLast => it.seekToLast m cmp
    | .seek target => it.seek m cmp target
    | .next => it.next m cmp
    | .prev => it.prev m cmp

end MergingIterator

/-- What `NewMergingIterator` returns: the empty iterator, the only child, or a merging
iterator.
SRCLINE: leveldb-1.15.0/table/merger.cc:186-195 -/
inductive MergedIterator (σ : Type) where
  | empty
  | single (child : σ)
  | merging (it : MergingIterator σ)

namespace MergedIterator

variable {σ K V : Type} (m : IteratorOps σ K V) (cmp : K → K → ℤ)

/-- SRCLINE: leveldb-1.15.0/table/merger.cc:186-195 -/
def newMergingIterator : List σ → MergedIterator σ
  | [] => .empty
  | [child] => .single child
  | children => .merging (.new children)

/-- The empty iterator stands nowhere, and its seeks do nothing.
SRCLINE: leveldb-1.15.0/table/iterator.cc:42-56 -/
def ops : IteratorOps (MergedIterator σ) K V where
  current
    | .empty => none
    | .single child => m.current child
    | .merging it => it.currentPair m
  move mv
    | .empty =>
        match mv with
        | .next | .prev => none
        | _ => some .empty
    | .single child => (m.move mv child).map .single
    | .merging it => ((MergingIterator.ops m cmp).move mv it).map .merging

end MergedIterator

end ExternalSort.Model
