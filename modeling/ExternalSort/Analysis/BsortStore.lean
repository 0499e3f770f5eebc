import ExternalSort.Analysis.BsortSorts
import ExternalSort.Analysis.LevelDb.StoreRuns

/-!
# The tree sort over the database that it is linked with

The tree sort is modelled with a map.  Here the map is replaced by the database: the program puts
its entries one at a time (`PutsInTurn`), and between two puts the threads of the database may do
what they like.  The loop over an iterator at the end writes the index that the model with the map
writes.
-/

set_option autoImplicit false

namespace ExternalSort.Analysis

open ExternalSort.Lib ExternalSort.Model

/-- Some pairs are put one at a time, among other actions.
SRCLINE: bsort.cc:90-93 -/
structure PutsInTurn (puts : List (List Byte × List Byte)) (actions : List Action) : Prop where
  puts : opsOf actions = puts.map fun p => .put p.1 p.2
  single : ∀ a ∈ actions, a.ops.length ≤ 1
  short : actions.length < kMaxSequenceNumber

section Puts

variable {puts : List (List Byte × List Byte)} {actions : List Action} {schema : Schema}
  {stack : ℕ → Byte} {contents : List Byte} {p : List Byte × List Byte}

/-- INTERNAL: puts make the map that they are written to. -/
theorem replay_puts (puts : List (List Byte × List Byte)) :
    replay (puts.map fun p => .put p.1 p.2) = putAll ∅ puts := by
  rw [replay, List.foldl_map]
  rfl

/-- INTERNAL: there are no more records than actions. -/
theorem length_opsOf_le (h : ∀ a ∈ actions, a.ops.length ≤ 1) :
    (opsOf actions).length ≤ actions.length := by
  induction actions with
  | nil => exact le_rfl
  | cons a actions ih =>
    obtain ⟨ha, hrest⟩ := List.forall_mem_cons.mp h
    have hle := ih hrest
    rw [opsOf, List.flatMap_cons, List.length_append, List.length_cons]
    rw [opsOf] at hle
    omega

/-- INTERNAL: puts of pairs that are not too long stay within the limits. -/
theorem PutsInTurn.fit (h : PutsInTurn puts actions)
    (hputs : ∀ p ∈ puts, p.1.length + 8 < 2 ^ 32 ∧ p.2.length < 2 ^ 32) : ActionsFit actions := by
  have hmax : kMaxSequenceNumber = 2 ^ 56 - 1 := rfl
  have hshort := h.short
  refine ⟨?_, fun a ha => (h.single a ha).trans_lt (by decide),
    (length_opsOf_le h.single).trans_lt h.short, by omega⟩
  intro op hop
  rw [h.puts] at hop
  obtain ⟨p, hp, rfl⟩ := List.mem_map.mp hop
  exact hputs p hp

/-- INTERNAL: the entries of the tree sort are not too long.
SRCLINE: bsort.cc:65, bsort.cc:71-98 -/
theorem LoadReturns.puts_fit (h : LoadReturns schema stack contents)
    (hsize : schema.recordSize + 58 < 2 ^ 32) (hp : p ∈ loadPuts schema stack contents) :
    p.1.length + 8 < 2 ^ 32 ∧ p.2.length < 2 ^ 32 := by
  have hvalue := (length_snd_le_of_mem_loadPuts h.bound hp).trans (lineBound_le schema)
  obtain ⟨i, hi, rfl⟩ := List.mem_mapIdx.mp hp
  have hroom := (h.keys i hi).2.room
  dsimp only at hvalue ⊢
  exact ⟨by omega, by omega⟩

end Puts

/-- The letters `b` and `a`; between the puts the memtable is written to disk, and its table moves
on to the next level. -/
def lettersInTurn : List Action :=
  [.write [.put [98, 48] [98]] [], .makeRoom, .flush, .compact 2 0, .write [.put [97, 49] [97]] []]

end ExternalSort.Analysis
