import ExternalSort.Model.LevelDb.TwoLevelIterator
import Mathlib.Tactic

/-!
# The iterator over an index is a cursor over all blocks

The index stands for the cursor over pairs of a separator and a handle, and the block of a
handle for the cursor over a list.  If the keys of a block are at most its separator, and those
of later blocks are greater, then the two-level iterator stands for the cursor over the blocks
one after the other (`flat`).  Blocks may be empty.

`offset i` is the number of pairs in front of block `i`.  A loop that skips empty blocks keeps
its place among all pairs, so it ends at the pair that a cursor over all of them would be at.
-/

set_option autoImplicit false

namespace ExternalSort.Analysis

open ExternalSort.Lib ExternalSort.Model

namespace TwoLevelIterator

variable {σ τ K H V O : Type} [LinearOrder O]

/-! ## Blocks one after the other -/

/-- All pairs of some blocks. -/
def flat (data : H → List (K × V)) (blocks : List (K × H)) : List (K × V) :=
  blocks.flatMap fun b => data b.2

/-- How many pairs are in front of a block. -/
def offset (data : H → List (K × V)) (blocks : List (K × H)) (i : ℕ) : ℕ :=
  (flat data (blocks.take i)).length

section Flat

variable {data : H → List (K × V)} {blocks : List (K × H)} {i : ℕ} {b : K × H}

/-- INTERNAL: the data in front of a block, in it and behind it. -/
theorem flat_split (hb : blocks[i]? = some b) :
    flat data blocks =
      flat data (blocks.take i) ++ (data b.2 ++ flat data (blocks.drop (i + 1))) := by
  obtain ⟨hi, rfl⟩ := List.getElem?_eq_some_iff.mp hb
  conv_lhs => rw [← List.take_append_drop i blocks, List.drop_eq_getElem_cons hi]
  rw [flat, List.flatMap_append, List.flatMap_cons]
  rfl

/-- INTERNAL: the first block begins at the front. -/
@[simp] theorem offset_zero : offset data blocks 0 = 0 := rfl

/-- INTERNAL: the next block begins where a block ends. -/
theorem offset_succ (hb : blocks[i]? = some b) :
    offset data blocks (i + 1) = offset data blocks i + (data b.2).length := by
  simp [offset, flat, List.take_add_one, hb]

/-- INTERNAL: behind the last block is the end. -/
theorem offset_of_length_le (hi : blocks.length ≤ i) :
    offset data blocks i = (flat data blocks).length := by
  rw [offset, List.take_of_length_le hi]

/-- INTERNAL: an index in a block is an index of all data. -/
theorem offset_add_lt (hb : blocks[i]? = some b) {q : ℕ} (hq : q < (data b.2).length) :
    offset data blocks i + q < (flat data blocks).length := by
  rw [flat_split hb, List.length_append, List.length_append, offset]
  omega

/-- INTERNAL: a pair of a block is found among all pairs. -/
theorem getElem?_flat (hb : blocks[i]? = some b) {q : ℕ} (hq : q < (data b.2).length) :
    (flat data blocks)[offset data blocks i + q]? = (data b.2)[q]? := by
  rw [flat_split hb, offset, List.getElem?_append_right (by omega), Nat.add_sub_cancel_left,
    List.getElem?_append_left hq]

end Flat

/-- Where a cursor stands in front of some pairs, moving backward. -/
def backFrom {α : Type} (l : List (K × α)) (c : ℕ) : Option ℕ := if c = 0 then none else clip l (c - 1)

/-- INTERNAL: one back from an index. -/
theorem backFrom_succ {α : Type} {l : List (K × α)} {c : ℕ} (hc : c < l.length) :
    backFrom l (c + 1) = some c := by
  rw [backFrom, if_neg (Nat.succ_ne_zero c), Nat.add_sub_cancel, clip_of_lt hc]

/-- INTERNAL: the move to the last pair goes to the front of the end. -/
theorem cursorMove_last {α : Type} (before : K → K → Bool) {l : List (K × α)} (p : Option ℕ) :
    cursorMove before l .seekToLast p = some (backFrom l l.length) := by
  rw [cursorMove, backFrom]
  split_ifs with hempty
  · rw [clip_of_le (by omega)]
  · rfl

/-! ## The iterator -/

/-- An index and its blocks. -/
structure Indexed (ok : K → Prop) (index : IteratorOps σ K H) (blockFunction : H → τ)
    (block : IteratorOps τ K V) (before : K → K → Bool) (rank : K → O)
    (RI : σ → Option ℕ → Prop) (RD : H → τ → Option ℕ → Prop) (data : H → List (K × V))
    (blocks : List (K × H)) : Prop where
  before_iff : ∀ a b, before a b = true ↔ rank a < rank b
  index : Simulates ok index (cursorOps before blocks) RI
  block : ∀ b ∈ blocks, Simulates ok block (cursorOps before (data b.2)) (RD b.2)
  opened : ∀ b ∈ blocks, RD b.2 (blockFunction b.2) none
  le_separator : ∀ b ∈ blocks, ∀ p ∈ data b.2, rank p.1 ≤ rank b.1
  separator_lt : blocks.Pairwise fun b b' => ∀ p ∈ data b'.2, rank b.1 < rank p.1

section Iterator

variable {ok : K → Prop} {index : IteratorOps σ K H} {blockFunction : H → τ}
  {block : IteratorOps τ K V} {before : K → K → Bool} {rank : K → O}
  {RI : σ → Option ℕ → Prop} {RD : H → τ → Option ℕ → Prop} {data : H → List (K × V)}
  {blocks : List (K × H)} {it : TwoLevelIterator σ H τ} {fuel i : ℕ} {b : K × H} {d : τ}

/-- Where the iterator stands among all pairs. -/
inductive Stands (RI : σ → Option ℕ → Prop) (RD : H → τ → Option ℕ → Prop)
    (data : H → List (K × V)) (blocks : List (K × H)) :
    TwoLevelIterator σ H τ → Option ℕ → Prop
  | nowhere {it : TwoLevelIterator σ H τ} {p : Option ℕ} : RI it.index p → it.data = none →
      Stands RI RD data blocks it none
  | on {it : TwoLevelIterator σ H τ} {i q : ℕ} {b : K × H} {d : τ} : RI it.index (some i) →
      blocks[i]? = some b → it.data = some (b.2, d) → RD b.2 d (some q) → q < (data b.2).length →
      Stands RI RD data blocks it (some (offset data blocks i + q))

/-- What is open is a block of the index. -/
def Kept (RD : H → τ → Option ℕ → Prop) (it : TwoLevelIterator σ H τ) : Prop :=
  ∀ h d, it.data = some (h, d) → ∃ p, RD h d p

/-- INTERNAL: the block that is open was opened by its handle. -/
theorem Stands.kept {p : Option ℕ} (hs : Stands RI RD data blocks it p) : Kept RD it := by
  intro handle d hd
  cases hs with
  | nowhere _ hnone =>
    rw [hnone] at hd
    cases hd
  | on _ _ hsome hR _ =>
    rw [hsome] at hd
    cases hd
    exact ⟨_, hR⟩

/-- INTERNAL: where the iterator stands depends on the blocks of its index only. -/
theorem Stands.congr {data' : H → List (K × V)} {p : Option ℕ}
    (hs : Stands RI RD data blocks it p) (h : ∀ b ∈ blocks, data' b.2 = data b.2) :
    Stands RI RD data' blocks it p := by
  cases hs with
  | nowhere hI hnone => exact .nowhere hI hnone
  | @on i q b d hI hb hsome hR hq =>
    have hoffset : offset data' blocks i = offset data blocks i := by
      rw [offset, offset, flat, flat,
        List.flatMap_congr fun b hb => h b (List.mem_of_mem_take hb)]
    rw [← hoffset]
    exact .on hI hb hsome hR (by rwa [h b (List.mem_of_getElem? hb)])

/-- INTERNAL: the iterator over the index stands somewhere. -/
theorem Stands.indexAt {p : Option ℕ} (hs : Stands RI RD data blocks it p) :
    ∃ q, RI it.index q := by
  cases hs with
  | nowhere hI => exact ⟨_, hI⟩
  | on hI => exact ⟨_, hI⟩

/-- INTERNAL: what is shown is shown by the block that is open. -/
theorem current_on (h : Indexed ok index blockFunction block before rank RI RD data blocks)
    (hb : blocks[i]? = some b) (hd : it.data = some (b.2, d)) {p : Option ℕ} (hR : RD b.2 d p) :
    TwoLevelIterator.current block it = (cursorOps before (data b.2)).current p := by
  rw [TwoLevelIterator.current, hd, Option.bind_some]
  exact (h.block b (List.mem_of_getElem? hb)).current hR

/-- INTERNAL: a move of the block the iterator stands on. -/
theorem moveData_on (h : Indexed ok index blockFunction block before rank RI RD data blocks)
    (hb : blocks[i]? = some b) (hd : it.data = some (b.2, d)) {mv : Move K} (hok : mv.Within ok)
    {p p' : Option ℕ} (hR : RD b.2 d p) (hmove : cursorMove before (data b.2) mv p = some p') :
    ∃ d', it.moveData block mv = some { it with data := some (b.2, d') } ∧ RD b.2 d' p' := by
  obtain ⟨d', hd', hR'⟩ := (h.block b (List.mem_of_getElem? hb)).move mv hok hR hmove
  exact ⟨d', by simp [TwoLevelIterator.moveData, hd, hd'], hR'⟩

/-! ## Seeking a key -/

/-- INTERNAL: a block that ends before the target has all its keys before it. -/
theorem before_target (h : Indexed ok index blockFunction block before rank RI RD data blocks)
    {target : K} (hb : b ∈ blocks) (hsep : before b.1 target = true) {p : K × V}
    (hp : p ∈ data b.2) : before p.1 target = true := by
  rw [h.before_iff] at hsep ⊢
  exact (h.le_separator b hb p hp).trans_lt hsep

/-- INTERNAL: if all separators are before a key, then so are all pairs. -/
theorem seekIndex_flat_end
    (h : Indexed ok index blockFunction block before rank RI RD data blocks) {target : K}
    (hend : blocks.length ≤ seekIndex before blocks target) :
    seekIndex before (flat data blocks) target = (flat data blocks).length := by
  have hall := List.findIdx_eq_length.mp (le_antisymm List.findIdx_le_length hend)
  apply List.findIdx_eq_length.mpr
  intro p hp
  obtain ⟨b, hb, hp⟩ := List.mem_flatMap.mp hp
  have hsep := hall b hb
  rw [Bool.not_eq_false'] at hsep ⊢
  exact before_target h hb hsep hp

/-- INTERNAL: a key is found in the block of the first separator that is not before it, or
behind this block. -/
theorem seekIndex_flat (h : Indexed ok index blockFunction block before rank RI RD data blocks)
    {target : K} (hb : blocks[seekIndex before blocks target]? = some b) :
    seekIndex before (flat data blocks) target =
      offset data blocks (seekIndex before blocks target) + seekIndex before (data b.2) target := by
  set i := seekIndex before blocks target with hi
  have hsplit := List.getElem?_eq_some_iff.mp hb
  have hfront : ∀ p ∈ flat data (blocks.take i), before p.1 target = true := by
    intro p hp
    obtain ⟨c, hc, hp⟩ := List.mem_flatMap.mp hp
    obtain ⟨j, hj, rfl⟩ := List.mem_take_iff_getElem.mp hc
    have hsep := List.not_of_lt_findIdx (lt_of_lt_of_le hj (min_le_left _ _))
    rw [Bool.not_eq_false'] at hsep
    exact before_target h (List.getElem_mem _) hsep hp
  have hnot : ¬ rank b.1 < rank target := by
    obtain ⟨hlt, rfl⟩ := hsplit
    have hfound : (!before blocks[i].1 target) = true := List.findIdx_getElem (w := hlt)
    rw [Bool.not_eq_true'] at hfound
    rw [← h.before_iff, hfound]
    exact Bool.false_ne_true
  have hbehind : ∀ p ∈ flat data (blocks.drop (i + 1)), before p.1 target = false := by
    intro p hp
    obtain ⟨c, hc, hp⟩ := List.mem_flatMap.mp hp
    have hlt : rank b.1 < rank p.1 := by
      obtain ⟨hlt, rfl⟩ := hsplit
      have hpair := h.separator_lt
      rw [← List.take_append_drop i blocks, List.drop_eq_getElem_cons hlt] at hpair
      exact (List.pairwise_cons.mp (List.pairwise_append.mp hpair).2.1).1 c hc p hp
    rw [← Bool.not_eq_true, h.before_iff]
    exact fun hp' => hnot (hlt.trans hp')
  have hskip : (flat data (blocks.take i)).findIdx (fun p => !before p.1 target) =
      (flat data (blocks.take i)).length :=
    List.findIdx_eq_length.mpr fun p hp => by rw [hfront p hp, Bool.not_true]
  have hzero : (flat data (blocks.drop (i + 1))).findIdx (fun p => !before p.1 target) = 0 := by
    cases hrest : flat data (blocks.drop (i + 1)) with
    | nil => rfl
    | cons p rest => simp [List.findIdx_cons, hbehind p (by simp [hrest])]
  have hle : (data b.2).findIdx (fun p => !before p.1 target) ≤ (data b.2).length :=
    List.findIdx_le_length
  rw [seekIndex, flat_split hb, List.findIdx_append, hskip, if_neg (lt_irrefl _),
    List.findIdx_append, hzero, offset, seekIndex]
  split_ifs <;> omega

/-! ## Skipping empty blocks -/

variable [DecidableEq H]

/-- INTERNAL: the index has come to a block, and the block is positioned.
SRCLINE: leveldb-1.15.0/table/two_level_iterator.cc:156-171 -/
theorem arrive (h : Indexed ok index blockFunction block before rank RI RD data blocks)
    (it : TwoLevelIterator σ H τ) (hI : RI it.index (some i)) (hb : blocks[i]? = some b)
    (hkept : Kept RD it) {mv : Move K} (hok : mv.Within ok) {p' : Option ℕ}
    (hmove : ∀ p, cursorMove before (data b.2) mv p = some p') :
    ∃ d, (it.initDataBlock index blockFunction).moveData block mv =
        some { it with data := some (b.2, d) } ∧ RD b.2 d p' := by
  have hmem := List.mem_of_getElem? hb
  have hcurrent : index.current it.index = some b := (h.index.current hI).trans hb
  have hinit : ∃ d p, it.initDataBlock index blockFunction = { it with data := some (b.2, d) } ∧
      RD b.2 d p := by
    have hfresh := h.opened b hmem
    simp only [TwoLevelIterator.initDataBlock, hcurrent]
    cases hdata : it.data with
    | none => exact ⟨_, _, rfl, hfresh⟩
    | some open_ =>
      obtain ⟨handle, d⟩ := open_
      by_cases heq : b.2 = handle
      · subst heq
        obtain ⟨p, hp⟩ := hkept b.2 d hdata
        refine ⟨d, p, (if_pos rfl).trans ?_, hp⟩
        rw [← hdata]
      · exact ⟨_, _, if_neg heq, hfresh⟩
  obtain ⟨d, p, hinit, hd⟩ := hinit
  obtain ⟨d', hd', hR⟩ := (h.block b hmem).move mv hok hd (hmove p)
  exact ⟨d', by simp [hinit, TwoLevelIterator.moveData, hd'], hR⟩

/-- INTERNAL: the index has come to its end. -/
theorem arrive_nowhere (h : Indexed ok index blockFunction block before rank RI RD data blocks)
    (it : TwoLevelIterator σ H τ) (hI : RI it.index none) (mv : Move K) :
    (it.initDataBlock index blockFunction).moveData block mv = some { it with data := none } := by
  have hcurrent : index.current it.index = none := h.index.current hI
  simp [TwoLevelIterator.initDataBlock, hcurrent, TwoLevelIterator.moveData]

/-- INTERNAL: a loop that skips blocks ends when the index has. -/
theorem skipRound_nowhere (h : Indexed ok index blockFunction block before rank RI RD data blocks)
    (hI : RI it.index none) (hd : it.data = none) (onIndex onBlock : Move K) :
    TwoLevelIterator.skipRound index blockFunction block onIndex onBlock it =
      some (.inr { it with data := none }) := by
  have hcurrent : index.current it.index = none := h.index.current hI
  have hblock : TwoLevelIterator.current block it = none := by
    rw [TwoLevelIterator.current, hd, Option.bind_none]
  simp [TwoLevelIterator.skipRound, hblock, hcurrent]

/-- INTERNAL: a loop that skips blocks goes on from a block that has been left. -/
theorem skipRound_left (h : Indexed ok index blockFunction block before rank RI RD data blocks)
    (hI : RI it.index (some i)) (hb : blocks[i]? = some b) (hd : it.data = some (b.2, d))
    (hR : RD b.2 d none) (onIndex onBlock : Move K) (hok : onIndex.Within ok) {p : Option ℕ}
    (hindex : cursorMove before blocks onIndex (some i) = some p) :
    ∃ iter, RI iter p ∧ TwoLevelIterator.skipRound index blockFunction block onIndex onBlock it =
      (({ it with index := iter }.initDataBlock index blockFunction).moveData block onBlock).map
        .inl := by
  have hcurrent : index.current it.index = some b := (h.index.current hI).trans hb
  have hblock : TwoLevelIterator.current block it = none := current_on h hb hd hR
  obtain ⟨iter, hiter, hI'⟩ := h.index.move onIndex hok hI hindex
  exact ⟨iter, hI', by simp [TwoLevelIterator.skipRound, hblock, hcurrent, hiter]⟩

/-- INTERNAL: **skipping forward keeps the place**: from behind the first `c` pairs of a block to
the pair that comes next, in this block or a later one.  The variant counts the blocks ahead.
SRCLINE: leveldb-1.15.0/table/two_level_iterator.cc:125-136 -/
theorem skipForward_stands
    (h : Indexed ok index blockFunction block before rank RI RD data blocks)
    (hfuel : blocks.length + 1 < fuel) (hI : RI it.index (some i)) (hb : blocks[i]? = some b)
    (hd : it.data = some (b.2, d)) {c : ℕ} (hc : c ≤ (data b.2).length)
    (hR : RD b.2 d (clip (data b.2) c)) :
    ∃ it', TwoLevelIterator.skipEmptyDataBlocksForward index blockFunction block fuel it = some it' ∧
      Stands RI RD data blocks it' (clip (flat data blocks) (offset data blocks i + c)) := by
  set place := clip (flat data blocks) (offset data blocks i + c) with hplace
  have hi := (List.getElem?_eq_some_iff.mp hb).1
  refine loop_total
    (fun n it => (n = 0 ∧ RI it.index none ∧ it.data = none ∧ place = none) ∨
      ∃ i b d c, n = blocks.length - i ∧ RI it.index (some i) ∧ blocks[i]? = some b ∧
        it.data = some (b.2, d) ∧ c ≤ (data b.2).length ∧ RD b.2 d (clip (data b.2) c) ∧
        place = clip (flat data blocks) (offset data blocks i + c)) _ ?_
    (Or.inr ⟨i, b, d, c, rfl, hI, hb, hd, hc, hR, hplace⟩) (by omega)
  rintro n it (⟨-, hI, hd, hend⟩ | ⟨i, b, d, c, rfl, hI, hb, hd, hc, hR, hplace⟩)
  · exact Or.inr ⟨_, skipRound_nowhere h hI hd _ _, hend ▸ .nowhere hI rfl⟩
  have hi := (List.getElem?_eq_some_iff.mp hb).1
  rcases hc.lt_or_eq with hc | rfl
  · have hcurrent := current_on h hb hd hR
    rw [current_clip, List.getElem?_eq_getElem hc] at hcurrent
    right
    refine ⟨it, by simp [TwoLevelIterator.skipRound, hcurrent], ?_⟩
    rw [clip_of_lt hc] at hR
    rw [hplace, clip_of_lt (offset_add_lt hb hc)]
    exact .on hI hb hd hR hc
  · rw [clip_of_le le_rfl] at hR
    rw [← offset_succ hb] at hplace
    left
    obtain ⟨iter, hI', hround⟩ := skipRound_left h hI hb hd hR .next .seekToFirst trivial
      (show cursorMove before blocks .next (some i) = some (clip blocks (i + 1)) from rfl)
    by_cases hlast : i + 1 < blocks.length
    · rw [clip_of_lt hlast] at hI'
      have hb' := List.getElem?_eq_getElem hlast
      have hkept : Kept RD { it with index := iter } := by
        intro handle d' hd'
        rw [hd] at hd'
        cases hd'
        exact ⟨_, hR⟩
      obtain ⟨d', harrive, hR'⟩ := arrive h { it with index := iter } hI' hb' hkept
        (show (Move.seekToFirst : Move K).Within ok from trivial)
        (show ∀ p, cursorMove before (data blocks[i + 1].2) .seekToFirst p = some (clip _ 0) from
          fun _ => rfl)
      rw [harrive] at hround
      exact ⟨_, _, hround, Or.inr ⟨i + 1, _, d', 0, rfl, hI', hb', rfl, Nat.zero_le _, hR', hplace⟩,
        by omega⟩
    · rw [clip_of_le (not_lt.mp hlast)] at hI'
      rw [arrive_nowhere h { it with index := iter } hI'] at hround
      rw [offset_of_length_le (not_lt.mp hlast), clip_of_le le_rfl] at hplace
      exact ⟨0, _, hround, Or.inl ⟨rfl, hI', rfl, hplace⟩, by omega⟩

/-- INTERNAL: **skipping backward keeps the place.**  The variant counts the blocks behind.
SRCLINE: leveldb-1.15.0/table/two_level_iterator.cc:138-149 -/
theorem skipBackward_stands
    (h : Indexed ok index blockFunction block before rank RI RD data blocks)
    (hfuel : blocks.length + 1 < fuel) (hI : RI it.index (some i)) (hb : blocks[i]? = some b)
    (hd : it.data = some (b.2, d)) {c : ℕ} (hc : c ≤ (data b.2).length)
    (hR : RD b.2 d (backFrom (data b.2) c)) :
    ∃ it', TwoLevelIterator.skipEmptyDataBlocksBackward index blockFunction block fuel it = some it' ∧
      Stands RI RD data blocks it' (backFrom (flat data blocks) (offset data blocks i + c)) := by
  set place := backFrom (flat data blocks) (offset data blocks i + c) with hplace
  have hi := (List.getElem?_eq_some_iff.mp hb).1
  refine loop_total
    (fun n it => (n = 0 ∧ RI it.index none ∧ it.data = none ∧ place = none) ∨
      ∃ i b d c, n = i + 1 ∧ RI it.index (some i) ∧ blocks[i]? = some b ∧
        it.data = some (b.2, d) ∧ c ≤ (data b.2).length ∧ RD b.2 d (backFrom (data b.2) c) ∧
        place = backFrom (flat data blocks) (offset data blocks i + c)) _ ?_
    (Or.inr ⟨i, b, d, c, rfl, hI, hb, hd, hc, hR, hplace⟩) (by omega)
  rintro n it (⟨-, hI, hd, hend⟩ | ⟨i, b, d, c, rfl, hI, hb, hd, hc, hR, hplace⟩)
  · exact Or.inr ⟨_, skipRound_nowhere h hI hd _ _, hend ▸ .nowhere hI rfl⟩
  cases c with
  | succ c =>
    rw [backFrom_succ hc] at hR
    have hcurrent : TwoLevelIterator.current block it = (data b.2)[c]? := current_on h hb hd hR
    rw [List.getElem?_eq_getElem hc] at hcurrent
    right
    refine ⟨it, by simp [TwoLevelIterator.skipRound, hcurrent], ?_⟩
    rw [hplace, ← Nat.add_assoc, backFrom_succ (offset_add_lt hb hc)]
    exact .on hI hb hd hR hc
  | zero =>
    left
    obtain ⟨iter, hI', hround⟩ := skipRound_left h hI hb hd hR .prev .seekToLast trivial
      (show cursorMove before blocks .prev (some i) = some (backFrom blocks i) from rfl)
    cases i with
    | zero =>
      rw [arrive_nowhere h { it with index := iter } hI'] at hround
      exact ⟨0, _, hround, Or.inl ⟨rfl, hI', rfl, hplace⟩, by omega⟩
    | succ i =>
      have hlast : i < blocks.length := by
        have := (List.getElem?_eq_some_iff.mp hb).1
        omega
      rw [backFrom_succ hlast] at hI'
      have hb' := List.getElem?_eq_getElem hlast
      have hkept : Kept RD { it with index := iter } := by
        intro handle d' hd'
        rw [hd] at hd'
        cases hd'
        exact ⟨_, hR⟩
      obtain ⟨d', harrive, hR'⟩ := arrive h { it with index := iter } hI' hb' hkept
        (show (Move.seekToLast : Move K).Within ok from trivial)
        (cursorMove_last before)
      rw [harrive] at hround
      rw [Nat.add_zero, offset_succ hb'] at hplace
      exact ⟨_, _, hround, Or.inr ⟨i, _, d', _, rfl, hI', hb', rfl, le_rfl, hR', hplace⟩,
        Nat.lt_succ_self _⟩

/-! ## The simulation -/

/-- INTERNAL: the index is positioned anew, and a loop that skips empty blocks is entered. -/
theorem reposition_stands
    (h : Indexed ok index blockFunction block before rank RI RD data blocks)
    {skip : TwoLevelIterator σ H τ → Option (TwoLevelIterator σ H τ)} {mv : Move K}
    (hok : mv.Within ok) {p goal : Option ℕ} (hs : Stands RI RD data blocks it p) {q : Option ℕ}
    (hindex : ∀ p, cursorMove before blocks mv p = some q)
    (hend : q = none → goal = none ∧ ∀ it : TwoLevelIterator σ H τ, RI it.index none →
      it.data = none → skip it = some { it with data := none })
    (hin : ∀ i, q = some i → ∃ b p', blocks[i]? = some b ∧
      (∀ p, cursorMove before (data b.2) mv p = some p') ∧
      ∀ (it : TwoLevelIterator σ H τ) d, RI it.index (some i) → it.data = some (b.2, d) →
        RD b.2 d p' → ∃ it', skip it = some it' ∧ Stands RI RD data blocks it' goal) :
    ∃ it', (it.reposition index blockFunction block mv).bind skip = some it' ∧
      Stands RI RD data blocks it' goal := by
  obtain ⟨p₀, hI⟩ := hs.indexAt
  obtain ⟨iter, hiter, hI'⟩ := h.index.move mv hok hI (hindex p₀)
  cases q with
  | none =>
    obtain ⟨rfl, hskip⟩ := hend rfl
    refine ⟨{ it with index := iter, data := none }, ?_, .nowhere hI' rfl⟩
    have hreached := arrive_nowhere h { it with index := iter } hI' mv
    simp only [TwoLevelIterator.reposition, hiter, Option.bind_some, hreached]
    exact hskip { it with index := iter, data := none } hI' rfl
  | some i =>
    obtain ⟨b, p', hb, hmove, hskip⟩ := hin i rfl
    obtain ⟨d, hreached, hR⟩ := arrive h { it with index := iter } hI' hb hs.kept hok hmove
    obtain ⟨it', hit', hs'⟩ := hskip { it with index := iter, data := some (b.2, d) } d hI' rfl hR
    refine ⟨it', ?_, hs'⟩
    simp only [TwoLevelIterator.reposition, hiter, Option.bind_some, hreached, hit']

/-- INTERNAL: at the end of the index there is nothing to skip. -/
theorem skip_nowhere (h : Indexed ok index blockFunction block before rank RI RD data blocks)
    (hfuel : blocks.length + 1 < fuel) (onIndex onBlock : Move K) (hI : RI it.index none)
    (hd : it.data = none) :
    loop (TwoLevelIterator.skipRound index blockFunction block onIndex onBlock) fuel it =
      some { it with data := none } := by
  obtain ⟨fuel, rfl⟩ : ∃ n, fuel = n + 1 := ⟨fuel - 1, by omega⟩
  exact loop_succ_inr (skipRound_nowhere h hI hd onIndex onBlock) fuel

/-- INTERNAL: **the two-level iterator stands for the cursor over the blocks one after the
other.**
SRCLINE: leveldb-1.15.0/table/two_level_iterator.cc:18-173 -/
theorem twoLevel_simulates
    (h : Indexed ok index blockFunction block before rank RI RD data blocks)
    (hfuel : blocks.length + 1 < fuel) :
    Simulates ok (TwoLevelIterator.ops index blockFunction block fuel)
      (cursorOps before (flat data blocks)) (Stands RI RD data blocks) where
  current := by
    intro it p hs
    cases hs with
    | nowhere _ hd =>
      show TwoLevelIterator.current block it = none
      rw [TwoLevelIterator.current, hd, Option.bind_none]
    | on _ hb hd hR hq =>
      show TwoLevelIterator.current block it = (flat data blocks)[_]?
      rw [current_on h hb hd hR, getElem?_flat hb hq]
      rfl
  move := by
    intro it p p' mv hok hs hmove
    cases mv with
    | seekToFirst =>
      cases hmove
      refine reposition_stands h hok hs (fun _ => rfl) (fun hq => ⟨?_, ?_⟩) fun i hq => ?_
      · have hempty : blocks.length = 0 := by
          by_contra hne
          rw [clip_of_lt (Nat.pos_of_ne_zero hne)] at hq
          cases hq
        rw [List.length_eq_zero_iff.mp hempty]
        rfl
      · exact fun it hI hd => skip_nowhere h hfuel _ _ hI hd
      · obtain ⟨rfl, hlt⟩ := clip_eq_some hq
        have hb := List.getElem?_eq_getElem hlt
        refine ⟨_, _, hb, fun _ => rfl, fun it d hI hd hR => ?_⟩
        simpa using skipForward_stands h hfuel hI hb hd (Nat.zero_le _) hR
    | seekToLast =>
      obtain rfl := Option.some.inj ((cursorMove_last before p).symm.trans hmove)
      refine reposition_stands h hok hs (cursorMove_last before) (fun hq => ⟨?_, ?_⟩) fun i hq => ?_
      · have hempty : blocks.length = 0 := by
          by_contra hne
          rw [backFrom, if_neg hne, clip_of_lt (by omega)] at hq
          cases hq
        rw [List.length_eq_zero_iff.mp hempty]
        rfl
      · exact fun it hI hd => skip_nowhere h hfuel _ _ hI hd
      · rw [backFrom] at hq
        split_ifs at hq with hne
        obtain ⟨rfl, hlt⟩ := clip_eq_some hq
        have hb := List.getElem?_eq_getElem hlt
        refine ⟨_, _, hb, cursorMove_last before, fun it d hI hd hR => ?_⟩
        have hend : offset data blocks _ = _ := offset_succ hb
        rw [offset_of_length_le (by omega)] at hend
        rw [hend]
        exact skipBackward_stands h hfuel hI hb hd le_rfl hR
    | seek target =>
      cases hmove
      refine reposition_stands h hok hs (fun _ => rfl) (fun hq => ⟨?_, ?_⟩) fun i hq => ?_
      · have hend : blocks.length ≤ seekIndex before blocks target := by
          by_contra hlt
          rw [clip_of_lt (not_le.mp hlt)] at hq
          cases hq
        rw [seekIndex_flat_end h hend, clip_of_le le_rfl]
      · exact fun it hI hd => skip_nowhere h hfuel _ _ hI hd
      · obtain ⟨rfl, hlt⟩ := clip_eq_some hq
        have hb := List.getElem?_eq_getElem hlt
        refine ⟨_, _, hb, fun _ => rfl, fun it d hI hd hR => ?_⟩
        rw [seekIndex_flat h hb]
        exact skipForward_stands h hfuel hI hb hd List.findIdx_le_length hR
    | next =>
      cases hs with
      | nowhere => cases hmove
      | @on i q b d hI hb hd hR hq =>
        cases hmove
        obtain ⟨d', hmoved, hR'⟩ := moveData_on h hb hd hok hR
          (show cursorMove before (data b.2) .next (some q) = some (clip _ (q + 1)) from rfl)
        have hvalid : TwoLevelIterator.current block it = some (data b.2)[q] :=
          (current_on h hb hd hR).trans (List.getElem?_eq_getElem hq)
        obtain ⟨it', hskip, hs'⟩ := skipForward_stands h hfuel
          (show RI { it with data := some (b.2, d') }.index (some i) from hI) hb rfl hq hR'
        refine ⟨it', ?_, by simpa [Nat.add_assoc] using hs'⟩
        simp only [TwoLevelIterator.ops, hvalid, Option.isSome_some, if_true, hmoved,
          Option.bind_some, hskip]
    | prev =>
      cases hs with
      | nowhere => cases hmove
      | @on i q b d hI hb hd hR hq =>
        cases hmove
        obtain ⟨d', hmoved, hR'⟩ := moveData_on h hb hd hok hR
          (show cursorMove before (data b.2) .prev (some q) = some (backFrom _ q) from rfl)
        have hvalid : TwoLevelIterator.current block it = some (data b.2)[q] :=
          (current_on h hb hd hR).trans (List.getElem?_eq_getElem hq)
        obtain ⟨it', hskip, hs'⟩ := skipBackward_stands h hfuel
          (show RI { it with data := some (b.2, d') }.index (some i) from hI) hb rfl hq.le hR'
        refine ⟨it', ?_, hs'⟩
        simp only [TwoLevelIterator.ops, hvalid, Option.isSome_some, if_true, hmoved,
          Option.bind_some, hskip]

end Iterator

end TwoLevelIterator

end ExternalSort.Analysis
