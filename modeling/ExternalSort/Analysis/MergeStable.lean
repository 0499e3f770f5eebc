import ExternalSort.Lib.StreamMerge
import ExternalSort.Analysis.Comparator
import ExternalSort.Analysis.IteratorPeek
import ExternalSort.Analysis.MergeRule

/-!
# The merge refines the abstract merge of streams

`Holds` relates a session to the streams its iterators still show.  One round of the
selection finds the first stream with a least head, so what the inner loop takes is
drawn from the streams (`fillBuffer_draws`), and every round of the outer loop moves what
it drew to the output file (`mergeRuns_draws`).  For sorted streams that is their stable
sort.
-/

set_option autoImplicit false

namespace ExternalSort.Analysis

open ExternalSort.Lib ExternalSort.Model

/-- INTERNAL: every iterator of the session has its property.  The bytes its handle leads
to stay the same during the whole merge. -/
def Each (numRuns : ℕ) (contents : ℕ → List Byte) (s : Session) (P : ℕ → RunIterator → Prop) :
    Prop :=
  ∀ i < numRuns, (s.files (s.iters i).fp).contents = contents i ∧ P i (s.iters i)

/-- INTERNAL: iterator `i` of the session shows the stream `R i`. -/
def Holds (numRuns : ℕ) (contents : ℕ → List Byte) (args : ℕ → RunArgs) (s : Session)
    (R : ℕ → List Record) : Prop :=
  Each numRuns contents s fun i it => Peeks (contents i) (args i) it (R i)

/-- INTERNAL: iterators over records of one schema, none of which restarts. -/
structure Uniform (numRuns : ℕ) (schema : Schema) (contents : ℕ → List Byte)
    (args : ℕ → RunArgs) : Prop where
  size_pos : 0 < schema.recordSize
  schema_eq : ∀ i < numRuns, (args i).schema = schema
  no_restart : ∀ i < numRuns, NeverRestarts (args i) (stream (contents i) (args i))

section Session

variable {numRuns : ℕ} {schema : Schema} {contents : ℕ → List Byte} {args : ℕ → RunArgs}
  {s : Session} {R : ℕ → List Record} {i : ℕ}

/-- INTERNAL: **the frame of a call in a session**: it changes what is known of its own
iterator and nothing else. -/
theorem each_call {α : Type} {op : RunIterator → File → α × RunIterator × File}
    (hcontents : ∀ it fp, (op it fp).2.2.contents = fp.contents)
    (hfp : ∀ it fp, (op it fp).2.1.fp = it.fp) {P P' : ℕ → RunIterator → Prop}
    (h : Each numRuns contents s P) (hother : ∀ j, j ≠ i → ∀ it, P j it → P' j it)
    (hop : P' i (op (s.iters i) (s.files (s.iters i).fp)).2.1) :
    Each numRuns contents (s.call i op).2 P' := by
  have hfiles : ∀ k, ((s.call i op).2.files k).contents = (s.files k).contents := by
    intro k
    simp only [Session.call]
    by_cases hk : k = (s.iters i).fp
    · subst hk
      rw [Function.update_self, hcontents]
    · rw [Function.update_of_ne hk]
  intro j hj
  rw [hfiles]
  by_cases hji : j = i
  · subst hji
    simp only [Session.call, Function.update_self, hfp]
    exact ⟨(h j hj).1, hop⟩
  · simp only [Session.call, Function.update_of_ne hji]
    exact ⟨(h j hj).1, hother j hji _ (h j hj).2⟩

/-- INTERNAL: a peek keeps the handle of the iterator. -/
theorem getCurrentRecord_fp (it : RunIterator) (fp : File) :
    (it.getCurrentRecord fp).2.1.fp = it.fp := call_fp .getCurrentRecord it fp

/-- INTERNAL: peeking at an iterator of the session. -/
theorem holds_getCurrentRecord (hu : Uniform numRuns schema contents args)
    (h : Holds numRuns contents args s R) (hi : i < numRuns) :
    (s.getCurrentRecord i).1 = (R i).head? ∧
      Holds numRuns contents args (s.getCurrentRecord i).2 R := by
  have hs : 0 < (args i).schema.recordSize := by
    rw [hu.schema_eq i hi]
    exact hu.size_pos
  obtain ⟨h1, h2, -⟩ := peeks_getCurrentRecord hs (hu.no_restart i hi) (h i hi).1 (h i hi).2
  exact ⟨h1, each_call getCurrentRecord_contents getCurrentRecord_fp h (fun _ _ _ hj => hj) h2⟩

/-- INTERNAL: taking the head of a stream: the peek that copies it and the `next` that
moves on.
SRCLINE: library.cc:286-289 -/
theorem holds_take (hu : Uniform numRuns schema contents args)
    (h : Holds numRuns contents args s R) (hi : i < numRuns) (hR : R i ≠ []) :
    Holds numRuns contents args ((s.getCurrentRecord i).2.next i).2
      (Function.update R i (R i).tail) := by
  have hs : 0 < (args i).schema.recordSize := by
    rw [hu.schema_eq i hi]
    exact hu.size_pos
  have hno := hu.no_restart i hi
  obtain ⟨-, h2, h3⟩ := peeks_getCurrentRecord hs hno (h i hi).1 (h i hi).2
  have hpeek := (holds_getCurrentRecord hu h hi).2
  have hiter : (s.getCurrentRecord i).2.iters i =
      ((s.iters i).getCurrentRecord (s.files (s.iters i).fp)).2.1 := by
    simp only [Session.getCurrentRecord, Session.call, Function.update_self]
  apply each_call next_contents next_fp hpeek
  · intro j hji it hj
    rwa [Function.update_of_ne hji]
  · rw [Function.update_self]
    refine peeks_next hs hno (hpeek i hi).1 (hpeek i hi).2 hR ?_
    rw [hiter]
    exact h3 hR

/-- INTERNAL: **`iterators_have_records`** asks whether any stream is left.
SRCLINE: library.cc:230-238 -/
theorem iteratorsHaveRecords_spec (hu : Uniform numRuns schema contents args) (is : List ℕ)
    (his : ∀ i ∈ is, i < numRuns) (s : Session) (h : Holds numRuns contents args s R) :
    ((iteratorsHaveRecords is s).1 = true ↔ ∃ i ∈ is, R i ≠ []) ∧
      Holds numRuns contents args (iteratorsHaveRecords is s).2 R := by
  induction is generalizing s with
  | nil => exact ⟨by simp [iteratorsHaveRecords], h⟩
  | cons i is ih =>
    obtain ⟨h1, h2⟩ := holds_getCurrentRecord hu h (his i (List.mem_cons_self ..))
    obtain ⟨h3, h4⟩ := ih (fun j hj => his j (List.mem_cons_of_mem _ hj)) _ h2
    unfold iteratorsHaveRecords
    dsimp only
    rw [h1]
    cases hRi : R i with
    | nil =>
      simp only [List.head?_nil, Option.isSome_none, Bool.false_eq_true, if_false]
      refine ⟨?_, h4⟩
      rw [h3]
      simp [hRi]
    | cons x t =>
      simp only [List.head?_cons, Option.isSome_some, if_true]
      exact ⟨by simp [hRi], h2⟩

/-- INTERNAL: `iterators_have_records` over all iterators. -/
theorem iteratorsHaveRecords_range (hu : Uniform numRuns schema contents args) (s : Session)
    (h : Holds numRuns contents args s R) :
    ((iteratorsHaveRecords (List.range numRuns) s).1 = true ↔ pooled numRuns R ≠ []) ∧
      Holds numRuns contents args (iteratorsHaveRecords (List.range numRuns) s).2 R := by
  obtain ⟨hask, hheld⟩ :=
    iteratorsHaveRecords_spec hu (List.range numRuns) (fun i hi => List.mem_range.mp hi) s h
  refine ⟨?_, hheld⟩
  rw [hask, ne_eq, pooled_eq_nil]
  push Not
  simp only [List.mem_range]

/-- INTERNAL: the streams pay for the merge. -/
theorem holds_rule (hu : Uniform numRuns schema contents args) :
    MergeRule numRuns (fun R s => Holds numRuns contents args s R) (fun R _ m => R m ≠ [])
      (fun R => (pooled numRuns R).length) where
  peek := fun h hi => (holds_getCurrentRecord hu h hi).2
  shown := by
    intro R s i h hi hsome hnil
    rw [(holds_getCurrentRecord hu h hi).1, hnil] at hsome
    cases hsome
  keep := fun _ _ _ hshown => hshown
  take := by
    intro R s m h hm hshown
    refine ⟨_, holds_take hu h hm hshown, ?_⟩
    have hpos := List.length_pos_iff.mpr hshown
    have hsum := Finset.sum_update_of_mem (Finset.mem_range.mpr hm)
      (fun i => (R i).length) (R m).tail.length
    have hself := Finset.add_sum_erase (Finset.range numRuns) (fun i => (R i).length)
      (Finset.mem_range.mpr hm)
    rw [Finset.sdiff_singleton_eq_erase] at hsum
    have hupdate : ∀ i, (Function.update R m (R m).tail i).length =
        Function.update (fun i => (R i).length) m (R m).tail.length i := by
      intro i
      by_cases him : i = m
      · subst him
        rw [Function.update_self, Function.update_self]
      · rw [Function.update_of_ne him, Function.update_of_ne him]
    rw [length_pooled, length_pooled, Finset.sum_congr rfl fun i _ => hupdate i, hsum, ← hself,
      List.length_tail]
    omega

/-- INTERNAL: **a merge that returns has left nothing**: no iterator shows a record any more.
SRCLINE: library.cc:277 -/
theorem mergeRuns_exhausts (hu : Uniform numRuns schema contents args)
    (h : Holds numRuns contents args s R) {fuel : ℕ} {out : File} {startPos : ℕ} {buf : List Byte}
    {bufSize : ℕ} {result : Merging}
    (hrun : mergeRuns fuel s numRuns out startPos buf bufSize = some result) :
    ∃ R', Holds numRuns contents args result.session R' ∧ pooled numRuns R' = [] := by
  obtain ⟨R', s', hheld, hask, -⟩ := (holds_rule hu).mergeRuns h hrun
  obtain ⟨hmore, hlast⟩ := iteratorsHaveRecords_range hu s' hheld
  rw [hask] at hmore hlast
  refine ⟨R', hlast, ?_⟩
  by_contra hne
  exact absurd (hmore.mpr hne) Bool.false_ne_true

/-- INTERNAL: **the selection** finds the first stream with a least head.
SRCLINE: library.cc:240-250 -/
theorem getIteratorWithSmallestValue_spec (hu : Uniform numRuns schema contents args)
    (hinside : Inside schema) (len k : ℕ) (hk : k + len = numRuns) (min : Option ℕ) (s : Session)
    (h : Holds numRuns contents args s R) (hmin : Least (recordLe schema) R k min) :
    ∃ found s', getIteratorWithSmallestValue (List.range' k len) min s = some (found, s') ∧
      Least (recordLe schema) R numRuns found ∧ Holds numRuns contents args s' R := by
  -- the induction is on the streams not yet looked at
  induction len generalizing k min s with
  | zero =>
    obtain rfl : k = numRuns := by omega
    exact ⟨min, s, rfl, hmin, h⟩
  | succ len ih =>
    obtain ⟨h1, h2⟩ := holds_getCurrentRecord hu h (show k < numRuns by omega)
    obtain ⟨hempty, hhead⟩ := least_succ (recordLe_trans schema) (recordLe_total schema) hmin
    rw [List.range'_succ]
    unfold getIteratorWithSmallestValue
    dsimp only
    rw [h1]
    cases hRk : R k with
    | nil => exact ih (k + 1) (by omega) _ _ h2 (hempty hRk)
    | cons y t =>
      have hy : (R k).head? = some y := by rw [hRk]; rfl
      obtain ⟨hfirst, hcompare⟩ := hhead y hy
      cases min with
      | none => exact ih (k + 1) (by omega) _ _ h2 (hfirst rfl)
      | some m =>
        obtain ⟨hm, x, hx, -, -⟩ := hmin
        obtain ⟨h3, h4⟩ := holds_getCurrentRecord hu h2 (show m < numRuns by omega)
        have hschema := (h4 m (by omega)).2.schema_eq.trans (hu.schema_eq m (by omega))
        obtain ⟨hreplace, hkeep⟩ := hcompare m x rfl hx
        obtain ⟨v, hv, -, -, hpos⟩ := hinside.comparator_spec x y
        simp only [List.head?_cons]
        rw [h3, hx, hschema, Option.getD_some, hv, Option.bind_some]
        have hle : recordLe schema x y ↔ ¬ 0 < v := by rw [recordLe_iff, hpos, not_lt]
        by_cases hv' : 0 < v
        · rw [if_pos hv']
          exact ih (k + 1) (by omega) _ _ h4 (hreplace fun hxy => hle.mp hxy hv')
        · rw [if_neg hv']
          exact ih (k + 1) (by omega) _ _ h4 (hkeep (hle.mpr hv'))

end Session

/-! ## Filling the buffer -/

/-- INTERNAL: the records as `strncpy` puts them into the buffer.
SRCLINE: library.cc:286-287 -/
def copied (recordSize : ℕ) (l : List Record) : List Record := l.map (strncpy · recordSize)

/-- INTERNAL: streams of records as `strncpy` leaves them. -/
def Copies (numRuns recordSize : ℕ) (R : ℕ → List Record) : Prop :=
  ∀ r ∈ pooled numRuns R, strncpy r recordSize = r

/-- INTERNAL: what filling the buffer with up to `k` records gives: the records drawn stand
behind what was in the buffer. -/
structure Filled (numRuns : ℕ) (schema : Schema) (contents : ℕ → List Byte) (args : ℕ → RunArgs)
    (R : ℕ → List Record) (k : ℕ) (before after : Filling) (taken : List Record)
    (R' : ℕ → List Record) : Prop where
  holds : Holds numRuns contents args after.session R'
  draws : Draws (recordLe schema) numRuns R taken R'
  buf_eq : after.buf =
    overwrite before.buf (before.recordsInBuffer * schema.recordSize)
      (copied schema.recordSize taken).flatten
  count_eq : after.recordsInBuffer = before.recordsInBuffer + taken.length
  length_le : taken.length ≤ k
  progress : 0 < k → pooled numRuns R ≠ [] → taken ≠ []

section Fill

variable {numRuns : ℕ} {schema : Schema} {contents : ℕ → List Byte} {args : ℕ → RunArgs}
  {R R' : ℕ → List Record} {taken : List Record}

/-- INTERNAL: what is drawn from copies is copied as it is. -/
theorem Copies.copied_eq (h : Copies numRuns schema.recordSize R)
    (hd : Draws (recordLe schema) numRuns R taken R') : copied schema.recordSize taken = taken := by
  have hmem : ∀ r ∈ taken, strncpy r schema.recordSize = r :=
    fun r hr => h r (hd.perm.subset (List.mem_append_left _ hr))
  exact (List.map_congr_left hmem).trans (List.map_id' taken)

/-- INTERNAL: the length of copied records, one behind the other. -/
theorem length_copied_flatten (recordSize : ℕ) (l : List Record) :
    (copied recordSize l).flatten.length = recordSize * l.length := by
  have hsize : ∀ r ∈ copied recordSize l, r.length = recordSize := by
    intro r hr
    obtain ⟨x, -, rfl⟩ := List.mem_map.mp hr
    exact length_strncpy _ _
  rw [length_flatten_of_size hsize, copied, List.length_map]

/-- INTERNAL: **the inner loop** draws from the streams.
SRCLINE: library.cc:280-290 -/
theorem fillBuffer_draws (hu : Uniform numRuns schema contents args) (hinside : Inside schema)
    (k : ℕ) (st : Filling) (R : ℕ → List Record) (h : Holds numRuns contents args st.session R) :
    ∃ filled taken R',
      fillBuffer (List.range numRuns) schema.recordSize k st = some filled ∧
      Filled numRuns schema contents args R k st filled taken R' := by
  induction k generalizing st R with
  | zero => exact ⟨st, [], R, rfl, h, .nil R, by simp [overwrite, copied], rfl, le_rfl, by simp⟩
  | succ k ih =>
    obtain ⟨found, s', hfound, hleast, hsel⟩ := getIteratorWithSmallestValue_spec hu hinside numRuns
      0 (Nat.zero_add _) none st.session h (fun j hj => absurd hj (Nat.not_lt_zero j))
    rw [← List.range_eq_range'] at hfound
    rw [fillBuffer, hfound, Option.bind_some]
    cases found with
    | none =>
      refine ⟨_, [], R, rfl, hsel, .nil R, by simp [overwrite, copied], rfl, Nat.zero_le _, ?_⟩
      exact fun _ hne => absurd (pooled_eq_nil.mpr hleast) hne
    | some m =>
      have hlt : m < numRuns := hleast.1
      obtain ⟨x, t, hm⟩ : ∃ x t, R m = x :: t := by
        obtain ⟨-, x, hx, -, -⟩ := hleast
        exact ⟨x, _, List.eq_cons_of_mem_head? hx⟩
      have hcur := (holds_getCurrentRecord hu hsel hlt).1
      have htake := holds_take hu hsel hlt (by rw [hm]; exact List.cons_ne_nil x t)
      rw [hm, List.tail_cons] at htake
      rw [hm, List.head?_cons] at hcur
      dsimp only
      rw [hcur, Option.getD_some]
      obtain ⟨filled, taken, R', hfill, hf⟩ := ih
        ⟨_, overwrite st.buf (st.recordsInBuffer * schema.recordSize) (strncpy x schema.recordSize),
          st.recordsInBuffer + 1⟩ _ htake
      refine ⟨filled, x :: taken, R', hfill, hf.holds, .cons hleast hm hf.draws, ?_, ?_, ?_,
        fun _ _ => by simp⟩
      · have hcons : copied schema.recordSize (x :: taken) =
            strncpy x schema.recordSize :: copied schema.recordSize taken := rfl
        rw [hf.buf_eq, hcons, List.flatten_cons, ← overwrite_overwrite, length_strncpy,
          Nat.succ_mul]
      · rw [hf.count_eq, List.length_cons]
        exact Nat.add_right_comm _ _ _
      · rw [List.length_cons]
        exact Nat.succ_le_succ hf.length_le

end Fill

/-! ## The merge -/

/-- INTERNAL: the invariant of the outer loop.  `written` was drawn from the streams and is
in the output file, and the bytes of the buffer behind its first `bufSize` are as they
were.
SRCLINE: library.cc:277-296 -/
structure MergeInv (numRuns : ℕ) (schema : Schema) (contents : ℕ → List Byte)
    (args : ℕ → RunArgs) (S : ℕ → List Record) (out : File) (startPos : ℕ) (buf : List Byte)
    (bufSize : ℕ) (st : Merging) (written : List Record) (R : ℕ → List Record) : Prop where
  holds : Holds numRuns contents args st.session R
  draws : Draws (recordLe schema) numRuns S written R
  out_eq : st.out.contents =
    overwrite out.contents startPos (copied schema.recordSize written).flatten
  out_pos : st.out.pos = startPos + (copied schema.recordSize written).flatten.length
  buf_length : st.buf.length = buf.length
  buf_drop : st.buf.drop bufSize = buf.drop bufSize

section Merge

variable {numRuns : ℕ} {schema : Schema} {contents : ℕ → List Byte} {args : ℕ → RunArgs}
  {S R : ℕ → List Record} {out : File} {startPos : ℕ} {buf : List Byte} {bufSize : ℕ}
  {st : Merging} {written : List Record}

/-- INTERNAL: the capacity of the output buffer, for a record size that is a natural number.
SRCLINE: library.cc:270-271 -/
theorem maxNumberOfRecordsInBuffer_natCast (bufSize recordSize : ℕ) :
    maxNumberOfRecordsInBuffer bufSize recordSize = doubleToInt (bufSize / recordSize : ℕ) := by
  rw [maxNumberOfRecordsInBuffer, Int.ofNat_tdiv]

/-- INTERNAL: the records that fit the buffer fit into its first `bufSize` bytes.
SRCLINE: library.cc:270-271 -/
theorem maxNumberOfRecordsInBuffer_le (bufSize recordSize : ℕ) :
    recordSize * (maxNumberOfRecordsInBuffer bufSize recordSize).toNat ≤ bufSize := by
  have hle : (maxNumberOfRecordsInBuffer bufSize recordSize).toNat ≤ bufSize / recordSize := by
    rw [maxNumberOfRecordsInBuffer_natCast, doubleToInt]
    split_ifs
    · exact le_rfl
    · exact Nat.zero_le _
  exact (Nat.mul_le_mul_left _ hle).trans (Nat.mul_div_le _ _)

/-- INTERNAL: **one round of the merge** with streams left draws records and writes them,
at least one if the buffer takes any.
SRCLINE: library.cc:277-296 -/
theorem mergeRound_draws (hu : Uniform numRuns schema contents args) (hinside : Inside schema)
    (hbuf : bufSize ≤ buf.length)
    (hinv : MergeInv numRuns schema contents args S out startPos buf bufSize st written R)
    (hmore : pooled numRuns R ≠ []) :
    ∃ st' taken R',
      mergeRound numRuns schema.recordSize
        (maxNumberOfRecordsInBuffer bufSize schema.recordSize) st = some (.inl st') ∧
      MergeInv numRuns schema contents args S out startPos buf bufSize st' (written ++ taken) R' ∧
      (pooled numRuns R).length = taken.length + (pooled numRuns R').length ∧
      (1 ≤ maxNumberOfRecordsInBuffer bufSize schema.recordSize → taken ≠ []) := by
  set k := (maxNumberOfRecordsInBuffer bufSize schema.recordSize).toNat with hk
  obtain ⟨hask, hheld⟩ := iteratorsHaveRecords_range hu st.session hinv.holds
  obtain ⟨filled, taken, R', hfilled, hf⟩ := fillBuffer_draws hu hinside k
    ⟨(iteratorsHaveRecords (List.range numRuns) st.session).2, st.buf, 0⟩ R hheld
  set data := (copied schema.recordSize taken).flatten with hdata_eq
  have hlen : data.length = schema.recordSize * taken.length := length_copied_flatten _ _
  have hfit : data.length ≤ bufSize := by
    rw [hlen]
    exact (Nat.mul_le_mul_left _ hf.length_le).trans (maxNumberOfRecordsInBuffer_le _ _)
  have hbufeq : filled.buf = overwrite st.buf 0 data := by
    rw [hf.buf_eq, Nat.zero_mul]
  have hdata : filled.buf.take (schema.recordSize * filled.recordsInBuffer) = data := by
    rw [hf.count_eq, Nat.zero_add, ← hlen, hbufeq, take_overwrite_zero]
  have happend : (copied schema.recordSize (written ++ taken)).flatten =
      (copied schema.recordSize written).flatten ++ data := by
    rw [copied, List.map_append, List.flatten_append]
    rfl
  have hcount := hf.draws.perm.length_eq
  rw [List.length_append] at hcount
  refine ⟨⟨filled.session, st.out.fwrite data, filled.buf⟩, taken, R', ?_, ?_, hcount.symm, ?_⟩
  · unfold mergeRound
    dsimp only
    rw [hask.mpr hmore, if_pos rfl, ← hk, hfilled, Option.map_some, hdata]
  · have hst : data.length ≤ st.buf.length := by
      rw [hinv.buf_length]
      exact hfit.trans hbuf
    refine ⟨hf.holds, hinv.draws.append hf.draws, ?_, ?_, ?_, ?_⟩
    · show overwrite st.out.contents st.out.pos data = _
      rw [hinv.out_eq, hinv.out_pos, overwrite_overwrite, happend]
    · show st.out.pos + data.length = _
      rw [hinv.out_pos, happend, List.length_append, Nat.add_assoc]
    · show filled.buf.length = _
      rw [hbufeq, length_overwrite _ _ (by omega), hinv.buf_length]
    · show filled.buf.drop bufSize = _
      rw [hbufeq, drop_overwrite _ _ (by omega) (Nat.zero_le _), hinv.buf_drop]
  · intro hone
    exact hf.progress (by omega) hmore

/-- INTERNAL: the last round of the merge finds no stream left.
SRCLINE: library.cc:277 -/
theorem mergeRound_ends (hu : Uniform numRuns schema contents args) (recordSize : ℕ)
    (maxRecords : ℤ) (h : Holds numRuns contents args st.session R) (hnone : pooled numRuns R = []) :
    ∃ s, mergeRound numRuns recordSize maxRecords st = some (.inr { st with session := s }) ∧
      Holds numRuns contents args s R := by
  obtain ⟨hask, hheld⟩ := iteratorsHaveRecords_range hu st.session h
  refine ⟨_, ?_, hheld⟩
  unfold mergeRound
  dsimp only
  rw [if_neg fun htrue => hask.mp htrue hnone]

/-- INTERNAL: the end of the written part, and what was before it, after an `overwrite`. -/
theorem overwrite_written (s data : List Byte) (pos : ℕ) :
    ((overwrite s pos data).drop pos).take data.length = data := by
  unfold overwrite
  split_ifs with h
  · simp [h]
  · have hlen : (s.take pos ++ List.replicate (pos - s.length) 0).length = pos := by
      simp only [List.length_append, List.length_take, List.length_replicate]
      omega
    rw [List.append_assoc, List.drop_append, List.drop_eq_nil_of_le hlen.le, hlen, Nat.sub_self]
    simp

end Merge

/-- What `merge_runs` promises about its result: the output file holds `sorted` from
`startPos` on and the handle stands behind it, what was before it is as it was, and
of the buffer only the first `bufSize` bytes were used.
SRCLINE: library.h:106-112 -/
structure WritesMerge (sorted : List Record) (out : File) (startPos : ℕ) (buf : List Byte)
    (bufSize : ℕ) (result : Merging) : Prop where
  out_eq : result.out.contents = overwrite out.contents startPos sorted.flatten
  out_pos : result.out.pos = startPos + sorted.flatten.length
  written : (result.out.contents.drop startPos).take sorted.flatten.length = sorted.flatten
  before : result.out.contents.take (min startPos out.contents.length) =
    out.contents.take startPos
  buf_length : result.buf.length = buf.length
  buf_rest : result.buf.drop bufSize = buf.drop bufSize

section Run

variable {numRuns : ℕ} {schema : Schema} {contents : ℕ → List Byte} {args : ℕ → RunArgs}
  {s : Session} {S : ℕ → List Record}

/-- INTERNAL: a result of the merge is as promised for what was written. -/
theorem MergeInv.writesMerge {written : List Record} {out : File} {startPos bufSize : ℕ}
    {buf : List Byte} {st : Merging} {R : ℕ → List Record}
    (hinv : MergeInv numRuns schema contents args S out startPos buf bufSize st written R) :
    WritesMerge (copied schema.recordSize written) out startPos buf bufSize st := by
  refine ⟨hinv.out_eq, hinv.out_pos, ?_, ?_, hinv.buf_length, hinv.buf_drop⟩
  · rw [hinv.out_eq, overwrite_written]
  · rw [hinv.out_eq, take_overwrite _ _ (min_le_left _ _) (min_le_right _ _)]
    exact List.take_eq_take_min.symm

/-- INTERNAL: the loop of the merge starts with nothing written. -/
theorem mergeInv_start (schema : Schema) (h : Holds numRuns contents args s S)
    (out : File) (startPos : ℕ) (buf : List Byte) (bufSize : ℕ) :
    MergeInv numRuns schema contents args S out startPos buf bufSize
      ⟨s, out.fseek startPos, buf⟩ [] S where
  holds := h
  draws := .nil S
  out_eq := by simp [overwrite, copied]
  out_pos := by simp [copied]
  buf_length := rfl
  buf_drop := rfl

/-- INTERNAL: **the whole merge.**  With room for a record, or nothing to merge, enough fuel
gives a result, everything was drawn from the streams and its copies were written, and no
iterator shows a record any more.
SRCLINE: library.cc:264-297 -/
theorem mergeRuns_draws (hu : Uniform numRuns schema contents args) (hinside : Inside schema)
    (h : Holds numRuns contents args s S)
    (hsize : (s.iters 0).getRecordSize = schema.recordSize) (out : File) (startPos : ℕ)
    {buf : List Byte} {bufSize : ℕ} (hbuf : bufSize ≤ buf.length)
    (hmax : 1 ≤ maxNumberOfRecordsInBuffer bufSize schema.recordSize ∨ pooled numRuns S = [])
    {fuel : ℕ} (hfuel : (pooled numRuns S).length < fuel) :
    ∃ result, mergeRuns fuel s numRuns out startPos buf bufSize = some result ∧
      ∃ written R, Draws (recordLe schema) numRuns S written R ∧ pooled numRuns R = [] ∧
        Holds numRuns contents args result.session R ∧
        WritesMerge (copied schema.recordSize written) out startPos buf bufSize result := by
  have hpos := hu.size_pos
  unfold mergeRuns
  dsimp only
  rw [hsize, if_neg (by omega), Int.toNat_natCast]
  -- the variant counts the records the streams still hold
  refine loop_total (fun n st => ∃ written R,
    MergeInv numRuns schema contents args S out startPos buf bufSize st written R ∧
      (pooled numRuns R).length = n ∧
      (1 ≤ maxNumberOfRecordsInBuffer bufSize schema.recordSize ∨ pooled numRuns R = [])) _ ?_
    ⟨[], S, mergeInv_start schema h out startPos buf bufSize, rfl, hmax⟩ hfuel
  rintro n st ⟨written, R, hinv, hn, hroom⟩
  by_cases hnone : pooled numRuns R = []
  · obtain ⟨s', hround, hheld⟩ := mergeRound_ends hu _ _ hinv.holds hnone
    have hw := hinv.writesMerge
    exact Or.inr ⟨_, hround, written, R, hinv.draws, hnone, hheld, hw.out_eq, hw.out_pos,
      hw.written, hw.before, hw.buf_length, hw.buf_rest⟩
  · obtain ⟨st', taken, R', hround, hinv', hcount, htaken⟩ :=
      mergeRound_draws hu hinside hbuf hinv hnone
    have hpos := List.length_pos_iff.mpr (htaken (hroom.resolve_right hnone))
    exact Or.inl ⟨_, st', hround, ⟨_, R', hinv', rfl, Or.inl (hroom.resolve_right hnone)⟩,
      by omega⟩

/-- INTERNAL: **without room for a record** a merge with a record to write never ends.
SRCLINE: library.cc:277-281 -/
theorem mergeRuns_diverges (hu : Uniform numRuns schema contents args)
    (h : Holds numRuns contents args s S) (out : File) (startPos : ℕ) (buf : List Byte)
    {bufSize : ℕ} (hmax : maxNumberOfRecordsInBuffer bufSize (s.iters 0).getRecordSize ≤ 0)
    (hmore : pooled numRuns S ≠ []) (fuel : ℕ) :
    mergeRuns fuel s numRuns out startPos buf bufSize = none := by
  unfold mergeRuns
  dsimp only
  split_ifs
  · rfl
  apply loop_diverges (fun st => Holds numRuns contents args st.session S)
  · intro st hst
    obtain ⟨hask, hheld⟩ := iteratorsHaveRecords_range hu st.session hst
    unfold mergeRound
    dsimp only
    rw [hask.mpr hmore, if_pos rfl, Int.toNat_of_nonpos hmax]
    exact ⟨_, rfl, hheld⟩
  · exact h

/-- INTERNAL: **a merge of nothing** returns, with any record size but zero, and writes nothing.
SRCLINE: library.cc:277 -/
theorem mergeRuns_nothing (hu : Uniform numRuns schema contents args)
    (h : Holds numRuns contents args s S) (hsize : (s.iters 0).getRecordSize ≠ 0) (out : File)
    (startPos : ℕ) (buf : List Byte) (bufSize : ℕ) (hnone : pooled numRuns S = []) :
    ∃ result, mergeRuns 1 s numRuns out startPos buf bufSize = some result ∧
      WritesMerge [] out startPos buf bufSize result := by
  unfold mergeRuns
  dsimp only
  rw [if_neg hsize]
  obtain ⟨s', hround, -⟩ := mergeRound_ends hu (s.iters 0).getRecordSize.toNat
    (maxNumberOfRecordsInBuffer bufSize (s.iters 0).getRecordSize)
    (mergeInv_start schema h out startPos buf bufSize).holds hnone
  have hw := (mergeInv_start schema h out startPos buf bufSize).writesMerge
  exact ⟨_, loop_succ_inr hround 0, hw.out_eq, hw.out_pos, hw.written, hw.before, hw.buf_length,
    hw.buf_rest⟩

end Run

end ExternalSort.Analysis
