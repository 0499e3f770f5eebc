import ExternalSort.Analysis.BsortSorts

/-!
# Runs of the tree sort one after the other

The database stays in the working directory.  A run on a database that earlier runs have
left writes what it would write on an empty one exactly if it puts every key that is
already there (`BsortRun.Puts.independent_iff`).  The keys in the database are those of all runs so
far (`LeftBy.lookup_ne_none_iff`), so over a whole sequence of runs the condition is that the keys
of every run are keys of all later runs that write an index.

A run may be any run: with names that are not found or given twice, with lines of any length, or
without an input file.  A run that does not return has nothing behind it.
-/

set_option autoImplicit false

namespace ExternalSort.Analysis

open ExternalSort.Lib ExternalSort.Model

/-- A run of the tree sort: its command line with the schema, the directory it finds, and what is on
the stack.
SRCLINE: bsort.cc:11-64 -/
structure BsortRun where
  args : BsortArgs
  files : FileSystem
  stack : ℕ → Byte

/-- What a run can return on a database: the code, and what is in the index file.
SRCLINE: bsort.cc:11-126 -/
def BsortRun.Returns (r : BsortRun) (D : Database) (code : ℕ) (index : Option (List Byte)) : Prop :=
  ∃ fuel w, bsort fuel r.stack r.args ⟨r.files, D⟩ = some (code, w) ∧
    w.files r.args.outIndex = index

/-- The run comes to its loop and the loop ends, and these are the entries it puts.
SRCLINE: bsort.cc:11-99 -/
def BsortRun.Puts (r : BsortRun) (puts : List (List Byte × List Byte)) : Prop :=
  ∃ schema, BsortOpens r.args r.files schema ∧
    LoadReturns schema r.stack (contentsRead r.args r.files) ∧
    puts = loadPuts schema r.stack (contentsRead r.args r.files)

/-- The databases a sequence of runs can leave, when it starts from an empty one.  Other
files may change between the runs.
SRCLINE: bsort.cc:49-50, bsort.cc:93 -/
inductive LeftBy : List BsortRun → Database → Prop
  | empty : LeftBy [] ∅
  | run {runs : List BsortRun} {D : Database} {r : BsortRun} {fuel code : ℕ} {w : World}
      (h : LeftBy runs D) (hrun : bsort fuel r.stack r.args ⟨r.files, D⟩ = some (code, w)) :
      LeftBy (runs ++ [r]) w.db

/-- The run returns the same code and writes the same index file as on an empty database. -/
def Independent (r : BsortRun) (D : Database) : Prop :=
  ∀ code index, r.Returns D code index ↔ r.Returns ∅ code index

/-- The run returns, when it is run on an empty database. -/
def BsortRun.Ends (r : BsortRun) : Prop := ∃ code index, r.Returns ∅ code index

section Runs

variable {r : BsortRun} {D : Database} {puts : List (List Byte × List Byte)}

/-- INTERNAL: what a run that puts entries returns. -/
theorem BsortRun.Puts.returns_iff (h : r.Puts puts) (D : Database) (code : ℕ)
    (index : Option (List Byte)) :
    r.Returns D code index ↔ code = 0 ∧ index = some (indexLines (putAll D puts)) := by
  obtain ⟨schema, hopens, hload, rfl⟩ := h
  constructor
  · rintro ⟨fuel, w, hrun, rfl⟩
    obtain ⟨hcode, -, hdb, hindex⟩ := hopens.bsort_some hrun
    exact ⟨hcode, by rw [hindex, hdb]⟩
  · rintro ⟨rfl, rfl⟩
    obtain ⟨fuel, w, hrun⟩ := hopens.returns hload D
    obtain ⟨-, -, hdb, hindex⟩ := hopens.bsort_some hrun
    exact ⟨fuel, w, hrun, by rw [hindex, hdb]⟩

/-- INTERNAL: **what one run does to the database**: it puts its entries, or leaves it alone. -/
theorem db_of_bsort {fuel code : ℕ} {w : World}
    (hrun : bsort fuel r.stack r.args ⟨r.files, D⟩ = some (code, w)) :
    (∃ puts, r.Puts puts ∧ w.db = putAll D puts) ∨ ((¬ ∃ puts, r.Puts puts) ∧ w.db = D) := by
  by_cases hopens : ∃ schema, BsortOpens r.args r.files schema
  · left
    obtain ⟨schema, hopens⟩ := hopens
    obtain ⟨-, hload, hdb, -⟩ := hopens.bsort_some hrun
    exact ⟨_, ⟨schema, hopens, hload, rfl⟩, hdb⟩
  · right
    refine ⟨fun ⟨_, schema, hopen, _⟩ => hopens ⟨schema, hopen⟩, ?_⟩
    rcases bsort_of_not_opens hopens with hnone | ⟨code', -, hsome⟩
    · rw [hnone] at hrun
      cases hrun
    · rw [hsome] at hrun
      cases hrun
      rfl

/-- INTERNAL: a run that puts nothing does the same on every database. -/
theorem independent_of_not_puts (h : ¬ ∃ puts, r.Puts puts) (D : Database) : Independent r D := by
  intro code index
  by_cases hopens : ∃ schema, BsortOpens r.args r.files schema
  · obtain ⟨schema, hopens⟩ := hopens
    have hnever : ∀ D, ¬ r.Returns D code index := by
      rintro D ⟨fuel, w, hrun, -⟩
      exact h ⟨_, schema, hopens, (hopens.bsort_some hrun).2.1, rfl⟩
    exact iff_of_false (hnever D) (hnever ∅)
  · rcases bsort_of_not_opens hopens with hnone | ⟨code', -, hsome⟩
    · have hnever : ∀ D, ¬ r.Returns D code index := by
        rintro D ⟨fuel, w, hrun, -⟩
        rw [hnone] at hrun
        cases hrun
      exact iff_of_false (hnever D) (hnever ∅)
    · have hsame : ∀ D, r.Returns D code index ↔
          code = code' ∧ r.files r.args.outIndex = index := by
        intro D
        constructor
        · rintro ⟨fuel, w, hrun, rfl⟩
          rw [hsome] at hrun
          cases hrun
          exact ⟨rfl, rfl⟩
        · rintro ⟨rfl, rfl⟩
          exact ⟨0, _, hsome _ _ _, rfl⟩
      rw [hsame, hsame]

/-- INTERNAL: the length of the index file. -/
theorem length_indexLines (D : Database) :
    (indexLines D).length = (D.toList.map fun p => p.2.length + 1).sum := by
  rw [indexLines, List.length_flatMap]
  simp

/-- INTERNAL: **what an earlier run has put shows** exactly if the run does not put the same
key.  An additional entry makes the index longer, whatever its value is.
SRCLINE: bsort.cc:93, bsort.cc:101-111 -/
theorem BsortRun.Puts.independent_iff (h : r.Puts puts) :
    Independent r D ↔ ∀ k : List Byte, D[k]? ≠ none → k ∈ puts.map Prod.fst := by
  have hindex : Independent r D ↔ indexLines (putAll D puts) = indexLines (putAll ∅ puts) := by
    simp only [Independent, h.returns_iff]
    constructor
    · intro hsame
      exact Option.some.inj ((hsame 0 _).mp ⟨rfl, rfl⟩).2
    · intro hsame code index
      rw [hsame]
  rw [hindex]
  constructor
  · intro hsame k hk
    by_contra hnot
    have hkeep : ∀ (a v : List Byte), (putAll (∅ : Database) puts)[a]? = some v →
        (putAll D puts)[a]? = some v := by
      intro a v ha
      rw [← ha]
      apply putAll_congr
      intro hnew
      rw [lookup_putAll_of_not_mem hnew] at ha
      simp at ha
    have hthere : (putAll D puts)[k]? ≠ none := lookup_putAll_ne_none (Or.inr hk)
    have hnone : (putAll (∅ : Database) puts)[k]? = none := by
      rw [lookup_putAll_of_not_mem hnot]
      simp
    obtain ⟨p, hextra⟩ := exists_extra_of_key hkeep hthere hnone
    have hlong := sum_map_le_of_subperm hextra fun p => p.2.length + 1
    have hlength := congrArg List.length hsame
    rw [length_indexLines, length_indexLines] at hlength
    rw [List.map_cons, List.sum_cons] at hlong
    omega
  · intro hkeys
    rw [indexLines, indexLines, toList_eq_of_lookup fun k => putAll_congr fun hnew => ?_]
    have hnone : D[k]? = none := by
      by_contra hk
      exact hnew (hkeys k hk)
    rw [hnone]
    simp

/-- INTERNAL: the entries of a run are determined. -/
theorem BsortRun.Puts.unique {puts' : List (List Byte × List Byte)} (h : r.Puts puts)
    (h' : r.Puts puts') : puts = puts' := by
  obtain ⟨schema, hopens, -, rfl⟩ := h
  obtain ⟨schema', hopens', -, rfl⟩ := h'
  obtain ⟨schema₀, code, hread, hresolve⟩ := hopens.resolve
  obtain ⟨schema₀', code', hread', hresolve'⟩ := hopens'.resolve
  obtain rfl := Option.some.inj (hread.symm.trans hread')
  obtain ⟨-, rfl⟩ := Prod.mk.inj (Option.some.inj (hresolve.symm.trans hresolve'))
  rfl

/-- INTERNAL: the keys in the database are those of all runs so far.  The induction is over
the runs. -/
theorem LeftBy.lookup_ne_none_iff {runs : List BsortRun} (h : LeftBy runs D) (k : List Byte) :
    D[k]? ≠ none ↔ ∃ r ∈ runs, ∃ puts, r.Puts puts ∧ k ∈ puts.map Prod.fst := by
  induction h with
  | empty => simp
  | @run runs D r fuel code w _ hrun ih =>
    simp only [List.mem_append, List.mem_singleton]
    rcases db_of_bsort hrun with ⟨puts, hputs, hdb⟩ | ⟨hno, hdb⟩
    · rw [hdb]
      constructor
      · intro hk
        by_cases hkey : k ∈ puts.map Prod.fst
        · exact ⟨r, Or.inr rfl, puts, hputs, hkey⟩
        · rw [lookup_putAll_of_not_mem hkey] at hk
          obtain ⟨e, he, hke⟩ := ih.mp hk
          exact ⟨e, Or.inl he, hke⟩
      · rintro ⟨e, he | rfl, puts', hputs', hke⟩
        · exact lookup_putAll_ne_none (Or.inr (ih.mpr ⟨e, he, puts', hputs', hke⟩))
        · obtain rfl := hputs.unique hputs'
          exact lookup_putAll_ne_none (Or.inl hke)
    · rw [hdb, ih]
      constructor
      · rintro ⟨e, he, hke⟩
        exact ⟨e, Or.inl he, hke⟩
      · rintro ⟨e, he | rfl, puts', hputs', hke⟩
        · exact ⟨e, he, puts', hputs', hke⟩
        · exact absurd ⟨puts', hputs'⟩ hno

/-- INTERNAL: whether a run returns does not depend on the database. -/
theorem BsortRun.ends_iff (r : BsortRun) (D : Database) :
    r.Ends ↔ ∃ fuel code w, bsort fuel r.stack r.args ⟨r.files, D⟩ = some (code, w) := by
  have hreturns : (∃ code index, r.Returns D code index) ↔
      ∃ fuel code w, bsort fuel r.stack r.args ⟨r.files, D⟩ = some (code, w) := by
    constructor
    · rintro ⟨code, -, fuel, w, hrun, -⟩
      exact ⟨fuel, code, w, hrun⟩
    · rintro ⟨fuel, code, w, hrun⟩
      exact ⟨code, _, fuel, w, hrun, rfl⟩
  rw [← hreturns, BsortRun.Ends]
  by_cases hputs : ∃ puts, r.Puts puts
  · obtain ⟨puts, hputs⟩ := hputs
    exact iff_of_true ⟨0, _, (hputs.returns_iff ∅ _ _).mpr ⟨rfl, rfl⟩⟩
      ⟨0, _, (hputs.returns_iff D _ _).mpr ⟨rfl, rfl⟩⟩
  · have hsame := independent_of_not_puts hputs D
    exact exists_congr fun code => exists_congr fun index => (hsame code index).symm

/-- INTERNAL: a sequence of runs can be made exactly if every run in it returns. -/
theorem exists_leftBy_iff (runs : List BsortRun) :
    (∃ D, LeftBy runs D) ↔ ∀ r ∈ runs, r.Ends := by
  constructor
  · rintro ⟨D, h⟩
    induction h with
    | empty => simp
    | @run runs D r fuel code w _ hrun ih =>
      intro e he
      cases List.mem_append.mp he with
      | inl he => exact ih e he
      | inr he =>
        rw [List.mem_singleton.mp he, r.ends_iff D]
        exact ⟨fuel, code, w, hrun⟩
  · intro hends
    induction runs using List.reverseRecOn with
    | nil => exact ⟨∅, .empty⟩
    | append_singleton runs r ih =>
      obtain ⟨D, hD⟩ := ih fun e he => hends e (List.mem_append_left _ he)
      obtain ⟨fuel, code, w, hrun⟩ :=
        (r.ends_iff D).mp (hends r (List.mem_append_right _ (List.mem_singleton_self r)))
      exact ⟨w.db, hD.run hrun⟩

end Runs

/-- SOURCE: bsort.cc:49-50, bsort.cc:71-111 — **when runs do not interfere.**  In any sequence of
runs of the tree sort in one working directory, every run returns the code and writes the index
file it would on an empty database if and only if the keys of every run are among the keys of every
later run that comes to write an index. -/
theorem bsort_runs_independent_iff (runs : List BsortRun) :
    (∀ earlier r later, runs = earlier ++ r :: later → ∀ D, LeftBy earlier D → Independent r D) ↔
      ∀ earlier r later, runs = earlier ++ r :: later → (∀ e ∈ earlier, e.Ends) →
        ∀ puts, r.Puts puts → ∀ e ∈ earlier, ∀ puts', e.Puts puts' →
          ∀ k ∈ puts'.map Prod.fst, k ∈ puts.map Prod.fst := by
  refine forall_congr' fun earlier => forall_congr' fun r => forall_congr' fun later =>
    imp_congr_right fun _ => ?_
  constructor
  · intro h hends puts hputs e he puts' hputs' k hk
    obtain ⟨D, hD⟩ := (exists_leftBy_iff earlier).mpr hends
    exact hputs.independent_iff.mp (h D hD) k
      ((hD.lookup_ne_none_iff k).mpr ⟨e, he, puts', hputs', hk⟩)
  · intro h D hD
    by_cases hputs : ∃ puts, r.Puts puts
    · obtain ⟨puts, hputs⟩ := hputs
      rw [hputs.independent_iff]
      intro k hk
      obtain ⟨e, he, puts', hputs', hke⟩ := (hD.lookup_ne_none_iff k).mp hk
      exact h ((exists_leftBy_iff earlier).mp ⟨D, hD⟩) puts hputs e he puts' hputs' k hke
    · exact independent_of_not_puts hputs D

/-- INTERNAL: the entries of a run on lines, whatever is on the stack. -/
theorem puts_entries {args : BsortArgs} {schema : Schema} (h : BsortAccepted args schema)
    {records : List (List Byte)} (hlines : LineRecords schema.recordSize records)
    {files : FileSystem} (hin : files args.inputFile = some records.flatten)
    (hbound : schema.recordSize + 2 < 2 ^ 31) (stack : ℕ → Byte) :
    BsortRun.Puts ⟨args, files, stack⟩ (entries schema (linesRead args records)) := by
  obtain ⟨hload, hputs⟩ := load_lines h.resolved.layout.1 h.distinct h.two_le hbound
    (hlines.linesRead args) stack
  rw [← contentsRead_eq hin] at hload hputs
  exact ⟨schema, h.opens hin, hload, hputs.symm⟩

/-- The run that sorts one letter. -/
def letterRunOf (b : Byte) : BsortRun where
  args := letterIndex
  files := inputOnly [[b, 10]]
  stack := fun _ => 0

/-- INTERNAL: it puts the letter, under the letter and the number of the record. -/
theorem letterRunOf_puts (b : Byte) (hzero : b ≠ 0) (hline : b ≠ 10) :
    (letterRunOf b).Puts (entries letterSchema [[b, 10]]) :=
  puts_entries letterIndex_accepted (lineRecords_of_letters fun _ hr =>
    ⟨b, List.mem_singleton.mp hr, hzero, hline⟩) rfl (by decide) _

/-- A run on the letter `b` and then one on the letter `a`: the second index file has both. -/
theorem bsort_second_run_fails :
    ¬ ∀ earlier r later, [letterRunOf 98, letterRunOf 97] = earlier ++ r :: later →
      ∀ D, LeftBy earlier D → Independent r D := by
  have hb := letterRunOf_puts 98 (by decide) (by decide)
  have ha := letterRunOf_puts 97 (by decide) (by decide)
  intro h
  obtain ⟨D, hD⟩ := (exists_leftBy_iff [letterRunOf 98]).mpr (by
    intro e he
    rw [List.mem_singleton.mp he]
    exact ⟨0, _, (hb.returns_iff ∅ _ _).mpr ⟨rfl, rfl⟩⟩)
  have hkeys := ha.independent_iff.mp (h [letterRunOf 98] _ [] rfl D hD) [98, 48]
    ((hD.lookup_ne_none_iff _).mpr ⟨_, List.mem_singleton_self _, _, hb, by decide +kernel⟩)
  revert hkeys
  decide +kernel

end ExternalSort.Analysis
