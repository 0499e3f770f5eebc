import ExternalSort.Analysis.BsortRun
import ExternalSort.Analysis.MsortPrepare
import ExternalSort.Analysis.NameSearch

/-!
# A sort attribute that is not in the schema

`init_sort_attrs` reports a name that no attribute has, and leaves its slot and all later ones
unassigned (`none_mem_of_resolveAttrs`).  The merge sort returns then, if it has got through
printing the schema.  The tree sort prints a message and goes on to its input; the first chunk it
comes to insert makes it read such a slot.  So it inserts nothing only if there is no input file,
or nothing in it that its loop would insert (`wholeChunks_eq_nil_iff`).  It then still writes the
index, of what was in the database before.
-/

set_option autoImplicit false

namespace ExternalSort.Analysis

open ExternalSort.Lib ExternalSort.Model

/-- A name as the programs see it: up to its first NUL.
SRCLINE: library.cc:20, library.cc:45 -/
def cName (name : List Byte) : List Byte := name.takeWhile (· ≠ 0)

/-- The names of the attributes of a schema file, as the programs see them. -/
def cNames (root : JsonArray) : List (List Byte) := (jsonNames root).map cName

/-- The merge sort returns and has left all files alone.
SRCLINE: msort.cc:12-115 -/
def MsortStops (env : Env) (args : MsortArgs) (fs : FileSystem) : Prop :=
  ∀ fuel, ∃ code, msort fuel env args fs = some (code, fs)

/-- The tree sort returns, whatever is on the stack, and has inserted nothing.
SRCLINE: bsort.cc:11-126 -/
def BsortInsertsNothing (args : BsortArgs) (w : World) : Prop :=
  ∀ stack : ℕ → Byte, (∃ fuel code w', bsort fuel stack args w = some (code, w')) ∧
    ∀ fuel code w', bsort fuel stack args w = some (code, w') → w'.db = w.db

/-- It has not written a line to the index file either, if it came to write one.
SRCLINE: bsort.cc:11-126 -/
def BsortWritesNothing (args : BsortArgs) (w : World) : Prop :=
  BsortInsertsNothing args w ∧ ∀ fuel stack w', bsort fuel stack args w = some (0, w') →
    w'.files args.outIndex = some []

section Names

/-- INTERNAL: a copy is made of the string up to its NUL. -/
theorem strncpy_cName (s : List Byte) (n : ℕ) : strncpy (cName s) n = strncpy s n := by
  rw [strncpy, strncpy, cstr_eq_take, cstr_eq_take, cName, List.takeWhile_takeWhile]
  simp only [and_self, Bool.decide_eq_true]

/-- INTERNAL: a comparison ends at the NUL of the string. -/
theorem strcmp_cName (s buffer : List Byte) : strcmp (cName s) buffer = strcmp s buffer := by
  induction s generalizing buffer with
  | nil => rfl
  | cons x s ih =>
    cases buffer with
    | nil =>
      rw [strcmp]
      cases cName (x :: s) <;> rfl
    | cons y buffer =>
      by_cases hx : x = 0
      · subst hx
        rw [cName, List.takeWhile_cons_of_neg (by simp), strcmp, strcmp]
        by_cases hy : 0 = y
        · subst hy
          rfl
        · rw [if_pos hy]
          rfl
      · rw [cName, List.takeWhile_cons_of_pos (by simpa using hx), strcmp, strcmp, if_neg hx,
          if_neg hx, ← cName, ih]

/-- INTERNAL: the look-up sees the names up to their NULs. -/
theorem resolveAttrs_cName (attrs : List Attribute) (names : List (List Byte)) :
    resolveAttrs attrs (names.map cName) = resolveAttrs attrs names := by
  have hfind : ∀ (name : List Byte) (attrs : List Attribute) (j : ℕ),
      findAttr (cName name) attrs j = findAttr name attrs j := by
    intro name attrs
    induction attrs with
    | nil => exact fun j => rfl
    | cons a attrs ih =>
      intro j
      simp only [findAttr, strcmp_cName, ih]
  induction names with
  | nil => rfl
  | cons name names ih => simp only [List.map_cons, resolveAttrs, hfind, ih, List.length_map]

/-- INTERNAL: **the look-up returns exactly if it stays inside the name buffers**, and then reports
a name that no attribute has.
SRCLINE: library.cc:38-56 -/
theorem initSortAttrs_spec {root : JsonArray} {schema : Schema}
    (hread : readSchema (some root) = some schema) (names : List (List Byte)) :
    (ResolvesInside (cNames root) (names.map cName) →
      ∃ code slots, initSortAttrs schema names = some (code, { schema with sortAttrs := slots }) ∧
        resolveAttrs schema.attrs names = some (code, slots) ∧
        (code = 0 ↔ ∀ name ∈ names, cName name ∈ cNames root)) ∧
    (¬ ResolvesInside (cNames root) (names.map cName) → initSortAttrs schema names = none) := by
  cases hread
  -- the same attributes, with their names cut at the NUL
  obtain ⟨elems, helems⟩ : ∃ elems : List JsonAttribute,
      elems = root.elems.map fun a => { a with name := some (cName (jsonName a)) } := ⟨_, rfl⟩
  have hread : elems.map readAttribute = root.elems.map readAttribute := by
    rw [helems, List.map_map]
    apply List.map_congr_left
    intro a _
    simp [readAttribute, strncpy_cName, jsonName]
  have hnames : elems.map jsonName = cNames root := by
    rw [helems, cNames, jsonNames, List.map_map, List.map_map]
    rfl
  have hfree : ∀ s : List Byte, NulFree (cName s) := fun s b hb => by
    simpa using List.mem_takeWhile_imp hb
  obtain ⟨hin, hout⟩ := @resolveAttrs_spec (names.map cName) elems
    (fun a ha => by
      obtain ⟨b, -, rfl⟩ := List.mem_map.mp (helems ▸ ha)
      exact hfree _)
    (fun name hname => by
      obtain ⟨s, -, rfl⟩ := List.mem_map.mp hname
      exact hfree s)
  rw [hnames, hread, resolveAttrs_cName] at hin hout
  constructor
  · intro hinside
    obtain ⟨code, slots, heq, hcode, -⟩ := hin hinside
    refine ⟨code, slots, by rw [initSortAttrs, heq, Option.map_some], heq, ?_⟩
    rw [hcode, List.forall_mem_map]
  · intro hleaves
    rw [initSortAttrs, hout hleaves, Option.map_none]

/-- INTERNAL: a name that was not found leaves its slot unassigned.
SRCLINE: library.cc:50-53 -/
theorem none_mem_of_resolveAttrs {attrs : List Attribute} {names : List (List Byte)} {code : ℤ}
    {slots : List (Option ℕ)} (h : resolveAttrs attrs names = some (code, slots))
    (hcode : code ≠ 0) : none ∈ slots := by
  induction names generalizing slots with
  | nil =>
    cases h
    exact absurd rfl hcode
  | cons name names ih =>
    unfold resolveAttrs at h
    split at h
    · cases h
    · cases h
      exact List.mem_cons_self ..
    · obtain ⟨⟨code', rest⟩, hrest, heq⟩ := Option.map_eq_some_iff.mp h
      cases heq
      exact List.mem_cons_of_mem _ (ih hrest)

/-- INTERNAL: the schema can be printed exactly if every name is shorter than its buffer.
SRCLINE: msort.cc:28-35 -/
theorem namesEnd_iff {root : JsonArray} {schema : Schema}
    (hread : readSchema (some root) = some schema) :
    namesEnd schema = true ↔ ∀ name ∈ cNames root, name.length < 255 := by
  have hends : ∀ s : List Byte, 0 ∈ strncpy s 255 ↔ (cName s).length < 255 := by
    intro s
    have hnot : (0 : Byte) ∉ cstr s 255 := fun h => nulFree_cstr s 255 0 h rfl
    rw [strncpy, List.mem_append, List.mem_replicate, or_iff_right hnot, and_iff_left rfl,
      cstr_eq_take, List.length_take, ← cName]
    omega
  cases hread
  simp only [namesEnd, List.all_map, List.all_eq_true, Function.comp_apply, readAttribute,
    List.contains_iff_mem, hends, cNames, jsonNames, List.map_map, List.forall_mem_map]
  rfl

end Names

section Programs

variable {root : JsonArray} {schema : Schema}

/-- INTERNAL: **the loop inserts nothing** exactly of a file without a newline that is shorter than
the bound of `fgets`. -/
theorem wholeChunks_eq_nil_iff (hpos : 0 < lineBound schema) (contents : List Byte) :
    wholeChunks schema contents = [] ↔ 10 ∉ contents ∧ contents.length < lineBound schema := by
  rcases eq_or_ne contents [] with rfl | hne
  · exact iff_of_true rfl ⟨List.not_mem_nil, hpos⟩
  · rw [wholeChunks, fileChunks, lineChunks_eq_cons hpos hne]
    constructor
    · intro hnil
      have hcut : ¬ WholeChunk (lineBound schema)
          (File.upToNewline (contents.take (lineBound schema))) := by
        simpa using List.filter_eq_nil_iff.mp hnil _ (List.mem_cons_self ..)
      rw [wholeChunk_iff, not_not] at hcut
      rw [upToNewline_eq_self hcut.2, List.length_take] at hcut
      have hlt : contents.length < lineBound schema := by omega
      rw [List.take_of_length_le hlt.le] at hcut
      exact ⟨hcut.2, hlt⟩
    · rintro ⟨hno, hlt⟩
      have hline : File.upToNewline contents = contents :=
        upToNewline_eq_self fun h => hno ((upToNewline_isPrefixOf contents).subset h)
      have hcut := (wholeChunk_iff (lineBound schema) contents).not.mpr
      rw [List.take_of_length_le hlt.le, hline] at hcut ⊢
      rw [List.drop_length, lineChunks,
        List.filter_cons_of_neg (by simpa using hcut (not_not.mpr ⟨hlt, hno⟩)), List.filter_nil]

/-- INTERNAL: a loop with an unassigned slot ends exactly if it inserts nothing.
SRCLINE: bsort.cc:71-83 -/
theorem loadReturns_iff_of_none_mem (hnone : none ∈ schema.sortAttrs) (stack : ℕ → Byte)
    (contents : List Byte) :
    LoadReturns schema stack contents ↔
      10 ∉ contents ∧ (contents.length + 1 : ℤ) < toInt (schema.recordSize + 2) := by
  have hbound : (contents.length + 1 : ℤ) < toInt (schema.recordSize + 2) ↔
      2 ≤ toInt (schema.recordSize + 2) ∧ contents.length < lineBound schema := by
    unfold lineBound
    generalize toInt (schema.recordSize + 2) = x
    omega
  rw [hbound]
  constructor
  · intro h
    have hnil : wholeChunks schema contents = [] := by
      by_contra hne
      exact (h.keys 0 (List.length_pos_of_ne_nil hne)).2.assigned hnone
    have hshort := (wholeChunks_eq_nil_iff (toInt_eq_lineBound h.bound).2 contents).mp hnil
    exact ⟨hshort.1, h.bound, hshort.2⟩
  · rintro ⟨hno, htwo, hlt⟩
    refine ⟨htwo, fun i hi => ?_⟩
    rw [(wholeChunks_eq_nil_iff (toInt_eq_lineBound htwo).2 contents).mpr ⟨hno, hlt⟩] at hi
    exact absurd hi (Nat.not_lt_zero i)

/-- INTERNAL: there is a name to look up. -/
theorem ne_nil_of_missing {names : List (List Byte)}
    (hmissing : ∃ name ∈ names, cName name ∉ cNames root) : names ≠ [] := by
  rintro rfl
  obtain ⟨name, hname, -⟩ := hmissing
  cases hname

/-- INTERNAL: **the merge sort** stops at a missing name, if it gets through printing the schema.
SRCLINE: msort.cc:28-40 -/
theorem msort_missing_iff {args : MsortArgs} (hjson : args.schema = some root)
    (hread : readSchema (some root) = some schema)
    (hmissing : ∃ name ∈ args.sortAttrs, cName name ∉ cNames root) (env : Env)
    (fs : FileSystem) : MsortStops env args fs ↔ ∀ name ∈ cNames root, name.length < 255 := by
  have hmain := ne_nil_of_missing hmissing
  rw [← namesEnd_iff hread]
  by_cases hends : namesEnd schema
  · refine iff_of_true (fun fuel => ⟨2, ?_⟩) hends
    obtain ⟨code, slots, hinit, -, hcode⟩ := (initSortAttrs_spec hread args.sortAttrs).1
      (resolvesInside_of_short ((namesEnd_iff hread).mp hends) _)
    obtain ⟨name, hname, hnot⟩ := hmissing
    have hreport : code ≠ 0 := fun hzero => hnot (hcode.mp hzero name hname)
    rw [msort, if_neg hmain, hjson, hread]
    dsimp only
    rw [if_pos hends, hinit]
    dsimp only
    rw [if_pos hreport]
  · refine iff_of_false (fun hstops => ?_) hends
    obtain ⟨code, hrun⟩ := hstops 0
    rw [msort, if_neg hmain, hjson, hread] at hrun
    dsimp only at hrun
    rw [if_neg hends] at hrun
    cases hrun

/-- INTERNAL: **the tree sort** stops at a missing name only without an input file, and inserts
nothing only if its loop has nothing to insert.
SRCLINE: bsort.cc:26-36, bsort.cc:71-83 -/
theorem bsort_missing_iff {args : BsortArgs} (hjson : args.schema = some root)
    (hread : readSchema (some root) = some schema)
    (hmissing : ∃ name ∈ args.sortAttrs, cName name ∉ cNames root) (w : World) :
    (BsortInsertsNothing args w ↔
      ResolvesInside (cNames root) (args.sortAttrs.map cName) ∧
      (w.files args.inputFile = none ∨ 10 ∉ contentsRead args w.files ∧
        ((contentsRead args w.files).length + 1 : ℤ) < toInt (schema.recordSize + 2))) ∧
    (BsortWritesNothing args w ↔ BsortInsertsNothing args w ∧
      (w.files args.inputFile = none ∨ w.db.toList = [])) := by
  obtain ⟨files, D⟩ := w
  obtain ⟨hin, hout⟩ := initSortAttrs_spec hread args.sortAttrs
  have hmain := ne_nil_of_missing hmissing
  by_cases hinside : ResolvesInside (cNames root) (args.sortAttrs.map cName)
  · obtain ⟨code, slots, hinit, hslots, hcode⟩ := hin hinside
    obtain ⟨name, hname, hnot⟩ := hmissing
    have hreport : code ≠ 0 := fun hzero => hnot (hcode.mp hzero name hname)
    by_cases hinput : files args.inputFile = none
    · -- without an input file the program returns before it opens the index file
      have hrun : ∀ fuel stack, bsort fuel stack args ⟨files, D⟩ = some (3, ⟨files, D⟩) := by
        intro fuel stack
        rw [bsort, if_neg hmain, hjson, hread]
        dsimp only
        rw [hinit]
        dsimp only
        rw [hinput]
      have hnothing : BsortInsertsNothing args ⟨files, D⟩ := by
        refine fun stack => ⟨⟨0, 3, _, hrun 0 stack⟩, fun fuel code' w' h => ?_⟩
        rw [hrun] at h
        cases h
        rfl
      refine ⟨iff_of_true hnothing ⟨hinside, Or.inl hinput⟩,
        iff_of_true ⟨hnothing, fun fuel stack w' h => ?_⟩ ⟨hnothing, Or.inl hinput⟩⟩
      rw [hrun] at h
      cases h
    · have hopens : BsortOpens args files { schema with sortAttrs := slots } :=
        ⟨hmain, ⟨schema, code, hjson ▸ hread, hinit⟩, hinput⟩
      have hnone : none ∈ ({ schema with sortAttrs := slots } : Schema).sortAttrs :=
        none_mem_of_resolveAttrs hslots hreport
      have hload := fun stack =>
        loadReturns_iff_of_none_mem hnone stack (contentsRead args files)
      dsimp only at hload
      -- a loop that ends has put nothing
      have hdb : ∀ (fuel code' : ℕ) (stack : ℕ → Byte) (w' : World),
          bsort fuel stack args ⟨files, D⟩ = some (code', w') →
          w'.db = D ∧ w'.files args.outIndex = some (indexLines D) := by
        intro fuel code' stack w' hrun
        obtain ⟨-, hreturns, hdb, hindex⟩ := hopens.bsort_some hrun
        have hnil : wholeChunks { schema with sortAttrs := slots } (contentsRead args files) = [] := by
          by_contra hne
          exact (hreturns.keys 0 (List.length_pos_of_ne_nil hne)).2.assigned hnone
        rw [loadPuts, hnil, List.mapIdx_nil] at hdb
        exact ⟨hdb, by rw [hindex, hdb]; rfl⟩
      have hnothing : BsortInsertsNothing args ⟨files, D⟩ ↔
          10 ∉ contentsRead args files ∧
            ((contentsRead args files).length + 1 : ℤ) < toInt (schema.recordSize + 2) := by
        constructor
        · intro h
          obtain ⟨fuel, code', w', hrun⟩ := (h fun _ => 0).1
          exact (hload fun _ => 0).mp (hopens.bsort_some hrun).2.1
        · intro h stack
          obtain ⟨fuel, w', hrun⟩ := hopens.returns ((hload stack).mpr h) D
          exact ⟨⟨fuel, 0, w', hrun⟩, fun fuel code' w' hrun => (hdb fuel code' stack w' hrun).1⟩
      refine ⟨?_, and_congr_right fun hreturns => ?_⟩
      · rw [hnothing, and_iff_right hinside, or_iff_right hinput]
      · rw [or_iff_right hinput]
        constructor
        · intro hempty
          obtain ⟨fuel, code', w', hrun⟩ := (hreturns fun _ => 0).1
          obtain rfl := (hopens.bsort_some hrun).1
          have hlines := (hdb fuel 0 _ w' hrun).2.symm.trans (hempty fuel _ w' hrun)
          rw [Option.some_inj, indexLines, List.flatMap_eq_nil_iff] at hlines
          exact List.eq_nil_iff_forall_not_mem.mpr fun p hp => by simpa using hlines p hp
        · intro hempty fuel stack w' hrun
          rw [(hdb fuel 0 stack w' hrun).2, indexLines, hempty, List.flatMap_nil]
  · have hnone : ∀ fuel stack, bsort fuel stack args ⟨files, D⟩ = none := by
      intro fuel stack
      rw [bsort, if_neg hmain, hjson, hread]
      dsimp only
      rw [hout hinside]
    have hnever : ¬ BsortInsertsNothing args ⟨files, D⟩ := by
      intro h
      obtain ⟨fuel, code, w', hrun⟩ := (h fun _ => 0).1
      rw [hnone] at hrun
      cases hrun
    exact ⟨iff_of_false hnever fun h => hinside h.1, iff_of_false (fun h => hnever h.1) fun h =>
      hnever h.1⟩

end Programs

/-- SOURCE: library.cc:38-56, msort.cc:28-40, bsort.cc:26-36, bsort.cc:71-83 — **when a missing sort
attribute stops the programs.**  Let a name that is asked for not be that of an attribute of the
schema file.  The merge sort returns without creating a run if and only if all attribute names are
shorter than 255 bytes, so that it can print them.  The tree sort returns without reading an
unassigned slot and without inserting anything if and only if the look-up stays inside the name
buffers and there is no input file, or what is read of it has no newline and is shorter than one
`fgets` can deliver; and it then writes no line if and only if there is no input file or the
database is empty. -/
theorem missing_name_iff (root : JsonArray) (schema : Schema)
    (hread : readSchema (some root) = some schema) (margs : MsortArgs) (bargs : BsortArgs)
    (hm : margs.schema = some root) (hb : bargs.schema = some root)
    (hmissing : ∃ name ∈ margs.sortAttrs, cName name ∉ cNames root)
    (hmissing' : ∃ name ∈ bargs.sortAttrs, cName name ∉ cNames root) (env : Env)
    (fs : FileSystem) (w : World) :
    (MsortStops env margs fs ↔ ∀ name ∈ cNames root, name.length < 255) ∧
    (BsortInsertsNothing bargs w ↔
      ResolvesInside (cNames root) (bargs.sortAttrs.map cName) ∧
      (w.files bargs.inputFile = none ∨ 10 ∉ contentsRead bargs w.files ∧
        ((contentsRead bargs w.files).length + 1 : ℤ) < toInt (schema.recordSize + 2))) ∧
    (BsortWritesNothing bargs w ↔ BsortInsertsNothing bargs w ∧
      (w.files bargs.inputFile = none ∨ w.db.toList = [])) :=
  ⟨msort_missing_iff hm hread hmissing env fs, bsort_missing_iff hb hread hmissing' w⟩

/-- The command lines that sort letters by their attribute `a` and by one `b`, which they do not
have. -/
def sortByB : MsortArgs × BsortArgs :=
  ({ schema := some letterJson, inputFile := "in", outputFile := "out", memCapacity := 6, k := 2,
     sortAttrs := [[97], [98]] },
    { schema := some letterJson, inputFile := "in", outIndex := "out", sortAttrs := [[97], [98]] })

/-- INTERNAL: the second name is missing. -/
theorem sortByB_missing : ∃ name ∈ sortByB.2.sortAttrs, cName name ∉ cNames letterJson :=
  ⟨[98], by decide, by decide⟩

/-- A directory with a letter that has no newline. -/
def cutLetter : FileSystem := fun name => if name = "in" then some [97] else none

/-- On a letter that has no newline, and an empty database, neither program sorts. -/
theorem missing_name_letters :
    MsortStops zeroEnv sortByB.1 cutLetter ∧ BsortInsertsNothing sortByB.2 ⟨cutLetter, ∅⟩ ∧
      BsortWritesNothing sortByB.2 ⟨cutLetter, ∅⟩ := by
  obtain ⟨hmsort, hinserts, hwrites⟩ := missing_name_iff letterJson
    { letterSchema with sortAttrs := [] } (by decide +kernel) sortByB.1 sortByB.2 rfl rfl
    sortByB_missing sortByB_missing zeroEnv cutLetter ⟨cutLetter, ∅⟩
  have hshort : ∀ name ∈ cNames letterJson, name.length < 255 := by decide
  have hnothing := hinserts.mpr
    ⟨resolvesInside_of_short hshort _, Or.inr ⟨by decide +kernel, by decide +kernel⟩⟩
  exact ⟨hmsort.mpr hshort, hnothing, hwrites.mpr ⟨hnothing, Or.inr rfl⟩⟩

/-- With its newline, the letter brings the tree sort to the slot that was never assigned. -/
theorem missing_name_goes_on :
    (∃ name ∈ sortByB.2.sortAttrs, cName name ∉ cNames letterJson) ∧
    (∀ fuel stack, bsort fuel stack sortByB.2 ⟨inputOnly (letters 1), ∅⟩ = none) ∧
    ¬ BsortInsertsNothing sortByB.2 ⟨inputOnly (letters 1), ∅⟩ := by
  have hnone : ∀ fuel stack, bsort fuel stack sortByB.2 ⟨inputOnly (letters 1), ∅⟩ = none := by
    intro fuel stack
    cases fuel with
    | zero => rfl
    | succ fuel => rfl
  refine ⟨sortByB_missing, hnone, fun h => ?_⟩
  obtain ⟨fuel, code, w', hrun⟩ := (h fun _ => 0).1
  rw [hnone] at hrun
  cases hrun

end ExternalSort.Analysis
