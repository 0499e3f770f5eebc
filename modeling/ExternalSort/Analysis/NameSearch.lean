import ExternalSort.Analysis.SchemaLayout

/-!
# How a sort name is resolved

`read_schema` copies the name of an attribute with `strncpy` into 255 bytes, and a name of 255
bytes or more leaves no NUL there.  `init_sort_attrs` compares a requested name with the copy
by `strcmp`, which stops at the first difference or at a NUL.  So a comparison stays inside the
copy and tells whether the names are equal, unless the copy has no NUL and the requested name
begins with all of it (`strcmp_strncpy`).

A request is compared with the attributes one after the other up to the first that has its
name, and requests are resolved one after the other up to the first that no attribute has.
`SearchesInside` and `ResolvesInside` say of exactly these comparisons that they stay inside.
-/

set_option autoImplicit false

namespace ExternalSort.Analysis

open ExternalSort.Lib ExternalSort.Model

/-- The name of an attribute in the schema file.
SRCLINE: library.cc:20 -/
def jsonName (json : JsonAttribute) : List Byte := json.name.getD []

/-- The names of the attributes of a schema file, in their order. -/
def jsonNames (root : JsonArray) : List (List Byte) := root.elems.map jsonName

/-- A comparison with the first `n` bytes of a name does not end there: they have no NUL, and the
request begins with them.
SRCLINE: library.cc:19-20, library.cc:45 -/
def Overruns (n : ℕ) (request name : List Byte) : Prop :=
  n ≤ name.length ∧ request.take n = name.take n

/-- The search for one name stays inside the buffers, up to the first attribute that has it.
SRCLINE: library.cc:44-49 -/
def SearchesInside (request : List Byte) (attrNames : List (List Byte)) : Prop :=
  ∀ passed name rest, attrNames = passed ++ name :: rest → request ∉ passed →
    ¬ Overruns 255 request name

/-- All searches stay inside the buffers, up to the first name that no attribute has.
SRCLINE: library.cc:42-54 -/
def ResolvesInside (attrNames requests : List (List Byte)) : Prop :=
  ∀ found request rest, requests = found ++ request :: rest → (∀ name ∈ found, name ∈ attrNames) →
    SearchesInside request attrNames

/-- The requested names are resolved by attribute name: no byte outside a name buffer is
compared, all names are found exactly if each is the name of an attribute, and then every slot
holds the least index of an attribute with that name.
SRCLINE: library.cc:38-56 -/
def ResolvesByName (root : JsonArray) (requests : List (List Byte)) : Prop :=
  ∃ schema code schema', readSchema (some root) = some schema ∧
    initSortAttrs schema requests = some (code, schema') ∧
    (code = 0 ↔ ∀ request ∈ requests, request ∈ jsonNames root) ∧
    (code = 0 → schema'.sortAttrs.length = requests.length ∧
      ∀ (i : ℕ) request, requests[i]? = some request → ∃ j, schema'.sortAttrs[i]? = some (some j) ∧
        IsLeast {j | (jsonNames root)[j]? = some request} j)

section Compare

variable {request name : List Byte}

/-- INTERNAL: a copy, from its first byte on. -/
theorem strncpy_cons {b : Byte} (hb : b ≠ 0) (s : List Byte) (n : ℕ) :
    strncpy (b :: s) (n + 1) = b :: strncpy s n := by
  rw [strncpy, strncpy, cstr_succ, List.headD_cons, if_neg hb, List.tail_cons, List.length_cons,
    Nat.add_sub_add_right, List.cons_append]

/-- INTERNAL: a first byte that agrees changes nothing. -/
theorem overruns_cons (n : ℕ) (b : Byte) :
    Overruns (n + 1) (b :: request) (b :: name) ↔ Overruns n request name := by
  simp [Overruns]

/-- INTERNAL: **one comparison.**  It leaves the buffer exactly if the names agree in all of it,
and otherwise tells whether they are equal.
SRCLINE: library.cc:45 -/
theorem strcmp_strncpy (hrequest : NulFree request) (hname : NulFree name) (n : ℕ) :
    (Overruns n request name → strcmp request (strncpy name n) = none) ∧
    (¬ Overruns n request name →
      ∃ v, strcmp request (strncpy name n) = some v ∧ (v = 0 ↔ request = name)) := by
  induction n generalizing request name with
  | zero =>
    refine ⟨fun _ => ?_, fun h => absurd ⟨Nat.zero_le _, rfl⟩ h⟩
    cases request <;> rfl
  | succ n ih =>
    cases name with
    | nil =>
      -- the NUL is the first byte of the copy, and no byte of the request is one
      refine ⟨fun h => absurd h.1 (Nat.not_succ_le_zero n), fun _ => ?_⟩
      have hcopy : strncpy [] (n + 1) = 0 :: List.replicate n 0 := by
        simp [strncpy, cstr, List.replicate_succ]
      rw [hcopy]
      cases request with
      | nil => exact ⟨0, rfl, by simp⟩
      | cons x request =>
        have hx : x ≠ 0 := hrequest x (List.mem_cons_self ..)
        refine ⟨_, if_pos hx, ?_⟩
        simp [hx]
    | cons y name =>
      have hy : y ≠ 0 := hname y (List.mem_cons_self ..)
      rw [strncpy_cons hy]
      cases request with
      | nil =>
        refine ⟨fun h => by simp [Overruns] at h, fun _ => ⟨_, rfl, ?_⟩⟩
        simp [hy]
      | cons x request =>
        have hx : x ≠ 0 := hrequest x (List.mem_cons_self ..)
        by_cases hxy : x = y
        · subst hxy
          have hstep : strcmp (x :: request) (x :: strncpy name n) =
              strcmp request (strncpy name n) := by
            rw [strcmp, if_neg (not_not.mpr rfl), if_neg hx]
          rw [hstep, overruns_cons, List.cons_inj_right]
          exact ih (fun b hb => hrequest b (List.mem_cons_of_mem _ hb))
            (fun b hb => hname b (List.mem_cons_of_mem _ hb))
        · refine ⟨fun h => ?_, fun _ => ⟨_, if_pos hxy, ?_⟩⟩
          · exact absurd (List.cons.inj h.2).1 hxy
          · have hval : (x : ℕ) ≠ (y : ℕ) := fun h => hxy (Fin.ext h)
            simp only [List.cons.injEq, hxy, false_and, iff_false]
            omega

end Compare

section Search

variable {request name : List Byte} {attrNames requests : List (List Byte)}

/-- INTERNAL: the search for a name goes on behind an attribute that does not have it. -/
theorem searchesInside_cons :
    SearchesInside request (name :: attrNames) ↔
      ¬ Overruns 255 request name ∧ (request ≠ name → SearchesInside request attrNames) := by
  constructor
  · intro h
    refine ⟨h [] name attrNames rfl List.not_mem_nil, fun hne passed other rest heq hnot => ?_⟩
    apply h (name :: passed) other rest
    · rw [heq, List.cons_append]
    · rw [List.mem_cons, not_or]
      exact ⟨hne, hnot⟩
  · rintro ⟨hfirst, hrest⟩ passed other rest heq hnot
    cases passed with
    | nil =>
      obtain ⟨rfl, rfl⟩ := List.cons.inj heq
      exact hfirst
    | cons p passed =>
      obtain ⟨rfl, htail⟩ := List.cons.inj heq
      rw [List.mem_cons, not_or] at hnot
      exact hrest hnot.1 passed other rest htail hnot.2

/-- INTERNAL: the requests go on behind one that is found. -/
theorem resolvesInside_cons :
    ResolvesInside attrNames (request :: requests) ↔
      SearchesInside request attrNames ∧
        (request ∈ attrNames → ResolvesInside attrNames requests) := by
  constructor
  · intro h
    refine ⟨h [] request requests rfl (by simp), fun hmem found other rest heq hfound => ?_⟩
    apply h (request :: found) other rest
    · rw [heq, List.cons_append]
    · rw [List.forall_mem_cons]
      exact ⟨hmem, hfound⟩
  · rintro ⟨hfirst, hrest⟩ found other rest heq hfound
    cases found with
    | nil =>
      obtain ⟨rfl, rfl⟩ := List.cons.inj heq
      exact hfirst
    | cons p found =>
      obtain ⟨rfl, htail⟩ := List.cons.inj heq
      rw [List.forall_mem_cons] at hfound
      exact hrest hfound.1 found other rest htail hfound.2

/-- INTERNAL: **the search for one name** finds the first attribute that has it, if it stays
inside the buffers, and has no result if it does not.
SRCLINE: library.cc:43-49 -/
theorem findAttr_spec (elems : List JsonAttribute) (hrequest : NulFree request)
    (helems : ∀ a ∈ elems, NulFree (jsonName a)) (j : ℕ) :
    (SearchesInside request (elems.map jsonName) →
      findAttr request (elems.map readAttribute) j =
        some (if request ∈ elems.map jsonName
          then some (j + (elems.map jsonName).idxOf request) else none)) ∧
    (¬ SearchesInside request (elems.map jsonName) →
      findAttr request (elems.map readAttribute) j = none) := by
  induction elems generalizing j with
  | nil =>
    refine ⟨fun _ => rfl, fun h => absurd ?_ h⟩
    intro passed name rest heq
    simp at heq
  | cons a elems ih =>
    obtain ⟨ha, helems⟩ := List.forall_mem_cons.mp helems
    obtain ⟨hleaves, hstays⟩ := strcmp_strncpy hrequest ha 255
    obtain ⟨ihin, ihout⟩ := ih helems (j + 1)
    have hbuffer : (readAttribute a).name = strncpy (jsonName a) 255 := rfl
    simp only [List.map_cons, findAttr, hbuffer, searchesInside_cons]
    by_cases hover : Overruns 255 request (jsonName a)
    · rw [hleaves hover]
      exact ⟨fun h => absurd hover h.1, fun _ => rfl⟩
    · obtain ⟨v, hv, hzero⟩ := hstays hover
      rw [hv]
      by_cases heq : request = jsonName a
      · refine ⟨fun _ => ?_, fun h => absurd ⟨hover, fun hne => absurd heq hne⟩ h⟩
        simp [hzero.mpr heq, heq]
      · have hne : v ≠ 0 := fun h0 => heq (hzero.mp h0)
        simp only [if_neg hne, hover, not_false_eq_true, true_and, ne_eq, heq,
          forall_const, List.mem_cons, false_or]
        refine ⟨fun hin => ?_, ihout⟩
        rw [ihin hin, List.idxOf_cons_ne _ (Ne.symm heq), Nat.add_assoc, Nat.add_comm 1]

/-- INTERNAL: **the search for all names**, in the same way.
SRCLINE: library.cc:41-55 -/
theorem resolveAttrs_spec (elems : List JsonAttribute) (helems : ∀ a ∈ elems, NulFree (jsonName a))
    (hrequests : ∀ request ∈ requests, NulFree request) :
    (ResolvesInside (elems.map jsonName) requests →
      ∃ code slots, resolveAttrs (elems.map readAttribute) requests = some (code, slots) ∧
        (code = 0 ↔ ∀ request ∈ requests, request ∈ elems.map jsonName) ∧
        (code = 0 → slots = requests.map fun request =>
          some ((elems.map jsonName).idxOf request))) ∧
    (¬ ResolvesInside (elems.map jsonName) requests →
      resolveAttrs (elems.map readAttribute) requests = none) := by
  induction requests with
  | nil =>
    refine ⟨fun _ => ⟨0, [], rfl, by simp, fun _ => rfl⟩, fun h => absurd ?_ h⟩
    intro found request rest heq
    simp at heq
  | cons request requests ih =>
    obtain ⟨hrequest, hrequests⟩ := List.forall_mem_cons.mp hrequests
    obtain ⟨hin, hout⟩ := findAttr_spec elems hrequest helems 0
    obtain ⟨ihin, ihout⟩ := ih hrequests
    rw [resolvesInside_cons, resolveAttrs]
    by_cases hsearch : SearchesInside request (elems.map jsonName)
    · rw [hin hsearch, Nat.zero_add]
      by_cases hmem : request ∈ elems.map jsonName
      · rw [if_pos hmem]
        dsimp only
        constructor
        · rintro ⟨-, hrest⟩
          obtain ⟨code, slots, heq, hcode, hslots⟩ := ihin (hrest hmem)
          refine ⟨code, some ((elems.map jsonName).idxOf request) :: slots, ?_, ?_, fun h0 => ?_⟩
          · rw [heq, Option.map_some]
          · rw [hcode, List.forall_mem_cons, and_iff_right hmem]
          · rw [hslots h0, List.map_cons]
        · intro h
          rw [ihout fun hrest => h ⟨hsearch, fun _ => hrest⟩, Option.map_none]
      · rw [if_neg hmem]
        refine ⟨fun _ => ⟨1, _, rfl, ?_, fun h => absurd h one_ne_zero⟩, fun h => ?_⟩
        · rw [List.forall_mem_cons]
          exact iff_of_false one_ne_zero fun h => hmem h.1
        · exact absurd ⟨hsearch, fun h => absurd h hmem⟩ h
    · rw [hout hsearch]
      exact ⟨fun h => absurd h.1 hsearch, fun _ => rfl⟩

end Search

/-- INTERNAL: no comparison with names of less than 255 bytes leaves their buffers. -/
theorem resolvesInside_of_short {attrNames : List (List Byte)}
    (h : ∀ name ∈ attrNames, name.length < 255) (requests : List (List Byte)) :
    ResolvesInside attrNames requests := by
  intro found request rest _ _ passed name others heq _ hover
  have hshort : name.length < 255 := by
    apply h
    rw [heq]
    exact List.mem_append_right _ (List.mem_cons_self ..)
  exact absurd hover.1 (not_le.mpr hshort)

/-- INTERNAL: the first index of a name is the least at which it stands. -/
theorem isLeast_idxOf {request : List Byte} {attrNames : List (List Byte)}
    (h : request ∈ attrNames) :
    IsLeast {j | attrNames[j]? = some request} (attrNames.idxOf request) := by
  refine ⟨List.getElem?_idxOf h, fun j hj => ?_⟩
  obtain ⟨hlt, heq⟩ := List.getElem?_eq_some_iff.mp hj
  by_contra hbefore
  have hnot := List.not_of_lt_findIdx (not_le.mp hbefore)
  simp [heq] at hnot

/-- SOURCE: library.cc:15-56 — **when sort names are resolved by attribute name.**  For names
without NULs, of any length: no byte outside a name buffer is compared, all requests are found
exactly if each is the name of an attribute, and each then gets the least index, if and only if
no request that is searched for begins with the first 255 bytes of an attribute name that is
at least that long and is passed on the way to its own. -/
theorem names_resolve_iff (root : JsonArray) (requests : List (List Byte))
    (hnames : ∀ name ∈ jsonNames root, NulFree name)
    (hrequests : ∀ request ∈ requests, NulFree request) :
    ResolvesByName root requests ↔ ResolvesInside (jsonNames root) requests := by
  have helems : ∀ a ∈ root.elems, NulFree (jsonName a) := fun a ha =>
    hnames _ (List.mem_map_of_mem ha)
  obtain ⟨hin, hout⟩ := resolveAttrs_spec root.elems helems hrequests
  constructor
  · rintro ⟨schema, code, schema', hread, hinit, -⟩
    by_contra hleaves
    cases hread
    rw [initSortAttrs, hout hleaves] at hinit
    exact Option.some_ne_none _ hinit.symm
  · intro hinside
    obtain ⟨code, slots, heq, hcode, hslots⟩ := hin hinside
    refine ⟨_, code, _, rfl, by rw [initSortAttrs, heq]; rfl, hcode, fun h0 => ?_⟩
    dsimp only
    rw [hslots h0]
    refine ⟨List.length_map _, fun i request hi => ?_⟩
    have hmem := hcode.mp h0 request (List.mem_of_getElem? hi)
    refine ⟨(jsonNames root).idxOf request, ?_, isLeast_idxOf hmem⟩
    rw [List.getElem?_map, hi, Option.map_some]
    rfl

/-- A schema file with a name of 254 bytes, one that is a part of it, and one that occurs twice. -/
def namesJson : JsonArray :=
  ⟨[⟨some (List.replicate 254 97), none, some 1, none⟩, ⟨some [98], none, some 2, none⟩,
    ⟨some [97, 97], none, some 3, none⟩, ⟨some [98], none, some 4, none⟩], by decide⟩

/-- All of its names are resolved, in any order and more than once. -/
theorem names_resolve_four :
    ResolvesByName namesJson [[97, 97], [98], List.replicate 254 97, [98], [97, 97]] := by
  apply (names_resolve_iff namesJson _ (by decide +kernel) (by decide +kernel)).mpr
  apply resolvesInside_of_short
  decide +kernel

/-- A schema file with one attribute, whose name fills its buffer. -/
def fullName : JsonArray := ⟨[⟨some (List.replicate 255 97), none, some 1, none⟩], by decide⟩

/-- Its schema. -/
def fullNameSchema : Schema := ⟨fullName.elems.map readAttribute, [], 2⟩

/-- A name of 255 bytes is the name of the attribute, and comparing the two goes on behind the
buffer. -/
theorem full_name_overruns :
    List.replicate 255 97 ∈ jsonNames fullName ∧
    readSchema (some fullName) = some fullNameSchema ∧
    initSortAttrs fullNameSchema [List.replicate 255 97] = none ∧
    ¬ ResolvesByName fullName [List.replicate 255 97] := by
  have hread : readSchema (some fullName) = some fullNameSchema := by decide +kernel
  have hnone : initSortAttrs fullNameSchema [List.replicate 255 97] = none := by decide +kernel
  refine ⟨List.mem_singleton_self _, hread, hnone, ?_⟩
  rintro ⟨schema, code, schema', hread', hinit, -⟩
  obtain rfl : schema = fullNameSchema := Option.some.inj (hread'.symm.trans hread)
  exact Option.some_ne_none _ (hinit.symm.trans hnone)

end ExternalSort.Analysis
