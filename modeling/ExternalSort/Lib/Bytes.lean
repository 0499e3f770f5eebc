import Mathlib.Data.List.Lex
import Mathlib.Order.Fin.Basic
import Mathlib.Data.List.TakeWhile
import Mathlib.Tactic

/-!
# Byte sequences and the bounded C string functions

Memory and file contents are lists of bytes.  `cstr s n` is the C string found at
the front of `s` when at most `n` bytes are looked at: it stops at the first NUL.
`strncpy` and `strncmp` are the two library functions with that bound; the first
pads with NULs, the second compares unsigned bytes and stops at a common NUL.

`strncmp_spec` says that `strncmp` is the lexicographic comparison of the two strings
`cstr`, so every order fact about it is a fact about Mathlib's order on lists.
`overwrite` is the one primitive that changes a byte sequence in place; files and
buffers both use it.
-/

set_option autoImplicit false

namespace ExternalSort.Lib

/-- INTERNAL: a byte, compared as an `unsigned char`. -/
abbrev Byte := Fin 256

-- named, so that every numeral of type Byte refers to one proof
/-- INTERNAL: there are bytes. -/
instance neZeroByte : NeZero 256 := ⟨by decide⟩

/-- INTERNAL: the C string at the front of `s`, at most `n` bytes of it. -/
def cstr (s : List Byte) (n : ℕ) : List Byte :=
  (s.take n).takeWhile (· ≠ 0)

/-- INTERNAL: the `n` bytes `strncpy` stores: the string, then NULs. -/
def strncpy (src : List Byte) (n : ℕ) : List Byte :=
  cstr src n ++ List.replicate (n - (cstr src n).length) 0

/-- INTERNAL: `strncmp`: the difference of the first two bytes that differ, or `0`
when the strings agree up to a NUL or for `n` bytes. -/
def strncmp : List Byte → List Byte → ℕ → ℤ
  | _, _, 0 => 0
  | a, b, n + 1 =>
      if a.headD 0 ≠ b.headD 0 then ((a.headD 0 : ℕ) : ℤ) - ((b.headD 0 : ℕ) : ℤ)
      else if a.headD 0 = 0 then 0
      else strncmp a.tail b.tail n

/-- INTERNAL: store `data` over `s` from index `pos` on.  A gap before `pos` reads as
NULs, as it does in a file; storing nothing changes nothing. -/
def overwrite (s : List Byte) (pos : ℕ) (data : List Byte) : List Byte :=
  if data = [] then s
  else s.take pos ++ List.replicate (pos - s.length) 0 ++ data ++ s.drop (pos + data.length)

/-- INTERNAL: every byte is different from NUL. -/
def NulFree (s : List Byte) : Prop := ∀ b ∈ s, b ≠ 0

/-- INTERNAL: it can be decided whether there is a NUL. -/
instance (s : List Byte) : Decidable (NulFree s) :=
  inferInstanceAs (Decidable (∀ b ∈ s, b ≠ 0))

/-! ## NUL-free sequences -/

/-- INTERNAL: a part of a NUL-free sequence is NUL-free. -/
theorem NulFree.sublist {s t : List Byte} (h : NulFree t) (hs : s.Sublist t) : NulFree s :=
  fun b hb => h b (hs.subset hb)

/-- INTERNAL: a NUL-free sequence has no NUL to stop at, so its C string is cut by the
bound alone. -/
theorem cstr_of_nulFree {s : List Byte} (h : NulFree s) (n : ℕ) : cstr s n = s.take n := by
  unfold cstr
  rw [List.takeWhile_eq_self_iff]
  intro b hb
  simpa using h b (List.take_subset n s hb)

/-- INTERNAL: a string ends at the first NUL. -/
theorem cstr_append_nul (s rest : List Byte) {n : ℕ} (hn : s.length < n) :
    cstr (s ++ 0 :: rest) n = s.takeWhile (· ≠ 0) := by
  obtain ⟨m, rfl⟩ : ∃ m, n = s.length + (m + 1) := ⟨n - s.length - 1, by omega⟩
  rw [cstr, List.take_length_add_append, List.take_succ_cons, List.takeWhile_append]
  split_ifs with hlen
  · rw [(List.takeWhile_sublist _).eq_of_length hlen]
    simp
  · rfl

/-- INTERNAL: `strncpy` of `n` NUL-free bytes is a plain copy. -/
theorem strncpy_of_nulFree {s : List Byte} {n : ℕ} (h : NulFree (s.take n))
    (hn : n ≤ s.length) : strncpy s n = s.take n := by
  have hc : cstr s n = s.take n := by
    have := cstr_of_nulFree h n
    simpa [cstr, List.take_take] using this
  unfold strncpy
  rw [hc, List.length_take, min_eq_left hn, Nat.sub_self]
  simp

/-- INTERNAL: `strncpy` looks at no more than `n` bytes. -/
theorem strncpy_take (s : List Byte) (n : ℕ) : strncpy (s.take n) n = strncpy s n := by
  simp only [strncpy, cstr, List.take_take, min_self]

/-- INTERNAL: `strncpy` always stores exactly `n` bytes. -/
@[simp] theorem length_strncpy (s : List Byte) (n : ℕ) : (strncpy s n).length = n := by
  have hle : (cstr s n).length ≤ n :=
    ((List.takeWhile_sublist _).length_le).trans (List.length_take_le n s)
  simp only [strncpy, List.length_append, List.length_replicate]
  omega

/-- INTERNAL: no NUL is in front of the end of a string. -/
theorem nulFree_cstr (s : List Byte) (n : ℕ) : NulFree (cstr s n) := by
  intro b hb
  simpa using List.mem_takeWhile_imp (p := fun b : Byte => decide (b ≠ 0)) hb

/-- INTERNAL: a copy is read back up to its NUL. -/
theorem takeWhile_strncpy (s : List Byte) (n : ℕ) :
    (strncpy s n).takeWhile (· ≠ 0) = cstr s n := by
  rw [strncpy, List.takeWhile_append_of_pos (by simpa [NulFree] using nulFree_cstr s n)]
  cases n - (cstr s n).length <;> simp [List.replicate_succ]

/-- INTERNAL: copying a copy changes nothing. -/
theorem strncpy_strncpy (s : List Byte) (n : ℕ) : strncpy (strncpy s n) n = strncpy s n := by
  have hc : cstr (strncpy s n) n = cstr s n := by
    rw [cstr, List.take_of_length_le (length_strncpy s n).le, takeWhile_strncpy]
  rw [strncpy, hc, strncpy]

/-! ## `strncmp` is the lexicographic comparison -/

/-- INTERNAL: the C string of a sequence, read off its first byte. -/
theorem cstr_succ (s : List Byte) (n : ℕ) :
    cstr s (n + 1) = if s.headD 0 = 0 then [] else s.headD 0 :: cstr s.tail n := by
  cases s with
  | nil => simp [cstr]
  | cons b s =>
    by_cases hb : b = 0
    · simp [cstr, hb]
    · simp [cstr, hb]

/-- INTERNAL: it does not matter whether the NUL or the bound is looked for first. -/
theorem cstr_eq_take (s : List Byte) (n : ℕ) : cstr s n = (s.takeWhile (· ≠ 0)).take n := by
  induction n generalizing s with
  | zero => rfl
  | succ n ih =>
    cases s with
    | nil => rfl
    | cons b s =>
      rw [cstr_succ, List.headD_cons, List.tail_cons, ih]
      by_cases hb : b = 0
      · simp [hb]
      · simp [hb]

/-- INTERNAL: two strings whose first bytes differ are ordered by these bytes, also when
one of the bytes is the NUL that ends its string. -/
theorem cut_lt_iff {x y : Byte} (hne : x ≠ y) (s t : List Byte) :
    (if x = 0 then [] else x :: s) < (if y = 0 then [] else y :: t) ↔ x < y := by
  by_cases hx : x = 0
  · have hy : y ≠ 0 := fun h => hne (hx.trans h.symm)
    rw [if_pos hx, if_neg hy, hx]
    exact ⟨fun _ => Fin.pos_iff_ne_zero.mpr hy, fun _ => List.nil_lt_cons _ _⟩
  · rw [if_neg hx]
    by_cases hy : y = 0
    · rw [if_pos hy, hy]
      exact ⟨fun h => absurd h (List.not_lt_nil _), fun h => absurd h (Fin.not_lt_zero x)⟩
    · rw [if_neg hy, List.cons_lt_cons_iff]
      exact ⟨fun h => h.resolve_right fun h' => hne h'.1, Or.inl⟩

/-- INTERNAL: one induction gives the negative and the zero outcome of `strncmp`. -/
theorem strncmp_spec (a b : List Byte) (n : ℕ) :
    (strncmp a b n < 0 ↔ cstr a n < cstr b n) ∧ (strncmp a b n = 0 ↔ cstr a n = cstr b n) := by
  induction n generalizing a b with
  | zero => simp [strncmp, cstr]
  | succ n ih =>
    rw [cstr_succ, cstr_succ]
    simp only [strncmp]
    by_cases hne : a.headD 0 = b.headD 0
    · rw [if_neg (not_not.mpr hne), ← hne]
      by_cases hz : a.headD 0 = 0
      · simp only [if_pos hz]
        simp
      · obtain ⟨hlt, heq⟩ := ih a.tail b.tail
        simp only [if_neg hz]
        refine ⟨hlt.trans ?_, heq.trans ?_⟩
        · rw [List.cons_lt_cons_iff]
          exact ⟨fun h => Or.inr ⟨rfl, h⟩, fun h => h.elim (fun h' => absurd h' (lt_irrefl _)) And.right⟩
        · simp only [List.cons.injEq, true_and]
    · rw [if_pos hne, cut_lt_iff hne]
      refine ⟨?_, ?_⟩
      · rw [Fin.lt_def]
        omega
      · constructor
        · intro h
          exact absurd (Fin.ext (by omega)) hne
        · -- equal strings would give equal first bytes, NUL or not
          intro h
          rcases lt_or_gt_of_ne hne with hlt | hlt
          · exact absurd h ((cut_lt_iff hne _ _).mpr hlt).ne
          · exact absurd h ((cut_lt_iff (Ne.symm hne) _ _).mpr hlt).ne'

/-! ## Storing in place -/

/-- INTERNAL: storing at the end of what is there appends. -/
theorem overwrite_length (s data : List Byte) : overwrite s s.length data = s ++ data := by
  unfold overwrite
  split_ifs with h
  · simp [h]
  · simp

/-- INTERNAL: two stores, the second right after the first, are one store. -/
theorem overwrite_overwrite (s x y : List Byte) (pos : ℕ) :
    overwrite (overwrite s pos x) (pos + x.length) y = overwrite s pos (x ++ y) := by
  by_cases hx : x = []
  · subst hx; simp [overwrite]
  by_cases hy : y = []
  · subst hy; simp [overwrite, hx]
  have hxy : x ++ y ≠ [] := by simp [hx]
  simp only [overwrite, hx, hy, hxy, if_false]
  set front := s.take pos ++ List.replicate (pos - s.length) 0 with hf
  have hfl : front.length = pos := by
    simp only [hf, List.length_append, List.length_take, List.length_replicate]
    omega
  have htake : (front ++ x ++ s.drop (pos + x.length)).take (pos + x.length) = front ++ x := by
    rw [List.take_append_of_le_length (by simp [hfl])]
    exact List.take_of_length_le (by simp [hfl])
  have hdrop : (front ++ x ++ s.drop (pos + x.length)).drop (pos + x.length + y.length) =
      s.drop (pos + (x ++ y).length) := by
    rw [List.drop_append, List.drop_eq_nil_of_le (by simp [hfl])]
    simp only [List.length_append, hfl, List.nil_append, List.drop_drop]
    congr 1
    omega
  have hgap : pos + x.length - (front ++ x ++ s.drop (pos + x.length)).length = 0 := by
    simp only [List.length_append, hfl]
    omega
  rw [htake, hdrop, hgap]
  simp

/-- INTERNAL: the bytes before a store are left alone. -/
theorem take_overwrite (s data : List Byte) {pos n : ℕ} (hn : n ≤ pos) (hs : n ≤ s.length) :
    (overwrite s pos data).take n = s.take n := by
  unfold overwrite
  split_ifs with h
  · rfl
  · have hl : n ≤ (s.take pos).length := by simp; omega
    rw [List.append_assoc, List.append_assoc, List.take_append_of_le_length hl, List.take_take,
      min_eq_left hn]

/-- INTERNAL: the bytes after a store are left alone. -/
theorem drop_overwrite (s data : List Byte) {pos n : ℕ} (hn : pos + data.length ≤ n)
    (hs : pos ≤ s.length) : (overwrite s pos data).drop n = s.drop n := by
  unfold overwrite
  split_ifs with h
  · rfl
  · have hgap : pos - s.length = 0 := by omega
    have hlen : (s.take pos).length = pos := by simp [hs]
    rw [hgap, List.replicate_zero, List.append_nil, List.drop_append,
      List.drop_eq_nil_of_le (by simp; omega), List.nil_append, List.drop_drop]
    congr 1
    simp only [List.length_append, hlen]
    omega

/-- INTERNAL: the bytes stored at the front are what is there. -/
theorem take_overwrite_zero (s data : List Byte) :
    (overwrite s 0 data).take data.length = data := by
  unfold overwrite
  split_ifs with h
  · simp [h]
  · simp

/-- INTERNAL: storing inside a buffer keeps its length. -/
theorem length_overwrite (s data : List Byte) {pos : ℕ} (h : pos + data.length ≤ s.length) :
    (overwrite s pos data).length = s.length := by
  unfold overwrite
  split_ifs
  · rfl
  · simp only [List.length_append, List.length_take, List.length_replicate, List.length_drop]
    omega

/-- INTERNAL: a store inside a buffer, place by place. -/
theorem getElem?_overwrite {s data : List Byte} {pos : ℕ} (h : pos + data.length ≤ s.length)
    (p : ℕ) : (overwrite s pos data)[p]? =
      if pos ≤ p ∧ p < pos + data.length then data[p - pos]? else s[p]? := by
  unfold overwrite
  split_ifs with hdata hp hp
  · simp [hdata] at hp
    omega
  · rfl
  · rw [show pos - s.length = 0 by omega, List.replicate_zero, List.append_nil,
      List.append_assoc, List.getElem?_append_right (by simp; omega),
      List.getElem?_append_left (by simp; omega), List.length_take, min_eq_left (by omega)]
  · rw [show pos - s.length = 0 by omega, List.replicate_zero, List.append_nil, List.append_assoc]
    by_cases hlt : p < pos
    · rw [List.getElem?_append_left (by simp; omega), List.getElem?_take_of_lt hlt]
    · rw [List.getElem?_append_right (by simp; omega), List.getElem?_append_right (by simp; omega),
        List.getElem?_drop, List.length_take, min_eq_left (by omega)]
      congr 1
      omega

/-- INTERNAL: a store into a buffer that is given place by place. -/
theorem overwrite_map_range (byte : ℕ → Byte) {size pos : ℕ} {data : List Byte}
    (h : pos + data.length ≤ size) :
    overwrite ((List.range size).map byte) pos data = (List.range size).map fun p =>
      if pos ≤ p ∧ p < pos + data.length then data.getD (p - pos) 0 else byte p := by
  apply List.ext_getElem?
  intro p
  rw [getElem?_overwrite (by simpa using h)]
  by_cases hp : p < size
  · simp only [List.getElem?_map, List.getElem?_range hp, Option.map_some]
    split_ifs with hin
    · rw [List.getD_eq_getElem?_getD, List.getElem?_eq_getElem (by omega), Option.getD_some]
    · rfl
  · rw [if_neg (by omega)]
    simp [List.getElem?_eq_none (show (List.range size).length ≤ p by simpa using hp)]

/-! ## The order of sequences of equal length -/

section Lex

variable {α : Type} [LinearOrder α]

/-- INTERNAL: a difference in front of equally long fronts decides. -/
theorem append_lt_append_iff {a b : List α} (h : a.length = b.length) (c d : List α) :
    a ++ c < b ++ d ↔ a < b ∨ a = b ∧ c < d := by
  induction a generalizing b with
  | nil =>
    obtain rfl := List.length_eq_zero_iff.mp h.symm
    simp
  | cons x a ih =>
    cases b with
    | nil => cases h
    | cons y b =>
      rw [List.cons_append, List.cons_append, List.cons_lt_cons_iff, List.cons_lt_cons_iff,
        ih (Nat.succ.inj h), List.cons.injEq]
      tauto

/-- INTERNAL: tuples of equally long parts are ordered as the parts one behind the other. -/
theorem flatten_lt_flatten_iff {xs ys : List (List α)}
    (h : List.Forall₂ (fun x y => x.length = y.length) xs ys) :
    xs.flatten < ys.flatten ↔ xs < ys := by
  induction h with
  | nil => simp
  | cons hxy _ ih =>
    rw [List.flatten_cons, List.flatten_cons, append_lt_append_iff hxy, ih, List.cons_lt_cons_iff]

omit [LinearOrder α] in
/-- INTERNAL: fields of the same lengths can be told apart when they are joined. -/
theorem flatten_inj_of_length {xs ys : List (List α)}
    (h : List.Forall₂ (fun x y => x.length = y.length) xs ys) (heq : xs.flatten = ys.flatten) :
    xs = ys := by
  induction h with
  | nil => rfl
  | cons hxy _ ih =>
    obtain ⟨h1, h2⟩ := List.append_inj heq hxy
    rw [h1, ih h2]

/-- INTERNAL: the comparison of byte sequences is their order. -/
theorem compare_lt_iff (a b : List Byte) : compare a b = .lt ↔ a < b := by
  induction a generalizing b with
  | nil =>
    cases b with
    | nil => simp
    | cons y b => simp
  | cons x a ih =>
    cases b with
    | nil => simp
    | cons y b =>
      have hbyte : compare x y = .lt ↔ x < y := Nat.compare_eq_lt
      rw [List.compare_cons_cons, Ordering.then_eq_lt, hbyte, Std.compare_eq_iff_eq, ih,
        List.cons_lt_cons_iff]

end Lex

section Joined

variable {α : Type} (x y : α)

/-- INTERNAL: what is in a joined line is the separator or in a field. -/
theorem eq_or_mem_of_mem_intercalate {x b : α} {fields : List (List α)}
    (h : b ∈ [x].intercalate fields) : b = x ∨ ∃ s ∈ fields, b ∈ s := by
  induction fields with
  | nil => cases h
  | cons s rest ih =>
    by_cases hrest : rest = []
    · rw [hrest, List.intercalate_singleton] at h
      exact Or.inr ⟨s, List.mem_cons_self .., h⟩
    · rw [List.intercalate_cons_of_ne_nil hrest, List.append_assoc, List.mem_append,
        List.mem_append, List.mem_singleton] at h
      rcases h with h | h | h
      · exact Or.inr ⟨s, List.mem_cons_self .., h⟩
      · exact Or.inl h
      · exact (ih h).imp id fun ⟨t, ht, hb⟩ => ⟨t, List.mem_cons_of_mem _ ht, hb⟩

/-- INTERNAL: fields with a separator between them and a terminator at the end take one
element more each. -/
theorem length_joined {fields : List (List α)} (h : fields ≠ []) :
    ([x].intercalate fields ++ [y]).length = (fields.map fun s => s.length + 1).sum := by
  induction fields with
  | nil => exact absurd rfl h
  | cons s rest ih =>
    by_cases hrest : rest = []
    · simp [hrest]
    · have hlen := ih hrest
      rw [List.length_append, List.length_singleton] at hlen
      rw [List.intercalate_cons_of_ne_nil hrest, List.map_cons, List.sum_cons, ← hlen]
      simp only [List.length_append, List.length_singleton]
      omega

/-- INTERNAL: what is behind the first fields is the rest of the line. -/
theorem drop_joined {fields : List (List α)} {i : ℕ} (h : i < fields.length) :
    ([x].intercalate fields ++ [y]).drop ((fields.take i).map fun s => s.length + 1).sum =
      [x].intercalate (fields.drop i) ++ [y] := by
  induction i generalizing fields with
  | zero => simp
  | succ i ih =>
    obtain ⟨s, rest, rfl⟩ := List.exists_cons_of_length_pos (by omega : 0 < fields.length)
    have hi : i < rest.length := Nat.succ_lt_succ_iff.mp h
    have hrest : rest ≠ [] := List.length_pos_iff.mp (by omega)
    rw [List.intercalate_cons_of_ne_nil hrest, List.append_assoc, List.take_succ_cons, List.map_cons,
      List.sum_cons, List.drop_succ_cons, ← ih hi, ← List.drop_drop]
    congr 1
    exact List.drop_left' (by simp)

/-- INTERNAL: a joined line begins with its first field. -/
theorem take_joined (s : List α) (rest : List (List α)) :
    ([x].intercalate (s :: rest) ++ [y]).take s.length = s := by
  by_cases hrest : rest = []
  · simp [hrest]
  · rw [List.intercalate_cons_of_ne_nil hrest, List.append_assoc, List.append_assoc]
    exact List.take_left

end Joined

end ExternalSort.Lib
