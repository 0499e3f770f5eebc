import ExternalSort.Analysis.GeneratedLayout
import ExternalSort.Analysis.LexicographicOrder

/-!
# The order of numeric columns

The comparator sees the text of a number.  Of two texts of the same width, with the same
sign, the digits in front of the earlier decimal point decide; so numbers with a different
number of digits in front of the point can come in the wrong order, two negative numbers
usually do, and numbers that are rounded to the same text are taken for equal.  With the point
in the same place, the digits are those of the numbers, rounded to the same place
(`scaledValue_mono`).  A `float` in a column of integers can be in scientific notation; then the
digits come first and the exponent last.

`numeric_order_iff` says exactly when the comparator agrees with the numbers.
-/

set_option autoImplicit false

namespace ExternalSort.Analysis

open ExternalSort.Lib ExternalSort.Model

/-- A value of a column with a distribution and its field, which has exactly the width of the
column.  A column of type `integer` is padded, any other is quantized.  A `float` is the binary
number next to the one drawn.
SRCLINE: data_generator.py:41-53 -/
structure Rendering (col : JsonAttribute) (draw : Draw) (v : Value) (s : List Byte) : Prop where
  value : ∃ distribution, col.distribution = some distribution ∧
    drawValue float64 draw distribution = some v
  data : recordData float64 col draw = .ok (some s)
  width : (s.length : ℤ) = declaredLength col

/-- A result with the sign of the comparison of two numbers. -/
def NumericSign (result : ℤ) (x y : ℚ) : Prop :=
  (result < 0 ↔ x < y) ∧ (result = 0 ↔ x = y) ∧ (0 < result ↔ y < x)

/-- A record of the schema that has the text at the place of the attribute. -/
structure HoldsField (schema : Schema) (attr : ℕ) (s r : List Byte) : Prop where
  size : r.length = schema.recordSize
  field : (r.drop (fieldStart schema attr)).take s.length = s

/-- The comparator compares two numbers, on any two records with their texts.
SRCLINE: library.cc:67-81 -/
def ComparesAs (schema : Schema) (attr : ℕ) (s t : List Byte) (x y : ℚ) : Prop :=
  ∀ r1 r2, HoldsField schema attr s r1 → HoldsField schema attr t r2 →
    ∃ result, recordObjectComparator schema r1 r2 = some result ∧ NumericSign result x y

/-- The bytes that can follow the first digits of a number: a point, or the `e` of an exponent. -/
def endsDigits (b : Byte) : Bool := b = 46 ∨ b = 101

/-- The first digits of a text, behind its sign. -/
def wholeDigits (s : List Byte) : List Byte :=
  (s.dropWhile (· = 45)).takeWhile fun b => !endsDigits b

/-- What is behind them. -/
def behindDigits (s : List Byte) : List Byte :=
  (s.dropWhile (· = 45)).dropWhile fun b => !endsDigits b

/-- A text with fewer first digits than another comes before it: as a number, these are below as
many digits of the other, or equal to them if a point follows, which is smaller than a digit. -/
def ComesFirst (s t : List Byte) : Prop :=
  if (behindDigits s).head? = some 46 then LeadLe (wholeDigits s) (wholeDigits t)
  else LeadLt (wholeDigits s) (wholeDigits t)

/-- INTERNAL: it can be decided which text comes first. -/
instance (s t : List Byte) : Decidable (ComesFirst s t) :=
  inferInstanceAs (Decidable (if (behindDigits s).head? = some 46 then _ else _))

/-- Two numbers of the same sign with texts that are ordered like the numbers.  If the texts have
the same number of first digits, the numbers are positive; if one of them has an exponent, the
digits in front and then those behind the point go by the numbers. -/
structure SameSignInOrder (x y : ℚ) (s t : List Byte) : Prop where
  differ : s ≠ t
  fewer : (wholeDigits s).length < (wholeDigits t).length → (ComesFirst s t ↔ x < y)
  more : (wholeDigits t).length < (wholeDigits s).length → (ComesFirst t s ↔ y < x)
  plain : (wholeDigits s).length = (wholeDigits t).length → 101 ∉ s → 101 ∉ t → 0 < x
  scientific : (wholeDigits s).length = (wholeDigits t).length → 101 ∈ s ∨ 101 ∈ t →
    (wholeDigits s < wholeDigits t ∨
      wholeDigits s = wholeDigits t ∧ behindDigits s < behindDigits t ↔ x < y)

/-- The pairs of numbers with texts that are ordered like the numbers. -/
def TextsInOrder (x y : ℚ) (s t : List Byte) : Prop :=
  x = y ∨ (x < 0 ∧ 0 < y) ∨ (y < 0 ∧ 0 < x) ∨ (0 < x * y ∧ SameSignInOrder x y s t)

section Texts

variable {x y : ℚ} {text w f e text' w' f' e' : List Byte}

/-- INTERNAL: what is behind the first digits of a number. -/
def tailText (f e : List Byte) : List Byte := (if f = [] then [] else 46 :: f) ++ e

/-- INTERNAL: a text is its first digits and what is behind them. -/
theorem NumberText.eq_append (h : NumberText text w f e) : text = w ++ tailText f e := by
  rw [h.eq, pointText, tailText]
  split_ifs
  · rfl
  · rw [List.append_assoc]

/-- INTERNAL: the byte behind the first digits, if there is one, is a point or an `e`. -/
theorem NumberText.tail_cases (h : NumberText text w f e) :
    tailText f e = [] ∨ (∃ r, tailText f e = 46 :: r) ∨ ∃ r, tailText f e = 101 :: r := by
  unfold tailText
  split_ifs
  · rcases h.exponent with rfl | ⟨e, rfl, -⟩
    · exact Or.inl rfl
    · exact Or.inr (Or.inr ⟨_, rfl⟩)
  · exact Or.inr (Or.inl ⟨_, rfl⟩)

/-- INTERNAL: no digit ends the digits. -/
theorem not_endsDigits {w : List Byte} (h : Digits w) : ∀ b ∈ w, (!endsDigits b) = true := by
  intro b hb
  obtain ⟨d, hd, rfl⟩ := h b hb
  have hval := val_digitByte hd
  have hpoint : digitByte d ≠ 46 := digitByte_ne hd (by decide)
  have hexponent : digitByte d ≠ 101 := by
    intro heq
    rw [heq] at hval
    simp at hval
    omega
  simp [endsDigits, hpoint, hexponent]

/-- INTERNAL: the first digits of a text, and what is behind them. -/
theorem NumberText.split (h : NumberText text w f e) (x : ℚ) :
    wholeDigits (minus x ++ text) = w ∧ behindDigits (minus x ++ text) = tailText f e := by
  have hunsigned : (minus x ++ text).dropWhile (· = 45) = text := by
    have htext : text.dropWhile (· = 45) = text := by
      rw [List.dropWhile_eq_self_iff]
      intro hpos hminus
      apply h.head_ne
      rw [List.head?_eq_getElem?, List.getElem?_eq_getElem hpos]
      simpa using hminus
    unfold minus
    split_ifs
    · rw [List.cons_append, List.nil_append, List.dropWhile_cons_of_pos (by simp), htext]
    · rw [List.nil_append, htext]
  have hdigits := not_endsDigits h.digits.of_append.1
  rw [wholeDigits, behindDigits, hunsigned, h.eq_append, List.takeWhile_append_of_pos hdigits,
    List.dropWhile_append_of_pos hdigits]
  rcases h.tail_cases with hnil | ⟨r, hr⟩ | ⟨r, hr⟩
  · rw [hnil]
    simp
  · rw [hr]
    simp [endsDigits]
  · rw [hr]
    simp [endsDigits]

/-- INTERNAL: an `e` is the mark of an exponent. -/
theorem NumberText.exponent_mem_iff (h : NumberText text w f e) (x : ℚ) :
    101 ∈ minus x ++ text ↔ e ≠ [] := by
  obtain ⟨hw, hf⟩ := h.digits.of_append
  have hnot : ∀ {u : List Byte}, Digits u → 101 ∉ u := fun hu hmem =>
    absurd (not_endsDigits hu 101 hmem) (by decide)
  have hminus : 101 ∉ minus x := by
    unfold minus
    split_ifs <;> simp
  have hpoint : 101 ∉ pointText w f := by
    unfold pointText
    split_ifs
    · exact hnot hw
    · simp [hnot hw, hnot hf]
  rw [h.eq, List.mem_append, List.mem_append, or_iff_right hminus, or_iff_right hpoint]
  rcases h.exponent with rfl | ⟨e, rfl, -⟩
  · simp
  · simp

/-- INTERNAL: the text with fewer first digits comes first exactly if its digits say so. -/
theorem NumberText.comesFirst_iff (h : NumberText text w f e) (h' : NumberText text' w' f' e')
    (hlen : text.length = text'.length) (hlt : w.length < w'.length) (x y : ℚ) :
    ComesFirst (minus x ++ text) (minus y ++ text') ↔ text < text' := by
  obtain ⟨hwhole, hbehind⟩ := h.split x
  obtain ⟨hwhole', -⟩ := h'.split y
  rw [h.eq_append, h'.eq_append, List.length_append, List.length_append] at hlen
  obtain ⟨b, r, hb⟩ := List.exists_cons_of_length_pos (l := tailText f e) (by omega)
  obtain ⟨hpoint, hexponent⟩ := front_lt_iff h.digits.of_append.1 h'.digits.of_append.1 hlt b r
    (tailText f' e')
  rw [ComesFirst, hwhole, hwhole', hbehind, hb, List.head?_cons, h.eq_append, h'.eq_append, hb]
  rcases h.tail_cases with hnil | ⟨r', hr⟩ | ⟨r', hr⟩
  · rw [hb] at hnil
    cases hnil
  · obtain ⟨rfl, -⟩ := List.cons.inj (hb.symm.trans hr)
    rw [if_pos rfl, hpoint (by decide)]
  · obtain ⟨rfl, -⟩ := List.cons.inj (hb.symm.trans hr)
    rw [if_neg (by decide), hexponent (by decide)]

end Texts

section SameSign

variable {x y : ℚ} {text w f e text' w' f' e' : List Byte}

/-- INTERNAL: texts without exponents and with the point in the same place are ordered like the
magnitudes. -/
theorem plain_iff (h : NumberText text w f []) (h' : NumberText text' w' f' [])
    (hlen : text.length = text'.length) (heq : w.length = w'.length) (hxy : x ≠ y)
    (hsign : 0 < x * y)
    (hscaled : f.length = f'.length →
      (|x| ≤ |y| → numeralValue (w ++ f) ≤ numeralValue (w' ++ f')) ∧
      (|y| ≤ |x| → numeralValue (w' ++ f') ≤ numeralValue (w ++ f))) :
    (text < text' ↔ x < y) ∧ text ≠ text' ↔ text ≠ text' ∧ 0 < x := by
  have heq₁ := h.eq
  have heq₂ := h'.eq
  rw [List.append_nil] at heq₁ heq₂
  subst heq₁
  subst heq₂
  obtain ⟨hlt, hsame⟩ := pointText_of_eq h.digits h'.digits hlen heq
  have hplaces : f.length = f'.length := by
    rw [length_pointText, length_pointText] at hlen
    split_ifs at hlen with hf hf' hf' <;> simp_all
  obtain ⟨hle, hge⟩ := hscaled hplaces
  rw [and_comm]
  refine and_congr_right fun hne => ?_
  rw [ne_eq, hsame] at hne
  rw [hlt]
  rcases pos_and_pos_or_neg_and_neg_of_mul_pos hsign with ⟨hx, hy⟩ | ⟨hx, hy⟩
  · rw [abs_of_pos hx, abs_of_pos hy] at hle hge
    refine iff_of_true ?_ hx
    constructor
    · intro hnum
      by_contra hnot
      exact absurd (hge (not_lt.mp hnot)) (not_le.mpr hnum)
    · intro hless
      exact lt_of_le_of_ne (hle hless.le) hne
  · -- a larger magnitude is a smaller number
    rw [abs_of_neg hx, abs_of_neg hy, neg_le_neg_iff] at hle
    rw [abs_of_neg hx, abs_of_neg hy, neg_le_neg_iff] at hge
    refine iff_of_false (fun hiff => ?_) hx.not_gt
    rcases lt_or_gt_of_ne hxy with hless | hless
    · exact absurd (hge hless.le) (not_le.mpr (hiff.mpr hless))
    · exact absurd (hiff.mp (lt_of_le_of_ne (hle hless.le) hne)) hless.not_gt

/-- INTERNAL: the condition on two texts of the same sign, in terms of their parts. -/
theorem sameSignInOrder_iff (h : NumberText text w f e) (h' : NumberText text' w' f' e')
    (hlen : text.length = text'.length) (hminus : minus x = minus y) :
    SameSignInOrder x y (minus x ++ text) (minus y ++ text') ↔ text ≠ text' ∧
      (w.length < w'.length → (text < text' ↔ x < y)) ∧
      (w'.length < w.length → (text' < text ↔ y < x)) ∧
      (w.length = w'.length → e = [] → e' = [] → 0 < x) ∧
      (w.length = w'.length → e ≠ [] ∨ e' ≠ [] → (text < text' ↔ x < y)) := by
  obtain ⟨hwhole, hbehind⟩ := h.split x
  obtain ⟨hwhole', hbehind'⟩ := h'.split y
  have hdiffer : minus x ++ text ≠ minus y ++ text' ↔ text ≠ text' := by
    rw [hminus]
    simp
  have hfewer := fun hlt => h.comesFirst_iff h' hlen hlt x y
  have hmore := fun hlt => h'.comesFirst_iff h hlen.symm hlt y x
  have hequal : w.length = w'.length →
      (w < w' ∨ w = w' ∧ tailText f e < tailText f' e' ↔ text < text') := by
    intro heq
    rw [h.eq_append, h'.eq_append, append_lt_append_iff heq]
  constructor
  · rintro ⟨hne, hfew, hmany, hplain, hscientific⟩
    rw [hwhole, hwhole'] at hfew hmany hplain hscientific
    rw [h.exponent_mem_iff, h'.exponent_mem_iff] at hplain hscientific
    rw [hbehind, hbehind'] at hscientific
    refine ⟨hdiffer.mp hne, fun hlt => (hfewer hlt).symm.trans (hfew hlt),
      fun hlt => (hmore hlt).symm.trans (hmany hlt), fun heq he he' => ?_,
      fun heq he => (hequal heq).symm.trans (hscientific heq he)⟩
    exact hplain heq (not_not.mpr he) (not_not.mpr he')
  · rintro ⟨hne, hfew, hmany, hplain, hscientific⟩
    refine ⟨hdiffer.mpr hne, ?_, ?_, ?_, ?_⟩
    · rw [hwhole, hwhole']
      exact fun hlt => (hfewer hlt).trans (hfew hlt)
    · rw [hwhole, hwhole']
      exact fun hlt => (hmore hlt).trans (hmany hlt)
    · rw [hwhole, hwhole', h.exponent_mem_iff, h'.exponent_mem_iff]
      exact fun heq he he' => hplain heq (not_not.mp he) (not_not.mp he')
    · rw [hwhole, hwhole', hbehind, hbehind', h.exponent_mem_iff, h'.exponent_mem_iff]
      exact fun heq he => (hequal heq).trans (hscientific heq he)

/-- INTERNAL: **texts and numbers of the same sign.** -/
theorem sameSign_iff (h : NumberText text w f e) (h' : NumberText text' w' f' e')
    (hlen : text.length = text'.length) (hxy : x ≠ y) (hsign : 0 < x * y)
    (hminus : minus x = minus y)
    (hscaled : e = [] → e' = [] → f.length = f'.length →
      (|x| ≤ |y| → numeralValue (w ++ f) ≤ numeralValue (w' ++ f')) ∧
      (|y| ≤ |x| → numeralValue (w' ++ f') ≤ numeralValue (w ++ f))) :
    (text < text' ↔ x < y) ∧ text ≠ text' ↔
      SameSignInOrder x y (minus x ++ text) (minus y ++ text') := by
  rw [sameSignInOrder_iff h h' hlen hminus]
  rcases lt_trichotomy w.length w'.length with hlt | heq | hgt
  · simp [hlt, hlt.not_gt, hlt.ne, and_comm]
  · by_cases hexponent : e = [] ∧ e' = []
    · obtain ⟨rfl, rfl⟩ := hexponent
      rw [plain_iff h h' hlen heq hxy hsign (hscaled rfl rfl)]
      simp [heq]
    · have hor : e ≠ [] ∨ e' ≠ [] := not_and_or.mp hexponent
      simp only [heq, lt_irrefl, false_imp_iff, true_imp_iff, true_and, hor]
      rw [and_comm]
      refine and_congr_right fun _ => (and_iff_right ?_).symm
      exact fun he he' => absurd ⟨he, he'⟩ hexponent
  · have hswap : text ≠ text' → ((text < text' ↔ x < y) ↔ (text' < text ↔ y < x)) := by
      intro hne
      rw [← not_iff_not (a := text < text'), not_lt, not_lt, le_iff_lt_or_eq, le_iff_lt_or_eq,
        or_iff_left hne.symm, or_iff_left hxy.symm]
    simp only [hgt, hgt.not_gt, hgt.ne', false_imp_iff, true_imp_iff, and_true, true_and]
    rw [and_comm]
    exact and_congr_right hswap

/-- INTERNAL: a sign is smaller than a digit. -/
theorem NumberText.lt_of_minus (h' : NumberText text' w' f' e') (hx : x < 0) (hy : 0 < y) :
    minus x ++ text < minus y ++ text' := by
  obtain ⟨d, rest, hd⟩ := List.exists_cons_of_ne_nil h'.whole_ne
  obtain ⟨n, hn, rfl⟩ := h'.digits.of_append.1 d (by rw [hd]; exact List.mem_cons_self ..)
  rw [minus, minus, if_pos hx, if_neg hy.not_gt, h'.eq_append, hd]
  apply List.cons_lt_cons_iff.mpr
  left
  rw [Fin.lt_def, val_digitByte hn]
  exact Nat.lt_of_lt_of_le (by decide) (Nat.le_add_right 48 n)

/-- INTERNAL: **texts and numbers**, for two texts of the same width. -/
theorem texts_order_iff (h : NumberText text w f e) (h' : NumberText text' w' f' e')
    (hlen : (minus x ++ text).length = (minus y ++ text').length) (hx : x ≠ 0) (hy : y ≠ 0)
    (hsame : x = y → text = text')
    (hscaled : e = [] → e' = [] → f.length = f'.length →
      (|x| ≤ |y| → numeralValue (w ++ f) ≤ numeralValue (w' ++ f')) ∧
      (|y| ≤ |x| → numeralValue (w' ++ f') ≤ numeralValue (w ++ f))) :
    ((minus x ++ text < minus y ++ text' ↔ x < y) ∧ (minus x ++ text = minus y ++ text' ↔ x = y)) ↔
      TextsInOrder x y (minus x ++ text) (minus y ++ text') := by
  by_cases hxy : x = y
  · rw [hsame hxy, hxy]
    simp [TextsInOrder]
  -- texts of the same sign are compared behind it
  have hsigned : minus x = minus y → 0 < x * y →
      (((minus x ++ text < minus y ++ text' ↔ x < y) ∧
        (minus x ++ text = minus y ++ text' ↔ x = y)) ↔
        SameSignInOrder x y (minus x ++ text) (minus y ++ text')) := by
    intro hminus hsign
    rw [hminus, List.length_append, List.length_append, Nat.add_left_cancel_iff] at hlen
    rw [← sameSign_iff h h' hlen hxy hsign hminus hscaled, hminus, append_lt_append_iff rfl]
    simp [hxy]
  unfold TextsInOrder
  rcases lt_or_gt_of_ne hx with hxneg | hxpos <;> rcases lt_or_gt_of_ne hy with hyneg | hypos
  · have hsign := mul_pos_of_neg_of_neg hxneg hyneg
    rw [hsigned (by rw [minus, minus, if_pos hxneg, if_pos hyneg]) hsign]
    simp [hxy, hsign, hxneg.not_gt, hyneg.not_gt]
  · have hlt : minus x ++ text < minus y ++ text' := h'.lt_of_minus hxneg hypos
    simp [hlt, hlt.ne, hxneg.trans hypos, hxneg, hypos, (hxneg.trans hypos).ne]
  · have hlt : minus y ++ text' < minus x ++ text := h.lt_of_minus hyneg hxpos
    simp [hlt.not_gt, hlt.ne', (hyneg.trans hxpos).not_gt, hyneg, hxpos, (hyneg.trans hxpos).ne']
  · have hsign := mul_pos hxpos hypos
    rw [hsigned (by rw [minus, minus, if_neg hxpos.not_gt, if_neg hypos.not_gt]) hsign]
    simp [hxy, hsign, hxpos.not_gt, hypos.not_gt]

end SameSign

section Renderings

variable {col : JsonAttribute} {draw draw' : Draw} {v v' : Value} {s t : List Byte}

/-- INTERNAL: a value that is written is not zero. -/
theorem Rendering.ne_zero (h : Rendering col draw v s) : v.toRat ≠ 0 := by
  intro hzero
  obtain ⟨distribution, hdist, hvalue⟩ := h.value
  have hdata := h.data
  rw [recordData_of_zero hdist hvalue hzero] at hdata
  cases hdata

/-- INTERNAL: the field of a value is what it is formatted to. -/
theorem Rendering.format (h : Rendering col draw v s) :
    formatValue col.type (declaredLength col) v = .ok s := by
  obtain ⟨distribution, hdist, hvalue⟩ := h.value
  have hdata := h.data
  cases hlength : col.length with
  | none =>
    simp only [recordData, hdist, hvalue, hlength, if_neg h.ne_zero] at hdata
    cases hdata
  | some length =>
    rw [recordData_of_value hdist hvalue hlength h.ne_zero] at hdata
    rw [declaredLength, readAttribute, hlength]
    exact map_some_eq_ok_iff.mp hdata

/-- INTERNAL: the number that the digits of a text with `k` of them behind the point stand for. -/
def scaledValue (col : JsonAttribute) (k : ℕ) (v : Value) : ℚ :=
  if col.type = some integerType then writtenValue v * 10 ^ k else coefficient v.toRat k

/-- INTERNAL: zeros in front do not count. -/
theorem NumberText.zeros {text w f e : List Byte} (h : NumberText text w f e) (k : ℕ) :
    NumberText (List.replicate k (digitByte 0) ++ text) (List.replicate k (digitByte 0) ++ w) f e ∧
      numeralValue (List.replicate k (digitByte 0) ++ w ++ f) = numeralValue (w ++ f) := by
  refine ⟨⟨?_, ?_, List.append_ne_nil_of_right_ne_nil _ h.whole_ne, h.exponent⟩, ?_⟩
  · rw [h.eq, pointText, pointText]
    split_ifs <;> simp
  · rw [List.append_assoc]
    exact (digits_replicate k).append h.digits
  · rw [List.append_assoc, numeralValue_append, numeralValue_replicate, Nat.zero_mul, Nat.zero_add]

/-- INTERNAL: **the text of a value**, taken apart. -/
theorem Rendering.text (h : Rendering col draw v s) :
    ∃ text w f e, s = minus v.toRat ++ text ∧ NumberText text w f e ∧
      (e = [] → (numeralValue (w ++ f) : ℚ) = scaledValue col f.length v) := by
  have hformat := h.format
  unfold formatValue at hformat
  split_ifs at hformat with htype
  · rw [Except.ok.injEq] at hformat
    obtain ⟨text, w, f, e, hstr, htext, hvalue⟩ := str_text h.ne_zero
    obtain ⟨hpadded, hnumeral⟩ :=
      htext.zeros (declaredLength col - (minus v.toRat ++ text).length).toNat
    refine ⟨_, _, f, e, ?_, hpadded, fun he => ?_⟩
    · rw [← hformat, hstr, zfill_signed htext.head_ne]
    · rw [hnumeral, hvalue he, scaledValue, if_pos htype]
  · obtain ⟨-, rfl⟩ := quantize_eq_ok_iff.mp hformat
    refine ⟨_, _, _, [], rfl, numberText_field v.toRat _, fun _ => ?_⟩
    rw [numeralValue_coefficient, scaledValue, if_neg htype, length_fixedDigits]

/-- INTERNAL: **with the point in the same place, larger numbers have no smaller digits.** -/
theorem scaledValue_mono (h : Rendering col draw v s) (h' : Rendering col draw' v' t) (k : ℕ)
    (hle : |v.toRat| ≤ |v'.toRat|) : scaledValue col k v ≤ scaledValue col k v' := by
  obtain ⟨distribution, hdist, hvalue⟩ := h.value
  obtain ⟨distribution', hdist', hvalue'⟩ := h'.value
  have hne := h.ne_zero
  have hne' := h'.ne_zero
  unfold scaledValue
  split_ifs
  · -- the values of a column are all of one kind
    gcongr
    obtain rfl := Option.some.inj (hdist.symm.trans hdist')
    cases distribution with
    | uniform min max =>
      cases hvalue
      cases hvalue'
      exact hle
    | normal mu sigma =>
      cases hvalue
      cases hvalue'
      exact significant_mono hne hne' hle
    | other => cases hvalue
  · exact_mod_cast coefficient_mono hle k

/-- INTERNAL: the same number has the same text. -/
theorem Rendering.unique (h : Rendering col draw v s) (h' : Rendering col draw' v' t)
    (heq : v.toRat = v'.toRat) : s = t := by
  obtain ⟨distribution, hdist, hvalue⟩ := h.value
  obtain ⟨distribution', hdist', hvalue'⟩ := h'.value
  have hformat := h.format
  have hformat' := h'.format
  obtain rfl := Option.some.inj (hdist.symm.trans hdist')
  have hsame : v = v' := by
    cases distribution with
    | uniform min max =>
      cases hvalue
      cases hvalue'
      rw [Value.int.injEq]
      exact Int.cast_injective heq
    | normal mu sigma =>
      cases hvalue
      cases hvalue'
      rw [Value.float.injEq]
      exact heq
    | other => cases hvalue
  rw [hsame, hformat', Except.ok.injEq] at hformat
  exact hformat.symm

/-- INTERNAL: **the texts of two values of a column**, against the values. -/
theorem renderings_order_iff (h : Rendering col draw v s) (h' : Rendering col draw' v' t) :
    ((s < t ↔ v.toRat < v'.toRat) ∧ (s = t ↔ v.toRat = v'.toRat)) ↔
      TextsInOrder v.toRat v'.toRat s t := by
  have hlen : s.length = t.length := by exact_mod_cast h.width.trans h'.width.symm
  have hunique := h.unique h'
  obtain ⟨text, w, f, e, rfl, htext, hvalue⟩ := h.text
  obtain ⟨text', w', f', e', rfl, htext', hvalue'⟩ := h'.text
  refine texts_order_iff htext htext' hlen h.ne_zero h'.ne_zero (fun heq => ?_) ?_
  · have hboth := hunique heq
    rw [heq] at hboth
    exact List.append_cancel_left hboth
  · intro he he' hplaces
    have hnum := hvalue he
    have hnum' := hvalue' he'
    rw [← hplaces] at hnum'
    constructor
    · intro hle
      have hmono := scaledValue_mono h h' f.length hle
      rw [← hnum, ← hnum'] at hmono
      exact_mod_cast hmono
    · intro hle
      have hmono := scaledValue_mono h' h f.length hle
      rw [← hnum, ← hnum'] at hmono
      exact_mod_cast hmono

end Renderings

section Records

variable {schema : Schema} {attr : ℕ} {s t : List Byte}

/-- INTERNAL: a record with the text at the place of the attribute and one byte everywhere else. -/
def recordOf (schema : Schema) (attr : ℕ) (s : List Byte) (b : Byte) : List Byte :=
  List.replicate (fieldStart schema attr) b ++ (s ++
    List.replicate (schema.recordSize - fieldStart schema attr - s.length) b)

/-- INTERNAL: there are records with a given field. -/
theorem holdsField_recordOf (hfits : fieldStart schema attr + s.length ≤ schema.recordSize)
    (b : Byte) : HoldsField schema attr s (recordOf schema attr s b) where
  size := by
    simp only [recordOf, List.length_append, List.length_replicate]
    omega
  field := by
    rw [recordOf, List.drop_left' List.length_replicate, List.take_left]

/-- INTERNAL: a field that begins at `2 ^ 31` or behind is looked for at least `2 ^ 32` bytes too
far in front. -/
theorem field_recordOf (h : Layout schema) (hstart : 2 ^ 31 ≤ fieldStart schema attr)
    (hoffset : 0 ≤ offsetToAttribute schema attr)
    (hsize : toSizeT (attrLength schema attr) = s.length) (hshort : s.length < 2 ^ 31) {b : Byte}
    (hb : b ≠ 0) : field schema (recordOf schema attr s b) attr = List.replicate s.length b := by
  have hends : (offsetToAttribute schema attr).toNat + s.length ≤ fieldStart schema attr := by
    rw [h.offset_eq, toInt_eq] at hoffset ⊢
    split_ifs at hoffset ⊢ <;> omega
  rw [field, hsize, cstr, recordOf, List.drop_append_of_le_length (by simp; omega),
    List.drop_replicate, List.take_append_of_le_length (by simp; omega), List.take_replicate,
    Nat.min_eq_left (by omega), List.takeWhile_eq_self_iff.mpr]
  intro c hc
  rw [List.eq_of_mem_replicate hc]
  exact decide_eq_true hb

variable (h : Layout schema) (hattr : attr < schema.attrs.length)
  (hsort : schema.sortAttrs = [some attr]) (hs : s.length = toSizeT (attrLength schema attr))
  (ht : t.length = toSizeT (attrLength schema attr)) (hne : s ≠ []) {x y : ℚ}

include h hattr hsort hs ht hne

/-- INTERNAL: **a field that begins at `2 ^ 31` or behind is not compared**, since the records can
agree or differ where it is looked for. -/
theorem not_comparesAs (hstart : 2 ^ 31 ≤ fieldStart schema attr) :
    ¬ ComparesAs schema attr s t x y := by
  intro hcompares
  have hlt := h.start_add_length_lt hattr
  have hshort : s.length < 2 ^ 31 := by
    have hspan := h.length_eq hattr
    have hbound := (schema.attrs[attr]).length.toInt_lt
    rw [span] at hspan
    omega
  have hpos := List.length_pos_iff.mpr hne
  have hholds : HoldsField schema attr s (recordOf schema attr s 1) :=
    holdsField_recordOf (by omega) 1
  have hholds' : ∀ b, HoldsField schema attr t (recordOf schema attr t b) :=
    holdsField_recordOf (by omega)
  obtain ⟨result, hresult, hsign⟩ := hcompares _ _ hholds (hholds' 1)
  obtain ⟨result', hresult', hsign'⟩ := hcompares _ _ hholds (hholds' 2)
  have hsorted : schema.sortAttrs.reduceOption = [attr] := by rw [hsort]; rfl
  have hinside : Inside schema := by
    by_contra hout
    have hread : readsRecord schema attr = false := by
      rw [Inside, hsorted] at hout
      simpa using hout
    have hnone : recordObjectComparator schema (recordOf schema attr s 1)
        (recordOf schema attr t 1) = none := by
      rw [recordObjectComparator_eq_none_iff, comparedFields, comparedFields, comparedAttrs,
        hsorted]
      simp [hout, hread]
    rw [hnone] at hresult
    cases hresult
  have hoffset : 0 ≤ offsetToAttribute schema attr := by
    have hread := hinside attr (by rw [hsorted]; exact List.mem_singleton_self attr)
    rw [readsRecord, decide_eq_true_iff] at hread
    rcases hread with hzero | hread
    · have hnone : s.length = 0 := hs.trans (by rw [hzero]; rfl)
      omega
    · exact hread.1
  have hfield := fun b (hb : b ≠ 0) => field_recordOf h hstart hoffset hs.symm hshort hb
  have hfield' := fun b (hb : b ≠ 0) =>
    field_recordOf h hstart hoffset ht.symm (s := t) (by omega) (b := b) hb
  obtain ⟨v, hv, -, hzero, -⟩ :=
    hinside.comparator_spec (recordOf schema attr s 1) (recordOf schema attr t 1)
  obtain ⟨v', hv', -, hzero', -⟩ :=
    hinside.comparator_spec (recordOf schema attr s 1) (recordOf schema attr t 2)
  obtain rfl := Option.some.inj (hresult.symm.trans hv)
  obtain rfl := Option.some.inj (hresult'.symm.trans hv')
  rw [sortFields, sortFields, hsorted, List.map_singleton, List.map_singleton] at hzero hzero'
  rw [hfield 1 (by decide), hfield' 1 (by decide), hs, ht] at hzero
  rw [hfield 1 (by decide), hfield' 2 (by decide), hs, ht] at hzero'
  have hxy := hsign.2.1.mp (hzero.mpr rfl)
  have heq := hzero'.mp (hsign'.2.1.mpr hxy)
  rw [hs] at hpos
  obtain ⟨n, hn⟩ := Nat.exists_eq_succ_of_ne_zero hpos.ne'
  rw [hn] at heq
  simp [List.replicate_succ] at heq

omit hne in
/-- INTERNAL: **a field that begins below `2 ^ 31` is compared as a text.** -/
theorem comparesAs_iff (hclean : Clean s) (hclean' : Clean t)
    (hstart : fieldStart schema attr < 2 ^ 31) :
    ComparesAs schema attr s t x y ↔ (s < t ↔ x < y) ∧ (s = t ↔ x = y) := by
  have hlt := h.start_add_length_lt hattr
  have hsorted : schema.sortAttrs.reduceOption = [attr] := by rw [hsort]; rfl
  have hfits : StartsFit schema := by
    intro attr' hattr'
    rw [hsorted, List.mem_singleton] at hattr'
    exact Or.inr (hattr' ▸ hstart)
  have hfields : ∀ {u r : List Byte}, Clean u → u.length = toSizeT (attrLength schema attr) →
      HoldsField schema attr u r → sortFields schema r = [u] := by
    intro u r hu hlen hr
    have hfield := hr.field
    have hfree : ∀ b ∈ u, decide (b ≠ 0) = true := by
      intro b hb
      rw [decide_eq_true_iff]
      rintro rfl
      exact absurd (hu 0 hb).1 (by decide)
    rw [hlen, h.toSizeT_attrLength hattr] at hfield
    rw [sortFields_eq_declaredFields h hfits, declaredFields, hsorted, List.map_singleton,
      declaredField, hfield, List.takeWhile_eq_self_iff.mpr hfree]
  have hsingle : ([s] < [t] ↔ s < t) ∧ ([s] = [t] ↔ s = t) ∧ ([t] < [s] ↔ t < s) := by
    simp [List.cons_lt_cons_iff]
  have hspec : ∀ {r1 r2}, HoldsField schema attr s r1 → HoldsField schema attr t r2 →
      ∃ v, recordObjectComparator schema r1 r2 = some v ∧ (v < 0 ↔ s < t) ∧ (v = 0 ↔ s = t) := by
    intro r1 r2 h1 h2
    obtain ⟨v, hv, hneg, hzero, -⟩ := (inside_of_startsFit h hfits).comparator_spec r1 r2
    rw [hfields hclean hs h1, hfields hclean' ht h2] at hneg hzero
    exact ⟨v, hv, hneg.trans hsingle.1, hzero.trans hsingle.2.1⟩
  constructor
  · intro hcompares
    have h1 : HoldsField schema attr s (recordOf schema attr s 1) :=
      holdsField_recordOf (by omega) 1
    have h2 : HoldsField schema attr t (recordOf schema attr t 1) :=
      holdsField_recordOf (by omega) 1
    obtain ⟨v, hv, hneg, hzero⟩ := hspec h1 h2
    obtain ⟨result, hresult, hsign⟩ := hcompares _ _ h1 h2
    obtain rfl := Option.some.inj (hresult.symm.trans hv)
    exact ⟨hneg.symm.trans hsign.1, hzero.symm.trans hsign.2.1⟩
  · rintro ⟨hless, hsame⟩ r1 r2 h1 h2
    obtain ⟨v, hv, hneg, hzero⟩ := hspec h1 h2
    have hltx := hneg.trans hless
    have heqx := hzero.trans hsame
    refine ⟨v, hv, hltx, heqx, ?_⟩
    rw [← not_le, ← not_le, le_iff_lt_or_eq, le_iff_lt_or_eq, hltx, heqx]

end Records

/-- A column of grades with four characters. -/
def gradeColumn : JsonAttribute := ⟨none, some floatType, some 4, some (.normal 8 1)⟩

/-- Records of one grade, sorted by it. -/
def byGrade : Schema := ⟨[readAttribute gradeColumn], [some 0], 5⟩

/-- INTERNAL: they have a layout. -/
theorem byGrade_layout : Layout byGrade := ⟨by decide, by decide, by decide⟩

/-- The draw of a grade. -/
def gradeDraw (grade : ℚ) : Draw := ⟨fun _ => 0, grade⟩

/-- INTERNAL: the field of a grade. -/
theorem grade_rendering {grade : ℚ} {s : List Byte}
    (hdata : recordData float64 gradeColumn (gradeDraw grade) = .ok (some s))
    (hlen : s.length = 4) :
    Rendering gradeColumn (gradeDraw grade)
      (.float (float64 (roundHundredths grade / 100))) s where
  value := ⟨.normal 8 1, rfl, rfl⟩
  data := hdata
  width := by
    rw [hlen]
    rfl

end ExternalSort.Analysis
