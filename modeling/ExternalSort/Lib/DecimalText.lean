import ExternalSort.Lib.Decimal

/-!
# Texts of decimal fractions

`fixedDigits` is a numeral of a given width, `pointText` puts a decimal point between two
strings of digits.  Digit strings of the same length are ordered as bytes like the numbers
they stand for (`lt_iff_numeralValue_lt`).  Two texts with a point in the same place are
ordered like the numbers too (`pointText_of_eq`); if the digits of one end first, what counts are
these and as many of the other (`front_lt_iff`).
-/

set_option autoImplicit false

namespace ExternalSort.Lib

/-- INTERNAL: a string of decimal digits. -/
def Digits (s : List Byte) : Prop := ∀ b ∈ s, ∃ d < 10, b = digitByte d

/-- INTERNAL: the last digits of a number, as many as asked for. -/
def fixedDigits : ℕ → ℕ → List Byte
  | 0, _ => []
  | w + 1, n => fixedDigits w (n / 10) ++ [digitByte (n % 10)]

/-- INTERNAL: digits in front of the decimal point and behind it; without digits behind it
there is no point. -/
def pointText (whole frac : List Byte) : List Byte :=
  if frac = [] then whole else whole ++ 46 :: frac

section Digits

variable {s t : List Byte}

/-- INTERNAL: a numeral is made of digits. -/
theorem digits_decimalNat (n : ℕ) : Digits (decimalNat n) := fun _ h => exists_digit_of_mem h

/-- INTERNAL: digits behind digits are digits. -/
theorem Digits.append (hs : Digits s) (ht : Digits t) : Digits (s ++ t) := by
  intro b hb
  rcases List.mem_append.mp hb with h | h
  · exact hs b h
  · exact ht b h

/-- INTERNAL: the parts of digits are digits. -/
theorem Digits.of_append (h : Digits (s ++ t)) : Digits s ∧ Digits t :=
  ⟨fun b hb => h b (List.mem_append_left _ hb), fun b hb => h b (List.mem_append_right _ hb)⟩

/-- INTERNAL: a byte below `0` is not among digits. -/
theorem Digits.not_mem (hs : Digits s) {b : Byte} (hb : (b : ℕ) < 48) : b ∉ s := by
  intro h
  obtain ⟨d, hd, heq⟩ := hs b h
  exact digitByte_ne hd hb heq.symm

/-- INTERNAL: zeros are digits. -/
theorem digits_replicate (k : ℕ) : Digits (List.replicate k (digitByte 0)) := by
  intro b hb
  exact ⟨0, by omega, (List.mem_replicate.mp hb).2⟩

/-- INTERNAL: a numeral of fixed width is made of digits. -/
theorem digits_fixedDigits (w n : ℕ) : Digits (fixedDigits w n) := by
  induction w generalizing n with
  | zero => simp [fixedDigits, Digits]
  | succ w ih =>
    refine (ih _).append fun b hb => ⟨n % 10, Nat.mod_lt _ (by omega), ?_⟩
    exact List.mem_singleton.mp hb

/-- INTERNAL: the width of a numeral of fixed width. -/
@[simp]
theorem length_fixedDigits (w n : ℕ) : (fixedDigits w n).length = w := by
  induction w generalizing n with
  | zero => rfl
  | succ w ih => simp [fixedDigits, ih]

/-- INTERNAL: only a numeral of width zero is empty. -/
theorem fixedDigits_eq_nil_iff {w n : ℕ} : fixedDigits w n = [] ↔ w = 0 := by
  rw [← List.length_eq_zero_iff, length_fixedDigits]

/-- INTERNAL: no digits are zero. -/
@[simp]
theorem numeralValue_nil : numeralValue [] = 0 := rfl

/-- INTERNAL: the value of two numerals, one behind the other. -/
theorem numeralValue_append (s t : List Byte) :
    numeralValue (s ++ t) = numeralValue s * 10 ^ t.length + numeralValue t := by
  induction s with
  | nil => simp
  | cons b s ih =>
    rw [List.cons_append, numeralValue_cons, numeralValue_cons, ih, List.length_append, pow_add]
    ring

/-- INTERNAL: the byte of a digit is read back. -/
theorem digitValue_digitByte {d : ℕ} (h : d < 10) : digitValue (digitByte d) = d := by
  rw [digitValue, val_digitByte h]
  omega

/-- INTERNAL: a numeral of fixed width holds the number up to a power of ten. -/
theorem numeralValue_fixedDigits (w n : ℕ) : numeralValue (fixedDigits w n) = n % 10 ^ w := by
  induction w generalizing n with
  | zero => simp [fixedDigits, Nat.mod_one]
  | succ w ih =>
    rw [fixedDigits, numeralValue_append, ih, numeralValue_cons,
      digitValue_digitByte (Nat.mod_lt _ (by omega)), pow_succ', Nat.mod_mul]
    simp
    ring

/-- INTERNAL: zeros are zero. -/
theorem numeralValue_replicate (k : ℕ) : numeralValue (List.replicate k (digitByte 0)) = 0 := by
  induction k with
  | zero => rfl
  | succ k ih =>
    rw [List.replicate_succ, numeralValue_cons, ih, digitValue_digitByte (by omega)]
    simp

/-- INTERNAL: a numeral is below the power of ten of its length. -/
theorem numeralValue_lt (hs : Digits s) : numeralValue s < 10 ^ s.length := by
  induction s with
  | nil => simp
  | cons b s ih =>
    obtain ⟨d, hd, rfl⟩ := hs b (List.mem_cons_self ..)
    have htail := ih fun c hc => hs c (List.mem_cons_of_mem _ hc)
    rw [numeralValue_cons, digitValue_digitByte hd, List.length_cons, pow_succ]
    have hhead : 10 ^ s.length * d ≤ 10 ^ s.length * 9 := Nat.mul_le_mul_left _ (by omega)
    omega

/-- INTERNAL: **digit strings of the same length are ordered like their numbers.** -/
theorem lt_iff_numeralValue_lt (hs : Digits s) (ht : Digits t) (hlen : s.length = t.length) :
    s < t ↔ numeralValue s < numeralValue t := by
  induction s generalizing t with
  | nil =>
    rw [List.length_nil, eq_comm, List.length_eq_zero_iff] at hlen
    simp [hlen]
  | cons b s ih =>
    cases t with
    | nil => simp at hlen
    | cons c t =>
      obtain ⟨hb, hs'⟩ := Digits.of_append (s := [b]) hs
      obtain ⟨hc, ht'⟩ := Digits.of_append (s := [c]) ht
      obtain ⟨d, hd, rfl⟩ := hb b (List.mem_singleton_self b)
      obtain ⟨e, he, rfl⟩ := hc c (List.mem_singleton_self c)
      have hlen' : s.length = t.length := Nat.succ_inj.mp hlen
      have hlts := numeralValue_lt hs'
      have hltt := numeralValue_lt ht'
      rw [List.cons_lt_cons_iff, ih hs' ht' hlen', numeralValue_cons, numeralValue_cons,
        digitValue_digitByte hd, digitValue_digitByte he, ← hlen']
      rw [← hlen'] at hltt
      rw [Fin.lt_def, val_digitByte hd, val_digitByte he]
      -- the first digit outweighs all others
      rcases lt_trichotomy d e with hde | rfl | hde
      · have hstep := Nat.mul_le_mul_left (10 ^ s.length) (Nat.succ_le_of_lt hde)
        rw [Nat.mul_succ] at hstep
        exact iff_of_true (Or.inl (by omega)) (by omega)
      · simp
      · have hstep := Nat.mul_le_mul_left (10 ^ s.length) (Nat.succ_le_of_lt hde)
        rw [Nat.mul_succ] at hstep
        refine iff_of_false ?_ (by omega)
        rintro (h | ⟨h, -⟩)
        · omega
        · have hval := congrArg Fin.val h
          rw [val_digitByte hd, val_digitByte he] at hval
          omega

/-- INTERNAL: numerals of one length are told apart by their values. -/
theorem numeralValue_inj (hs : Digits s) (ht : Digits t) (hlen : s.length = t.length) :
    numeralValue s = numeralValue t ↔ s = t := by
  constructor
  · intro heq
    rcases lt_trichotomy s t with h | h | h
    · exact absurd ((lt_iff_numeralValue_lt hs ht hlen).mp h) heq.not_lt
    · exact h
    · exact absurd ((lt_iff_numeralValue_lt ht hs hlen.symm).mp h) heq.not_gt
  · exact congrArg numeralValue

/-- INTERNAL: the leading digits of a number. -/
theorem numeralValue_take (ht : Digits t) (k : ℕ) :
    numeralValue (t.take k) = numeralValue t / 10 ^ (t.length - k) := by
  have hsplit := numeralValue_append (t.take k) (t.drop k)
  have hrest := numeralValue_lt (Digits.of_append (s := t.take k) (t := t.drop k)
    (by rwa [List.take_append_drop])).2
  rw [List.take_append_drop] at hsplit
  rw [List.length_drop] at hsplit hrest
  rw [hsplit, Nat.add_div_of_dvd_right (Dvd.intro_left _ rfl), Nat.mul_div_cancel _ (by positivity),
    Nat.div_eq_of_lt hrest, Nat.add_zero]

/-- INTERNAL: a number is below the power of ten of its number of digits. -/
theorem lt_pow_length_decimalNat (n : ℕ) : n < 10 ^ (decimalNat n).length := by
  have h := numeralValue_lt (digits_decimalNat n)
  rwa [numeralValue_decimalNat] at h

/-- INTERNAL: a numeral has at least one digit. -/
theorem length_decimalNat_pos (n : ℕ) : 0 < (decimalNat n).length :=
  List.length_pos_iff.mpr (decimalNat_ne_nil n)

/-- INTERNAL: the number of digits between two powers of ten. -/
theorem length_decimalNat_eq {n m : ℕ} (hlo : 10 ^ m ≤ n) (hhi : n < 10 ^ (m + 1)) :
    (decimalNat n).length = m + 1 := by
  refine le_antisymm (length_decimalNat_le (by omega) hhi) ?_
  exact (Nat.pow_lt_pow_iff_right (by decide)).mp (hlo.trans_lt (lt_pow_length_decimalNat n))

/-- INTERNAL: a larger number has no fewer digits. -/
theorem length_decimalNat_mono {m n : ℕ} (h : m ≤ n) :
    (decimalNat m).length ≤ (decimalNat n).length :=
  length_decimalNat_le (length_decimalNat_pos n) (h.trans_lt (lt_pow_length_decimalNat n))

end Digits

section Point

variable {w w' f f' : List Byte}

/-- INTERNAL: the length of a decimal: both parts, and the point if there is a fraction. -/
theorem length_pointText (w f : List Byte) :
    (pointText w f).length = w.length + if f = [] then 0 else f.length + 1 := by
  unfold pointText
  split_ifs <;> simp

/-- INTERNAL: texts with the point in the same place compare as if it were not there. -/
theorem pointText_lt_iff_of_eq (hw : w.length = w'.length) (hf : f.length = f'.length) :
    pointText w f < pointText w' f' ↔ w ++ f < w' ++ f' := by
  have hnil : f = [] ↔ f' = [] := by
    rw [← List.length_eq_zero_iff, hf, List.length_eq_zero_iff]
  unfold pointText
  by_cases h : f = []
  · rw [if_pos h, if_pos (hnil.mp h), h, hnil.mp h, List.append_nil, List.append_nil]
  · rw [if_neg h, if_neg (mt hnil.mpr h), append_lt_append_iff hw, append_lt_append_iff hw,
      List.cons_lt_cons_iff]
    simp

/-- INTERNAL: texts with the point in the same place are ordered like their digits. -/
theorem pointText_of_eq (hs : Digits (w ++ f)) (hs' : Digits (w' ++ f'))
    (hlen : (pointText w f).length = (pointText w' f').length) (heq : w.length = w'.length) :
    (pointText w f < pointText w' f' ↔ numeralValue (w ++ f) < numeralValue (w' ++ f')) ∧
    (pointText w f = pointText w' f' ↔ numeralValue (w ++ f) = numeralValue (w' ++ f')) := by
  have hf : f.length = f'.length := by
    rw [length_pointText, length_pointText] at hlen
    split_ifs at hlen with h h' h' <;> simp_all
  have hwf : (w ++ f).length = (w' ++ f').length := by
    rw [List.length_append, List.length_append, heq, hf]
  rw [numeralValue_inj hs hs' hwf, pointText_lt_iff_of_eq heq hf, lt_iff_numeralValue_lt hs hs' hwf]
  refine ⟨Iff.rfl, ?_, ?_⟩
  · intro htext
    by_contra hne
    rcases lt_or_gt_of_ne hne with hlt | hlt
    · exact absurd htext ((pointText_lt_iff_of_eq heq hf).mpr hlt).ne
    · exact absurd htext.symm ((pointText_lt_iff_of_eq heq.symm hf.symm).mpr hlt).ne
  · intro happend
    obtain ⟨rfl, rfl⟩ := List.append_inj happend heq
    rfl

end Point

section Front

/-!
Two texts that begin with digits, the first with fewer.  Where it has its first byte that is no
digit, the other still has a digit.
-/

variable {w w' : List Byte}

/-- INTERNAL: the digits, as a number, are not above as many of the longer string. -/
def LeadLe (w w' : List Byte) : Prop :=
  numeralValue w ≤ numeralValue w' / 10 ^ (w'.length - w.length)

/-- INTERNAL: the digits, as a number, are below as many of the longer string. -/
def LeadLt (w w' : List Byte) : Prop :=
  numeralValue w < numeralValue w' / 10 ^ (w'.length - w.length)

/-- INTERNAL: it can be decided which whole part comes first. -/
instance (w w' : List Byte) : Decidable (LeadLe w w') := inferInstanceAs (Decidable (_ ≤ _))

/-- INTERNAL: it can be decided which whole part comes strictly first. -/
instance (w w' : List Byte) : Decidable (LeadLt w w') := inferInstanceAs (Decidable (_ < _))

/-- INTERNAL: the leading digits are compared like numbers. -/
theorem lead_iff (hw : Digits w) (hw' : Digits w') (hlt : w.length < w'.length) :
    (w < w'.take w.length ↔ LeadLt w w') ∧ (w ≤ w'.take w.length ↔ LeadLe w w') := by
  have htake : (w'.take w.length).length = w.length := by
    rw [List.length_take]
    omega
  have hdigits : Digits (w'.take w.length) := fun b hb => hw' b (List.mem_of_mem_take hb)
  rw [LeadLt, LeadLe, ← numeralValue_take hw', ← not_lt, ← not_lt,
    lt_iff_numeralValue_lt hw hdigits htake.symm, lt_iff_numeralValue_lt hdigits hw htake]
  exact ⟨Iff.rfl, Iff.rfl⟩

/-- INTERNAL: **the digits in front decide.**  If they are equal as far as the shorter go, the
byte behind them does: one below the digits comes first, one above them does not. -/
theorem front_lt_iff (hw : Digits w) (hw' : Digits w') (hlt : w.length < w'.length) (b : Byte)
    (r r' : List Byte) :
    ((b : ℕ) < 48 → (w ++ b :: r < w' ++ r' ↔ LeadLe w w')) ∧
    (57 < (b : ℕ) → (w ++ b :: r < w' ++ r' ↔ LeadLt w w')) := by
  obtain ⟨hleadLt, hleadLe⟩ := lead_iff hw hw' hlt
  have htake : w.length = (w'.take w.length).length := by
    rw [List.length_take]
    omega
  obtain ⟨d, rest, hd⟩ := List.exists_cons_of_length_pos (l := w'.drop w.length)
    (by rw [List.length_drop]; omega)
  obtain ⟨n, hn, rfl⟩ := hw' d (List.mem_of_mem_drop (hd ▸ List.mem_cons_self ..))
  have hval := val_digitByte hn
  -- the longer text, cut where the other has no digit any more
  have hcut : w' ++ r' = w'.take w.length ++ digitByte n :: (rest ++ r') := by
    rw [← List.cons_append, ← hd, ← List.append_assoc, List.take_append_drop]
  rw [hcut, append_lt_append_iff htake, List.cons_lt_cons_iff, ← hleadLe, ← hleadLt,
    le_iff_lt_or_eq]
  constructor
  · intro hb
    have hbelow : b < digitByte n := by
      rw [Fin.lt_def]
      omega
    simp [hbelow]
  · intro hb
    have habove : digitByte n < b := by
      rw [Fin.lt_def]
      omega
    simp [habove.not_gt, habove.ne']

end Front

end ExternalSort.Lib
