import ExternalSort.Model.MakeRuns

/-!
# The number of records of a large file

`filesize` keeps both the position of the handle and the size of the file in an `int`, and
`number_of_records` divides that `int` by a `size_t`.  A size goes through three conversions:
to `int`, to `size_t` for the division, and back to `int`.

* A size whose remainder modulo `2 ^ 32` lies below `2 ^ 31` is cut to this remainder
  (`count_of_low`).
* Any other size becomes negative, and then a `size_t` just below `2 ^ 64`
  (`count_of_high`).
* The saved position is either cut in the same way, or negative, and then the handle stays at
  the end of the file (`numberOfRecordsCall_pos`).
-/

set_option autoImplicit false

namespace ExternalSort.Analysis

open ExternalSort.Lib ExternalSort.Model

/-- The number of records of a file of `size` bytes comes out right: the file is below 2 GiB,
or it is shorter than one record, or the size is taken for a negative one and the quotient is
right by accident.
SRCLINE: library.cc:255-261 -/
def CountFits (size recordSize : ℕ) : Prop :=
  size < 2 ^ 31 ∨ (size % 2 ^ 32 < 2 ^ 31 ∧ size < recordSize) ∨
    (2 ^ 31 ≤ size % 2 ^ 32 ∧
      (2 ^ 64 - 2 ^ 32 + size % 2 ^ 32) / recordSize % 2 ^ 32 = size / recordSize)

/-- INTERNAL: it can be decided whether the count comes out right. -/
instance (size recordSize : ℕ) : Decidable (CountFits size recordSize) :=
  inferInstanceAs (Decidable (_ ∨ _))

/-- The position comes back: it is below 2 GiB, or it was the end of the file and is not left
again.
SRCLINE: library.cc:253-256 -/
def PositionFits (size pos : ℕ) : Prop := pos < 2 ^ 31 ∨ (pos = size ∧ 2 ^ 31 ≤ size % 2 ^ 32)

/-- INTERNAL: it can be decided whether the position is kept. -/
instance (size pos : ℕ) : Decidable (PositionFits size pos) :=
  inferInstanceAs (Decidable (_ ∨ _))

section Count

variable {size recordSize : ℕ}

/-- INTERNAL: a call returns what the other modules take it to return. -/
theorem numberOfRecordsCall_fst (fp : File) (recordSize : ℕ) :
    (numberOfRecordsCall fp recordSize).1 = numberOfRecords fp recordSize := by
  simp only [numberOfRecordsCall, filesizeCall, numberOfRecords, filesize, File.fseekEnd,
    File.ftell]

/-- INTERNAL: a size that is not taken for a negative one loses what lies above 4 GiB. -/
theorem count_of_low (h : size % 2 ^ 32 < 2 ^ 31) :
    toInt (toSizeT (toInt size) / recordSize : ℕ) = (size % 2 ^ 32 / recordSize : ℕ) := by
  have hint : toInt size = (size % 2 ^ 32 : ℕ) := by
    rw [toInt_eq]
    split_ifs <;> omega
  have hcut : toSizeT (toInt size) = size % 2 ^ 32 := by
    rw [hint, toSizeT_of_lt (Int.natCast_nonneg _) (by omega), Int.toNat_natCast]
  have hlt : size % 2 ^ 32 / recordSize < 2 ^ 31 := (Nat.div_le_self _ _).trans_lt h
  rw [hcut]
  generalize size % 2 ^ 32 / recordSize = count at hlt ⊢
  exact toInt_of_lt (by omega) (by omega)

/-- INTERNAL: a size that is taken for a negative one is extended by its sign. -/
theorem toSizeT_of_high (h : 2 ^ 31 ≤ size % 2 ^ 32) :
    toSizeT (toInt size) = 2 ^ 64 - 2 ^ 32 + size % 2 ^ 32 := by
  have hint : toInt size = (size % 2 ^ 32 : ℕ) - 2 ^ 32 := by
    rw [toInt_eq]
    split_ifs <;> omega
  rw [hint, toSizeT]
  omega

/-- INTERNAL: an `int` is a count below `2 ^ 31` if the remainder is. -/
theorem toInt_eq_natCast_iff {x n : ℕ} (hn : n < 2 ^ 31) :
    toInt x = n ↔ x % 2 ^ 32 = n := by
  rw [toInt_eq]
  split_ifs <;> omega

/-- INTERNAL: cutting off what lies above 4 GiB keeps the quotient only if there is nothing to
cut off, or nothing to count. -/
theorem div_mod_eq_div_iff (hr : 0 < recordSize) (h : size % 2 ^ 32 < 2 ^ 31) :
    size % 2 ^ 32 / recordSize = size / recordSize ↔ size < 2 ^ 31 ∨ size < recordSize := by
  constructor
  · intro heq
    by_contra hlarge
    obtain ⟨hsize, hrecord⟩ := not_or.mp hlarge
    -- the quotients agree, so the cut is shorter than a record; then nothing is left to count
    have hcut : size < size % 2 ^ 32 + recordSize := by
      have h1 := Nat.lt_mul_div_succ size hr
      have h2 := Nat.mul_div_le (size % 2 ^ 32) recordSize
      rw [← heq, Nat.mul_succ] at h1
      omega
    have hzero : size % 2 ^ 32 / recordSize = 0 := Nat.div_eq_of_lt (by omega)
    have hpos : 0 < size / recordSize := Nat.div_pos (not_lt.mp hrecord) hr
    omega
  · rintro (hsize | hrecord)
    · rw [Nat.mod_eq_of_lt (by omega)]
    · rw [Nat.div_eq_of_lt hrecord, Nat.div_eq_of_lt (by omega)]

/-- INTERNAL: **when the count is right.**
SRCLINE: library.cc:252-262 -/
theorem numberOfRecords_eq_div_iff (fp : File) (hr : 0 < recordSize)
    (hcount : fp.contents.length / recordSize < 2 ^ 31) :
    numberOfRecords fp recordSize = (fp.contents.length / recordSize : ℕ) ↔
      CountFits fp.contents.length recordSize := by
  unfold numberOfRecords filesize CountFits
  generalize fp.contents.length = size at hcount ⊢
  rcases lt_or_ge (size % 2 ^ 32) (2 ^ 31) with hlow | hhigh
  · rw [count_of_low hlow, Nat.cast_inj, div_mod_eq_div_iff hr hlow]
    omega
  · rw [toSizeT_of_high hhigh, toInt_eq_natCast_iff hcount]
    omega

end Count

/-- INTERNAL: where the handle is after the call.
SRCLINE: library.cc:253-256 -/
theorem numberOfRecordsCall_pos (fp : File) (recordSize : ℕ) :
    (numberOfRecordsCall fp recordSize).2.pos =
      if 0 ≤ toInt fp.pos then (toInt fp.pos).toNat else fp.contents.length := by
  have htell : fp.ftell = fp.pos := rfl
  simp only [numberOfRecordsCall, filesizeCall]
  rw [htell]
  split_ifs with h
  · exact fseek_pos _ h
  · rw [fseek_of_neg _ (not_le.mp h)]
    rfl

/-- INTERNAL: **when the position comes back.**
SRCLINE: library.cc:253-256 -/
theorem numberOfRecordsCall_pos_eq_iff (fp : File) (recordSize : ℕ) :
    (numberOfRecordsCall fp recordSize).2.pos = fp.pos ↔
      PositionFits fp.contents.length fp.pos := by
  rw [numberOfRecordsCall_pos, PositionFits, toInt_eq]
  generalize fp.contents.length = size
  generalize fp.pos = pos
  split_ifs <;> omega

/-- SOURCE: library.cc:252-262 — **when the number of records is right.**  If it fits an `int`,
`number_of_records` returns the number of complete records and leaves the position of the
handle as it was if and only if both the size and the position survive their way through
`int`. -/
theorem number_of_records_iff (fp : File) (recordSize : ℕ) (hr : 0 < recordSize)
    (hcount : fp.contents.length / recordSize < 2 ^ 31) :
    ((numberOfRecordsCall fp recordSize).1 = (fp.contents.length / recordSize : ℕ) ∧
      (numberOfRecordsCall fp recordSize).2.pos = fp.pos) ↔
    CountFits fp.contents.length recordSize ∧ PositionFits fp.contents.length fp.pos := by
  rw [numberOfRecordsCall_fst, numberOfRecords_eq_div_iff fp hr hcount,
    numberOfRecordsCall_pos_eq_iff]

/-- A file of `size` bytes, with the handle at `pos`. -/
def fileOfSize (size pos : ℕ) : File := ⟨List.replicate size 97, pos, false⟩

/-- A thousand records of two bytes, with the handle behind the first. -/
theorem number_of_records_thousand :
    (numberOfRecordsCall (fileOfSize 2000 2) 2).1 = ((fileOfSize 2000 2).contents.length / 2 : ℕ) ∧
    (numberOfRecordsCall (fileOfSize 2000 2) 2).2.pos = (fileOfSize 2000 2).pos := by
  have hlen : (fileOfSize 2000 2).contents.length = 2000 := List.length_replicate
  apply (number_of_records_iff (fileOfSize 2000 2) 2 (by decide) (by rw [hlen]; decide)).mpr
  rw [hlen]
  exact ⟨Or.inl (by decide), Or.inl (by decide)⟩

/-- In a file of 4 GiB no records of a kibibyte are found, and the handle goes from the middle
to the end. -/
theorem number_of_records_large_file :
    (numberOfRecordsCall (fileOfSize (2 ^ 32) (2 ^ 31)) 1024).1 = 0 ∧
    (fileOfSize (2 ^ 32) (2 ^ 31)).contents.length / 1024 = 2 ^ 22 ∧
    (numberOfRecordsCall (fileOfSize (2 ^ 32) (2 ^ 31)) 1024).2.pos = 2 ^ 32 := by
  have hlen : (fileOfSize (2 ^ 32) (2 ^ 31)).contents.length = 2 ^ 32 := List.length_replicate
  refine ⟨?_, by rw [hlen]; decide, ?_⟩
  · rw [numberOfRecordsCall_fst, numberOfRecords, filesize, hlen,
      count_of_low (by decide)]
    decide
  · rw [numberOfRecordsCall_pos, hlen]
    decide

/-- **Files below 2 GiB**, and only these, are counted right from every position and for every
size of records. -/
theorem number_of_records_every_iff (contents : List Byte) :
    (∀ pos ≤ contents.length, ∀ recordSize, 0 < recordSize →
      contents.length / recordSize < 2 ^ 31 →
      (numberOfRecordsCall ⟨contents, pos, false⟩ recordSize).1 =
        (contents.length / recordSize : ℕ) ∧
      (numberOfRecordsCall ⟨contents, pos, false⟩ recordSize).2.pos = pos) ↔
    contents.length < 2 ^ 31 := by
  constructor
  · intro h
    by_contra hlarge
    -- a handle at 2 GiB is moved, unless the file ends there; then records of two bytes are lost
    obtain ⟨-, hpos⟩ := h (2 ^ 31) (by omega) (contents.length + 1) (by omega)
      (by rw [Nat.div_eq_of_lt (Nat.lt_succ_self _)]; decide)
    have hend := (numberOfRecordsCall_pos_eq_iff ⟨contents, 2 ^ 31, false⟩ _).mp hpos
    have hlen : contents.length = 2 ^ 31 :=
      (hend.resolve_left (lt_irrefl _)).1.symm
    have htwo : contents.length / 2 < 2 ^ 31 := by omega
    obtain ⟨hcount, -⟩ := h 0 (Nat.zero_le _) 2 (by decide) htwo
    rw [numberOfRecordsCall_fst] at hcount
    have hfits := (numberOfRecords_eq_div_iff ⟨contents, 0, false⟩ (by decide) htwo).mp hcount
    rw [hlen] at hfits
    revert hfits
    decide
  · intro hsmall pos hpos recordSize hr hcount
    rw [numberOfRecordsCall_fst]
    exact ⟨(numberOfRecords_eq_div_iff ⟨contents, pos, false⟩ hr hcount).mpr (Or.inl hsmall),
      (numberOfRecordsCall_pos_eq_iff ⟨contents, pos, false⟩ _).mpr
        (Or.inl (hpos.trans_lt hsmall))⟩

end ExternalSort.Analysis
