import ExternalSort.Analysis.MakeRuns
import ExternalSort.Analysis.MsortPass
import ExternalSort.Analysis.PassRouting

/-!
# How many records a pass delivers

A pass computes the number of its runs from the number of records of the input, in
single precision, and its iterators refill by a fixed number of records.  On a file of
complete records the streams are blocks of the file.  They are exactly its runs if no
iterator reads over the end of its own (`NoOverRead`); if one does, the pass delivers
more records than there are.
-/

set_option autoImplicit false

namespace ExternalSort.Analysis

open ExternalSort.Lib ExternalSort.Model

/-- INTERNAL: runs that cover the records, as natural numbers. -/
theorem le_mul_toNat {n R : ℕ} {m : ℤ} (h : (n : ℤ) ≤ m * R) : n ≤ R * m.toNat := by
  rcases le_or_gt 0 m with hpos | hneg
  · obtain ⟨m, rfl⟩ := Int.eq_ofNat_of_zero_le hpos
    rw [Int.toNat_natCast, mul_comm]
    exact_mod_cast h
  · have hprod := mul_nonpos_of_nonpos_of_nonneg hneg.le (Int.natCast_nonneg R)
    omega

/-! ## The records of one run -/

/-- No iterator over a run of `R` records, refilling by `a`, comes to the end of a file of
`c` records with its last refill while records of the next run are left there.
SRCLINE: library.cc:176-187 -/
def NoOverRead (a R c : ℕ) : Prop := c % R = 0 ∨ roundUp R a ≤ R + c % R

/-- INTERNAL: it can be decided whether a run reads on into the next. -/
instance (a R c : ℕ) : Decidable (NoOverRead a R c) := inferInstanceAs (Decidable (_ ∨ _))

section Counts

variable {a R c : ℕ}

/-- INTERNAL: rounding up adds less than a refill. -/
theorem roundUp_lt (R : ℕ) (ha : 0 < a) : roundUp R a < R + a := by
  have hle : (R + a - 1) / a * a ≤ R + a - 1 := Nat.div_mul_le_self _ _
  unfold roundUp
  omega

/-- INTERNAL: without over-reading every iterator delivers its run. -/
theorem deliverCount_of_noOverRead (ha : 0 < a) (haR : a ≤ R) (ha31 : a < 2 ^ 31)
    (h : NoOverRead a R c) (i : ℕ) : deliverCount a R (c - R * i) = min R (c - R * i) := by
  unfold deliverCount
  rw [if_pos ha31, if_neg]
  rintro ⟨hlong, hshort⟩
  have hup := roundUp_lt R ha
  -- the file ends within one run behind this one
  have hsplit : c = (c - R * i - R) + R * (i + 1) := by
    rw [Nat.mul_succ]
    omega
  have hmod : c % R = c - R * i - R := by
    rw [hsplit, Nat.add_mul_mod_self_left, ← hsplit]
    exact Nat.mod_eq_of_lt (by omega)
  cases h with
  | inl hfull => omega
  | inr hcovered => omega

/-- INTERNAL: an iterator delivers at least its run, or all there is. -/
theorem min_le_deliverCount (ha31 : a < 2 ^ 31) (avail : ℕ) :
    min R avail ≤ deliverCount a R avail := by
  unfold deliverCount
  rw [if_pos ha31]
  split_ifs <;> omega

/-- INTERNAL: the iterator that over-reads is that of the last full run. -/
theorem lt_deliverCount_of_overRead (ha31 : a < 2 ^ 31) (hR : 0 < R) (hRc : R < c)
    (h : ¬ NoOverRead a R c) : R < deliverCount a R (c - R * (c / R - 1)) := by
  unfold NoOverRead at h
  push Not at h
  obtain ⟨hpart, hshort⟩ := h
  have hq : 1 ≤ c / R := Nat.div_pos hRc.le hR
  have hdiv := Nat.div_add_mod c R
  have havail : c - R * (c / R - 1) = R + c % R := by
    rw [Nat.mul_sub, Nat.mul_one]
    have hle : R ≤ R * (c / R) := Nat.le_mul_of_pos_right R hq
    omega
  rw [havail]
  unfold deliverCount
  rw [if_pos ha31, if_pos ⟨by omega, hshort⟩]
  omega

/-- INTERNAL: the blocks of a file, added up. -/
theorem sum_min_blocks (R c m : ℕ) :
    ∑ i ∈ Finset.range m, min R (c - R * i) = min c (R * m) := by
  induction m with
  | zero => simp
  | succ m ih =>
    rw [Finset.sum_range_succ, ih, Nat.mul_succ]
    omega

/-- INTERNAL: `m` iterators deliver at least the records there are in `m` runs. -/
theorem le_sum_deliverCount (ha31 : a < 2 ^ 31) (m : ℕ) :
    min c (R * m) ≤ ∑ i ∈ Finset.range m, deliverCount a R (c - R * i) := by
  rw [← sum_min_blocks]
  exact Finset.sum_le_sum fun i _ => min_le_deliverCount ha31 _

/-- INTERNAL: with over-reading they deliver more. -/
theorem lt_sum_deliverCount (ha31 : a < 2 ^ 31) (hR : 0 < R) (hRc : R < c) {m : ℕ}
    (hm : c ≤ R * m) (h : ¬ NoOverRead a R c) :
    c < ∑ i ∈ Finset.range m, deliverCount a R (c - R * i) := by
  have hlast : c / R - 1 < m := by
    have hle : c / R ≤ m := Nat.div_le_of_le_mul hm
    have hpos : 1 ≤ c / R := Nat.div_pos hRc.le hR
    omega
  have hlt : ∑ i ∈ Finset.range m, min R (c - R * i) <
      ∑ i ∈ Finset.range m, deliverCount a R (c - R * i) := by
    refine Finset.sum_lt_sum (fun i _ => min_le_deliverCount ha31 _)
      ⟨c / R - 1, Finset.mem_range.mpr hlast, ?_⟩
    exact (min_le_left _ _).trans_lt (lt_deliverCount_of_overRead ha31 hR hRc h)
  rwa [sum_min_blocks, min_eq_left hm] at hlt

/-- INTERNAL: the records delivered from a file that has at least `n` of them, by iterators
whose runs cover `n`.  A surplus stays unless the runs cover exactly `n`. -/
theorem surplus_sum (ha : 0 < a) (haR : a ≤ R) (ha31 : a < 2 ^ 31) {n m : ℕ} (hRn : R < n)
    (hle : n ≤ c) (hcover : n ≤ R * m) (hcause : n < c → ¬ R ∣ n) :
    n ≤ ∑ i ∈ Finset.range m, deliverCount a R (c - R * i) ∧
      (n < c ∨ ¬ NoOverRead a R n → n < ∑ i ∈ Finset.range m, deliverCount a R (c - R * i)) ∧
      (n < ∑ i ∈ Finset.range m, deliverCount a R (c - R * i) → ¬ R ∣ n) := by
  have hleast := le_sum_deliverCount (a := a) (R := R) (c := c) ha31 m
  refine ⟨(le_min hle hcover).trans hleast, ?_, ?_⟩
  · intro h
    by_cases hsurplus : n < c
    · have hne : n ≠ R * m := fun heq => hcause hsurplus (Dvd.intro m heq.symm)
      omega
    · obtain rfl : n = c := by omega
      exact lt_sum_deliverCount ha31 (by omega) hRn hcover (h.resolve_left hsurplus)
  · intro hlt hdvd
    obtain rfl : n = c := by
      by_contra hne
      exact hcause (by omega) hdvd
    have hno : NoOverRead a R n := Or.inl (Nat.mod_eq_zero_of_dvd hdvd)
    rw [Finset.sum_congr rfl fun i _ => deliverCount_of_noOverRead ha haR ha31 hno i,
      sum_min_blocks, min_eq_left hcover] at hlt
    exact lt_irrefl n hlt

end Counts

/-! ## A pass over a file of records -/

section Records

variable {job : Job} {R : ℕ} {data : List Record}

/-- INTERNAL: the records behind the start of a run. -/
theorem available_flatten (j i : ℕ) (hs : 0 < job.schema.recordSize)
    (hplain : PlainRecords job.schema.recordSize data) :
    available data.flatten (job.runArgs j R i) = data.length - R * i := by
  have hstart : (job.runArgs j R i).startPos = R * i * job.schema.recordSize := Nat.mul_right_comm ..
  rw [available, hstart]
  exact slotCount_flatten hplain.length_eq hs _

/-- INTERNAL: the streams of a pass are blocks of the file.
SRCLINE: msort.cc:88, library.cc:171-215 -/
theorem passStreams_flatten (hbuf : job.bufSize < 2 ^ 31) (hs : 0 < job.schema.recordSize)
    (hroom : job.schema.recordSize ≤ job.bufSize) (hR : 1 ≤ R)
    (hplain : PlainRecords job.schema.recordSize data) (j i : ℕ) :
    passStreams job j R data.flatten i = (data.drop (R * i)).take
      (deliverCount (min (job.bufSize / job.schema.recordSize) R) R (data.length - R * i)) := by
  have htotal : total data.flatten (job.runArgs j R i) =
      deliverCount (min (job.bufSize / job.schema.recordSize) R) R (data.length - R * i) := by
    rw [total, refill_runArgs hbuf, available_flatten j i hs hplain]
    rfl
  have hle := deliverCount_le (min (job.bufSize / job.schema.recordSize) R) R (data.length - R * i)
  rw [passStreams, stream_of_works _ (works_runArgs hbuf hs hroom hR i)]
  apply List.ext_getElem
  · rw [length_delivered, htotal, List.length_take, List.length_drop]
    omega
  · intro d h1 h2
    rw [length_delivered, htotal] at h1
    have hd : R * i + d < data.length := by omega
    have hstart : (job.runArgs j R i).startPos = R * i * job.schema.recordSize :=
      Nat.mul_right_comm ..
    have hrecord : runRecord data.flatten (job.runArgs j R i) d = data[R * i + d] := by
      rw [runRecord, hstart]
      exact slot_flatten hplain.length_eq hd
    simp only [delivered, List.getElem_map, List.getElem_range, List.getElem_take,
      List.getElem_drop]
    rw [hrecord]
    exact hplain.strncpy_eq (List.getElem_mem hd)

/-- INTERNAL: the number of records a pass delivers. -/
theorem length_pooled_passStreams (hbuf : job.bufSize < 2 ^ 31) (hs : 0 < job.schema.recordSize)
    (hroom : job.schema.recordSize ≤ job.bufSize) (hR : 1 ≤ R)
    (hplain : PlainRecords job.schema.recordSize data) (j m : ℕ) :
    (pooled m (passStreams job j R data.flatten)).length = ∑ i ∈ Finset.range m,
      deliverCount (min (job.bufSize / job.schema.recordSize) R) R (data.length - R * i) := by
  rw [length_pooled]
  apply Finset.sum_congr rfl
  intro i _
  rw [passStreams_flatten hbuf hs hroom hR hplain, List.length_take, List.length_drop]
  exact min_eq_left (deliverCount_le _ _ _)

/-- INTERNAL: without over-reading the streams are the runs.
SRCLINE: library.h:46-52 -/
theorem passStreams_eq_runs (hbuf : job.bufSize < 2 ^ 31) (hs : 0 < job.schema.recordSize)
    (hroom : job.schema.recordSize ≤ job.bufSize) (hR : 1 ≤ R)
    (hplain : PlainRecords job.schema.recordSize data)
    (hno : NoOverRead (min (job.bufSize / job.schema.recordSize) R) R data.length) (j : ℕ) :
    passStreams job j R data.flatten = fun i => (data.drop (R * i)).take R := by
  have hcap : 0 < job.bufSize / job.schema.recordSize := Nat.div_pos hroom hs
  have hcap' : job.bufSize / job.schema.recordSize ≤ job.bufSize := Nat.div_le_self _ _
  funext i
  rw [passStreams_flatten hbuf hs hroom hR hplain,
    deliverCount_of_noOverRead (by omega) (min_le_right _ _) (by omega) hno, ← List.length_drop]
  exact List.take_eq_take_min.symm

/-- INTERNAL: every record a pass delivers is one of the file. -/
theorem plainRecords_pooled (hbuf : job.bufSize < 2 ^ 31) (hs : 0 < job.schema.recordSize)
    (hroom : job.schema.recordSize ≤ job.bufSize) (hR : 1 ≤ R)
    (hplain : PlainRecords job.schema.recordSize data) (j m : ℕ) :
    PlainRecords job.schema.recordSize (pooled m (passStreams job j R data.flatten)) := by
  have hmem : ∀ r ∈ pooled m (passStreams job j R data.flatten), r ∈ data := by
    intro r hr
    obtain ⟨i, -, hr⟩ := mem_pooled.mp hr
    rw [passStreams_flatten hbuf hs hroom hR hplain] at hr
    exact List.mem_of_mem_drop (List.mem_of_mem_take hr)
  exact ⟨fun r hr => hplain.length_eq r (hmem r hr), fun r hr => hplain.nulFree r (hmem r hr)⟩

end Records

end ExternalSort.Analysis
