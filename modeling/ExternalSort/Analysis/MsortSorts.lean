import ExternalSort.Analysis.MsortPrepare
import ExternalSort.Analysis.PassSizes

/-!
# When the merge sort sorts

The first pass merges all runs of the input at once, so after it the records are sorted;
every later pass cuts the sorted file into longer runs and merges these again.  The
result is in the output file if on every pass the runs cover the records, no iterator
reads over the end of its run, and the test for the output file comes out true exactly on
the last pass (`SizesFit`).

If not, the output file is not written, or misses records, or has records twice.
-/

set_option autoImplicit false

namespace ExternalSort.Analysis

open ExternalSort.Lib ExternalSort.Model

/-- Whenever `main` returns `0`, the output file holds the records, sorted: whatever the
library's `qsort` does with equal records, and whatever is in memory.
SRCLINE: msort.cc:12-115 -/
def Sorts (args : MsortArgs) (schema : Schema) (records : List Record) (fs : FileSystem) : Prop :=
  ∀ (env : Env) (fuel : ℕ) (fs' : FileSystem), msort fuel env args fs = some (0, fs') →
    SortedFile schema records (fs' args.outputFile)

/-- On a pass over `n` records in runs of `R`, with room for `a` records in a buffer, the
runs cover the records, the output file is taken exactly if it is the last pass, and no
iterator reads over the end of its run.
SRCLINE: msort.cc:74-83, library.cc:176-187 -/
def PassFits (k n a R : ℕ) : Prop :=
  (n : ℤ) ≤ numRuns n R * R ∧ (TakesOutput k n R ↔ n ≤ R * k) ∧ NoOverRead (min a R) R n

/-- INTERNAL: it can be decided whether a pass fits. -/
instance (k n a R : ℕ) : Decidable (PassFits k n a R) := inferInstanceAs (Decidable (_ ∧ _))

/-- There is a pass to make, a record has room in a buffer, and every pass fits.
SRCLINE: msort.cc:69-99 -/
def SizesFit (k n L a : ℕ) : Prop :=
  L < n ∧ 1 ≤ a ∧ ∀ j : ℕ, L * k ^ j < n → PassFits k n a (L * k ^ j)

/-! ## One pass -/

section Pass

variable {job : Job} {j R m : ℕ} {records data written : List Record} {rest : ℕ → List Record}

/-- INTERNAL: a pass that fits sorts the records, whatever run length they are read with
next. -/
theorem RunsOf.pass (hjob : Ready job) (hroom : job.schema.recordSize ≤ job.bufSize) (hR : 1 ≤ R)
    (hplain : PlainRecords job.schema.recordSize records)
    (h : RunsOf job.schema R records data)
    (hno : NoOverRead (min (job.bufSize / job.schema.recordSize) R) R records.length)
    (hcover : records.length ≤ R * m)
    (hdraws : Draws (recordLe job.schema) m (passStreams job j R data.flatten) written rest)
    (hnone : pooled m rest = []) (R' : ℕ) : RunsOf job.schema R' records written := by
  have hlen := h.perm.length_eq
  have hstreams := passStreams_eq_runs hjob.buf_lt hjob.size_pos hroom hR (hplain.perm h.perm)
    (hlen ▸ hno) j
  rw [hstreams] at hdraws
  have hsort := hdraws.mergeSort_eq (recordLe_trans job.schema) (recordLe_total job.schema)
    fun i _ => (hjob.inside.recordSorted_iff _).mp (h.sorted i)
  rw [pooled_blocks, List.take_of_length_le (by omega), hnone, List.mergeSort_nil,
    List.append_nil] at hsort
  rw [← hsort]
  have hsorted : RecordSorted job.schema (data.mergeSort (recordLe job.schema)) :=
    (hjob.inside.recordSorted_iff _).mpr (List.pairwise_mergeSort (recordLe_trans job.schema)
      (recordLe_total job.schema) data)
  exact ⟨(List.mergeSort_perm data _).trans h.perm, fun i =>
    hsorted.sublist ((List.take_sublist _ _).trans (List.drop_sublist _ _))⟩

/-- INTERNAL: without room for a record a pass writes nothing. -/
theorem draws_eq_nil (hjob : Ready job) (hsmall : job.bufSize < job.schema.recordSize)
    {contents : List Byte}
    (hdraws : Draws (recordLe job.schema) m (passStreams job j R contents) written rest) :
    written = [] := by
  have hperm := hdraws.perm
  rw [pooled_eq_nil.mpr fun i _ => hjob.passStreams_eq_nil hsmall j R contents i] at hperm
  exact (List.append_eq_nil_iff.mp hperm.eq_nil).1

/-- INTERNAL: a pass with room for a record writes what its iterators deliver. -/
theorem draws_length (hjob : Ready job) (hroom : job.schema.recordSize ≤ job.bufSize) (hR : 1 ≤ R)
    (hplain : PlainRecords job.schema.recordSize data)
    (hdraws : Draws (recordLe job.schema) m (passStreams job j R data.flatten) written rest)
    (hnone : pooled m rest = []) :
    PlainRecords job.schema.recordSize written ∧ written.length = ∑ i ∈ Finset.range m,
      deliverCount (min (job.bufSize / job.schema.recordSize) R) R (data.length - R * i) := by
  have hperm := hdraws.perm
  rw [hnone, List.append_nil] at hperm
  refine ⟨(plainRecords_pooled hjob.buf_lt hjob.size_pos hroom hR hplain j m).perm hperm, ?_⟩
  rw [hperm.length_eq, length_pooled_passStreams hjob.buf_lt hjob.size_pos hroom hR hplain]

end Pass

/-! ## All passes -/

section Passes

variable {job : Job} {k n L fuel j : ℕ} {c : Control} {fs₀ fs : FileSystem}
  {buf₀ buf : List Byte} {records runs : List Record}

/-- INTERNAL: the run lengths of the passes as natural numbers. -/
theorem mul_pow_eq_cast (hk : job.k = k) (L j : ℕ) : (L : ℤ) * job.k ^ j = (L * k ^ j : ℕ) := by
  rw [hk]
  push_cast
  rfl

/-- INTERNAL: every pass has runs of at least one record. -/
theorem one_le_mul_pow (hk : 2 ≤ k) (hL : 1 ≤ L) (j : ℕ) : 1 ≤ L * k ^ j :=
  Nat.mul_pos hL (Nat.pow_pos (by omega))

/-- INTERNAL: the passes are routed well if the tests come out right. -/
theorem routed_of_tests (hk : job.k = k) (hn : job.numRecords = n)
    (h1 : job.outputFile ≠ "tmp_file") (h2 : job.outputFile ≠ "tmp_file2")
    (htest : ∀ j : ℕ, L * k ^ j < n →
      (TakesOutput k n (L * k ^ j : ℕ) ↔ n ≤ L * k ^ j * k)) : Routed job L := by
  refine ⟨h1, h2, fun j hlt => ?_⟩
  rw [mul_pow_eq_cast hk, mul_pow_eq_cast hk, hn] at *
  rw [hk, htest j (by exact_mod_cast hlt), pow_succ, mul_assoc]
  exact Nat.cast_le.symm

/-- INTERNAL: **passes that fit leave the records sorted in the output.**  The records are
followed as runs of the length the next pass reads them with.
SRCLINE: msort.cc:71-99 -/
theorem Reaches.sorted (hjob : Ready job) (hroom : job.schema.recordSize ≤ job.bufSize)
    (hk : job.k = k) (hn : job.numRecords = n) (hk2 : 2 ≤ k) (hL : 1 ≤ L)
    (h1 : job.outputFile ≠ "tmp_file") (h2 : job.outputFile ≠ "tmp_file2")
    (hfit : SizesFit k n L (job.bufSize / job.schema.recordSize))
    (hplain : PlainRecords job.schema.recordSize records) (hlength : records.length = n)
    (hruns : RunsOf job.schema L records runs) (hlen : job.bufSize ≤ buf₀.length)
    (hstart : fs₀ "tmp_file" = some runs.flatten)
    (h : Reaches job fuel ⟨L, false⟩ fs₀ buf₀ j c fs buf) (hdone : job.numRecords ≤ c.runLength) :
    SortedFile job.schema records (fs job.outputFile) := by
  obtain ⟨hlt, -, hfits⟩ := hfit
  have hroute := routed_of_tests hk hn h1 h2 fun j hj => (hfits j hj).2.1
  obtain ⟨-, data, hdata, hof⟩ := h.data hjob (by omega) (by omega) hroute
    (fun j data => RunsOf job.schema (L * k ^ j) records data)
    (by
      intro j data written rest hof hmore hdraws hnone
      rw [mul_pow_eq_cast hk, hn] at hmore hdraws hnone
      rw [Int.toNat_natCast] at hdraws
      obtain ⟨hcover, -, hno⟩ := hfits j (by exact_mod_cast hmore)
      refine hof.pass hjob hroom (one_le_mul_pow hk2 hL j) hplain (hlength ▸ hno) ?_ hdraws hnone _
      rw [hlength]
      exact le_mul_toNat hcover)
    hlen hstart (by omega) (by simpa using hruns)
  rw [currentFile, if_neg (not_lt.mpr hdone)] at hdata
  refine ⟨data, hdata, hof.perm, ?_⟩
  have hall := hof.sorted 0
  rw [h.runLength_eq, mul_pow_eq_cast hk, hn] at hdone
  have hle : data.length ≤ L * k ^ j := by
    rw [hof.perm.length_eq, hlength]
    exact_mod_cast hdone
  rwa [Nat.mul_zero, List.drop_zero, List.take_of_length_le hle] at hall

/-- INTERNAL: without room for a record the output is written, and empty. -/
theorem Reaches.empty (hjob : Ready job) (hsmall : job.bufSize < job.schema.recordSize)
    (hk : job.k = k) (hk2 : 2 ≤ k) (hL : 1 ≤ L) (hroute : Routed job L) (hlt : L < job.numRecords)
    (hlen : job.bufSize ≤ buf₀.length) (hstart : fs₀ "tmp_file" = some runs.flatten)
    (h : Reaches job fuel ⟨L, false⟩ fs₀ buf₀ j c fs buf) (hdone : job.numRecords ≤ c.runLength) :
    fs job.outputFile = some [] := by
  obtain ⟨-, data, hdata, hnil⟩ := h.data hjob (by omega) (by omega) hroute
    (fun j data => 0 < j → data = [])
    (fun j data written rest _ _ hdraws _ _ => draws_eq_nil hjob hsmall hdraws)
    hlen hstart (by omega) (fun hpos => absurd hpos (lt_irrefl 0))
  rw [currentFile, if_neg (not_lt.mpr hdone)] at hdata
  have hj : 0 < j := by
    by_contra hzero
    rw [h.runLength_eq, Nat.eq_zero_of_not_pos hzero, pow_zero, mul_one] at hdone
    omega
  rw [hdata, hnil hj, List.flatten_nil]

/-- INTERNAL: what holds of the records before pass `j` when pass `i` over-reads. -/
structure Surplus (size n L k i j : ℕ) (data : List Record) : Prop where
  plain : PlainRecords size data
  enough : n ≤ data.length
  more : i < j → n < data.length
  cause : n < data.length → ¬ L * k ^ j ∣ n

/-- INTERNAL: the pass that over-reads writes more records than there are, and as its run
length does not divide their number, no later pass has runs for exactly that many. -/
theorem Surplus.pass {size i j m : ℕ} {data written : List Record} {rest : ℕ → List Record}
    (hjob : Ready job) (hsize : size = job.schema.recordSize) (hroom : size ≤ job.bufSize)
    (hk : 2 ≤ k) (hL : 1 ≤ L) (hRn : L * k ^ j < n) (hcover : n ≤ L * k ^ j * m)
    (hover : ¬ NoOverRead (min (job.bufSize / size) (L * k ^ i)) (L * k ^ i) n)
    (h : Surplus size n L k i j data)
    (hdraws : Draws (recordLe job.schema) m (passStreams job j (L * k ^ j) data.flatten) written
      rest) (hnone : pooled m rest = []) : Surplus size n L k i (j + 1) written := by
  subst hsize
  have hR := one_le_mul_pow hk hL j
  have hcap : 0 < job.bufSize / job.schema.recordSize := Nat.div_pos hroom hjob.size_pos
  have hcap' := (Nat.div_le_self job.bufSize job.schema.recordSize).trans_lt hjob.buf_lt
  obtain ⟨hplain, hcount⟩ := draws_length hjob hroom hR h.plain hdraws hnone
  obtain ⟨henough, hmore, hcause⟩ := surplus_sum (lt_min hcap hR) (min_le_right _ _)
    ((min_le_left _ _).trans_lt hcap') hRn h.enough hcover h.cause
  rw [← hcount] at henough hmore hcause
  refine ⟨hplain, henough, fun hij => hmore ?_, fun hlt hdvd => ?_⟩
  · rcases Nat.lt_succ_iff_lt_or_eq.mp hij with hlt | rfl
    · exact Or.inl (h.more hlt)
    · exact Or.inr hover
  · exact hcause hlt ((Nat.mul_dvd_mul_left L (pow_dvd_pow k (Nat.le_succ j))).trans hdvd)

/-- INTERNAL: **an over-read is never made good.**
SRCLINE: library.cc:184-188 -/
theorem Reaches.overRead (hjob : Ready job) (hroom : job.schema.recordSize ≤ job.bufSize)
    (hk : job.k = k) (hn : job.numRecords = n) (hk2 : 2 ≤ k) (hL : 1 ≤ L) (hroute : Routed job L)
    (hn24 : n < 2 ^ 24) (hplain : PlainRecords job.schema.recordSize runs)
    (hlength : runs.length = n) (hlen : job.bufSize ≤ buf₀.length)
    (hstart : fs₀ "tmp_file" = some runs.flatten) {i : ℕ} (hi : L * k ^ i < n)
    (hover : ¬ NoOverRead (min (job.bufSize / job.schema.recordSize) (L * k ^ i)) (L * k ^ i) n)
    (h : Reaches job fuel ⟨L, false⟩ fs₀ buf₀ j c fs buf) (hdone : job.numRecords ≤ c.runLength) :
    ∃ data : List Record, PlainRecords job.schema.recordSize data ∧ n < data.length ∧
      fs job.outputFile = some data.flatten := by
  have hlt : L < n := (Nat.le_mul_of_pos_right L (Nat.pow_pos (by omega))).trans_lt hi
  obtain ⟨-, data, hdata, hsurplus⟩ := h.data hjob (by omega) (by omega) hroute
    (fun j data => Surplus job.schema.recordSize n L k i j data)
    (by
      intro j data written rest hQ hless hdraws hnone
      rw [mul_pow_eq_cast hk, hn] at hless hdraws hnone
      rw [Int.toNat_natCast] at hdraws
      have hR := one_le_mul_pow hk2 hL j
      obtain ⟨-, -, hcover⟩ := numRuns_bounds (show (0 : ℤ) < (L * k ^ j : ℕ) by omega) hless
        (by exact_mod_cast hn24)
      exact hQ.pass hjob rfl hroom hk2 hL (by exact_mod_cast hless) (le_mul_toNat hcover) hover
        hdraws hnone)
    hlen hstart (by omega)
    ⟨hplain, hlength.ge, fun hi0 => absurd hi0 (Nat.not_lt_zero i),
      fun hne => absurd hlength hne.ne'⟩
  rw [currentFile, if_neg (not_lt.mpr hdone)] at hdata
  refine ⟨data, hsurplus.plain, hsurplus.more ?_, hdata⟩
  rw [h.runLength_eq, mul_pow_eq_cast hk, hn] at hdone
  have hpow : L * k ^ i < L * k ^ j := hi.trans_le (by exact_mod_cast hdone)
  exact (Nat.pow_lt_pow_iff_right (by omega)).mp (Nat.lt_of_mul_lt_mul_left hpow)

end Passes

end ExternalSort.Analysis
