import ExternalSort.Analysis.SchemaLayout
import ExternalSort.Analysis.SharedHandle

/-!
# What a run iterator delivers

An iterator refills its buffer with `refillCount` records at a time, whatever is left of
its run.  As long as the refills are full (`OnSchedule`) it counts its run down and
stops at its end.  A refill that comes back short (`CutShort`) replaces the count by
what was read, so the iterator then delivers the rest of the file, also when that
reaches into the next run.

`deliverCount` is the number of records delivered in all, `next_delivers` and
`next_exhausted` are the two things a call of `next` can do, and `Progress` is the
invariant that carries them: it relates the fields of the iterator to the number `d`
of records delivered so far and never mentions the handle.
-/

set_option autoImplicit false

namespace ExternalSort.Analysis

open ExternalSort.Lib ExternalSort.Model

/-! ## The number of records delivered -/

/-- INTERNAL: the least multiple of `a` from `n` on: where the last of the full refills
that cover `n` records ends. -/
def roundUp (n a : ℕ) : ℕ := (n + a - 1) / a * a

/-- INTERNAL: the number of records an iterator delivers when it refills by `a`, has a run
of `len`, and `avail` records lie in the file.
SRCLINE: library.cc:176-190 -/
def deliverCount (a len avail : ℕ) : ℕ :=
  if a < 2 ^ 31 then
    if len < avail ∧ avail < roundUp len a then avail else min len avail
  else (toInt (min a avail : ℕ)).toNat

/-- INTERNAL: a multiple of `a` that covers `n` covers the refills of `n`. -/
theorem roundUp_le {n a q : ℕ} (h : n ≤ q * a) : roundUp n a ≤ q * a := by
  unfold roundUp
  rcases Nat.eq_zero_or_pos a with ha | ha
  · simp [ha]
  · have hlt : n + a - 1 < (q + 1) * a := by
      rw [Nat.succ_mul]
      omega
    exact Nat.mul_le_mul_right a (Nat.lt_succ_iff.mp ((Nat.div_lt_iff_lt_mul ha).mpr hlt))

/-- INTERNAL: a refill that starts before `n` ends no later than the refills of `n` do. -/
theorem le_roundUp {n a q : ℕ} (h : q * a < n) : q * a + a ≤ roundUp n a := by
  unfold roundUp
  rcases Nat.eq_zero_or_pos a with ha | ha
  · simp [ha]
  · have hle : (q + 1) * a ≤ n + a - 1 := by
      rw [Nat.succ_mul]
      omega
    rw [← Nat.succ_mul]
    exact Nat.mul_le_mul_right a ((Nat.le_div_iff_mul_le ha).mpr hle)

/-- INTERNAL: full refills that cover the run give exactly the run. -/
theorem deliverCount_of_covered {a len avail q : ℕ} (ha : a < 2 ^ 31) (hlen : len ≤ q * a)
    (havail : q * a ≤ avail) : deliverCount a len avail = len := by
  have hup := roundUp_le hlen
  unfold deliverCount
  rw [if_pos ha, if_neg (by omega)]
  omega

/-- INTERNAL: a refill inside the run that comes back short gives the rest of the file. -/
theorem deliverCount_of_short {a len avail q : ℕ} (ha : a < 2 ^ 31) (hlen : q * a < len)
    (havail : avail < q * a + a) : deliverCount a len avail = avail := by
  have hup := le_roundUp hlen
  unfold deliverCount
  rw [if_pos ha]
  split_ifs with h
  · rfl
  · omega

/-- INTERNAL: nothing is delivered that is not in the file. -/
theorem deliverCount_le (a len avail : ℕ) : deliverCount a len avail ≤ avail := by
  unfold deliverCount
  split_ifs with h1 h2
  · exact le_rfl
  · exact min_le_right _ _
  · have hle : toInt (min a avail : ℕ) ≤ (min a avail : ℕ) := toInt_le_self (Int.natCast_nonneg _)
    omega

/-! ## The invariant -/

/-- INTERNAL: the number of records a refill of this iterator asks for.
SRCLINE: library.cc:176-180 -/
def refill (args : RunArgs) : ℕ := refillCount args.bufSize args.schema.recordSize args.runLength

/-- INTERNAL: the number of complete records in the file from the start of the run on. -/
def available (contents : List Byte) (args : RunArgs) : ℕ :=
  slotCount contents args.schema.recordSize args.startPos

/-- INTERNAL: the `i`-th record of the file from the start of the run on. -/
def runRecord (contents : List Byte) (args : RunArgs) (i : ℕ) : Record :=
  slot contents args.schema.recordSize args.startPos i

/-- INTERNAL: the number of records the iterator delivers in all. -/
def total (contents : List Byte) (args : RunArgs) : ℕ :=
  deliverCount (refill args) args.runLength (available contents args)

/-- INTERNAL: every refill so far was full.  The iterator still counts its own run down,
and the records read so far end where a refill ends.
SRCLINE: library.cc:184-190 -/
structure OnSchedule (contents : List Byte) (args : RunArgs) (it : RunIterator) (d : ℕ) :
    Prop where
  left_nonneg : 0 ≤ it.leftInBuf
  records_left : it.recordsLeft = (args.runLength : ℤ) - d
  delivered_le : d ≤ args.runLength
  read_multiple : ∃ q : ℕ, (d : ℤ) + it.leftInBuf = (q * refill args : ℕ)
  read_le : (d : ℤ) + it.leftInBuf ≤ available contents args
  file_pos : it.filePos = args.startPos + args.schema.recordSize * ((d : ℤ) + it.leftInBuf)
  fits : refill args < 2 ^ 31 ∨ (d = 0 ∧ it.leftInBuf = 0)

/-- INTERNAL: the last refill came back short.  What it read is all that is left, and
both counters say so.
SRCLINE: library.cc:185-187 -/
structure CutShort (contents : List Byte) (args : RunArgs) (it : RunIterator) (d : ℕ) :
    Prop where
  records_left : it.recordsLeft = it.leftInBuf
  total_eq : d + it.leftInBuf.toNat = total contents args
  left_lt : it.leftInBuf < refill args
  file_pos : it.filePos = args.startPos + args.schema.recordSize * ((d : ℤ) + it.leftInBuf)

/-- INTERNAL: the state of an iterator after `d` deliveries.  The unread part of its buffer
holds the records from number `d` on.
SRCLINE: library.cc:171-215 -/
structure Progress (contents : List Byte) (args : RunArgs) (it : RunIterator) (d : ℕ) :
    Prop where
  schema_eq : it.schema = args.schema
  bufSize_eq : it.bufSize = args.bufSize
  runLength_eq : it.runLength = args.runLength
  window : ∀ j : ℕ, (j : ℤ) < it.leftInBuf →
    (it.buffer.drop (it.bufferPointer + j * args.schema.recordSize)).take args.schema.recordSize =
      runRecord contents args (d + j)
  mode : OnSchedule contents args it d ∨ CutShort contents args it d

section Invariant

variable {contents : List Byte} {args : RunArgs} {it : RunIterator} {d : ℕ}

/-- INTERNAL: every refill asks for the same number of records. -/
theorem Progress.asked_eq (h : Progress contents args it d) :
    refillCount it.bufSize it.schema.recordSize it.runLength = refill args := by
  rw [h.bufSize_eq, h.schema_eq, h.runLength_eq, refill]

/-- INTERNAL: a new iterator has delivered nothing. -/
theorem progress_new (contents : List Byte) (args : RunArgs) (handle : ℕ) (fp : File) :
    Progress contents args (RunIterator.new handle fp args).1 0 where
  schema_eq := rfl
  bufSize_eq := rfl
  runLength_eq := rfl
  window := by
    intro j hj
    simp only [RunIterator.new] at hj
    omega
  mode := Or.inl
    { left_nonneg := le_rfl
      records_left := by simp [RunIterator.new]
      delivered_le := Nat.zero_le _
      read_multiple := ⟨0, by simp [RunIterator.new]⟩
      read_le := by simp [RunIterator.new]
      file_pos := by simp [RunIterator.new]
      fits := Or.inr ⟨rfl, rfl⟩ }

/-- INTERNAL: what is at the front of a buffer after the bytes of a read were stored. -/
theorem drop_take_overwrite_zero (s data : List Byte) {i n : ℕ} (h : i + n ≤ data.length) :
    ((overwrite s 0 data).drop i).take n = (data.drop i).take n := by
  unfold overwrite
  split_ifs with hd
  · subst hd
    obtain rfl : n = 0 := by simp at h; omega
    simp
  · simp only [List.take_zero, Nat.zero_sub, List.replicate_zero, List.append_nil,
      List.nil_append]
    rw [List.drop_append_of_le_length (by omega), List.take_append_of_le_length (by simp; omega)]

/-- INTERNAL: the number of complete records the refill after `d` deliveries gets.
SRCLINE: library.cc:184 -/
theorem refill_items (hs : 0 < args.schema.recordSize) {fp : File} (hfp : fp.contents = contents)
    {pos : ℤ} (hpos : pos = args.startPos + args.schema.recordSize * (d : ℤ)) (count : ℕ) :
    ((fp.fseek pos).fread args.schema.recordSize count).2.1 =
      min count (available contents args - d) := by
  have hnat : pos.toNat = args.startPos + d * args.schema.recordSize := by
    rw [hpos, mul_comm]
    omega
  rw [fread_count _ _ hs, fseek_contents, fseek_pos _ (by rw [hpos]; positivity), hnat, hfp,
    slotCount_add]
  rfl

/-- INTERNAL: the records the refill after `d` deliveries stores.
SRCLINE: library.cc:182-184 -/
theorem refill_window (hs : 0 < args.schema.recordSize) {fp : File} (hfp : fp.contents = contents)
    {pos : ℤ} (hpos : pos = args.startPos + args.schema.recordSize * (d : ℤ)) (s : List Byte)
    {count j : ℕ} (hj : j < min count (available contents args - d)) :
    ((overwrite s 0 ((fp.fseek pos).fread args.schema.recordSize count).1).drop
      (j * args.schema.recordSize)).take args.schema.recordSize =
      runRecord contents args (d + j) := by
  have hitems := refill_items hs hfp hpos count
  have hlen : (j + 1) * args.schema.recordSize ≤
      ((fp.fseek pos).fread args.schema.recordSize count).1.length := by
    rw [← Nat.le_div_iff_mul_le hs]
    exact (Nat.succ_le_of_lt hj).trans hitems.ge
  rw [Nat.succ_mul] at hlen
  rw [drop_take_overwrite_zero _ _ hlen, fread_slot _ (by omega), fseek_contents,
    fseek_pos _ (by rw [hpos]; positivity), hfp]
  have hnat : pos.toNat = args.startPos + d * args.schema.recordSize := by
    rw [hpos, mul_comm]
    omega
  rw [hnat, slot_add]
  rfl

/-- INTERNAL: while the refills are full, the run is not delivered before its end, and not
beyond it. -/
theorem OnSchedule.lt_total_iff (h : OnSchedule contents args it d)
    (hread : 0 < it.leftInBuf ∨ d = args.runLength) (hlen : 0 < args.runLength) :
    d < total contents args ↔ d < args.runLength := by
  obtain ⟨q, hq⟩ := h.read_multiple
  have hle := h.read_le
  have hnn := h.left_nonneg
  have hd := h.delivered_le
  have hfits : refill args < 2 ^ 31 := by
    rcases h.fits with hf | ⟨h0, hl⟩
    · exact hf
    · omega
  by_cases hend : args.runLength ≤ q * refill args
  · -- the refills read so far cover the run, so the iterator stops at its end
    have hcovered : q * refill args ≤ available contents args := by omega
    rw [total, deliverCount_of_covered hfits hend hcovered]
  · have hdA : d < available contents args := by omega
    refine ⟨fun _ => by omega, fun hlt => ?_⟩
    unfold total deliverCount
    rw [if_pos hfits]
    split_ifs <;> omega

/-- INTERNAL: a refill that came back short leaves the iterator cut short. -/
theorem afterRead_short (h : Progress contents args it d)
    (hsched : OnSchedule contents args it d) (hleft : it.leftInBuf = 0)
    (hd : d < args.runLength) {r : ℤ} (data : List Byte)
    (hr : r = toInt (min (refill args) (available contents args - d) : ℕ))
    (hshort : r < refill args) :
    CutShort contents args (it.afterRead (refill args) r data) d := by
  obtain ⟨q, hq⟩ := hsched.read_multiple
  have hdA : d ≤ available contents args := by have := hsched.read_le; omega
  have htotal : d + r.toNat = total contents args := by
    rcases lt_or_ge (refill args) (2 ^ 31) with hfits | hbig
    · have hval : r = (min (refill args) (available contents args - d) : ℕ) := by
        rw [hr]
        exact toInt_of_lt (by omega) (by omega)
      have hstart : q * refill args < args.runLength := by omega
      have hend : available contents args < q * refill args + refill args := by omega
      rw [total, deliverCount_of_short hfits hstart hend]
      omega
    · obtain ⟨rfl, -⟩ := hsched.fits.resolve_left (by omega)
      rw [total, deliverCount, if_neg (by omega), hr, Nat.zero_add, Nat.sub_zero]
  simp only [RunIterator.afterRead, if_pos hshort]
  refine ⟨rfl, htotal, hshort, ?_⟩
  dsimp only
  rw [hsched.file_pos, hleft, h.schema_eq]
  ring

/-- INTERNAL: a refill that came back full leaves the iterator on schedule. -/
theorem afterRead_full (h : Progress contents args it d) (hsched : OnSchedule contents args it d)
    (hleft : it.leftInBuf = 0) {r : ℤ} (data : List Byte)
    (hr : r = toInt (min (refill args) (available contents args - d) : ℕ))
    (hfull : ¬ r < refill args) :
    OnSchedule contents args (it.afterRead (refill args) r data) d := by
  obtain ⟨q, hq⟩ := hsched.read_multiple
  have hrle : r ≤ (min (refill args) (available contents args - d) : ℕ) :=
    hr ▸ toInt_le_self (Int.natCast_nonneg _)
  have hlt : r < 2 ^ 31 := hr ▸ toInt_lt _
  have hdA := hsched.read_le
  have hval : r = refill args := by omega
  simp only [RunIterator.afterRead, if_neg hfull]
  exact
    { left_nonneg := Int.natCast_nonneg _
      records_left := hsched.records_left
      delivered_le := hsched.delivered_le
      read_multiple := ⟨q + 1, by dsimp only; rw [Nat.succ_mul]; omega⟩
      read_le := by dsimp only; omega
      file_pos := by
        dsimp only
        rw [hsched.file_pos, hleft, hval, h.schema_eq]
        ring
      fits := Or.inl (by omega) }

/-- INTERNAL: **one refill.**  After it the iterator is still on schedule or cut short, and
it holds a record exactly when there is one more to deliver.
SRCLINE: library.cc:171-193 -/
theorem progress_refill (hs : 0 < args.schema.recordSize) (ha : 0 < refill args) {fp : File}
    (hfp : fp.contents = contents) (h : Progress contents args it d)
    (hsched : OnSchedule contents args it d) (hleft : it.leftInBuf = 0)
    (hd : d < args.runLength) :
    Progress contents args (it.readIntoBuffer fp).1 d ∧
      (0 < (it.readIntoBuffer fp).1.leftInBuf ↔ d < total contents args) ∧
      (0 < (it.readIntoBuffer fp).1.recordsLeft ↔ d < total contents args) := by
  have hskip : ¬ (0 < it.leftInBuf ∨ it.recordsLeft = 0) := by
    have := hsched.records_left
    omega
  have hpos : it.filePos = args.startPos + args.schema.recordSize * (d : ℤ) := by
    rw [hsched.file_pos, hleft, add_zero]
  simp only [RunIterator.readIntoBuffer, if_neg hskip, h.asked_eq]
  rw [h.schema_eq, refill_items hs hfp hpos]
  obtain ⟨r, hr⟩ : ∃ r, r = toInt (min (refill args) (available contents args - d) : ℕ) :=
    ⟨_, rfl⟩
  rw [← hr]
  have hrle : r ≤ (min (refill args) (available contents args - d) : ℕ) :=
    hr ▸ toInt_le_self (Int.natCast_nonneg _)
  set data := ((fp.fseek it.filePos).fread args.schema.recordSize (refill args)).1 with hdata
  have hwin : ∀ j : ℕ, (j : ℤ) < (it.afterRead (refill args) r data).leftInBuf →
      ((it.afterRead (refill args) r data).buffer.drop
        ((it.afterRead (refill args) r data).bufferPointer + j * args.schema.recordSize)).take
          args.schema.recordSize = runRecord contents args (d + j) := by
    clear hr
    intro j hj
    simp only [RunIterator.afterRead, Nat.zero_add] at hj ⊢
    have hjr : (j : ℤ) < r := by split_ifs at hj <;> omega
    exact refill_window hs hfp hpos _ (by omega)
  by_cases hshort : r < refill args
  · have hcut := afterRead_short h hsched hleft hd data hr hshort
    have htotal := hcut.total_eq
    have hrec := hcut.records_left
    exact ⟨⟨h.schema_eq, h.bufSize_eq, h.runLength_eq, hwin, Or.inr hcut⟩, by omega, by omega⟩
  · have hon := afterRead_full h hsched hleft data hr hshort
    have hlen : (it.afterRead (refill args) r data).leftInBuf = refill args := if_neg hshort
    have hrec := hon.records_left
    have hiff := hon.lt_total_iff (Or.inl (by omega)) (by omega)
    exact ⟨⟨h.schema_eq, h.bufSize_eq, h.runLength_eq, hwin, Or.inl hon⟩, by omega, by omega⟩

/-- INTERNAL: **`has_next`** is true exactly while there is a record to deliver, and then
the buffer holds it.
SRCLINE: library.cc:217-223 -/
theorem progress_hasNext (hs : 0 < args.schema.recordSize) (ha : 0 < refill args)
    (hlen : 0 < args.runLength) {fp : File} (hfp : fp.contents = contents)
    (h : Progress contents args it d) :
    (it.hasNext fp).1 = decide (d < total contents args) ∧
      Progress contents args (it.hasNext fp).2.1 d ∧
      (d < total contents args → 0 < (it.hasNext fp).2.1.leftInBuf) ∧
      (0 < (it.hasNext fp).2.1.recordsLeft ↔ d < total contents args) := by
  unfold RunIterator.hasNext
  by_cases hempty : it.leftInBuf = 0
  · rw [if_pos hempty]
    by_cases hused : it.recordsLeft = 0
    · -- the run is used up: no refill, and nothing more to deliver
      have hend : ¬ d < total contents args := by
        rcases h.mode with hm | hm
        · have hrec := hm.records_left
          rw [hm.lt_total_iff (Or.inr (by omega)) hlen]
          omega
        · have := hm.total_eq
          omega
      have hskip : it.readIntoBuffer fp = (it, fp) := by
        unfold RunIterator.readIntoBuffer
        rw [if_pos (Or.inr hused)]
      rw [hskip]
      refine ⟨?_, h, fun hlt => absurd hlt hend, ?_⟩
      · simp [hused, hend]
      · simp [hused, hend]
    · have hm : OnSchedule contents args it d := by
        rcases h.mode with hm | hm
        · exact hm
        · exact absurd (hm.records_left.trans hempty) hused
      have hd : d < args.runLength := by
        have h1 := hm.records_left
        have h2 := hm.delivered_le
        omega
      obtain ⟨hp, hl, hr⟩ := progress_refill hs ha hfp h hm hempty hd
      refine ⟨?_, hp, hl.mpr, hr⟩
      dsimp only
      by_cases hlt : d < total contents args
      · simp [hlt, hl.mpr hlt, hr.mpr hlt]
      · simp [hlt, hr]
  · rw [if_neg hempty]
    dsimp only
    have hleft : d < total contents args ↔ 0 < it.recordsLeft ∧ 0 < it.leftInBuf := by
      rcases h.mode with hm | hm
      · have h1 := hm.left_nonneg
        have h2 := hm.records_left
        rw [hm.lt_total_iff (Or.inl (by omega)) hlen]
        omega
      · have h1 := hm.total_eq
        have h2 := hm.records_left
        omega
    have hrec : 0 < it.recordsLeft ↔ d < total contents args := by
      refine ⟨fun hpos => hleft.mpr ⟨hpos, ?_⟩, fun hlt => (hleft.mp hlt).1⟩
      rcases h.mode with hm | hm
      · have := hm.left_nonneg
        omega
      · rw [← hm.records_left]
        exact hpos
    refine ⟨?_, h, fun hlt => (hleft.mp hlt).2, hrec⟩
    by_cases hlt : d < total contents args
    · simp [hlt, (hleft.mp hlt).1, (hleft.mp hlt).2]
    · simp [hlt, hrec]

/-- INTERNAL: taking the record at the front of the buffer.
SRCLINE: library.cc:208-212 -/
theorem progress_take (hlen : 0 < args.runLength) (h : Progress contents args it d)
    (hd : d < total contents args) (hleft : 0 < it.leftInBuf) (cur : Option Record) :
    Progress contents args
      { it with
        currentRecord := cur
        bufferPointer := it.bufferPointer + it.schema.recordSize
        leftInBuf := it.leftInBuf - 1
        recordsLeft := it.recordsLeft - 1 } (d + 1) where
  schema_eq := h.schema_eq
  bufSize_eq := h.bufSize_eq
  runLength_eq := h.runLength_eq
  window := by
    intro j hj
    dsimp only at hj ⊢
    have hw := h.window (j + 1) (by push_cast; omega)
    rw [h.schema_eq, Nat.add_right_comm d 1 j, Nat.add_assoc d j 1, ← hw, Nat.succ_mul]
    congr 2
    omega
  mode := by
    rcases h.mode with hm | hm
    · have hlt := (hm.lt_total_iff (Or.inl hleft) hlen).mp hd
      obtain ⟨q, hq⟩ := hm.read_multiple
      refine Or.inl
        { left_nonneg := by dsimp only; omega
          records_left := by dsimp only; rw [hm.records_left]; push_cast; ring
          delivered_le := hlt
          read_multiple := ⟨q, by dsimp only; push_cast at hq ⊢; omega⟩
          read_le := by have := hm.read_le; dsimp only; push_cast; omega
          file_pos := by dsimp only; rw [hm.file_pos]; push_cast; ring
          fits := hm.fits.imp_right fun h0 => absurd h0.2 (by omega) }
    · refine Or.inr ⟨?_, ?_, ?_, ?_⟩
      · dsimp only
        rw [hm.records_left]
      · have := hm.total_eq
        dsimp only
        omega
      · have := hm.left_lt
        dsimp only
        omega
      · dsimp only
        rw [hm.file_pos]
        push_cast
        ring

/-- INTERNAL: the current record is not part of the progress. -/
theorem Progress.setCurrent (h : Progress contents args it d) (cur : Option Record) :
    Progress contents args { it with currentRecord := cur } d where
  schema_eq := h.schema_eq
  bufSize_eq := h.bufSize_eq
  runLength_eq := h.runLength_eq
  window := h.window
  mode := h.mode.imp
    (fun m => ⟨m.left_nonneg, m.records_left, m.delivered_le, m.read_multiple, m.read_le,
      m.file_pos, m.fits⟩)
    (fun m => ⟨m.records_left, m.total_eq, m.left_lt, m.file_pos⟩)

/-- INTERNAL: **a delivery.**  While there are records to deliver, `next` returns the next
one of the file and makes it the current record.
SRCLINE: library.cc:202-215 -/
theorem next_delivers (hs : 0 < args.schema.recordSize) (ha : 0 < refill args)
    (hlen : 0 < args.runLength) {fp : File} (hfp : fp.contents = contents)
    (h : Progress contents args it d) (hd : d < total contents args) :
    (it.next fp).1 = some (strncpy (runRecord contents args d) args.schema.recordSize) ∧
      (it.next fp).2.1.currentRecord = (it.next fp).1 ∧
      Progress contents args (it.next fp).2.1 (d + 1) := by
  obtain ⟨hmore, hp, hleft, -⟩ := progress_hasNext hs ha hlen hfp h
  have hbuf := hp.window 0 (by exact_mod_cast hleft hd)
  rw [Nat.zero_mul, Nat.add_zero, Nat.add_zero] at hbuf
  have hdata : strncpy ((it.hasNext fp).2.1.buffer.drop (it.hasNext fp).2.1.bufferPointer)
      (it.hasNext fp).2.1.schema.recordSize =
      strncpy (runRecord contents args d) args.schema.recordSize := by
    rw [hp.schema_eq, ← strncpy_take, hbuf]
  unfold RunIterator.next
  simp only [hmore, decide_eq_true hd, if_true, hdata, true_and]
  exact progress_take hlen hp hd (hleft hd) _

/-- INTERNAL: **the end.**  When every record is delivered, `next` returns NULL, and the
iterator counts nothing left.
SRCLINE: library.cc:203-206 -/
theorem next_exhausted (hs : 0 < args.schema.recordSize) (ha : 0 < refill args)
    (hlen : 0 < args.runLength) {fp : File} (hfp : fp.contents = contents)
    (h : Progress contents args it d) (hd : total contents args ≤ d) :
    (it.next fp).1 = none ∧ (it.next fp).2.1.currentRecord = none ∧
      Progress contents args (it.next fp).2.1 d ∧ (it.next fp).2.1.recordsLeft ≤ 0 := by
  obtain ⟨hmore, hp, -, hrec⟩ := progress_hasNext hs ha hlen hfp h
  unfold RunIterator.next
  simp only [hmore, decide_eq_false (not_lt.mpr hd), Bool.false_eq_true, if_false, true_and]
  exact ⟨hp.setCurrent none, not_lt.mp fun hpos => not_lt.mpr hd (hrec.mp hpos)⟩

end Invariant

/-! ## The replies to a sequence of calls -/

/-- INTERNAL: the records an iterator delivers: those of the file from its start on, each
copied as a string into a buffer of a record.
SRCLINE: library.cc:208 -/
def delivered (contents : List Byte) (args : RunArgs) : List Record :=
  (List.range (total contents args)).map fun i =>
    strncpy (runRecord contents args i) args.schema.recordSize

/-- INTERNAL: the reply of the `j`-th `next` of an iterator that delivers `n` records of
the file in order and NULL after them. -/
def inOrder (contents : List Byte) (args : RunArgs) (n j : ℕ) : Reply :=
  .record (if j < n then some (runRecord contents args j) else none)

/-- The iterator constructed on `fp` delivers exactly the first `n` records from its start
on and then NULL for ever; and `has_next`, called before each `next`, is true exactly
for these.
SRCLINE: library.h:74-83 -/
def IteratorDelivers (fp : File) (args : RunArgs) (n : ℕ) : Prop :=
  ∀ m : ℕ,
    runCalls (List.replicate m .next) (RunIterator.new 0 fp args).1 (RunIterator.new 0 fp args).2 =
      (List.range m).map (inOrder fp.contents args n) ∧
    runCalls (List.replicate m [.hasNext, .next]).flatten
        (RunIterator.new 0 fp args).1 (RunIterator.new 0 fp args).2 =
      (List.range m).flatMap fun j => [.flag (decide (j < n)), inOrder fp.contents args n j]

section Replies

variable {contents : List Byte} {args : RunArgs} {it : RunIterator} {d : ℕ}

/-- INTERNAL: the `j`-th record delivered. -/
theorem getElem?_delivered (contents : List Byte) (args : RunArgs) (j : ℕ) :
    (delivered contents args)[j]? =
      if j < total contents args then
        some (strncpy (runRecord contents args j) args.schema.recordSize) else none := by
  unfold delivered
  split_ifs with h
  · rw [List.getElem?_map, List.getElem?_range h]
    rfl
  · rw [List.getElem?_eq_none (by simpa using h)]

/-- INTERNAL: the copy of a record of a NUL-free file is the record. -/
theorem strncpy_runRecord (hnul : NulFree contents) (hd : d < available contents args) :
    strncpy (runRecord contents args d) args.schema.recordSize = runRecord contents args d := by
  have hlen : (runRecord contents args d).length = args.schema.recordSize := length_slot hd
  have hfree : NulFree (runRecord contents args d) := nulFree_slot hnul _ _ _
  rw [strncpy_of_nulFree (hfree.sublist (List.take_sublist _ _)) hlen.ge,
    List.take_of_length_le hlen.le]

/-- INTERNAL: from a NUL-free file the records are delivered as they are. -/
theorem record_delivered (hnul : NulFree contents) (j : ℕ) :
    Reply.record (delivered contents args)[j]? = inOrder contents args (total contents args) j := by
  rw [getElem?_delivered, inOrder]
  split_ifs with h
  · rw [strncpy_runRecord hnul (h.trans_le (deliverCount_le _ _ _))]
  · rfl

/-- INTERNAL: what `next` does after `d` calls, both outcomes at once.
SRCLINE: library.cc:202-215 -/
theorem next_inOrder (hs : 0 < args.schema.recordSize) (ha : 0 < refill args)
    (hlen : 0 < args.runLength) {fp : File} (hfp : fp.contents = contents)
    (h : Progress contents args it (min d (total contents args))) :
    (it.next fp).1 = (delivered contents args)[d]? ∧
      Progress contents args (it.next fp).2.1 (min (d + 1) (total contents args)) := by
  rw [getElem?_delivered]
  by_cases hd : d < total contents args
  · rw [min_eq_left hd.le] at h
    obtain ⟨h1, -, h3⟩ := next_delivers hs ha hlen hfp h hd
    rw [h1, if_pos hd, min_eq_left hd]
    exact ⟨rfl, h3⟩
  · rw [min_eq_right (by omega)] at h ⊢
    obtain ⟨h1, -, h3, -⟩ := next_exhausted hs ha hlen hfp h le_rfl
    rw [h1, if_neg hd]
    exact ⟨rfl, h3⟩

/-- INTERNAL: **successive calls of `next`** after `d` of them.
SRCLINE: library.cc:202-215 -/
theorem runCalls_next (hs : 0 < args.schema.recordSize) (ha : 0 < refill args)
    (hlen : 0 < args.runLength) (m : ℕ) (it : RunIterator) (fp : File) (d : ℕ)
    (hfp : fp.contents = contents)
    (h : Progress contents args it (min d (total contents args))) :
    runCalls (List.replicate m .next) it fp =
      (List.range' d m).map fun j => .record (delivered contents args)[j]? := by
  induction m generalizing it fp d with
  | zero => rfl
  | succ m ih =>
    obtain ⟨h1, h2⟩ := next_inOrder hs ha hlen hfp h
    have hrest := ih (it.next fp).2.1 (it.next fp).2.2 (d + 1)
      ((next_contents it fp).trans hfp) h2
    rw [List.replicate_succ, List.range'_succ, List.map_cons, ← h1, ← hrest]
    rfl

/-- INTERNAL: **calls of `next`, each after a call of `has_next`**, after `d` of them.
SRCLINE: library.cc:202-223 -/
theorem runCalls_hasNext_next (hs : 0 < args.schema.recordSize) (ha : 0 < refill args)
    (hlen : 0 < args.runLength) (m : ℕ) (it : RunIterator) (fp : File) (d : ℕ)
    (hfp : fp.contents = contents)
    (h : Progress contents args it (min d (total contents args))) :
    runCalls (List.replicate m [.hasNext, .next]).flatten it fp =
      (List.range' d m).flatMap fun j =>
        [.flag (decide (j < total contents args)), .record (delivered contents args)[j]?] := by
  induction m generalizing it fp d with
  | zero => rfl
  | succ m ih =>
    obtain ⟨hb, hp, -⟩ := progress_hasNext hs ha hlen hfp h
    have hfp' : (it.hasNext fp).2.2.contents = contents := by rw [hasNext_contents, hfp]
    obtain ⟨h1, h2⟩ := next_inOrder hs ha hlen hfp' hp
    have hflag : (it.hasNext fp).1 = decide (d < total contents args) := by
      rw [hb]
      congr 1
      simp only [min_lt_iff, lt_irrefl, or_false]
    have hrest := ih ((it.hasNext fp).2.1.next (it.hasNext fp).2.2).2.1
      ((it.hasNext fp).2.1.next (it.hasNext fp).2.2).2.2 (d + 1)
      ((next_contents _ _).trans hfp') h2
    rw [List.replicate_succ, List.flatten_cons, List.range'_succ, List.flatMap_cons, ← h1, ← hflag,
      ← hrest]
    rfl

end Replies

/-! ## When the iterator delivers exactly its run -/

/-- INTERNAL: an iterator with room for a record asks for at least one. -/
theorem refill_pos {args : RunArgs} (hs : 0 < args.schema.recordSize) (hlen : 0 < args.runLength)
    (hbuf : args.schema.recordSize ≤ args.bufSize) : 0 < refill args := by
  have hcap : 0 < args.bufSize / args.schema.recordSize := Nat.div_pos hbuf hs
  unfold refill refillCount
  split_ifs <;> omega

/-- INTERNAL: while its refills fit an `int`, they are no longer than the run. -/
theorem refill_le {args : RunArgs} (h : refill args < 2 ^ 31) : refill args ≤ args.runLength := by
  unfold refill refillCount at *
  split_ifs at * with hlt
  · unfold toUnsignedInt at hlt
    omega
  · exact le_rfl

/-- INTERNAL: an iterator delivers `total` records, whatever else it is expected to.
SRCLINE: library.cc:171-223 -/
theorem iteratorDelivers_iff {fp : File} {args : RunArgs} (hs : 0 < args.schema.recordSize)
    (hlen : 0 < args.runLength) (hbuf : args.schema.recordSize ≤ args.bufSize)
    (hnul : NulFree fp.contents) (n : ℕ) :
    IteratorDelivers fp args n ↔ n = total fp.contents args := by
  have ha := refill_pos hs hlen hbuf
  have hp := progress_new fp.contents args 0 fp
  have hfp : (RunIterator.new 0 fp args).2.contents = fp.contents := fseek_contents _ _
  have hnext := fun m => runCalls_next hs ha hlen m _ _ 0 hfp (by rwa [Nat.zero_min])
  have hboth := fun m => runCalls_hasNext_next hs ha hlen m _ _ 0 hfp (by rwa [Nat.zero_min])
  simp only [← List.range_eq_range', record_delivered hnul] at hnext hboth
  constructor
  · -- two counts differ at the first call that one of them answers with NULL
    intro h
    by_contra hne
    have hcmp := (h (min n (total fp.contents args) + 1)).1.symm.trans (hnext _)
    have hat := List.map_inj_left.mp hcmp (min n (total fp.contents args))
      (List.mem_range.mpr (Nat.lt_succ_self _))
    simp only [inOrder, Reply.record.injEq] at hat
    rcases lt_or_gt_of_ne hne with hlt | hlt
    · rw [min_eq_left hlt.le, if_neg (lt_irrefl _), if_pos hlt] at hat
      cases hat
    · rw [min_eq_right hlt.le, if_pos hlt, if_neg (lt_irrefl _)] at hat
      cases hat
  · rintro rfl m
    exact ⟨hnext m, hboth m⟩

/-- The condition under which an iterator with a run of `len` records, of which `avail`
lie in the file, keeps to its run when it refills by `a`: no further record, or enough
of them to fill its last refill.  A refill of `2 ^ 31` records or more does not fit the
`int` that counts it, and then the count that comes out must be right by itself.
SRCLINE: library.cc:176-188 -/
def RefillsWithinRun (a len avail : ℕ) : Prop :=
  (a < 2 ^ 31 → avail ≤ len ∨ roundUp len a ≤ avail) ∧
  (2 ^ 31 ≤ a → (avail < 2 ^ 31 ∧ avail ≤ len) ∨
    (2 ^ 31 ≤ avail ∧ len < 2 ^ 31 ∧ min a avail % 2 ^ 32 = len))

/-- INTERNAL: it can be decided whether the refills stay within the run. -/
instance (a len avail : ℕ) : Decidable (RefillsWithinRun a len avail) :=
  inferInstanceAs (Decidable (_ ∧ _))

/-- INTERNAL: the condition, as an equation between the two counts. -/
theorem deliverCount_eq_min_iff {a len avail : ℕ} (hlen : 0 < len) :
    min len avail = deliverCount a len avail ↔ RefillsWithinRun a len avail := by
  unfold deliverCount RefillsWithinRun
  by_cases ha : a < 2 ^ 31
  · rw [if_pos ha]
    split_ifs with h <;> omega
  · rw [if_neg ha, toInt_eq]
    split_ifs with h <;> omega

/-- SOURCE: library.cc:141-223 — **when a run iterator delivers exactly its run.**  On a
file of NUL-free records, with room for a record, the iterator delivers exactly the
first `min len avail` records from its start on, and then NULL for ever, if and only if
its refills keep within the run. -/
theorem iterator_delivers_run_iff (fp : File) (args : RunArgs) (hs : 0 < args.schema.recordSize)
    (hlen : 1 ≤ args.runLength) (hbuf : args.schema.recordSize ≤ args.bufSize)
    (hnul : NulFree fp.contents) :
    IteratorDelivers fp args (min args.runLength (available fp.contents args)) ↔
      RefillsWithinRun (refillCount args.bufSize args.schema.recordSize args.runLength)
        args.runLength (available fp.contents args) := by
  rw [iteratorDelivers_iff hs hlen hbuf hnul, total, deliverCount_eq_min_iff hlen, refill]

/-- The file of the records `a`, `b`, ... : the first `n` letters, one a line. -/
def letterFile (n : ℕ) : List Byte :=
  (List.range n).flatMap fun i => [Fin.ofNat 256 (97 + i), 10]

/-- A run of four letters, read through a buffer of three. -/
def letterRun : RunArgs where
  heap := fun _ => 0
  startPos := 0
  runLength := 4
  bufSize := 6
  schema := letterSchema

/-- The run of four at the start of a file of six letters: the last refill is full. -/
theorem iterator_delivers_run_six :
    IteratorDelivers (File.open_ (letterFile 6)) letterRun
      (min letterRun.runLength (available (letterFile 6) letterRun)) :=
  (iterator_delivers_run_iff (File.open_ (letterFile 6)) letterRun (by decide) (by decide)
    (by decide) (by decide +kernel)).mpr (by decide +kernel)

/-- The same run at the start of a file of five letters: the second refill asks for three
records, gets two, and the letter of the next run is delivered too. -/
theorem iterator_overruns_five :
    0 < letterRun.schema.recordSize ∧ 1 ≤ letterRun.runLength ∧
      letterRun.schema.recordSize ≤ letterRun.bufSize ∧ NulFree (letterFile 5) ∧
      ¬ IteratorDelivers (File.open_ (letterFile 5)) letterRun
        (min letterRun.runLength (available (letterFile 5) letterRun)) := by
  refine ⟨by decide, by decide, by decide, by decide +kernel, fun h => ?_⟩
  have h5 := (h 5).1
  revert h5
  decide +kernel

end ExternalSort.Analysis
