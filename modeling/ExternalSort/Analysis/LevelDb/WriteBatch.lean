import ExternalSort.Analysis.LevelDb.Coding
import ExternalSort.Model.LevelDb.WriteBatch

/-!
# A write batch hands on what was put into it

`Built` are the bytes that any sequence of calls leaves in a batch.  They are a header and the
records of the calls (`Built.bytes`), and the loop over the records reads exactly these.
-/

set_option autoImplicit false

namespace ExternalSort.Analysis

open ExternalSort.Lib ExternalSort.Model

namespace WriteBatch

/-- The strings of a record have a length that can be stored. -/
def OpFits : BatchOp → Prop
  | .put key value => key.length < 2 ^ 32 ∧ value.length < 2 ^ 32
  | .delete key => key.length < 2 ^ 32

/-- The bytes of a batch after some calls, what was asked for, and the sequence number. -/
inductive Built : List Byte → List BatchOp → ℕ → Prop
  | clear : Built WriteBatch.clear [] 0
  | add {rep : List Byte} {ops : List BatchOp} {seq : ℕ} {op : BatchOp} : Built rep ops seq →
      OpFits op → Built (WriteBatch.add rep op) (ops ++ [op]) seq
  | append {dst src : List Byte} {a b : List BatchOp} {seq seq' : ℕ} : Built dst a seq →
      Built src b seq' → Built (WriteBatch.append dst src) (a ++ b) seq
  | setSequence {rep : List Byte} {ops : List BatchOp} {seq : ℕ} (n : ℕ) : Built rep ops seq →
      n < 2 ^ 64 → Built (WriteBatch.setSequence rep n) ops n

/-- A header and records. -/
def batchBytes (ops : List BatchOp) (seq : ℕ) : List Byte :=
  encodeFixed64 seq ++ encodeFixed32 ops.length ++ ops.flatMap WriteBatch.record

section Bytes

variable (ops : List BatchOp) (seq : ℕ)

/-- INTERNAL: the records behind the header. -/
theorem drop_header : (batchBytes ops seq).drop 12 = ops.flatMap WriteBatch.record :=
  List.drop_left' (by simp)

/-- INTERNAL: the sequence number in front. -/
theorem take_sequence : (batchBytes ops seq).take 8 = encodeFixed64 seq := by
  rw [batchBytes, List.append_assoc]
  exact List.take_left' (length_encodeFixed64 seq)

/-- INTERNAL: the number of records is read back. -/
theorem count_batchBytes {ops : List BatchOp} (hlen : ops.length < 2 ^ 32) :
    WriteBatch.count (batchBytes ops seq) = ops.length := by
  rw [WriteBatch.count, batchBytes, List.append_assoc, List.drop_left' (length_encodeFixed64 seq),
    decodeFixed32_append hlen]

/-- INTERNAL: the sequence number is read back. -/
theorem sequence_batchBytes {seq : ℕ} (hseq : seq < 2 ^ 64) :
    WriteBatch.sequence (batchBytes ops seq) = seq := by
  rw [WriteBatch.sequence, batchBytes, List.append_assoc, decodeFixed64_append hseq]

/-- INTERNAL: the number of records is overwritten in place. -/
theorem setCount_batchBytes (n : ℕ) : WriteBatch.setCount (batchBytes ops seq) n =
    encodeFixed64 seq ++ encodeFixed32 n ++ ops.flatMap WriteBatch.record := by
  rw [WriteBatch.setCount, take_sequence, drop_header]

end Bytes

/-- INTERNAL: **the bytes of a batch** are a header and the records of its calls. -/
theorem Built.bytes {rep : List Byte} {ops : List BatchOp} {seq : ℕ} (h : Built rep ops seq)
    (hlen : ops.length < 2 ^ 32) :
    rep = batchBytes ops seq ∧ seq < 2 ^ 64 ∧ ∀ op ∈ ops, OpFits op := by
  induction h with
  | clear => exact ⟨by decide, by decide, by simp⟩
  | @add rep ops seq op _ hfits ih =>
    rw [List.length_append, List.length_singleton] at hlen
    obtain ⟨rfl, hseq, hall⟩ := ih (by omega)
    refine ⟨?_, hseq, ?_⟩
    · rw [WriteBatch.add, count_batchBytes seq (by omega), setCount_batchBytes, batchBytes,
        List.flatMap_append, List.length_append]
      simp
    · intro op' hop'
      rcases List.mem_append.mp hop' with hop' | hop'
      · exact hall op' hop'
      · exact List.mem_singleton.mp hop' ▸ hfits
  | @append dst src a b seq seq' _ _ iha ihb =>
    rw [List.length_append] at hlen
    obtain ⟨rfl, hseq, hall⟩ := iha (by omega)
    obtain ⟨rfl, -, hall'⟩ := ihb (by omega)
    refine ⟨?_, hseq, ?_⟩
    · rw [WriteBatch.append, count_batchBytes seq (by omega), count_batchBytes seq' (by omega),
        setCount_batchBytes, WriteBatch.kHeader, drop_header, batchBytes, List.flatMap_append,
        List.length_append]
      simp
    · intro op hop
      rcases List.mem_append.mp hop with hop | hop
      · exact hall op hop
      · exact hall' op hop
  | @setSequence rep ops seq n _ hn ih =>
    obtain ⟨rfl, -, hall⟩ := ih hlen
    refine ⟨?_, hn, hall⟩
    rw [WriteBatch.setSequence, batchBytes, List.append_assoc,
      List.drop_left' (length_encodeFixed64 seq), batchBytes, List.append_assoc]

/-- INTERNAL: a round of the loop reads a record.
SRCLINE: leveldb-1.15.0/db/write_batch.cc:52-73 -/
theorem iterateRound_record {op : BatchOp} (hfits : OpFits op) (rep rest : List Byte)
    (done : List BatchOp) :
    WriteBatch.iterateRound rep (WriteBatch.record op ++ rest, done) =
      some (.inl (rest, done ++ [op])) := by
  cases op with
  | put key value =>
    have htag : ((lowByte ValueType.value.toNat : Byte) : ℕ) = ValueType.value.toNat := rfl
    simp only [WriteBatch.record, List.cons_append, List.append_assoc, WriteBatch.iterateRound,
      htag, if_true, getLengthPrefixedSlice_append hfits.1, getLengthPrefixedSlice_append hfits.2]
  | delete key =>
    have htag : ((lowByte ValueType.deletion.toNat : Byte) : ℕ) = ValueType.deletion.toNat := rfl
    have hne : ¬ ValueType.deletion.toNat = ValueType.value.toNat := by decide
    simp only [WriteBatch.record, List.cons_append, WriteBatch.iterateRound, htag, hne, if_false,
      if_true, getLengthPrefixedSlice_append hfits]

/-- INTERNAL: the loop reads the records one after the other. -/
theorem iterateLoop_records {rep : List Byte} {ops done : List BatchOp} {fuel : ℕ}
    (hfuel : ops.length < fuel) (hfits : ∀ op ∈ ops, OpFits op)
    (hcount : WriteBatch.count rep = (done ++ ops).length) :
    loop (WriteBatch.iterateRound rep) fuel (ops.flatMap WriteBatch.record, done) =
      some (done ++ ops, none) := by
  induction ops generalizing done fuel with
  | nil =>
    obtain ⟨fuel, rfl⟩ : ∃ f, fuel = f + 1 := ⟨fuel - 1, by omega⟩
    apply loop_succ_inr
    simp [WriteBatch.iterateRound, hcount]
  | cons op ops ih =>
    obtain ⟨fuel, rfl⟩ : ∃ f, fuel = f + 1 := ⟨fuel - 1, by omega⟩
    rw [List.flatMap_cons,
      loop_succ_inl (iterateRound_record (hfits op List.mem_cons_self) rep _ done),
      ih (by simpa using hfuel) (fun op' hop' => hfits op' (List.mem_cons_of_mem op hop'))
        (by simpa using hcount)]
    simp

/-- INTERNAL: **a batch hands on what was put into it**, in order.
SRCLINE: leveldb-1.15.0/db/write_batch.cc:42-81 -/
theorem Built.iterate {rep : List Byte} {ops : List BatchOp} {seq : ℕ} (h : Built rep ops seq)
    (hlen : ops.length < 2 ^ 32) {fuel : ℕ} (hfuel : ops.length < fuel) :
    WriteBatch.iterate fuel rep = some (ops, none) ∧ WriteBatch.sequence rep = seq := by
  obtain ⟨rfl, hseq, hall⟩ := h.bytes hlen
  refine ⟨?_, sequence_batchBytes ops hseq⟩
  have hlong : ¬ (batchBytes ops seq).length < WriteBatch.kHeader := by
    simp [batchBytes, WriteBatch.kHeader]
    omega
  rw [WriteBatch.iterate, if_neg hlong, WriteBatch.kHeader, drop_header]
  exact iterateLoop_records hfuel hall (count_batchBytes seq hlen)

end WriteBatch

end ExternalSort.Analysis
