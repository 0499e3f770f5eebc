import ExternalSort.Analysis.LevelDb.DbIter
import ExternalSort.Analysis.LevelDb.SkipListInsert
import ExternalSort.Analysis.LevelDb.WriteBatch
import ExternalSort.Model.LevelDb.MemTable

/-!
# A memtable holds the entries that were added to it

The bytes of an entry are read back into its internal key and its value, so the skip list of a
memtable is ordered as its entries are (`Holds`).  The iterator over a memtable stands for the
cursor over these entries, and the records of a batch become entries with consecutive sequence
numbers.
-/

set_option autoImplicit false

namespace ExternalSort.Analysis

open ExternalSort.Lib ExternalSort.Model

namespace MemTable

/-- An entry as a memtable has it in memory. -/
def bytesOf (e : Entry) : List Byte := MemTable.entry e.sequence e.type e.userKey e.value

/-- The lengths of an entry can be stored. -/
structure EntryFits (e : Entry) : Prop where
  key : e.userKey.length + 8 < 2 ^ 32
  value : e.value.length < 2 ^ 32
  sequence : e.sequence ≤ kMaxSequenceNumber

/-- INTERNAL: a string with its length in front is read back. -/
theorem lengthPrefixedSlice_encode {k : List Byte} (hk : k.length < 2 ^ 32) (rest : List Byte) :
    MemTable.lengthPrefixedSlice (encodeVarint32 (k.length % 2 ^ 32) ++ k ++ rest) = (k, rest) := by
  rw [MemTable.lengthPrefixedSlice, Nat.mod_eq_of_lt hk, List.append_assoc,
    getVarint32Ptr_append _ hk]
  simp

/-- INTERNAL: the memtable packs sequence number and type as the internal key does. -/
theorem pack_eq {seq : ℕ} (h : seq ≤ kMaxSequenceNumber) (t : ValueType) :
    (seq <<< 8) ||| t.toNat = packSequenceAndType seq t := by
  have ht : t.toNat < 2 ^ 8 := by cases t <;> decide
  have ht' : t.toNat ≤ 1 := by cases t <;> decide
  rw [kMaxSequenceNumber] at h
  rw [packSequenceAndType, Nat.or_comm, or_shiftLeft ht, Nat.mod_eq_of_lt (by omega)]

/-- INTERNAL: **an entry in memory** is its internal key and its value.
SRCLINE: leveldb-1.15.0/db/memtable.cc:85-104 -/
theorem lengthPrefixedSlice_bytesOf {e : Entry} (h : EntryFits e) :
    MemTable.lengthPrefixedSlice (bytesOf e) =
      (e.pair.1, encodeVarint32 (e.value.length % 2 ^ 32) ++ e.value) := by
  have hlen : e.pair.1.length = e.userKey.length + 8 := length_appendInternalKey e.parsed
  have hbytes : bytesOf e = encodeVarint32 (e.pair.1.length % 2 ^ 32) ++ e.pair.1 ++
      (encodeVarint32 (e.value.length % 2 ^ 32) ++ e.value) := by
    simp only [bytesOf, MemTable.entry, hlen, pack_eq h.sequence, List.append_assoc]
    simp [Entry.pair, appendInternalKey, Entry.parsed]
  rw [hbytes, lengthPrefixedSlice_encode (by rw [hlen]; exact h.key)]

/-- What the entries of a memtable are ordered by. -/
def entryRank : List Byte → List Byte ×ₗ ℕᵒᵈ :=
  internalRank ∘ fun data => (MemTable.lengthPrefixedSlice data).1

/-- INTERNAL: entries are compared by their internal keys. -/
theorem keyComparator_represents : Represents MemTable.keyComparator entryRank :=
  internalKeyCompare_represents.comp fun data => (MemTable.lengthPrefixedSlice data).1

/-- INTERNAL: the rank of the bytes of an entry is that of its internal key. -/
theorem entryRank_bytesOf {e : Entry} (h : EntryFits e) :
    entryRank (bytesOf e) = internalRank (appendInternalKey e.parsed) := by
  rw [entryRank, Function.comp, lengthPrefixedSlice_bytesOf h]
  rfl

/-- The entries of a memtable. -/
structure Holds (table : MemTable) (es : List Entry) : Prop where
  ordered : Ordered es
  fits : ∀ e ∈ es, EntryFits e
  linked : SkipList.Linked entryRank table (SkipList.entries table)
  keys : (SkipList.entries table).map Prod.fst = es.map bytesOf

/-- INTERNAL: a new memtable holds nothing. -/
theorem holds_new : Holds SkipList.new [] := by
  have hnew := SkipList.linked_new entryRank
  refine ⟨⟨List.Pairwise.nil, by simp⟩, by simp, hnew.entries_eq.symm ▸ hnew, ?_⟩
  rw [hnew.entries_eq]
  rfl

/-- INTERNAL: a memtable has a node for every entry. -/
theorem Holds.length_eq {table : MemTable} {es : List Entry} (h : Holds table es) :
    (SkipList.entries table).length = es.length := by
  simpa using congrArg List.length h.keys

/-! ## Adding entries -/

section Add

variable {table : MemTable} {es : List Entry} {e : Entry} {fuel : ℕ}

/-- INTERNAL: entries whose internal keys ascend are ordered, if no version comes twice. -/
theorem ordered_of_rank (hfits : ∀ e ∈ es, EntryFits e) (hapart : es.Pairwise Entry.Apart)
    (hrank : es.Pairwise fun a b => entryRank (bytesOf a) < entryRank (bytesOf b)) : Ordered es := by
  refine ⟨?_, fun e he => (hfits e he).sequence⟩
  apply (hapart.and hrank).imp_of_mem
  rintro a b ha hb ⟨hne, hlt⟩
  rw [entryRank_bytesOf (hfits a ha), entryRank_bytesOf (hfits b hb)] at hlt
  exact (internalRank_lt_iff (hfits a ha).sequence (hfits b hb).sequence hne).mp hlt

/-- INTERNAL: **an entry is added** to those a memtable holds.
SRCLINE: leveldb-1.15.0/db/memtable.cc:82-106 -/
theorem Holds.add (h : Holds table es) (he : EntryFits e) (hnew : ∀ e' ∈ es, e.Apart e')
    (hfuel : es.length + kMaxHeight ≤ fuel) :
    ∃ table' es', MemTable.add fuel e.sequence e.type e.userKey e.value table = some table' ∧
      Holds table' es' ∧ es'.Perm (e :: es) := by
  have hapart : (e :: es).Pairwise Entry.Apart := List.pairwise_cons.mpr ⟨hnew, h.ordered.apart⟩
  have hfits : ∀ e' ∈ e :: es, EntryFits e' := by
    intro e' he'
    rcases List.mem_cons.mp he' with rfl | he'
    · exact he
    · exact h.fits e' he'
  have hfresh : SkipList.Fresh entryRank (SkipList.entries table) (bytesOf e) := by
    intro q hq heq
    have hmem : q.1 ∈ es.map bytesOf := h.keys ▸ List.mem_map.mpr ⟨q, hq, rfl⟩
    obtain ⟨e', he', hbytes⟩ := List.mem_map.mp hmem
    rw [← hbytes, entryRank_bytesOf (h.fits e' he'), entryRank_bytesOf he, internalRank,
      internalRank, toLex_inj, Prod.mk.injEq, extractUserKey_append, extractUserKey_append,
      OrderDual.toDual_inj, internalKeyTag_append (h.fits e' he').sequence,
      internalKeyTag_append he.sequence] at heq
    have ht : e.type.toNat ≤ 1 := by cases e.type <;> decide
    have ht' : e'.type.toNat ≤ 1 := by cases e'.type <;> decide
    obtain ⟨hkey, htag⟩ := heq
    simp only [Entry.parsed] at hkey htag
    exact hnew e' he' hkey.symm (by omega)
  have hmax := h.linked.maxHeight_le
  have hlen := h.length_eq
  obtain ⟨table', x, hinsert, hlinked⟩ :=
    SkipList.insert_spec h.linked keyComparator_represents hfresh
      (show (SkipList.entries table).length + table.maxHeight ≤ fuel by omega)
  set n := cut (below entryRank (bytesOf e)) (SkipList.entries table) with hn
  have hperm : (es.take n ++ e :: es.drop n).Perm (e :: es) := by
    conv_rhs => rw [← List.take_append_drop n es]
    exact List.perm_middle
  have hkeys : (SkipList.inserted entryRank (SkipList.entries table) (bytesOf e) x).map Prod.fst =
      (es.take n ++ e :: es.drop n).map bytesOf := by
    rw [SkipList.inserted, ← hn, List.map_append, List.map_cons, List.map_take, List.map_drop,
      h.keys, List.map_append, List.map_cons, List.map_take, List.map_drop]
  have hentries := hlinked.entries_eq
  refine ⟨table', es.take n ++ e :: es.drop n, hinsert, ⟨?_, ?_, hentries ▸ hlinked, ?_⟩, hperm⟩
  · apply ordered_of_rank (fun e' he' => hfits e' (hperm.mem_iff.mp he'))
    · exact (hperm.pairwise_iff Entry.Apart.symm).mpr hapart
    · rw [← List.pairwise_map (f := bytesOf) (R := fun a b => entryRank a < entryRank b), ← hkeys,
        List.pairwise_map]
      exact hlinked.ascends
  · exact fun e' he' => hfits e' (hperm.mem_iff.mp he')
  · rw [hentries, hkeys]

/-- The entry a record of a batch becomes. -/
def opEntry (seq : ℕ) : BatchOp → Entry
  | .put key value => ⟨key, seq, .value, value⟩
  | .delete key => ⟨key, seq, .deletion, []⟩

/-- The entries the records of a batch become. -/
def batchEntries : ℕ → List BatchOp → List Entry
  | _, [] => []
  | seq, op :: ops => opEntry seq op :: batchEntries (seq + 1) ops

/-- INTERNAL: the entry of a record has the sequence number of the record. -/
theorem sequence_opEntry (seq : ℕ) (op : BatchOp) : (opEntry seq op).sequence = seq := by
  cases op <;> rfl

/-- INTERNAL: the sequence numbers of a batch. -/
theorem mem_batchEntries {seq : ℕ} {ops : List BatchOp} (h : e ∈ batchEntries seq ops) :
    seq ≤ e.sequence ∧ e.sequence < seq + ops.length := by
  induction ops generalizing seq with
  | nil => cases h
  | cons op ops ih =>
    rcases List.mem_cons.mp h with rfl | h
    · simp [sequence_opEntry]
    · have hbounds := ih h
      simp only [List.length_cons]
      omega

/-- INTERNAL: a batch has as many entries as records. -/
@[simp] theorem length_batchEntries (seq : ℕ) (ops : List BatchOp) :
    (batchEntries seq ops).length = ops.length := by
  induction ops generalizing seq with
  | nil => rfl
  | cons op ops ih => rw [batchEntries, List.length_cons, List.length_cons, ih]

/-- INTERNAL: the entries of records that follow others. -/
theorem batchEntries_append (seq : ℕ) (a b : List BatchOp) :
    batchEntries seq (a ++ b) = batchEntries seq a ++ batchEntries (seq + a.length) b := by
  induction a generalizing seq with
  | nil => rfl
  | cons op a ih =>
    rw [List.cons_append, batchEntries, ih, batchEntries, List.cons_append, List.length_cons,
      Nat.add_right_comm, Nat.add_assoc]

/-- A record whose entry can be stored. -/
def OpStorable : BatchOp → Prop
  | .put key value => key.length + 8 < 2 ^ 32 ∧ value.length < 2 ^ 32
  | .delete key => key.length + 8 < 2 ^ 32

/-- INTERNAL: a record is inserted as its entry. -/
theorem insertOp_eq (fuel seq : ℕ) (table : MemTable) (op : BatchOp) :
    MemTable.insertOp fuel (seq, table) op =
      (MemTable.add fuel (opEntry seq op).sequence (opEntry seq op).type (opEntry seq op).userKey
        (opEntry seq op).value table).map fun table => (seq + 1, table) := by
  cases op <;> rfl

/-- INTERNAL: the entry of a record that can be stored fits. -/
theorem entryFits_opEntry {seq : ℕ} {op : BatchOp} (hop : OpStorable op)
    (hseq : seq ≤ kMaxSequenceNumber) : EntryFits (opEntry seq op) := by
  cases op with
  | put key value => exact ⟨hop.1, hop.2, hseq⟩
  | delete key => exact ⟨hop, show 0 < 2 ^ 32 by decide, hseq⟩

/-- INTERNAL: **the records of a batch are added** one after the other, with consecutive
sequence numbers.  The induction is on the records.
SRCLINE: leveldb-1.15.0/db/write_batch.cc:112-134 -/
theorem Holds.insertOps {ops : List BatchOp} {seq : ℕ} (h : Holds table es)
    (hops : ∀ op ∈ ops, OpStorable op) (hold : ∀ e ∈ es, e.sequence < seq)
    (hseq : seq + ops.length ≤ kMaxSequenceNumber + 1)
    (hfuel : es.length + ops.length + kMaxHeight ≤ fuel) :
    ∃ table' es', ops.foldlM (MemTable.insertOp fuel) (seq, table) =
        some (seq + ops.length, table') ∧
      Holds table' es' ∧ es'.Perm (batchEntries seq ops ++ es) := by
  induction ops generalizing seq table es with
  | nil => exact ⟨table, es, rfl, h, List.Perm.refl _⟩
  | cons op ops ih =>
    rw [List.length_cons] at hseq hfuel
    have hnew : ∀ e ∈ es, (opEntry seq op).Apart e := by
      intro e he _ heq
      rw [sequence_opEntry] at heq
      exact absurd (hold e he) (by omega)
    obtain ⟨table₁, es₁, hadd, h₁, hperm₁⟩ := h.add
      (entryFits_opEntry (hops op List.mem_cons_self) (show seq ≤ kMaxSequenceNumber by omega)) hnew
      (show es.length + kMaxHeight ≤ fuel by omega)
    have hlen₁ := hperm₁.length_eq
    rw [List.length_cons] at hlen₁
    have hold₁ : ∀ e ∈ es₁, e.sequence < seq + 1 := by
      intro e he
      rcases List.mem_cons.mp (hperm₁.mem_iff.mp he) with rfl | he
      · rw [sequence_opEntry]
        omega
      · have := hold e he
        omega
    obtain ⟨table', es', hfold, h', hperm'⟩ := ih h₁
      (fun op' hop' => hops op' (List.mem_cons_of_mem op hop')) hold₁ (by omega) (by omega)
    refine ⟨table', es', ?_, h', ?_⟩
    · rw [List.foldlM_cons, insertOp_eq, hadd, Option.map_some]
      simp only [List.length_cons, ← Nat.add_assoc, Nat.add_right_comm seq _ 1]
      exact hfold
    · apply hperm'.trans
      rw [batchEntries, List.cons_append]
      exact (hperm₁.append_left _).trans List.perm_middle

/-- INTERNAL: a batch goes into a memtable. -/
theorem Holds.insertInto {rep : List Byte} {ops : List BatchOp} {seq : ℕ} (h : Holds table es)
    (hbuilt : WriteBatch.Built rep ops seq) (hops : ∀ op ∈ ops, OpStorable op)
    (hold : ∀ e ∈ es, e.sequence < seq) (hlen : ops.length < 2 ^ 32)
    (hseq : seq + ops.length ≤ kMaxSequenceNumber + 1)
    (hfuel : es.length + ops.length + kMaxHeight ≤ fuel) :
    ∃ table' es', MemTable.insertInto fuel rep table = some (table', none) ∧
      Holds table' es' ∧ es'.Perm (batchEntries seq ops ++ es) := by
  have hmax : kMaxHeight = 12 := rfl
  obtain ⟨hiterate, hsequence⟩ := hbuilt.iterate hlen (show ops.length < fuel by omega)
  obtain ⟨table', es', hfold, h', hperm⟩ := h.insertOps hops hold hseq hfuel
  refine ⟨table', es', ?_, h', hperm⟩
  rw [MemTable.insertInto, hiterate, hsequence, Option.bind_some, hfold, Option.map_some]

end Add

/-! ## The iterator -/

section Iterator

variable {table : MemTable} {es : List Entry} {fuel : ℕ}

/-- INTERNAL: the keys of the list are the bytes of the entries. -/
theorem Holds.keyList_eq (h : Holds table es) :
    SkipList.keyList (SkipList.entries table) = es.map fun e => (bytesOf e, ()) := by
  have hmap : SkipList.keyList (SkipList.entries table) =
      ((SkipList.entries table).map Prod.fst).map fun k => (k, ()) := by
    rw [List.map_map]
    rfl
  rw [hmap, h.keys, List.map_map]
  rfl

/-- INTERNAL: a key is sought among the entries where it is sought among their internal keys. -/
theorem seekIndex_bytesOf (hfits : ∀ e ∈ es, EntryFits e) {k : List Byte} (hk : UserKeyFits k) :
    seekIndex (lessBy MemTable.keyComparator) (es.map fun e => (bytesOf e, ()))
        (MemTable.encodeKey k) =
      seekIndex internalBefore (es.map Entry.pair) k := by
  have hkey : (MemTable.lengthPrefixedSlice (MemTable.encodeKey k)).1 = k := by
    have hread := lengthPrefixedSlice_encode hk []
    rw [List.append_nil] at hread
    rw [MemTable.encodeKey, hread]
  rw [seekIndex, seekIndex, List.findIdx_map, List.findIdx_map]
  apply findIdx_congr
  intro e he
  simp only [Function.comp, lessBy, MemTable.keyComparator, hkey, internalBefore,
    lengthPrefixedSlice_bytesOf (hfits e he)]

/-- INTERNAL: the cursor over the entries in memory moves as the one over the entries. -/
theorem cursorMove_bytesOf (hfits : ∀ e ∈ es, EntryFits e) (mv : Move (List Byte))
    (hok : mv.Within UserKeyFits) (p : Option ℕ) :
    cursorMove (lessBy MemTable.keyComparator) (es.map fun e => (bytesOf e, ()))
        (MemTable.entryMove mv) p =
      cursorMove internalBefore (es.map Entry.pair) mv p := by
  have hclip : ∀ i, clip (es.map fun e => (bytesOf e, ())) i = clip (es.map Entry.pair) i := by
    intro i
    simp only [clip, List.length_map]
  cases mv with
  | seek k =>
    simp only [MemTable.entryMove, cursorMove, hclip, seekIndex_bytesOf hfits hok]
  | seekToFirst => simp only [MemTable.entryMove, cursorMove, hclip]
  | seekToLast => simp only [MemTable.entryMove, cursorMove, hclip, List.length_map]
  | next => simp only [MemTable.entryMove, cursorMove, hclip]
  | prev => simp only [MemTable.entryMove, cursorMove, hclip]

/-- INTERNAL: **the iterator over a memtable stands for the cursor over its entries.**
SRCLINE: leveldb-1.15.0/db/memtable.cc:51-80 -/
theorem Holds.iterator_simulates (h : Holds table es) (hfuel : es.length + kMaxHeight ≤ fuel) :
    Simulates UserKeyFits (MemTable.iterator fuel table)
      (cursorOps internalBefore (es.map Entry.pair)) (SkipList.OnNode (SkipList.entries table)) := by
  have hmax := h.linked.maxHeight_le
  have hlen := h.length_eq
  have hskip := SkipList.iterator_simulates h.linked keyComparator_represents
    (show (SkipList.entries table).length + table.maxHeight ≤ fuel by omega)
  rw [h.keyList_eq] at hskip
  constructor
  · intro node p hp
    rw [MemTable.iterator]
    simp only [hskip.current hp, cursorOps]
    cases p with
    | none => rfl
    | some i =>
      simp only [Option.bind_some, List.getElem?_map, Option.map_map]
      cases he : es[i]? with
      | none => rfl
      | some e =>
        have hfits := h.fits e (List.mem_of_getElem? he)
        have hvalue := lengthPrefixedSlice_encode hfits.value []
        rw [List.append_nil] at hvalue
        simp only [Option.map_some, Function.comp, lengthPrefixedSlice_bytesOf hfits, hvalue]
        rfl
  · intro node p p' mv hok hp hmove
    have hentry := (cursorMove_bytesOf h.fits mv hok p).trans hmove
    apply hskip.move (MemTable.entryMove mv) ?_ hp hentry
    cases mv <;> trivial

/-- INTERNAL: **a memtable is read from its first entry to its last.** -/
theorem Holds.scan (h : Holds table es) (hfuel : es.length + kMaxHeight ≤ fuel) :
    (MemTable.iterator fuel table).scan fuel none = some (es.map Entry.pair) := by
  have hmax : kMaxHeight = 12 := rfl
  apply (h.iterator_simulates hfuel).scan (p := none)
  · exact ⟨rfl, by simp⟩
  · rw [List.length_map]
    omega

end Iterator

end MemTable

end ExternalSort.Analysis
