import ExternalSort.Analysis.SchemaLayout
import ExternalSort.Model.Bsort

/-!
# The loop of the tree sort, on any file

`fgets` delivers a file in chunks (`lineChunks`), one for each round of the loop.  The loop
asks `feof` whether there was one, and the flag is up already when the end of the file cut
the chunk off: such a chunk is read and not inserted.

A chunk overwrites the front of the buffer, so a field behind its end is read from what earlier
chunks have left there (`byteAt`).  The key of a chunk is made of these bytes (`keyOf`), and it
can be made if `KeyFits`.  `load_returns_iff` and `load_db` say for every schema, every file and
whatever is on the stack when the loop ends and what it has put into the database by then; the
database itself has no influence on either.
-/

set_option autoImplicit false

namespace ExternalSort.Analysis

open ExternalSort.Lib ExternalSort.Model

/-! ## The key of a round -/

/-- The key of a record: its sort fields and its number.
SRCLINE: bsort.cc:73-90 -/
def keyOf (schema : Schema) (buffer : List Byte) (counter : ℤ) : List Byte :=
  (sortFields schema buffer).flatten ++ decimalInt counter

/-- The key of the record in the buffer can be made: the sort attributes are assigned, their
fields are read from the buffer, and the key has room in its own buffer.
SRCLINE: bsort.cc:65, bsort.cc:73-88 -/
structure KeyFits (schema : Schema) (buffer : List Byte) (counter : ℤ) : Prop where
  assigned : none ∉ schema.sortAttrs
  inside : ∀ attr ∈ schema.sortAttrs.reduceOption, attrLength schema attr = 0 ∨
    0 ≤ offsetToAttribute schema attr ∧
      ((offsetToAttribute schema attr).toNat + toSizeT (attrLength schema attr) ≤ buffer.length ∨
        0 ∈ buffer.drop (offsetToAttribute schema attr).toNat)
  room : (keyOf schema buffer counter).length ≤ schema.recordSize + 50

section Key

variable {schema : Schema} {buffer : List Byte}

/-- INTERNAL: both programs look for a field in the same place.
SRCLINE: library.cc:58-65, bsort.cc:76-80 -/
theorem sortOffset_eq (schema : Schema) (attr : ℕ) :
    sortOffset schema attr = offsetToAttribute schema attr := by
  unfold sortOffset offsetToAttribute
  congr 1
  funext offset a
  rw [add_comm a.length.toInt 1]

/-- INTERNAL: the sort fields in the buffer, one behind the other.  The induction is on the
slots.
SRCLINE: bsort.cc:73-83 -/
theorem sortBuffer_eq_some_iff (slots : List (Option ℕ)) (fields : List Byte) :
    sortBuffer schema buffer slots = some fields ↔
      none ∉ slots ∧ (∀ attr ∈ slots.reduceOption, readsBuffer schema buffer attr) ∧
        (slots.reduceOption.map (field schema buffer)).flatten = fields := by
  induction slots generalizing fields with
  | nil => simp [sortBuffer]
  | cons slot slots ih =>
    cases slot with
    | none => simp [sortBuffer]
    | some attr =>
      have hfield : cstr (buffer.drop (sortOffset schema attr).toNat)
          (toSizeT (attrLength schema attr)) = field schema buffer attr := by
        rw [sortOffset_eq, field]
      rw [sortBuffer, hfield]
      by_cases hreads : readsBuffer schema buffer attr
      · rw [if_pos hreads, Option.map_eq_some_iff]
        rw [List.reduceOption_cons_of_some, List.forall_mem_cons, List.map_cons,
          List.flatten_cons]
        simp only [ih, List.mem_cons, reduceCtorEq, false_or]
        constructor
        · rintro ⟨rest, ⟨hsome, hall, rfl⟩, rfl⟩
          exact ⟨hsome, ⟨hreads, hall⟩, rfl⟩
        · rintro ⟨hsome, ⟨-, hall⟩, rfl⟩
          exact ⟨_, ⟨hsome, hall, rfl⟩, rfl⟩
      · simp [hreads]

/-- INTERNAL: **the key of a round**, and when there is one.
SRCLINE: bsort.cc:65, bsort.cc:73-90 -/
theorem sortKey_eq_some_iff (counter : ℤ) (key : List Byte) :
    sortKey schema buffer counter = some key ↔
      KeyFits schema buffer counter ∧ keyOf schema buffer counter = key := by
  have hreads : ∀ attr, readsBuffer schema buffer attr = true ↔ attrLength schema attr = 0 ∨
      0 ≤ offsetToAttribute schema attr ∧
        ((offsetToAttribute schema attr).toNat + toSizeT (attrLength schema attr) ≤ buffer.length ∨
          0 ∈ buffer.drop (offsetToAttribute schema attr).toNat) := by
    intro attr
    rw [readsBuffer, decide_eq_true_iff, sortOffset_eq, List.contains_iff_mem]
  rw [sortKey, Option.bind_eq_some_iff]
  simp only [sortBuffer_eq_some_iff, hreads]
  constructor
  · rintro ⟨fields, ⟨hsome, hinside, rfl⟩, hroom⟩
    split_ifs at hroom with hlen
    exact ⟨⟨hsome, hinside, Nat.le_of_lt_succ hlen⟩, Option.some.inj hroom⟩
  · rintro ⟨⟨hsome, hinside, hroom⟩, rfl⟩
    exact ⟨_, ⟨hsome, hinside, rfl⟩, if_pos (Nat.lt_succ_of_le hroom)⟩

/-- INTERNAL: without a key the round has no result. -/
theorem sortKey_eq_none_iff (counter : ℤ) :
    sortKey schema buffer counter = none ↔ ¬ KeyFits schema buffer counter := by
  rw [Option.eq_none_iff_forall_ne_some]
  simp only [ne_eq, sortKey_eq_some_iff, not_and]
  exact ⟨fun h hfits => h _ hfits rfl, fun h _ hfits => absurd hfits h⟩

end Key

/-! ## The bytes of the buffer -/

/-- INTERNAL: a byte of the buffer once a chunk and the NUL behind it are stored at its front.
SRCLINE: bsort.cc:67, bsort.cc:96 -/
def storedByte (chunk : List Byte) (p : ℕ) (old : Byte) : Byte :=
  if p < chunk.length then chunk.getD p 0 else if p = chunk.length then 0 else old

/-- The byte at place `p` of the buffer when chunk `i` was read: a byte of the chunk, the NUL
behind it, or what was there before.  Before the first chunk that is what was on the stack;
later it is what the chunk before has left, with a NUL in the last place of a record.
SRCLINE: bsort.cc:64-67, bsort.cc:91, bsort.cc:96 -/
def byteAt (stack : ℕ → Byte) (size : ℕ) (chunks : List (List Byte)) : ℕ → ℕ → Byte
  | 0, p => storedByte (chunks.getD 0 []) p (stack p)
  | i + 1, p =>
      storedByte (chunks.getD (i + 1) []) p
        (if p + 1 = size then 0 else byteAt stack size chunks i p)

/-- The buffer when chunk `i` was read.
SRCLINE: bsort.cc:64 -/
def bufferAt (schema : Schema) (stack : ℕ → Byte) (chunks : List (List Byte)) (i : ℕ) :
    List Byte :=
  (List.range (schema.recordSize + 3)).map (byteAt stack schema.recordSize chunks i)

/-- The largest number of bytes one `fgets` delivers.
SRCLINE: bsort.cc:67, bsort.cc:96 -/
def lineBound (schema : Schema) : ℕ := (toInt (schema.recordSize + 2)).toNat - 1

/-- The chunks `fgets` delivers of a file.
SRCLINE: bsort.cc:67, bsort.cc:96 -/
def fileChunks (schema : Schema) (contents : List Byte) : List (List Byte) :=
  lineChunks (lineBound schema) [] contents

/-- The chunks that the end of the file did not cut off.
SRCLINE: bsort.cc:71 -/
def wholeChunks (schema : Schema) (contents : List Byte) : List (List Byte) :=
  (fileChunks schema contents).filter (WholeChunk (lineBound schema))

/-- The entries the loop puts: the key of every such chunk, and as value the chunk up to its
first NUL, without what would be the newline of a record.
SRCLINE: bsort.cc:71-98 -/
def loadPuts (schema : Schema) (stack : ℕ → Byte) (contents : List Byte) :
    List (List Byte × List Byte) :=
  (wholeChunks schema contents).mapIdx fun i c =>
    (keyOf schema (bufferAt schema stack (fileChunks schema contents) i) (toInt i),
      cstr c (schema.recordSize - 1))

section Buffer

variable {schema : Schema} {contents c : List Byte}

/-- INTERNAL: a bound that wraps around gets smaller. -/
theorem lineBound_le (schema : Schema) : lineBound schema ≤ schema.recordSize + 1 := by
  have hle := toInt_le_self (show (0 : ℤ) ≤ schema.recordSize + 2 by omega)
  unfold lineBound
  generalize toInt (schema.recordSize + 2) = x at hle
  omega

/-- INTERNAL: a bound that fits an `int` is the one that was meant. -/
theorem lineBound_of_lt (h : schema.recordSize + 2 < 2 ^ 31) :
    lineBound schema = schema.recordSize + 1 := by
  rw [lineBound, toInt_of_lt (by omega) (by omega)]
  omega

/-- INTERNAL: a bound that wraps around to a positive one is far below the length of a record. -/
theorem lineBound_lt_of_wraps (h : 2 ≤ toInt (schema.recordSize + 2))
    (hlarge : ¬ schema.recordSize + 2 < 2 ^ 31) : lineBound schema < schema.recordSize - 1 := by
  have hwrapped := toInt_eq (schema.recordSize + 2)
  unfold lineBound
  generalize toInt (schema.recordSize + 2) = x at h hwrapped
  split_ifs at hwrapped <;> omega

/-- INTERNAL: the bound of `fgets`, with the byte for the NUL. -/
theorem toInt_eq_lineBound (h : 2 ≤ toInt (schema.recordSize + 2)) :
    toInt (schema.recordSize + 2) = ((lineBound schema + 1 : ℕ) : ℤ) ∧ 0 < lineBound schema := by
  unfold lineBound
  generalize toInt (schema.recordSize + 2) = x at h
  omega

/-- INTERNAL: every chunk and its NUL have room in the buffer. -/
theorem length_chunk_le (h : 2 ≤ toInt (schema.recordSize + 2))
    (hc : c ∈ fileChunks schema contents) : c.length + 1 ≤ schema.recordSize + 3 := by
  have hle := length_le_of_mem_lineChunks (toInt_eq_lineBound h).2 hc
  have hbound := lineBound_le schema
  omega

/-- INTERNAL: no value is longer than what one `fgets` delivers. -/
theorem length_snd_le_of_mem_loadPuts {stack : ℕ → Byte}
    (h : 2 ≤ toInt (schema.recordSize + 2)) {put : List Byte × List Byte}
    (hput : put ∈ loadPuts schema stack contents) : put.2.length ≤ lineBound schema := by
  obtain ⟨i, hi, rfl⟩ := List.mem_iff_getElem.mp hput
  rw [loadPuts, List.length_mapIdx] at hi
  have hmem : (wholeChunks schema contents)[i] ∈ fileChunks schema contents :=
    List.mem_of_mem_filter (List.getElem_mem hi)
  have hle := length_le_of_mem_lineChunks (toInt_eq_lineBound h).2 hmem
  rw [List.getElem_of_eq (loadPuts.eq_1 schema stack contents), List.getElem_mapIdx]
  calc (cstr (wholeChunks schema contents)[i] (schema.recordSize - 1)).length
      ≤ (wholeChunks schema contents)[i].length :=
        ((List.takeWhile_sublist _).trans (List.take_sublist _ _)).length_le
    _ ≤ lineBound schema := hle

/-- INTERNAL: a chunk is stored in front of what was there.
SRCLINE: bsort.cc:67, bsort.cc:96 -/
theorem overwrite_chunk (old : ℕ → Byte) {size : ℕ} (h : c.length + 1 ≤ size) :
    overwrite ((List.range size).map old) 0 (c ++ [0]) =
      (List.range size).map fun p => storedByte c p (old p) := by
  rw [overwrite_map_range old (by simpa using h)]
  apply List.map_congr_left
  intro p _
  rw [storedByte, Nat.sub_zero, List.length_append, List.length_singleton]
  rcases lt_trichotomy p c.length with hlt | rfl | hgt
  · rw [if_pos (by omega), if_pos hlt, List.getD_eq_getElem?_getD, List.getD_eq_getElem?_getD,
      List.getElem?_append_left hlt]
  · rw [if_pos (by omega), if_neg (lt_irrefl _), if_pos rfl, List.getD_eq_getElem?_getD,
      List.getElem?_concat_length, Option.getD_some]
  · rw [if_neg (by omega), if_neg (by omega), if_neg (by omega)]

/-- INTERNAL: the NUL that is stored over the newline of a record.
SRCLINE: bsort.cc:91 -/
theorem overwrite_newline (byte : ℕ → Byte) {size : ℕ} (h : 0 < size) :
    overwrite ((List.range (size + 3)).map byte) (size - 1) [0] =
      (List.range (size + 3)).map fun p => if p + 1 = size then 0 else byte p := by
  rw [overwrite_map_range byte (by rw [List.length_singleton]; omega)]
  apply List.map_congr_left
  intro p _
  rw [List.length_singleton]
  by_cases hp : p + 1 = size
  · rw [if_pos hp, if_pos (by omega), show p - (size - 1) = 0 by omega]
    rfl
  · rw [if_neg hp, if_neg (by omega)]

/-- INTERNAL: the chunk is at the front of the buffer. -/
theorem bufferAt_eq_append {stack : ℕ → Byte} {chunks : List (List Byte)} {i : ℕ}
    (hc : chunks[i]? = some c) (hlen : c.length + 1 ≤ schema.recordSize + 3) :
    ∃ junk, bufferAt schema stack chunks i = c ++ 0 :: junk := by
  obtain ⟨old, hold⟩ : ∃ old : ℕ → Byte, bufferAt schema stack chunks i =
      (List.range (schema.recordSize + 3)).map fun p => storedByte c p (old p) := by
    have hget : chunks.getD i [] = c := by rw [List.getD_eq_getElem?_getD, hc, Option.getD_some]
    rw [bufferAt]
    cases i with
    | zero => exact ⟨stack, by simp only [byteAt, hget]⟩
    | succ i =>
      exact ⟨fun p => if p + 1 = schema.recordSize then 0
        else byteAt stack schema.recordSize chunks i p, by simp only [byteAt, hget]⟩
  rw [hold, ← overwrite_chunk old hlen]
  exact ⟨((List.range (schema.recordSize + 3)).map old).drop (c.length + 1), by simp [overwrite]⟩

/-- INTERNAL: the string in the buffer after a NUL was stored behind its first `k` bytes.
SRCLINE: bsort.cc:91-92 -/
theorem cstr_cut (c junk : List Byte) (k : ℕ) :
    cstr (overwrite (c ++ 0 :: junk) k [0]) (overwrite (c ++ 0 :: junk) k [0]).length =
      cstr c k := by
  suffices hcut : ∃ rest, overwrite (c ++ 0 :: junk) k [0] = c.take k ++ 0 :: rest by
    obtain ⟨rest, hcut⟩ := hcut
    rw [hcut, cstr_append_nul _ _ (by rw [List.length_append, List.length_cons]; omega), cstr]
  rw [overwrite, if_neg (List.cons_ne_nil _ _), List.take_append]
  -- the string ends at the new NUL, or at its own
  cases hk : k - c.length with
  | zero =>
    rw [List.take_zero, List.append_nil,
      show k - (c ++ 0 :: junk).length = 0 by rw [List.length_append]; omega, List.append_assoc,
      List.append_assoc]
    exact ⟨_, rfl⟩
  | succ m =>
    rw [List.take_succ_cons, List.append_assoc, List.append_assoc, List.append_assoc]
    exact ⟨_, rfl⟩

end Buffer

/-! ## The rounds of the loop -/

/-- INTERNAL: what the last `fgets` has left: chunk `i` in the buffer, or the flag.
SRCLINE: bsort.cc:67-71 -/
inductive AtChunk (schema : Schema) (stack : ℕ → Byte) (contents : List Byte) (i : ℕ)
    (buffer : List Byte) (input : File) : Prop
  | ended (heof : input.eof = true)
      (hend : ∀ c ∈ (fileChunks schema contents).drop i, ¬ WholeChunk (lineBound schema) c) :
      AtChunk schema stack contents i buffer input
  | chunk {c : List Byte} (hc : (fileChunks schema contents)[i]? = some c)
      (hwhole : WholeChunk (lineBound schema) c)
      (hbuffer : buffer = bufferAt schema stack (fileChunks schema contents) i)
      (heof : input.eof = false)
      (hrest : lineChunks (lineBound schema) [] (input.contents.drop input.pos) =
        (fileChunks schema contents).drop (i + 1)) :
      AtChunk schema stack contents i buffer input

/-- INTERNAL: the state of the loop before chunk `i`.
SRCLINE: bsort.cc:71-98 -/
structure Loaded (schema : Schema) (stack : ℕ → Byte) (contents : List Byte) (D : Database) (i : ℕ)
    (st : Loading) : Prop where
  counter : st.counter = toInt i
  passed : ∀ c ∈ (fileChunks schema contents).take i, WholeChunk (lineBound schema) c
  db : st.db = putAll D ((loadPuts schema stack contents).take i)
  at_chunk : AtChunk schema stack contents i st.buffer st.input

section Rounds

variable {schema : Schema} {stack : ℕ → Byte} {contents : List Byte} {D : Database} {i : ℕ}
  {st : Loading}

/-- INTERNAL: **one `fgets`.**
SRCLINE: bsort.cc:67, bsort.cc:96 -/
theorem readLine_spec (hbound : 2 ≤ toInt (schema.recordSize + 2)) (old : ℕ → Byte)
    (hbuffer : st.buffer = (List.range (schema.recordSize + 3)).map old)
    (hold : ∀ p, byteAt stack schema.recordSize (fileChunks schema contents) i p =
      storedByte ((fileChunks schema contents).getD i []) p (old p))
    (heof : st.input.eof = false)
    (hrest : lineChunks (lineBound schema) [] (st.input.contents.drop st.input.pos) =
      (fileChunks schema contents).drop i) :
    AtChunk schema stack contents i (readLine schema st).buffer (readLine schema st).input ∧
      (readLine schema st).counter = st.counter ∧ (readLine schema st).db = st.db := by
  obtain ⟨hint, hpos⟩ := toInt_eq_lineBound hbound
  have hfgets := fgets_of_lt st.input (show 1 < lineBound schema + 1 by omega)
  rw [Nat.add_sub_cancel] at hfgets
  set rest := st.input.contents.drop st.input.pos with hrest'
  rcases eq_or_ne rest [] with hnil | hne
  · rw [hnil] at hrest
    have hread : readLine schema st = { st with input := { st.input with eof := true } } := by
      rw [readLine, hint, Loading.fgets, fgets_end (hrest'.symm.trans hnil) (by omega)]
    rw [hread]
    refine ⟨.ended rfl fun c hc => ?_, rfl, rfl⟩
    rw [← hrest] at hc
    cases hc
  · obtain ⟨c, hc⟩ : ∃ c, c = File.upToNewline (rest.take (lineBound schema)) := ⟨_, rfl⟩
    have hsome : c ≠ [] := hc ▸ upToNewline_take_ne_nil hpos hne
    have hread : readLine schema st =
        { st with
          buffer := overwrite st.buffer 0 (c ++ [0])
          input :=
            { st.input with
              pos := st.input.pos + c.length
              eof := decide (c.length < lineBound schema ∧ 10 ∉ c) || st.input.eof } } := by
      rw [readLine, hint, Loading.fgets, hfgets, ← hc]
      simp only [if_neg hsome]
    have hwhole := wholeChunk_iff (lineBound schema) rest
    rw [lineChunks_eq_cons hpos hne, ← hc] at hrest
    rw [← hc] at hwhole
    have hget : (fileChunks schema contents)[i]? = some c := by
      rw [← List.head?_drop, ← hrest, List.head?_cons]
    rw [hread]
    refine ⟨?_, rfl, rfl⟩
    by_cases hw : WholeChunk (lineBound schema) c
    · refine .chunk hget hw ?_ ?_ ?_
      · dsimp only
        rw [bufferAt, hbuffer,
          overwrite_chunk old (length_chunk_le hbound (List.mem_of_getElem? hget))]
        refine List.map_congr_left fun p _ => ?_
        rw [hold, List.getD_eq_getElem?_getD, hget, Option.getD_some]
      · dsimp only
        rw [decide_eq_false (hwhole.mp hw), heof]
        rfl
      · dsimp only
        rw [← List.drop_drop, ← hrest', ← List.tail_drop, ← hrest, List.tail_cons]
    · have hlast : rest.drop c.length = [] := by
        rw [hc]
        exact drop_eq_nil_of_not_wholeChunk (hc ▸ hw)
      refine .ended ?_ fun d hd => ?_
      · dsimp only
        rw [decide_eq_true (not_not.mp (hwhole.not.mp hw)), Bool.true_or]
      · rw [← hrest, hlast] at hd
        rw [List.mem_singleton.mp hd]
        exact hw

/-- INTERNAL: the loop begins before the first chunk. -/
theorem loaded_loadStart (hbound : 2 ≤ toInt (schema.recordSize + 2)) (stack : ℕ → Byte)
    (contents : List Byte) (D : Database) :
    Loaded schema stack contents D 0 (loadStart schema stack contents D) := by
  obtain ⟨hat, hcounter, hdb⟩ := @readLine_spec schema stack contents 0
    ⟨(List.range (schema.recordSize + 3)).map stack, File.open_ contents, 0, D⟩ hbound stack rfl
    (fun p => by rw [byteAt]) rfl (by rw [List.drop_zero, fileChunks]; rfl)
  refine ⟨hcounter, by simp, ?_, hat⟩
  rw [List.take_zero]
  exact hdb

/-- INTERNAL: the chunks that are inserted, when the first ones are known to be. -/
theorem wholeChunks_eq (hpassed : ∀ c ∈ (fileChunks schema contents).take i,
      WholeChunk (lineBound schema) c) :
    wholeChunks schema contents = (fileChunks schema contents).take i ++
      ((fileChunks schema contents).drop i).filter (WholeChunk (lineBound schema)) := by
  rw [wholeChunks]
  conv_lhs => rw [← List.take_append_drop i (fileChunks schema contents)]
  rw [List.filter_append, List.filter_eq_self.mpr (by simpa using hpassed)]

/-- INTERNAL: **one round** leaves the loop, or puts the entry of its chunk if the key fits.
SRCLINE: bsort.cc:71-98 -/
theorem loadRecord_cases (hbound : 2 ≤ toInt (schema.recordSize + 2))
    (hst : Loaded schema stack contents D i st) :
    (loadRecord schema st = some (.inr st) ∧ (wholeChunks schema contents).length ≤ i) ∨
    (i < (wholeChunks schema contents).length ∧
      ¬ (0 < schema.recordSize ∧ KeyFits schema
        (bufferAt schema stack (fileChunks schema contents) i) (toInt i)) ∧
      loadRecord schema st = none) ∨
    (i < (wholeChunks schema contents).length ∧
      (0 < schema.recordSize ∧ KeyFits schema
        (bufferAt schema stack (fileChunks schema contents) i) (toInt i)) ∧
      ∃ st', loadRecord schema st = some (.inl st') ∧
        Loaded schema stack contents D (i + 1) st') := by
  have hchunks := wholeChunks_eq hst.passed
  cases hst.at_chunk with
  | ended heof hend =>
    left
    refine ⟨if_pos heof, ?_⟩
    rw [hchunks, List.filter_eq_nil_iff.mpr (by simpa using hend), List.append_nil]
    exact List.length_take_le _ _
  | @chunk c hc hwhole hbuffer heof hrest =>
    right
    have hlt := (List.getElem?_eq_some_iff.mp hc).1
    have hdrop : (fileChunks schema contents).drop i =
        c :: (fileChunks schema contents).drop (i + 1) := by
      rw [List.drop_eq_getElem_cons hlt, (List.getElem?_eq_some_iff.mp hc).2]
    have hget : (wholeChunks schema contents)[i]? = some c := by
      rw [hchunks, List.getElem?_append_right (List.length_take_le _ _), List.length_take,
        min_eq_left hlt.le, Nat.sub_self, hdrop, List.filter_cons_of_pos (by simpa using hwhole)]
      rfl
    have hi : i < (wholeChunks schema contents).length := (List.getElem?_eq_some_iff.mp hget).1
    have hround : loadRecord schema st = if schema.recordSize = 0 then none else
        (sortKey schema st.buffer st.counter).map fun key =>
          .inl (readLine schema ⟨overwrite st.buffer (schema.recordSize - 1) [0], st.input,
            toInt (st.counter + 1), st.db.insert key
              (cstr (overwrite st.buffer (schema.recordSize - 1) [0])
                (overwrite st.buffer (schema.recordSize - 1) [0]).length)⟩) := by
      rw [loadRecord, if_neg (show ¬ st.input.feof = true by rw [File.feof, heof]; decide)]
    rw [hround, hbuffer, hst.counter]
    by_cases hfits : 0 < schema.recordSize ∧ KeyFits schema
        (bufferAt schema stack (fileChunks schema contents) i) (toInt i)
    · right
      obtain ⟨junk, hjunk⟩ := @bufferAt_eq_append schema c stack _ i hc
        (length_chunk_le hbound (List.mem_of_getElem? hc))
      have hput : (loadPuts schema stack contents)[i]? =
          some (keyOf schema (bufferAt schema stack (fileChunks schema contents) i) (toInt i),
            cstr c (schema.recordSize - 1)) := by
        rw [loadPuts, List.getElem?_mapIdx, hget, Option.map_some]
      refine ⟨hi, hfits, ?_⟩
      rw [if_neg (Nat.ne_of_gt hfits.1), (sortKey_eq_some_iff _ _).mpr ⟨hfits.2, rfl⟩,
        Option.map_some]
      refine ⟨_, rfl, ?_⟩
      obtain ⟨hat, hcounter, hdb⟩ := @readLine_spec schema stack contents (i + 1)
        ⟨overwrite (bufferAt schema stack (fileChunks schema contents) i) (schema.recordSize - 1) [0],
          st.input, toInt (toInt i + 1), st.db.insert
            (keyOf schema (bufferAt schema stack (fileChunks schema contents) i) (toInt i))
            (cstr (overwrite (bufferAt schema stack (fileChunks schema contents) i)
              (schema.recordSize - 1) [0])
              (overwrite (bufferAt schema stack (fileChunks schema contents) i)
                (schema.recordSize - 1) [0]).length)⟩ hbound
        (fun p => if p + 1 = schema.recordSize then 0
          else byteAt stack schema.recordSize (fileChunks schema contents) i p)
        (by rw [bufferAt]; exact overwrite_newline _ hfits.1) (fun p => by rw [byteAt]) heof hrest
      refine ⟨?_, ?_, ?_, hat⟩
      · rw [hcounter]
        dsimp only
        rw [toInt_toInt_add, Nat.cast_add, Nat.cast_one]
      · intro d hd
        rw [List.take_add_one, hc, Option.toList_some, List.mem_append] at hd
        cases hd with
        | inl hd => exact hst.passed d hd
        | inr hd => exact List.mem_singleton.mp hd ▸ hwhole
      · rw [hdb]
        dsimp only
        rw [hst.db, List.take_add_one, hput, Option.toList_some, putAll_concat, hjunk, cstr_cut]
    · left
      refine ⟨hi, hfits, ?_⟩
      split_ifs with hsize
      · rfl
      · rw [(sortKey_eq_none_iff _).mpr fun h => hfits ⟨Nat.pos_of_ne_zero hsize, h⟩,
          Option.map_none]

end Rounds

/-! ## The whole loop -/

/-- What the loop needs to end: `fgets` gets room for a byte, and every key can be made.
SRCLINE: bsort.cc:63-99 -/
structure LoadReturns (schema : Schema) (stack : ℕ → Byte) (contents : List Byte) : Prop where
  bound : 2 ≤ toInt (schema.recordSize + 2)
  keys : ∀ i < (wholeChunks schema contents).length, 0 < schema.recordSize ∧
    KeyFits schema (bufferAt schema stack (fileChunks schema contents) i) (toInt i)

section Load

variable {schema : Schema} {stack : ℕ → Byte} {contents : List Byte} {D : Database} {fuel : ℕ}
  {fin : Loading}

/-- INTERNAL: with a bound below two nothing is read.
SRCLINE: bsort.cc:67, bsort.cc:96 -/
theorem loading_fgets_of_le_one (st : Loading) {size : ℤ} (h : size ≤ 1) :
    (st.fgets size).input = st.input := by
  have hread := Lib.fgets_of_le_one st.input h
  rw [Loading.fgets]
  split <;> rename_i heq
  · rw [heq] at hread
    exact hread
  · rw [heq] at hread
    exact hread

/-- INTERNAL: with a bound below two `fgets` reads nothing, the flag never comes up, and the loop
does not end.
SRCLINE: bsort.cc:67-71 -/
theorem bound_of_load (h : loop (loadRecord schema) fuel (loadStart schema stack contents D) =
    some fin) : 2 ≤ toInt (schema.recordSize + 2) := by
  by_contra hbound
  have hle : ∀ x : ℤ, ¬ 2 ≤ x → x ≤ 1 := by intros; omega
  have hstays : ∀ st : Loading, (readLine schema st).input = st.input := fun st => by
    rw [readLine]
    exact loading_fgets_of_le_one st (hle _ hbound)
  refine loop_invariant (fun st : Loading => st.input.eof = false) (fun _ => False) ?_ ?_ ?_ h
  · intro st st' heof hround
    rw [loadRecord, if_neg (show ¬ st.input.feof = true by rw [File.feof, heof]; decide)] at hround
    split_ifs at hround with hsize
    obtain ⟨key, -, heq⟩ := Option.map_eq_some_iff.mp hround
    obtain rfl := Sum.inl.inj heq
    rw [hstays]
    exact heof
  · intro st r heof hround
    rw [loadRecord, if_neg (show ¬ st.input.feof = true by rw [File.feof, heof]; decide)] at hround
    split_ifs at hround with hsize
    obtain ⟨key, -, heq⟩ := Option.map_eq_some_iff.mp hround
    cases heq
  · rw [loadStart, hstays]
    rfl

/-- INTERNAL: **a loop that ends has put the entries of its chunks**, and their keys could be made.
SRCLINE: bsort.cc:63-99 -/
theorem load_db (h : loop (loadRecord schema) fuel (loadStart schema stack contents D) = some fin) :
    LoadReturns schema stack contents ∧ fin.db = putAll D (loadPuts schema stack contents) := by
  have hbound := bound_of_load h
  have hstart := loaded_loadStart hbound stack contents D
  refine loop_invariant (fun st => ∃ i, Loaded schema stack contents D i st ∧
      ∀ j < i, j < (wholeChunks schema contents).length → 0 < schema.recordSize ∧
        KeyFits schema (bufferAt schema stack (fileChunks schema contents) j) (toInt j))
    (fun fin => LoadReturns schema stack contents ∧
      fin.db = putAll D (loadPuts schema stack contents)) ?_ ?_ ⟨0, hstart, by simp⟩ h
  · rintro st st' ⟨i, hst, hkeys⟩ hround
    rcases loadRecord_cases hbound hst with ⟨hend, -⟩ | ⟨-, -, hnone⟩ | ⟨-, hfits, next, hnext, hst'⟩
    · cases hround.symm.trans hend
    · cases hround.symm.trans hnone
    · cases hround.symm.trans hnext
      refine ⟨i + 1, hst', fun j hj hlt => ?_⟩
      rcases Nat.lt_or_eq_of_le (Nat.le_of_lt_succ hj) with hj | rfl
      · exact hkeys j hj hlt
      · exact hfits
  · rintro st r ⟨i, hst, hkeys⟩ hround
    rcases loadRecord_cases hbound hst with ⟨hend, hall⟩ | ⟨-, -, hnone⟩ | ⟨-, -, next, hnext, -⟩
    · cases hround.symm.trans hend
      refine ⟨⟨hbound, fun j hj => hkeys j (by omega) hj⟩, ?_⟩
      rw [hst.db, List.take_of_length_le]
      rw [loadPuts, List.length_mapIdx]
      exact hall
    · cases hround.symm.trans hnone
    · cases hround.symm.trans hnext

/-- INTERNAL: **the loop ends** if all keys can be made.
SRCLINE: bsort.cc:63-99 -/
theorem LoadReturns.load (h : LoadReturns schema stack contents) (D : Database) :
    ∃ fuel fin, loop (loadRecord schema) fuel (loadStart schema stack contents D) = some fin := by
  have hstart := loaded_loadStart h.bound stack contents D
  have hstep : ∀ (left : ℕ) (st : Loading), (∃ i, (wholeChunks schema contents).length - i = left ∧
      Loaded schema stack contents D i st) →
      (∃ left' st', loadRecord schema st = some (.inl st') ∧
        (∃ i, (wholeChunks schema contents).length - i = left' ∧
          Loaded schema stack contents D i st') ∧ left' < left) ∨
      ∃ fin, loadRecord schema st = some (.inr fin) ∧ True := by
    rintro left st ⟨i, rfl, hst⟩
    rcases loadRecord_cases h.bound hst with ⟨hend, -⟩ | ⟨hlt, hnot, -⟩ | ⟨hlt, -, st', hnext, hst'⟩
    · exact Or.inr ⟨st, hend, trivial⟩
    · exact absurd (h.keys i hlt) hnot
    · exact Or.inl ⟨_, st', hnext, ⟨i + 1, rfl, hst'⟩, by omega⟩
  obtain ⟨fin, hfin, -⟩ := loop_total
    (fun left st => ∃ i, (wholeChunks schema contents).length - i = left ∧
      Loaded schema stack contents D i st)
    (fun _ => True) hstep ⟨0, rfl, hstart⟩ (Nat.lt_succ_self _)
  exact ⟨_, fin, hfin⟩

end Load

end ExternalSort.Analysis
