import ExternalSort.Lib.Bytes
import ExternalSort.Lib.MachineArith

/-!
# A file as an array of bytes

`File` is an open handle: the bytes of the file, the position of the handle and its
end-of-file flag.  The operations are those of a plain byte array: `fread` stores
whatever bytes there are (an incomplete last item included) and returns the number
of complete items, `fwrite` stores over what is there, `fgets` stops behind a
newline, at its bound, or at the end of the file, where it raises the flag.

A file of fixed-size items is read through `slot`: the `i`-th item from a start
position.  `slotCount` is the number of complete items from there on.
-/

set_option autoImplicit false

namespace ExternalSort.Lib

/-- INTERNAL: the files there are, and what is in them. -/
abbrev FileSystem := String → Option (List Byte)

/-- INTERNAL: an open file. -/
structure File where
  contents : List Byte
  pos : ℕ
  eof : Bool
  deriving DecidableEq, Repr

/-- INTERNAL: the `i`-th item of `size` bytes, counted from byte `start`. -/
def slot (contents : List Byte) (size start i : ℕ) : List Byte :=
  (contents.drop (start + i * size)).take size

/-- INTERNAL: the number of complete items of `size` bytes from byte `start` on. -/
def slotCount (contents : List Byte) (size start : ℕ) : ℕ :=
  (contents.length - start) / size

namespace File

/-- INTERNAL: a freshly opened file, as `fopen` returns it. -/
def open_ (contents : List Byte) : File := ⟨contents, 0, false⟩

/-- INTERNAL: `fseek(fp, off, SEEK_SET)`.  A negative offset is an error and leaves the
handle where it is. -/
def fseek (fp : File) (off : ℤ) : File :=
  if 0 ≤ off then { fp with pos := off.toNat, eof := false } else fp

/-- INTERNAL: `fseek(fp, 0, SEEK_END)`. -/
def fseekEnd (fp : File) : File := { fp with pos := fp.contents.length, eof := false }

/-- INTERNAL: `ftell`.  The position in a file of less than `2 ^ 63` bytes is a `long`. -/
def ftell (fp : File) : ℤ := fp.pos

/-- INTERNAL: `fread`: the bytes stored, the number of complete items, and the handle
behind the bytes read. -/
def fread (fp : File) (size count : ℕ) : List Byte × ℕ × File :=
  let data := (fp.contents.drop fp.pos).take (size * count)
  (data, data.length / size,
    { fp with pos := fp.pos + data.length, eof := decide (data.length < size * count) || fp.eof })

/-- INTERNAL: `fread` with a request that may not fit a `size_t`: the number of bytes is taken
modulo `2 ^ 64`.  If it gets all of them, it returns the number of items it was asked for. -/
def freadWrapped (fp : File) (size count : ℕ) : List Byte × ℕ × File :=
  let request := toSizeT (size * count)
  let data := (fp.contents.drop fp.pos).take request
  (data, if data.length = request ∧ request ≠ 0 then count else data.length / size,
    { fp with pos := fp.pos + data.length, eof := decide (data.length < request) || fp.eof })

/-- INTERNAL: `fwrite` of the given bytes at the position of the handle. -/
def fwrite (fp : File) (data : List Byte) : File :=
  { fp with contents := overwrite fp.contents fp.pos data, pos := fp.pos + data.length }

/-- INTERNAL: the front of a sequence up to its first newline, which is included. -/
def upToNewline : List Byte → List Byte
  | [] => []
  | b :: s => if b = 10 then [b] else b :: upToNewline s

/-- INTERNAL: `fgets`: the bytes stored, without the NUL behind them, or `none` when nothing is
stored.  The flag is raised when the end of the file was met.  A bound of one is room for the
NUL alone, and a bound below that is an error; nothing is read then. -/
def fgets (fp : File) (size : ℤ) : Option (List Byte) × File :=
  if size ≤ 0 then (none, fp)
  else if size = 1 then (some [], fp)
  else
    let line := upToNewline ((fp.contents.drop fp.pos).take (size.toNat - 1))
    (if line = [] then none else some line,
      { fp with
        pos := fp.pos + line.length
        eof := decide (line.length < size.toNat - 1 ∧ 10 ∉ line) || fp.eof })

/-- INTERNAL: `feof`. -/
def feof (fp : File) : Bool := fp.eof

end File

/-! ## Items of a file -/

/-- INTERNAL: an item that lies inside the file is complete. -/
theorem length_slot {contents : List Byte} {size start i : ℕ}
    (h : i < slotCount contents size start) : (slot contents size start i).length = size := by
  have hs : 0 < size := by
    by_contra h0
    simp [slotCount, Nat.eq_zero_of_not_pos h0] at h
  have hmul : (i + 1) * size ≤ contents.length - start :=
    (Nat.le_div_iff_mul_le hs).mp h
  rw [Nat.succ_mul] at hmul
  simp only [slot, List.length_take, List.length_drop]
  omega

/-- INTERNAL: an item of a NUL-free file is NUL-free. -/
theorem nulFree_slot {contents : List Byte} (h : NulFree contents) (size start i : ℕ) :
    NulFree (slot contents size start i) :=
  h.sublist ((List.take_sublist _ _).trans (List.drop_sublist _ _))

/-- INTERNAL: items counted from a later item are the items counted from the start. -/
theorem slot_add (contents : List Byte) (size start d i : ℕ) :
    slot contents size (start + d * size) i = slot contents size start (d + i) := by
  simp only [slot]
  congr 2
  ring

/-- INTERNAL: skipping `d` items leaves that many fewer. -/
theorem slotCount_add (contents : List Byte) (size start d : ℕ) :
    slotCount contents size (start + d * size) = slotCount contents size start - d := by
  unfold slotCount
  rw [← Nat.sub_sub, mul_comm d size]
  exact Nat.sub_mul_div _ _ _

section Flatten

variable {items : List (List Byte)} {size : ℕ}

/-- INTERNAL: the length of items of one size, one behind the other. -/
theorem length_flatten_of_size (h : ∀ r ∈ items, r.length = size) :
    items.flatten.length = size * items.length := by
  rw [List.length_flatten, List.map_congr_left h, List.map_const', List.sum_replicate,
    smul_eq_mul, mul_comm]

/-- INTERNAL: without the bytes of the first items. -/
theorem drop_flatten_of_size (h : ∀ r ∈ items, r.length = size) (d : ℕ) :
    items.flatten.drop (d * size) = (items.drop d).flatten := by
  induction d generalizing items with
  | zero => simp
  | succ d ih =>
    cases items with
    | nil => simp
    | cons r items =>
      have hr : r.length = size := h r (List.mem_cons_self ..)
      have hadd : (d + 1) * size = r.length + d * size := by rw [hr, Nat.succ_mul, Nat.add_comm]
      rw [List.flatten_cons, hadd, ← List.drop_drop, List.drop_left,
        ih fun r hr => h r (List.mem_cons_of_mem _ hr), List.drop_succ_cons]

/-- INTERNAL: the bytes of the first items. -/
theorem take_flatten_of_size (h : ∀ r ∈ items, r.length = size) (n : ℕ) :
    items.flatten.take (size * n) = (items.take n).flatten := by
  induction n generalizing items with
  | zero => simp
  | succ n ih =>
    cases items with
    | nil => simp
    | cons r items =>
      have hr : r.length = size := h r (List.mem_cons_self ..)
      have hadd : size * (n + 1) = r.length + size * n := by rw [hr, Nat.mul_succ, Nat.add_comm]
      rw [List.flatten_cons, hadd, List.take_length_add_append,
        ih fun r hr => h r (List.mem_cons_of_mem _ hr), List.take_succ_cons, List.flatten_cons]

/-- INTERNAL: the items of a file that is a sequence of items. -/
theorem slot_flatten (h : ∀ r ∈ items, r.length = size) {d i : ℕ} (hi : d + i < items.length) :
    slot items.flatten size (d * size) i = items[d + i] := by
  have hget := List.drop_eq_getElem_cons hi
  have hr : (items[d + i]).length = size := h _ (List.getElem_mem hi)
  rw [slot, ← Nat.add_mul, drop_flatten_of_size h, hget, List.flatten_cons, ← hr, List.take_left]

/-- INTERNAL: the number of items of a file that is a sequence of items. -/
theorem slotCount_flatten (h : ∀ r ∈ items, r.length = size) (hs : 0 < size) (d : ℕ) :
    slotCount items.flatten size (d * size) = items.length - d := by
  rw [slotCount, length_flatten_of_size h, mul_comm size, ← Nat.sub_mul, Nat.mul_div_cancel _ hs]

end Flatten

/-- INTERNAL: writing at the end of a file appends. -/
theorem foldl_fwrite_append (items : List (List Byte)) (fp : File)
    (hpos : fp.pos = fp.contents.length) :
    (items.foldl File.fwrite fp).contents = fp.contents ++ items.flatten ∧
      (items.foldl File.fwrite fp).pos = (items.foldl File.fwrite fp).contents.length := by
  induction items generalizing fp with
  | nil => simp [hpos]
  | cons r items ih =>
    have happ : (fp.fwrite r).contents = fp.contents ++ r := by
      simp only [File.fwrite]
      rw [hpos, overwrite_length]
    have hend : (fp.fwrite r).pos = (fp.fwrite r).contents.length := by
      rw [happ, List.length_append, ← hpos]
      rfl
    obtain ⟨h1, h2⟩ := ih (fp.fwrite r) hend
    rw [List.foldl_cons, h1, happ, List.flatten_cons, List.append_assoc]
    exact ⟨rfl, by rw [h2, h1, happ, List.append_assoc]⟩

/-- INTERNAL: a line ends with its newline. -/
theorem upToNewline_append {line : List Byte} (h : 10 ∉ line) (rest : List Byte) :
    File.upToNewline (line ++ 10 :: rest) = line ++ [10] := by
  induction line with
  | nil => simp [File.upToNewline]
  | cons b line ih =>
    simp only [List.mem_cons, not_or] at h
    simp [File.upToNewline, Ne.symm h.1, ih h.2]

/-- INTERNAL: `fgets` with room for a byte and the NUL. -/
theorem fgets_of_lt (fp : File) {size : ℕ} (h : 1 < size) :
    fp.fgets (size : ℤ) =
      (let line := File.upToNewline ((fp.contents.drop fp.pos).take (size - 1))
      (if line = [] then none else some line,
        { fp with
          pos := fp.pos + line.length
          eof := decide (line.length < size - 1 ∧ 10 ∉ line) || fp.eof })) := by
  rw [File.fgets, if_neg (by omega), if_neg (by omega), Int.toNat_natCast]

/-- INTERNAL: without that room `fgets` reads nothing. -/
theorem fgets_of_le_one (fp : File) {size : ℤ} (h : size ≤ 1) : (fp.fgets size).2 = fp := by
  rw [File.fgets]
  split_ifs
  · rfl
  · rfl
  · omega

/-- INTERNAL: `fgets` at the end of the file. -/
theorem fgets_end {fp : File} (h : fp.contents.drop fp.pos = []) {size : ℕ} (hsize : 1 < size) :
    fp.fgets (size : ℤ) = (none, { fp with eof := true }) := by
  simp [fgets_of_lt fp hsize, h, File.upToNewline, show 0 < size - 1 by omega]

/-! ## Chunks of lines -/

/-- INTERNAL: the pieces a sequence is read in by pieces of at most `n` bytes that end at a
newline, with what is already there of the first one. -/
def lineChunks (n : ℕ) : List Byte → List Byte → List (List Byte)
  | [], [] => []
  | cur, [] => [cur]
  | cur, b :: rest =>
      if b = 10 ∨ cur.length + 1 = n then (cur ++ [b]) :: lineChunks n [] rest
      else lineChunks n (cur ++ [b]) rest

/-- INTERNAL: a piece that ended at a newline or at the bound, and not at the end. -/
def WholeChunk (n : ℕ) (c : List Byte) : Prop := c.getLast? = some 10 ∨ c.length = n

/-- INTERNAL: it can be decided whether a chunk is whole. -/
instance (n : ℕ) (c : List Byte) : Decidable (WholeChunk n c) :=
  inferInstanceAs (Decidable (_ ∨ _))

section Chunks

variable {n : ℕ} {l : List Byte}

/-- INTERNAL: a line is a prefix of what is read. -/
theorem upToNewline_isPrefixOf (l : List Byte) : File.upToNewline l <+: l := by
  induction l with
  | nil => exact List.nil_prefix
  | cons b l ih =>
    rw [File.upToNewline]
    split_ifs
    · exact List.prefix_append [b] l
    · exact (List.cons_prefix_cons).mpr ⟨rfl, ih⟩

/-- INTERNAL: a piece without a newline is all there was. -/
theorem upToNewline_eq_self (h : 10 ∉ File.upToNewline l) : File.upToNewline l = l := by
  induction l with
  | nil => rfl
  | cons b l ih =>
    rw [File.upToNewline] at h ⊢
    split_ifs at h ⊢ with hb
    · simp [hb] at h
    · rw [ih fun hmem => h (List.mem_cons_of_mem _ hmem)]

/-- INTERNAL: a line has a newline only at its end. -/
theorem mem_upToNewline_iff (l : List Byte) :
    10 ∈ File.upToNewline l ↔ (File.upToNewline l).getLast? = some 10 := by
  refine ⟨fun h => ?_, List.mem_of_getLast?⟩
  induction l with
  | nil => cases h
  | cons b l ih =>
    rw [File.upToNewline] at h ⊢
    split_ifs at h ⊢ with hb
    · rw [hb]
      rfl
    · have hmem := (List.mem_cons.mp h).resolve_left (Ne.symm hb)
      rw [List.getLast?_cons, ih hmem]
      rfl

/-- INTERNAL: the pieces are the whole sequence. -/
theorem flatten_lineChunks (n : ℕ) (cur l : List Byte) : (lineChunks n cur l).flatten = cur ++ l := by
  induction l generalizing cur with
  | nil => cases cur <;> simp [lineChunks]
  | cons b rest ih =>
    rw [lineChunks]
    split_ifs
    · rw [List.flatten_cons, ih, List.append_assoc, List.singleton_append, List.nil_append]
    · rw [ih, List.append_assoc, List.singleton_append]

/-- INTERNAL: the first chunk, when some of it has been read already. -/
theorem lineChunks_append {cur : List Byte} (hl : l ≠ []) (hcur : cur.length < n) :
    lineChunks n cur l = (cur ++ File.upToNewline (l.take (n - cur.length))) ::
      lineChunks n [] (l.drop (File.upToNewline (l.take (n - cur.length))).length) := by
  induction l generalizing cur with
  | nil => exact absurd rfl hl
  | cons b rest ih =>
    obtain ⟨m, hm⟩ : ∃ m, n - cur.length = m + 1 := ⟨n - cur.length - 1, by omega⟩
    rw [hm, List.take_succ_cons, File.upToNewline, lineChunks]
    by_cases hb : b = 10
    · rw [if_pos (Or.inl hb), if_pos hb]
      rfl
    · rw [if_neg hb]
      by_cases hlast : cur.length + 1 = n
      · obtain rfl : m = 0 := by omega
        rw [if_pos (Or.inr hlast), List.take_zero, File.upToNewline]
        rfl
      · rw [if_neg (not_or.mpr ⟨hb, hlast⟩)]
        have hlen : (cur ++ [b]).length = cur.length + 1 := by simp
        rcases eq_or_ne rest [] with rfl | hrest
        · rw [List.take_nil, File.upToNewline]
          cases cur <;> rfl
        · rw [ih hrest (by omega), hlen, show n - (cur.length + 1) = m by omega, List.append_assoc]
          rfl

/-- INTERNAL: **the first piece** is what `fgets` delivers. -/
theorem lineChunks_eq_cons (hn : 0 < n) (hl : l ≠ []) :
    lineChunks n [] l = File.upToNewline (l.take n) ::
      lineChunks n [] (l.drop (File.upToNewline (l.take n)).length) :=
  lineChunks_append hl hn

/-- INTERNAL: a chunk is not empty unless there is nothing to read. -/
theorem upToNewline_take_ne_nil (hn : 0 < n) (hl : l ≠ []) : File.upToNewline (l.take n) ≠ [] := by
  obtain ⟨b, rest, rfl⟩ := List.exists_cons_of_ne_nil hl
  obtain ⟨m, rfl⟩ : ∃ m, n = m + 1 := ⟨n - 1, by omega⟩
  rw [List.take_succ_cons, File.upToNewline]
  split_ifs <;> exact List.cons_ne_nil _ _

/-- INTERNAL: a chunk is not longer than the bound. -/
theorem length_upToNewline_take_le (n : ℕ) (l : List Byte) :
    (File.upToNewline (l.take n)).length ≤ n :=
  (upToNewline_isPrefixOf _).length_le.trans (List.length_take_le n l)

/-- INTERNAL: no piece is longer than the bound. -/
theorem length_le_of_mem_lineChunks {cur c : List Byte} (hcur : cur.length < n)
    (hc : c ∈ lineChunks n cur l) : c.length ≤ n := by
  induction l generalizing cur with
  | nil =>
    cases cur with
    | nil => cases hc
    | cons b cur =>
      rw [List.mem_singleton.mp hc]
      exact hcur.le
  | cons b rest ih =>
    rw [lineChunks] at hc
    split_ifs at hc with hend
    · cases List.mem_cons.mp hc with
      | inl hc =>
        rw [hc, List.length_append, List.length_singleton]
        omega
      | inr hc => exact ih (by simp only [List.length_nil]; omega) hc
    · refine ih ?_ hc
      rw [List.length_append, List.length_singleton]
      omega

/-- INTERNAL: lines that fit are delivered one by one. -/
theorem lineChunks_lines {lines : List (List Byte)}
    (hline : ∀ r ∈ lines, ∃ line, r = line ++ [10] ∧ 10 ∉ line)
    (hlen : ∀ r ∈ lines, r.length ≤ n) : lineChunks n [] lines.flatten = lines := by
  induction lines with
  | nil => rfl
  | cons r lines ih =>
    obtain ⟨line, rfl, hno⟩ := hline r (List.mem_cons_self ..)
    have hfits := hlen _ (List.mem_cons_self ..)
    rw [List.length_append, List.length_singleton] at hfits
    obtain ⟨m, rfl⟩ : ∃ m, n = line.length + (m + 1) := ⟨n - line.length - 1, by omega⟩
    have hfirst : File.upToNewline (((line ++ [10]) :: lines).flatten.take (line.length + (m + 1))) =
        line ++ [10] := by
      rw [List.flatten_cons, List.append_assoc, List.take_length_add_append, List.singleton_append,
        List.take_succ_cons, upToNewline_append hno]
    rw [lineChunks_eq_cons (by omega) (by simp), hfirst, List.flatten_cons, List.drop_left,
      ih (fun r hr => hline r (List.mem_cons_of_mem _ hr)) fun r hr =>
        hlen r (List.mem_cons_of_mem _ hr)]

/-- INTERNAL: a smaller bound that no piece exceeds gives the same pieces. -/
theorem lineChunks_eq_of_le {m : ℕ} {cur : List Byte} (hmn : m ≤ n) (hcur : cur.length < m)
    (h : ∀ c ∈ lineChunks n cur l, c.length ≤ m) : lineChunks m cur l = lineChunks n cur l := by
  induction l generalizing cur with
  | nil => cases cur <;> rfl
  | cons b rest ih =>
    have hlen : (cur ++ [b]).length = cur.length + 1 := by simp
    rw [lineChunks] at h ⊢
    rw [lineChunks]
    by_cases hend : b = 10 ∨ cur.length + 1 = n
    · rw [if_pos hend] at h ⊢
      rw [if_pos (hend.imp_right fun hn => by omega),
        ih (by simp only [List.length_nil]; omega) fun c hc => h c (List.mem_cons_of_mem _ hc)]
    · rw [if_neg hend] at h ⊢
      obtain ⟨hb, hn⟩ := not_or.mp hend
      by_cases hm : cur.length + 1 = m
      · -- the piece would go on beyond the smaller bound
        rw [if_pos (Or.inr hm)]
        cases rest with
        | nil => cases cur <;> rfl
        | cons b' rest =>
          rw [lineChunks_append (List.cons_ne_nil _ _) (by omega)] at h
          have hlong := h _ (List.mem_cons_self ..)
          have hsome := List.length_pos_of_ne_nil (upToNewline_take_ne_nil
            (n := n - (cur ++ [b]).length) (by omega) (List.cons_ne_nil b' rest))
          rw [List.length_append] at hlong
          omega
      · rw [if_neg (not_or.mpr ⟨hb, hm⟩)]
        exact ih (by omega) h

/-- INTERNAL: only the last piece can be cut off. -/
theorem wholeChunk_of_mem_dropLast {cur c : List Byte} (hc : c ∈ (lineChunks n cur l).dropLast) :
    WholeChunk n c := by
  induction l generalizing cur with
  | nil => cases cur <;> cases hc
  | cons b rest ih =>
    rw [lineChunks] at hc
    split_ifs at hc with hend
    · have hfirst : WholeChunk n (cur ++ [b]) := by
        refine hend.imp (fun hb => ?_) fun hn => ?_
        · rw [List.getLast?_concat, hb]
        · rw [List.length_append, List.length_singleton, hn]
      cases hrest : lineChunks n [] rest with
      | nil =>
        rw [hrest] at hc
        cases hc
      | cons d ds =>
        rw [hrest, List.dropLast_cons_cons] at hc
        cases List.mem_cons.mp hc with
        | inl hc => exact hc ▸ hfirst
        | inr hc => exact ih (hrest ▸ hc)
    · exact ih hc

/-- INTERNAL: the end of the file is met exactly by a piece that is not whole, and it is the
last one. -/
theorem wholeChunk_iff (n : ℕ) (l : List Byte) :
    WholeChunk n (File.upToNewline (l.take n)) ↔
      ¬ ((File.upToNewline (l.take n)).length < n ∧ 10 ∉ File.upToNewline (l.take n)) := by
  have hle := length_upToNewline_take_le n l
  rw [WholeChunk, ← mem_upToNewline_iff]
  constructor
  · rintro (hmem | hlen) ⟨hlt, hno⟩
    · exact hno hmem
    · omega
  · intro h
    by_cases hmem : 10 ∈ File.upToNewline (l.take n)
    · exact Or.inl hmem
    · exact Or.inr (le_antisymm hle (not_lt.mp fun hlt => h ⟨hlt, hmem⟩))

/-- INTERNAL: a chunk that is not whole is the last one. -/
theorem drop_eq_nil_of_not_wholeChunk (h : ¬ WholeChunk n (File.upToNewline (l.take n))) :
    l.drop (File.upToNewline (l.take n)).length = [] := by
  rw [wholeChunk_iff, not_not] at h
  obtain ⟨hlt, hno⟩ := h
  rw [upToNewline_eq_self hno, List.length_take] at hlt ⊢
  exact List.drop_eq_nil_of_le (by omega)

end Chunks

/-- INTERNAL: the items `fread` counts are those there are, up to the number asked for. -/
theorem fread_count (fp : File) {size : ℕ} (count : ℕ) (hs : 0 < size) :
    (fp.fread size count).2.1 = min count (slotCount fp.contents size fp.pos) := by
  simp only [File.fread, slotCount, List.length_take, List.length_drop]
  rcases Nat.le_total (size * count) (fp.contents.length - fp.pos) with h | h
  · rw [min_eq_left h, Nat.mul_div_cancel_left _ hs, min_eq_left]
    rw [Nat.le_div_iff_mul_le hs, mul_comm]
    exact h
  · rw [min_eq_right h, min_eq_right]
    exact (Nat.div_le_div_right h).trans (Nat.mul_div_cancel_left _ hs).le

/-- INTERNAL: a request that fits a `size_t` is the one that was meant. -/
theorem freadWrapped_eq (fp : File) {size count : ℕ} (hs : 0 < size)
    (h : size * count < 2 ^ 64) : fp.freadWrapped size count = fp.fread size count := by
  have hrequest : toSizeT ((size : ℤ) * count) = size * count := by
    rw [← Nat.cast_mul, toSizeT_of_lt (Int.natCast_nonneg _) (by omega), Int.toNat_natCast]
  simp only [File.freadWrapped, File.fread, hrequest]
  split_ifs with hfull
  · rw [hfull.1, Nat.mul_div_cancel_left _ hs]
  · rfl

/-- INTERNAL: the `j`-th item of what `fread` stored is the `j`-th item of the file from
the position of the handle on. -/
theorem fread_slot (fp : File) {size count j : ℕ}
    (hj : j < count) : ((fp.fread size count).1.drop (j * size)).take size =
      slot fp.contents size fp.pos j := by
  simp only [File.fread, slot, List.drop_take, List.take_take, List.drop_drop]
  congr 1
  rw [min_eq_left]
  calc size = (j + 1) * size - j * size := by rw [Nat.succ_mul]; omega
    _ ≤ count * size - j * size := Nat.sub_le_sub_right (Nat.mul_le_mul_right _ hj) _
    _ = size * count - j * size := by rw [mul_comm]

/-- INTERNAL: `fread` stores at most the bytes asked for. -/
theorem length_fread_le (fp : File) (size count : ℕ) :
    (fp.fread size count).1.length ≤ size * count := by
  simp only [File.fread]
  exact List.length_take_le _ _

/-- INTERNAL: the bytes read from a file that is a sequence of items are complete items. -/
theorem length_fread_flatten {items : List (List Byte)} {size d : ℕ}
    (h : ∀ r ∈ items, r.length = size) {fp : File} (hfp : fp.contents = items.flatten)
    (hpos : fp.pos = d * size) (count : ℕ) :
    (fp.fread size count).1.length = size * min count (items.length - d) := by
  have hdrop : ∀ r ∈ items.drop d, r.length = size := fun r hr => h r (List.mem_of_mem_drop hr)
  have htake : ∀ r ∈ (items.drop d).take count, r.length = size := fun r hr =>
    hdrop r (List.mem_of_mem_take hr)
  simp only [File.fread]
  rw [hfp, hpos, drop_flatten_of_size h, take_flatten_of_size hdrop,
    length_flatten_of_size htake, List.length_take, List.length_drop]

/-- INTERNAL: moving the handle never changes the bytes of the file. -/
@[simp] theorem fseek_contents (fp : File) (off : ℤ) : (fp.fseek off).contents = fp.contents := by
  unfold File.fseek
  split_ifs <;> rfl

/-- INTERNAL: a seek to a position of a file goes there. -/
@[simp] theorem fseek_pos (fp : File) {off : ℤ} (h : 0 ≤ off) : (fp.fseek off).pos = off.toNat := by
  simp [File.fseek, h]

/-- INTERNAL: a seek in front of the file fails, and the position stays. -/
theorem fseek_of_neg (fp : File) {off : ℤ} (h : off < 0) : fp.fseek off = fp :=
  if_neg (not_le.mpr h)

/-- INTERNAL: after a seek to a position, only the bytes of the file matter: where the
handle stood before is forgotten. -/
theorem fseek_eq_of_contents_eq {fp fp' : File} (h : fp.contents = fp'.contents) {off : ℤ}
    (hoff : 0 ≤ off) : fp.fseek off = fp'.fseek off := by
  simp [File.fseek, hoff, h]

end ExternalSort.Lib
