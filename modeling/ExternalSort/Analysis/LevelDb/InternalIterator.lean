import ExternalSort.Analysis.LevelDb.MemTable
import ExternalSort.Analysis.LevelDb.MergingIterator
import ExternalSort.Analysis.LevelDb.TwoLevelIterator
import ExternalSort.Analysis.LevelDb.Version
import ExternalSort.Model.LevelDb.InternalIterator

/-!
# The iterator over everything stands for the cursor over all entries

Each part of a store is read as a list of entries: a memtable, a table of level 0, and the tables
of a sorted level one after the other.  If no version of a key comes twice, the iterator that
merges them stands for the cursor over all entries in order, and the iterator of the database
over it for the cursor over what is shown of them.
-/

set_option autoImplicit false

namespace ExternalSort.Analysis

open ExternalSort.Lib ExternalSort.Model

/-! ## Tables -/

/-- The entry of a pair that is held in a table. -/
def entryOf (p : List Byte × List Byte) : Entry :=
  match parseInternalKey p.1 with
  | none => ⟨[], 0, .deletion, []⟩
  | some k => ⟨k.userKey, k.sequence, k.type, p.2⟩

/-- INTERNAL: an entry is read back from its key and value. -/
theorem entryOf_pair {e : Entry} (h : e.sequence ≤ kMaxSequenceNumber) : entryOf e.pair = e := by
  rw [entryOf, show e.pair.1 = appendInternalKey e.parsed from rfl, parseInternalKey_append h]
  rfl

/-- The entries of a table. -/
def tableEntries (tables : Tables) (number : ℕ) : List Entry :=
  ((tables number).getD []).map entryOf

/-- A table holds entries in order, within the ends that are noted for it. -/
structure FileOk (tables : Tables) (f : FileMetaData) : Prop where
  bounds : FileBounds f
  number : f.number < 2 ^ 64
  content : tables f.number = some ((tableEntries tables f.number).map Entry.pair)
  ordered : Ordered (tableEntries tables f.number)
  fits : ∀ e ∈ tableEntries tables f.number, MemTable.EntryFits e
  within : ∀ e ∈ tableEntries tables f.number,
    internalRank f.smallest ≤ internalRank e.pair.1 ∧ internalRank e.pair.1 ≤ internalRank f.largest

/-- The tables of a level that can be read one after the other. -/
structure LevelOk (tables : Tables) (files : List FileMetaData) : Prop where
  file : ∀ f ∈ files, FileOk tables f
  apart : files.Pairwise fun f g => hi f < lo g

section Level

variable {tables : Tables} {files : List FileMetaData} {f : FileMetaData} {e : Entry} {fuel : ℕ}

/-- INTERNAL: a user key of a table lies within its range. -/
theorem FileOk.mem_range (h : FileOk tables f) (he : e ∈ tableEntries tables f.number) :
    lo f ≤ e.userKey ∧ e.userKey ≤ hi f := by
  have hkey : extractUserKey e.pair.1 = e.userKey := extractUserKey_append e.parsed
  obtain ⟨hlo, hhi⟩ := h.within e he
  exact ⟨hkey ▸ userKey_le_of_rank_le hlo, hkey ▸ userKey_le_of_rank_le hhi⟩

/-- INTERNAL: tables that can be read one after the other are sorted. -/
theorem LevelOk.sorted (h : LevelOk tables files) : SortedLevel files :=
  ⟨fun f hf => (h.file f hf).bounds, h.apart⟩

/-- The index of a level: largest keys, numbers and sizes. -/
def levelIndex (files : List FileMetaData) : List (List Byte × List Byte) :=
  files.map fun f => (f.largest, encodeFixed64 f.number ++ encodeFixed64 f.fileSize)

/-- Where an iterator over the tables of a level stands. -/
def IndexAt (files : List FileMetaData) (index : ℕ) (p : Option ℕ) : Prop :=
  p = clip (levelIndex files) index

/-- INTERNAL: **the iterator over the tables of a level stands for the cursor over its index.**
SRCLINE: leveldb-1.15.0/db/version_set.cc:168-216 -/
theorem levelFileNum_simulates (h : SortedLevel files) :
    Simulates UserKeyFits (LevelFileNumIterator.ops files)
      (cursorOps internalBefore (levelIndex files)) (IndexAt files) where
  current := by
    rintro index p rfl
    rw [current_clip, levelIndex, List.getElem?_map]
    rfl
  move := by
    rintro index p p' mv - rfl hmove
    have hlen : (levelIndex files).length = files.length := List.length_map ..
    cases mv with
    | seek target =>
      cases hmove
      refine ⟨_, rfl, ?_⟩
      rw [IndexAt, h.findFile_eq, seekIndex, levelIndex, List.findIdx_map]
      rfl
    | seekToFirst =>
      cases hmove
      exact ⟨_, rfl, rfl⟩
    | seekToLast =>
      cases hmove
      refine ⟨_, rfl, ?_⟩
      rw [IndexAt, hlen]
      cases files with
      | nil => rfl
      | cons f files => rfl
    | next =>
      obtain ⟨i, hi, rfl⟩ := Option.map_eq_some_iff.mp hmove
      obtain ⟨rfl, hlt⟩ := clip_eq_some hi
      exact ⟨i + 1, if_pos (hlen ▸ hlt), rfl⟩
    | prev =>
      obtain ⟨i, hi, rfl⟩ := Option.map_eq_some_iff.mp hmove
      obtain ⟨rfl, hlt⟩ := clip_eq_some hi
      refine ⟨_, if_pos (hlen ▸ hlt), ?_⟩
      rw [IndexAt]
      split_ifs
      · rw [clip_of_le hlen.le]
      · rfl

/-- The pairs of the table a handle names. -/
def handleData (tables : Tables) (handle : List Byte) : List (List Byte × List Byte) :=
  (tables (decodeFixed64 handle)).getD []

/-- Where an iterator over the table a handle names stands. -/
def FileAt (handle : List Byte) (it : FileIterator) (p : Option ℕ) : Prop :=
  it = .table (decodeFixed64 handle) p

/-- INTERNAL: an iterator over a table stands for the cursor over its pairs. -/
theorem file_simulates (tables : Tables) (number : ℕ) :
    Simulates UserKeyFits (FileIterator.ops tables)
      (cursorOps internalBefore ((tables number).getD [])) fun it p => it = .table number p where
  current := by
    rintro it p rfl
    rfl
  move := by
    rintro it p p' mv - rfl hmove
    refine ⟨.table number p', ?_, rfl⟩
    show ((FileIterator.cursor tables number).move mv p).map (FileIterator.table number) = _
    rw [show (FileIterator.cursor tables number).move mv p = some p' from hmove]
    rfl

/-- INTERNAL: the number of a table is read back from its handle. -/
theorem decode_handle (hf : f.number < 2 ^ 64) :
    decodeFixed64 (encodeFixed64 f.number ++ encodeFixed64 f.fileSize) = f.number :=
  decodeFixed64_append hf _

/-- INTERNAL: the index of a level and its tables. -/
theorem LevelOk.indexed (h : LevelOk tables files) :
    TwoLevelIterator.Indexed UserKeyFits (LevelFileNumIterator.ops files) FileIterator.getFileIterator
      (FileIterator.ops tables) internalBefore internalRank (IndexAt files) FileAt
      (handleData tables) (levelIndex files) where
  before_iff := internalKeyCompare_represents.lessBy_iff
  index := levelFileNum_simulates h.sorted
  block b _ := file_simulates tables (decodeFixed64 b.2)
  opened := by
    intro b hb
    obtain ⟨f, hf, rfl⟩ := List.mem_map.mp hb
    have hlen : (encodeFixed64 f.number ++ encodeFixed64 f.fileSize).length = 16 := by
      rw [List.length_append, length_encodeFixed64, length_encodeFixed64]
    rw [FileAt, FileIterator.getFileIterator, if_neg (not_not.mpr hlen)]
  le_separator := by
    intro b hb p hp
    obtain ⟨f, hf, rfl⟩ := List.mem_map.mp hb
    have hok := h.file f hf
    rw [handleData, decode_handle hok.number, hok.content] at hp
    obtain ⟨e, he, rfl⟩ := List.mem_map.mp hp
    exact (hok.within e he).2
  separator_lt := by
    rw [levelIndex, List.pairwise_map]
    apply h.apart.imp_of_mem
    intro f g hf hg hfg p hp
    have hok := h.file g hg
    rw [handleData, decode_handle hok.number, hok.content] at hp
    obtain ⟨e, he, rfl⟩ := List.mem_map.mp hp
    exact (Prod.Lex.toLex_lt_toLex.mpr (Or.inl hfg)).trans_le (hok.within e he).1

/-- The entries of the tables of a level, one table after the other. -/
def levelEntries (tables : Tables) (files : List FileMetaData) : List Entry :=
  files.flatMap fun f => tableEntries tables f.number

/-- INTERNAL: an entry of some tables is an entry of one of them. -/
theorem mem_levelEntries : e ∈ levelEntries tables files ↔
    ∃ f ∈ files, e ∈ tableEntries tables f.number := List.mem_flatMap

/-- INTERNAL: what the index of a level leads to are the entries of its tables. -/
theorem LevelOk.flat_eq (h : LevelOk tables files) :
    TwoLevelIterator.flat (handleData tables) (levelIndex files) =
      (levelEntries tables files).map Entry.pair := by
  rw [TwoLevelIterator.flat, levelIndex, List.flatMap_map, levelEntries, List.map_flatMap]
  apply List.flatMap_congr
  intro f hf
  have hok := h.file f hf
  rw [handleData, decode_handle hok.number, hok.content]
  rfl

/-- INTERNAL: the entries of a level are in order. -/
theorem LevelOk.ordered (h : LevelOk tables files) : Ordered (levelEntries tables files) := by
  constructor
  · rw [levelEntries, List.flatMap, List.pairwise_flatten]
    refine ⟨fun l hl => ?_, ?_⟩
    · obtain ⟨f, hf, rfl⟩ := List.mem_map.mp hl
      exact (h.file f hf).ordered.sorted
    · rw [List.pairwise_map]
      apply h.apart.imp_of_mem
      intro f g hf hg hfg a ha b hb
      left
      exact ((h.file f hf).mem_range ha).2.trans_lt (hfg.trans_le ((h.file g hg).mem_range hb).1)
  · intro e he
    obtain ⟨f, hf, he⟩ := mem_levelEntries.mp he
    exact (h.file f hf).ordered.sequence_le e he

end Level

/-! ## Memtables -/

/-- The entries of a memtable. -/
def memEntries (table : MemTable) : List Entry :=
  (SkipList.entries table).map fun q =>
    let key := MemTable.lengthPrefixedSlice q.1
    entryOf (key.1, (MemTable.lengthPrefixedSlice key.2).1)

/-- INTERNAL: the entries that a memtable holds are read from it. -/
theorem MemTable.Holds.eq_memEntries {table : MemTable} {es : List Entry}
    (h : MemTable.Holds table es) : es = memEntries table := by
  have hmap : memEntries table = ((SkipList.entries table).map Prod.fst).map fun b =>
      entryOf ((MemTable.lengthPrefixedSlice b).1,
        (MemTable.lengthPrefixedSlice (MemTable.lengthPrefixedSlice b).2).1) := by
    rw [List.map_map]
    rfl
  rw [hmap, h.keys, List.map_map]
  conv_lhs => rw [← List.map_id es]
  apply List.map_congr_left
  intro e he
  have hfits := h.fits e he
  have hvalue := MemTable.lengthPrefixedSlice_encode hfits.value []
  rw [List.append_nil] at hvalue
  simp only [Function.comp, MemTable.lengthPrefixedSlice_bytesOf hfits, hvalue]
  exact (entryOf_pair hfits.sequence).symm

/-! ## All parts together -/

section Parts

variable {tables : Tables} {fuel : ℕ}

/-- Where the iterator over a part of a store stands among the pairs of this part. -/
inductive ChildAt (tables : Tables) (fuel : ℕ) :
    List (List Byte × List Byte) → ChildIterator → Option ℕ → Prop
  | memTable {table : MemTable} {es : List Entry} {node p : Option ℕ} :
      MemTable.Holds table es → es.length + kMaxHeight ≤ fuel →
      SkipList.OnNode (SkipList.entries table) node p →
      ChildAt tables fuel (es.map Entry.pair) (.memTable table node) p
  | file {number : ℕ} {l : List (List Byte × List Byte)} {p : Option ℕ} :
      tables number = some l → ChildAt tables fuel l (.file (.table number p)) p
  | level {files : List FileMetaData} {it : TwoLevelIterator ℕ (List Byte) FileIterator}
      {p : Option ℕ} : LevelOk tables files → files.length + 1 < fuel →
      TwoLevelIterator.Stands (IndexAt files) FileAt (handleData tables) (levelIndex files) it p →
      ChildAt tables fuel ((levelEntries tables files).map Entry.pair) (.level files it) p

/-- INTERNAL: each part is read as the cursor over its pairs. -/
theorem child_simulates (tables : Tables) (fuel : ℕ) (l : List (List Byte × List Byte)) :
    Simulates UserKeyFits (ChildIterator.ops tables fuel) (cursorOps internalBefore l)
      (ChildAt tables fuel l) where
  current := by
    intro child p hs
    cases hs with
    | memTable h hfuel hnode => exact (h.iterator_simulates hfuel).current hnode
    | @file number l p hl =>
      have hfile := (file_simulates tables number).current (s := .table number p) rfl
      rw [hl] at hfile
      exact hfile
    | level h hfuel hit =>
      rw [← h.flat_eq]
      exact (TwoLevelIterator.twoLevel_simulates h.indexed
        (by rwa [levelIndex, List.length_map])).current hit
  move := by
    intro child p p' mv hok hs hmove
    cases hs with
    | memTable h hfuel hnode =>
      obtain ⟨node', hnode', hat⟩ := (h.iterator_simulates hfuel).move mv hok hnode hmove
      exact ⟨.memTable _ node', by simp [ChildIterator.ops, hnode'], .memTable h hfuel hat⟩
    | @file number l p hl =>
      have hcursor : (cursorOps internalBefore ((tables number).getD [])).move mv p = some p' := by
        rw [hl]
        exact hmove
      obtain ⟨it', hit', rfl⟩ :=
        (file_simulates tables number).move (s := .table number p) mv hok rfl hcursor
      exact ⟨.file (.table number p'), by simp [ChildIterator.ops, hit'], .file hl⟩
    | level h hfuel hit =>
      rw [← h.flat_eq] at hmove
      obtain ⟨it', hit', hat⟩ := (TwoLevelIterator.twoLevel_simulates h.indexed
        (by rwa [levelIndex, List.length_map])).move mv hok hit hmove
      refine ⟨.level _ it', ?_, .level h hfuel hat⟩
      show ((ChildIterator.levelOps tables fuel _).move mv _).map _ = _
      rw [ChildIterator.levelOps, hit']
      rfl

/-- The parts of a store. -/
inductive Part where
  | memTable (table : MemTable)
  | file (f : FileMetaData)
  | level (files : List FileMetaData)

/-- The entries of a part. -/
def Part.entries (tables : Tables) : Part → List Entry
  | .memTable table => memEntries table
  | .file f => tableEntries tables f.number
  | .level files => levelEntries tables files

/-- A part that can be read, with enough rounds. -/
def Part.Ok (tables : Tables) (fuel : ℕ) : Part → Prop
  | .memTable table =>
      MemTable.Holds table (memEntries table) ∧ (memEntries table).length + kMaxHeight ≤ fuel
  | .file f => FileOk tables f
  | .level files => LevelOk tables files ∧ files.length + 1 < fuel

/-- The iterator over a part. -/
def Part.child : Part → ChildIterator
  | .memTable table => .memTable table none
  | .file f => .newFile f
  | .level files => .newConcatenatingIterator files

/-- The parts of a store, as its iterator takes them. -/
def storeParts (mem : MemTable) (imm : Option MemTable) (v : Version) : List Part :=
  .memTable mem :: imm.toList.map .memTable ++ ((v.files 0).map .file ++
    ((List.range' 1 (kNumLevels - 1)).filter fun level => !(v.files level).isEmpty).map fun level =>
      .level (v.files level))

/-- INTERNAL: the iterator over a store merges its parts.
SRCLINE: leveldb-1.15.0/db/db_impl.cc:1035-1064 -/
theorem newInternalIterator_eq (mem : MemTable) (imm : Option MemTable) (v : Version) :
    newInternalIterator mem imm v =
      MergedIterator.newMergingIterator ((storeParts mem imm v).map Part.child) := by
  simp [newInternalIterator, Version.addIterators, storeParts, Part.child, Function.comp_def]

/-- Where an iterator that merges some parts stands among their entries. -/
def MergedAt (tables : Tables) (fuel : ℕ) (parts : List Part) (es : List Entry) :
    MergedIterator ChildIterator → Option ℕ → Prop :=
  Combined (ChildIterator.ops tables fuel) internalKeyCompare internalRank (ChildAt tables fuel)
    (parts.map fun part => (part.entries tables).map Entry.pair) (es.map Entry.pair)

variable {parts : List Part} {part : Part} {es : List Entry}

/-- INTERNAL: the entries of a part are in order. -/
theorem Part.Ok.ordered (h : part.Ok tables fuel) : Ordered (part.entries tables) := by
  cases part with
  | memTable table => exact h.1.ordered
  | file f => exact FileOk.ordered h
  | level files => exact h.1.ordered

/-- INTERNAL: the entries of a part can be stored. -/
theorem Part.Ok.fits (h : part.Ok tables fuel) {e : Entry} (he : e ∈ part.entries tables) :
    MemTable.EntryFits e := by
  cases part with
  | memTable table => exact h.1.fits e he
  | file f => exact FileOk.fits h e he
  | level files =>
    obtain ⟨f, hf, he⟩ := mem_levelEntries.mp he
    exact (h.1.file f hf).fits e he

/-- INTERNAL: a new iterator over a part stands nowhere. -/
theorem Part.Ok.child (h : part.Ok tables fuel) :
    ChildAt tables fuel ((part.entries tables).map Entry.pair) part.child none := by
  cases part with
  | memTable table => exact .memTable h.1 h.2 ⟨rfl, by simp⟩
  | file f => exact .file (FileOk.content h)
  | level files =>
    refine .level h.1 h.2 (.nowhere (p := none) ?_ rfl)
    rw [IndexAt, TwoLevelIterator.new, LevelFileNumIterator.new,
      clip_of_le (by rw [levelIndex, List.length_map])]

/-- INTERNAL: **an iterator that merges some parts stands for the cursor over their entries in
order**, if no version of a key comes twice.
SRCLINE: leveldb-1.15.0/db/db_impl.cc:1035-1064, leveldb-1.15.0/db/version_set.cc:1224-1255 -/
theorem parts_under (hparts : ∀ part ∈ parts, part.Ok tables fuel) (hes : Ordered es)
    (hperm : es.Perm (parts.flatMap (Part.entries tables))) :
    Under (internalOps tables fuel) es (MergedAt tables fuel parts es) := by
  refine ⟨merged_simulates ⟨internalKeyCompare_represents,
    fun l _ => child_simulates tables fuel l, ?_, ?_, hes.pairwise_rank, ?_⟩, hes⟩
  · intro p hp
    obtain ⟨e, he, rfl⟩ := List.mem_map.mp hp
    obtain ⟨part, hpart, he⟩ := List.mem_flatMap.mp (hperm.mem_iff.mp he)
    have hkey := ((hparts part hpart).fits he).key
    rw [UserKeyFits, show e.pair.1.length = e.userKey.length + 8 from length_appendInternalKey e.parsed]
    exact hkey
  · intro l hl
    obtain ⟨part, hpart, rfl⟩ := List.mem_map.mp hl
    exact (hparts part hpart).ordered.pairwise_rank
  · rw [← List.flatMap_def, ← List.map_flatMap]
    exact hperm.map Entry.pair

/-- INTERNAL: a new iterator over some parts stands nowhere. -/
theorem mergedAt_new (hparts : ∀ part ∈ parts, part.Ok tables fuel) (es : List Entry) :
    MergedAt tables fuel parts es
      (MergedIterator.newMergingIterator (parts.map Part.child)) none := by
  apply newMergingIterator_combined
  refine ⟨by simp, ?_⟩
  intro i s l hs hl
  rw [List.getElem?_map] at hs hl
  obtain ⟨part, hpart, rfl⟩ := Option.map_eq_some_iff.mp hs
  rw [hpart] at hl
  cases hl
  exact (hparts part (List.mem_of_getElem? hpart)).child

end Parts

/-! ## More tables -/

section Extend

variable {tables tables' : Tables} {files : List FileMetaData} {f : FileMetaData} {fuel : ℕ}

/-- The tables that are there stay as they are. -/
def Extends (tables tables' : Tables) : Prop := ∀ number l, tables number = some l → tables' number = some l

/-- INTERNAL: a table under a new number changes no other. -/
theorem extends_update {number : ℕ} (hnew : tables number = none)
    (l : List (List Byte × List Byte)) : Extends tables (Function.update tables number (some l)) := by
  intro n l' hl'
  rwa [Function.update_of_ne]
  rintro rfl
  rw [hnew] at hl'
  cases hl'

/-- INTERNAL: the entries of a table do not change when others are added. -/
theorem FileOk.tableEntries_eq (h : FileOk tables f) (hext : Extends tables tables') :
    tableEntries tables' f.number = tableEntries tables f.number := by
  rw [tableEntries, tableEntries, hext _ _ h.content, h.content]

/-- INTERNAL: a table stays as it is when others are added. -/
theorem FileOk.extend (h : FileOk tables f) (hext : Extends tables tables') : FileOk tables' f := by
  have heq := h.tableEntries_eq hext
  refine ⟨h.bounds, h.number, ?_, ?_, ?_, ?_⟩ <;> rw [heq]
  · exact hext _ _ h.content
  · exact h.ordered
  · exact h.fits
  · exact h.within

/-- INTERNAL: a level stays as it is when other tables are added. -/
theorem LevelOk.extend (h : LevelOk tables files) (hext : Extends tables tables') :
    LevelOk tables' files :=
  ⟨fun f hf => (h.file f hf).extend hext, h.apart⟩

/-- INTERNAL: the entries of a level do not change when other tables are added. -/
theorem LevelOk.levelEntries_eq (h : LevelOk tables files) (hext : Extends tables tables') :
    levelEntries tables' files = levelEntries tables files :=
  List.flatMap_congr fun f hf => (h.file f hf).tableEntries_eq hext

/-- INTERNAL: the entries of a part do not change when tables are added. -/
theorem Part.Ok.entries_eq {part : Part} (h : part.Ok tables fuel) (hext : Extends tables tables') :
    part.entries tables' = part.entries tables := by
  cases part with
  | memTable table => rfl
  | file f => exact FileOk.tableEntries_eq h hext
  | level files => exact LevelOk.levelEntries_eq h.1 hext

/-- INTERNAL: a part stays as it is when tables are added. -/
theorem Part.Ok.extend {part : Part} (h : part.Ok tables fuel) (hext : Extends tables tables') :
    part.Ok tables' fuel := by
  cases part with
  | memTable table => exact h
  | file f => exact FileOk.extend h hext
  | level files => exact ⟨LevelOk.extend h.1 hext, h.2⟩

/-- INTERNAL: the tables of an index do not change when others are added. -/
theorem LevelOk.handleData_eq (h : LevelOk tables files) (hext : Extends tables tables')
    {b : List Byte × List Byte} (hb : b ∈ levelIndex files) :
    handleData tables' b.2 = handleData tables b.2 := by
  obtain ⟨f, hf, rfl⟩ := List.mem_map.mp hb
  have hok := h.file f hf
  rw [handleData, handleData, decode_handle hok.number, hext _ _ hok.content, hok.content]

/-- INTERNAL: an iterator over a part stays where it is when tables are added. -/
theorem ChildAt.extend {l : List (List Byte × List Byte)} {child : ChildIterator} {p : Option ℕ}
    (h : ChildAt tables fuel l child p) (hext : Extends tables tables') :
    ChildAt tables' fuel l child p := by
  cases h with
  | memTable hholds hfuel hnode => exact .memTable hholds hfuel hnode
  | file hl => exact .file (hext _ _ hl)
  | level hok hfuel hit =>
    rw [← hok.levelEntries_eq hext]
    exact .level (hok.extend hext) hfuel (hit.congr fun b hb => hok.handleData_eq hext hb)

/-- INTERNAL: **an iterator over some parts stays where it is** when tables are added. -/
theorem MergedAt.extend {parts : List Part} {es : List Entry} {it : MergedIterator ChildIterator}
    {p : Option ℕ} (h : MergedAt tables fuel parts es it p) (hext : Extends tables tables')
    (hparts : ∀ part ∈ parts, part.Ok tables fuel) : MergedAt tables' fuel parts es it p := by
  have hentries : (parts.map fun part => (part.entries tables').map Entry.pair) =
      parts.map fun part => (part.entries tables).map Entry.pair := by
    apply List.map_congr_left
    intro part hpart
    rw [(hparts part hpart).entries_eq hext]
  rw [MergedAt, hentries]
  refine Combined.congr h fun l _ child q hchild => ?_
  have hchild' := hchild.extend hext
  refine ⟨hchild', ?_⟩
  rw [(child_simulates tables' fuel l).current hchild', (child_simulates tables fuel l).current hchild]

end Extend

end ExternalSort.Analysis
