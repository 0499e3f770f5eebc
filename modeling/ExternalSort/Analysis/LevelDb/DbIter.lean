import ExternalSort.Analysis.LevelDb.InternalKey
import ExternalSort.Model.LevelDb.DbIter

/-!
# The iterator of the database is a cursor over the newest versions

Of all versions of a key, `Shown` holds of the newest one that is not newer than the
iterator's sequence number, if it is a value; `listing` is what is shown of an ordered list of
versions.  The iterator of the database, over any iterator that stands for the cursor over the
versions, stands for the cursor over the listing, whatever moves are made in which order.

The loops are followed entry by entry.  Forward, `NextInv` says that the key to be skipped is
the only one whose newer versions may lie behind; backward, `PrevInv` says that the entry that
was copied last is the only one that may still have to be shown.
-/

set_option autoImplicit false

namespace ExternalSort.Analysis

open ExternalSort.Lib ExternalSort.Model

/-- The comparison of user keys, as a cursor asks for it. -/
def userBefore : List Byte → List Byte → Bool := lessBy sliceCompare

/-- The comparison of internal keys, as a cursor asks for it. -/
def internalBefore : List Byte → List Byte → Bool := lessBy internalKeyCompare

/-- The newest version of its key up to a sequence number, if it is a value. -/
def Shown (snap : ℕ) (es : List Entry) (e : Entry) : Prop :=
  e.type = .value ∧ e.sequence ≤ snap ∧
    ∀ e' ∈ es, e'.userKey = e.userKey → e'.sequence ≤ snap → e'.sequence ≤ e.sequence

/-- INTERNAL: it can be decided whether an entry is shown. -/
instance (snap : ℕ) (es : List Entry) (e : Entry) : Decidable (Shown snap es e) :=
  inferInstanceAs (Decidable (_ ∧ _ ∧ _))

/-- What is shown of some versions. -/
def shownEntries (snap : ℕ) (es : List Entry) : List Entry :=
  es.filter fun e => decide (Shown snap es e)

/-- What the users of the iterator see of some versions: keys and values. -/
def listing (snap : ℕ) (es : List Entry) : List (List Byte × List Byte) :=
  (shownEntries snap es).map fun e => (e.userKey, e.value)

/-! ## The order of the entries -/

section Order

variable {es : List Entry} {snap i j : ℕ} {a b e : Entry}

/-- INTERNAL: an entry in front comes first. -/
theorem Ordered.before (h : Ordered es) (ha : es[i]? = some a) (hb : es[j]? = some b)
    (hij : i < j) : a.Before b := by
  obtain ⟨hi, rfl⟩ := List.getElem?_eq_some_iff.mp ha
  obtain ⟨hj, rfl⟩ := List.getElem?_eq_some_iff.mp hb
  exact List.pairwise_iff_getElem.mp h.sorted i j hi hj hij

/-- INTERNAL: user keys do not descend. -/
theorem Ordered.userKey_le (h : Ordered es) (ha : es[i]? = some a) (hb : es[j]? = some b)
    (hij : i ≤ j) : a.userKey ≤ b.userKey := by
  rcases hij.eq_or_lt with rfl | hij
  · rw [ha] at hb
    exact (congrArg Entry.userKey (Option.some.inj hb)).le
  · exact (h.before ha hb hij).userKey_le

/-- INTERNAL: a newer version of a key stands before an older one. -/
theorem Ordered.lt_of_newer (h : Ordered es) (ha : es[i]? = some a) (hb : es[j]? = some b)
    (hkey : a.userKey = b.userKey) (hseq : b.sequence < a.sequence) : i < j := by
  by_contra hij
  rcases (not_lt.mp hij).eq_or_lt with rfl | hij
  · rw [ha] at hb
    cases hb
    exact absurd hseq (lt_irrefl _)
  · rcases h.before hb ha hij with hlt | ⟨-, hlt⟩
    · exact absurd hkey hlt.ne'
    · exact absurd hseq hlt.not_gt

/-- INTERNAL: the key of an entry is parsed. -/
theorem Ordered.parse (h : Ordered es) (he : es[i]? = some e) :
    parseInternalKey e.pair.1 = some e.parsed :=
  parseInternalKey_append (h.sequence_le e (List.mem_of_getElem? he))

/-- INTERNAL: an older version that could be seen is not shown. -/
theorem not_shown_of_newer (ha : es[i]? = some a) (hkey : a.userKey = b.userKey)
    (hsnap : a.sequence ≤ snap) (hseq : b.sequence < a.sequence) : ¬ Shown snap es b :=
  fun h => absurd (h.2.2 a (List.mem_of_getElem? ha) hkey hsnap) hseq.not_ge

/-- INTERNAL: one version of a key is shown at most. -/
theorem Ordered.eq_of_shown (h : Ordered es) (ha : es[i]? = some a) (hb : es[j]? = some b)
    (hsa : Shown snap es a) (hsb : Shown snap es b) (hkey : a.userKey = b.userKey) : i = j := by
  rcases lt_trichotomy i j with hij | hij | hij
  · rcases h.before ha hb hij with hlt | ⟨-, hlt⟩
    · exact absurd hkey hlt.ne
    · exact absurd hsb (not_shown_of_newer ha hkey hsa.2.1 hlt)
  · exact hij
  · rcases h.before hb ha hij with hlt | ⟨-, hlt⟩
    · exact absurd hkey hlt.ne'
    · exact absurd hsa (not_shown_of_newer hb hkey.symm hsb.2.1 hlt)

/-- INTERNAL: shown entries ascend strictly. -/
theorem Ordered.shown_lt (h : Ordered es) (ha : es[i]? = some a) (hb : es[j]? = some b)
    (hsa : Shown snap es a) (hsb : Shown snap es b) (hij : i < j) : a.userKey < b.userKey := by
  refine lt_of_le_of_ne (h.userKey_le ha hb hij.le) fun hkey => ?_
  exact absurd (h.eq_of_shown ha hb hsa hsb hkey) hij.ne

end Order

/-! ## The iterator below -/

/-- The keys whose length a table or memtable can hold. -/
def UserKeyFits (key : List Byte) : Prop := key.length < 2 ^ 32

/-- The iterator below stands for the cursor over some ordered entries. -/
structure Under {σ : Type} (m : IteratorOps σ (List Byte) (List Byte)) (es : List Entry)
    (R : σ → Option ℕ → Prop) : Prop where
  simulates : Simulates UserKeyFits m (cursorOps internalBefore (es.map Entry.pair)) R
  ordered : Ordered es

section DbIter

variable {σ : Type} {m : IteratorOps σ (List Byte) (List Byte)} {es : List Entry}
  {R : σ → Option ℕ → Prop} {snap : ℕ}

section Below

variable {s : σ} {i : ℕ} {e : Entry}

/-- INTERNAL: what the iterator below shows at an index. -/
theorem Under.current (h : Under m es R) (hR : R s (some i)) (he : es[i]? = some e) :
    m.current s = some e.pair := by
  rw [h.simulates.current hR]
  simp [cursorOps, he]

/-- INTERNAL: the iterator below shows nothing when it stands nowhere. -/
theorem Under.current_none (h : Under m es R) (hR : R s none) : m.current s = none :=
  h.simulates.current hR

/-- INTERNAL: an index, or the end. -/
theorem clip_pairs (es : List Entry) (i : ℕ) : (∃ e, es[i]? = some e ∧ clip (es.map Entry.pair) i = some i) ∨
    es.length ≤ i ∧ clip (es.map Entry.pair) i = none := by
  by_cases hi : i < es.length
  · exact Or.inl ⟨es[i], List.getElem?_eq_getElem hi, clip_of_lt (by rwa [List.length_map])⟩
  · exact Or.inr ⟨not_lt.mp hi, clip_of_le (by rw [List.length_map]; exact not_lt.mp hi)⟩

/-- INTERNAL: a move to an index, or to the end. -/
theorem Under.lands (h : Under m es R) (mv : Move (List Byte)) (hok : mv.Within UserKeyFits)
    {q : Option ℕ} (j : ℕ) (hR : R s q) (hmv : cursorMove internalBefore (es.map Entry.pair) mv q =
      some (clip (es.map Entry.pair) j)) :
    ∃ s', m.move mv s = some s' ∧
      ((∃ x, es[j]? = some x ∧ R s' (some j) ∧ m.current s' = some x.pair) ∨
        es.length ≤ j ∧ R s' none ∧ m.current s' = none) := by
  obtain ⟨s', hmove, hs'⟩ := h.simulates.move mv hok hR hmv
  refine ⟨s', hmove, ?_⟩
  rcases clip_pairs es j with ⟨x, hx, hclip⟩ | ⟨hle, hclip⟩
  · rw [hclip] at hs'
    exact Or.inl ⟨x, hx, hs', h.current hs' hx⟩
  · rw [hclip] at hs'
    exact Or.inr ⟨hle, hs', h.current_none hs'⟩

/-- INTERNAL: a step back to the entry before, or off the front. -/
theorem Under.lands_prev (h : Under m es R) (hR : R s (some i)) (he : es[i]? = some e) :
    ∃ s', m.move .prev s = some s' ∧
      ((∃ j x, i = j + 1 ∧ es[j]? = some x ∧ R s' (some j) ∧ m.current s' = some x.pair) ∨
        i = 0 ∧ R s' none ∧ m.current s' = none) := by
  cases i with
  | zero =>
    have hfront : (cursorOps internalBefore (es.map Entry.pair)).move .prev (some 0) = some none :=
      rfl
    obtain ⟨s', hmove, hs'⟩ := h.simulates.move .prev trivial hR hfront
    exact ⟨s', hmove, Or.inr ⟨rfl, hs', h.current_none hs'⟩⟩
  | succ j =>
    have hj : j < es.length := by
      obtain ⟨hlt, -⟩ := List.getElem?_eq_some_iff.mp he
      omega
    obtain ⟨s', hmove, hs'⟩ := h.lands .prev trivial j hR rfl
    rcases hs' with ⟨x, hx, hR', hcur⟩ | ⟨hle, -, -⟩
    · exact ⟨s', hmove, Or.inl ⟨j, x, rfl, hx, hR', hcur⟩⟩
    · omega

end Below

/-! ## Moving forward -/

/-- What the forward loop looks for: an entry that is shown, behind the key to be skipped. -/
def Wanted (snap : ℕ) (es : List Entry) (skipping : Bool) (skip : List Byte) (e : Entry) : Prop :=
  Shown snap es e ∧ (skipping = true → skip < e.userKey)

/-- From index `i` on nothing that can be seen lies before the key to be skipped, and this is
the only key with a version in front that can be seen. -/
structure NextInv (snap : ℕ) (es : List Entry) (i : ℕ) (skipping : Bool) (skip : List Byte) :
    Prop where
  skip_le : skipping = true → ∀ c x, i ≤ c → es[c]? = some x → x.sequence ≤ snap →
    skip ≤ x.userKey
  first : ∀ c x, i ≤ c → es[c]? = some x → x.sequence ≤ snap →
    ¬ (skipping = true ∧ x.userKey = skip) → ∀ c' y, c' < i → es[c']? = some y →
      y.userKey = x.userKey → ¬ y.sequence ≤ snap

/-- The forward loop ended at the first entry it looked for, or there is none. -/
def Landed (es : List Entry) (R : σ → Option ℕ → Prop) (W : Entry → Prop) (i : ℕ)
    (it : DbIter σ) : Prop :=
  (∃ c x, i ≤ c ∧ es[c]? = some x ∧ W x ∧
      (∀ c' y, i ≤ c' → c' < c → es[c']? = some y → ¬ W y) ∧ it.valid = true ∧
      R it.iter (some c)) ∨
    (∀ c y, i ≤ c → es[c]? = some y → ¬ W y) ∧ it.valid = false ∧ ∃ q, R it.iter q

section Forward

variable {it : DbIter σ} {i : ℕ} {e : Entry} {skipping : Bool}

/-- INTERNAL: an entry that is not looked for is passed. -/
theorem Landed.of_succ {W V : Entry → Prop} (he : es[i]? = some e) (hW : ¬ W e)
    (hiff : ∀ c x, i + 1 ≤ c → es[c]? = some x → (V x ↔ W x)) (h : Landed es R V (i + 1) it) :
    Landed es R W i it := by
  have hat : ∀ y, es[i]? = some y → ¬ W y := by
    intro y hy
    rw [he] at hy
    exact Option.some.inj hy ▸ hW
  rcases h with ⟨c, x, hic, hx, hWx, hnone, hrest⟩ | ⟨hnone, hrest⟩
  · refine Or.inl ⟨c, x, by omega, hx, (hiff c x hic hx).mp hWx, ?_, hrest⟩
    intro c' y hic' hlt hy
    rcases hic'.eq_or_lt with rfl | hic'
    · exact hat y hy
    · exact fun hWy => hnone c' y hic' hlt hy ((hiff c' y hic' hy).mpr hWy)
  · refine Or.inr ⟨?_, hrest⟩
    intro c y hic hy
    rcases hic.eq_or_lt with rfl | hic
    · exact hat y hy
    · exact fun hWy => hnone c y hic hy ((hiff c y hic hy).mpr hWy)

/-- INTERNAL: a round of the forward loop, with the key parsed.
SRCLINE: leveldb-1.15.0/db/db_iter.cc:177-200 -/
theorem nextRound_eq (h : Under m es R) (hR : R it.iter (some i)) (he : es[i]? = some e)
    (skipping : Bool) :
    DbIter.nextRound m (it, skipping) =
      if e.sequence ≤ it.sequence then
        match e.type with
        | .deletion => { it with savedKey := e.userKey }.stepForward m true
        | .value =>
            if skipping = true ∧ e.userKey ≤ it.savedKey then it.stepForward m skipping
            else some (.inr { it with savedKey := [], valid := true })
      else it.stepForward m skipping := by
  have hle := sliceCompare_represents.nonpos_iff e.userKey it.savedKey
  rw [id, id] at hle
  simp only [DbIter.nextRound, h.current hR he, Entry.pair, DbIter.parseKey]
  rw [show appendInternalKey e.parsed = e.pair.1 from rfl, h.ordered.parse he]
  cases htype : e.type <;> simp only [Entry.parsed, htype, hle]

/-- INTERNAL: a step of the forward loop reaches the next entry, or the end. -/
theorem stepForward_spec (h : Under m es R) (hR : R it.iter (some i)) (skipping : Bool) :
    ∃ iter,
      (∃ x, es[i + 1]? = some x ∧ R iter (some (i + 1)) ∧
        it.stepForward m skipping = some (.inl ({ it with iter := iter }, skipping))) ∨
      es.length ≤ i + 1 ∧ R iter none ∧ it.stepForward m skipping =
        some (.inr { it with iter := iter, savedKey := [], valid := false }) := by
  obtain ⟨iter, hmove, hland⟩ := h.lands .next trivial (i + 1) hR rfl
  refine ⟨iter, ?_⟩
  rcases hland with ⟨x, hx, hR', hcur⟩ | ⟨hle, hR', hcur⟩
  · left
    refine ⟨x, hx, hR', ?_⟩
    rw [DbIter.stepForward, hmove, Option.map_some, hcur]
  · right
    refine ⟨hle, hR', ?_⟩
    rw [DbIter.stepForward, hmove, Option.map_some, hcur]

/-- INTERNAL: an entry is passed that cannot be seen or has the key to be skipped. -/
theorem NextInv.pass (h : NextInv snap es i skipping it.savedKey) (he : es[i]? = some e)
    (hpass : e.sequence ≤ snap → skipping = true ∧ e.userKey = it.savedKey) :
    NextInv snap es (i + 1) skipping it.savedKey where
  skip_le hs c x hic := h.skip_le hs c x (by omega)
  first c x hic hx hsnap hother c' y hlt hy hkey := by
    rcases Nat.lt_succ_iff_lt_or_eq.mp hlt with hlt | rfl
    · exact h.first c x (by omega) hx hsnap hother c' y hlt hy hkey
    · rw [he] at hy
      cases hy
      intro hsee
      obtain ⟨hs, heq⟩ := hpass hsee
      exact hother ⟨hs, hkey.symm.trans heq⟩

/-- INTERNAL: at an entry or right behind it, its key is the one to be skipped. -/
theorem NextInv.skip (h : Under m es R) (he : es[i]? = some e) {lo : ℕ} (hlo : i ≤ lo)
    (hlo' : lo ≤ i + 1) : NextInv snap es lo true e.userKey where
  skip_le _ c x hic hx _ := h.ordered.userKey_le he hx (by omega)
  first c x hic hx _ hother c' y hlt hy hkey _ := by
    have hye := h.ordered.userKey_le hy he (by omega)
    have hex := h.ordered.userKey_le he hx (by omega)
    exact hother ⟨rfl, le_antisymm (hkey ▸ hye) hex⟩

/-- INTERNAL: a value that can be seen and is not to be skipped is what the loop looks for. -/
theorem NextInv.shown (h : Under m es R) (hinv : NextInv snap es i skipping it.savedKey)
    (he : es[i]? = some e) (htype : e.type = .value) (hsnap : e.sequence ≤ snap)
    (hnot : ¬ (skipping = true ∧ e.userKey ≤ it.savedKey)) :
    Wanted snap es skipping it.savedKey e := by
  refine ⟨⟨htype, hsnap, ?_⟩, fun hs => not_le.mp fun hle => hnot ⟨hs, hle⟩⟩
  intro y hy hkey hsee
  obtain ⟨c, hc⟩ := List.mem_iff_getElem?.mp hy
  by_contra hlt
  have hci := h.ordered.lt_of_newer hc he hkey (not_le.mp hlt)
  exact hinv.first i e le_rfl he hsnap (fun hs => hnot ⟨hs.1, hs.2.le⟩) c y hci hc hkey hsee

/-- INTERNAL: **the forward loop** ends at the first entry it looks for.  The induction is on
how many entries are left.
SRCLINE: leveldb-1.15.0/db/db_iter.cc:173-203 -/
theorem findNextUserEntry_spec (h : Under m es R) (it : DbIter σ) {left fuel : ℕ} (hleft : es.length ≤ i + left)
    (hfuel : left < fuel) (hR : R it.iter (some i)) (he : es[i]? = some e)
    (hseq : it.sequence = snap) (hinv : NextInv snap es i skipping it.savedKey) :
    ∃ it', it.findNextUserEntry m fuel skipping = some it' ∧ it'.sequence = snap ∧
      it'.direction = it.direction ∧
      Landed es R (Wanted snap es skipping it.savedKey) i it' := by
  have hi : i < es.length := (List.getElem?_eq_some_iff.mp he).1
  induction left generalizing i it skipping fuel e with
  | zero => omega
  | succ left ih =>
    obtain ⟨fuel, rfl⟩ : ∃ f, fuel = f + 1 := ⟨fuel - 1, by omega⟩
    -- a round that steps on, with what it looks for unchanged behind this entry
    have onward : ∀ (it₁ : DbIter σ) (sk : Bool), it₁.iter = it.iter → it₁.sequence = snap →
        it₁.direction = it.direction →
        DbIter.nextRound m (it, skipping) = it₁.stepForward m sk →
        NextInv snap es (i + 1) sk it₁.savedKey →
        ¬ Wanted snap es skipping it.savedKey e →
        (∀ c x, i + 1 ≤ c → es[c]? = some x →
          (Wanted snap es sk it₁.savedKey x ↔ Wanted snap es skipping it.savedKey x)) →
        ∃ it', it.findNextUserEntry m (fuel + 1) skipping = some it' ∧ it'.sequence = snap ∧
          it'.direction = it.direction ∧
          Landed es R (Wanted snap es skipping it.savedKey) i it' := by
      intro it₁ sk hiter hseq₁ hdir hround hinv₁ hnot hiff
      have hR₁ : R it₁.iter (some i) := hiter ▸ hR
      obtain ⟨iter, hstep⟩ := stepForward_spec h hR₁ sk
      rcases hstep with ⟨x, hx, hR', hstep⟩ | ⟨hle, hR', hstep⟩
      · have hR₂ : R ({ it₁ with iter := iter } : DbIter σ).iter (some (i + 1)) := hR'
        obtain ⟨it', hfind, hseq', hdir', hland⟩ := ih { it₁ with iter := iter } (by omega)
          (show left < fuel by omega) hR₂ hx hseq₁ hinv₁ (List.getElem?_eq_some_iff.mp hx).1
        refine ⟨it', ?_, hseq', hdir'.trans hdir, hland.of_succ he hnot hiff⟩
        rw [DbIter.findNextUserEntry, loop_succ_inl (hround.trans hstep)]
        exact hfind
      · refine ⟨_, loop_succ_inr (hround.trans hstep) fuel, hseq₁, hdir, ?_⟩
        refine Landed.of_succ (V := Wanted snap es sk it₁.savedKey) he hnot hiff ?_
        refine Or.inr ⟨?_, rfl, none, hR'⟩
        intro c y hic hy
        have hlt := (List.getElem?_eq_some_iff.mp hy).1
        omega
    have hround := nextRound_eq h hR he skipping
    by_cases hsnap : e.sequence ≤ snap
    · rw [if_pos (hseq.symm ▸ hsnap)] at hround
      cases htype : e.type with
      | deletion =>
        rw [htype] at hround
        refine onward { it with savedKey := e.userKey } true rfl hseq rfl hround
          (NextInv.skip h he (Nat.le_succ i) le_rfl) (fun hW => ?_) ?_
        · rw [hW.1.1] at htype
          cases htype
        · -- a key equal to the deleted one is hidden by the deletion
          intro c x hic hx
          have hex := h.ordered.userKey_le he hx (by omega)
          constructor
          · rintro ⟨hshown, hlt⟩
            refine ⟨hshown, fun hs => lt_of_le_of_lt ?_ (hlt rfl)⟩
            exact hinv.skip_le hs i e le_rfl he hsnap
          · rintro ⟨hshown, -⟩
            refine ⟨hshown, fun _ => lt_of_le_of_ne hex fun hkey => ?_⟩
            rcases h.ordered.before he hx (by omega) with hlt | ⟨-, hlt⟩
            · exact absurd hkey hlt.ne
            · exact not_shown_of_newer he hkey hsnap hlt hshown
      | value =>
        simp only [htype] at hround
        by_cases hhide : skipping = true ∧ e.userKey ≤ it.savedKey
        · rw [if_pos hhide] at hround
          have hkey : e.userKey = it.savedKey :=
            le_antisymm hhide.2 (hinv.skip_le hhide.1 i e le_rfl he hsnap)
          exact onward it skipping rfl hseq rfl hround (hinv.pass he fun _ => ⟨hhide.1, hkey⟩)
            (fun hW => absurd (hW.2 hhide.1) hhide.2.not_gt) fun _ _ _ _ => Iff.rfl
        · rw [if_neg hhide] at hround
          refine ⟨_, loop_succ_inr hround fuel, hseq, rfl, Or.inl ⟨i, e, le_rfl, he,
            NextInv.shown h hinv he htype hsnap hhide, ?_, rfl, hR⟩⟩
          intro c' y hic' hlt
          omega
    · rw [if_neg (hseq.symm ▸ hsnap)] at hround
      exact onward it skipping rfl hseq rfl hround (hinv.pass he fun hsee => absurd hsee hsnap)
        (fun hW => hsnap hW.1.2.1) fun _ _ _ _ => Iff.rfl

end Forward

/-! ## Moving backward -/

/-- The iterator below is before all versions of a key: no version of a smaller key that can be
seen lies between. -/
structure Behind (snap : ℕ) (es : List Entry) (R : σ → Option ℕ → Prop) (s : σ) (key : List Byte)
    (q : Option ℕ) : Prop where
  below : R s q
  key_lt : ∀ c, q = some c → ∃ x, es[c]? = some x ∧ x.userKey < key
  hidden : ∀ c x, (∀ c', q = some c' → c' < c) → es[c]? = some x → x.userKey < key →
    ¬ x.sequence ≤ snap

/-- The backward loop has passed the entries from `lo` to `q`: none of them is shown, or the one
copied last is the only one that may be. -/
def PrevInv (snap : ℕ) (es : List Entry) (lo q : ℕ) (it : DbIter σ) : ValueType → Prop
  | .deletion => ∀ c x, lo ≤ c → c ≤ q → es[c]? = some x → ¬ Shown snap es x
  | .value => ∃ c x, lo ≤ c ∧ c ≤ q ∧ es[c]? = some x ∧ x.type = .value ∧ x.sequence ≤ snap ∧
      it.savedKey = x.userKey ∧ it.savedValue = x.value ∧
      (∀ c' y, c < c' → c' ≤ q → es[c']? = some y → ¬ Shown snap es y) ∧
      ∀ c' y, lo ≤ c' → c' < c → es[c']? = some y → ¬ y.sequence ≤ snap

/-- The backward loop ended with the last entry that is shown, or there is none. -/
def PrevLanded (snap : ℕ) (es : List Entry) (R : σ → Option ℕ → Prop) (q : ℕ) (it : DbIter σ) :
    Prop :=
  (∃ c x, c ≤ q ∧ es[c]? = some x ∧ Shown snap es x ∧
      (∀ c' y, c < c' → c' ≤ q → es[c']? = some y → ¬ Shown snap es y) ∧ it.valid = true ∧
      it.direction = .reverse ∧ it.savedKey = x.userKey ∧ it.savedValue = x.value ∧
      ∃ p, Behind snap es R it.iter x.userKey p) ∨
    (∀ c y, c ≤ q → es[c]? = some y → ¬ Shown snap es y) ∧ it.valid = false ∧ ∃ p, R it.iter p

section Backward

variable {it : DbIter σ} {i q lo : ℕ} {e : Entry} {valueType : ValueType}

/-- INTERNAL: a round of the backward loop, with the key parsed.
SRCLINE: leveldb-1.15.0/db/db_iter.cc:237-260 -/
theorem prevRound_eq (h : Under m es R) (hR : R it.iter (some i)) (he : es[i]? = some e)
    (valueType : ValueType) :
    DbIter.prevRound m (it, valueType) =
      if e.sequence ≤ it.sequence then
        if valueType ≠ .deletion ∧ e.userKey < it.savedKey then
          some (.inr (it.prevDone valueType))
        else
          match e.type with
          | .deletion => { it with savedKey := [], savedValue := [] }.stepBackward m .deletion
          | .value =>
              { it with savedKey := e.userKey, savedValue := e.value }.stepBackward m .value
      else it.stepBackward m valueType := by
  have hlt := sliceCompare_represents.neg_iff e.userKey it.savedKey
  rw [id, id] at hlt
  simp only [DbIter.prevRound, h.current hR he, Entry.pair, DbIter.parseKey]
  rw [show appendInternalKey e.parsed = e.pair.1 from rfl, h.ordered.parse he]
  simp only [Entry.pair, extractUserKey_append]
  cases htype : e.type <;> simp only [Entry.parsed, htype, hlt]

/-- INTERNAL: a step of the backward loop reaches the entry before, or the front. -/
theorem stepBackward_spec (h : Under m es R) (hR : R it.iter (some i)) (he : es[i]? = some e)
    (valueType : ValueType) :
    ∃ iter,
      (∃ j x, i = j + 1 ∧ es[j]? = some x ∧ R iter (some j) ∧
        it.stepBackward m valueType = some (.inl ({ it with iter := iter }, valueType))) ∨
      i = 0 ∧ R iter none ∧
        it.stepBackward m valueType = some (.inr ({ it with iter := iter }.prevDone valueType)) := by
  obtain ⟨iter, hmove, hland⟩ := h.lands_prev hR he
  refine ⟨iter, ?_⟩
  rcases hland with ⟨j, x, hij, hx, hR', hcur⟩ | ⟨hi, hR', hcur⟩
  · left
    refine ⟨j, x, hij, hx, hR', ?_⟩
    rw [DbIter.stepBackward, hmove, Option.map_some, hcur]
  · right
    refine ⟨hi, hR', ?_⟩
    rw [DbIter.stepBackward, hmove, Option.map_some, hcur]

/-- INTERNAL: the entry copied last is shown if nothing in front has its key. -/
theorem prevDone_value (h : Under m es R) {p : Option ℕ} (hR : R it.iter p)
    (hlo : ∀ c, c < lo ↔ ∃ c', p = some c' ∧ c ≤ c')
    (hfront : ∀ c, p = some c → ∃ x, es[c]? = some x ∧ x.userKey < it.savedKey)
    (hdir : it.direction = .reverse) (hinv : PrevInv snap es lo q it .value) :
    PrevLanded snap es R q (it.prevDone .value) := by
  obtain ⟨c, x, hloc, hcq, hx, htype, hsnap, hkey, hvalue, hnone, hunseen⟩ := hinv
  have hsmall : ∀ c' y, c' < lo → es[c']? = some y → y.userKey < x.userKey := by
    intro c' y hlt hy
    obtain ⟨d, hd, hcd⟩ := (hlo c').mp hlt
    obtain ⟨z, hz, hzkey⟩ := hfront d hd
    exact lt_of_le_of_lt (h.ordered.userKey_le hy hz hcd) (hkey ▸ hzkey)
  have hshown : Shown snap es x := by
    refine ⟨htype, hsnap, ?_⟩
    intro y hy hykey hysnap
    obtain ⟨c', hc'⟩ := List.mem_iff_getElem?.mp hy
    by_contra hlt
    have hcc := h.ordered.lt_of_newer hc' hx hykey (not_le.mp hlt)
    by_cases hc'lo : c' < lo
    · exact absurd hykey (hsmall c' y hc'lo hc').ne
    · exact hunseen c' y (not_lt.mp hc'lo) hcc hc' hysnap
  refine Or.inl ⟨c, x, hcq, hx, hshown, hnone, rfl, hdir, hkey, hvalue, p, hR, hkey ▸ hfront, ?_⟩
  intro d y hd hy hylt
  by_cases hdc : d < c
  · refine hunseen d y (not_lt.mp fun hlt => ?_) hdc hy
    obtain ⟨c', hc', hle⟩ := (hlo d).mp hlt
    exact absurd (hd c' hc') hle.not_gt
  · exact absurd hylt (h.ordered.userKey_le hx hy (not_lt.mp hdc)).not_gt

/-- INTERNAL: an entry that does not end the loop hides what was copied, if it can be seen. -/
theorem PrevInv.hide (h : Under m es R) (he : es[i]? = some e) (hsnap : e.sequence ≤ snap)
    (hgo : ¬ (valueType ≠ .deletion ∧ e.userKey < it.savedKey))
    (hinv : PrevInv snap es (i + 1) q it valueType) :
    ∀ c x, i + 1 ≤ c → c ≤ q → es[c]? = some x → ¬ Shown snap es x := by
  cases valueType with
  | deletion => exact hinv
  | value =>
    obtain ⟨c₀, x₀, hic, hcq, hx₀, htype, hsnap₀, hkey, hvalue, hnone, hunseen⟩ := hinv
    intro c x hc hq hx hshown
    rcases lt_trichotomy c c₀ with hlt | rfl | hgt
    · exact hunseen c x hc hlt hx hshown.2.1
    · rw [hx₀] at hx
      cases hx
      have hle : ¬ e.userKey < x₀.userKey := fun hlt => hgo ⟨by decide, hkey ▸ hlt⟩
      rcases h.ordered.before he hx₀ (by omega) with hlt | ⟨heq, hlt⟩
      · exact hle hlt
      · exact not_shown_of_newer he heq hsnap hlt hshown
    · exact hnone c x hgt hq hx hshown

/-- INTERNAL: an entry that cannot be seen changes nothing. -/
theorem PrevInv.pass (he : es[i]? = some e) (hsnap : ¬ e.sequence ≤ snap)
    (hinv : PrevInv snap es (i + 1) q it valueType) : PrevInv snap es i q it valueType := by
  have hat : ∀ x, es[i]? = some x → ¬ x.sequence ≤ snap := by
    intro x hx
    rw [he] at hx
    exact Option.some.inj hx ▸ hsnap
  cases valueType with
  | deletion =>
    intro c x hic hcq hx hshown
    rcases hic.eq_or_lt with rfl | hic
    · exact hat x hx hshown.2.1
    · exact hinv c x hic hcq hx hshown
  | value =>
    obtain ⟨c, x, hic, hcq, hx, htype, hsnap', hkey, hvalue, hnone, hunseen⟩ := hinv
    refine ⟨c, x, by omega, hcq, hx, htype, hsnap', hkey, hvalue, hnone, ?_⟩
    intro c' y hic' hlt hy
    rcases hic'.eq_or_lt with rfl | hic'
    · exact hat y hy
    · exact hunseen c' y hic' hlt hy

/-- INTERNAL: a round of the backward loop steps back, or ends with what was copied. -/
theorem prevRound_cases (h : Under m es R) (hR : R it.iter (some i)) (he : es[i]? = some e)
    (hiq : i ≤ q) (hseq : it.sequence = snap) (hdir : it.direction = .reverse)
    (hinv : PrevInv snap es (i + 1) q it valueType) :
    (∃ it₁ vt, it₁.iter = it.iter ∧ it₁.sequence = snap ∧ it₁.direction = .reverse ∧
        DbIter.prevRound m (it, valueType) = it₁.stepBackward m vt ∧ PrevInv snap es i q it₁ vt) ∨
      DbIter.prevRound m (it, valueType) = some (.inr (it.prevDone .value)) ∧
        PrevLanded snap es R q (it.prevDone .value) := by
  have hround := prevRound_eq h hR he valueType
  by_cases hsnap : e.sequence ≤ snap
  · rw [if_pos (hseq.symm ▸ hsnap)] at hround
    by_cases hstop : valueType ≠ .deletion ∧ e.userKey < it.savedKey
    · right
      rw [if_pos hstop] at hround
      obtain rfl : valueType = .value := by
        cases valueType with
        | deletion => exact absurd rfl hstop.1
        | value => rfl
      refine ⟨hround, prevDone_value h hR ?_ ?_ hdir hinv⟩
      · intro c
        rw [Nat.lt_succ_iff]
        exact ⟨fun hc => ⟨i, rfl, hc⟩, fun ⟨c', hc', hle⟩ => Option.some.inj hc' ▸ hle⟩
      · intro c hc
        exact Option.some.inj hc ▸ ⟨e, he, hstop.2⟩
    · left
      rw [if_neg hstop] at hround
      have hhide := hinv.hide h he hsnap hstop
      cases htype : e.type with
      | deletion =>
        rw [htype] at hround
        refine ⟨{ it with savedKey := [], savedValue := [] }, .deletion, rfl, hseq, hdir, hround, ?_⟩
        intro c x hic hcq hx hshown
        rcases hic.eq_or_lt with rfl | hic
        · rw [he] at hx
          cases hx
          rw [hshown.1] at htype
          cases htype
        · exact hhide c x hic hcq hx hshown
      | value =>
        rw [htype] at hround
        refine ⟨{ it with savedKey := e.userKey, savedValue := e.value }, .value, rfl, hseq, hdir,
          hround, i, e, le_rfl, hiq, he, htype, hsnap, rfl, rfl, fun c' y hlt => hhide c' y hlt, ?_⟩
        intro c' y hic hlt
        omega
  · left
    rw [if_neg (hseq.symm ▸ hsnap)] at hround
    exact ⟨it, valueType, rfl, hseq, hdir, hround, hinv.pass he hsnap⟩

/-- INTERNAL: **the backward loop** ends with the last entry that is shown.  The induction is
on the index.
SRCLINE: leveldb-1.15.0/db/db_iter.cc:237-271 -/
theorem prevLoop_spec (h : Under m es R) {fuel : ℕ} (hfuel : i < fuel) (hR : R it.iter (some i))
    (he : es[i]? = some e) (hiq : i ≤ q) (hseq : it.sequence = snap)
    (hdir : it.direction = .reverse) (hinv : PrevInv snap es (i + 1) q it valueType) :
    ∃ it', loop (DbIter.prevRound m) fuel (it, valueType) = some it' ∧ it'.sequence = snap ∧
      PrevLanded snap es R q it' := by
  induction i generalizing it valueType fuel e with
  | zero =>
    obtain ⟨fuel, rfl⟩ : ∃ f, fuel = f + 1 := ⟨fuel - 1, by omega⟩
    rcases prevRound_cases h hR he hiq hseq hdir hinv with
      ⟨it₁, vt, hiter, hseq₁, hdir₁, hround, hinv₁⟩ | ⟨hround, hland⟩
    · obtain ⟨iter, hstep⟩ := stepBackward_spec h (hiter ▸ hR : R it₁.iter (some 0)) he vt
      rcases hstep with ⟨j, x, hij, -⟩ | ⟨-, hR', hstep⟩
      · omega
      · refine ⟨_, loop_succ_inr (hround.trans hstep) fuel, ?_, ?_⟩
        · cases vt <;> exact hseq₁
        · cases vt with
          | deletion =>
            exact Or.inr ⟨fun c y hcq hy => hinv₁ c y (Nat.zero_le c) hcq hy, rfl, none, hR'⟩
          | value => exact prevDone_value h hR' (by simp) (by simp) hdir₁ hinv₁
    · exact ⟨_, loop_succ_inr hround fuel, hseq, hland⟩
  | succ i ih =>
    obtain ⟨fuel, rfl⟩ : ∃ f, fuel = f + 1 := ⟨fuel - 1, by omega⟩
    rcases prevRound_cases h hR he hiq hseq hdir hinv with
      ⟨it₁, vt, hiter, hseq₁, hdir₁, hround, hinv₁⟩ | ⟨hround, hland⟩
    · obtain ⟨iter, hstep⟩ := stepBackward_spec h (hiter ▸ hR : R it₁.iter (some (i + 1))) he vt
      rcases hstep with ⟨j, x, hij, hx, hR', hstep⟩ | ⟨hzero, -⟩
      · obtain rfl : i = j := by omega
        have hR₂ : R ({ it₁ with iter := iter } : DbIter σ).iter (some i) := hR'
        have hinv₂ : PrevInv snap es (i + 1) q { it₁ with iter := iter } vt := by
          cases vt <;> exact hinv₁
        obtain ⟨it', hloop, hrest⟩ := ih (show i < fuel by omega) hR₂ hx (by omega) hseq₁ hdir₁ hinv₂
        refine ⟨it', ?_, hrest⟩
        rw [loop_succ_inl (hround.trans hstep)]
        exact hloop
      · omega
    · exact ⟨_, loop_succ_inr hround fuel, hseq, hland⟩

/-- INTERNAL: **a search backward** from an entry.
SRCLINE: leveldb-1.15.0/db/db_iter.cc:232-272 -/
theorem findPrevUserEntry_spec (h : Under m es R) {fuel : ℕ} (hfuel : q < fuel)
    (hR : R it.iter (some q)) (he : es[q]? = some e) (hseq : it.sequence = snap)
    (hdir : it.direction = .reverse) :
    ∃ it', it.findPrevUserEntry m fuel = some it' ∧ it'.sequence = snap ∧
      PrevLanded snap es R q it' := by
  rw [DbIter.findPrevUserEntry, h.current hR he]
  have hinv : PrevInv snap es (q + 1) q it .deletion := by
    intro c x hlo hcq
    omega
  exact prevLoop_spec h hfuel hR he le_rfl hseq hdir hinv

/-- INTERNAL: **the way back out of the versions of a key**, to a smaller key or off the front.
The induction is on the index.
SRCLINE: leveldb-1.15.0/db/db_iter.cc:213-226 -/
theorem leave_spec (h : Under m es R) (it : DbIter σ) (i₀ : ℕ) {fuel : ℕ} (hfuel : i < fuel) (hR : R it.iter (some i))
    (he : es[i]? = some e) (hseq : it.sequence = snap) (hdir : it.direction = .forward)
    (hsame : ∀ c x, i ≤ c → c ≤ i₀ → es[c]? = some x → it.savedKey ≤ x.userKey) :
    ∃ it', loop (DbIter.leaveRound m) fuel it = some it' ∧ it'.sequence = snap ∧
      ((∃ c x, c < i ∧ es[c]? = some x ∧ x.userKey < it.savedKey ∧
          (∀ c' y, c < c' → c' ≤ i₀ → es[c']? = some y → it.savedKey ≤ y.userKey) ∧
          R it'.iter (some c) ∧ it'.direction = .reverse) ∨
        (∀ c y, c ≤ i₀ → es[c]? = some y → it.savedKey ≤ y.userKey) ∧ R it'.iter none ∧
          it'.valid = false ∧ it'.direction = .forward) := by
  induction i generalizing it fuel e with
  | zero =>
    obtain ⟨fuel, rfl⟩ : ∃ f, fuel = f + 1 := ⟨fuel - 1, by omega⟩
    obtain ⟨iter, hmove, hland⟩ := h.lands_prev hR he
    rcases hland with ⟨j, x, hij, -⟩ | ⟨-, hR', hcur⟩
    · omega
    · have hround : DbIter.leaveRound m it = some (.inr
          { it with iter := iter, valid := false, savedKey := [], savedValue := [] }) := by
        simp only [DbIter.leaveRound, hmove, Option.map_some, hcur]
      refine ⟨_, loop_succ_inr hround fuel, hseq, Or.inr ⟨?_, hR', rfl, hdir⟩⟩
      exact fun c y hc hy => hsame c y (Nat.zero_le c) hc hy
  | succ i ih =>
    obtain ⟨fuel, rfl⟩ : ∃ f, fuel = f + 1 := ⟨fuel - 1, by omega⟩
    obtain ⟨iter, hmove, hland⟩ := h.lands_prev hR he
    rcases hland with ⟨j, x, hij, hx, hR', hcur⟩ | ⟨hzero, -⟩
    · obtain rfl : i = j := by omega
      have hlt := sliceCompare_represents.neg_iff x.userKey it.savedKey
      rw [id, id] at hlt
      have hround : DbIter.leaveRound m it = some (if x.userKey < it.savedKey then
          .inr { it with iter := iter, direction := .reverse } else
          .inl { it with iter := iter }) := by
        simp only [DbIter.leaveRound, hmove, Option.map_some, hcur, Entry.pair,
          extractUserKey_append, Entry.parsed, hlt]
      by_cases hsmall : x.userKey < it.savedKey
      · rw [if_pos hsmall] at hround
        refine ⟨_, loop_succ_inr hround fuel, hseq,
          Or.inl ⟨i, x, by omega, hx, hsmall, ?_, hR', rfl⟩⟩
        exact fun c' y hlt hle hy => hsame c' y (by omega) hle hy
      · rw [if_neg hsmall] at hround
        have hR₂ : R ({ it with iter := iter } : DbIter σ).iter (some i) := hR'
        have hsame₂ : ∀ c y, i ≤ c → c ≤ i₀ → es[c]? = some y →
            ({ it with iter := iter } : DbIter σ).savedKey ≤ y.userKey := by
          intro c y hic hle hy
          rcases hic.eq_or_lt with rfl | hic
          · rw [hx] at hy
            cases hy
            exact not_lt.mp hsmall
          · exact hsame c y hic hle hy
        obtain ⟨it', hloop, hseq', hcases⟩ := ih { it with iter := iter }
          (show i < fuel by omega) hR₂ hx hseq hdir hsame₂
        refine ⟨it', ?_, hseq', hcases.imp_left ?_⟩
        · rw [loop_succ_inl hround]
          exact hloop
        · rintro ⟨c, y, hci, hrest⟩
          exact ⟨c, y, by omega, hrest⟩
    · omega

end Backward

/-! ## The cursor over the listing -/

/-- Where the iterator stands in the listing.  Moving forward, the iterator below is on the
entry; moving backward, it is behind it and the entry has been copied. -/
inductive Shows (snap : ℕ) (es : List Entry) (R : σ → Option ℕ → Prop) :
    DbIter σ → Option ℕ → Prop
  | nowhere {it : DbIter σ} {q : Option ℕ} : it.sequence = snap → it.valid = false →
      R it.iter q → Shows snap es R it none
  | forward {it : DbIter σ} {i : ℕ} {e : Entry} : it.sequence = snap → it.valid = true →
      it.direction = .forward → R it.iter (some i) → es[i]? = some e → Shown snap es e →
      Shows snap es R it (some (place (fun e => decide (Shown snap es e)) es i))
  | reverse {it : DbIter σ} {i : ℕ} {e : Entry} {q : Option ℕ} : it.sequence = snap →
      it.valid = true → it.direction = .reverse → es[i]? = some e → Shown snap es e →
      it.savedKey = e.userKey → it.savedValue = e.value →
      Behind snap es R it.iter e.userKey q →
      Shows snap es R it (some (place (fun e => decide (Shown snap es e)) es i))

section Simulation

variable {it : DbIter σ} {i j q : ℕ} {e : Entry}

/-- INTERNAL: the listing has a pair for every entry that is shown. -/
theorem length_listing : (listing snap es).length = (shownEntries snap es).length :=
  List.length_map ..

/-- INTERNAL: an entry that is shown has its place in the listing. -/
theorem place_lt_length (he : es[i]? = some e) (hs : Shown snap es e) :
    place (fun e => decide (Shown snap es e)) es i < (listing snap es).length := by
  rw [length_listing]
  exact (List.getElem?_eq_some_iff.mp (getElem?_filter_place he (decide_eq_true hs))).1

/-- INTERNAL: an entry that is shown is found at its place in the listing. -/
theorem getElem?_listing (he : es[i]? = some e) (hs : Shown snap es e) :
    (listing snap es)[place (fun e => decide (Shown snap es e)) es i]? =
      some (e.userKey, e.value) := by
  rw [listing, List.getElem?_map, shownEntries, getElem?_filter_place he (decide_eq_true hs)]
  rfl

/-- INTERNAL: the loop has landed on what another description means, too. -/
theorem Landed.iff {W V : Entry → Prop} (h : Landed es R W i it)
    (hiff : ∀ c x, es[c]? = some x → (i ≤ c ∧ W x ↔ j ≤ c ∧ V x)) : Landed es R V j it := by
  rcases h with ⟨c, x, hic, hx, hW, hnone, hrest⟩ | ⟨hnone, hrest⟩
  · obtain ⟨hjc, hV⟩ := (hiff c x hx).mp ⟨hic, hW⟩
    refine Or.inl ⟨c, x, hjc, hx, hV, ?_, hrest⟩
    intro c' y hjc' hlt hy hVy
    obtain ⟨hic', hWy⟩ := (hiff c' y hy).mpr ⟨hjc', hVy⟩
    exact hnone c' y hic' hlt hy hWy
  · refine Or.inr ⟨?_, hrest⟩
    intro c y hjc hy hVy
    obtain ⟨hic, hWy⟩ := (hiff c y hy).mpr ⟨hjc, hVy⟩
    exact hnone c y hic hy hWy

/-- INTERNAL: where the forward loop ends, in the listing. -/
theorem Landed.shows (hseq : it.sequence = snap) (hdir : it.direction = .forward)
    (h : Landed es R (Shown snap es) j it) :
    Shows snap es R it
      (clip (listing snap es) (place (fun e => decide (Shown snap es e)) es j)) := by
  rcases h with ⟨c, x, hjc, hx, hs, hnone, hvalid, hR⟩ | ⟨hnone, hvalid, q, hR⟩
  · have hplace := place_eq_of_none (P := fun e => decide (Shown snap es e)) (l := es) hjc
      fun c' y hj hlt hy => decide_eq_false (hnone c' y hj hlt hy)
    rw [← hplace, clip_of_lt (place_lt_length hx hs)]
    exact .forward hseq hvalid hdir hR hx hs
  · have hplace := place_eq_length (P := fun e => decide (Shown snap es e)) (l := es) (i := j)
      fun c y hj hy => decide_eq_false (hnone c y hj hy)
    rw [hplace, clip_of_le (by rw [length_listing, shownEntries])]
    exact .nowhere hseq hvalid hR

/-- INTERNAL: where the backward loop ends, in the listing. -/
theorem PrevLanded.shows (hseq : it.sequence = snap) (h : PrevLanded snap es R q it)
    (hiff : ∀ c x, es[c]? = some x → Shown snap es x → (c ≤ q ↔ c < j)) :
    Shows snap es R it (if place (fun e => decide (Shown snap es e)) es j = 0 then none
      else clip (listing snap es) (place (fun e => decide (Shown snap es e)) es j - 1)) := by
  rcases h with ⟨c, x, hcq, hx, hs, hnone, hvalid, hdir, hkey, hvalue, p, hbehind⟩ |
    ⟨hnone, hvalid, p, hR⟩
  · have hcj := (hiff c x hx hs).mp hcq
    have hplace := place_eq_of_none (P := fun e => decide (Shown snap es e)) (l := es)
      (show c + 1 ≤ j by omega) (fun c' y hj hlt hy => decide_eq_false fun hsy =>
        hnone c' y (by omega) ((hiff c' y hy hsy).mpr hlt) hy hsy)
    rw [place_succ hx, if_pos (decide_eq_true hs)] at hplace
    rw [hplace, if_neg (by omega), Nat.add_sub_cancel, clip_of_lt (place_lt_length hx hs)]
    exact .reverse hseq hvalid hdir hx hs hkey hvalue hbehind
  · have hplace := place_eq_of_none (P := fun e => decide (Shown snap es e)) (l := es)
      (Nat.zero_le j) (fun c y _ hlt hy => decide_eq_false fun hsy =>
        hnone c y ((hiff c y hy hsy).mpr hlt) hy hsy)
    rw [hplace, place_zero, if_pos rfl]
    exact .nowhere hseq hvalid hR

/-- INTERNAL: wherever the iterator stands, the iterator below stands somewhere. -/
theorem Shows.below {p : Option ℕ} (h : Shows snap es R it p) :
    it.sequence = snap ∧ ∃ q, R it.iter q := by
  cases h with
  | nowhere hseq _ hR => exact ⟨hseq, _, hR⟩
  | forward hseq _ _ hR => exact ⟨hseq, _, hR⟩
  | reverse hseq _ _ _ _ _ _ hbehind => exact ⟨hseq, _, hbehind.below⟩

/-- INTERNAL: **the iterator shows what the cursor shows.**
SRCLINE: leveldb-1.15.0/db/db_iter.cc:65-73 -/
theorem Shows.current_eq (h : Under m es R) {p : Option ℕ} (hs : Shows snap es R it p) :
    DbIter.current m it = (cursorOps userBefore (listing snap es)).current p := by
  cases hs with
  | nowhere _ hvalid _ =>
    rw [DbIter.current, hvalid]
    rfl
  | forward _ hvalid hdir hR he hshown =>
    rw [DbIter.current, hvalid, hdir]
    simp only [if_true, h.current hR he, Option.map_some, Entry.pair, extractUserKey_append]
    exact (getElem?_listing he hshown).symm
  | reverse _ hvalid hdir he hshown hkey hvalue _ =>
    rw [DbIter.current, hvalid, hdir, hkey, hvalue]
    exact (getElem?_listing he hshown).symm

/-! ### The absolute moves -/

/-- INTERNAL: a search forward from an index, or from the end. -/
theorem forward_shows (h : Under m es R) {fuel : ℕ} (hfuel : es.length < fuel) (it : DbIter σ)
    (hseq : it.sequence = snap) (hdir : it.direction = .forward)
    (hland : (∃ x, es[j]? = some x ∧ R it.iter (some j) ∧ m.current it.iter = some x.pair) ∨
      es.length ≤ j ∧ R it.iter none ∧ m.current it.iter = none)
    (hinv : NextInv snap es j false it.savedKey) :
    ∃ it', (if (m.current it.iter).isSome then it.findNextUserEntry m fuel false
        else some { it with valid := false }) = some it' ∧
      Shows snap es R it'
        (clip (listing snap es) (place (fun e => decide (Shown snap es e)) es j)) := by
  rcases hland with ⟨x, hx, hR, hcur⟩ | ⟨hle, hR, hcur⟩
  · obtain ⟨it', hfind, hseq', hdir', hland⟩ :=
      findNextUserEntry_spec h it (Nat.le_add_left _ j) hfuel hR hx hseq hinv
    refine ⟨it', ?_, Landed.shows hseq' (hdir'.trans hdir) (hland.iff fun c x hx => ?_)⟩
    · rw [hcur]
      exact hfind
    · simp [Wanted]
  · refine ⟨{ it with valid := false }, ?_, Landed.shows hseq hdir (Or.inr ⟨?_, rfl, none, hR⟩)⟩
    · rw [hcur]
      rfl
    · intro c y hjc hy
      have hlt := (List.getElem?_eq_some_iff.mp hy).1
      omega

/-- INTERNAL: **to the first pair.**
SRCLINE: leveldb-1.15.0/db/db_iter.cc:288-297 -/
theorem seekToFirst_shows (h : Under m es R) {fuel : ℕ} (hfuel : es.length < fuel)
    {q : Option ℕ} (hR : R it.iter q) (hseq : it.sequence = snap) :
    ∃ it', it.seekToFirst m fuel = some it' ∧ Shows snap es R it' (clip (listing snap es) 0) := by
  obtain ⟨iter, hmove, hland⟩ := h.lands .seekToFirst trivial 0 hR rfl
  have hinv : NextInv snap es 0 false it.savedKey :=
    ⟨by simp, fun c x _ _ _ _ c' y hlt => absurd hlt (Nat.not_lt_zero c')⟩
  obtain ⟨it', heq, hshows⟩ := forward_shows h hfuel
    { it with direction := .forward, savedValue := [], iter := iter } hseq rfl hland hinv
  refine ⟨it', ?_, hshows⟩
  rw [DbIter.seekToFirst, hmove]
  exact heq

/-- The versions in front of what is looked for: smaller keys, and what is too new. -/
def Entry.BeforeSeek (snap : ℕ) (target : List Byte) (e : Entry) : Prop :=
  e.userKey < target ∨ e.userKey = target ∧ snap < e.sequence

/-- INTERNAL: what the key that is looked for stands behind. -/
theorem internalBefore_seek (hseq : e.sequence ≤ kMaxSequenceNumber)
    (hsnap : snap ≤ kMaxSequenceNumber) (target : List Byte) :
    internalBefore e.pair.1 (appendInternalKey ⟨target, snap, kValueTypeForSeek⟩) = true ↔
      e.BeforeSeek snap target := by
  have hrank := internalKeyCompare_represents.lessBy_iff e.pair.1
    (appendInternalKey ⟨target, snap, kValueTypeForSeek⟩)
  have htype : e.type.toNat ≤ 1 := by cases e.type <;> decide
  rw [internalBefore, hrank, internalRank, internalRank, Prod.Lex.toLex_lt_toLex, Entry.pair, extractUserKey_append, extractUserKey_append,
    internalKeyTag_append hseq, internalKeyTag_append hsnap, OrderDual.toDual_lt_toDual]
  have hseek : kValueTypeForSeek.toNat = 1 := rfl
  simp only [Entry.parsed, hseek, Entry.BeforeSeek]
  refine or_congr_right (and_congr_right fun _ => ?_)
  omega

/-- INTERNAL: what is in front of an entry before the target is before the target. -/
theorem Entry.BeforeSeek.of_before {a b : Entry} {target : List Byte} (hab : a.Before b)
    (hb : b.BeforeSeek snap target) : a.BeforeSeek snap target := by
  rcases hab with hab | ⟨hab, hseq⟩
  · rcases hb with hb | ⟨hb, -⟩
    · exact Or.inl (hab.trans hb)
    · exact Or.inl (hb ▸ hab)
  · rcases hb with hb | ⟨hb, hlt⟩
    · exact Or.inl (hab ▸ hb)
    · exact Or.inr ⟨hab.trans hb, hlt.trans hseq⟩

/-- INTERNAL: the search below splits the versions into those in front and the others. -/
theorem beforeSeek_iff_lt_seekIndex (h : Ordered es) (hsnap : snap ≤ kMaxSequenceNumber)
    (target : List Byte) (he : es[i]? = some e) :
    i < seekIndex internalBefore (es.map Entry.pair)
      (appendInternalKey ⟨target, snap, kValueTypeForSeek⟩) ↔ e.BeforeSeek snap target := by
  have hpair : (es.map Entry.pair)[i]? = some e.pair := by rw [List.getElem?_map, he]; rfl
  rw [seekIndex, lt_findIdx_iff _ hpair, Bool.not_eq_false',
    internalBefore_seek (h.sequence_le e (List.mem_of_getElem? he)) hsnap]
  rw [List.pairwise_map]
  apply h.sorted.imp_of_mem
  intro a b ha hb hab
  rw [Bool.not_eq_false', Bool.not_eq_false', internalBefore_seek (h.sequence_le _ ha) hsnap,
    internalBefore_seek (h.sequence_le _ hb) hsnap]
  exact fun hseek => hseek.of_before hab

/-- INTERNAL: what the users of the iterator look for is at the place of what is looked for
below. -/
theorem seekIndex_listing (h : Ordered es) (hsnap : snap ≤ kMaxSequenceNumber)
    (target : List Byte) :
    seekIndex userBefore (listing snap es) target =
      place (fun e => decide (Shown snap es e)) es (seekIndex internalBefore (es.map Entry.pair)
        (appendInternalKey ⟨target, snap, kValueTypeForSeek⟩)) := by
  set lo := seekIndex internalBefore (es.map Entry.pair)
    (appendInternalKey ⟨target, snap, kValueTypeForSeek⟩) with hlo
  have huser : ∀ key, userBefore key target = true ↔ key < target := fun key =>
    sliceCompare_represents.lessBy_iff key target
  have hsplit : listing snap es =
      ((es.take lo).filter fun e => decide (Shown snap es e)).map (fun e => (e.userKey, e.value)) ++
      ((es.drop lo).filter fun e => decide (Shown snap es e)).map
        (fun e => (e.userKey, e.value)) := by
    rw [← List.map_append, ← List.filter_append, List.take_append_drop]
    rfl
  rw [seekIndex, hsplit, findIdx_append_of_split, List.length_map, place]
  · intro p hp
    obtain ⟨e, he, rfl⟩ := List.mem_map.mp hp
    obtain ⟨htake, hshown⟩ := List.mem_filter.mp he
    obtain ⟨i, hi⟩ := List.mem_iff_getElem?.mp htake
    rw [List.getElem?_take] at hi
    split_ifs at hi with hilo
    have hseek := (beforeSeek_iff_lt_seekIndex h hsnap target hi).mp hilo
    rcases hseek with hlt | ⟨-, hnew⟩
    · rw [(huser e.userKey).mpr hlt]
      rfl
    · exact absurd (of_decide_eq_true hshown).2.1 hnew.not_ge
  · intro p hp
    obtain ⟨e, he, rfl⟩ := List.mem_map.mp hp
    obtain ⟨hdrop, -⟩ := List.mem_filter.mp he
    obtain ⟨i, hi⟩ := List.mem_iff_getElem?.mp hdrop
    rw [List.getElem?_drop] at hi
    have hseek := (beforeSeek_iff_lt_seekIndex h hsnap target hi).not.mp (by omega)
    rw [Bool.eq_false_iff.mpr ((huser e.userKey).not.mpr fun hlt => hseek (Or.inl hlt))]
    rfl

/-- INTERNAL: **to a key.**
SRCLINE: leveldb-1.15.0/db/db_iter.cc:274-286 -/
theorem seek_shows (h : Under m es R) {fuel : ℕ} (hfuel : es.length < fuel)
    (hsnap : snap ≤ kMaxSequenceNumber) {q : Option ℕ} (hR : R it.iter q)
    (hseq : it.sequence = snap) (target : List Byte) (htarget : target.length + 8 < 2 ^ 32) :
    ∃ it', it.seek m fuel target = some it' ∧
      Shows snap es R it' (clip (listing snap es) (seekIndex userBefore (listing snap es) target)) := by
  subst hseq
  set key := appendInternalKey ⟨target, it.sequence, kValueTypeForSeek⟩ with hkey
  have hfits : UserKeyFits key := by
    rw [UserKeyFits, hkey, length_appendInternalKey]
    exact htarget
  obtain ⟨iter, hmove, hland⟩ :=
    h.lands (.seek key) hfits (seekIndex internalBefore (es.map Entry.pair) key) hR rfl
  have hinv : NextInv it.sequence es (seekIndex internalBefore (es.map Entry.pair) key) false key := by
    refine ⟨by simp, fun c x hic hx _ _ c' y hlt hy hxy => ?_⟩
    have hx' := (beforeSeek_iff_lt_seekIndex h.ordered hsnap target hx).not.mp (not_lt.mpr hic)
    rcases (beforeSeek_iff_lt_seekIndex h.ordered hsnap target hy).mp hlt with hlt | ⟨-, hnew⟩
    · exact absurd (Or.inl (hxy ▸ hlt)) hx'
    · exact not_le.mpr hnew
  obtain ⟨it', heq, hshows⟩ := forward_shows h hfuel
    { it with direction := .forward, savedValue := [], savedKey := key, iter := iter } rfl rfl
    hland hinv
  refine ⟨it', ?_, ?_⟩
  · rw [DbIter.seek, hmove]
    exact heq
  · rw [seekIndex_listing h.ordered hsnap target]
    exact hshows

/-- INTERNAL: a search backward from an entry, in the listing. -/
theorem backward_shows (h : Under m es R) {fuel : ℕ} (hfuel : es.length < fuel) (it : DbIter σ)
    (hR : R it.iter (some q)) (he : es[q]? = some e) (hseq : it.sequence = snap)
    (hdir : it.direction = .reverse)
    (hiff : ∀ c x, es[c]? = some x → Shown snap es x → (c ≤ q ↔ c < j)) :
    ∃ it', it.findPrevUserEntry m fuel = some it' ∧
      Shows snap es R it' (if place (fun e => decide (Shown snap es e)) es j = 0 then none
        else clip (listing snap es) (place (fun e => decide (Shown snap es e)) es j - 1)) := by
  have hq := (List.getElem?_eq_some_iff.mp he).1
  obtain ⟨it', hfind, hseq', hland⟩ := findPrevUserEntry_spec h (hq.trans hfuel) hR he hseq hdir
  exact ⟨it', hfind, hland.shows hseq' hiff⟩

/-- INTERNAL: **to the last pair.**
SRCLINE: leveldb-1.15.0/db/db_iter.cc:299-304 -/
theorem seekToLast_shows (h : Under m es R) {fuel : ℕ} (hfuel : es.length < fuel)
    {q : Option ℕ} (hR : R it.iter q) (hseq : it.sequence = snap) :
    ∃ it', it.seekToLast m fuel = some it' ∧
      Shows snap es R it' (clip (listing snap es) ((listing snap es).length - 1)) := by
  obtain ⟨iter, hmove, hland⟩ := h.lands .seekToLast trivial (es.length - 1) hR
    (by rw [cursorMove, List.length_map])
  have hlength : place (fun e => decide (Shown snap es e)) es es.length = (listing snap es).length := by
    rw [place_length, length_listing, shownEntries]
  rcases hland with ⟨x, hx, hR', -⟩ | ⟨hle, hR', hcur⟩
  · have hlt := (List.getElem?_eq_some_iff.mp hx).1
    obtain ⟨it', hfind, hshows⟩ := backward_shows h hfuel (j := es.length)
      { it with direction := .reverse, savedValue := [], iter := iter } hR' hx hseq rfl
      (fun c y _ _ => by omega)
    refine ⟨it', by rw [DbIter.seekToLast, hmove]; exact hfind, ?_⟩
    rw [hlength] at hshows
    by_cases hempty : (listing snap es).length = 0
    · rw [if_pos hempty] at hshows
      rwa [clip_of_le (by omega)]
    · rwa [if_neg hempty] at hshows
  · refine ⟨DbIter.prevDone { it with direction := .reverse, savedValue := [], iter := iter } .deletion,
      ?_, ?_⟩
    · rw [DbIter.seekToLast, hmove, Option.bind_some, DbIter.findPrevUserEntry, hcur]
    · have hnone : (listing snap es).length = 0 := by
        rw [← hlength, List.eq_nil_of_length_eq_zero (by omega : es.length = 0)]
        rfl
      rw [clip_of_le (by omega)]
      exact .nowhere hseq rfl hR'

/-! ### The relative moves -/

/-- INTERNAL: the entries that are shown behind one that is shown. -/
theorem shown_behind_iff (h : Ordered es) (he : es[i]? = some e) (hs : Shown snap es e) {lo : ℕ}
    (hlo : lo ≤ i) (c : ℕ) (x : Entry) (hx : es[c]? = some x) :
    lo ≤ c ∧ Wanted snap es true e.userKey x ↔ i + 1 ≤ c ∧ Shown snap es x := by
  constructor
  · rintro ⟨-, hshown, hlt⟩
    refine ⟨Nat.succ_le_of_lt (not_le.mp fun hci => ?_), hshown⟩
    exact absurd (hlt rfl) (h.userKey_le hx he hci).not_gt
  · rintro ⟨hic, hshown⟩
    exact ⟨by omega, hshown, fun _ => h.shown_lt he hx hs hshown hic⟩

/-- INTERNAL: a search forward from an entry in front of the one shown, in the listing. -/
theorem onward_shows (h : Under m es R) {fuel lo : ℕ} (hfuel : es.length < fuel) (it : DbIter σ)
    (hseq : it.sequence = snap) (hdir : it.direction = .forward) (he : es[i]? = some e)
    (hs : Shown snap es e) (hlo : lo ≤ i) (hR : R it.iter (some lo))
    (hkey : it.savedKey = e.userKey) (hinv : NextInv snap es lo true e.userKey) :
    ∃ it', it.findNextUserEntry m fuel true = some it' ∧ Shows snap es R it'
      (clip (listing snap es) (place (fun e => decide (Shown snap es e)) es i + 1)) := by
  obtain ⟨x, hx⟩ : ∃ x, es[lo]? = some x :=
    ⟨_, List.getElem?_eq_getElem (hlo.trans_lt (List.getElem?_eq_some_iff.mp he).1)⟩
  obtain ⟨it', hfind, hseq', hdir', hland⟩ :=
    findNextUserEntry_spec h it (Nat.le_add_left _ lo) hfuel hR hx hseq (hkey ▸ hinv)
  rw [hkey] at hland
  have hshows := (hland.iff (shown_behind_iff h.ordered he hs hlo)).shows hseq' (hdir'.trans hdir)
  rw [place_succ he, if_pos (decide_eq_true hs)] at hshows
  exact ⟨it', hfind, hshows⟩

/-- INTERNAL: **to the next pair**, in either direction.
SRCLINE: leveldb-1.15.0/db/db_iter.cc:146-171 -/
theorem next_shows (h : Under m es R) {fuel : ℕ} (hfuel : es.length < fuel) {p : ℕ}
    (hs : Shows snap es R it (some p)) :
    ∃ it', it.next m fuel = some it' ∧ Shows snap es R it' (clip (listing snap es) (p + 1)) := by
  generalize hp : some p = pos at hs
  cases hs with
  | nowhere _ _ _ => cases hp
  | @forward i e hseq _ hdir hR he hshown =>
    cases hp
    obtain ⟨it', hfind, hshows⟩ := onward_shows h hfuel { it with savedKey := e.userKey } hseq hdir
      he hshown le_rfl hR rfl (NextInv.skip h he le_rfl (Nat.le_succ i))
    refine ⟨it', ?_, hshows⟩
    rw [hdir] at hfind
    rw [DbIter.next, hdir]
    simp only [h.current hR he, Entry.pair, extractUserKey_append]
    exact hfind
  | @reverse i e q hseq _ hdir he hshown hkey _ hbehind =>
    cases hp
    -- the first entry that is not known to have a smaller key
    obtain ⟨lo, hlo, hbelow⟩ : ∃ lo, (∀ c, c < lo ↔ ∃ c', q = some c' ∧ c ≤ c') ∧
        (if (m.current it.iter).isNone then m.move .seekToFirst it.iter
          else m.move .next it.iter) =
          m.move (if q.isNone then .seekToFirst else .next) it.iter ∧
        cursorMove internalBefore (es.map Entry.pair)
          (if q.isNone then .seekToFirst else .next) q = some (clip (es.map Entry.pair) lo) := by
      cases q with
      | none =>
        refine ⟨0, by simp, ?_, rfl⟩
        rw [h.current_none hbehind.below]
        rfl
      | some c =>
        obtain ⟨x, hx, -⟩ := hbehind.key_lt c rfl
        refine ⟨c + 1, fun c' => by simp, ?_, rfl⟩
        rw [h.current hbehind.below hx]
        rfl
    have hsmall : ∀ c y, c < lo → es[c]? = some y → y.userKey < e.userKey := by
      intro c y hlt hy
      obtain ⟨c', hq, hle⟩ := (hlo c).mp hlt
      obtain ⟨x, hx, hxlt⟩ := hbehind.key_lt c' hq
      exact (h.ordered.userKey_le hy hx hle).trans_lt hxlt
    have hlarge : ∀ c y, lo ≤ c → es[c]? = some y → y.sequence ≤ snap → e.userKey ≤ y.userKey := by
      intro c y hle hy hsnap
      refine not_lt.mp fun hlt => hbehind.hidden c y (fun c' hq => ?_) hy hlt hsnap
      exact not_le.mp fun hcc => absurd ((hlo c).mpr ⟨c', hq, hcc⟩) (not_lt.mpr hle)
    have hloi : lo ≤ i := not_lt.mp fun hlt => absurd (hsmall i e hlt he) (lt_irrefl _)
    have hinv : NextInv snap es lo true e.userKey := by
      refine ⟨fun _ => hlarge, fun c x hc hx hsnap hother c' y hlt hy hyx => ?_⟩
      exact absurd hyx (((hsmall c' y hlt hy).trans_le (hlarge c x hc hx hsnap)).ne)
    obtain ⟨iter, hmove, hland⟩ := h.lands (if q.isNone then .seekToFirst else .next)
      (by split_ifs <;> trivial) lo hbehind.below hbelow.2
    rcases hland with ⟨x, hx, hR, hcur⟩ | ⟨hle, -, -⟩
    · obtain ⟨it', hfind, hshows⟩ := onward_shows h hfuel
        { it with direction := .forward, iter := iter } hseq rfl he hshown hloi hR hkey hinv
      refine ⟨it', ?_, hshows⟩
      rw [DbIter.next, hdir]
      simp only [hbelow.1, hmove, Option.bind_some, hcur]
      exact hfind
    · have hi := (List.getElem?_eq_some_iff.mp he).1
      omega

/-- INTERNAL: where nothing in front is shown, the step back leads nowhere. -/
theorem front_shows {it : DbIter σ} {r : Option ℕ} (hseq : it.sequence = snap)
    (hvalid : it.valid = false) (hR : R it.iter r)
    (hnone : ∀ c x, c < i → es[c]? = some x → ¬ Shown snap es x) :
    Shows snap es R it (if place (fun e => decide (Shown snap es e)) es i = 0 then none
      else clip (listing snap es) (place (fun e => decide (Shown snap es e)) es i - 1)) := by
  have hplace := place_eq_of_none (P := fun e => decide (Shown snap es e)) (l := es)
    (Nat.zero_le i) fun c x _ hlt hx => decide_eq_false (hnone c x hlt hx)
  rw [hplace, place_zero, if_pos rfl]
  exact .nowhere hseq hvalid hR

/-- INTERNAL: **to the pair before**, in either direction.
SRCLINE: leveldb-1.15.0/db/db_iter.cc:205-230 -/
theorem prev_shows (h : Under m es R) {fuel : ℕ} (hfuel : es.length < fuel) {p : ℕ}
    (hs : Shows snap es R it (some p)) :
    ∃ it', it.prev m fuel = some it' ∧
      Shows snap es R it' (if p = 0 then none else clip (listing snap es) (p - 1)) := by
  generalize hp : some p = pos at hs
  cases hs with
  | nowhere _ _ _ => cases hp
  | @forward i e hseq _ hdir hR he hshown =>
    cases hp
    have hi := (List.getElem?_eq_some_iff.mp he).1
    obtain ⟨it₁, hleave, hseq₁, hcases⟩ := leave_spec h { it with savedKey := e.userKey } i
      (hi.trans hfuel) hR he hseq hdir fun c x hic hci hx => h.ordered.userKey_le he hx hic
    simp only [hdir] at hleave
    rcases hcases with ⟨c, x, hci, hx, -, hsame, hR₁, hdir₁⟩ | ⟨hsame, hR₁, hvalid₁, hdir₁⟩
    · have hiff : ∀ d y, es[d]? = some y → Shown snap es y → (d ≤ c ↔ d < i) := by
        intro d y hy hys
        refine ⟨fun hdc => by omega, fun hdi => not_lt.mp fun hcd => ?_⟩
        exact absurd (h.ordered.shown_lt hy he hys hshown hdi) (hsame d y hcd hdi.le hy).not_gt
      obtain ⟨it', hfind, hshows⟩ := backward_shows h hfuel it₁ hR₁ hx hseq₁ hdir₁ hiff
      refine ⟨it', ?_, hshows⟩
      simpa only [DbIter.prev, hdir, h.current hR he, Entry.pair, extractUserKey_append, Entry.parsed,
        hleave, Option.bind_some, hdir₁] using hfind
    · refine ⟨it₁, ?_, front_shows hseq₁ hvalid₁ hR₁ fun c x hci hx hxs => ?_⟩
      · simp only [DbIter.prev, hdir, h.current hR he, Entry.pair, extractUserKey_append, Entry.parsed,
          hleave, Option.bind_some, hdir₁]
      · exact absurd (h.ordered.shown_lt hx he hxs hshown hci) (hsame c x hci.le hx).not_gt
  | @reverse i e q hseq _ hdir he hshown hkey _ hbehind =>
    cases hp
    have hprev : it.prev m fuel = it.findPrevUserEntry m fuel := by rw [DbIter.prev, hdir]
    -- what is shown in front is not behind the iterator below
    have hfront : ∀ c x, es[c]? = some x → Shown snap es x → c < i → ∃ c', q = some c' ∧ c ≤ c' := by
      intro c x hx hxs hci
      by_contra hnot
      refine hbehind.hidden c x (fun c' hq => ?_) hx (h.ordered.shown_lt hx he hxs hshown hci) hxs.2.1
      exact not_le.mp fun hcc => hnot ⟨c', hq, hcc⟩
    cases q with
    | none =>
      refine ⟨it.prevDone .deletion, ?_, front_shows hseq rfl hbehind.below fun c x hci hx hxs => ?_⟩
      · rw [hprev, DbIter.findPrevUserEntry, h.current_none hbehind.below]
      · obtain ⟨c', hq, -⟩ := hfront c x hx hxs hci
        cases hq
    | some c =>
      obtain ⟨z, hz, hzlt⟩ := hbehind.key_lt c rfl
      have hiff : ∀ d y, es[d]? = some y → Shown snap es y → (d ≤ c ↔ d < i) := by
        intro d y hy hys
        constructor
        · intro hdc
          refine not_le.mp fun hid => ?_
          have hle := (h.ordered.userKey_le he hy hid).trans (h.ordered.userKey_le hy hz hdc)
          exact absurd hzlt hle.not_gt
        · intro hdi
          obtain ⟨c', hq, hle⟩ := hfront d y hy hys hdi
          exact Option.some.inj hq ▸ hle
      obtain ⟨it', hfind, hshows⟩ := backward_shows h hfuel it hbehind.below hz hseq hdir hiff
      exact ⟨it', hprev.trans hfind, hshows⟩

/-- INTERNAL: an iterator on a pair is valid. -/
theorem Shows.valid {p : ℕ} (hs : Shows snap es R it (some p)) : it.valid = true := by
  generalize hp : some p = pos at hs
  cases hs with
  | nowhere _ _ _ => cases hp
  | forward _ hvalid => exact hvalid
  | reverse _ hvalid => exact hvalid

end Simulation

/-- INTERNAL: **the iterator of the database stands for the cursor over the listing**, whatever
iterator stands for the cursor over the versions.
SRCLINE: leveldb-1.15.0/db/db_iter.cc:42-304 -/
theorem dbIter_simulates (h : Under m es R) (hsnap : snap ≤ kMaxSequenceNumber) {fuel : ℕ}
    (hfuel : es.length < fuel) :
    Simulates (fun target => target.length + 8 < 2 ^ 32) (DbIter.ops m fuel)
      (cursorOps userBefore (listing snap es)) (Shows snap es R) where
  current hs := hs.current_eq h
  move := by
    intro it p p' mv hok hs hmove
    obtain ⟨hseq, q, hR⟩ := hs.below
    cases mv with
    | seekToFirst =>
      cases hmove
      exact seekToFirst_shows h hfuel hR hseq
    | seekToLast =>
      cases hmove
      exact seekToLast_shows h hfuel hR hseq
    | seek target =>
      cases hmove
      exact seek_shows h hfuel hsnap hR hseq target hok
    | next =>
      obtain ⟨p, rfl, rfl⟩ := Option.map_eq_some_iff.mp hmove
      obtain ⟨it', hnext, hs'⟩ := next_shows h hfuel hs
      exact ⟨it', (if_pos hs.valid).trans hnext, hs'⟩
    | prev =>
      obtain ⟨p, rfl, rfl⟩ := Option.map_eq_some_iff.mp hmove
      obtain ⟨it', hprev, hs'⟩ := prev_shows h hfuel hs
      exact ⟨it', (if_pos hs.valid).trans hprev, hs'⟩

end DbIter

end ExternalSort.Analysis
