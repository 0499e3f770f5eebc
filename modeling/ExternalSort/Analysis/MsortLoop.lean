import ExternalSort.Analysis.MsortPass
import ExternalSort.Analysis.PassRouting

/-!
# The loop of passes

`Reaches` are the states the loop comes to, and a run of the loop that returns ends in one
of them (`Reaches.of_mergePasses`); so what every pass keeps holds of the files at the end.
Fuel only decides whether a run returns (`mergePasses_mono`), and the loop returns
if every pass finds the file it reads (`mergePasses_returns`).

`Reaches.data` follows the records from pass to pass when the files are routed well.
-/

set_option autoImplicit false

namespace ExternalSort.Analysis

open ExternalSort.Lib ExternalSort.Model

/-- The states the loop of passes comes to.
SRCLINE: msort.cc:71-99 -/
inductive Reaches (job : Job) (fuel : ℕ) (c₀ : Control) (fs₀ : FileSystem) (buf₀ : List Byte) :
    ℕ → Control → FileSystem → List Byte → Prop
  | start : Reaches job fuel c₀ fs₀ buf₀ 0 c₀ fs₀ buf₀
  | pass {j : ℕ} {c : Control} {fs fs' : FileSystem} {buf buf' : List Byte}
      (h : Reaches job fuel c₀ fs₀ buf₀ j c fs buf) (hlt : c.runLength < job.numRecords)
      (hrun : job.runPass fuel j c fs buf = some (fs', buf')) :
      Reaches job fuel c₀ fs₀ buf₀ (j + 1) (c.next job.k) fs' buf'

/-- The passes a run of the loop makes, from pass `j` on, until it returns.
SRCLINE: msort.cc:71-99 -/
inductive Makes (job : Job) (fuel : ℕ) :
    ℕ → Control → FileSystem → List Byte → List Pass → FileSystem → Prop
  | done {j : ℕ} {c : Control} {fs : FileSystem} {buf : List Byte}
      (hdone : job.numRecords ≤ c.runLength) : Makes job fuel j c fs buf [] fs
  | pass {j : ℕ} {c : Control} {fs fs' fs'' : FileSystem} {buf buf' : List Byte} {ps : List Pass}
      (hlt : c.runLength < job.numRecords)
      (hrun : job.runPass fuel j c fs buf = some (fs', buf'))
      (hrest : Makes job fuel (j + 1) (c.next job.k) fs' buf' ps fs'') :
      Makes job fuel j c fs buf (c.pass job.outputFile job.k job.numRecords :: ps) fs''

section Loop

variable {job : Job} {fuel j : ℕ} {c₀ c : Control} {fs₀ fs fs' : FileSystem}
  {buf₀ buf buf' : List Byte}

/-- INTERNAL: what a pass that returns has done. -/
theorem runPass_eq_some (h : job.runPass fuel j c fs buf = some (fs', buf')) :
    0 < numRuns job.numRecords c.runLength ∧ ∃ result,
      mergeRuns fuel (job.session j c.runLength.toNat (numRuns job.numRecords c.runLength).toNat
        (job.runsFile c fs)) (numRuns job.numRecords c.runLength).toNat (File.open_ []) 0 buf
        job.bufSize = some result ∧ buf' = result.buf ∧
      fs (c.pass job.outputFile job.k job.numRecords).readFilename ≠ none ∧
      fs' = Function.update fs (c.pass job.outputFile job.k job.numRecords).writeFilename
        (some result.out.contents) := by
  unfold Job.runPass at h
  dsimp only at h
  split_ifs at h with hnone
  refine ⟨not_le.mp hnone, ?_⟩
  split at h
  · cases h
  · rename_i hread
    obtain ⟨result, hresult, heq⟩ := Option.map_eq_some_iff.mp h
    cases heq
    refine ⟨result, hresult, rfl, ?_, rfl⟩
    rw [hread]
    exact Option.some_ne_none _

/-- INTERNAL: a pass whose merge returns. -/
theorem runPass_of_mergeRuns {result : Merging}
    (hruns : 0 < numRuns job.numRecords c.runLength)
    (hread : fs (c.pass job.outputFile job.k job.numRecords).readFilename ≠ none)
    (hmerge : mergeRuns fuel (job.session j c.runLength.toNat
      (numRuns job.numRecords c.runLength).toNat (job.runsFile c fs))
      (numRuns job.numRecords c.runLength).toNat (File.open_ []) 0 buf job.bufSize = some result) :
    job.runPass fuel j c fs buf =
      some (Function.update fs (c.pass job.outputFile job.k job.numRecords).writeFilename
        (some result.out.contents), result.buf) := by
  obtain ⟨contents, hread⟩ := Option.ne_none_iff_exists'.mp hread
  unfold Job.runPass
  dsimp only
  rw [if_neg (show ¬ (c.pass job.outputFile job.k job.numRecords).numRuns ≤ 0 from
    not_le.mpr hruns), hread]
  dsimp only
  exact congrArg (Option.map _) hmerge

/-- INTERNAL: more fuel does not change what a pass does. -/
theorem runPass_mono {fuel' : ℕ} (hle : fuel ≤ fuel')
    (h : job.runPass fuel j c fs buf = some (fs', buf')) :
    job.runPass fuel' j c fs buf = some (fs', buf') := by
  obtain ⟨hruns, result, hresult, rfl, hread, rfl⟩ := runPass_eq_some h
  exact runPass_of_mergeRuns hruns hread (mergeRuns_mono hle hresult)

/-- INTERNAL: fuel only decides whether the loop returns. -/
theorem mergePasses_mono {fuel' rounds rounds' : ℕ} (hle : fuel ≤ fuel')
    (hrounds : rounds ≤ rounds')
    (h : job.mergePasses fuel rounds j c fs buf = some fs') :
    job.mergePasses fuel' rounds' j c fs buf = some fs' := by
  induction rounds generalizing rounds' j c fs buf with
  | zero => cases h
  | succ rounds ih =>
    obtain ⟨rounds', rfl⟩ : ∃ m, rounds' = m + 1 := ⟨rounds' - 1, by omega⟩
    unfold Job.mergePasses at h ⊢
    split_ifs at h ⊢ with hlt
    · cases hrun : job.runPass fuel j c fs buf with
      | none =>
        rw [hrun] at h
        cases h
      | some next =>
        rw [hrun] at h
        rw [runPass_mono hle hrun]
        exact ih (by omega) h
    · exact h

/-- INTERNAL: more fuel does not change the states the loop comes to. -/
theorem Reaches.mono {fuel' : ℕ} (hle : fuel ≤ fuel')
    (h : Reaches job fuel c₀ fs₀ buf₀ j c fs buf) : Reaches job fuel' c₀ fs₀ buf₀ j c fs buf := by
  induction h with
  | start => exact .start
  | pass _ hlt hrun ih => exact ih.pass hlt (runPass_mono hle hrun)

/-- INTERNAL: a loop that returns ends in a state it has come to.
SRCLINE: msort.cc:71 -/
theorem Reaches.of_mergePasses {rounds : ℕ} (hreach : Reaches job fuel c₀ fs₀ buf₀ j c fs buf)
    (h : job.mergePasses fuel rounds j c fs buf = some fs') :
    ∃ j' c' buf', Reaches job fuel c₀ fs₀ buf₀ j' c' fs' buf' ∧ job.numRecords ≤ c'.runLength := by
  induction rounds generalizing j c fs buf with
  | zero => cases h
  | succ rounds ih =>
    unfold Job.mergePasses at h
    split_ifs at h with hlt
    · cases hrun : job.runPass fuel j c fs buf with
      | none =>
        rw [hrun] at h
        cases h
      | some next =>
        rw [hrun] at h
        exact ih (hreach.pass hlt hrun) h
    · cases h
      exact ⟨j, c, buf, hreach, not_lt.mp hlt⟩

/-- INTERNAL: **a loop that returns has made its passes.**
SRCLINE: msort.cc:71-99 -/
theorem mergePasses_eq_some_iff {rounds : ℕ} :
    job.mergePasses fuel rounds j c fs buf = some fs' ↔
      ∃ ps, ps.length < rounds ∧ Makes job fuel j c fs buf ps fs' := by
  induction rounds generalizing j c fs buf with
  | zero => simp [Job.mergePasses]
  | succ rounds ih =>
    unfold Job.mergePasses
    constructor
    · intro h
      split_ifs at h with hlt
      · cases hrun : job.runPass fuel j c fs buf with
        | none =>
          rw [hrun] at h
          cases h
        | some next =>
          rw [hrun] at h
          obtain ⟨ps, hlen, hmakes⟩ := ih.mp h
          refine ⟨c.pass job.outputFile job.k job.numRecords :: ps, ?_, .pass hlt hrun hmakes⟩
          exact Nat.succ_lt_succ hlen
      · cases h
        exact ⟨[], Nat.succ_pos _, .done (not_lt.mp hlt)⟩
    · rintro ⟨ps, hlen, hmakes⟩
      cases hmakes with
      | done hdone => rw [if_neg (not_lt.mpr hdone)]
      | pass hlt hrun hrest =>
        rw [if_pos hlt, hrun]
        exact ih.mpr ⟨_, Nat.lt_of_succ_lt_succ hlen, hrest⟩

/-- INTERNAL: **the passes made are those of the list**, as far as the fuel of the list reaches. -/
theorem Makes.eq_passes {ps : List Pass} (h : Makes job fuel j c fs buf ps fs') {rounds : ℕ}
    (hrounds : ps.length ≤ rounds) : ps = passes job.outputFile job.k job.numRecords rounds c := by
  induction h generalizing rounds with
  | done hdone => exact (passes_eq_nil hdone).symm
  | @pass j c fs fs' fs'' buf buf' ps hlt hrun hrest ih =>
    obtain ⟨rounds, rfl⟩ : ∃ m, rounds = m + 1 :=
      ⟨rounds - 1, by rw [List.length_cons] at hrounds; omega⟩
    rw [passes_eq_cons hlt, ← ih (Nat.le_of_succ_le_succ hrounds)]

end Loop

/-! ## The passes return -/

/-- The merges of a job return: sizes fit an `int`, the comparator reads no byte outside of a
record, and the buffers have a byte, or memory is clear.
SRCLINE: msort.cc:69, library.cc:176-193, library.cc:221 -/
structure Ready (job : Job) : Prop where
  buf_lt : job.bufSize < 2 ^ 31
  size_pos : 0 < job.schema.recordSize
  size_lt : job.schema.recordSize < 2 ^ 31
  inside : Inside job.schema
  room : 1 ≤ job.bufSize ∨ ∀ j i, job.env.heap j i 0 = 0

/-- INTERNAL: the scratch file a value of `flip` names. -/
def scratch (flip : Bool) : String := if flip then "tmp_file2" else "tmp_file"

section Returns

variable {job : Job} {fuel j : ℕ} {c : Control} {fs fs' : FileSystem} {buf buf' : List Byte}

/-- INTERNAL: a pass that does not take the output writes the other scratch file. -/
theorem writeFilename_eq_scratch (h : ¬ TakesOutput job.k job.numRecords c.runLength) :
    (c.pass job.outputFile job.k job.numRecords).writeFilename = scratch (!c.flip) := by
  rw [writeFilename_pass, if_neg h]
  cases c.flip <;> rfl

/-- INTERNAL: a pass that takes the output writes it. -/
theorem writeFilename_eq_outputFile (h : TakesOutput job.k job.numRecords c.runLength) :
    (c.pass job.outputFile job.k job.numRecords).writeFilename = job.outputFile := by
  rw [writeFilename_pass, if_pos h]

/-- INTERNAL: every iterator works, or delivers nothing. -/
theorem Ready.starved_or_works (h : Ready job) {R : ℕ} (hR : 1 ≤ R) (j i : ℕ) :
    Starved (job.runArgs j R i) ∨ Works (job.runArgs j R i) := by
  rcases le_or_gt job.schema.recordSize job.bufSize with hroom | hsmall
  · exact Or.inr (works_runArgs h.buf_lt h.size_pos hroom hR i)
  · exact Or.inl (starved_runArgs h.buf_lt hsmall (h.room.imp_right fun hclear => hclear j i))

/-- INTERNAL: without room for a record nothing is delivered. -/
theorem Ready.passStreams_eq_nil (h : Ready job) (hsmall : job.bufSize < job.schema.recordSize)
    (j R : ℕ) (contents : List Byte) (i : ℕ) : passStreams job j R contents i = [] :=
  stream_of_starved _ (starved_runArgs h.buf_lt hsmall (h.room.imp_right fun hclear => hclear j i))

/-- INTERNAL: there is room for a record, or nothing to merge. -/
theorem Ready.room_or_nothing (h : Ready job) (j R m : ℕ) (contents : List Byte) :
    job.schema.recordSize ≤ job.bufSize ∨ pooled m (passStreams job j R contents) = [] := by
  rcases le_or_gt job.schema.recordSize job.bufSize with hroom | hsmall
  · exact Or.inl hroom
  · exact Or.inr (pooled_eq_nil.mpr fun i _ => h.passStreams_eq_nil hsmall j R contents i)

/-- INTERNAL: a pass that finds its file returns.
SRCLINE: msort.cc:72-95 -/
theorem Ready.runPass_returns (h : Ready job) (j : ℕ) (hR : 1 ≤ c.runLength)
    (hruns : 0 < numRuns job.numRecords c.runLength) (hread : fs (scratch c.flip) ≠ none)
    (hlen : job.bufSize ≤ buf.length) :
    ∃ fuel fs' buf', job.runPass fuel j c fs buf = some (fs', buf') := by
  have hpos : 1 ≤ c.runLength.toNat := by omega
  obtain ⟨result, _, _, hreturns, -⟩ := session_merges h.buf_lt h.size_pos h.size_lt h.inside
    (Int.pos_iff_toNat_pos.mp hruns) (fun i _ => h.starved_or_works hpos j i)
    (h.room_or_nothing j _ _ (job.runsFile c fs)) hlen
  exact ⟨_, _, _, runPass_of_mergeRuns hruns hread (hreturns _ (Nat.lt_succ_self _))⟩

/-- INTERNAL: what a pass has drawn from the file it read is in the file it wrote.
SRCLINE: msort.cc:72-95 -/
theorem Ready.runPass_draws (h : Ready job) (hR : 1 ≤ c.runLength)
    (hlen : job.bufSize ≤ buf.length) (hrun : job.runPass fuel j c fs buf = some (fs', buf')) :
    ∃ written rest, Draws (recordLe job.schema) (numRuns job.numRecords c.runLength).toNat
        (passStreams job j c.runLength.toNat (job.runsFile c fs)) written rest ∧
      pooled (numRuns job.numRecords c.runLength).toNat rest = [] ∧
      fs' = Function.update fs (c.pass job.outputFile job.k job.numRecords).writeFilename
        (some written.flatten) ∧ buf'.length = buf.length := by
  have hpos : 1 ≤ c.runLength.toNat := by omega
  obtain ⟨hruns, result, hresult, rfl, -, rfl⟩ := runPass_eq_some hrun
  obtain ⟨result', written, rest, hreturns, hdraws, hnone, hout, hsame⟩ :=
    session_merges h.buf_lt h.size_pos h.size_lt h.inside (Int.pos_iff_toNat_pos.mp hruns)
      (fun i _ => h.starved_or_works hpos j i) (h.room_or_nothing j _ _ (job.runsFile c fs)) hlen
  obtain rfl := mergeRuns_unique hresult (hreturns _ (Nat.lt_succ_self _))
  exact ⟨written, rest, hdraws, hnone, by rw [hout], hsame⟩

/-- INTERNAL: writing a file removes none. -/
theorem update_some_ne_none {name name' : String} {x : List Byte} (h : fs name ≠ none) :
    Function.update fs name' (some x) name ≠ none := by
  rw [Function.update_apply]
  split_ifs
  · exact Option.some_ne_none x
  · exact h

/-- INTERNAL: **the loop returns** if its first pass finds the file it reads and leaves one
for the second.  From then on both scratch files are there.
SRCLINE: msort.cc:71-99 -/
theorem Ready.mergePasses_returns (h : Ready job) (hk : 2 ≤ job.k) (j : ℕ) (hR : 1 ≤ c.runLength)
    (hlen : job.bufSize ≤ buf.length)
    (hruns : ∀ i : ℕ, c.runLength * job.k ^ i < job.numRecords →
      0 < numRuns job.numRecords (c.runLength * job.k ^ i))
    (hread : fs (scratch c.flip) ≠ none)
    (hother : c.runLength * job.k < job.numRecords → fs (scratch (!c.flip)) ≠ none ∨
      (c.pass job.outputFile job.k job.numRecords).writeFilename = scratch (!c.flip)) :
    ∃ fuel fs', job.mergePasses fuel fuel j c fs buf = some fs' := by
  induction hleft : (job.numRecords - c.runLength).toNat using Nat.strong_induction_on
    generalizing j c fs buf with
  | _ left ih =>
    by_cases hlt : c.runLength < job.numRecords
    · obtain ⟨fuel₁, fs₁, buf₁, hrun⟩ := h.runPass_returns j hR (by simpa using hruns 0 (by simpa))
        hread hlen
      obtain ⟨written, rest, -, -, hfs₁, hlen₁⟩ := h.runPass_draws hR hlen hrun
      obtain ⟨hless, hnext⟩ := sub_next_lt job.numRecords hk hR
      have hflip : scratch (!(c.next job.k).flip) = scratch c.flip := by
        simp only [Control.next, Bool.not_not]
      have hread₁ : fs₁ (scratch c.flip) ≠ none := hfs₁ ▸ update_some_ne_none hread
      have hdone : (c.next job.k).runLength < job.numRecords →
          fs₁ (scratch (c.next job.k).flip) ≠ none := by
        intro hmore
        cases hother hmore with
        | inl hthere => exact hfs₁ ▸ update_some_ne_none hthere
        | inr hwrites =>
          rw [hfs₁, show scratch (c.next job.k).flip = _ from hwrites.symm, Function.update_self]
          exact Option.some_ne_none _
      have hrest : ∃ fuel fs', job.mergePasses fuel fuel (j + 1) (c.next job.k) fs₁ buf₁ =
          some fs' := by
        by_cases hmore : (c.next job.k).runLength < job.numRecords
        · apply ih _ (by omega) (j + 1) hnext (by omega) _ (hdone hmore)
            (fun _ => Or.inl (by rw [hflip]; exact hread₁)) rfl
          intro i hi
          rw [next_mul_pow] at hi ⊢
          exact hruns (i + 1) hi
        · exact ⟨1, fs₁, if_neg hmore⟩
      obtain ⟨fuel₂, fs₂, hrest⟩ := hrest
      refine ⟨max fuel₁ fuel₂ + 1, fs₂, ?_⟩
      unfold Job.mergePasses
      rw [if_pos hlt, runPass_mono (show fuel₁ ≤ max fuel₁ fuel₂ + 1 by omega) hrun]
      exact mergePasses_mono (by omega) (by omega) hrest
    · exact ⟨1, fs, if_neg hlt⟩

end Returns

/-! ## What the passes hand on -/

/-- INTERNAL: the output file has a name of its own, and the test for it comes out true on
the last pass and on no other.
SRCLINE: msort.cc:79-83 -/
structure Routed (job : Job) (L : ℤ) : Prop where
  out_ne : job.outputFile ≠ "tmp_file"
  out_ne_two : job.outputFile ≠ "tmp_file2"
  test : ∀ j : ℕ, L * job.k ^ j < job.numRecords →
    (TakesOutput job.k job.numRecords (L * job.k ^ j) ↔ job.numRecords ≤ L * job.k ^ (j + 1))

/-- INTERNAL: the file the records are in: the one the next pass reads, or the output. -/
def currentFile (job : Job) (c : Control) : String :=
  if c.runLength < job.numRecords then scratch c.flip else job.outputFile

section Data

variable {job : Job} {fuel j : ℕ} {L : ℤ} {c : Control} {fs₀ fs fs' : FileSystem}
  {buf₀ buf buf' : List Byte}

/-- INTERNAL: an output file with a name of its own is no scratch file. -/
theorem outputFile_ne_scratch (h1 : job.outputFile ≠ "tmp_file")
    (h2 : job.outputFile ≠ "tmp_file2") (flip : Bool) : job.outputFile ≠ scratch flip := by
  cases flip
  · exact h1
  · exact h2

/-- INTERNAL: there are two scratch files. -/
theorem scratch_ne_not (flip : Bool) : scratch flip ≠ scratch (!flip) := by
  cases flip <;> decide

/-- INTERNAL: pass `j` is over runs of `k ^ j` times the first run length. -/
theorem Reaches.runLength_eq {flip : Bool}
    (h : Reaches job fuel ⟨L, flip⟩ fs₀ buf₀ j c fs buf) : c.runLength = L * job.k ^ j := by
  induction h with
  | start => simp
  | pass _ _ _ ih => rw [Control.next, ih, pow_succ, mul_assoc]

/-- INTERNAL: a pass that is routed well reads the file the records are in and leaves
them in the file the next pass reads, or in the output. -/
theorem Routed.pass_files (h : Routed job L) (hR : c.runLength = L * job.k ^ j)
    (hlt : c.runLength < job.numRecords) :
    scratch c.flip ≠ (c.pass job.outputFile job.k job.numRecords).writeFilename ∧
      (c.pass job.outputFile job.k job.numRecords).writeFilename =
        currentFile job (c.next job.k) := by
  have htest := h.test j (hR ▸ hlt)
  rw [pow_succ, ← mul_assoc, ← hR] at htest
  by_cases htake : TakesOutput job.k job.numRecords c.runLength
  · rw [writeFilename_eq_outputFile htake, currentFile,
      if_neg (show ¬ (c.next job.k).runLength < job.numRecords from not_lt.mpr (htest.mp htake))]
    exact ⟨(outputFile_ne_scratch h.out_ne h.out_ne_two _).symm, rfl⟩
  · have hmore : c.runLength * job.k < job.numRecords :=
      not_le.mp fun hle => htake (htest.mpr hle)
    rw [writeFilename_eq_scratch htake, currentFile,
      if_pos (show (c.next job.k).runLength < job.numRecords from hmore)]
    exact ⟨scratch_ne_not _, rfl⟩

/-- INTERNAL: **following the records.**  If the passes are routed well, a property `Q` of
the records before pass `j` that every merge keeps holds of the records in the file the
loop has got to.  The induction is over the passes made.
SRCLINE: msort.cc:71-99 -/
theorem Reaches.data (hjob : Ready job) (hk : 2 ≤ job.k) (hL : 1 ≤ L) (hroute : Routed job L)
    (Q : ℕ → List Record → Prop)
    (hQ : ∀ j data written rest, Q j data → L * job.k ^ j < job.numRecords →
      Draws (recordLe job.schema) (numRuns job.numRecords (L * job.k ^ j)).toNat
        (passStreams job j (L * job.k ^ j).toNat data.flatten) written rest →
      pooled (numRuns job.numRecords (L * job.k ^ j)).toNat rest = [] → Q (j + 1) written)
    (hlen : job.bufSize ≤ buf₀.length) {data₀ : List Record}
    (hstart : fs₀ "tmp_file" = some data₀.flatten) (hlt : L < job.numRecords) (hQ₀ : Q 0 data₀)
    (h : Reaches job fuel ⟨L, false⟩ fs₀ buf₀ j c fs buf) :
    job.bufSize ≤ buf.length ∧ ∃ data, fs (currentFile job c) = some data.flatten ∧ Q j data := by
  induction h with
  | start => exact ⟨hlen, data₀, by rw [currentFile, if_pos hlt]; exact hstart, hQ₀⟩
  | @pass j c fs fs' buf buf' hreach hmore hrun ih =>
    obtain ⟨hbuf, data, hdata, hQj⟩ := ih
    have hR := hreach.runLength_eq
    have hpos : 1 ≤ c.runLength := by
      have hpow : 1 ≤ job.k ^ j := one_le_pow₀ (by omega)
      rw [hR]
      exact one_le_mul_of_one_le_of_one_le hL hpow
    obtain ⟨hapart, hwrite⟩ := hroute.pass_files hR hmore
    obtain ⟨written, rest, hdraws, hnone, hfs', hlen'⟩ := hjob.runPass_draws hpos hbuf hrun
    rw [currentFile, if_pos hmore] at hdata
    have hfile : job.runsFile c fs = data.flatten := by
      refine (congrArg (Option.getD · []) (Function.update_of_ne hapart _ _)).trans ?_
      rw [hdata, Option.getD_some]
    refine ⟨by omega, written, ?_, ?_⟩
    · rw [hfs', hwrite, Function.update_self]
    · rw [hfile, hR] at hdraws
      rw [hR] at hnone hmore
      exact hQ j data written rest hQj hmore hdraws hnone

/-- INTERNAL: an output file no pass takes is left as it was. -/
theorem Reaches.output_unchanged (h1 : job.outputFile ≠ "tmp_file")
    (h2 : job.outputFile ≠ "tmp_file2")
    (hnone : ∀ j : ℕ, L * job.k ^ j < job.numRecords →
      ¬ TakesOutput job.k job.numRecords (L * job.k ^ j))
    (h : Reaches job fuel ⟨L, false⟩ fs₀ buf₀ j c fs buf) :
    fs job.outputFile = fs₀ job.outputFile := by
  induction h with
  | start => rfl
  | @pass j c fs fs' buf buf' hreach hmore hrun ih =>
    obtain ⟨-, result, -, -, -, rfl⟩ := runPass_eq_some hrun
    have hR := hreach.runLength_eq
    rw [hR] at hmore
    have hnot := hnone j hmore
    rw [← hR] at hnot
    rw [writeFilename_eq_scratch hnot, Function.update_of_ne (outputFile_ne_scratch h1 h2 _), ih]

/-- INTERNAL: a first pass that takes the output although it is not the last leaves no file
for the second to read, and the loop never gets to its end.
SRCLINE: msort.cc:79-86 -/
theorem Reaches.unfinished_of_missing (hk : 2 ≤ job.k) (hL : 1 ≤ L)
    (hmore : L * job.k < job.numRecords) (htake : TakesOutput job.k job.numRecords L)
    (hname : job.outputFile ≠ "tmp_file2") (hmissing : fs₀ "tmp_file2" = none)
    (h : Reaches job fuel ⟨L, false⟩ fs₀ buf₀ j c fs buf) : c.runLength < job.numRecords := by
  have hfirst : (j = 0 → c = ⟨L, false⟩ ∧ fs = fs₀) ∧
      (j = 1 → c = (⟨L, false⟩ : Control).next job.k ∧ fs "tmp_file2" = none) ∧ j ≤ 1 := by
    induction h with
    | start => simp
    | @pass j c fs fs' buf buf' _ _ hrun ih =>
      obtain ⟨-, result, -, -, hread, rfl⟩ := runPass_eq_some hrun
      obtain ⟨hzero, hone, hle⟩ := ih
      interval_cases j
      · obtain ⟨rfl, rfl⟩ := hzero rfl
        refine ⟨by omega, fun _ => ⟨rfl, ?_⟩, le_rfl⟩
        rw [writeFilename_eq_outputFile (c := ⟨L, false⟩) htake, Function.update_of_ne hname.symm,
          hmissing]
      · obtain ⟨rfl, hnofile⟩ := hone rfl
        exact absurd hnofile hread
  obtain ⟨hzero, hone, hle⟩ := hfirst
  interval_cases j
  · rw [(hzero rfl).1]
    nlinarith
  · rw [(hone rfl).1]
    exact hmore

end Data

end ExternalSort.Analysis
