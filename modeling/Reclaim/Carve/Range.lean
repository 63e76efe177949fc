import Reclaim.Carve.Claims
import Reclaim.Carve.Local
import Reclaim.Carve.TextRegions

/-!
# Scanning a range

A scan of a range looks for headers and text in the range.  A header that begins in the range may be
of a file that begins before it, if it is the first chunk that has it, and a validator may move the
start of a file back; nothing else is emitted that does not begin in the range.  What a scan of the
whole source finds in the range is found, or claimed by an earlier file, wherever both scans see the
same.
-/

namespace Reclaim

open FileBytes

/-- Where a header's anchor is, in a file that begins at `fs`. -/
def HeaderPat.anchorAt (h : HeaderPat) (fs : ℕ) : ℕ := fs + h.offset + h.anchorPos

namespace CarveEngine

variable (E : CarveEngine) (R : Reader) (a : ScanArgs)

/-- The validator of a signature has moved the start of a file found at `fs`. -/
def Moved (fs : ℕ) (cf : CarvedFile) : Prop :=
  ∃ sig ∈ E.sigs, ∃ v, sig.validator.bind E.validate = some v ∧
    ((v ⟨a.len, fs, min (a.len - fs) a.opts.maxFileSize, sig⟩).run R).startOverride = some cf.offset

/-- A file that begins before the range, with the anchor of one of its headers in the range. -/
def HeaderInRange (data : Bytes) (fs : ℕ) : Prop :=
  fs < a.scanStart ∧ ∃ h ∈ headerRefs E.sigs,
    a.scanStart ≤ h.2.anchorAt fs ∧ h.2.anchorAt fs + h.2.anchor.length ≤ a.scanEnd ∧
      slice data (h.2.anchorAt fs) h.2.anchor.length = h.2.anchor

/-- Every claim is the range of a full file that has been emitted. -/
def Backed (st : ScanState) : Prop :=
  ∀ r ∈ st.claims, ∃ q ∈ st.trace, q.2.validity = .full ∧ r = (q.2.offset, q.2.stop)

variable {E R a} {st : ScanState}

/-! ## What a scan has emitted -/

lemma mem_trace_foldl_visit {p : ℕ × CarvedFile} (l : List (ℕ × List ℕ)) (st : ScanState) :
    (p ∈ st.trace → p ∈ (l.foldl (E.visit R a) st).trace) ∧
      (p ∈ (l.foldl (E.visit R a) st).trace → p ∈ st.trace ∨
        ∃ c ∈ l, p.1 = c.1 ∧ (E.fileAt a c.1 c.2).run R = some p.2) := by
  induction l generalizing st with
  | nil => exact ⟨id, .inl⟩
  | cons c rest ih =>
    obtain ⟨hsub, hmem⟩ := ih (E.visit R a st c)
    rw [List.foldl_cons]
    refine ⟨fun hp => hsub (mem_trace_visit.2 (.inl hp)), fun hp => ?_⟩
    rcases hmem hp with hp | ⟨d, hd, hpd⟩
    · rcases mem_trace_visit.1 hp with hp | ⟨-, hpc⟩
      · exact .inl hp
      · exact .inr ⟨c, List.mem_cons_self, hpc⟩
    · exact .inr ⟨d, List.mem_cons_of_mem c hd, hpd⟩

/-- What is emitted was found at a candidate. -/
lemma mem_trace_start {p : ℕ × CarvedFile} {l : List (ℕ × List ℕ)}
    (hp : p ∈ (l.foldl (E.visit R a) .start).trace) :
    ∃ c ∈ l, p.1 = c.1 ∧ (E.fileAt a c.1 c.2).run R = some p.2 :=
  ((mem_trace_foldl_visit l .start).2 hp).resolve_left (List.not_mem_nil)

lemma backed_start : Backed .start := List.forall_mem_nil _

lemma Backed.visit (h : Backed st) (c : ℕ × List ℕ) : Backed (E.visit R a st c) := by
  cases hsup : suppressed st.claims c.1 with
  | true =>
    have hvisit : E.visit R a st c = st := if_pos hsup
    rwa [hvisit]
  | false =>
    cases hfile : (E.fileAt a c.1 c.2).run R with
    | none =>
      have hvisit : E.visit R a st c = st := by simp [CarveEngine.visit, hsup, hfile]
      rwa [hvisit]
    | some cf =>
      have hvisit : E.visit R a st c =
          ⟨st.trace ++ [(c.1, cf)], claimsAfter st.claims c.1 cf⟩ := by
        simp [CarveEngine.visit, hsup, hfile]
      rw [hvisit]
      intro r hr
      have hold : r ∈ st.claims → ∃ q ∈ st.trace ++ [(c.1, cf)], q.2.validity = .full ∧
          r = (q.2.offset, q.2.stop) := fun hr => by
        obtain ⟨q, hq, hqr⟩ := h r hr
        exact ⟨q, List.mem_append_left _ hq, hqr⟩
      have hr := mem_of_mem_pruneClaims hr
      split_ifs at hr with hclaim
      · rcases List.mem_append.1 hr with hr | hr
        · exact hold hr
        · exact ⟨(c.1, cf), List.mem_append_right _ (List.mem_singleton_self _), hclaim.1,
            List.mem_singleton.1 hr⟩
      · exact hold hr

lemma Backed.foldl (h : Backed st) (l : List (ℕ × List ℕ)) :
    Backed (l.foldl (E.visit R a) st) := by
  induction l generalizing st with
  | nil => exact h
  | cons c rest ih => exact ih (h.visit c)

/-- **A file at a candidate is emitted, or the candidate is inside a file claimed before.** -/
lemma emitted_or_inside {l : List (ℕ × List ℕ)} (hl : Ascending l) {c : ℕ × List ℕ} (hc : c ∈ l)
    {cf : CarvedFile} (hcf : (E.fileAt a c.1 c.2).run R = some cf) :
    (c.1, cf) ∈ (l.foldl (E.visit R a) .start).trace ∨
      ∃ q ∈ (l.foldl (E.visit R a) .start).trace,
        q.1 < c.1 ∧ q.2.validity = .full ∧ q.2.Inside c.1 := by
  obtain ⟨before, behind, rfl⟩ := List.append_of_mem hc
  have hbefore := (List.pairwise_append.1 hl).2.2
  rw [List.foldl_append, List.foldl_cons]
  set st := before.foldl (E.visit R a) .start with hst
  have hlater : ∀ {p}, p ∈ (E.visit R a st c).trace →
      p ∈ (behind.foldl (E.visit R a) (E.visit R a st c)).trace :=
    (mem_trace_foldl_visit behind _).1
  cases hsup : suppressed st.claims c.1 with
  | false => exact .inl (hlater (mem_trace_visit.2 (.inr ⟨hsup, rfl, hcf⟩)))
  | true =>
    obtain ⟨r, hr, hin⟩ := List.any_eq_true.1 hsup
    have hbacked : Backed st := backed_start.foldl before
    obtain ⟨q, hq, hfull, rfl⟩ := hbacked r hr
    rw [Bool.and_eq_true, decide_eq_true_eq, decide_eq_true_eq] at hin
    obtain ⟨d, hd, hqd, -⟩ := mem_trace_start hq
    exact .inr ⟨q, hlater (mem_trace_visit.2 (.inl hq)),
      hqd ▸ hbefore d hd c List.mem_cons_self, hfull, hin⟩

/-! ## Where a scan finds files -/

/-- A file begins at its candidate, or its validator has moved it. -/
lemma fileAt_moved {fs : ℕ} {cf : CarvedFile} {l : List ℕ}
    (hcf : (E.fileAt a fs l).run R = some cf) : cf.offset = fs ∨ E.Moved R a fs cf := by
  obtain ⟨i, -, sig, hsig, hone⟩ := fileAt_cases hcf
  unfold runOne at hone
  dsimp only at hone
  split at hone
  · exact absurd hone (by simp)
  · simp only [ReadProg.run_bind, ReadProg.run_ite, ReadProg.run_pure] at hone
    split at hone
    · exact absurd hone (by simp)
    · obtain rfl := Option.some.inj hone
      have hoffset : ∀ {fs verdict io}, (E.carved fs sig verdict io).offset =
          verdict.startOverride.getD fs := rfl
      unfold Moved
      rw [hoffset]
      unfold judge
      dsimp only
      cases hv : sig.validator.bind E.validate with
      | none =>
        rw [fallback_start]
        exact .inl rfl
      | some v =>
        dsimp only
        cases hs : ((v ⟨a.len, fs, min (a.len - fs) a.opts.maxFileSize, sig⟩).run
          R).startOverride with
        | none => exact .inl rfl
        | some s => exact .inr ⟨sig, List.mem_of_getElem? hsig, v, hv, hs⟩

/-- **Where the candidates of a scan are**: in the range, but for those with a header in it. -/
lemma candidate_place {data : Bytes} (hR : R.Reads data) {n pos : ℕ} (hpos : a.scanStart ≤ pos)
    {c : ℕ × List ℕ} (hc : c ∈ E.candidates R a n pos) :
    c.1 < a.scanEnd ∧ (a.scanStart ≤ c.1 ∨ E.HeaderInRange a data c.1) := by
  obtain ⟨k, -, hend, hc⟩ := mem_gather.1 hc
  set base := pos + k * E.chunk with hbase
  obtain ⟨hvs, hne⟩ := ((grouped_perOffset _).mem_iff c.1 c.2).1 hc
  rw [hvs, ne_eq, sigsAt_eq_nil_iff] at hne
  push Not at hne
  obtain ⟨p, hp, hkey⟩ := hne
  rw [← hkey]
  rcases List.mem_append.1 hp with hp | hp
  · obtain ⟨d, hd, hin⟩ := List.mem_filterMap.1 hp
    split_ifs at hin
    obtain rfl := Option.some.inj hin
    dsimp only
    obtain ⟨h, i, hh, hocc, hat, -⟩ := mem_scanBuffer.1 hd
    rw [window, ReadProg.run_bytes, hR, OccursAt, take_drop_slice] at hocc
    have hlen := congrArg List.length hocc
    rw [length_slice] at hlen
    have hanchor : minAnchorLen ≤ h.anchor.length := (mem_headerRefs.1 hh).1
    have htwo : minAnchorLen = 2 := rfl
    refine ⟨by omega, ?_⟩
    by_cases hstart : a.scanStart ≤ d.fileStart
    · exact .inl hstart
    · refine .inr ⟨not_le.1 hstart, _, hh, ?_⟩
      dsimp only [HeaderPat.anchorAt]
      rw [hat]
      exact ⟨by omega, by omega, hlen ▸ hocc⟩
  · obtain ⟨hle, -, hlt⟩ := mem_textProbes (by omega) (mem_textPass hp).1
    exact ⟨hlt, .inl (hpos.trans (le_trans (by omega) hle))⟩

/-- The candidates of a range that has been scanned. -/
lemma mem_candidates_iff {data : Bytes} (hR : R.Reads data) {n fs : ℕ} {vs : List ℕ}
    (hle : a.scanStart ≤ fs) : (fs, vs) ∈ E.candidates R a n a.scanStart ↔
      (fs < a.scanEnd ∧ fs < a.scanStart + n * E.chunk) ∧ vs = E.believed R a fs ∧ vs ≠ [] := by
  constructor
  · intro h
    obtain ⟨hlt, -⟩ := candidate_place hR le_rfl h
    obtain ⟨k, hk, -, hc⟩ := mem_gather.1 h
    have hin := mem_chunkCandidates hc
    dsimp only at hin
    have hbase : a.scanStart + k * E.chunk = E.chunkStart a fs :=
      chunkStart_eq (by omega) (by omega)
    rw [chunkCandidates, (grouped_perOffset _).mem_iff, hbase] at hc
    have hchunk : (k + 1) * E.chunk ≤ n * E.chunk := Nat.mul_le_mul_right _ hk
    rw [Nat.add_mul, Nat.one_mul] at hchunk
    exact ⟨⟨hlt, by omega⟩, hc⟩
  · rintro ⟨⟨hlt, hn⟩, hvs⟩
    have hin := chunkStart_le (E := E) hle
    refine mem_gather.2 ⟨(fs - a.scanStart) / E.chunk, ?_, lt_of_le_of_lt hin.1 hlt, ?_⟩
    · rw [Nat.div_lt_iff_lt_mul E.chunk_pos]
      omega
    · exact ((grouped_perOffset _).mem_iff fs vs).2 hvs

/-! ## The same candidate in two scans -/

lemma identifyBest_whole {len : ℕ} {opts : CarveOptions} {fs : ℕ} {aligned : Bool} (l : List ℕ)
    (seen : List String) (best : Option CarvedFile) :
    E.identifyBest len { opts with range := none } fs aligned l seen best =
      E.identifyBest len opts fs aligned l seen best := by
  induction l generalizing seen best with
  | nil => rfl
  | cons i rest ih =>
    rw [identifyBest, identifyBest]
    cases E.sigs[i]? with
    | none => exact ih seen best
    | some sig =>
      simp only [ih]
      rfl

/-- What is made of a candidate does not depend on the range. -/
lemma fileAt_whole (fs : ℕ) (l : List ℕ) : E.fileAt a.whole fs l = E.fileAt a fs l := by
  unfold fileAt identifyFrom ScanArgs.whole
  simp only [identifyBest_whole]
  rfl

/-- **What a scan of a range emits**: files that begin in the range, files with a header in it, and
files that a validator has moved; and all files that a scan of the whole source finds in the range,
unless they lie inside a file claimed before, wherever both scans see the same. -/
theorem scan_range {data : Bytes} (hac : E.automaton.Local) (hmove : E.MovesBack)
    (hR : R.Reads data) (hov : 511 ≤ E.overlap) (a : ScanArgs) :
    (∀ resumeFrom n, ∀ cf ∈ (E.scan a resumeFrom n).run R, cf.offset < a.scanEnd ∧
      (a.scanStart ≤ cf.offset ∨ ∃ fs, cf.offset ≤ fs ∧ fs < a.scanEnd ∧
        (E.Moved R a fs cf ∨ E.HeaderInRange a data fs))) ∧
    ∀ n m, a.scanEnd ≤ a.scanStart + n * E.chunk → ∀ p ∈ (E.scanned R a.whole m).trace,
      a.scanStart ≤ p.1 → p.1 < a.scanEnd → E.SeenAlike R a p.1 →
        p ∈ (E.scanned R a n).trace ∨ ∃ q ∈ (E.scanned R a n).trace,
          q.1 < p.1 ∧ q.2.validity = .full ∧ q.2.Inside p.1 := by
  constructor
  · intro resumeFrom n cf hcf
    rw [run_scan] at hcf
    obtain ⟨p, hp, rfl⟩ := List.mem_map.1 hcf
    obtain ⟨c, hc, hkey, hfile⟩ := mem_trace_start hp
    obtain ⟨hlt, hplace⟩ := candidate_place hR (le_max_right _ _) hc
    have hback := fileAt_offset_le hmove hfile
    refine ⟨by omega, ?_⟩
    by_cases hin : a.scanStart ≤ p.2.offset
    · exact .inl hin
    · refine .inr ⟨c.1, hback, hlt, ?_⟩
      rcases fileAt_moved hfile with hoffset | hmoved
      · exact .inr (hplace.resolve_left (by omega))
      · exact .inl hmoved
  · intro n m hn p hp hle hlt hseen
    obtain ⟨c, hc, hkey, hfile⟩ := mem_trace_start hp
    obtain ⟨-, hvs, hne⟩ := (mem_candidates_iff (a := a.whole) hR (Nat.zero_le c.1)).1 hc
    rw [← hkey] at hvs hfile
    have hsame := believed_whole hac hR hov hle hlt hseen
    have hmem : (p.1, c.2) ∈ E.candidates R a n a.scanStart :=
      (mem_candidates_iff hR hle).2 ⟨⟨hlt, hlt.trans_le hn⟩, hvs.trans hsame.symm, hne⟩
    rw [fileAt_whole] at hfile
    exact emitted_or_inside (ascending_candidates le_rfl) hmem hfile

variable (E R) in
/-- Everything that is emitted begins in the range. -/
def Confined (a : ScanArgs) (n : ℕ) : Prop :=
  ∀ cf ∈ (E.scan a 0 n).run R, a.scanStart ≤ cf.offset ∧ cf.offset < a.scanEnd

variable (E R) in
/-- All that `m` chunks of the whole source find in the range is found in the `n` chunks of it, or
lies inside a file claimed before. -/
def MissesNone (a : ScanArgs) (n m : ℕ) : Prop :=
  a.scanEnd ≤ a.scanStart + n * E.chunk → ∀ p ∈ (E.scanned R a.whole m).trace,
    a.scanStart ≤ p.1 → p.1 < a.scanEnd →
      p ∈ (E.scanned R a n).trace ∨ ∃ q ∈ (E.scanned R a n).trace,
        q.1 < p.1 ∧ q.2.validity = .full ∧ q.2.Inside p.1

end CarveEngine

/-! ## A header behind the start of its file -/

namespace FitHeader

/-- `geo.fit` of the catalog, which has no validator. -/
def sig : SigDef where
  id := "geo.fit"
  family := "geo"
  extensions := ["fit"]
  headers := [.exact 8 [0x2E, 0x46, 0x49, 0x54]]
  footer := none
  minSize := 0
  strategy := .headerSize
  validator := none
  blockAligned := true
  footerAnchored := false

/-- An engine that knows these files only. -/
def engine : CarveEngine where
  automaton := .naive
  sigs := [sig]
  validate _ := none
  looksLikeText _ := false
  chunk := carveChunk
  chunk_pos := carveChunk_pos

/-- Such a file. -/
def file : Bytes := [14, 16, 0, 0, 0, 0, 0, 0, 0x2E, 0x46, 0x49, 0x54]

/-- A scan of it from `x` to `y`. -/
def args (x y : ℕ) : ScanArgs :=
  ⟨12, 512, { CarveEngine.defaultOptions with range := some (x, y) }⟩

/-- What is computed of it: a scan from the middle on has one file, and so has a scan of the whole,
but not one up to the middle. -/
lemma computed :
    ((engine.scan (args 4 12) 0 1).run (memReader file)).map (·.offset) = [0] ∧
    ((engine.scanned (memReader file) (args 0 8).whole 1).trace.map Prod.fst = [0] ∧
      (engine.scanned (memReader file) (args 0 8) 1).trace = []) ∧
    (args 0 8).scanEnd ≤ (args 0 8).scanStart + 1 * engine.chunk := by
  decide

/-- From the middle on, it is emitted. -/
lemma not_confined : ¬ engine.Confined (memReader file) (args 4 12) 1 := by
  intro h
  obtain ⟨cf, hcf, hoffset⟩ := List.mem_map.1 (computed.1 ▸ List.mem_singleton_self 0)
  have hle := (h cf hcf).1
  rw [hoffset] at hle
  exact absurd hle (by decide)

/-- Up to the middle, it is not. -/
lemma not_missesNone : ¬ engine.MissesNone (memReader file) (args 0 8) 1 1 := by
  obtain ⟨-, ⟨hwhole, hrange⟩, hcover⟩ := computed
  intro h
  obtain ⟨p, hp, hstart⟩ := List.mem_map.1 (hwhole ▸ List.mem_singleton_self 0)
  have hin : (args 0 8).scanStart ≤ p.1 ∧ p.1 < (args 0 8).scanEnd := by
    rw [hstart]
    decide
  have hfound := h hcover p hp hin.1 hin.2
  rw [hrange] at hfound
  simp at hfound

end FitHeader

/-! ## A trailer of an image that begins before -/

namespace DmgTrailer

/-- An image of one sector and its trailer. -/
def image : Bytes :=
  List.replicate 512 0 ++ (magic ++ List.replicate 26 0 ++ [2, 0] ++ List.replicate 480 0)

/-- A scan of the trailer. -/
def trailerArgs : ScanArgs :=
  ⟨1024, 512, { CarveEngine.defaultOptions with range := some (512, 1024) }⟩

/-- The image is emitted, which begins before the range. -/
lemma not_confined : ¬ engine.Confined (memReader image) trailerArgs 1 := by
  have hscan : ((engine.scan trailerArgs 0 1).run (memReader image)).map (·.offset) = [0] := by
    rw [memReader_eq]
    simp only [engine, Automaton.naive, occurrences_eq]
    decide +kernel
  intro h
  obtain ⟨cf, hcf, hoffset⟩ := List.mem_map.1 (hscan ▸ List.mem_singleton_self 0)
  have hle := (h cf hcf).1
  rw [hoffset] at hle
  exact absurd hle (by decide)

end DmgTrailer

/-! ## Text that a chunk begins with -/

namespace PlainText

open CarveEngine

lemma movesBack : engine.MovesBack := by
  intro name v hv R ctx s hs
  have hv : (if name = "text" then some validate else none) = some v := hv
  split at hv
  · obtain rfl := Option.some.inj hv
    rw [validate_start] at hs
    exact absurd hs (by simp)
  · exact absurd hv (by simp)

/-- A scan of the source whose text crosses the end of the first chunk, without its first block. -/
def behindArgs : ScanArgs :=
  ⟨lateLen, 512, { CarveEngine.defaultOptions with
    sigIds := ["doc.txt"], range := some (512, lateLen) }⟩

lemma behindArgs_whole : behindArgs.whole = lateArgs := rfl

lemma scanStart_behind : behindArgs.scanStart = 512 := min_eq_left (Nat.le_add_left 512 carveChunk)

lemma scanEnd_behind : behindArgs.scanEnd = lateLen := min_self _

lemma textAt_behind (b : ℕ) :
    engine.textAt lateReader behindArgs b = engine.textAt lateReader lateArgs b :=
  textAt_whole (.inr scanEnd_behind)

/-- In its chunk text begins once. -/
lemma candidates_behind {c : ℕ × List ℕ}
    (hc : c ∈ engine.candidates lateReader behindArgs 1 behindArgs.scanStart) :
    c = (carveChunk - 512, [1]) := by
  have hcarve : carveChunk = 8388608 := rfl
  obtain ⟨k, hk, -, hc⟩ := mem_gather.1 hc
  obtain rfl : k = 0 := by omega
  obtain ⟨hvs, hne⟩ := ((grouped_perOffset _).mem_iff c.1 c.2).1 hc
  rw [collected, anchorHits_late, List.nil_append] at hvs
  have hprobe : c.1 ∈ engine.textProbes (behindArgs.scanStart + 0 * engine.chunk)
      (textBlock behindArgs) behindArgs.scanEnd := by
    by_contra hno
    rw [sigsAt_textPass, if_neg fun h => hno h.1] at hvs
    exact hne hvs
  obtain ⟨-, hle, hlt, -⟩ := (mem_textProbes_iff textBlock_pos).1 hprobe
  have hblock : textBlock behindArgs = 512 := textBlock_late
  have hsig : engine.textSig behindArgs = some 1 := textSig_late
  have htext := hvs.trans (sigsAt_text_chunk lateReader_reads engine_overlap hle hlt)
  rw [hblock, hsig, scanEnd_behind, textAt_behind, textAt_behind] at htext
  split at htext
  · rename_i hstart
    obtain ⟨⟨hdvd, hend⟩, hat, hbefore⟩ := hstart
    refine Prod.ext (((textAt_late hdvd hend).1 hat).resolve_right fun heq => ?_) htext
    -- the chunk has the block before, and that is text
    have hprev := (textAt_late (b := carveChunk - 512) (by omega) (by omega)).2 (.inl rfl)
    rw [scanStart_behind, heq, hprev] at hbefore
    exact absurd (hbefore (by decide)) (by simp)
  · exact absurd htext hne

/-- It is not found at the end of the first chunk, where the scan of the whole source begins it
once more. -/
lemma not_missesNone : ¬ engine.MissesNone lateReader behindArgs 1 2 := by
  intro h
  obtain ⟨p, hp, -, hpeq⟩ := late_mem_textRegions
  have hstart : carveChunk = p.1 := congrArg Prod.fst hpeq
  have hscanned : ∀ q ∈ (engine.scanned lateReader behindArgs 1).trace,
      q = (carveChunk - 512, lateFile (carveChunk - 512) 1024) := by
    intro q hq
    obtain ⟨c, hc, hkey, hfile⟩ := mem_trace_start hq
    rw [candidates_behind hc, ← fileAt_whole, behindArgs_whole, fileAt_late.1] at hfile
    rw [candidates_behind hc] at hkey
    exact Prod.ext hkey (Option.some.inj hfile).symm
  have hcover : behindArgs.scanEnd ≤ behindArgs.scanStart + 1 * engine.chunk := by
    rw [scanEnd_behind, scanStart_behind]
    decide
  have hin : behindArgs.scanStart ≤ p.1 ∧ p.1 < behindArgs.scanEnd := by
    rw [scanEnd_behind, scanStart_behind, ← hstart]
    decide
  rcases h hcover p hp hin.1 hin.2 with hfound | ⟨q, hq, -, hfull, -⟩
  · have hkey := congrArg Prod.fst (hscanned p hfound)
    rw [← hstart] at hkey
    exact absurd hkey (by decide)
  · rw [hscanned q hq] at hfull
    exact absurd hfull (by simp [lateFile])

end PlainText

namespace CarveEngine

open PlainText

/-- The rule, for the scan of that text. -/
theorem scan_range_behind :
    (∀ resumeFrom n, ∀ cf ∈ (PlainText.engine.scan behindArgs resumeFrom n).run lateReader,
      cf.offset < behindArgs.scanEnd ∧ (behindArgs.scanStart ≤ cf.offset ∨
        ∃ fs, cf.offset ≤ fs ∧ fs < behindArgs.scanEnd ∧
          (PlainText.engine.Moved lateReader behindArgs fs cf ∨
            PlainText.engine.HeaderInRange behindArgs ((List.range lateLen).map lateByte) fs))) ∧
    ∀ n m, behindArgs.scanEnd ≤ behindArgs.scanStart + n * PlainText.engine.chunk →
      ∀ p ∈ (PlainText.engine.scanned lateReader behindArgs.whole m).trace,
        behindArgs.scanStart ≤ p.1 → p.1 < behindArgs.scanEnd →
          PlainText.engine.SeenAlike lateReader behindArgs p.1 →
            p ∈ (PlainText.engine.scanned lateReader behindArgs n).trace ∨
              ∃ q ∈ (PlainText.engine.scanned lateReader behindArgs n).trace,
                q.1 < p.1 ∧ q.2.validity = .full ∧ q.2.Inside p.1 :=
  scan_range Automaton.local_naive PlainText.movesBack lateReader_reads engine_overlap behindArgs

/-- A range may have more than what begins in it, and less: a header or a trailer in it is of a file
that begins before; a header is cut by its end; text is begun at the chunks of the whole source. -/
theorem scan_range_counterexample :
    ¬ FitHeader.engine.Confined (memReader FitHeader.file) (FitHeader.args 4 12) 1 ∧
    ¬ DmgTrailer.engine.Confined (memReader DmgTrailer.image) DmgTrailer.trailerArgs 1 ∧
    ¬ FitHeader.engine.MissesNone (memReader FitHeader.file) (FitHeader.args 0 8) 1 1 ∧
    ¬ PlainText.engine.MissesNone lateReader behindArgs 1 2 :=
  ⟨FitHeader.not_confined, DmgTrailer.not_confined, FitHeader.not_missesNone,
    PlainText.not_missesNone⟩

end CarveEngine

end Reclaim
