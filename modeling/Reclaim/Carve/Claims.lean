import Reclaim.Carve.Bounded
import Reclaim.Carve.Scan

/-!
# Claimed ranges

A file carved in full claims its range, and a candidate strictly inside a claimed range is passed
over.  The list of claims is pruned to what ends behind the candidate and to the last 64, which
loses nothing: as long as a claim is alive no other is made.  What is tested is the candidate,
though, and a file that begins before its candidate can begin inside a file that was emitted long
ago.
-/

namespace Reclaim

open FileBytes

/-- The position is strictly inside the file. -/
def CarvedFile.Inside (cf : CarvedFile) (x : ℕ) : Prop := cf.offset < x ∧ x < cf.stop

/-- No file begins strictly inside a full one that comes before it. -/
def NoneInside (files : List CarvedFile) : Prop :=
  files.Pairwise fun x y => x.validity = .full → ¬ x.Inside y.offset

namespace CarveEngine

/-- The validators move the start of a file back, if at all. -/
def MovesBack (E : CarveEngine) : Prop :=
  ∀ name v, E.validate name = some v → ∀ R ctx s,
    ((v ctx).run R).startOverride = some s → s ≤ ctx.fileStart

/-- At every candidate that the scan looks at: a file found there that begins before it does not
begin strictly inside a full file emitted earlier. -/
def MovedClear (E : CarveEngine) (R : Reader) (a : ScanArgs) :
    ScanState → List (ℕ × List ℕ) → Prop
  | _, [] => True
  | st, c :: rest =>
    (suppressed st.claims c.1 = false → ∀ cf, (E.fileAt a c.1 c.2).run R = some cf →
      cf.offset < c.1 → ∀ x ∈ st.files, x.validity = .full → ¬ x.Inside cf.offset) ∧
    MovedClear E R a (E.visit R a st c) rest

/-- The claims and the files of a scan whose candidates to come are at `bound` or behind: every
claim begins before, and every full file has ended or is claimed. -/
structure Tracked (st : ScanState) (bound : ℕ) : Prop where
  claims_lt : ∀ r ∈ st.claims, r.1 < bound
  claimed : ∀ x ∈ st.files, x.validity = .full → x.stop ≤ bound ∨ (x.offset, x.stop) ∈ st.claims

variable {E : CarveEngine} {R : Reader} {a : ScanArgs} {st : ScanState} {bound fs : ℕ}
  {cf : CarvedFile}

lemma tracked_start : Tracked .start 0 :=
  ⟨List.forall_mem_nil _, List.forall_mem_nil _⟩

lemma Tracked.mono (h : Tracked st bound) {bound' : ℕ} (hle : bound ≤ bound') :
    Tracked st bound' :=
  ⟨fun r hr => (h.claims_lt r hr).trans_le hle,
    fun x hx hfull => (h.claimed x hx hfull).imp_left fun hstop => hstop.trans hle⟩

lemma not_suppressed_iff {claims : Claims} :
    suppressed claims fs = false ↔ ∀ r ∈ claims, r.1 < fs → r.2 ≤ fs := by
  rw [suppressed, List.any_eq_false]
  apply forall₂_congr
  intro r _
  rw [Bool.and_eq_true, decide_eq_true_eq, decide_eq_true_eq, not_and, not_lt]

/-- Where a candidate is looked at, all claims have ended. -/
lemma Tracked.claims_le (h : Tracked st bound) (hfs : bound ≤ fs)
    (hsup : suppressed st.claims fs = false) : ∀ r ∈ st.claims, r.2 ≤ fs := fun r hr =>
  not_suppressed_iff.1 hsup r hr ((h.claims_lt r hr).trans_le hfs)

/-- And so have all full files. -/
lemma Tracked.stop_le (h : Tracked st bound) (hfs : bound ≤ fs)
    (hsup : suppressed st.claims fs = false) {x : CarvedFile} (hx : x ∈ st.files)
    (hfull : x.validity = .full) : x.stop ≤ fs := by
  rcases h.claimed x hx hfull with hstop | hmem
  · exact hstop.trans hfs
  · exact h.claims_le hfs hsup _ hmem

/-- Pruning keeps a claim that is still alive, if all others have ended. -/
lemma mem_pruneClaims {claims : Claims} {r : ℕ × ℕ} (hended : ∀ r ∈ claims, r.2 ≤ fs)
    (halive : fs < r.2) : pruneClaims (claims ++ [r]) fs = [r] := by
  have hkept : (claims ++ [r]).filter (fun c => decide (fs < c.2)) = [r] := by
    rw [List.filter_append, List.filter_eq_nil_iff.2 fun c hc => by simpa using hended c hc]
    simpa using halive
  rw [pruneClaims, hkept]
  rfl

lemma mem_of_mem_pruneClaims {claims : Claims} {r : ℕ × ℕ} (h : r ∈ pruneClaims claims fs) :
    r ∈ claims := (List.mem_filter.1 (List.mem_of_mem_drop h)).1

/-- **What an emission keeps.** -/
lemma Tracked.emit (h : Tracked st bound) (hfs : bound ≤ fs)
    (hsup : suppressed st.claims fs = false) (hback : cf.offset ≤ fs) :
    Tracked ⟨st.trace ++ [(fs, cf)], claimsAfter st.claims fs cf⟩ (fs + 1) := by
  have hended := h.claims_le hfs hsup
  constructor
  · intro r hr
    have hr := mem_of_mem_pruneClaims hr
    split_ifs at hr with hclaim
    · rcases List.mem_append.1 hr with hr | hr
      · exact lt_of_lt_of_le (h.claims_lt r hr) (by omega)
      · rw [List.mem_singleton.1 hr]
        exact Nat.lt_succ_of_le hback
    · exact lt_of_lt_of_le (h.claims_lt r hr) (by omega)
  · intro x hx hfull
    simp only [ScanState.files, List.map_append, List.map_cons, List.map_nil, List.mem_append,
      List.mem_singleton] at hx
    rcases hx with hx | rfl
    · exact .inl ((h.stop_le hfs hsup hx hfull).trans (Nat.le_succ fs))
    · by_cases hstop : x.stop ≤ fs + 1
      · exact .inl hstop
      · have hlen : 0 < x.len := by
          by_contra hzero
          have hle : x.stop ≤ x.offset + x.len := min_le_left _ _
          omega
        refine .inr ?_
        rw [claimsAfter, if_pos ⟨hfull, hlen⟩, mem_pruneClaims hended (by omega)]
        exact List.mem_singleton_self _

/-! ## Where a file begins -/

/-- The fallback leaves the start where it is. -/
lemma fallback_start (ctx : Ctx) : ((fallback ctx).run R).startOverride = none := by
  unfold fallback
  split
  · split
    · rw [ReadProg.run_bind]
      split <;> rfl
    · rfl
  · rw [ReadProg.run_ite]
    split <;> rfl

lemma judge_start (h : E.MovesBack) {ctx : Ctx} {s : ℕ}
    (hs : ((E.judge ctx).run R).startOverride = some s) : s ≤ ctx.fileStart := by
  unfold judge at hs
  split at hs
  · rename_i v hv
    obtain ⟨name, -, hname⟩ := Option.bind_eq_some_iff.1 hv
    exact h name v hname R ctx s hs
  · rw [fallback_start] at hs
    exact absurd hs (by simp)

lemma runOne_offset_le (h : E.MovesBack) {len : ℕ} {opts : CarveOptions} {sig : SigDef}
    (hcf : (E.runOne len opts fs sig).run R = some cf) : cf.offset ≤ fs := by
  unfold runOne at hcf
  dsimp only at hcf
  split at hcf
  · exact absurd hcf (by simp)
  · simp only [ReadProg.run_bind, ReadProg.run_ite, ReadProg.run_pure] at hcf
    split at hcf
    · exact absurd hcf (by simp)
    · obtain rfl := Option.some.inj hcf
      unfold carved
      dsimp only
      cases hs : ((E.judge _).run R).startOverride with
      | none => exact le_refl fs
      | some s => exact judge_start h hs

/-- **A file begins at its candidate or before.** -/
lemma fileAt_offset_le (h : E.MovesBack) {l : List ℕ} (hcf : (E.fileAt a fs l).run R = some cf) :
    cf.offset ≤ fs := by
  obtain ⟨-, -, sig, -, hone⟩ := fileAt_cases hcf
  exact runOne_offset_le h hone

/-! ## Whole scans -/

lemma noneInside_append {files : List CarvedFile} {cf : CarvedFile} :
    NoneInside (files ++ [cf]) ↔
      NoneInside files ∧ ∀ x ∈ files, x.validity = .full → ¬ x.Inside cf.offset := by
  simp [NoneInside, List.pairwise_append]

/-- One candidate: what is emitted there is fine, if it is where its start has been moved to. -/
lemma visit_noneInside_iff (h : E.MovesBack) (ht : Tracked st bound) {c : ℕ × List ℕ}
    (hc : bound ≤ c.1) : Tracked (E.visit R a st c) (c.1 + 1) ∧
      (NoneInside (E.visit R a st c).files ↔ NoneInside st.files ∧
        (suppressed st.claims c.1 = false → ∀ cf, (E.fileAt a c.1 c.2).run R = some cf →
          cf.offset < c.1 → ∀ x ∈ st.files, x.validity = .full → ¬ x.Inside cf.offset)) := by
  cases hsup : suppressed st.claims c.1 with
  | true =>
    have hvisit : E.visit R a st c = st := if_pos hsup
    rw [hvisit]
    exact ⟨ht.mono (by omega), (and_iff_left (fun h' => absurd h' (by simp))).symm⟩
  | false =>
    cases hfile : (E.fileAt a c.1 c.2).run R with
    | none =>
      have hvisit : E.visit R a st c = st := by simp [visit, hsup, hfile]
      rw [hvisit]
      exact ⟨ht.mono (by omega), (and_iff_left (fun _ _ h' => absurd h' (by simp))).symm⟩
    | some cf =>
      have hvisit : E.visit R a st c =
          ⟨st.trace ++ [(c.1, cf)], claimsAfter st.claims c.1 cf⟩ := by simp [visit, hsup, hfile]
      have hle := fileAt_offset_le h hfile
      have hfiles : (E.visit R a st c).files = st.files ++ [cf] := by
        simp [hvisit, ScanState.files]
      refine ⟨hvisit ▸ ht.emit hc hsup hle, ?_⟩
      rw [hfiles, noneInside_append]
      refine and_congr_right fun _ => ⟨fun hin _ cf' hcf' _ => Option.some.inj hcf' ▸ hin, ?_⟩
      intro hmoved x hx hfull hin
      by_cases hlt : cf.offset < c.1
      · exact hmoved rfl cf rfl hlt x hx hfull hin
      · -- a candidate that is looked at is behind every full file
        have hstop := ht.stop_le hc hsup hx hfull
        exact absurd hin.2 (by omega)

/-- A walk over candidates in order. -/
lemma foldl_noneInside_iff (h : E.MovesBack) {l : List (ℕ × List ℕ)} (hl : Ascending l) :
    ∀ {st : ScanState} {bound : ℕ}, Tracked st bound → (∀ c ∈ l, bound ≤ c.1) →
      (NoneInside (l.foldl (E.visit R a) st).files ↔
        NoneInside st.files ∧ E.MovedClear R a st l) := by
  induction l with
  | nil => exact fun _ _ => (and_iff_left trivial).symm
  | cons c rest ih =>
    intro st bound ht hbound
    obtain ⟨hfirst, hrest⟩ := List.pairwise_cons.1 hl
    obtain ⟨ht', hone⟩ := visit_noneInside_iff (R := R) (a := a) h ht (hbound c List.mem_cons_self)
    rw [List.foldl_cons, ih hrest ht' fun d hd => hfirst d hd, hone, MovedClear, and_assoc]

/-- **When no file begins inside one claimed before it**, in a scan from any position that may be
cancelled after any number of chunks: exactly if no file whose start was moved does. -/
theorem scan_noneInside_iff (h : E.MovesBack) (R : Reader) (a : ScanArgs) (resumeFrom n : ℕ) :
    NoneInside ((E.scan a resumeFrom n).run R) ↔
      E.MovedClear R a .start (E.candidates R a n (max resumeFrom a.scanStart)) := by
  rw [run_scan, foldl_noneInside_iff h (ascending_candidates (le_max_right _ _)) tracked_start
    fun _ _ => Nat.zero_le _]
  exact and_iff_right List.Pairwise.nil

end CarveEngine

/-! ## Two trailers -/

namespace DmgTrailer

lemma movesBack : engine.MovesBack := by
  intro name v hv R ctx s hs
  have hv : (if name = "dmg" then some validate else none) = some v := hv
  split at hv
  · obtain rfl := Option.some.inj hv
    exact (validate_start hs).1
  · exact absurd hv (by simp)

/-- A source with two trailers: the first is of an image at 0 that ends behind it, the second of one
at 1. -/
def nested : Bytes :=
  [0] ++ (magic ++ List.replicate 27 0 ++ [1] ++ List.replicate 480 0) ++
    (magic ++ List.replicate 26 0 ++ [2, 0])

/-- A scan of it, byte by byte. -/
def nestedArgs : ScanArgs := ⟨545, 512, { CarveEngine.defaultOptions with bruteForce := true }⟩

/-- Both images are carved in full. -/
lemma nested_scan : ((engine.scan nestedArgs 0 1).run (memReader nested)).map
    (fun cf => (cf.offset, cf.len, cf.validity)) = [(0, 513, .full), (1, 1024, .full)] := by
  rw [memReader_eq]
  simp only [engine, Automaton.naive, occurrences_eq]
  decide +kernel

end DmgTrailer

namespace CarveEngine

/-- The rule, for a scan of it. -/
theorem scan_noneInside_iff_nested : NoneInside ((DmgTrailer.engine.scan
    DmgTrailer.nestedArgs 0 1).run (memReader DmgTrailer.nested)) ↔
      DmgTrailer.engine.MovedClear (memReader DmgTrailer.nested) DmgTrailer.nestedArgs .start
        (DmgTrailer.engine.candidates (memReader DmgTrailer.nested) DmgTrailer.nestedArgs 1
          (max 0 DmgTrailer.nestedArgs.scanStart)) :=
  scan_noneInside_iff DmgTrailer.movesBack _ _ 0 1

/-- The image of the second trailer begins inside that of the first. -/
theorem scan_noneInside_counterexample : ¬ ∀ (E : CarveEngine) (R : Reader) (a : ScanArgs)
    (resumeFrom n : ℕ), E.MovesBack → NoneInside ((E.scan a resumeFrom n).run R) := by
  intro h
  have hnone := h _ (memReader DmgTrailer.nested) DmgTrailer.nestedArgs 0 1 DmgTrailer.movesBack
  have hscan := DmgTrailer.nested_scan
  generalize (DmgTrailer.engine.scan DmgTrailer.nestedArgs 0 1).run (memReader DmgTrailer.nested) =
    files at hnone hscan
  obtain ⟨x, rest, rfl, hx, hrest⟩ := List.map_eq_cons_iff.1 hscan
  obtain ⟨y, rest, rfl, hy, -⟩ := List.map_eq_cons_iff.1 hrest
  obtain ⟨hxo, hxl, hxv⟩ : x.offset = 0 ∧ x.len = 513 ∧ x.validity = .full := by
    simpa [Prod.mk.injEq] using hx
  obtain ⟨hyo, -⟩ : y.offset = 1 ∧ y.len = 1024 ∧ y.validity = .full := by
    simpa [Prod.mk.injEq] using hy
  refine (List.pairwise_cons.1 hnone).1 y List.mem_cons_self hxv ⟨by omega, ?_⟩
  rw [CarvedFile.stop, hxo, hxl, hyo]
  decide

end CarveEngine

end Reclaim
