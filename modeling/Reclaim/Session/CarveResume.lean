import Reclaim.Carve.TextPass
import Reclaim.Session.CarveReturns

/-!
# Carving in several runs

A resumed scan begins at the stored cursor without the claims of the run before.  What it then finds
is the rest of what an unbroken scan finds, provided that no file that was carved in full before the
cursor reaches beyond it; and what is found twice is stored once.  So however often the scan of a
source that answers its reads always alike is cut and resumed, cancelled, failed by the database or
by a crash that undoes commits: once it is complete the table holds what one unbroken scan would
have stored, row by row.
-/

namespace Reclaim

open MarkedQueue Transition KeyedTable

/-! ## Storing in pieces -/

section Pieces

variable {ι ρ κ : Type} [DecidableEq κ] {whole kept given batch : List ι}

/-- A table that holds a beginning of a list is given the next part of it, which may begin among what
it has: it then holds the longer of the two beginnings. -/
lemma exists_insertAll_prefix (key : ρ → κ) (f : ι → ρ) (t : List ρ) (hkept : kept <+: whole) (hgiven : given <+: kept)
    (hnext : given ++ batch <+: whole) :
    ∃ kept', kept <+: kept' ∧ given ++ batch <+: kept' ∧ kept' <+: whole ∧
      insertAll key (insertAll key t (kept.map f)) (batch.map f) = insertAll key t (kept'.map f) := by
  obtain ⟨y, rfl⟩ := hgiven
  have hkeys : ∀ l ⊆ given ++ y, insertAll key (insertAll key t ((given ++ y).map f)) (l.map f) =
      insertAll key t ((given ++ y).map f) := fun l hl =>
    insertAll_of_subset fun r hr => by
      obtain ⟨x, hx, rfl⟩ := List.mem_map.1 hr
      exact mem_keys_insertAll.2 (.inr (mem_keys_of_mem (List.mem_map_of_mem (hl hx))))
  rcases List.prefix_or_prefix_of_prefix hnext hkept with hle | hle
  · exact ⟨given ++ y, List.prefix_rfl, hle, hkept,
      hkeys batch fun x hx => hle.subset (List.mem_append_right _ hx)⟩
  · obtain ⟨z, hz⟩ := hle
    rw [List.append_assoc, List.append_cancel_left_eq] at hz
    refine ⟨given ++ batch, ⟨z, by rw [← hz, List.append_assoc]⟩, List.prefix_rfl, hnext, ?_⟩
    have hseen := hkeys y fun x hx => List.mem_append_right _ hx
    have hbatch : batch.map f = y.map f ++ z.map f := by rw [← hz, List.map_append]
    calc insertAll key (insertAll key t ((given ++ y).map f)) (batch.map f)
        = insertAll key (insertAll key (insertAll key t ((given ++ y).map f)) (y.map f))
            (z.map f) := by rw [hbatch, insertAll_append]
      _ = insertAll key t ((given ++ y ++ z).map f) := by
        rw [hseen, ← insertAll_append, ← List.map_append]
      _ = insertAll key t ((given ++ batch).map f) := by rw [← hz, List.append_assoc]

end Pieces

/-! ## The unbroken scan -/

namespace CarveEngine

variable (E : CarveEngine) (R : Reader) (a : ScanArgs)

/-- What an unbroken scan has emitted after `n` chunks. -/
def emitted (n : ℕ) : List CarvedFile := (E.scanned R a n).files

/-- A scan that stands at `pos` has `n` chunks behind it. -/
def ChunksBehind (n pos : ℕ) : Prop :=
  pos = a.scanStart + n * E.chunk ∨
    a.scanEnd ≤ pos ∧ a.scanEnd ≤ a.scanStart + n * E.chunk

/-- No file carved in full before the cursor reaches beyond it. -/
def Uncut (cursor : ℕ) : Prop :=
  ∀ n, cursor = a.scanStart + n * E.chunk → cursor < a.scanEnd →
    ∀ c ∈ (E.scanned R a n).claims, c.2 ≤ cursor

variable {E R a}

lemma emitted_eq (n : ℕ) : E.emitted R a n = (E.scan a 0 n).run R := by
  rw [run_scan, Nat.zero_max]
  rfl

/-- The last chunk comes last. -/
lemma gather_succ {α : Type} (f : ℕ → List α) (n pos : ℕ) : E.gather a f (n + 1) pos =
    E.gather a f n pos ++ if a.scanEnd ≤ pos + n * E.chunk then [] else f (pos + n * E.chunk) := by
  induction n generalizing pos with
  | zero => simp [gather]
  | succ n ih =>
    have hfirst : ∀ m, E.gather a f (m + 1) pos =
        if a.scanEnd ≤ pos then [] else f pos ++ E.gather a f m (pos + E.chunk) := fun _ => rfl
    rw [hfirst, hfirst]
    split
    · rename_i hend
      rw [if_pos (by omega), List.append_nil]
    · have hpos : pos + E.chunk + n * E.chunk = pos + (n + 1) * E.chunk := by
        rw [Nat.add_mul, Nat.one_mul]
        omega
      rw [ih, hpos, List.append_assoc]

/-- One more chunk. -/
lemma scanned_succ {n : ℕ} (hlt : a.scanStart + n * E.chunk < a.scanEnd) :
    E.scanned R a (n + 1) =
      (E.chunkCandidates R a (a.scanStart + n * E.chunk)).foldl (E.visit R a) (E.scanned R a n) := by
  rw [scanned, candidates, gather_succ, if_neg (not_le.2 hlt), List.foldl_append]
  rfl

lemma scanned_succ_of_le {n : ℕ} (hend : a.scanEnd ≤ a.scanStart + n * E.chunk) :
    E.scanned R a (n + 1) = E.scanned R a n := by
  rw [scanned, candidates, gather_succ, if_pos hend, List.append_nil]
  rfl

/-- Behind the end nothing is emitted any more. -/
lemma emitted_stable {m n : ℕ} (hend : a.scanEnd ≤ a.scanStart + m * E.chunk) (hmn : m ≤ n) :
    E.emitted R a n = E.emitted R a m := by
  induction n, hmn using Nat.le_induction with
  | base => rfl
  | succ n hmn ih =>
    have hmul := Nat.mul_le_mul_right E.chunk hmn
    rw [emitted, scanned_succ_of_le (by omega), ← emitted, ih]

/-! ### Scans that differ in old claims -/

/-- Two states whose claims are the same beyond `lo`. -/
def SameBeyond (lo : ℕ) (claims claims' : Claims) : Prop :=
  claims.filter (fun c => lo < c.2) = claims'.filter fun c => lo < c.2

lemma SameBeyond.mono {lo hi : ℕ} {claims claims' : Claims} (h : SameBeyond lo claims claims')
    (hle : lo ≤ hi) : SameBeyond hi claims claims' := by
  have hboth : ∀ l : Claims, l.filter (fun c => hi < c.2) =
      (l.filter fun c => lo < c.2).filter fun c => hi < c.2 := fun l => by
    rw [List.filter_filter]
    refine List.filter_congr fun c _ => ?_
    by_cases hc : hi < c.2
    · simp [hc, hle.trans_lt hc]
    · simp [hc]
  rw [SameBeyond, hboth claims, hboth claims', h]

lemma SameBeyond.suppressed {lo start : ℕ} {claims claims' : Claims}
    (h : SameBeyond lo claims claims') (hle : lo ≤ start) :
    suppressed claims start = suppressed claims' start := by
  have hfilter : ∀ l : Claims, Reclaim.suppressed l start =
      Reclaim.suppressed (l.filter fun c => start < c.2) start := fun l => by
    unfold Reclaim.suppressed
    rw [List.any_filter]
    refine congrArg (List.any l) (funext fun c => ?_)
    by_cases hc : start < c.2 <;> simp [hc]
  rw [hfilter claims, hfilter claims', h.mono hle]

lemma SameBeyond.claimsAfter {lo start : ℕ} {claims claims' : Claims} (cf : CarvedFile)
    (h : SameBeyond lo claims claims') (hle : lo ≤ start) :
    claimsAfter claims start cf = claimsAfter claims' start cf := by
  have hsame := h.mono hle
  unfold Reclaim.claimsAfter pruneClaims
  dsimp only
  split
  · rw [List.filter_append, List.filter_append, hsame]
  · rw [hsame]

/-- Old claims do not show in what is emitted beyond them. -/
lemma foldl_visit_congr {lo : ℕ} {l : List (ℕ × List ℕ)} (hl : ∀ c ∈ l, lo ≤ c.1)
    (st st' : ScanState) (h : SameBeyond lo st.claims st'.claims) :
    ∃ new, (l.foldl (E.visit R a) st).trace = st.trace ++ new ∧
      (l.foldl (E.visit R a) st').trace = st'.trace ++ new ∧
      SameBeyond lo (l.foldl (E.visit R a) st).claims (l.foldl (E.visit R a) st').claims := by
  induction l generalizing st st' with
  | nil => exact ⟨[], (List.append_nil _).symm, (List.append_nil _).symm, h⟩
  | cons c rest ih =>
    have hc := hl c List.mem_cons_self
    have hrest := fun d hd => hl d (List.mem_cons_of_mem c hd)
    have hsup := h.suppressed hc
    rw [List.foldl_cons, List.foldl_cons]
    cases hold : suppressed st.claims c.1 with
    | true =>
      have hskip : ∀ u : ScanState, Reclaim.suppressed u.claims c.1 = true → E.visit R a u c = u :=
        fun u hu => if_pos hu
      rw [hskip st hold, hskip st' (hsup ▸ hold)]
      exact ih hrest st st' h
    | false =>
      have hlook : ∀ u : ScanState, Reclaim.suppressed u.claims c.1 = false →
          E.visit R a u c = ((E.fileAt a c.1 c.2).run R).elim u fun cf =>
            ⟨u.trace ++ [(c.1, cf)], Reclaim.claimsAfter u.claims c.1 cf⟩ := fun u hu => by
        rw [visit, if_neg (by simp [hu])]
        cases (E.fileAt a c.1 c.2).run R with
        | none => rfl
        | some cf => rfl
      rw [hlook st hold, hlook st' (hsup ▸ hold)]
      cases (E.fileAt a c.1 c.2).run R with
      | none => exact ih hrest st st' h
      | some cf =>
        obtain ⟨new, hst, hst', hsame⟩ := ih hrest
          ⟨st.trace ++ [(c.1, cf)], Reclaim.claimsAfter st.claims c.1 cf⟩
          ⟨st'.trace ++ [(c.1, cf)], Reclaim.claimsAfter st'.claims c.1 cf⟩
          (by rw [h.claimsAfter cf hc]; rfl)
        refine ⟨(c.1, cf) :: new, hst.trans ?_, hst'.trans ?_, hsame⟩
        · rw [List.append_assoc]
          rfl
        · rw [List.append_assoc]
          rfl

/-- **One more chunk, with the claims of a resumed scan.** -/
lemma scanChunk_resumed {n : ℕ} {claims : Claims}
    (hlt : a.scanStart + n * E.chunk < a.scanEnd)
    (h : SameBeyond (if n = 0 then 0 else a.scanStart + n * E.chunk) (E.scanned R a n).claims
      claims) :
    let out := (E.scanChunk a (a.scanStart + n * E.chunk) claims).run R
    E.emitted R a (n + 1) = E.emitted R a n ++ out.1 ∧
      SameBeyond (a.scanStart + (n + 1) * E.chunk) (E.scanned R a (n + 1)).claims out.2 := by
  have hchunk := E.chunk_pos
  intro out
  have hlo : ∀ c ∈ E.chunkCandidates R a (a.scanStart + n * E.chunk),
      (if n = 0 then 0 else a.scanStart + n * E.chunk) ≤ c.1 := fun c hc => by
    split
    · exact Nat.zero_le _
    · rename_i hn
      have hmul : E.chunk ≤ n * E.chunk := Nat.le_mul_of_pos_left _ (Nat.pos_of_ne_zero hn)
      exact (mem_chunkCandidates hc).2.resolve_right (by omega)
  obtain ⟨new, hwhole, hpart, hsame⟩ := foldl_visit_congr (E := E) (R := R) (a := a) hlo
    (E.scanned R a n) ⟨[], claims⟩ h
  obtain ⟨hfiles, hclaims⟩ := run_emitAll (E := E) (R := R) (a := a)
    (E.chunkCandidates R a (a.scanStart + n * E.chunk)) ⟨[], claims⟩
  have hout : out = (E.emitAll a (E.chunkCandidates R a (a.scanStart + n * E.chunk)) claims).run R := by
    simp only [out, scanChunk, ReadProg.run_bind, chunkCandidates]
  rw [hout, emitted, emitted, scanned_succ hlt]
  refine ⟨?_, ?_⟩
  · have hnew : ((E.emitAll a (E.chunkCandidates R a (a.scanStart + n * E.chunk)) claims).run R).1 =
        new.map Prod.snd := by
      have := hfiles
      rw [ScanState.files, ScanState.files, hpart] at this
      simpa using this
    rw [ScanState.files, hwhole, List.map_append, hnew]
    rfl
  · rw [hclaims]
    refine hsame.mono ?_
    split
    · exact Nat.zero_le _
    · exact Nat.add_le_add_left (Nat.mul_le_mul_right _ (Nat.le_succ n)) _

/-- What is emitted is only added to. -/
lemma emitted_prefix {m n : ℕ} (hmn : m ≤ n) : E.emitted R a m <+: E.emitted R a n := by
  induction n, hmn using Nat.le_induction with
  | base => exact List.prefix_rfl
  | succ n _ ih =>
    refine ih.trans ?_
    by_cases hend : a.scanEnd ≤ a.scanStart + n * E.chunk
    · rw [emitted, emitted, scanned_succ_of_le hend]
    · have hmore := scanChunk_resumed (R := R) (not_le.1 hend) rfl
      rw [hmore.1]
      exact List.prefix_append _ _

/-- Where a scan stands whose cursor is stored as the smaller of its position and the end. -/
lemma ChunksBehind.cursor {n pos : ℕ} (h : E.ChunksBehind a n pos) :
    E.ChunksBehind a n (max (min pos a.scanEnd) a.scanStart) := by
  unfold ChunksBehind at h ⊢
  omega

lemma ChunksBehind.of_end_le {n pos : ℕ} (h : E.ChunksBehind a n pos) (hend : a.scanEnd ≤ pos) :
    a.scanEnd ≤ a.scanStart + n * E.chunk := by
  unfold ChunksBehind at h
  omega

lemma ChunksBehind.of_lt {n pos : ℕ} (h : E.ChunksBehind a n pos) (hlt : pos < a.scanEnd) :
    pos = a.scanStart + n * E.chunk := by
  unfold ChunksBehind at h
  omega

end CarveEngine

/-! ## Runs of one scan -/

section Runs

variable (E : CarveEngine) (R : Reader)

/-- The arguments of a scan, its block size planned. -/
def CarveEngine.planned (c : ScanArgs) : ScanArgs :=
  c.withBlockSize (if c.opts.blockSize ≠ 0 then c.opts.blockSize
    else (E.inferBlockSize c.len c.sectorSize).run R)

/-- Every run is of the same scan over the same reader, and where one is resumed no file is cut. -/
def CarveEngine.sameScan (c : ScanArgs) : CarveRules where
  start v a resume answer := a = c ∧ (∀ i, answer i = R) ∧
    (resume = true → ∀ p, v.progress = some p → E.Uncut R (E.planned R c) p.cursor)
  read answer := ∀ i, answer i = R

variable (B : Backend) (sourceId : String) (t : Rows) (a : ScanArgs)

/-- The cursor comes behind chunks whose files are all among the first ones. -/
def BehindCursor (first : List CarvedFile) (p : CarveProgress) : Prop :=
  ∃ m, E.ChunksBehind a m (max p.cursor a.scanStart) ∧ E.emitted R a m <+: first

/-- The store holds the first files of the unbroken scan, `kept`, and its cursor comes behind no
others. -/
structure CarveStore.Holds (v : CarveStore) (kept : List CarvedFile) : Prop where
  whole : ∃ n, kept <+: E.emitted R a n
  rows : v.rows = insertCarved B sourceId carveName t kept
  blockSize : ∀ p, v.progress = some p → p.blockSize = a.opts.blockSize
  cursor : ∀ p, v.progress = some p → BehindCursor E R a kept p.toCarveProgress
  complete : ∀ p, v.progress = some p → p.complete = true →
    ∃ m, a.scanEnd ≤ a.scanStart + m * E.chunk ∧ E.emitted R a m <+: kept

/-- A run that has `m` chunks behind it, whose first files, `given`, have been stored, by this run or
before. -/
structure CarveRun.Follows (db : Database) (r : CarveRun) (m : ℕ) (given kept : List CarvedFile) :
    Prop where
  args : r.args = a
  behind : E.ChunksBehind a m r.thread.pos
  claims : r.thread.pos < a.scanEnd →
    CarveEngine.SameBeyond (if m = 0 then 0 else r.thread.pos) (E.scanned R a m).claims
      r.thread.claims
  holds : db.now.Holds E R B sourceId t a kept
  given_le : given <+: kept
  onWay : given ++ r.pending ++ items (r.channel ++ r.thread.outbox) = E.emitted R a m
  marks : Along (BehindCursor E R a) (given ++ r.pending) (r.channel ++ r.thread.outbox)
  cur : BehindCursor E R a (given ++ r.pending) r.cur
  outcome : ∀ o, r.thread.outcome = some o → o.cursor = min r.thread.pos a.scanEnd ∧
    (o.interrupted = false → a.scanEnd ≤ r.thread.pos) ∧ r.thread.outbox = []

variable {E R B sourceId t a} {db : Database} {r : CarveRun} {v : CarveStore} {m : ℕ}
  {given kept : List CarvedFile}

lemma ReadProg.answered_eq_run {α : Type} (p : ReadProg α) {answer : ℕ → Reader}
    (h : ∀ i, answer i = R) : p.answered answer = p.run R :=
  (ReadProg.exec_eq_run (I := fun _ => True) (fun i _ off n => ⟨by rw [h i], trivial⟩) p 0 trivial).1

lemma BehindCursor.mono {first first' : List CarvedFile} {p : CarveProgress}
    (h : BehindCursor E R a first p) (hle : first <+: first') : BehindCursor E R a first' p :=
  h.imp fun _ hm => ⟨hm.1, hm.2.trans hle⟩

namespace CarveRun.Follows

lemma scanNext {answer : ℕ → Reader} (h : r.Follows E R B sourceId t a db m given kept)
    (hread : ∀ i, answer i = R) (hbox : r.thread.outbox = []) (hopen : r.thread.outcome = none)
    (hlt : r.thread.pos < r.args.scanEnd) :
    (r.scanNext E answer).Follows E R B sourceId t a db (m + 1) given kept := by
  obtain rfl := h.args
  have hpos := h.behind.of_lt hlt
  have hclaims := h.claims hlt
  have hway := h.onWay
  have hmarks := h.marks
  rw [hbox, List.append_nil] at hway hmarks
  rw [hpos] at hlt hclaims
  obtain ⟨hmore, hsame⟩ := CarveEngine.scanChunk_resumed hlt hclaims
  have hout := ReadProg.answered_eq_run (E.scanChunk r.args r.thread.pos r.thread.claims) hread
  rw [hpos] at hout
  have hnext : r.thread.pos + E.chunk = r.args.scanStart + (m + 1) * E.chunk := by
    rw [hpos, Nat.add_mul, Nat.one_mul, Nat.add_assoc]
  have hbehind : E.ChunksBehind r.args (m + 1) (r.thread.pos + E.chunk) := .inl hnext
  refine ⟨rfl, hbehind, fun _ => ?_, h.holds, h.given_le, ?_, ?_, h.cur, fun o ho => ?_⟩
  · show CarveEngine.SameBeyond (if m + 1 = 0 then 0 else r.thread.pos + E.chunk) _
      ((E.scanChunk r.args r.thread.pos r.thread.claims).answered answer).2
    rw [if_neg (Nat.succ_ne_zero m), hnext, hpos, hout]
    exact hsame
  · simp only [CarveRun.scanNext, items_append, items_batch]
    rw [← List.append_assoc, hway, hpos, hout, hmore]
  · simp only [CarveRun.scanNext]
    refine along_append_batch.2 ⟨hmarks, m + 1, hbehind.cursor, ?_⟩
    rw [hway, hpos, hout, hmore]
  · simp only [CarveRun.scanNext, hopen] at ho
    cases ho

/-- A run begins behind chunks whose files are stored, at a cursor that cuts none of them. -/
lemma begin_of_behind {resumeFrom : ℕ} (log : List (ℕ × CarvedFile))
    (hholds : db.now.Holds E R B sourceId t a kept)
    (hbehind : E.ChunksBehind a m (max resumeFrom a.scanStart)) (hle : E.emitted R a m <+: kept)
    (hclaims : max resumeFrom a.scanStart < a.scanEnd → ∀ x ∈ (E.scanned R a m).claims,
      x.2 ≤ if m = 0 then 0 else max resumeFrom a.scanStart) :
    (CarveRun.begin a resumeFrom log).Follows E R B sourceId t a db m (E.emitted R a m) kept := by
  refine ⟨rfl, hbehind, fun hlt => ?_, hholds, hle, ?_, trivial, ⟨m, hbehind, ?_⟩,
    fun o ho => by cases ho⟩
  · refine (List.filter_eq_nil_iff.2 fun x hx => ?_).trans List.filter_nil.symm
    have hx' := hclaims hlt x hx
    rw [decide_eq_true_eq, not_lt]
    exact hx'
  · simp [CarveRun.begin, items]
  · simp [CarveRun.begin]

lemma begin {c : ScanArgs} {resume : Bool} {answer : ℕ → Reader} {bs resumeFrom : ℕ}
    {log : List (ℕ × CarvedFile)} (hholds : db.now.Holds E R B sourceId t (E.planned R c) kept)
    (hanswer : ∀ i, answer i = R)
    (huncut : resume = true → ∀ p, db.now.progress = some p → E.Uncut R (E.planned R c) p.cursor)
    (hpt : resumePoint E db.now c resume answer = (resumeFrom, bs, log)) :
    ∃ m given, (CarveRun.begin (c.withBlockSize bs) resumeFrom log).Follows E R B sourceId t
      (E.planned R c) db m given kept := by
  unfold resumePoint at hpt
  split at hpt
  · rename_i p hp
    obtain ⟨rfl, rfl, -⟩ := hpt
    obtain ⟨m, hm, hle⟩ := hholds.cursor p hp
    have hargs : c.withBlockSize p.blockSize = E.planned R c := by
      rw [hholds.blockSize p hp]
      rfl
    rw [hargs]
    refine ⟨m, _, begin_of_behind _ hholds hm hle fun hlt x hx => ?_⟩
    split
    · rename_i hzero
      subst hzero
      exact absurd hx List.not_mem_nil
    · rename_i hpos
      have hmul : E.chunk ≤ m * E.chunk := Nat.le_mul_of_pos_left _ (Nat.pos_of_ne_zero hpos)
      have hchunk := E.chunk_pos
      have hcursor := hm.of_lt hlt
      have hmax : max p.cursor (E.planned R c).scanStart = p.cursor := by omega
      rw [hmax] at hcursor hlt ⊢
      exact huncut rfl p hp m hcursor hlt x hx
  · obtain ⟨rfl, rfl, -⟩ := hpt
    have hargs : c.withBlockSize (if c.opts.blockSize ≠ 0 then c.opts.blockSize
        else (E.inferBlockSize c.len c.sectorSize).answered answer) = E.planned R c := by
      rw [ReadProg.answered_eq_run _ hanswer]
      rfl
    rw [hargs]
    refine ⟨0, _, begin_of_behind _ hholds (.inl ?_) List.nil_prefix fun _ x hx =>
      absurd hx List.not_mem_nil⟩
    rw [Nat.zero_max, Nat.zero_mul, Nat.add_zero]

lemma scanDone {interrupted : Bool} (h : r.Follows E R B sourceId t a db m given kept)
    (hbox : r.thread.outbox = []) (hend : interrupted = false → r.args.scanEnd ≤ r.thread.pos) :
    (r.scanDone interrupted).Follows E R B sourceId t a db m given kept := by
  obtain rfl := h.args
  refine ⟨rfl, h.behind, h.claims, h.holds, h.given_le, h.onWay, h.marks, h.cur, fun o ho => ?_⟩
  obtain rfl := Option.some.inj ho
  exact ⟨rfl, hend, hbox⟩

lemma send {msg : Msg} {rest : List Msg} (h : r.Follows E R B sourceId t a db m given kept)
    (hbox : r.thread.outbox = msg :: rest) :
    { r with thread := { r.thread with outbox := rest }, channel := r.channel ++ [msg] }.Follows
      E R B sourceId t a db m given kept := by
  have hqueue : r.channel ++ [msg] ++ rest = r.channel ++ r.thread.outbox := by
    rw [hbox, List.append_assoc]
    rfl
  refine ⟨h.args, h.behind, h.claims, h.holds, h.given_le, hqueue ▸ h.onWay, hqueue ▸ h.marks,
    h.cur, fun o ho => ?_⟩
  exact absurd (h.outcome o ho).2.2 (by simp [hbox])

lemma item {cf : CarvedFile} {rest : List Msg}
    (h : r.Follows E R B sourceId t a db m given kept) (hchan : r.channel = .item cf :: rest) :
    { r with channel := rest, pending := r.pending ++ [cf] }.Follows E R B sourceId t a db m given
      kept := by
  have hway := h.onWay
  have hmarks := h.marks
  rw [hchan] at hway hmarks
  refine ⟨h.args, h.behind, h.claims, h.holds, h.given_le, ?_, ?_, ?_, h.outcome⟩
  · rw [← hway]
    simp [items]
  · rw [← List.append_assoc]
    exact hmarks
  · rw [← List.append_assoc]
    exact h.cur.mono (List.prefix_append _ _)

lemma mark {p : CarveProgress} {rest : List Msg}
    (h : r.Follows E R B sourceId t a db m given kept) (hchan : r.channel = .mark p :: rest) :
    { r with channel := rest, cur := p }.Follows E R B sourceId t a db m given kept := by
  have hway := h.onWay
  have hmarks := h.marks
  rw [hchan] at hway hmarks
  exact ⟨h.args, h.behind, h.claims, h.holds, h.given_le, hway, hmarks.2, hmarks.1, h.outcome⟩

/-- A batch that is stored, in part perhaps once more, makes the stored files a longer beginning. -/
lemma flush (h : r.Follows E R B sourceId t a db m given kept) :
    ∃ kept', (db.now.insert B sourceId r.pending).Holds E R B sourceId t a kept' ∧
      { r with pending := [] }.Follows E R B sourceId t a
        (db.commit (db.now.insert B sourceId r.pending)) m (given ++ r.pending) kept' := by
  obtain ⟨n, hkept⟩ := h.holds.whole
  have hnext : given ++ r.pending <+: E.emitted R a m := ⟨_, h.onWay⟩
  obtain ⟨kept', hle, hgiven, hwhole, hrows⟩ := exists_insertAll_prefix
    CarvedRecord.id (CarvedFile.record B sourceId carveName) t.rows
    (hkept.trans (CarveEngine.emitted_prefix (le_max_left n m))) h.given_le
    (hnext.trans (CarveEngine.emitted_prefix (le_max_right n m)))
  have hholds : (db.now.insert B sourceId r.pending).Holds E R B sourceId t a kept' := by
    refine ⟨⟨_, hwhole⟩, ?_, h.holds.blockSize, fun p hp => (h.holds.cursor p hp).mono hle,
      fun p hp hdone => ?_⟩
    · show insertCarved B sourceId carveName db.now.rows r.pending = _
      rw [h.holds.rows]
      exact Rows.ext hrows
    · obtain ⟨k, hk, hkle⟩ := h.holds.complete p hp hdone
      exact ⟨k, hk, hkle.trans hle⟩
  refine ⟨kept', hholds, h.args, h.behind, h.claims, hholds, hgiven, ?_, ?_, ?_, h.outcome⟩
  · rw [List.append_nil]
    exact h.onWay
  · rw [List.append_nil]
    exact h.marks
  · rw [List.append_nil]
    exact h.cur

end CarveRun.Follows

/-- **Runs of one scan keep to it.** -/
lemma kept_follows (c : ScanArgs) : RunKept E B sourceId (E.sameScan R c)
    (fun db => ∀ v ∈ db.versions, ∃ kept, v.Holds E R B sourceId t (E.planned R c) kept)
    (fun db r => ∃ m given kept, r.Follows E R B sourceId t (E.planned R c) db m given kept) where
  begin _ _ _ hdb hstart _ hpt := by
    obtain ⟨rfl, hanswer, huncut⟩ := hstart
    obtain ⟨kept, hholds⟩ := hdb _ List.mem_cons_self
    obtain ⟨m, given, hr⟩ := CarveRun.Follows.begin hholds hanswer huncut hpt
    exact ⟨m, given, kept, hr⟩
  scanNext := fun ⟨m, given, kept, h⟩ hread hbox hopen hlt =>
    ⟨m + 1, given, kept, h.scanNext hread hbox hopen hlt⟩
  scanDone := fun ⟨m, given, kept, h⟩ hbox hend => ⟨m, given, kept, h.scanDone hbox hend⟩
  send := fun ⟨m, given, kept, h⟩ hbox => ⟨m, given, kept, h.send hbox⟩
  item := fun ⟨m, given, kept, h⟩ hchan => ⟨m, given, kept, h.item hchan⟩
  mark := fun ⟨m, given, kept, h⟩ hchan => ⟨m, given, kept, h.mark hchan⟩
  flush := fun hdb ⟨m, given, kept, h⟩ => by
    obtain ⟨kept', hholds, hr⟩ := h.flush
    exact ⟨forall_versions_commit.2 ⟨⟨kept', hholds⟩, hdb⟩, m, _, kept', hr⟩
  save {db r} hdb h hnone := by
    obtain ⟨m, given, kept, h⟩ := h
    have hall : given ++ r.pending <+: kept := by
      rw [hnone, List.append_nil]
      exact h.given_le
    have hholds : CarveStore.Holds E R B sourceId t (E.planned R c)
        { db.now with progress := some r.row, emitted := r.log } kept := by
      refine ⟨h.holds.whole, h.holds.rows, fun p hp => ?_, fun p hp => ?_, fun p hp hdone => ?_⟩
      · obtain rfl := Option.some.inj hp
        rw [CarveRun.row, h.args]
      · obtain rfl := Option.some.inj hp
        exact h.cur.mono hall
      · obtain rfl := Option.some.inj hp
        cases hdone
    exact ⟨forall_versions_commit.2 ⟨⟨kept, hholds⟩, hdb⟩, m, given, kept, h.args, h.behind,
      h.claims, hholds, h.given_le, h.onWay, h.marks, h.cur, h.outcome⟩
  last {db r o} hdb h hnone hchan ho := by
    obtain ⟨m, given, kept, h⟩ := h
    obtain ⟨hcursor, hend, hbox⟩ := h.outcome o ho
    -- everything that the scan found has been given to the table
    have hall : E.emitted R (E.planned R c) m <+: kept := by
      rw [← h.onWay, hnone, hchan, hbox, List.append_nil]
      simpa [items] using h.given_le
    refine forall_versions_commit.2 ⟨⟨kept, h.holds.whole, h.holds.rows, fun p hp => ?_,
      fun p hp => ?_, fun p hp hdone => ?_⟩, hdb⟩
    · obtain rfl := Option.some.inj hp
      rw [CarveRun.lastRow, h.args]
    · obtain rfl := Option.some.inj hp
      refine ⟨m, ?_, hall⟩
      show E.ChunksBehind _ m (max o.cursor _)
      rw [hcursor]
      exact h.behind.cursor
    · obtain rfl := Option.some.inj hp
      refine ⟨m, h.behind.of_end_le (hend ?_), hall⟩
      simpa [CarveRun.lastRow] using hdone
  crash hdb hroll v hv := hdb v (versions_of_rollback hroll v hv)

/-- **However often it is cut, a scan that is complete has stored what an unbroken scan stores.**
All runs are of one scan over a reader that is always the same; each may be cancelled, fail at any
transaction, or crash and lose commits, and may be started again or resumed, at a cursor that no file
carved in full before it reaches beyond.  In every state that the database may be found in and that
is marked complete, the table is the one before with the files of the unbroken scan inserted. -/
theorem resumed_rows {c : ScanArgs} {w : CarveWorld}
    (h : Reaches (carveSystem E B sourceId t) (E.sameScan R c).Allows w) {v : CarveStore}
    (hv : v ∈ w.db.versions) {p : ProgressRow} (hp : v.progress = some p)
    (hdone : p.complete = true) {n : ℕ}
    (hn : (E.planned R c).scanEnd ≤ (E.planned R c).scanStart + n * E.chunk) :
    v.rows = insertCarved B sourceId carveName t ((E.scan (E.planned R c) 0 n).run R) := by
  have hfresh : ∀ v ∈ (CarveWorld.fresh t).db.versions,
      ∃ kept, v.Holds E R B sourceId t (E.planned R c) kept := fun v hv => by
    obtain rfl := List.mem_singleton.1 hv
    refine ⟨[], ⟨0, List.nil_prefix⟩, rfl, ?_, ?_, ?_⟩ <;>
    · intro p hp
      cases hp
  obtain ⟨kept, hholds⟩ := ((kept_follows c).reaches hfresh h).db v hv
  obtain ⟨m, hend, hle⟩ := hholds.complete p hp hdone
  obtain ⟨k, hk⟩ := hholds.whole
  rw [← CarveEngine.emitted_eq, hholds.rows]
  -- behind the end all beginnings are the same
  have hwhole : ∀ i, E.emitted R (E.planned R c) i <+: E.emitted R (E.planned R c) m := fun i => by
    rcases le_total i m with him | hmi
    · exact CarveEngine.emitted_prefix him
    · rw [CarveEngine.emitted_stable hend hmi]
  have hkept : kept = E.emitted R (E.planned R c) m :=
    List.Sublist.antisymm (hk.trans (hwhole k)).sublist hle.sublist
  have hsame : E.emitted R (E.planned R c) m = E.emitted R (E.planned R c) n := by
    rcases le_total m n with hmn | hnm
    · exact (CarveEngine.emitted_stable hend hmn).symm
    · exact CarveEngine.emitted_stable hn hnm
  rw [hkept, hsame]

end Runs

namespace LetterFiles

/-- The first of two files apart ends where the first chunk does. -/
lemma uncut_apart : engine.Uncut (memReader apart) (args 8) 4 := by
  have hclaims : (engine.scanned (memReader apart) (args 8) 1).claims = [(0, 4)] := by
    decide +kernel
  intro n hn _ c hc
  have hn' : 4 = 0 + n * 4 := hn
  obtain rfl : n = 1 := by omega
  rw [hclaims, List.mem_singleton] at hc
  exact hc ▸ le_rfl

/-- Actions other than a start are allowed anywhere. -/
lemma allows_chunks (data : FileBytes.Bytes) : ∀ act ∈ firstChunk data ++ secondChunk data, ∀ v,
    (engine.sameScan (memReader data) (args 8)).Allows v act := by
  simp [firstChunk, secondChunk, CarveRules.Allows, CarveEngine.sameScan]

theorem resumed_rows_apart :
    ∃ w, session.runFrom (.fresh .empty) (twoRuns apart) = some w ∧
      w.db.now.progress.map (·.complete) = some true ∧
      w.db.now.rows = insertCarved .plain "source" carveName .empty
        ((engine.scan (args 8) 0 2).run (memReader apart)) := by
  have hrun : ((session.runFrom (.fresh .empty) (twoRuns apart)).map fun w =>
      w.db.now.progress.map (·.complete)) = some (some true) := by
    decide +kernel
  have hfirst : ((session.runFrom (.fresh .empty) (start apart :: firstChunk apart)).map fun w =>
      w.db.now.progress.map (·.cursor)) = some (some 4) := by
    decide +kernel
  obtain ⟨w, hw, hdone⟩ := Option.map_eq_some_iff.1 hrun
  obtain ⟨u, hu, hcursor⟩ := Option.map_eq_some_iff.1 hfirst
  obtain ⟨p, hp, hpdone⟩ := Option.map_eq_some_iff.1 hdone
  obtain ⟨u₁, hu₁, hrest₁⟩ := Option.bind_eq_some_iff.1 hu
  obtain ⟨v, hv, hrest⟩ := Option.bind_eq_some_iff.1
    ((System.runFrom_append _ _ _).symm.trans hw)
  obtain rfl : u = v := Option.some.inj (hu.symm.trans hv)
  obtain ⟨u₂, hu₂, hrest₂⟩ := Option.bind_eq_some_iff.1 hrest
  have hstart : (engine.sameScan (memReader apart) (args 8)).Allows (.fresh .empty) (start apart) :=
    ⟨rfl, fun _ => rfl, fun _ q hq => by cases hq⟩
  have hresume : (engine.sameScan (memReader apart) (args 8)).Allows u (start apart) := by
    refine ⟨rfl, fun _ => rfl, fun _ q hq => ?_⟩
    rw [hq, Option.map_some, Option.some.injEq] at hcursor
    rw [hcursor]
    exact uncut_apart
  have hreach : Reaches session (engine.sameScan (memReader apart) (args 8)).Allows u :=
    ((Reaches.init rfl).step _ hstart hu₁).of_run _
      (fun act hact => allows_chunks _ act (List.mem_append_left _ hact)) hrest₁
  exact ⟨w, hw, hdone, resumed_rows ((hreach.step _ hresume hu₂).of_run _
    (fun act hact => allows_chunks _ act (List.mem_append_right _ hact)) hrest₂)
    List.mem_cons_self hp hpdone (n := 2) (by decide)⟩

/-- A scan that is resumed within a file stores the file in it as well. -/
theorem resumed_rows_nested :
    ∃ w, session.runFrom (.fresh .empty) (twoRuns nested) = some w ∧
      w.db.now.progress.map (·.complete) = some true ∧
      w.db.now.rows ≠ insertCarved .plain "source" carveName .empty
        ((engine.scan (args 8) 0 2).run (memReader nested)) := by
  have hrun : ((session.runFrom (.fresh .empty) (twoRuns nested)).map fun w =>
      (w.db.now.progress.map (·.complete), w.db.now.rows.rows.map (·.offset))) =
      some (some true, [0, 4]) := by
    decide +kernel
  have hwhole : ((insertCarved .plain "source" carveName .empty
      ((engine.scan (args 8) 0 2).run (memReader nested))).rows.map (·.offset)) = [0] := by
    decide +kernel
  obtain ⟨w, hw, hvals⟩ := Option.map_eq_some_iff.1 hrun
  obtain ⟨hdone, hoffsets⟩ := Prod.mk.inj hvals
  refine ⟨w, hw, hdone, fun heq => ?_⟩
  rw [heq, hwhole] at hoffsets
  cases hoffsets

end LetterFiles

end Reclaim
