import Reclaim.Imaging.Run

/-!
# The rule for a run of the imager

The program is walked through once.  `wp_imageStep` is the step lemma of the chunk loop, with
`ImageRun.LoopInv` as its invariant, and `image_rule` the result for a whole run: every world it
passes through is the one it started in or is left by an opened run at some progress, every error
is a failed file operation or a refusal to open, a run that returns complete has recorded and
written every chunk, and one that returns incomplete was cancelled.

Everything later sections say about crashes, resumes and finished images follows from this rule
and from the facts about progress, without going back to the program.
-/

namespace Reclaim

open FileBytes CrashLogic

variable {σ : Type}

/-! ## Recording a chunk -/

/-- Pushing new sectors one by one keeps an exact list exact. -/
lemma Exact.pushAll {runs : List LbaRange} {lbas : List ℕ} (h : Exact runs) (hnodup : lbas.Nodup)
    (hlt : ∀ x ∈ lbas, x < u64Max) (hnew : ∀ x ∈ lbas, ¬ InRanges runs x) :
    Exact (runs ++ lbas.map fun x => ⟨x, 1⟩) := by
  induction lbas generalizing runs with
  | nil => simpa using h
  | cons x lbas ih =>
    obtain ⟨hx, hrest⟩ := List.nodup_cons.1 hnodup
    have hx64 := hlt x List.mem_cons_self
    have hpushed := h.push hx64 (hnew x List.mem_cons_self)
    have := ih hpushed hrest (fun y hy => hlt y (List.mem_cons_of_mem _ hy)) fun y hy hin => ?_
    · simpa using this
    · rw [inRanges_append, inRanges_cons, contains_single hx64] at hin
      rcases hin with hin | rfl | hin
      · exact hnew y (List.mem_cons_of_mem _ hy) hin
      · exact hx hy
      · exact inRanges_nil _ hin

lemma inRanges_pushAll {lbas : List ℕ} (hlt : ∀ x ∈ lbas, x < u64Max) (x : ℕ) :
    InRanges (lbas.map fun x => ⟨x, 1⟩) x ↔ x ∈ lbas := by
  induction lbas with
  | nil => simp
  | cons y lbas ih =>
    rw [List.map_cons, inRanges_cons, contains_single (hlt y List.mem_cons_self),
      ih fun z hz => hlt z (List.mem_cons_of_mem _ hz), List.mem_cons]

lemma totalCount_pushAll (runs : List LbaRange) (lbas : List ℕ) :
    totalCount (runs ++ lbas.map fun x => ⟨x, 1⟩) = totalCount runs + lbas.length := by
  simp [totalCount, Function.comp_def]

namespace ImageRun

variable {r : ImageRun σ}

/-- The sectors of chunk `n` that stayed bad, as the map lists them. -/
def leftBadOf (r : ImageRun σ) (n : ℕ) : List ℕ :=
  (r.record n).stillBad.map fun s => r.offset n / r.src.sector + s

lemma mem_leftBadOf {n lba : ℕ} :
    lba ∈ r.leftBadOf n ↔ ∃ s ∈ (r.record n).stillBad, lba = r.offset n / r.src.sector + s := by
  simp [leftBadOf, eq_comm]

/-- A listed sector begins inside the source, so it is no `u64` overflow. -/
lemma Sound.lba_lt (hs : r.Sound) {n s : ℕ} (hn : n < r.map.numChunks)
    (h : s < divCeil (r.len n) r.src.sector) : r.offset n / r.src.sector + s < u64Max := by
  have hss := r.src.sector_pos
  rw [lt_divCeil_iff hss] at h
  have h1 := Nat.div_mul_le_self (r.offset n) r.src.sector
  have h2 := offset_add_len_le (hs.offset_lt hn).le
  have h3 : (r.offset n / r.src.sector + s) * 1 ≤
      (r.offset n / r.src.sector + s) * r.src.sector := Nat.mul_le_mul_left _ hss
  have h4 := r.src.len_le
  have h5 := Nat.add_mul (r.offset n / r.src.sector) s r.src.sector
  omega

/-- In an aligned run the sectors of chunk `i` are numbered in the chunk's own stretch. -/
lemma lba_chunk (hal : r.src.sector ∣ r.map.chunkSize) (hpos : 0 < r.map.chunkSize) {i s : ℕ}
    (h : s < divCeil (r.len i) r.src.sector) :
    (r.offset i / r.src.sector + s) * r.src.sector / r.map.chunkSize = i := by
  have hss := r.src.sector_pos
  rw [lt_divCeil_iff hss] at h
  have hlen := r.len_le i
  have hoff : r.offset i / r.src.sector * r.src.sector = r.offset i :=
    Nat.div_mul_cancel (Dvd.dvd.mul_left hal i)
  rw [Nat.add_mul, hoff, offset, Nat.div_eq_iff hpos]
  omega

/-- In an aligned run the sectors of chunk `n` are not listed before turn `n`. -/
lemma MapAt.not_inRanges {n lba : ℕ} {m : ImageMap} (h : r.MapAt n m) (hs : r.Sound)
    (hal : r.src.sector ∣ r.map.chunkSize) (hp : r.Pending n) (hlba : lba ∈ r.leftBadOf n) :
    ¬ InRanges m.bad lba := by
  obtain ⟨s, hsb, rfl⟩ := mem_leftBadOf.1 hlba
  have hn := lba_chunk hal hs.chunkSize_pos (stillBad_lt hsb)
  rw [h.bad]
  rintro (hin | ⟨i, hi, hpi, s', hs', heq⟩)
  · obtain ⟨i, hdone, s', hs', heq⟩ := hs.bad _ hin
    have hi := lba_chunk hal hs.chunkSize_pos hs'
    rw [← heq, hn] at hi
    exact not_pending_of_done (hi ▸ hdone) hp
  · have hi' := lba_chunk hal hs.chunkSize_pos (stillBad_lt hs')
    rw [← heq, hn] at hi'
    omega

/-- The map after chunk `n` is recorded. -/
def recorded (r : ImageRun σ) (n : ℕ) (m : ImageMap) : ImageMap :=
  (m.recordBad (r.offset n) r.src.sector (r.record n).stillBad).recordHash n
    (hashBytes r.B m.hashAlgo (r.record n).buf)

lemma recorded_bad (n : ℕ) (m : ImageMap) :
    (r.recorded n m).bad = m.bad ++ (r.leftBadOf n).map fun x => ⟨x, 1⟩ := by
  simp [recorded, ImageMap.recordHash, ImageMap.recordBad, leftBadOf, Function.comp_def]

lemma leftBadOf_lt (hs : r.Sound) {n : ℕ} (hn : n < r.map.numChunks) :
    ∀ x ∈ r.leftBadOf n, x < u64Max := by
  intro x hx
  obtain ⟨s, hsb, rfl⟩ := mem_leftBadOf.1 hx
  exact hs.lba_lt hn (stillBad_lt hsb)

lemma nodup_leftBadOf (n : ℕ) : (r.leftBadOf n).Nodup := by
  exact (r.obtained n).2.nodup_stillBad.map fun a b hab => by simpa using hab

lemma exact_recorded {n : ℕ} {m : ImageMap} (h : r.MapAt n m) (hs : r.Sound)
    (hal : r.src.sector ∣ r.map.chunkSize) (hp : r.Pending n) (he : Exact m.bad) :
    Exact (r.recorded n m).bad := by
  rw [recorded_bad]
  exact he.pushAll (nodup_leftBadOf n) (leftBadOf_lt hs hp.1)
    fun x hx => h.not_inRanges hs hal hp hx

/-- **Recording chunk `n` takes the map to progress `n + 1`.** -/
lemma MapAt.record {n : ℕ} {m : ImageMap} (h : r.MapAt n m) (hs : r.Sound) (hp : r.Pending n) :
    r.MapAt (n + 1) { r.recorded n m with frames := r.framesAt (n + 1) } where
  header := ⟨h.header.1, h.header.2, h.header.3, h.header.4, h.header.5, h.header.6, h.header.7⟩
  frames := rfl
  hashes i := by
    have hlt : n < m.chunkHashes.length := by
      have := h.numChunks
      rw [ImageMap.numChunks] at this
      rw [this]
      exact hp.1
    show (m.chunkHashes.set n (some (hashBytes r.B m.hashAlgo (r.record n).buf)))[i]? = _
    by_cases hi : i = n
    · subst hi
      rw [List.getElem?_set_self hlt, hashAt_succ_self hp, hashBytes_eq, h.header.hashAlgo]
    · rw [List.getElem?_set_ne (Ne.symm hi), h.hashes, hashAt_succ_of_ne hi]
  bad lba := by
    show InRanges (r.recorded n m).bad lba ↔ _
    rw [recorded_bad, inRanges_append, inRanges_pushAll (leftBadOf_lt hs hp.1), h.bad,
      leftBad_succ_of_pending hp, mem_leftBadOf, or_assoc]
  exact hc := exact_recorded h hs hc.aligned hp (h.exact hc)

/-! ## The chunk loop -/

/-- What a run throws once it has opened its files: a failed file operation. -/
def ThrownAt (r : ImageRun σ) (env : Env) (e : ImageError) (v : World σ) : Prop :=
  r.CrashAt v ∧ ∃ op, e = .os op ∧ env.fault op = true

lemma SavedBy.mono {m n : ℕ} {w : World σ} (h : r.SavedBy m w) (hmn : m ≤ n) : r.SavedBy n w := by
  rcases h with h | ⟨k, hk, hrest⟩
  · exact .inl h
  · exact .inr ⟨k, hk.trans hmn, hrest⟩

/-- Saving a map of the present progress. -/
lemma SavedBy.save {n : ℕ} {w : World σ} {m : ImageMap} (h : r.SavedBy n w) (hm : r.MapAt n m)
    (hdev : w.device = r.deviceAt n) : r.SavedBy n (w.saveMap m) := by
  refine .inr ⟨n, le_rfl, m, ?_⟩
  rcases h with ⟨hsaves, -⟩ | ⟨k, -, -, l, -, -, hsaves⟩
  · exact ⟨[], rfl, hm, by simp [hsaves, hdev]⟩
  · exact ⟨l ++ [(r.deviceAt k).reads.length], rfl, hm, by simp [hsaves, hdev]⟩

lemma LoopInv.crashAt {n : ℕ} {st : RunState} {w : World σ} (h : r.LoopInv n st w) :
    r.CrashAt w := by
  obtain ⟨f, hf, hfile, hfrom⟩ := h.out
  exact ⟨n, n, f, le_rfl, hf, hfile, hfile.mixed hfrom, h.saved, h.device⟩

/-- The invariant looks at the map through its snapshot, so it does not see a counter move. -/
lemma LoopInv.congr {n : ℕ} {st st' : RunState} {w : World σ} (h : r.LoopInv n st w)
    (hmap : st'.map = st.map) (hdest : st'.dest = st.dest) (htotal : st'.badTotal = st.badTotal) :
    r.LoopInv n st' w where
  dest := hdest.trans h.dest
  map := by
    have := h.map
    rw [RunState.snapshot] at this ⊢
    rwa [hmap, hdest]
  counted hc := by
    rw [hmap, htotal]
    exact h.counted hc
  device := h.device
  out := h.out
  saved := h.saved

/-- Coalescing the bad runs keeps the invariant. -/
lemma LoopInv.coalesced {n : ℕ} {st : RunState} {w : World σ} (h : r.LoopInv n st w) (k : ℕ) :
    r.LoopInv n { st with map := st.coalesced, chunksSinceCkpt := k } w where
  dest := h.dest
  map := h.map.coalesce
  counted hc := by
    obtain ⟨hexact, htotal⟩ := h.counted hc
    have hexact' := hexact.coalesce
    refine ⟨hexact', ?_⟩
    show st.badTotal = totalCount (Reclaim.coalesce st.map.bad)
    rw [htotal, hexact, hexact', memberSectors_coalesce]
  device := h.device
  out := h.out
  saved := h.saved

/-- A checkpoint keeps the invariant, whether or not its save succeeds. -/
lemma wp_checkpoint {E : ImageError → World σ → Prop} {env : Env} {i n : ℕ} {st : RunState}
    {w : World σ} (h : r.LoopInv n st w) :
    wp r.CrashAt E (fun st' v => r.LoopInv n st' v) (checkpoint env i st) w := by
  unfold checkpoint
  dsimp only
  split
  · have hco := h.coalesced 0
    simp only [wp_bind]
    apply wp_attempt
    rw [wp_saveMap]
    split
    · simpa using hco
    · refine ⟨hco.crashAt, ?_⟩
      rw [wp_pure]
      exact ⟨hco.dest, hco.map, hco.counted, hco.device, hco.out, hco.saved.save hco.map hco.device⟩
  · rw [wp_pure]
    exact h.congr rfl rfl rfl

/-- **The step lemma.**  Reading, recording and writing pending chunk `n` takes the loop invariant
from `n` to `n + 1`, and can be cut anywhere. -/
lemma wp_imageChunk {env : Env} {n : ℕ} {st : RunState} {w : World σ} (hs : r.Sound)
    (h : r.LoopInv n st w) (hp : r.Pending n) :
    wp r.CrashAt (r.ThrownAt env) (fun st' v => r.LoopInv (n + 1) st' v)
      (imageChunk r.B r.src r.opts env n st) w := by
  obtain ⟨f, hout, hfile, hfrom⟩ := h.out
  have hcs : st.map.chunkSize = r.map.chunkSize := h.map.header.chunkSize
  have hchunk : readChunk r.src r.opts.retries r.opts.reversePass (n * st.map.chunkSize)
      (min (r.src.len - n * st.map.chunkSize) st.map.chunkSize) w.device =
        r.chunkAt n (r.deviceAt n) := by
    rw [hcs, h.device]
    rfl
  set w1 := w.withDevice (r.deviceAt (n + 1)) with hw1
  -- the world once the chunk is read, with the destination still at progress `n`
  have hcrash : ∀ g, r.FileAt n g → r.Mixed g → r.CrashAt (w1.withOut (.regular g)) :=
    fun g hg hmix => ⟨n, n + 1, g, Nat.le_succ n, rfl, hg, hmix, h.saved, rfl⟩
  have hnext : ∀ g, r.FileAt (n + 1) g → r.UntouchedFrom (n + 1) g → ∀ st' : RunState,
      st'.dest = r.destAt (n + 1) → st'.map = r.recorded n st.map →
      st'.badTotal = st.badTotal + (r.record n).stillBad.length →
      r.LoopInv (n + 1) st' (w1.withOut (.regular g)) := by
    intro g hg hg' st' hdest hmap htotal
    refine ⟨hdest, ?_, fun hc => ?_, rfl, ⟨g, rfl, hg, hg'⟩, h.saved.mono (Nat.le_succ n)⟩
    · have hrec := h.map.record hs hp
      rw [RunState.snapshot, hmap, hdest]
      exact hrec
    · obtain ⟨hexact, hcount⟩ := h.counted hc
      have hexact' : Exact (r.recorded n st.snapshot).bad :=
        exact_recorded h.map hs hc.aligned hp hexact
      refine ⟨hmap ▸ hexact', ?_⟩
      rw [htotal, hmap, recorded_bad, totalCount_pushAll, hcount, leftBadOf, List.length_map]
  unfold imageChunk
  dsimp only
  simp only [wp_bind, wp_onDevice, hchunk, ← deviceAt_succ_of_pending hp, ← hw1]
  refine ⟨h.crashAt, ?_⟩
  rw [show (r.chunkAt n (r.deviceAt n)).1 = r.record n from rfl, hcs]
  have hout1 : w1 = w1.withOut (.regular f) := by
    rw [hw1, World.withDevice, World.withOut]
    simp only [← hout]
  have hdest := h.dest
  have hmixed := hfile.mixed hfrom
  -- the three ways a chunk is written
  rw [hdest, ImageDest.writeChunk]
  cases hc : r.map.compression with
  | none =>
    simp only [destAt, hc]
    have hsame : r.destAt (n + 1) = ⟨.none, r.opts.sparse, r.cursorAt n, r.framesAt n⟩ := by
      simp [destAt, cursorAt, framesAt, hc]
    split
    · rename_i hskip
      have hskip : r.Skipped n := by simpa [Skipped] using hskip
      rw [wp_pure, hout1]
      exact wp_checkpoint (hnext f (hfile.skip hfrom hp hc hskip)
        (hfrom.mono (Nat.le_succ n)) _ hsame.symm rfl rfl)
    · rename_i hskip
      have hskip : ¬ r.Skipped n := by simpa [Skipped] using hskip
      have hwo : r.writeOffset n = r.offset n := by simp [writeOffset, hc]
      have hwd : r.writeData n = (r.record n).buf := by simp [writeData, hc]
      have hpre := fun k => hfile.write_prefix hp k
      have hmix := fun k => hmixed.write_prefix hp k
      have hall := hfile.write hp fun _ => hskip
      have hunt := hfrom.write
      simp only [hwo, hwd] at hpre hmix hall hunt
      simp only [wp_bind, wp_pure]
      rw [hout1]
      refine wp_writeAll (fun k => hcrash _ (hpre k) (hmix k))
        (fun k hfault => ⟨hcrash _ (hpre k) (hmix k), _, rfl, hfault⟩) fun _ => ?_
      exact wp_checkpoint (hnext _ hall hunt _ hsame.symm rfl rfl)
  | zstd =>
    simp only [destAt, hc]
    have hsame : r.destAt (n + 1) = ⟨.zstd, r.opts.sparse,
        r.cursorAt n + (r.compressed n).length, r.framesAt n ++ [r.frameOf n]⟩ := by
      simp [destAt, cursorAt, framesAt, hc, hp]
    have hwo : r.writeOffset n = r.cursorAt n := by simp [writeOffset, hc]
    have hwd : r.writeData n = r.compressed n := by simp [writeData, hc]
    have hpre := fun k => hfile.write_prefix hp k
    have hmix := fun k => hmixed.write_prefix hp k
    have hall := hfile.write hp (by simp [hc])
    have hunt := hfrom.write
    simp only [hwo, hwd] at hpre hmix hall hunt
    simp only [wp_bind, wp_pure]
    rw [hout1]
    refine wp_writeAll (fun k => hcrash _ (hpre k) (hmix k))
      (fun k hfault => ⟨hcrash _ (hpre k) (hmix k), _, rfl, hfault⟩) fun _ => ?_
    exact wp_checkpoint (hnext _ hall hunt _ hsame.symm rfl rfl)

/-- Cancelling saves what there is. -/
lemma wp_cancelRun {E : ImageError → World σ → Prop} {env : Env} {n : ℕ} {st : RunState}
    {w : World σ} (h : r.LoopInv n st w) :
    wp r.CrashAt E (fun out v => out.complete = false ∧ r.CrashAt v) (cancelRun env st) w := by
  have hsync : ∀ v : World σ, r.CrashAt v →
      wp r.CrashAt E (fun (out : ImageOutcome) v => out.complete = false ∧ r.CrashAt v)
        ((ImageDest.sync env .syncOnCancel).attempt >>= fun _ =>
          pure ⟨false, decide (0 < st.badTotal), st.badTotal, none⟩) v := by
    intro v hv
    rw [wp_bind]
    apply wp_attempt
    simp only [ImageDest.sync, wp_bind, wp_mayFail, wp_update, wp_pure]
    split
    · exact ⟨trivial, hv⟩
    · exact ⟨hv, trivial, hv⟩
  unfold cancelRun
  rw [wp_bind]
  apply wp_attempt
  rw [wp_saveMap]
  split
  · exact hsync _ h.crashAt
  · obtain ⟨f, hf, hfile, hfrom⟩ := h.out
    exact ⟨h.crashAt, hsync _ ⟨n, n, f, le_rfl, hf, hfile, hfile.mixed hfrom,
      h.saved.save h.map h.device, h.device⟩⟩

/-- A chunk that was done at the start is passed over. -/
lemma LoopInv.succ_of_not {n : ℕ} {st : RunState} {w : World σ} (h : r.LoopInv n st w)
    (hn : n < r.map.numChunks) (hp : ¬ r.Pending n) : r.LoopInv (n + 1) st w where
  dest := by
    have hcursor : r.cursorAt (n + 1) = r.cursorAt n := if_neg fun h' => hp h'.2
    have hframes : r.framesAt (n + 1) = r.framesAt n := if_neg fun h' => hp h'.2
    rw [h.dest, destAt, destAt, hcursor, hframes]
  map := h.map.succ_of_not hp
  counted := h.counted
  device := by rw [h.device, deviceAt_succ_of_not hp]
  out := by
    obtain ⟨f, hf, hfile, hfrom⟩ := h.out
    have hdone := (r.pending_or_done hn).resolve_left hp
    exact ⟨f, hf, hfile.succ_of_done hdone, hfrom.mono (Nat.le_succ n)⟩
  saved := h.saved.mono (Nat.le_succ n)

/-- How a turn of the chunk loop, or the whole loop, ends: with a cancelled run, or with a state
at progress `n`; the loop never breaks off. -/
def LoopEnds (r : ImageRun σ) (env : Env) (n : ℕ) : Exit ⊕ RunState → World σ → Prop
  | .inl (.returned out), v => out.complete = false ∧ r.CrashAt v ∧ ∃ i, env.cancel i = true
  | .inl (.broke _), _ => False
  | .inr st, v => r.LoopInv n st v

/-- One turn of the chunk loop. -/
lemma wp_imageStep (env : Env) {n : ℕ} {st : RunState} {w : World σ} (hs : r.Sound)
    (hn : n < r.map.numChunks) (h : r.LoopInv n st w) :
    wp r.CrashAt (r.ThrownAt env) (r.LoopEnds env (n + 1))
      (imageStep r.B r.src r.opts env n st) w := by
  have hdone : st.map.isChunkDone n = r.map.isChunkDone n := h.map.isChunkDone_self
  have hlen : min (r.src.len - n * st.map.chunkSize) st.map.chunkSize ≠ 0 := by
    have hpos := hs.len_pos hn
    rw [show st.map.chunkSize = r.map.chunkSize from h.map.header.chunkSize]
    exact hpos.ne'
  unfold imageStep
  by_cases hcancel : env.cancel n = true
  · simp only [hcancel, if_true, wp_bind, wp_pure]
    exact wp_post (wp_cancelRun h) fun out v hv => ⟨hv.1, hv.2, n, hcancel⟩
  · rw [if_neg hcancel, hdone]
    by_cases hd : r.map.isChunkDone n = true
    · rw [if_pos hd, wp_pure]
      exact h.succ_of_not hn (not_pending_of_done hd)
    · rw [if_neg hd, if_neg hlen, wp_bind]
      have hp : r.Pending n := (r.pending_or_done hn).resolve_right hd
      apply wp_post (wp_imageChunk hs h hp)
      intro st' v hv
      rw [wp_pure]
      exact hv

/-! ## The end of a run -/

/-- What a run that returns complete leaves: every chunk is recorded and was written, and the map
carries the hash of the finished image. -/
structure Finished (r : ImageRun σ) (out : ImageOutcome) (v : World σ) (f : Bytes)
    (m : ImageMap) : Prop where
  complete : out.complete = true
  out_eq : v.disk.out = .regular f
  map_eq : v.disk.map = .saved m
  file : r.FileAt r.map.numChunks f
  length : r.map.compression = .none → f.length = r.src.len
  map : r.MapAt r.map.numChunks m
  whole : m.wholeHash = some (computeIdentity r.B f m).1
  reported : out.wholeHash = m.wholeHash
  counted : r.Counted → out.badSectors = (memberSectors m.bad).card
  device : v.device = r.deviceAt r.map.numChunks
  saves : ∃ l, v.saves = r.saves ++ l ++ [(r.deviceAt r.map.numChunks).reads.length]

/-- Once the loop is through, every chunk is recorded. -/
lemma MapAt.all_done {m : ImageMap} (h : r.MapAt r.map.numChunks m) :
    m.chunkHashes.all (·.isSome) = true := by
  rw [List.all_eq_true]
  intro x hx
  obtain ⟨i, hi, rfl⟩ := List.getElem_of_mem hx
  have hi' : i < r.map.numChunks := by
    rw [← h.numChunks]
    exact hi
  have hdone : m.isChunkDone i = true :=
    h.isChunkDone.2 ((r.pending_or_done hi').symm.imp_right fun hp => ⟨hi', hp⟩)
  obtain ⟨y, hy⟩ := ImageMap.isChunkDone_iff.1 hdone
  rw [List.getElem?_eq_getElem hi, Option.some.injEq] at hy
  rw [hy]
  rfl

/-- Setting the length of the output keeps the invariant at the end of the loop. -/
lemma LoopInv.setLen {st : RunState} {w : World σ} (hs : r.Sound) {f : Bytes}
    (h : r.LoopInv r.map.numChunks st w) (hf : w.disk.out = .regular f)
    (hc : r.map.compression = .none) :
    r.LoopInv r.map.numChunks st (w.withOut (.regular (FileBytes.setLen f r.src.len))) where
  dest := h.dest
  map := h.map
  counted := h.counted
  device := h.device
  out := by
    obtain ⟨g, hg, hfile, -⟩ := h.out
    obtain rfl : g = f := by rw [hf] at hg; exact (OutNode.regular.inj hg).symm
    refine ⟨_, rfl, hfile.setLen hs hc, fun _ i hi hp => ?_⟩
    exact absurd hp.1 (not_lt.2 hi)
  saved := h.saved

lemma LoopInv.syncOut {n : ℕ} {st : RunState} {w : World σ} (h : r.LoopInv n st w) :
    r.LoopInv n st w.syncOut :=
  ⟨h.dest, h.map, h.counted, h.device, h.out, h.saved⟩

/-- Hashing the output and saving the map, every chunk being recorded. -/
lemma wp_sealImage {env : Env} {st : RunState} {w : World σ}
    (h : r.LoopInv r.map.numChunks st w)
    (hlen : ∀ f, w.disk.out = .regular f → r.map.compression = .none → f.length = r.src.len) :
    wp r.CrashAt (r.ThrownAt env) (fun out v => ∃ f m, r.Finished out v f m)
      (sealImage r.B env st) w := by
  have hmap := h.map.coalesce
  obtain ⟨f, hf, hfile, -⟩ := h.out
  have hall : st.coalesced.chunkHashes.all (·.isSome) = true := h.map.all_done
  unfold sealImage
  simp only [hall, if_true, identityOf, wp_bind, wp_mayFail, wp_gets, wp_saveMap, wp_pure, hf]
  split
  · rename_i hfault
    exact ⟨h.crashAt, _, rfl, hfault⟩
  · split
    · rename_i hfault
      exact ⟨h.crashAt, _, rfl, hfault⟩
    · refine ⟨h.crashAt, f, _, rfl, hf, rfl, hfile, hlen f hf,
        ⟨⟨hmap.header.1, hmap.header.2, hmap.header.3, hmap.header.4, hmap.header.5,
          hmap.header.6, hmap.header.7⟩, hmap.frames, hmap.hashes, hmap.bad, hmap.exact⟩,
        rfl, rfl, fun hc => ?_, h.device, ?_⟩
      · obtain ⟨hexact, htotal⟩ := h.counted hc
        show st.badTotal = (memberSectors (Reclaim.coalesce st.map.bad)).card
        rw [htotal, hexact, memberSectors_coalesce]
      · rw [World.saves_saveMap, h.device]
        rcases h.saved with ⟨hsaves, -⟩ | ⟨k, -, -, l, -, -, hsaves⟩
        · exact ⟨[], by rw [hsaves, List.append_nil]⟩
        · exact ⟨l ++ [(r.deviceAt k).reads.length], by rw [hsaves, List.append_assoc r.saves]⟩

/-- **The end of a run** whose loop went through: it returns complete or a file operation failed. -/
lemma wp_finalize {env : Env} {st : RunState} {w : World σ} (hs : r.Sound)
    (h : r.LoopInv r.map.numChunks st w) :
    wp r.CrashAt (r.ThrownAt env) (fun out v => ∃ f m, r.Finished out v f m)
      (finalize r.B r.src env st) w := by
  have hcomp : st.dest.compression = r.map.compression := by rw [h.dest]; rfl
  -- behind `set_logical_len`
  have hrest : ∀ v : World σ, r.LoopInv r.map.numChunks st v →
      (∀ f, v.disk.out = .regular f → r.map.compression = .none → f.length = r.src.len) →
      wp r.CrashAt (r.ThrownAt env) (fun _ u => wp r.CrashAt (r.ThrownAt env)
        (fun out v => ∃ f m, r.Finished out v f m) (sealImage r.B env st) u)
        (ImageDest.sync env .sync) v := by
    intro v hv hlen
    simp only [ImageDest.sync, wp_bind, wp_mayFail, wp_update]
    split
    · rename_i hfault
      exact ⟨hv.crashAt, _, rfl, hfault⟩
    · exact ⟨hv.crashAt, wp_sealImage hv.syncOut hlen⟩
  unfold finalize
  simp only [wp_bind, ImageDest.setLogicalLen, hcomp]
  cases hc : r.map.compression with
  | none =>
    obtain ⟨f, hf, -⟩ := h.out
    simp only [wp_bind, wp_mayFail, wp_gets, hf, wp_setOut]
    split
    · rename_i hfault
      exact ⟨h.crashAt, _, rfl, hfault⟩
    · refine ⟨h.crashAt, hrest _ (h.setLen hs hf hc) fun g hg _ => ?_⟩
      obtain rfl := OutNode.regular.inj hg
      exact length_setLen _ _
  | zstd =>
    rw [wp_pure]
    exact hrest w h fun f _ hno => absurd (hc.symm.trans hno) (by decide)

/-- How a run that has opened its files returns. -/
def ReturnsAt (r : ImageRun σ) (env : Env) (out : ImageOutcome) (v : World σ) : Prop :=
  (∃ f m, r.Finished out v f m) ∨ out.complete = false ∧ r.CrashAt v ∧ ∃ i, env.cancel i = true

/-- **A run from the point where its files are open.** -/
lemma wp_imageFrom (env : Env) {w : World σ} (hs : r.Sound) (hdev : w.device = r.device)
    (hmap : w.disk.map = r.diskMap) (hsaves : w.saves = r.saves)
    (hout : w.disk.out = .regular r.file) :
    wp r.CrashAt (r.ThrownAt env) (r.ReturnsAt env)
      (imageFrom r.B r.src r.opts env r.map (r.destAt 0)) w := by
  have hinit : r.LoopInv 0 ⟨r.map, r.destAt 0, r.map.badSectors, 0⟩ w :=
    ⟨rfl, mapAt_zero rfl, fun hc => ⟨hc.exact, rfl⟩, hdev,
      ⟨r.file, hout, r.fileAt_zero, r.untouchedFrom_zero⟩, .inl ⟨hsaves, hmap⟩⟩
  unfold imageFrom
  rw [wp_bind]
  have hloop : wp r.CrashAt (r.ThrownAt env) (r.LoopEnds env r.map.numChunks)
      (Cmd.forEach (List.range r.map.numChunks) (imageStep r.B r.src r.opts env)
        ⟨r.map, r.destAt 0, r.map.badSectors, 0⟩) w :=
    wp_forRange (I := r.LoopInv)
      (fun n st u hn h => wp_post (wp_imageStep env hs hn h) fun ended v hv => by
        cases ended with
        | inl ex => cases ex with
          | returned out => exact hv
          | broke st' => exact hv.elim
        | inr st' => exact hv) (fun st u h => h) hinit
  apply wp_post hloop
  intro ended u hu
  cases ended with
  | inl ex => cases ex with
    | returned out =>
      rw [wp_pure]
      exact .inr hu
    | broke st => exact hu.elim
  | inr st => exact wp_post (wp_finalize hs hu) fun out x hx => .inl hx

end ImageRun

/-! ## The rule -/

/-- The map a run opens: the one on disk when it resumes and there is one, else a fresh one. -/
def OpensMap (src : BlockSource σ) (opts : ImageOptions) (file : MapFile) (m : ImageMap) : Prop :=
  (opts.resume = true ∧ file = .saved m ∧ m.sourceId = src.id ∧ m.size = src.len ∧
    m.chunkSize ≠ 0) ∨
  ((opts.resume = false ∨ file = .absent) ∧ m = freshMap src opts)

/-- The run that opens its files in the world `w`: it appends to the output that is there when it
resumes, and begins with an empty one otherwise. -/
structure Opens (B : Backend) (src : BlockSource σ) (opts : ImageOptions) (w : World σ)
    (r : ImageRun σ) : Prop where
  backend : r.B = B
  src_eq : r.src = src
  opts_eq : r.opts = opts
  map : OpensMap src opts w.disk.map r.map
  device : r.device = w.device
  diskMap : r.diskMap = w.disk.map
  saves : r.saves = w.saves
  dest : (isResuming opts r.map = true ∧ w.disk.out = .regular r.file ∧
      r.frames = r.map.frames) ∨
    ((isResuming opts r.map = false ∨ w.disk.out = .absent) ∧ w.disk.out ≠ .special ∧
      r.file = [] ∧ r.frames = [])

/-- What a run started in `w` may leave when it is cut: what it started with, or what an opened
run leaves. -/
def Cut (B : Backend) (src : BlockSource σ) (opts : ImageOptions) (w v : World σ) : Prop :=
  v = w ∨ ∃ r, Opens B src opts w r ∧ r.CrashAt v

/-- Why a run throws: a file operation failed, or its files could not be opened. -/
def Blamed (B : Backend) (src : BlockSource σ) (opts : ImageOptions) (env : Env) (w : World σ)
    (e : ImageError) : Prop :=
  (∃ op, e = .os op ∧ env.fault op = true) ∨ ¬ ∃ r, Opens B src opts w r

/-- How a run started in `w` throws. -/
def Throws (B : Backend) (src : BlockSource σ) (opts : ImageOptions) (env : Env) (w : World σ)
    (e : ImageError) (v : World σ) : Prop :=
  Cut B src opts w v ∧ Blamed B src opts env w e

/-- How a run started in `w` returns. -/
def Returns (B : Backend) (src : BlockSource σ) (opts : ImageOptions) (env : Env) (w : World σ)
    (out : ImageOutcome) (v : World σ) : Prop :=
  ∃ r, Opens B src opts w r ∧ r.ReturnsAt env out v

variable {B : Backend} {src : BlockSource σ} {opts : ImageOptions} {env : Env} {w : World σ}

/-- A world in which the run's files are open: `w` but for the output. -/
structure Opened (r : ImageRun σ) (w v : World σ) : Prop where
  device : v.device = w.device
  map : v.disk.map = w.disk.map
  synced : v.disk.synced = w.disk.synced
  saves : v.saves = w.saves
  out : v.disk.out = .regular r.file

section Opening

variable {C : World σ → Prop} {E : ImageError → World σ → Prop} {Q : ImageOutcome → World σ → Prop}

/-- A map in hand, the destination is opened and the run goes through. -/
lemma wp_openDest {outPath : String} {m : ImageMap} (hm : OpensMap src opts w.disk.map m)
    (hw : C w) (hblamed : ∀ e, Blamed B src opts env w e → E e w)
    (hrun : ∀ r v, Opens B src opts w r → Opened r w v →
      wp C E Q (imageFrom B src opts env r.map (r.destAt 0)) v) :
    wp C E (fun dest v => wp C E Q (imageFrom B src opts env m dest) v)
      (openDest env outPath opts m) w := by
  have hrefuse : w.disk.out = .special → ¬ ∃ r, Opens B src opts w r := by
    rintro hsp ⟨r, ho⟩
    rcases ho.dest with ⟨-, hreg, -⟩ | ⟨-, hno, -⟩
    · rw [hsp] at hreg
      exact absurd hreg (by simp)
    · exact hno hsp
  set mk : Bytes → List FrameEntry → ImageRun σ := fun file frames =>
    ⟨B, src, opts, m, frames, file, w.device, w.disk.map, w.saves⟩ with hmk
  unfold openDest
  simp only [wp_bind, wp_gets]
  split
  · -- append to what is there
    rename_i happ
    simp only [Bool.and_eq_true, decide_eq_true_eq] at happ
    simp only [ImageDest.openAppend, ImageDest.refuseNonRegular, wp_bind, wp_gets]
    cases hout : w.disk.out with
    | absent => exact absurd hout happ.2
    | special =>
      simp only [if_true, wp_fail]
      exact hblamed _ (.inr (hrefuse hout))
    | regular f =>
      have ho : Opens B src opts w (mk f m.frames) :=
        ⟨rfl, rfl, rfl, hm, rfl, rfl, rfl, .inl ⟨happ.1, hout, rfl⟩⟩
      simp only [reduceCtorEq, if_false, wp_pure, wp_mayFail]
      split
      · rename_i hfault
        exact hblamed _ (.inl ⟨_, rfl, hfault⟩)
      · exact hrun _ w ho ⟨rfl, rfl, rfl, rfl, hout⟩
  · -- begin with an empty file
    rename_i hcreate
    simp only [Bool.and_eq_true, decide_eq_true_eq, not_and_or, Bool.not_eq_true, not_not]
      at hcreate
    simp only [ImageDest.create, ImageDest.refuseNonRegular, wp_bind, wp_gets]
    by_cases hsp : w.disk.out = .special
    · rw [if_pos hsp, wp_fail]
      exact hblamed _ (.inr (hrefuse hsp))
    · have ho : Opens B src opts w (mk [] []) :=
        ⟨rfl, rfl, rfl, hm, rfl, rfl, rfl, .inr ⟨hcreate, hsp, rfl, rfl⟩⟩
      simp only [if_neg hsp, wp_pure, wp_mayFail, wp_setOut]
      split
      · rename_i hfault
        exact hblamed _ (.inl ⟨_, rfl, hfault⟩)
      · refine ⟨hw, ?_⟩
        have hcursor : ImageDest.appendCursorOf m.compression [] = 0 := by
          cases m.compression <;> rfl
        have := hrun _ (w.withOut (.regular [])) ho ⟨rfl, rfl, rfl, rfl, rfl⟩
        simpa [hmk, ImageRun.destAt, ImageRun.cursorAt, ImageRun.framesAt, hcursor] using this

/-- **The opening of a run.**  What is shown of every run from the point where its files are open
holds of the imager, if the world it starts in is one it may leave. -/
theorem wp_image (outPath mapPath : String) (hw : C w)
    (hblamed : ∀ e, Blamed B src opts env w e → E e w)
    (hrun : ∀ r v, Opens B src opts w r → Opened r w v →
      wp C E Q (imageFrom B src opts env r.map (r.destAt 0)) v) :
    wp C E Q (image B src outPath mapPath opts env) w := by
  unfold image openMap
  simp only [wp_bind, wp_gets]
  cases hres : opts.resume with
  | false =>
    simp only [wp_pure]
    exact wp_openDest (.inr ⟨.inl hres, rfl⟩) hw hblamed hrun
  | true =>
    cases hfile : w.disk.map with
    | absent =>
      simp only [wp_pure]
      exact wp_openDest (.inr ⟨.inr hfile, rfl⟩) hw hblamed hrun
    | unreadable =>
      simp only [wp_fail]
      refine hblamed _ (.inr ?_)
      rintro ⟨r, ho⟩
      rcases ho.map with ⟨-, hsaved, -⟩ | ⟨hno | habs, -⟩
      · exact absurd (hfile.symm.trans hsaved) (by simp)
      · exact absurd (hres.symm.trans hno) (by simp)
      · exact absurd (hfile.symm.trans habs) (by simp)
    | saved m =>
      have hrefuse : m.sourceId ≠ src.id ∨ m.size ≠ src.len ∨ m.chunkSize = 0 →
          ¬ ∃ r, Opens B src opts w r := by
        rintro hne ⟨r, ho⟩
        rcases ho.map with ⟨-, hsaved, hid, hsize, hcs⟩ | ⟨hno | habs, -⟩
        · obtain rfl := MapFile.saved.inj (hfile.symm.trans hsaved)
          tauto
        · exact absurd (hres.symm.trans hno) (by simp)
        · exact absurd (hfile.symm.trans habs) (by simp)
      dsimp only
      split
      · rename_i hne
        rw [wp_fail]
        exact hblamed _ (.inr (hrefuse (hne.imp_right .inl)))
      · rename_i hmatch
        rw [not_or, not_not, not_not] at hmatch
        split
        · rename_i hzero
          rw [wp_fail]
          exact hblamed _ (.inr (hrefuse (.inr (.inr hzero))))
        · rename_i hcs
          rw [wp_pure]
          exact wp_openDest (.inl ⟨hres, hfile, hmatch.1, hmatch.2, hcs⟩) hw hblamed hrun

end Opening

/-- **The rule for a run of the imager.**  Whoever shows that the maps it may open are sound gets
what it leaves, throws and returns. -/
theorem image_rule (outPath mapPath : String) (hsound : ∀ r, Opens B src opts w r → r.Sound) :
    wp (Cut B src opts w) (Throws B src opts env w) (Returns B src opts env w)
      (image B src outPath mapPath opts env) w := by
  refine wp_image outPath mapPath (.inl rfl) (fun e he => ⟨.inl rfl, he⟩) fun r v ho hv => ?_
  have hrun := ImageRun.wp_imageFrom env (hsound r ho) (hv.device.trans ho.device.symm)
    (hv.map.trans ho.diskMap.symm) (hv.saves.trans ho.saves.symm) hv.out
  rw [ho.backend, ho.src_eq, ho.opts_eq] at hrun
  exact wp_mono (fun u hu => .inr ⟨r, ho, hu⟩) (fun e u hu => ⟨.inr ⟨r, ho, hu.1⟩, .inl hu.2⟩)
    (fun out u hu => ⟨r, ho, hu⟩) hrun

end Reclaim
