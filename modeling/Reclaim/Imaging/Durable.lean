import Reclaim.Imaging.Fidelity

/-!
# Power loss

A map that was saved survives a power loss whole; of the output only what was written before its
last completed sync is sure to.  `Durable` says that the map on disk marks no chunk done whose
bytes, or whose frame, the synced output does not hold, and `Durable.survives` that a power loss
then takes nothing the map marks done.

A run saves its map in three places.  At its end it syncs first; when it is cancelled it saves
first, and after every 64th chunk it does not sync at all.  `wp_imageFrom_sync` walks through the
program once more and finds that these are the only maps that can be on disk without their data:
either the output is synced as it stands, or the synced output is the one from before the run and
the map on disk is the one from before the run or one of `SavesUnsynced`.  `powerSafe_durable` is
the result for a whole history, each run cut anywhere, with power losses between them.
-/

namespace Reclaim

open FileBytes CrashLogic

variable {σ : Type}

/-! ## What a power loss takes -/

/-- The file `g` holds chunk `i` of a map as `f` does: its bytes in raw output, the frames indexed
for it in zstd output. -/
def SameChunk (m : ImageMap) (g f : Bytes) (i : ℕ) : Prop :=
  match m.compression with
  | .none => slice g (i * m.chunkSize) (m.chunkLen i) = slice f (i * m.chunkSize) (m.chunkLen i)
  | .zstd => ∀ fr ∈ m.frames, fr.imageOffset = i * m.chunkSize →
      slice g fr.fileOffset fr.compressed = slice f fr.fileOffset fr.compressed

/-- Every chunk that the map on disk marks done is in the synced output as it is in the output. -/
def Durable (src : BlockSource σ) (disk : Disk) : Prop :=
  ∀ m, disk.map = .saved m → m.sourceId = src.id → m.size = src.len →
    ∀ i, m.isChunkDone i = true →
      ∃ g f, disk.synced = .regular g ∧ disk.out = .regular f ∧ SameChunk m g f i

/-- A power loss: the map survives, and of the output every byte that the synced output has as
well; the rest of it is arbitrary.  What is there afterwards is on disk. -/
structure PowerLoss (w v : World σ) : Prop where
  map : v.disk.map = w.disk.map
  synced : v.disk.synced = v.disk.out
  out : ∀ g f, w.disk.synced = .regular g → w.disk.out = .regular f →
    ∃ f', v.disk.out = .regular f' ∧ ∀ x, byteAt g x = byteAt f x → byteAt f' x = byteAt f x

/-- Nothing that the map on disk marks done is lost from `w` to `v`. -/
def Survives (B : Backend) (src : BlockSource σ) (w v : World σ) : Prop :=
  ∀ m, v.disk.map = .saved m → m.sourceId = src.id → m.size = src.len →
    ∀ i, m.isChunkDone i = true → ∃ f f', w.disk.out = .regular f ∧ v.disk.out = .regular f' ∧
      storedChunk B f' m i = storedChunk B f m i

lemma SameChunk.refl (m : ImageMap) (f : Bytes) (i : ℕ) : SameChunk m f f i := by
  unfold SameChunk
  split
  · rfl
  · exact fun _ _ _ => rfl

lemma SameChunk.trans {m : ImageMap} {g f f' : Bytes} {i : ℕ} (h : SameChunk m g f i)
    (h' : SameChunk m f f' i) : SameChunk m g f' i := by
  unfold SameChunk at *
  cases hc : m.compression with
  | none =>
    simp only [hc] at h h' ⊢
    exact h.trans h'
  | zstd =>
    simp only [hc] at h h' ⊢
    exact fun fr hfr hoff => (h fr hfr hoff).trans (h' fr hfr hoff)

/-- What holds a chunk alike stores the same for it. -/
lemma SameChunk.storedChunk_eq (B : Backend) {m : ImageMap} {g f : Bytes} {i : ℕ}
    (h : SameChunk m g f i) : storedChunk B g m i = storedChunk B f m i := by
  unfold SameChunk at h
  refine storedChunk_congr rfl rfl rfl (fun hc => ?_) fun hc => ⟨rfl, fun fr hfind => ?_⟩
  · simpa only [hc] using h
  · simp only [hc] at h
    have hmem := List.mem_of_find?_eq_some hfind
    have hoff : fr.imageOffset = i * m.chunkSize := by simpa using List.find?_some hfind
    exact decodeFrame_congr B fun x hx hx' => slice_eq_iff.1 (h fr hmem hoff) x hx hx'

/-- An output that agrees with `f` wherever the synced output does holds the chunk as `f`. -/
lemma SameChunk.of_agrees {m : ImageMap} {g f f' : Bytes} {i : ℕ} (h : SameChunk m g f i)
    (hagree : ∀ x, byteAt g x = byteAt f x → byteAt f' x = byteAt f x) : SameChunk m f' f i := by
  unfold SameChunk at h ⊢
  cases hc : m.compression with
  | none =>
    simp only [hc] at h ⊢
    exact slice_congr fun x hx hx' => hagree x (slice_eq_iff.1 h x hx hx')
  | zstd =>
    simp only [hc] at h ⊢
    intro fr hfr hoff
    exact slice_congr fun x hx hx' => hagree x (slice_eq_iff.1 (h fr hfr hoff) x hx hx')

section Loss

variable {src : BlockSource σ} {w v : World σ}

/-- A synced output is durable. -/
lemma durable_of_synced (h : w.disk.synced = w.disk.out)
    (hreg : ∀ m, w.disk.map = .saved m → ∀ i, m.isChunkDone i = true →
      ∃ f, w.disk.out = .regular f) : Durable src w.disk := by
  intro m hm _ _ i hi
  obtain ⟨f, hf⟩ := hreg m hm i hi
  exact ⟨f, f, h.trans hf, hf, .refl m f i⟩

/-- **A durable image survives a power loss**: a resume skips no chunk whose data is gone. -/
lemma Durable.survives (B : Backend) (h : Durable src w.disk) (hloss : PowerLoss w v) :
    Survives B src w v := by
  intro m hm hid hsize i hi
  obtain ⟨g, f, hg, hf, hsame⟩ := h m (hloss.map.symm.trans hm) hid hsize i hi
  obtain ⟨f', hf', hagree⟩ := hloss.out g f hg hf
  exact ⟨f, f', hf, hf', (hsame.of_agrees hagree).storedChunk_eq B⟩

/-- What is left after a power loss is durable again. -/
lemma Durable.powerLoss (h : Durable src w.disk) (hloss : PowerLoss w v) :
    Durable src v.disk := by
  intro m hm hid hsize i hi
  obtain ⟨g, f, hg, hf, -⟩ := h m (hloss.map.symm.trans hm) hid hsize i hi
  obtain ⟨f', hf', -⟩ := hloss.out g f hg hf
  exact ⟨f', f', hloss.synced.trans hf', hf', .refl m f' i⟩

end Loss

/-! ## Which maps are saved without a sync -/

namespace ImageRun

variable (r : ImageRun σ)

/-- How many chunks the run has recorded before turn `n`. -/
def recordedTo : ℕ → ℕ
  | 0 => 0
  | n + 1 => if r.Pending n then recordedTo n + 1 else recordedTo n

/-- The run comes to turn `n`: it was not cancelled before, and every chunk was written. -/
def Reaches (env : Env) (n : ℕ) : Prop :=
  ∀ i < n, env.cancel i = false ∧
    (r.Pending i → env.fault (.writeChunk i) = true → r.LeftOut i)

/-- At progress `n` the run saves its map with no sync before it: behind a 64th chunk, or because
it is cancelled. -/
def SavesUnsynced (env : Env) (n : ℕ) : Prop :=
  r.Reaches env n ∧
    ((∃ i, n = i + 1 ∧ r.Pending i ∧ 64 ∣ r.recordedTo n ∧ env.fault (.checkpoint i) = false) ∨
      n < r.map.numChunks ∧ env.cancel n = true ∧ env.fault .saveOnCancel = false)

/-- The map on disk is the one from before the run, or one saved without a sync. -/
def MapUnsynced (env : Env) (w : World σ) : Prop :=
  (w.saves = r.saves ∧ w.disk.map = r.diskMap) ∨
    ∃ n m, r.SavesUnsynced env n ∧ r.MapAt n m ∧ w.disk.map = .saved m

/-- What a cut of the run leaves of the output: it is synced as it stands, or the last sync was
before the run. -/
def SyncAt (env : Env) (s : OutNode) (v : World σ) : Prop :=
  v.disk.synced = v.disk.out ∨ v.disk.synced = s ∧ r.MapUnsynced env v

/-- The invariant of the chunk loop as to what is synced and saved. -/
structure LoopSync (env : Env) (s : OutNode) (n : ℕ) (st : RunState) (w : World σ) : Prop where
  inv : r.LoopInv n st w
  synced : w.disk.synced = s
  map : r.MapUnsynced env w
  reaches : r.Reaches env n
  since : st.chunksSinceCkpt = r.recordedTo n % 64

variable {r}

lemma recordedTo_succ_of_pending {n : ℕ} (h : r.Pending n) :
    r.recordedTo (n + 1) = r.recordedTo n + 1 := by rw [recordedTo, if_pos h]

lemma recordedTo_succ_of_not {n : ℕ} (h : ¬ r.Pending n) :
    r.recordedTo (n + 1) = r.recordedTo n := by rw [recordedTo, if_neg h]

/-- A run that has recorded nothing is past no pending chunk. -/
lemma not_pending_of_recordedTo {n : ℕ} (h : r.recordedTo n = 0) : ∀ i < n, ¬ r.Pending i := by
  induction n with
  | zero => exact fun i hi => absurd hi (Nat.not_lt_zero i)
  | succ n ih =>
    by_cases hp : r.Pending n
    · rw [recordedTo_succ_of_pending hp] at h
      exact absurd h (Nat.succ_ne_zero _)
    · rw [recordedTo_succ_of_not hp] at h
      intro i hi
      rcases Nat.lt_succ_iff_lt_or_eq.1 hi with hlt | rfl
      · exact ih h i hlt
      · exact hp

lemma framesAt_of_not_pending {n : ℕ} (h : ∀ i < n, ¬ r.Pending i) : r.framesAt n = r.frames := by
  induction n with
  | zero => rfl
  | succ n ih =>
    rw [framesAt, if_neg fun h' => h n (Nat.lt_succ_self n) h'.2]
    exact ih fun i hi => h i (Nat.lt_succ_of_lt hi)

lemma Reaches.succ {env : Env} {n : ℕ} (h : r.Reaches env n) (hc : env.cancel n = false)
    (hw : r.Pending n → env.fault (.writeChunk n) = true → r.LeftOut n) :
    r.Reaches env (n + 1) := by
  intro i hi
  rcases Nat.lt_succ_iff_lt_or_eq.1 hi with hlt | rfl
  · exact h i hlt
  · exact ⟨hc, hw⟩

lemma LoopSync.syncAt {env : Env} {s : OutNode} {n : ℕ} {st : RunState} {w : World σ}
    (h : r.LoopSync env s n st w) : r.SyncAt env s w := .inr ⟨h.synced, h.map⟩

/-! ## The chunk loop -/

/-- Nothing was synced or saved. -/
structure Kept (w v : World σ) : Prop where
  synced : v.disk.synced = w.disk.synced
  map : v.disk.map = w.disk.map
  saves : v.saves = w.saves

lemma MapUnsynced.kept {env : Env} {w v : World σ} (h : r.MapUnsynced env w) (hk : Kept w v) :
    r.MapUnsynced env v := by
  unfold MapUnsynced
  rw [hk.saves, hk.map]
  exact h

/-- How a checkpoint behind chunk `i` ends. -/
def CheckpointEnds (env : Env) (i since : ℕ) (w : World σ) (st : RunState) (v : World σ) : Prop :=
  if since < 64 then st.chunksSinceCkpt = since ∧ Kept w v
  else st.chunksSinceCkpt = 0 ∧ (Kept w v ∨ env.fault (.checkpoint i) = false ∧
    v.disk.synced = w.disk.synced ∧ v.disk.map = .saved st.snapshot)

/-- A checkpoint does not sync. -/
lemma wp_checkpoint_sync {E : ImageError → World σ → Prop} {env : Env} {i : ℕ} {st : RunState}
    {w u : World σ} (h : Kept w u) :
    wp (Kept w) E (CheckpointEnds env i (st.chunksSinceCkpt + 1) w) (checkpoint env i st) u := by
  unfold checkpoint
  dsimp only
  split
  · rename_i hge
    simp only [wp_bind]
    apply wp_attempt
    rw [wp_saveMap]
    split
    · rw [wp_pure, CheckpointEnds, if_neg (by omega)]
      exact ⟨rfl, .inl h⟩
    · rename_i hfault
      refine ⟨h, ?_⟩
      rw [wp_pure, CheckpointEnds, if_neg (by omega)]
      exact ⟨rfl, .inr ⟨Bool.eq_false_iff.2 hfault, h.synced, rfl⟩⟩
  · rename_i hlt
    rw [wp_pure, CheckpointEnds, if_pos (by omega)]
    exact ⟨rfl, h⟩

/-- A chunk is read and written without a sync, and its checkpoint is the only save. -/
lemma wp_imageChunk_sync {env : Env} {n : ℕ} {st : RunState} {w : World σ}
    (h : r.LoopInv n st w) :
    wp (Kept w) (fun _ => Kept w) (fun st' v =>
      (env.fault (.writeChunk n) = true → r.LeftOut n) ∧
        CheckpointEnds env n (st.chunksSinceCkpt + 1) w st' v)
      (imageChunk r.B r.src r.opts env n st) w := by
  have hchunk : readChunk r.src r.opts.retries r.opts.reversePass (n * st.map.chunkSize)
      (min (r.src.len - n * st.map.chunkSize) st.map.chunkSize) w.device =
        r.chunkAt n (r.deviceAt n) := by
    rw [show st.map.chunkSize = r.map.chunkSize from h.map.header.chunkSize, h.device]
    rfl
  have hdest := h.dest
  unfold imageChunk
  dsimp only
  simp only [wp_bind, wp_onDevice, hchunk]
  refine ⟨⟨rfl, rfl, rfl⟩, ?_⟩
  rw [show (r.chunkAt n (r.deviceAt n)).1 = r.record n from rfl, hdest, ImageDest.writeChunk]
  have hlast : ∀ (st' : RunState) (u : World σ), Kept w u →
      st'.chunksSinceCkpt = st.chunksSinceCkpt →
      (env.fault (.writeChunk n) = true → r.LeftOut n) →
      wp (Kept w) (fun _ => Kept w) (fun st' v =>
        (env.fault (.writeChunk n) = true → r.LeftOut n) ∧
          CheckpointEnds env n (st.chunksSinceCkpt + 1) w st' v) (checkpoint env n st') u :=
    fun st' u hu hst hwr => wp_post (hst ▸ wp_checkpoint_sync hu) fun _ _ hv => ⟨hwr, hv⟩
  cases hc : r.map.compression with
  | none =>
    simp only [destAt, hc]
    split
    · rename_i hskip
      have hskip : r.Skipped n := by simpa [Skipped] using hskip
      rw [wp_pure]
      exact hlast _ _ ⟨rfl, rfl, rfl⟩ rfl fun _ => ⟨hc, hskip⟩
    · simp only [wp_bind, wp_pure]
      refine wp_writeAll (fun k => ⟨rfl, rfl, rfl⟩) (fun k _ => ⟨rfl, rfl, rfl⟩) fun hok => ?_
      exact hlast _ _ ⟨rfl, rfl, rfl⟩ rfl fun hfault => absurd (hok.symm.trans hfault) (by simp)
  | zstd =>
    simp only [destAt, hc, wp_bind, wp_pure]
    refine wp_writeAll (fun k => ⟨rfl, rfl, rfl⟩) (fun k _ => ⟨rfl, rfl, rfl⟩) fun hok => ?_
    exact hlast _ _ ⟨rfl, rfl, rfl⟩ rfl fun hfault => absurd (hok.symm.trans hfault) (by simp)

/-- **The step lemma.**  Reading, recording and writing pending chunk `n` takes the invariant from
`n` to `n + 1`. -/
lemma LoopSync.imageChunk {env : Env} {s : OutNode} {n : ℕ} {st : RunState} {w : World σ}
    (hs : r.Sound) (h : r.LoopSync env s n st w) (hp : r.Pending n)
    (hc : env.cancel n = false) :
    wp (r.SyncAt env s) (fun _ => r.SyncAt env s) (fun st' v => r.LoopSync env s (n + 1) st' v)
      (imageChunk r.B r.src r.opts env n st) w := by
  have hkept : ∀ v, Kept w v → r.SyncAt env s v := fun v hv =>
    .inr ⟨hv.synced.trans h.synced, h.map.kept hv⟩
  refine wp_mono (fun v hv => hkept v hv.2) (fun e v hv => hkept v hv.2) ?_
    (wp_and (wp_imageChunk hs h.inv hp) (wp_imageChunk_sync h.inv))
  rintro st' v ⟨hinv, hwritten, hends⟩
  have hreach := h.reaches.succ hc fun _ => hwritten
  have hsince := h.since
  have hcount := recordedTo_succ_of_pending hp
  unfold CheckpointEnds at hends
  split at hends
  · obtain ⟨hst, hk⟩ := hends
    exact ⟨hinv, hk.synced.trans h.synced, h.map.kept hk, hreach, by omega⟩
  · obtain ⟨hst, hk | ⟨hfault, hsynced, hmap⟩⟩ := hends
    · exact ⟨hinv, hk.synced.trans h.synced, h.map.kept hk, hreach, by omega⟩
    · -- the 64th chunk since the last checkpoint
      have h64 : 64 ∣ r.recordedTo (n + 1) := by omega
      exact ⟨hinv, hsynced.trans h.synced,
        .inr ⟨n + 1, _, ⟨hreach, .inl ⟨n, rfl, hp, h64, hfault⟩⟩, hinv.map, hmap⟩, hreach,
        by omega⟩

/-- Cancelling saves the map before it syncs. -/
lemma LoopSync.cancelRun {E : ImageError → World σ → Prop} {env : Env} {s : OutNode} {n : ℕ}
    {st : RunState} {w : World σ} (h : r.LoopSync env s n st w) (hn : n < r.map.numChunks)
    (hc : env.cancel n = true) :
    wp (r.SyncAt env s) E (fun out v => out.complete = false ∧ r.SyncAt env s v)
      (cancelRun env st) w := by
  have hsync : ∀ v : World σ, r.SyncAt env s v →
      wp (r.SyncAt env s) E (fun (out : ImageOutcome) v => out.complete = false ∧ r.SyncAt env s v)
        ((ImageDest.sync env .syncOnCancel).attempt >>= fun _ =>
          pure ⟨false, decide (0 < st.badTotal), st.badTotal, none⟩) v := by
    intro v hv
    rw [wp_bind]
    apply wp_attempt
    simp only [ImageDest.sync, wp_bind, wp_mayFail, wp_update, wp_pure]
    split
    · exact ⟨trivial, hv⟩
    · exact ⟨hv, trivial, .inl rfl⟩
  unfold Reclaim.cancelRun
  rw [wp_bind]
  apply wp_attempt
  rw [wp_saveMap]
  split
  · exact hsync _ h.syncAt
  · rename_i hfault
    refine ⟨h.syncAt, hsync _ (.inr ⟨h.synced, .inr ⟨n, _, ⟨h.reaches, .inr ⟨hn, hc, ?_⟩⟩,
      h.inv.map, rfl⟩⟩)⟩
    exact Bool.eq_false_iff.2 hfault

/-- A chunk that was done at the start is passed over. -/
lemma LoopSync.succ_of_not {env : Env} {s : OutNode} {n : ℕ} {st : RunState} {w : World σ}
    (h : r.LoopSync env s n st w) (hn : n < r.map.numChunks) (hp : ¬ r.Pending n)
    (hc : env.cancel n = false) : r.LoopSync env s (n + 1) st w where
  inv := h.inv.succ_of_not hn hp
  synced := h.synced
  map := h.map
  reaches := h.reaches.succ hc fun h' => absurd h' hp
  since := by rw [recordedTo_succ_of_not hp, h.since]

/-- How a turn of the chunk loop, or the whole loop, leaves the output. -/
def LoopSyncEnds (r : ImageRun σ) (env : Env) (s : OutNode) (n : ℕ) :
    Exit ⊕ RunState → World σ → Prop
  | .inl (.returned out), v => out.complete = false ∧ r.SyncAt env s v
  | .inl (.broke _), _ => False
  | .inr st, v => r.LoopSync env s n st v

/-- One turn of the chunk loop. -/
lemma LoopSync.imageStep {env : Env} {s : OutNode} {n : ℕ} {st : RunState} {w : World σ}
    (hs : r.Sound) (hn : n < r.map.numChunks) (h : r.LoopSync env s n st w) :
    wp (r.SyncAt env s) (fun _ => r.SyncAt env s) (r.LoopSyncEnds env s (n + 1))
      (imageStep r.B r.src r.opts env n st) w := by
  have hdone : st.map.isChunkDone n = r.map.isChunkDone n := h.inv.map.isChunkDone_self
  have hlen : min (r.src.len - n * st.map.chunkSize) st.map.chunkSize ≠ 0 := by
    have hpos := hs.len_pos hn
    rw [show st.map.chunkSize = r.map.chunkSize from h.inv.map.header.chunkSize]
    exact hpos.ne'
  unfold Reclaim.imageStep
  by_cases hcancel : env.cancel n = true
  · simp only [hcancel, if_true, wp_bind, wp_pure]
    exact h.cancelRun hn hcancel
  · have hgo : env.cancel n = false := Bool.eq_false_iff.2 hcancel
    rw [if_neg hcancel, hdone]
    by_cases hd : r.map.isChunkDone n = true
    · rw [if_pos hd, wp_pure]
      exact h.succ_of_not hn (not_pending_of_done hd) hgo
    · rw [if_neg hd, if_neg hlen, wp_bind]
      have hp : r.Pending n := (r.pending_or_done hn).resolve_right hd
      apply wp_post (h.imageChunk hs hp hgo)
      intro st' v hv
      rw [wp_pure]
      exact hv

/-! ## The end of a run -/

/-- Hashing the output and saving the map leave the output as it is. -/
lemma wp_sealImage_sync {env : Env} {s : OutNode} {st : RunState} {w : World σ}
    (h : w.disk.synced = w.disk.out) :
    wp (r.SyncAt env s) (fun _ => r.SyncAt env s) (fun _ v => v.disk.synced = v.disk.out)
      (sealImage r.B env st) w := by
  unfold sealImage
  dsimp only
  split
  · simp only [identityOf, wp_bind, wp_mayFail, wp_gets]
    split
    · exact .inl h
    · cases w.disk.out with
      | absent =>
        rw [wp_fail]
        exact .inl h
      | special =>
        rw [wp_fail]
        exact .inl h
      | regular f =>
        simp only [wp_pure, wp_saveMap]
        split
        · exact .inl h
        · exact ⟨.inl h, h⟩
  · simp only [wp_bind, wp_saveMap, wp_pure]
    split
    · exact .inl h
    · exact ⟨.inl h, h⟩

/-- The end of a run syncs the output before it saves the map. -/
lemma wp_finalize_sync {env : Env} {s : OutNode} {st : RunState} {w : World σ}
    (hsync : w.disk.synced = s) (hmap : r.MapUnsynced env w) :
    wp (r.SyncAt env s) (fun _ => r.SyncAt env s) (fun _ v => v.disk.synced = v.disk.out)
      (finalize r.B r.src env st) w := by
  have hrest : ∀ v : World σ, v.disk.synced = s → r.MapUnsynced env v →
      wp (r.SyncAt env s) (fun _ => r.SyncAt env s) (fun _ u => wp (r.SyncAt env s)
        (fun _ => r.SyncAt env s) (fun _ v => v.disk.synced = v.disk.out)
        (sealImage r.B env st) u) (ImageDest.sync env .sync) v := by
    intro v hv hmap
    simp only [ImageDest.sync, wp_bind, wp_mayFail, wp_update]
    split
    · exact .inr ⟨hv, hmap⟩
    · exact ⟨.inr ⟨hv, hmap⟩, wp_sealImage_sync rfl⟩
  unfold finalize
  simp only [wp_bind, ImageDest.setLogicalLen]
  cases st.dest.compression with
  | none =>
    simp only [wp_bind, wp_mayFail, wp_gets]
    split
    · exact .inr ⟨hsync, hmap⟩
    · cases w.disk.out with
      | absent => simpa only [wp_pure] using hrest w hsync hmap
      | special => simpa only [wp_pure] using hrest w hsync hmap
      | regular f =>
        rw [wp_setOut]
        exact ⟨.inr ⟨hsync, hmap⟩, hrest _ hsync hmap⟩
  | zstd =>
    rw [wp_pure]
    exact hrest w hsync hmap

/-- How a run returns: one that returns complete has synced its output. -/
def ReturnsSync (r : ImageRun σ) (env : Env) (s : OutNode) (out : ImageOutcome)
    (v : World σ) : Prop :=
  r.SyncAt env s v ∧ (out.complete = true → v.disk.synced = v.disk.out)

/-- **A run from the point where its files are open.** -/
lemma wp_imageFrom_sync (env : Env) {w : World σ} (hs : r.Sound) (hdev : w.device = r.device)
    (hmap : w.disk.map = r.diskMap) (hsaves : w.saves = r.saves)
    (hout : w.disk.out = .regular r.file) :
    wp (r.SyncAt env w.disk.synced) (fun _ => r.SyncAt env w.disk.synced)
      (r.ReturnsSync env w.disk.synced)
      (imageFrom r.B r.src r.opts env r.map (r.destAt 0)) w := by
  have hinit : r.LoopSync env w.disk.synced 0 ⟨r.map, r.destAt 0, r.map.badSectors, 0⟩ w :=
    ⟨⟨rfl, mapAt_zero rfl, fun hc => ⟨hc.exact, rfl⟩, hdev,
      ⟨r.file, hout, r.fileAt_zero, r.untouchedFrom_zero⟩, .inl ⟨hsaves, hmap⟩⟩, rfl,
      .inl ⟨hsaves, hmap⟩,
      fun i hi => absurd hi (Nat.not_lt_zero i), rfl⟩
  unfold imageFrom
  rw [wp_bind]
  have hloop : wp (r.SyncAt env w.disk.synced) (fun _ => r.SyncAt env w.disk.synced)
      (r.LoopSyncEnds env w.disk.synced r.map.numChunks)
      (Cmd.forEach (List.range r.map.numChunks) (Reclaim.imageStep r.B r.src r.opts env)
        ⟨r.map, r.destAt 0, r.map.badSectors, 0⟩) w :=
    wp_forRange (I := r.LoopSync env w.disk.synced)
      (fun n st u hn h => wp_post (h.imageStep hs hn) fun ended v hv => by
        cases ended with
        | inl ex => cases ex with
          | returned out => exact hv
          | broke st' => exact hv.elim
        | inr st' => exact hv) (fun st u h => h) hinit
  apply wp_post hloop
  intro ended u hu
  cases ended with
  | inl ex => cases ex with
    | returned out =>
      rw [wp_pure]
      exact ⟨hu.2, fun hyes => absurd (hu.1.symm.trans hyes) (by simp)⟩
    | broke st => exact hu.elim
  | inr st =>
    apply wp_post (wp_finalize_sync hu.synced hu.map)
    intro out x hx
    exact ⟨.inl hx, fun _ => hx⟩

/-! ## Chunks that were done at the start -/

/-- Maps that index the same frames and chunks hold a chunk alike. -/
lemma sameChunk_congr {m m' : ImageMap} (hc : m.compression = m'.compression)
    (hcs : m.chunkSize = m'.chunkSize) (hsize : m.size = m'.size) (hfr : m.frames = m'.frames)
    {g f : Bytes} {i : ℕ} : SameChunk m g f i ↔ SameChunk m' g f i := by
  unfold SameChunk ImageMap.chunkLen
  rw [hc, hcs, hsize, hfr]

/-- A run leaves the bytes and the frames of a chunk alone that was done at the start. -/
lemma FileAt.sameChunk {n i : ℕ} {f : Bytes} (hf : r.FileAt n f) (hwf : r.map.WellFormed r.src)
    (hdone : r.map.isChunkDone i = true) : SameChunk r.opened r.file f i := by
  have hlen : r.opened.chunkLen i = r.len i := chunkLen_eq hwf i
  have hco : r.opened.compression = r.map.compression := rfl
  unfold SameChunk
  rw [hco, hlen]
  cases hc : r.map.compression with
  | none =>
    unfold FileAt at hf
    simp only [hc] at hf
    have hslice := hf i (ImageMap.isChunkDone_lt hdone) (.inr hdone)
    rw [contentOf, if_neg fun h => not_pending_of_done hdone h.1] at hslice
    exact hslice.symm
  | zstd =>
    intro fr hfr _
    have hle := frame_le_cursorAt_zero hc hfr
    unfold FileAt at hf
    simp only [hc] at hf
    exact slice_congr fun x _ hx => (hf.1 x (by omega)).symm

/-- A map saved before anything was recorded marks and indexes what the run opened. -/
lemma MapAt.of_recordedTo {n : ℕ} {m : ImageMap} (h : r.MapAt n m) (hn : r.recordedTo n = 0)
    {i : ℕ} (hi : m.isChunkDone i = true) :
    r.map.isChunkDone i = true ∧ ∀ g f, SameChunk r.opened g f i → SameChunk m g f i := by
  have hnone := not_pending_of_recordedTo hn
  refine ⟨(h.isChunkDone.1 hi).resolve_right fun ⟨hlt, hp⟩ => hnone i hlt hp, fun g f => ?_⟩
  apply (sameChunk_congr ?_ ?_ ?_ ?_).2
  · exact h.header.compression
  · exact h.header.chunkSize
  · exact h.header.size
  · rw [h.frames, framesAt_of_not_pending hnone]
    rfl

end ImageRun

/-- A chunk that was done when the run began is synced as the run leaves it. -/
lemma Opens.synced_of_done {B : Backend} {src : BlockSource σ} {opts : ImageOptions} {w : World σ}
    {r : ImageRun σ} (ho : Opens B src opts w r) (hmap : w.disk.map.Sound src)
    (hdur : Durable src w.disk) {n i : ℕ} {f : Bytes} (hf : r.FileAt n f)
    (hdone : r.map.isChunkDone i = true) :
    ∃ g, w.disk.synced = .regular g ∧ SameChunk r.opened g f i := by
  rcases ho.map with ⟨hres, hsaved, hid, hsize, -⟩ | ⟨-, hfresh⟩
  · obtain ⟨g, f0, hg, hf0, hsame⟩ := hdur _ hsaved hid hsize i hdone
    refine ⟨g, hg, ?_⟩
    -- the run appends to the output the map goes with
    rcases ho.dest with ⟨-, hout, hfr⟩ | ⟨hno | habs, -⟩
    · obtain rfl := OutNode.regular.inj (hout.symm.trans hf0)
      have hopened : r.opened = r.map := by rw [ImageRun.opened, hfr]
      exact (hopened ▸ hsame).trans (hf.sameChunk (ho.wellFormed hmap) hdone)
    · exact absurd hdone (by rw [not_done_of_not_resuming hres hno]; simp)
    · exact absurd (habs.symm.trans hf0) (by simp)
  · rw [hfresh, freshMap, ImageMap.not_isChunkDone_new] at hdone
    exact absurd hdone (by simp)

/-! ## Histories with power losses -/

section Histories

variable {B : Backend} {src : BlockSource σ} {outPath mapPath : String} {opts : ImageOptions}
  {env : Env} {w v : World σ}

/-- The worlds that a history of allowed runs can leave behind, each cut anywhere, with power
losses between them; it begins where no map of `src` exists. -/
def Powered (B : Backend) (src : BlockSource σ) (outPath mapPath : String)
    (allowed : ImageCall → World σ → World σ → Prop) : World σ → Prop :=
  Recovers (fun c : ImageCall => image B src outPath mapPath c.1 c.2)
    (fun w => ∀ m, w.disk.map = .saved m → ¬ (m.sourceId = src.id ∧ m.size = src.len))
    allowed fun w v => v.disk = w.disk ∨ PowerLoss w v

/-- The run returns complete, and leaves `v`. -/
def Completes (B : Backend) (src : BlockSource σ) (outPath mapPath : String) (c : ImageCall)
    (w v : World σ) : Prop :=
  ∃ out, (image B src outPath mapPath c.1 c.2 w).result = .ok out ∧ out.complete = true ∧
    v = (image B src outPath mapPath c.1 c.2 w).final

/-- The condition on a run from `w` that is cut at `v`.  It goes on with the map on disk, if that
marks a chunk done; a run that starts over is not cut between the truncation of the output and its
first save.  And the map it leaves was not saved without a sync: the run is cut before its first
save, or it completes, or neither a 64th chunk nor a cancel makes it save what it recorded. -/
def PowerSafe (B : Backend) (src : BlockSource σ) (outPath mapPath : String) (c : ImageCall)
    (w v : World σ) : Prop :=
  (c.1.resume = true ∨ NothingDone src w.disk.map ∨ v.disk = w.disk ∨
    w.saves.length < v.saves.length) ∧
  (v.saves = w.saves ∨ Completes B src outPath mapPath c w v ∨
    ∀ r n, Opens B src c.1 w r → r.SavesUnsynced c.2 n → r.recordedTo n = 0)

/-- What a run started in `w` leaves of the output and its syncs. -/
def CutSync (B : Backend) (src : BlockSource σ) (opts : ImageOptions) (env : Env)
    (w v : World σ) : Prop :=
  v = w ∨ ∃ r, Opens B src opts w r ∧ r.SyncAt env w.disk.synced v

/-- The rule for a run as to what is synced and saved. -/
lemma image_sync (outPath mapPath : String) (opts : ImageOptions) (env : Env)
    (hmap : w.disk.map.Sound src) :
    wp (CutSync B src opts env w) (fun _ => CutSync B src opts env w)
      (fun out v => CutSync B src opts env w v ∧ (out.complete = true →
        v.disk.synced = v.disk.out)) (image B src outPath mapPath opts env) w := by
  apply wp_image outPath mapPath (.inl rfl) (fun e _ => .inl rfl)
  intro r u ho hu
  have hrun := ImageRun.wp_imageFrom_sync env (ho.sound hmap) (hu.device.trans ho.device.symm)
    (hu.map.trans ho.diskMap.symm) (hu.saves.trans ho.saves.symm) hu.out
  rw [ho.backend, ho.src_eq, ho.opts_eq, hu.synced] at hrun
  exact wp_mono (fun x hx => .inr ⟨r, ho, hx⟩) (fun e x hx => .inr ⟨r, ho, hx⟩)
    (fun out x hx => ⟨.inr ⟨r, ho, hx.1⟩, hx.2⟩) hrun

/-- Whatever way a run ends, it leaves a cut. -/
lemma cutSync_of_leaves (hmap : w.disk.map.Sound src)
    (hv : v ∈ (image B src outPath mapPath opts env).leaves w) : CutSync B src opts env w v :=
  wp_leaves (wp_post (image_sync outPath mapPath opts env hmap) fun _ _ h => h.1) v hv

/-- A run that completes leaves its output synced. -/
lemma Completes.synced (h : Completes B src outPath mapPath (opts, env) w v)
    (hmap : w.disk.map.Sound src) : v.disk.synced = v.disk.out := by
  obtain ⟨out, hrun, hcomplete, rfl⟩ := h
  exact (wp_returned (image_sync outPath mapPath opts env hmap) hrun).2 hcomplete

/-- In a run that meets the condition, an output last synced before the run goes with the map from
before the run, or with one that records nothing more. -/
lemma PowerSafe.map_of_unsynced (hsafe : PowerSafe B src outPath mapPath (opts, env) w v)
    (hmap : w.disk.map.Sound src) {r : ImageRun σ} (ho : Opens B src opts w r) {n : ℕ}
    (hsaved : r.SavedBy n v) (hunsynced : r.MapUnsynced env v) :
    v.disk.synced = v.disk.out ∨ (v.saves = w.saves ∧ v.disk.map = w.disk.map) ∨
      ∃ k m, r.recordedTo k = 0 ∧ r.MapAt k m ∧ v.disk.map = .saved m := by
  rw [← ho.saves, ← ho.diskMap]
  rcases hsafe.2 with hsaves | hcomplete | hnone
  · rcases hsaved with hold | ⟨k, -, m, l, -, -, hlong⟩
    · exact .inr (.inl hold)
    · -- a save by the run would show
      have hlen := congrArg List.length (hlong.symm.trans (hsaves.trans ho.saves.symm))
      simp only [List.length_append, List.length_singleton] at hlen
      omega
  · exact .inl (hcomplete.synced hmap)
  · rcases hunsynced with hold | ⟨k, m, hk, hat, hm⟩
    · exact .inr (.inl hold)
    · exact .inr (.inr ⟨k, m, hnone r k ho hk, hat, hm⟩)

/-- The map from before the run is durable still, if the run goes on with it. -/
lemma Durable.of_old (hdur : Durable src w.disk) (hmap : w.disk.map.Sound src)
    (hsafe : PowerSafe B src outPath mapPath (opts, env) w v) {r : ImageRun σ}
    (ho : Opens B src opts w r) {n : ℕ} {f : Bytes} (hout : v.disk.out = .regular f)
    (hfile : r.FileAt n f)
    (hsynced : v.disk.synced = w.disk.synced) (hsaves : v.saves = w.saves)
    (hold : v.disk.map = w.disk.map) : Durable src v.disk := by
  intro m hm hid hsize i hi
  rw [hold] at hm
  rcases hsafe.1 with hres | hnone | hdisk | hlt
  · rcases ho.map with ⟨-, hopen, -⟩ | ⟨hno | habs, -⟩
    · obtain rfl := MapFile.saved.inj (hm.symm.trans hopen)
      obtain ⟨g, hg, hsame⟩ := ho.synced_of_done hmap hdur hfile hi
      refine ⟨g, f, hsynced.trans hg, hout, ?_⟩
      rcases ho.dest with ⟨-, -, hfr⟩ | ⟨hno | habs, -⟩
      · rwa [ImageRun.opened, hfr] at hsame
      · exact absurd hi (by rw [not_done_of_not_resuming hres hno]; simp)
      · obtain ⟨g', f', -, hf', -⟩ := hdur _ hm hid hsize i hi
        exact absurd (habs.symm.trans hf') (by simp)
    · exact absurd (hno.symm.trans hres) (by simp)
    · exact absurd (hm.symm.trans habs) (by simp)
  · exact absurd ((hnone m hm hid hsize i).symm.trans hi) (by simp)
  · rw [hdisk]
    exact hdur m hm hid hsize i hi
  · rw [hsaves] at hlt
    exact absurd hlt (lt_irrefl _)

/-- **What one run preserves**: a run that meets the condition leaves a durable image in every
world it can be cut in. -/
lemma Durable.of_leaves (hdur : Durable src w.disk) (hmap : w.disk.map.Sound src)
    (hv : v ∈ (image B src outPath mapPath opts env).leaves w)
    (hsafe : PowerSafe B src outPath mapPath (opts, env) w v) : Durable src v.disk := by
  rcases cut_of_leaves hmap hv with rfl | ⟨r, ho, n, j, f, -, hout, hfile, -, hsaved, -⟩
  · exact hdur
  rcases cutSync_of_leaves hmap hv with rfl | ⟨r', ho', hsync⟩
  · exact hdur
  obtain rfl := ho.unique ho'
  have hreg : ∀ m, v.disk.map = .saved m → ∀ i, m.isChunkDone i = true →
      ∃ f, v.disk.out = .regular f := fun _ _ _ _ => ⟨f, hout⟩
  rcases hsync with hsync | ⟨hsynced, hunsynced⟩
  · exact durable_of_synced hsync hreg
  rcases hsafe.map_of_unsynced hmap ho hsaved hunsynced with
    hsync | ⟨hsaves, hold⟩ | ⟨k, m, hk, hat, hm⟩
  · exact durable_of_synced hsync hreg
  · exact hdur.of_old hmap hsafe ho hout hfile hsynced hsaves hold
  · intro m' hm' hid hsize i hi
    obtain rfl := MapFile.saved.inj (hm.symm.trans hm')
    obtain ⟨hdone, hsame⟩ := hat.of_recordedTo hk hi
    obtain ⟨g, hg, hg'⟩ := ho.synced_of_done hmap hdur hfile hdone
    exact ⟨g, f, hsynced.trans hg, hout, hsame g f hg'⟩

/-- **No power loss takes what the map marks done.**  Over every history of runs that meet the
condition, each cut anywhere and with power losses between them, the map on disk marks no chunk
done that is not synced, and what a power loss leaves of the output stores every chunk it marks. -/
theorem powerSafe_durable (h : Powered B src outPath mapPath (PowerSafe B src outPath mapPath) w) :
    Durable src w.disk ∧ ∀ v, PowerLoss w v → Survives B src w v := by
  have hinv : w.disk.map.Sound src ∧ Durable src w.disk := by
    refine Recovers.induction (C := fun w => w.disk.map.Sound src ∧ Durable src w.disk)
      (fun w hw => ⟨fun m hm hid hsize => ?_, fun m hm hid hsize => ?_⟩)
      (fun c w hw v hv hsafe => ?_) (fun w v hw hd => ?_) h
    · exact absurd ⟨hid, hsize⟩ (hw m hm)
    · exact absurd ⟨hid, hsize⟩ (hw m hm)
    · exact ⟨(cut_of_leaves hw.1 hv).mapSound hw.1, hw.2.of_leaves hw.1 hv hsafe⟩
    · rcases hd with hd | hd
      · rw [hd]
        exact hw
      · exact ⟨hd.map ▸ hw.1, hw.2.powerLoss hd⟩
  exact ⟨hinv.2, fun v hv => hinv.2.survives B hv⟩

end Histories

/-! ## A short run that is not cancelled -/

namespace ImageRun

variable {r : ImageRun σ}

lemma recordedTo_le (n : ℕ) : r.recordedTo n ≤ n := by
  induction n with
  | zero => exact le_rfl
  | succ n ih =>
    by_cases hp : r.Pending n
    · rw [recordedTo_succ_of_pending hp]
      omega
    · rw [recordedTo_succ_of_not hp]
      omega

/-- A run of fewer than 64 chunks that is not cancelled saves its map only behind a sync. -/
lemma not_savesUnsynced {env : Env} (hcancel : ∀ i, env.cancel i = false)
    (hshort : r.map.numChunks < 64) (n : ℕ) : ¬ r.SavesUnsynced env n := by
  rintro ⟨-, ⟨i, rfl, hp, h64, -⟩ | ⟨-, hc, -⟩⟩
  · have hle := r.recordedTo_le i
    have hlt := hp.1
    rw [recordedTo_succ_of_pending hp] at h64
    have := Nat.le_of_dvd (Nat.succ_pos _) h64
    omega
  · exact absurd ((hcancel n).symm.trans hc) (by simp)

end ImageRun

/-- The image of one byte is durable, and survives a power loss. -/
theorem imagedOnce_durable : Durable oneByte imagedOnce.disk ∧
    ∀ v, PowerLoss imagedOnce v → Survives .plain oneByte imagedOnce v := by
  refine powerSafe_durable (B := .plain) (.ran (w := World.empty ()) (byteByByte false, .quiet)
    (.begin fun m h => ?_) (List.mem_append_right _ (List.mem_singleton_self _))
    ⟨.inr (.inl fun m h => ?_), .inr (.inr ?_)⟩)
  · exact absurd h (by simp [World.empty])
  · exact absurd h (by simp [World.empty])
  · intro r n ho hsaves
    obtain rfl := ho.unique (opens_firstRun .plain oneByte (byteByByte false) ())
    exact absurd hsaves (ImageRun.not_savesUnsynced (fun _ => rfl) (by decide) n)

/-! ## A run that is cancelled -/

/-- A source of two bytes, both `1`. -/
def twoBytes : BlockSource Unit :=
  (SectorTable.solid 2 1 1 (by decide) byte_le_u32Max Nat.one_pos).source

/-- The cancel flag is up before the second chunk. -/
def cancelSecond : Env := { Env.quiet with cancel := fun i => decide (i = 1) }

/-- The first run over `twoBytes`, cancelled before the second chunk. -/
def cancelledRun : Outcome (World Unit) ImageError ImageOutcome :=
  image .plain twoBytes "out" "map" (byteByByte false) cancelSecond (World.empty ())

/-- The same cut between the save of its map and the sync of its output. -/
def savedNotSynced : World Unit := cancelledRun.passed.getD 5 (World.empty ())

/-- What a power loss leaves: none of the output's bytes. -/
def lostOutput : World Unit :=
  { savedNotSynced with
    disk := { savedNotSynced.disk with out := .regular [], synced := .regular [] } }

/-- **A cancelled run saves a map whose data is not on disk.** -/
theorem cancel_counterexample :
    Powered .plain twoBytes "out" "map" (fun _ _ _ => True) savedNotSynced ∧
      ¬ Durable twoBytes savedNotSynced.disk ∧ PowerLoss savedNotSynced lostOutput ∧
        ¬ Survives .plain twoBytes savedNotSynced lostOutput := by
  obtain ⟨m, hm, hid, hsize, hdone, hsynced, hout⟩ : ∃ m, savedNotSynced.disk.map = .saved m ∧
      m.sourceId = twoBytes.id ∧ m.size = twoBytes.len ∧ m.isChunkDone 0 = true ∧
        savedNotSynced.disk.synced = .absent ∧ savedNotSynced.disk.out = .regular [1] :=
    ⟨_, rfl, rfl, rfl, rfl, rfl, rfl⟩
  refine ⟨?_, fun h => ?_, ⟨rfl, rfl, fun g f hg => ?_⟩, fun h => ?_⟩
  · apply Recovers.ran (byteByByte false, cancelSecond) (.begin (w := World.empty ()) ?_) ?_ trivial
    · exact fun m h => absurd h (by simp [World.empty])
    · exact List.mem_append_left _ (List.getElem_mem (n := 5) (by decide))
  · obtain ⟨g, f, hg, -⟩ := h m hm hid hsize 0 hdone
    exact absurd (hsynced.symm.trans hg) (by simp)
  · exact absurd (hsynced.symm.trans hg) (by simp)
  · obtain ⟨f, f', hf, hf', hsame⟩ := h m hm hid hsize 0 hdone
    obtain rfl := OutNode.regular.inj (hout.symm.trans hf)
    obtain rfl : [] = f' := OutNode.regular.inj hf'
    obtain rfl := MapFile.saved.inj (hm.symm.trans rfl)
    exact absurd hsame (by decide)

end Reclaim
