import Reclaim.Imaging.Imager

/-!
# The progress of an imaging run

An `ImageRun` is a run that has opened its map and its destination.  Everything it does from there
on is determined by what it has opened and by what the source answers: `record i` is what the
passes over chunk `i` obtain, `deviceAt n` the source once the chunks below `n` are read,
`framesAt n` and `cursorAt n` the zstd frame index and append position by then.

`MapAt n m` says that the map `m` records exactly the chunks below `n`, over what was recorded
when the run began; `FileAt n f` says that the output file `f` stores them.  A crash leaves a file
at some progress together with a map of the same or an earlier progress (`CrashAt`), because a
write never touches a chunk that some map on disk records: `FileAt` is downward closed and is kept
by every prefix of the next chunk's write.
-/

namespace Reclaim

open FileBytes CrashLogic

variable {σ : Type}

/-- A run that has opened its map and destination: the backend, source and options it was given,
the map, frame index and file it opened, the source as it found it, and what was saved before. -/
structure ImageRun (σ : Type) where
  B : Backend
  src : BlockSource σ
  opts : ImageOptions
  map : ImageMap
  frames : List FrameEntry
  file : Bytes
  device : Device σ
  diskMap : MapFile
  saves : List ℕ

namespace ImageRun

variable (r : ImageRun σ)

/-- Where chunk `i` begins. -/
def offset (i : ℕ) : ℕ := i * r.map.chunkSize

/-- How long chunk `i` is. -/
def len (i : ℕ) : ℕ := min (r.src.len - i * r.map.chunkSize) r.map.chunkSize

/-- Chunk `i` was not done when the run began. -/
def Pending (i : ℕ) : Prop := i < r.map.numChunks ∧ r.map.isChunkDone i = false

instance (i : ℕ) : Decidable (r.Pending i) := instDecidableAnd

/-- The passes over chunk `i`. -/
def chunkAt (i : ℕ) (d : Device σ) : ChunkRead × Device σ :=
  readChunk r.src r.opts.retries r.opts.reversePass (r.offset i) (r.len i) d

/-- The source once the pending chunks below `n` are read. -/
def deviceAt : ℕ → Device σ
  | 0 => r.device
  | n + 1 => if r.Pending n then (r.chunkAt n (deviceAt n)).2 else deviceAt n

/-- The reads made for chunk `i`. -/
def logOf (i : ℕ) : List ReadEvent :=
  (r.chunkAt i (r.deviceAt i)).2.reads.drop (r.deviceAt i).reads.length

/-- The reads made for the pending chunks below `n`. -/
def readsTo : ℕ → List ReadEvent
  | 0 => []
  | n + 1 => if r.Pending n then readsTo n ++ r.logOf n else readsTo n

/-- What the passes over chunk `i` obtain. -/
def record (i : ℕ) : ChunkRead := (r.chunkAt i (r.deviceAt i)).1

/-- The compressed frame of chunk `i`. -/
def compressed (i : ℕ) : Bytes := r.B.compress (r.record i).buf

/-- Where the next frame goes once the pending chunks below `n` are written. -/
def cursorAt : ℕ → ℕ
  | 0 => ImageDest.appendCursorOf r.map.compression r.frames
  | n + 1 =>
    if r.map.compression = .zstd ∧ r.Pending n then cursorAt n + (r.compressed n).length
    else cursorAt n

/-- The index entry of chunk `i`'s frame. -/
def frameOf (i : ℕ) : FrameEntry :=
  ⟨r.offset i, r.cursorAt i, min (r.record i).buf.length u32Max,
    min (r.compressed i).length u32Max⟩

/-- The frame index once the pending chunks below `n` are written. -/
def framesAt : ℕ → List FrameEntry
  | 0 => r.frames
  | n + 1 =>
    if r.map.compression = .zstd ∧ r.Pending n then framesAt n ++ [r.frameOf n] else framesAt n

/-- The destination once the pending chunks below `n` are written. -/
def destAt (n : ℕ) : ImageDest := ⟨r.map.compression, r.opts.sparse, r.cursorAt n, r.framesAt n⟩

/-- The recorded hash of chunk `i` once the pending chunks below `n` are recorded. -/
def hashAt (n i : ℕ) : Option (Option String) :=
  if i < n ∧ r.Pending i then some (some (r.B.hash r.map.hashAlgo (r.record i).buf))
  else r.map.chunkHashes[i]?

/-- `lba` stayed bad in a pending chunk below `n`. -/
def LeftBad (n lba : ℕ) : Prop :=
  ∃ i < n, r.Pending i ∧ ∃ s ∈ (r.record i).stillBad, lba = r.offset i / r.src.sector + s

/-- Sparse raw output leaves chunk `i` out. -/
def Skipped (i : ℕ) : Prop := r.opts.sparse = true ∧ (r.record i).buf.all (· == 0) = true

instance (i : ℕ) : Decidable (r.Skipped i) := instDecidableAnd

/-- What raw output holds for chunk `i` when the run is past it: what the run wrote, or else what
was there before. -/
def contentOf (i : ℕ) : Bytes :=
  if r.Pending i ∧ ¬ r.Skipped i then (r.record i).buf else slice r.file (r.offset i) (r.len i)

/-- The run's bad sectors are counted once: chunks are sector-aligned, and so was the count of
what was recorded before. -/
structure Counted : Prop where
  aligned : r.src.sector ∣ r.map.chunkSize
  exact : Exact r.map.bad

/-! ## Progress of the map and of the file -/

/-- What every map of the run has in common with the one it opened. -/
structure SameHeader (m : ImageMap) : Prop where
  sourceId : m.sourceId = r.map.sourceId
  size : m.size = r.map.size
  sectorSize : m.sectorSize = r.map.sectorSize
  chunkSize : m.chunkSize = r.map.chunkSize
  hashAlgo : m.hashAlgo = r.map.hashAlgo
  compression : m.compression = r.map.compression
  unread : m.unread = r.map.unread

/-- The map records the pending chunks below `n`, and otherwise what it recorded at the start. -/
structure MapAt (n : ℕ) (m : ImageMap) : Prop where
  header : r.SameHeader m
  frames : m.frames = r.framesAt n
  hashes : ∀ i, m.chunkHashes[i]? = r.hashAt n i
  bad : ∀ lba, InRanges m.bad lba ↔ InRanges r.map.bad lba ∨ r.LeftBad n lba
  exact : r.Counted → Exact m.bad

/-- The file stores every chunk below `n`, and every chunk that was done at the start. -/
def FileAt (n : ℕ) (f : Bytes) : Prop :=
  match r.map.compression with
  | .none => ∀ i < r.map.numChunks, i < n ∨ r.map.isChunkDone i = true →
      slice f (r.offset i) (r.len i) = r.contentOf i
  | .zstd => (∀ x < r.cursorAt 0, byteAt f x = byteAt r.file x) ∧
      ∀ i < n, r.Pending i → slice f (r.cursorAt i) (r.compressed i).length = r.compressed i

/-- Raw output is as it was from chunk `n` on. -/
def UntouchedFrom (n : ℕ) (f : Bytes) : Prop :=
  r.map.compression = .none → ∀ i, n ≤ i → r.Pending i →
    slice f (r.offset i) (r.len i) = slice r.file (r.offset i) (r.len i)

/-- In its pending chunks raw output holds what the run found, or what the run writes there. -/
def Mixed (f : Bytes) : Prop :=
  r.map.compression = .none → ∀ i, r.Pending i → ∀ k < r.len i,
    byteAt f (r.offset i + k) = byteAt r.file (r.offset i + k) ∨
      byteAt f (r.offset i + k) = byteAt (r.record i).buf k

/-- The map on disk is the one from before the run, or one the run saved at progress at most `n`,
after the reads made by then. -/
def SavedBy (n : ℕ) (w : World σ) : Prop :=
  (w.saves = r.saves ∧ w.disk.map = r.diskMap) ∨
    ∃ k ≤ n, ∃ m l, w.disk.map = .saved m ∧ r.MapAt k m ∧
      w.saves = r.saves ++ l ++ [(r.deviceAt k).reads.length]

/-- What a cut of the run leaves: the output at some progress, a map of the same or an earlier
one, and the source at the same or a later one. -/
def CrashAt (v : World σ) : Prop :=
  ∃ n j f, n ≤ j ∧ v.disk.out = .regular f ∧ r.FileAt n f ∧ r.Mixed f ∧ r.SavedBy n v ∧
    v.device = r.deviceAt j

/-- The invariant of the chunk loop before chunk `n`. -/
structure LoopInv (n : ℕ) (st : RunState) (w : World σ) : Prop where
  dest : st.dest = r.destAt n
  map : r.MapAt n st.snapshot
  counted : r.Counted → Exact st.map.bad ∧ st.badTotal = totalCount st.map.bad
  device : w.device = r.deviceAt n
  out : ∃ f, w.disk.out = .regular f ∧ r.FileAt n f ∧ r.UntouchedFrom n f
  saved : r.SavedBy n w

/-- What the proofs use of the map a run opened: it describes the source, and its bad runs are
sectors of chunks it records. -/
structure Sound : Prop where
  size : r.map.size = r.src.len
  sectorSize : r.map.sectorSize = r.src.sector
  chunkSize_pos : 0 < r.map.chunkSize
  chunkSize_le : r.map.chunkSize ≤ u32Max
  numChunks : r.map.numChunks = divCeil r.src.len r.map.chunkSize
  bad : ∀ lba, InRanges r.map.bad lba → ∃ i, r.map.isChunkDone i = true ∧
    ∃ s < divCeil (r.len i) r.src.sector, lba = r.offset i / r.src.sector + s

variable {r}

/-! ## Facts about the chunks -/

lemma len_le (i : ℕ) : r.len i ≤ r.map.chunkSize := min_le_right _ _

/-- Chunks do not overlap. -/
lemma disjoint_chunks {i j : ℕ} (h : i < j) : r.offset i + r.len i ≤ r.offset j := by
  have h1 := r.len_le i
  have h2 : (i + 1) * r.map.chunkSize ≤ j * r.map.chunkSize := Nat.mul_le_mul_right _ h
  rw [Nat.add_mul, Nat.one_mul] at h2
  unfold offset
  omega

lemma Sound.offset_lt (hs : r.Sound) {i : ℕ} (h : i < r.map.numChunks) :
    r.offset i < r.src.len := by
  rw [hs.numChunks, lt_divCeil_iff hs.chunkSize_pos] at h
  exact h

lemma Sound.len_pos (hs : r.Sound) {i : ℕ} (h : i < r.map.numChunks) : 0 < r.len i := by
  have h1 := hs.offset_lt h
  have h2 := hs.chunkSize_pos
  unfold offset at h1
  unfold len
  omega

lemma offset_add_len_le {i : ℕ} (h : r.offset i ≤ r.src.len) :
    r.offset i + r.len i ≤ r.src.len := by
  unfold offset at *
  unfold len
  omega

/-- The reads made for chunk `i`, and their specification. -/
lemma obtained (r : ImageRun σ) (i : ℕ) :
    (r.chunkAt i (r.deviceAt i)).2.reads = (r.deviceAt i).reads ++ r.logOf i ∧
      Obtained r.src (r.offset i) (r.len i) (r.logOf i) (r.record i) := by
  obtain ⟨log, hlog, hob⟩ := readChunk_obtained r.src r.opts.retries r.opts.reversePass
    (r.offset i) (r.len i) (r.deviceAt i)
  have hlog' : (r.chunkAt i (r.deviceAt i)).2.reads = (r.deviceAt i).reads ++ log := hlog
  have heq : r.logOf i = log := by rw [logOf, hlog', List.drop_left]
  rw [heq]
  exact ⟨hlog', hob⟩

/-- A read made for chunk `i` is the first read of the chunk, or a retry of one of its sectors. -/
lemma isRead_of_mem_logOf {i : ℕ} {e : ReadEvent} (he : e ∈ r.logOf i) :
    e.IsRead r.src .first (r.offset i) (r.len i) ∨ ∃ s < divCeil (r.len i) r.src.sector,
      e.IsRead r.src .retry (r.offset i + s * r.src.sector) r.src.sector := by
  obtain ⟨first, retries, hlog, hfirst, hretries, -⟩ := (r.obtained i).2.reads
  rw [hlog] at he
  rcases List.mem_cons.1 he with rfl | he
  · exact .inl hfirst
  · obtain ⟨s, hs, hread⟩ := hretries e he
    have hlt := ReadResult.badSectors_lt hs
    rw [hfirst.sectorCount] at hlt
    exact .inr ⟨s, hlt, hread⟩

lemma length_record (r : ImageRun σ) (i : ℕ) : (r.record i).buf.length = r.len i := by
  exact (r.obtained i).2.length_buf

/-- A sector that stayed bad is one of the chunk's. -/
lemma stillBad_lt {i s : ℕ} (h : s ∈ (r.record i).stillBad) :
    s < divCeil (r.len i) r.src.sector := by
  obtain ⟨first, retries, -, hfirst, -, hsub, -⟩ := (r.obtained i).2.reads
  have hlt := ReadResult.badSectors_lt (hsub s h)
  rwa [hfirst.sectorCount] at hlt

lemma pending_or_done {i : ℕ} (h : i < r.map.numChunks) :
    r.Pending i ∨ r.map.isChunkDone i = true := by
  unfold Pending
  cases r.map.isChunkDone i
  · exact .inl ⟨h, rfl⟩
  · exact .inr rfl

lemma not_pending_of_done {i : ℕ} (h : r.map.isChunkDone i = true) : ¬ r.Pending i := by
  unfold Pending
  simp [h]

@[simp] lemma deviceAt_succ_of_pending {n : ℕ} (h : r.Pending n) :
    r.deviceAt (n + 1) = (r.chunkAt n (r.deviceAt n)).2 := by rw [deviceAt, if_pos h]

@[simp] lemma deviceAt_succ_of_not {n : ℕ} (h : ¬ r.Pending n) :
    r.deviceAt (n + 1) = r.deviceAt n := by rw [deviceAt, if_neg h]

/-- The source's log while the run goes on. -/
lemma reads_deviceAt (r : ImageRun σ) (n : ℕ) :
    (r.deviceAt n).reads = r.device.reads ++ r.readsTo n := by
  induction n with
  | zero => simp [deviceAt, readsTo]
  | succ n ih =>
    rw [readsTo]
    split
    · rename_i hp
      rw [deviceAt_succ_of_pending hp, (r.obtained n).1, ih, List.append_assoc]
    · rename_i hp
      rw [deviceAt_succ_of_not hp, ih]

/-- Every read of the run is made for one of the chunks it is past. -/
lemma mem_readsTo {n : ℕ} {e : ReadEvent} :
    e ∈ r.readsTo n ↔ ∃ i < n, r.Pending i ∧ e ∈ r.logOf i := by
  induction n with
  | zero => simp [readsTo]
  | succ n ih =>
    have hsplit : e ∈ r.readsTo (n + 1) ↔ e ∈ r.readsTo n ∨ r.Pending n ∧ e ∈ r.logOf n := by
      rw [readsTo]
      split
      · rename_i hp
        simp [hp]
      · rename_i hp
        simp [hp]
    rw [hsplit, ih]
    constructor
    · rintro (⟨i, hi, h⟩ | h)
      · exact ⟨i, Nat.lt_succ_of_lt hi, h⟩
      · exact ⟨n, Nat.lt_succ_self n, h⟩
    · rintro ⟨i, hi, h⟩
      rcases Nat.lt_succ_iff_lt_or_eq.1 hi with hlt | rfl
      · exact .inl ⟨i, hlt, h⟩
      · exact .inr h

lemma hashAt_succ_self {n : ℕ} (h : r.Pending n) :
    r.hashAt (n + 1) n = some (some (r.B.hash r.map.hashAlgo (r.record n).buf)) := by
  rw [hashAt, if_pos ⟨Nat.lt_succ_self n, h⟩]

lemma hashAt_succ_of_ne {n i : ℕ} (h : i ≠ n) : r.hashAt (n + 1) i = r.hashAt n i := by
  unfold hashAt
  refine if_congr (and_congr_left fun _ => ?_) rfl rfl
  omega

lemma hashAt_succ_of_not {n i : ℕ} (h : ¬ r.Pending n) : r.hashAt (n + 1) i = r.hashAt n i := by
  by_cases hi : i = n
  · subst hi
    rw [hashAt, hashAt, if_neg fun h' => h h'.2, if_neg fun h' => h h'.2]
  · exact hashAt_succ_of_ne hi

/-- Chunk `n` is done before turn `n` exactly when it was done at the start. -/
lemma hashAt_self (n : ℕ) : r.hashAt n n = r.map.chunkHashes[n]? := by
  rw [hashAt, if_neg fun h => (lt_irrefl n) h.1]

lemma leftBad_succ_of_not {n lba : ℕ} (h : ¬ r.Pending n) :
    r.LeftBad (n + 1) lba ↔ r.LeftBad n lba := by
  constructor
  · rintro ⟨i, hi, hp, hs⟩
    refine ⟨i, ?_, hp, hs⟩
    rcases Nat.lt_succ_iff_lt_or_eq.1 hi with hlt | rfl
    · exact hlt
    · exact absurd hp h
  · rintro ⟨i, hi, hrest⟩
    exact ⟨i, Nat.lt_succ_of_lt hi, hrest⟩

lemma leftBad_succ_of_pending {n lba : ℕ} (h : r.Pending n) :
    r.LeftBad (n + 1) lba ↔ r.LeftBad n lba ∨
      ∃ s ∈ (r.record n).stillBad, lba = r.offset n / r.src.sector + s := by
  constructor
  · rintro ⟨i, hi, hp, hs⟩
    rcases Nat.lt_succ_iff_lt_or_eq.1 hi with hlt | rfl
    · exact .inl ⟨i, hlt, hp, hs⟩
    · exact .inr hs
  · rintro (⟨i, hi, hrest⟩ | hs)
    · exact ⟨i, Nat.lt_succ_of_lt hi, hrest⟩
    · exact ⟨n, Nat.lt_succ_self n, h, hs⟩

/-! ## The append cursor -/

lemma cursorAt_le_succ (n : ℕ) : r.cursorAt n ≤ r.cursorAt (n + 1) := by
  rw [cursorAt]
  split <;> omega

lemma cursorAt_mono {m n : ℕ} (h : m ≤ n) : r.cursorAt m ≤ r.cursorAt n :=
  monotone_nat_of_le_succ cursorAt_le_succ h

/-- A frame ends where later frames may begin. -/
lemma cursorAt_add_le {i n : ℕ} (hz : r.map.compression = .zstd) (hp : r.Pending i) (h : i < n) :
    r.cursorAt i + (r.compressed i).length ≤ r.cursorAt n := by
  have h1 : r.cursorAt (i + 1) = r.cursorAt i + (r.compressed i).length := by
    rw [cursorAt, if_pos ⟨hz, hp⟩]
  have h2 := r.cursorAt_mono (show i + 1 ≤ n from h)
  omega

/-! ## Progress of the file -/

/-- A file that stores the chunks below `n` stores fewer, too. -/
lemma FileAt.mono {m n : ℕ} {f : Bytes} (h : r.FileAt n f) (hmn : m ≤ n) : r.FileAt m f := by
  unfold FileAt at h ⊢
  cases hc : r.map.compression with
  | none =>
    simp only [hc] at h ⊢
    exact fun i hi hor => h i hi (hor.imp_left fun hlt => by omega)
  | zstd =>
    simp only [hc] at h ⊢
    exact ⟨h.1, fun i hi hp => h.2 i (by omega) hp⟩

/-- Before the first chunk the file is as the run opened it. -/
lemma fileAt_zero (r : ImageRun σ) : r.FileAt 0 r.file := by
  unfold FileAt
  cases hc : r.map.compression with
  | none =>
    intro i _ hor
    have hdone := hor.resolve_left (Nat.not_lt_zero i)
    rw [contentOf, if_neg fun h => not_pending_of_done hdone h.1]
  | zstd => exact ⟨fun _ _ => rfl, fun i hi => absurd hi (Nat.not_lt_zero i)⟩

lemma untouchedFrom_zero (r : ImageRun σ) : r.UntouchedFrom 0 r.file := fun _ _ _ _ => rfl

/-- Where chunk `n` is written. -/
def writeOffset (r : ImageRun σ) (n : ℕ) : ℕ :=
  match r.map.compression with
  | .none => r.offset n
  | .zstd => r.cursorAt n

/-- What is written for chunk `n`. -/
def writeData (r : ImageRun σ) (n : ℕ) : Bytes :=
  match r.map.compression with
  | .none => (r.record n).buf
  | .zstd => r.compressed n

/-- **No prefix of chunk `n`'s write disturbs what is stored already.** -/
lemma FileAt.write_prefix {n : ℕ} {f : Bytes} (h : r.FileAt n f) (hp : r.Pending n) (k : ℕ) :
    r.FileAt n (writeAt f (r.writeOffset n) ((r.writeData n).take k)) := by
  unfold FileAt writeOffset writeData at *
  cases hc : r.map.compression with
  | none =>
    simp only [hc] at h ⊢
    intro i hi hor
    rw [← h i hi hor]
    have hne : i ≠ n := by
      rintro rfl
      rcases hor with hlt | hdone
      · exact lt_irrefl i hlt
      · exact not_pending_of_done hdone hp
    have hlen : ((r.record n).buf.take k).length ≤ r.len n := by
      rw [List.length_take, length_record]
      omega
    apply slice_writeAt_of_disjoint
    rcases Nat.lt_or_gt_of_ne hne with hlt | hgt
    · exact .inl (disjoint_chunks hlt)
    · have := disjoint_chunks (r := r) hgt
      exact .inr (by omega)
  | zstd =>
    simp only [hc] at h ⊢
    refine ⟨fun x hx => ?_, fun i hi hpi => ?_⟩
    · have := r.cursorAt_mono (Nat.zero_le n)
      rw [byteAt_writeAt, if_neg (by omega), h.1 x hx]
    · have := cursorAt_add_le hc hpi hi
      rw [slice_writeAt_of_disjoint (.inl (by omega)), h.2 i hi hpi]

/-- Once chunk `n` is written whole, the file stores it. -/
lemma FileAt.write {n : ℕ} {f : Bytes} (h : r.FileAt n f) (hp : r.Pending n)
    (hskip : r.map.compression = .none → ¬ r.Skipped n) :
    r.FileAt (n + 1) (writeAt f (r.writeOffset n) (r.writeData n)) := by
  have hkept := h.write_prefix hp (r.writeData n).length
  rw [List.take_length] at hkept
  unfold FileAt writeOffset writeData at *
  cases hc : r.map.compression with
  | none =>
    simp only [hc] at hkept ⊢
    intro i hi hor
    by_cases hin : i = n
    · subst hin
      rw [contentOf, if_pos ⟨hp, hskip hc⟩, ← length_record, slice_writeAt_self]
    · exact hkept i hi (hor.imp_left fun hlt => by omega)
  | zstd =>
    simp only [hc] at hkept ⊢
    refine ⟨hkept.1, fun i hi hpi => ?_⟩
    by_cases hin : i = n
    · subst hin
      exact slice_writeAt_self _ _ _
    · exact hkept.2 i (by omega) hpi

/-- A chunk that sparse output leaves out is stored as what was there before. -/
lemma FileAt.skip {n : ℕ} {f : Bytes} (h : r.FileAt n f) (hfrom : r.UntouchedFrom n f)
    (hp : r.Pending n) (hc : r.map.compression = .none) (hskip : r.Skipped n) :
    r.FileAt (n + 1) f := by
  unfold FileAt at *
  simp only [hc] at h ⊢
  intro i hi hor
  by_cases hin : i = n
  · subst hin
    rw [hfrom hc i le_rfl hp, contentOf, if_neg fun h' => h'.2 hskip]
  · exact h i hi (hor.imp_left fun hlt => by omega)

/-- A chunk that was done at the start needs nothing. -/
lemma FileAt.succ_of_done {n : ℕ} {f : Bytes} (h : r.FileAt n f)
    (hdone : r.map.isChunkDone n = true) : r.FileAt (n + 1) f := by
  unfold FileAt at *
  cases hc : r.map.compression with
  | none =>
    simp only [hc] at h ⊢
    intro i hi hor
    by_cases hin : i = n
    · exact h i hi (.inr (hin ▸ hdone))
    · exact h i hi (hor.imp_left fun hlt => by omega)
  | zstd =>
    simp only [hc] at h ⊢
    refine ⟨h.1, fun i hi hpi => h.2 i ?_ hpi⟩
    rcases Nat.lt_succ_iff_lt_or_eq.1 hi with hlt | rfl
    · exact hlt
    · exact absurd hpi (not_pending_of_done hdone)

lemma UntouchedFrom.mono {m n : ℕ} {f : Bytes} (h : r.UntouchedFrom m f) (hmn : m ≤ n) :
    r.UntouchedFrom n f := fun hc i hi hp => h hc i (hmn.trans hi) hp

/-- A write of chunk `n` leaves the chunks behind it alone. -/
lemma UntouchedFrom.write {n : ℕ} {f : Bytes} (h : r.UntouchedFrom n f) :
    r.UntouchedFrom (n + 1) (writeAt f (r.writeOffset n) (r.writeData n)) := by
  intro hc i hi hp
  rw [← h hc i (by omega) hp]
  refine slice_writeAt_of_disjoint (.inr ?_)
  have := disjoint_chunks (r := r) (show n < i by omega)
  simp only [writeOffset, writeData, hc, length_record]
  exact this

/-- Between two chunks raw output holds each chunk as it was or as it is written. -/
lemma FileAt.mixed {n : ℕ} {f : Bytes} (h : r.FileAt n f) (hfrom : r.UntouchedFrom n f) :
    r.Mixed f := by
  intro hc i hp k hk
  have hbyte : byteAt f (r.offset i + k) = byteAt (slice f (r.offset i) (r.len i)) k := by
    rw [byteAt_slice, if_pos hk]
  have hold : byteAt r.file (r.offset i + k) = byteAt (slice r.file (r.offset i) (r.len i)) k := by
    rw [byteAt_slice, if_pos hk]
  rw [hbyte, hold]
  rcases Nat.lt_or_ge i n with hlt | hge
  · unfold FileAt at h
    simp only [hc] at h
    rw [h i hp.1 (.inl hlt), contentOf]
    split
    · exact .inr rfl
    · exact .inl rfl
  · exact .inl (by rw [hfrom hc i hge hp])

/-- While chunk `n` is written it holds part of what is written. -/
lemma Mixed.write_prefix {n : ℕ} {f : Bytes} (h : r.Mixed f) (hp : r.Pending n) (j : ℕ) :
    r.Mixed (writeAt f (r.writeOffset n) ((r.writeData n).take j)) := by
  intro hc i hpi k hk
  have hwo : r.writeOffset n = r.offset n := by simp [writeOffset, hc]
  have hwd : r.writeData n = (r.record n).buf := by simp [writeData, hc]
  rw [hwo, hwd, byteAt_writeAt, List.length_take, length_record]
  split
  · rename_i hin
    -- only chunk `n` itself is written
    have hin' : i = n := by
      by_contra hne
      rcases Nat.lt_or_gt_of_ne hne with hlt | hgt
      · have := disjoint_chunks (r := r) hlt
        omega
      · have := disjoint_chunks (r := r) hgt
        omega
    subst hin'
    right
    rw [Nat.add_sub_cancel_left, byteAt_take, if_pos (by omega)]
  · exact h hc i hpi k hk

/-- Setting the length of raw output keeps every chunk. -/
lemma FileAt.setLen {n : ℕ} {f : Bytes} (h : r.FileAt n f) (hs : r.Sound)
    (hc : r.map.compression = .none) : r.FileAt n (FileBytes.setLen f r.src.len) := by
  unfold FileAt at *
  simp only [hc] at h ⊢
  intro i hi hor
  rw [slice_setLen (offset_add_len_le (hs.offset_lt hi).le), h i hi hor]

/-! ## Progress of the map -/

/-- The map a run begins with. -/
lemma mapAt_zero {m : ImageMap} (h : m = { r.map with frames := r.frames }) : r.MapAt 0 m := by
  subst h
  refine ⟨⟨rfl, rfl, rfl, rfl, rfl, rfl, rfl⟩, rfl, fun i => ?_, fun lba => ?_, fun h => h.exact⟩
  · rw [hashAt, if_neg fun h => Nat.not_lt_zero i h.1]
  · have : ¬ r.LeftBad 0 lba := fun ⟨i, hi, _⟩ => Nat.not_lt_zero i hi
    simp [this]

/-- Passing over a chunk that is done changes nothing. -/
lemma MapAt.succ_of_not {n : ℕ} {m : ImageMap} (h : r.MapAt n m) (hp : ¬ r.Pending n) :
    r.MapAt (n + 1) m where
  header := h.header
  frames := by rw [h.frames, framesAt, if_neg fun h' => hp h'.2]
  hashes i := by rw [h.hashes, hashAt_succ_of_not hp]
  bad lba := by rw [h.bad, leftBad_succ_of_not hp]
  exact := h.exact

/-- Coalescing the bad runs changes nothing. -/
lemma MapAt.coalesce {n : ℕ} {m : ImageMap} (h : r.MapAt n m) :
    r.MapAt n { m with bad := Reclaim.coalesce m.bad } where
  header := ⟨h.header.1, h.header.2, h.header.3, h.header.4, h.header.5, h.header.6, h.header.7⟩
  frames := h.frames
  hashes := h.hashes
  bad lba := by rw [inRanges_coalesce, h.bad]
  exact hcount := (h.exact hcount).coalesce

lemma MapAt.isChunkDone {n i : ℕ} {m : ImageMap} (h : r.MapAt n m) :
    m.isChunkDone i = true ↔ r.map.isChunkDone i = true ∨ (i < n ∧ r.Pending i) := by
  rw [ImageMap.isChunkDone_iff, h.hashes, hashAt, ImageMap.isChunkDone_iff]
  split
  · rename_i hi
    simp [hi]
  · rename_i hi
    simp [hi]

/-- Before turn `n`, chunk `n` is as it was at the start. -/
lemma MapAt.isChunkDone_self {n : ℕ} {m : ImageMap} (h : r.MapAt n m) :
    m.isChunkDone n = r.map.isChunkDone n :=
  ImageMap.isChunkDone_congr (by rw [h.hashes, hashAt_self])

lemma MapAt.numChunks {n : ℕ} {m : ImageMap} (h : r.MapAt n m) :
    m.numChunks = r.map.numChunks := by
  have key : ∀ i, m.numChunks ≤ i ↔ r.map.numChunks ≤ i := by
    intro i
    rw [ImageMap.numChunks, ImageMap.numChunks, ← List.getElem?_eq_none_iff,
      ← List.getElem?_eq_none_iff, h.hashes, hashAt]
    split
    · rename_i hp
      have hsome : ¬ r.map.chunkHashes[i]? = none := by
        rw [List.getElem?_eq_none_iff, not_le]
        exact hp.2.1
      simp [hsome]
    · rfl
  have h1 := key m.numChunks
  have h2 := key r.map.numChunks
  omega

end ImageRun

end Reclaim
