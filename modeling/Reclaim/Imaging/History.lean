import Reclaim.Imaging.ImageRule
import Reclaim.Imaging.Stored

/-!
# Histories of imaging runs

`Reached` is every world that runs of the imager over one source can leave behind, whatever the
options of each run and wherever it is cut, and whatever happens to the output, the source and the
map file between two runs: the output may be changed, truncated or removed, the source detached
and attached again, the map lost.  The map that is found, if one is, is one a run saved.

`Reached.sound` is the invariant: such a map is well formed.  It is kept by every save because the
progress of a run keeps it (`MapAt.wellFormed`).  What an output file stores is not part of the
invariant; it is what `storedChunk_of_progress` and `stores_of_progress` carry through a run, from
what was stored when the run began.
-/

namespace Reclaim

open FileBytes CrashLogic

variable {σ : Type}

/-- A map found on disk that a resume over `src` would go by is well formed. -/
def MapFile.Sound (src : BlockSource σ) (file : MapFile) : Prop :=
  ∀ m, file = .saved m → m.sourceId = src.id → m.size = src.len → m.WellFormed src

/-- A fresh map is well formed. -/
lemma wellFormed_freshMap (src : BlockSource σ) (opts : ImageOptions) :
    (freshMap src opts).WellFormed src := by
  have hpos : 0 < roundUp (max opts.chunkSize src.sector) src.sector := by
    have := src.sector_pos
    exact roundUp_pos (by omega)
  refine ⟨rfl, rfl, rfl, hpos, roundUp_le _ _, ?_, rfl, ?_, fun _ => exact_nil, ?_, List.nodup_nil⟩
  · show (List.replicate _ _).length = _
    rw [List.length_replicate]
    congr 1
    exact max_eq_left hpos
  · exact fun lba h => absurd h (inRanges_nil lba)
  · exact fun fr h => absurd h List.not_mem_nil

namespace ImageRun

variable {r : ImageRun σ}

/-! ## The invariant of the map -/

/-- The run begins with the map's frames, or with none. -/
def FramesKept (r : ImageRun σ) : Prop := r.frames = r.map.frames ∨ r.frames = []

lemma chunkLen_eq (hwf : r.map.WellFormed r.src) (i : ℕ) : r.map.chunkLen i = r.len i := by
  rw [ImageMap.chunkLen, len, hwf.size]

lemma sound_of_wellFormed (hwf : r.map.WellFormed r.src) : r.Sound where
  size := hwf.size
  sectorSize := hwf.sectorSize
  chunkSize_pos := hwf.chunkSize_pos
  chunkSize_le := hwf.chunkSize_le
  numChunks := hwf.numChunks
  bad lba h := by
    obtain ⟨i, hdone, s, hs, heq⟩ := hwf.bad lba h
    exact ⟨i, hdone, s, chunkLen_eq hwf i ▸ hs, heq⟩

/-- A frame of the run is one it began with, or that of a pending chunk it is past. -/
lemma mem_framesAt {n : ℕ} {fr : FrameEntry} (h : fr ∈ r.framesAt n) :
    fr ∈ r.frames ∨ ∃ i < n, r.map.compression = .zstd ∧ r.Pending i ∧ fr = r.frameOf i := by
  induction n with
  | zero => exact .inl h
  | succ n ih =>
    rw [framesAt] at h
    split at h
    · rename_i hz
      rcases List.mem_append.1 h with h | h
      · exact (ih h).imp_right fun hex => hex.imp fun i hi => ⟨Nat.lt_succ_of_lt hi.1, hi.2⟩
      · exact .inr ⟨n, Nat.lt_succ_self n, hz.1, hz.2, List.mem_singleton.1 h⟩
    · exact (ih h).imp_right fun hex => hex.imp fun i hi => ⟨Nat.lt_succ_of_lt hi.1, hi.2⟩

lemma mem_frames (hk : r.FramesKept) {fr : FrameEntry} (h : fr ∈ r.frames) :
    fr ∈ r.map.frames := by
  rcases hk with hk | hk
  · exact hk ▸ h
  · rw [hk] at h
    exact absurd h List.not_mem_nil

/-- A frame of the run is indexed at a chunk that is done, at the start or by now. -/
lemma offset_of_mem_framesAt (hwf : r.map.WellFormed r.src) (hk : r.FramesKept) {n : ℕ}
    {fr : FrameEntry} (h : fr ∈ r.framesAt n) :
    ∃ i, (r.map.isChunkDone i = true ∨ i < n ∧ r.Pending i) ∧ fr.imageOffset = r.offset i := by
  rcases mem_framesAt h with h | ⟨i, hi, -, hp, rfl⟩
  · obtain ⟨-, i, hdone, hoff, -⟩ := hwf.frames fr (mem_frames hk h)
    exact ⟨i, .inl hdone, hoff⟩
  · exact ⟨i, .inr ⟨hi, hp⟩, rfl⟩

lemma nodup_framesAt (hwf : r.map.WellFormed r.src) (hk : r.FramesKept) (n : ℕ) :
    ((r.framesAt n).map (·.imageOffset)).Nodup := by
  induction n with
  | zero =>
    rcases hk with hk | hk
    · simpa only [framesAt, hk] using hwf.frames_nodup
    · simp [framesAt, hk]
  | succ n ih =>
    rw [framesAt]
    split
    · rename_i hz
      rw [List.map_append, List.nodup_append]
      refine ⟨ih, List.nodup_singleton _, ?_⟩
      rintro x hx y hy rfl
      obtain ⟨fr, hfr, rfl⟩ := List.mem_map.1 hx
      obtain ⟨i, hi, hoff⟩ := offset_of_mem_framesAt hwf hk hfr
      have heq : r.offset i = r.offset n := by
        rw [← hoff]
        simpa [frameOf] using hy
      obtain rfl : i = n := Nat.eq_of_mul_eq_mul_right hwf.chunkSize_pos heq
      rcases hi with hdone | ⟨hlt, -⟩
      · exact not_pending_of_done hdone hz.2
      · exact lt_irrefl i hlt
    · exact ih

/-- **Every map a run saves is well formed**, if the one it opened is. -/
lemma MapAt.wellFormed {n : ℕ} {m : ImageMap} (h : r.MapAt n m) (hwf : r.map.WellFormed r.src)
    (hk : r.FramesKept) : m.WellFormed r.src := by
  have hcs := h.header.chunkSize
  have hlen : ∀ i, m.chunkLen i = r.map.chunkLen i := fun i => by
    rw [ImageMap.chunkLen, ImageMap.chunkLen, h.header.size, hcs]
  refine ⟨h.header.sourceId.trans hwf.sourceId, h.header.size.trans hwf.size,
    h.header.sectorSize.trans hwf.sectorSize, hcs ▸ hwf.chunkSize_pos, hcs ▸ hwf.chunkSize_le,
    by rw [h.numChunks, hcs, hwf.numChunks], h.header.unread.trans hwf.unread, ?_, ?_, ?_, ?_⟩
  · intro lba hin
    rcases (h.bad lba).1 hin with hin | ⟨i, hi, hp, s, hs, rfl⟩
    · obtain ⟨i, hdone, s, hs, heq⟩ := hwf.bad lba hin
      exact ⟨i, h.isChunkDone.2 (.inl hdone), s, hlen i ▸ hs, hcs ▸ heq⟩
    · refine ⟨i, h.isChunkDone.2 (.inr ⟨hi, hp⟩), s, ?_, by rw [hcs]; rfl⟩
      rw [hlen, chunkLen_eq hwf]
      exact stillBad_lt hs
  · intro hal
    rw [hcs] at hal
    exact h.exact ⟨hal, hwf.exact hal⟩
  · intro fr hfr
    rw [h.frames] at hfr
    rw [h.header.compression, hcs]
    rcases mem_framesAt hfr with hfr | ⟨i, hi, hz, hp, rfl⟩
    · obtain ⟨hz, i, hdone, hoff, hun⟩ := hwf.frames fr (mem_frames hk hfr)
      exact ⟨hz, i, h.isChunkDone.2 (.inl hdone), hoff, by rw [hun, hlen]⟩
    · refine ⟨hz, i, h.isChunkDone.2 (.inr ⟨hi, hp⟩), rfl, ?_⟩
      have hle := (r.len_le i).trans hwf.chunkSize_le
      rw [hlen, chunkLen_eq hwf, frameOf, length_record]
      exact min_eq_left hle
  · rw [h.frames]
    exact nodup_framesAt hwf hk n

/-! ## What the output stores -/

/-- The map as far as the run goes by it: with the frames the destination begins with. -/
def opened (r : ImageRun σ) : ImageMap := { r.map with frames := r.frames }

/-- Sparse raw output leaves the pending chunk `i` out. -/
def LeftOut (r : ImageRun σ) (i : ℕ) : Prop := r.map.compression = .none ∧ r.Skipped i

instance (i : ℕ) : Decidable (r.LeftOut i) := instDecidableAnd

lemma not_leftOut_of_zstd {i : ℕ} (hz : r.map.compression = .zstd) : ¬ r.LeftOut i := fun h =>
  absurd (hz.symm.trans h.1) (by simp)

/-- What is read back of chunk `i` once the run has written it. -/
def written (r : ImageRun σ) (i : ℕ) : Bytes :=
  match r.map.compression with
  | .none => (r.record i).buf
  | .zstd => padChunk (r.len i) (reread r.B (r.record i).buf)

/-- What the output holds for chunk `i` when the run is past it: what the run wrote, or what was
there before. -/
def expected (r : ImageRun σ) (i : ℕ) : Bytes :=
  if r.Pending i ∧ ¬ r.LeftOut i then r.written i else storedChunk r.B r.file r.opened i

/-- Every frame the run writes fits its index entry. -/
def FramesFit (r : ImageRun σ) : Prop :=
  r.map.compression = .zstd → ∀ i, r.Pending i → r.B.FrameFits (r.record i).buf

lemma frames_subset_framesAt (n : ℕ) : r.frames ⊆ r.framesAt n := by
  induction n with
  | zero => exact List.Subset.refl _
  | succ n ih =>
    rw [framesAt]
    split
    · exact List.Subset.trans ih (List.subset_append_left _ _)
    · exact ih

lemma frameOf_mem_framesAt (hz : r.map.compression = .zstd) {i n : ℕ} (hp : r.Pending i)
    (h : i < n) : r.frameOf i ∈ r.framesAt n := by
  induction n with
  | zero => exact absurd h (Nat.not_lt_zero i)
  | succ n ih =>
    rw [framesAt]
    rcases Nat.lt_succ_iff_lt_or_eq.1 h with hlt | rfl
    · split
      · exact List.mem_append_left _ (ih hlt)
      · exact ih hlt
    · rw [if_pos ⟨hz, hp⟩]
      exact List.mem_append_right _ (List.mem_singleton_self _)

/-- The frame of a chunk that was done at the start is the one it had then. -/
lemma find_framesAt_of_done (hwf : r.map.WellFormed r.src) (hk : r.FramesKept) {n i : ℕ}
    (hdone : r.map.isChunkDone i = true) :
    (r.framesAt n).find? (fun fr => fr.imageOffset = i * r.map.chunkSize) =
      r.frames.find? fun fr => fr.imageOffset = i * r.map.chunkSize := by
  have hn0 : (r.frames.map (·.imageOffset)).Nodup := nodup_framesAt hwf hk 0
  apply Option.ext
  intro fr
  rw [find_frame_iff (nodup_framesAt hwf hk n), find_frame_iff hn0]
  refine ⟨fun ⟨hmem, hoff⟩ => ⟨?_, hoff⟩, fun ⟨hmem, hoff⟩ => ⟨frames_subset_framesAt n hmem, hoff⟩⟩
  rcases mem_framesAt hmem with hmem | ⟨j, -, -, hp, rfl⟩
  · exact hmem
  · obtain rfl : j = i := Nat.eq_of_mul_eq_mul_right hwf.chunkSize_pos hoff
    exact absurd hp (not_pending_of_done hdone)

/-- The frame of a chunk the run has written is the run's. -/
lemma find_framesAt_of_pending (hwf : r.map.WellFormed r.src) (hk : r.FramesKept)
    (hz : r.map.compression = .zstd) {n i : ℕ} (hp : r.Pending i) (hi : i < n) :
    (r.framesAt n).find? (fun fr => fr.imageOffset = i * r.map.chunkSize) =
      some (r.frameOf i) :=
  (find_frame_iff (nodup_framesAt hwf hk n)).2 ⟨frameOf_mem_framesAt hz hp hi, rfl⟩

lemma le_foldl_max (l : List ℕ) (a : ℕ) : a ≤ l.foldl max a ∧ ∀ x ∈ l, x ≤ l.foldl max a := by
  induction l generalizing a with
  | nil => simp
  | cons y l ih =>
    obtain ⟨h1, h2⟩ := ih (max a y)
    refine ⟨(le_max_left _ _).trans h1, fun x hx => ?_⟩
    rcases List.mem_cons.1 hx with rfl | hx
    · exact (le_max_right _ _).trans h1
    · exact h2 x hx

/-- The frames a run begins with end before the place it appends at. -/
lemma frame_le_cursorAt_zero (hz : r.map.compression = .zstd) {fr : FrameEntry}
    (h : fr ∈ r.frames) : fr.fileOffset + fr.compressed ≤ r.cursorAt 0 := by
  have hmem : fr.fileOffset + fr.compressed ∈
      r.frames.map fun f => f.fileOffset + f.compressed := List.mem_map_of_mem h
  simp only [cursorAt, ImageDest.appendCursorOf, hz]
  exact (le_foldl_max _ 0).2 _ hmem

/-- A frame the run began with decompresses as it did. -/
lemma decodeFrame_of_fileAt (hz : r.map.compression = .zstd) {n : ℕ} {f : Bytes}
    (hf : r.FileAt n f) {fr : FrameEntry} (h : fr ∈ r.frames) :
    decodeFrame r.B f fr = decodeFrame r.B r.file fr := by
  have hle := frame_le_cursorAt_zero hz h
  unfold FileAt at hf
  simp only [hz] at hf
  exact decodeFrame_congr r.B fun x _ hx => hf.1 x (by omega)

/-- A chunk the run has written decompresses to what is read back of its frame. -/
lemma decodeFrame_frameOf (hz : r.map.compression = .zstd) {n i : ℕ} {f : Bytes}
    (hf : r.FileAt n f) (hp : r.Pending i) (hi : i < n) :
    decodeFrame r.B f (r.frameOf i) = reread r.B (r.record i).buf := by
  unfold FileAt at hf
  simp only [hz] at hf
  exact decodeFrame_of_slice r.B (hf.2 i hi hp)

/-- Frames that fit are read back as what was written. -/
lemma reread_record (hwf : r.map.WellFormed r.src) (hz : r.map.compression = .zstd)
    (hfit : r.FramesFit) {i : ℕ} (hp : r.Pending i) :
    reread r.B (r.record i).buf = some (r.record i).buf := by
  apply reread_of_fits (hfit hz i hp)
  rw [length_record]
  exact (r.len_le i).trans hwf.chunkSize_le

lemma written_eq_record (hwf : r.map.WellFormed r.src) (hfit : r.FramesFit) {i : ℕ}
    (hp : r.Pending i) : r.written i = (r.record i).buf := by
  unfold written
  cases hc : r.map.compression with
  | none => rfl
  | zstd =>
    dsimp only
    rw [reread_record hwf hc hfit hp, ← length_record, padChunk_self]

lemma MapAt.chunkLen {n : ℕ} {m : ImageMap} (h : r.MapAt n m) (i : ℕ) :
    m.chunkLen i = r.map.chunkLen i := by
  rw [ImageMap.chunkLen, ImageMap.chunkLen, h.header.size, h.header.chunkSize]

/-- **What a run is past is stored**: a chunk that was done stays as it was. -/
lemma storedChunk_of_done (hwf : r.map.WellFormed r.src) (hk : r.FramesKept) {n i : ℕ}
    {f : Bytes} {m : ImageMap} (hm : r.MapAt n m) (hf : r.FileAt n f)
    (hdone : r.map.isChunkDone i = true) :
    storedChunk r.B f m i = storedChunk r.B r.file r.opened i := by
  have hcs : m.chunkSize = r.map.chunkSize := hm.header.chunkSize
  refine storedChunk_congr hm.header.compression hcs hm.header.size (fun hc => ?_) fun hc => ?_
  · rw [hm.header.compression] at hc
    have hi := ImageMap.isChunkDone_lt hdone
    unfold FileAt at hf
    simp only [hc] at hf
    have hslice := hf i hi (.inr hdone)
    rw [contentOf, if_neg fun h => not_pending_of_done hdone h.1] at hslice
    rw [hcs, hm.chunkLen, chunkLen_eq hwf]
    exact hslice
  · rw [hm.header.compression] at hc
    rw [hm.frames, hcs, find_framesAt_of_done hwf hk hdone]
    refine ⟨rfl, fun fr hfind => decodeFrame_of_fileAt hc hf ?_⟩
    exact List.mem_of_find?_eq_some hfind

/-- A chunk that was stored whole when the run began is stored whole. -/
lemma stores_of_done (hwf : r.map.WellFormed r.src) (hk : r.FramesKept) {n i : ℕ} {f d : Bytes}
    {m : ImageMap} (hm : r.MapAt n m) (hf : r.FileAt n f) (hdone : r.map.isChunkDone i = true)
    (hd : Stores r.B r.file r.opened i d) : Stores r.B f m i d := by
  have hcs : m.chunkSize = r.map.chunkSize := hm.header.chunkSize
  have hcomp : m.compression = r.map.compression := hm.header.compression
  have hstored := storedChunk_of_done hwf hk hm hf hdone
  rw [hd.storedChunk_eq] at hstored
  obtain ⟨hlen, hd⟩ := hd
  refine ⟨hlen.trans (hm.chunkLen i).symm, ?_⟩
  unfold storedChunk at hstored
  cases hc : r.map.compression with
  | none =>
    rw [hcomp, hc] at hstored ⊢
    exact hstored
  | zstd =>
    have hco : r.opened.compression = .zstd := hc
    rw [hco] at hd
    rw [hcomp, hc]
    obtain ⟨fr, hfind, hdec⟩ := hd
    refine ⟨fr, ?_, ?_⟩
    · rw [hm.frames, hcs, find_framesAt_of_done hwf hk hdone]
      exact hfind
    · rw [decodeFrame_of_fileAt hc hf (List.mem_of_find?_eq_some hfind), hdec]

/-- In raw output a chunk the run is past is in its place. -/
lemma slice_of_pending (hwf : r.map.WellFormed r.src) (hc : r.map.compression = .none)
    {n i : ℕ} {f : Bytes} {m : ImageMap} (hm : r.MapAt n m) (hf : r.FileAt n f)
    (hp : r.Pending i) (hi : i < n) :
    slice f (i * m.chunkSize) (m.chunkLen i) = r.expected i := by
  have hkept : slice r.file (r.offset i) (r.len i) = storedChunk r.B r.file r.opened i := by
    have hco : r.opened.compression = .none := hc
    have hlen : r.opened.chunkLen i = r.len i := chunkLen_eq hwf i
    unfold storedChunk
    rw [hco, hlen]
    rfl
  have hwritten : r.written i = (r.record i).buf := by
    unfold written
    rw [hc]
  unfold FileAt at hf
  simp only [hc] at hf
  rw [hm.header.chunkSize, hm.chunkLen, chunkLen_eq hwf]
  refine (hf i hp.1 (.inl hi)).trans ?_
  rw [contentOf, expected, hwritten]
  refine if_congr (and_congr_right fun _ => not_congr ?_) rfl hkept
  exact ⟨fun h => ⟨hc, h⟩, fun h => h.2⟩

/-- With frames that fit, a chunk the run is past is stored whole. -/
lemma stores_of_pending (hwf : r.map.WellFormed r.src) (hk : r.FramesKept) (hfit : r.FramesFit)
    {n i : ℕ} {f : Bytes} {m : ImageMap} (hm : r.MapAt n m) (hf : r.FileAt n f)
    (hp : r.Pending i) (hi : i < n) : Stores r.B f m i (r.expected i) := by
  have hcomp : m.compression = r.map.compression := hm.header.compression
  cases hc : r.map.compression with
  | none =>
    have hslice := slice_of_pending hwf hc hm hf hp hi
    refine ⟨by rw [← hslice, length_slice], ?_⟩
    rw [hcomp, hc]
    exact hslice
  | zstd =>
    have hex : r.expected i = (r.record i).buf := by
      rw [expected, if_pos ⟨hp, not_leftOut_of_zstd hc⟩,
        written_eq_record hwf hfit hp]
    rw [hex]
    refine ⟨by rw [length_record, hm.chunkLen, chunkLen_eq hwf], ?_⟩
    rw [hcomp, hc, hm.frames, hm.header.chunkSize]
    exact ⟨_, find_framesAt_of_pending hwf hk hc hp hi,
      (decodeFrame_frameOf hc hf hp hi).trans (reread_record hwf hc hfit hp)⟩

/-- **What the output holds for a recorded chunk**, in terms of what the run found and obtained. -/
lemma storedChunk_of_progress (hwf : r.map.WellFormed r.src) (hk : r.FramesKept) {n i : ℕ}
    {f : Bytes} {m : ImageMap} (hm : r.MapAt n m) (hf : r.FileAt n f)
    (hi : m.isChunkDone i = true) : storedChunk r.B f m i = r.expected i := by
  have hcomp : m.compression = r.map.compression := hm.header.compression
  rcases hm.isChunkDone.1 hi with hdone | ⟨hlt, hp⟩
  · rw [storedChunk_of_done hwf hk hm hf hdone, expected,
      if_neg fun h => not_pending_of_done hdone h.1]
  · unfold storedChunk
    cases hc : r.map.compression with
    | none =>
      rw [hcomp, hc]
      exact slice_of_pending hwf hc hm hf hp hlt
    | zstd =>
      rw [hcomp, hc, hm.frames, hm.header.chunkSize]
      dsimp only
      rw [find_framesAt_of_pending hwf hk hc hp hlt, Option.bind_some,
        decodeFrame_frameOf hc hf hp hlt, hm.chunkLen, chunkLen_eq hwf, expected, written,
        if_pos ⟨hp, not_leftOut_of_zstd hc⟩, hc]

end ImageRun

/-! ## Opening -/

section Opening

variable {B : Backend} {src : BlockSource σ} {opts : ImageOptions} {w v : World σ}
  {r : ImageRun σ}

lemma Opens.wellFormed (ho : Opens B src opts w r) (hmap : w.disk.map.Sound src) :
    r.map.WellFormed r.src := by
  rw [ho.src_eq]
  rcases ho.map with ⟨-, hsaved, hid, hsize, -⟩ | ⟨-, hfresh⟩
  · exact hmap r.map hsaved hid hsize
  · rw [hfresh]
    exact wellFormed_freshMap src opts

lemma Opens.framesKept (ho : Opens B src opts w r) : r.FramesKept := by
  rcases ho.dest with ⟨-, -, h⟩ | ⟨-, -, -, h⟩
  · exact .inl h
  · exact .inr h

lemma Opens.sound (ho : Opens B src opts w r) (hmap : w.disk.map.Sound src) : r.Sound :=
  ImageRun.sound_of_wellFormed (ho.wellFormed hmap)

/-- A run over the map on disk, or over a fresh one: there is only one way to open the files. -/
lemma Opens.unique {r' : ImageRun σ} (ho : Opens B src opts w r) (ho' : Opens B src opts w r') :
    r = r' := by
  have hmap : r.map = r'.map := by
    rcases ho.map with ⟨hres, hsaved, -⟩ | ⟨hor, hfresh⟩ <;>
      rcases ho'.map with ⟨hres', hsaved', -⟩ | ⟨hor', hfresh'⟩
    · exact MapFile.saved.inj (hsaved.symm.trans hsaved')
    · rcases hor' with h | h
      · exact absurd (hres.symm.trans h) (by simp)
      · exact absurd (hsaved.symm.trans h) (by simp)
    · rcases hor with h | h
      · exact absurd (hres'.symm.trans h) (by simp)
      · exact absurd (hsaved'.symm.trans h) (by simp)
    · exact hfresh.trans hfresh'.symm
  have hdest : r.file = r'.file ∧ r.frames = r'.frames := by
    rcases ho.dest with ⟨hres, hout, hfr⟩ | ⟨hor, hno, hfile, hfr⟩ <;>
      rcases ho'.dest with ⟨hres', hout', hfr'⟩ | ⟨hor', hno', hfile', hfr'⟩
    · exact ⟨OutNode.regular.inj (hout.symm.trans hout'), by rw [hfr, hfr', hmap]⟩
    · rcases hor' with h | h
      · rw [← hmap] at h
        exact absurd (hres.symm.trans h) (by simp)
      · exact absurd (hout.symm.trans h) (by simp)
    · rcases hor with h | h
      · rw [hmap] at h
        exact absurd (hres'.symm.trans h) (by simp)
      · exact absurd (hout'.symm.trans h) (by simp)
    · exact ⟨hfile.trans hfile'.symm, hfr.trans hfr'.symm⟩
  cases r
  cases r'
  obtain ⟨h1, h2, h3, -, h4, h5, h6, -⟩ := ho
  obtain ⟨h1', h2', h3', -, h4', h5', h6', -⟩ := ho'
  simp_all

end Opening

/-! ## Histories -/

/-- What one call of the imager is given besides the source and the paths. -/
abbrev ImageCall : Type := ImageOptions × Env

/-- What may happen to the two files and the source between two runs: the map may be lost, but one
that is found is the one that was saved. -/
def Tampered (w v : World σ) : Prop :=
  v.disk.map = w.disk.map ∨ v.disk.map = .absent ∨ v.disk.map = .unreadable

/-- The worlds that a history of runs over `src` can leave behind, beginning where no map of `src`
exists. -/
def Reached (B : Backend) (src : BlockSource σ) (outPath mapPath : String) : World σ → Prop :=
  Recovers (fun c : ImageCall => image B src outPath mapPath c.1 c.2)
    (fun w => ∀ m, w.disk.map = .saved m → ¬ (m.sourceId = src.id ∧ m.size = src.len))
    (fun _ _ _ => True) Tampered

section Reached

variable {B : Backend} {src : BlockSource σ} {outPath mapPath : String} {opts : ImageOptions}
  {env : Env} {w v : World σ}

/-- What a cut run leaves at the map path is what it found or a map it saved. -/
lemma ImageRun.CrashAt.mapSound {r : ImageRun σ} (h : r.CrashAt v) (hwf : r.map.WellFormed r.src)
    (hk : r.FramesKept) (hdisk : r.diskMap.Sound r.src) : v.disk.map.Sound r.src := by
  obtain ⟨n, j, f, -, -, -, -, hsaved, -⟩ := h
  rcases hsaved with ⟨-, hmap⟩ | ⟨k, -, m, l, hmap, hat, -⟩
  · rw [hmap]
    exact hdisk
  · rintro m' hm' - -
    obtain rfl := MapFile.saved.inj (hmap.symm.trans hm')
    exact hat.wellFormed hwf hk

lemma Cut.mapSound (h : Cut B src opts w v) (hmap : w.disk.map.Sound src) :
    v.disk.map.Sound src := by
  rcases h with rfl | ⟨r, ho, hcrash⟩
  · exact hmap
  · rw [← ho.src_eq]
    apply hcrash.mapSound (ho.wellFormed hmap) ho.framesKept
    rw [ho.diskMap, ho.src_eq]
    exact hmap

lemma ImageRun.Finished.crashAt {r : ImageRun σ} {out : ImageOutcome} {f : Bytes} {m : ImageMap}
    (h : r.Finished out v f m) : r.CrashAt v := by
  obtain ⟨l, hl⟩ := h.saves
  exact ⟨r.map.numChunks, r.map.numChunks, f, le_rfl, h.out_eq, h.file,
    h.file.mixed fun _ i hi hp => absurd hp.1 (not_lt.2 hi),
    .inr ⟨r.map.numChunks, le_rfl, m, l, h.map_eq, h.map, hl⟩, h.device⟩

/-- The rule for a run in a world whose map is sound. -/
theorem image_spec (outPath mapPath : String) (opts : ImageOptions) (env : Env)
    (hmap : w.disk.map.Sound src) :
    wp (Cut B src opts w) (Throws B src opts env w) (Returns B src opts env w)
      (image B src outPath mapPath opts env) w :=
  image_rule outPath mapPath fun _ ho => ho.sound hmap

/-- Whatever way a run ends, it leaves a cut. -/
lemma cut_of_leaves (hmap : w.disk.map.Sound src)
    (hv : v ∈ (image B src outPath mapPath opts env).leaves w) : Cut B src opts w v := by
  refine wp_leaves (wp_mono (fun _ h => h) (fun _ _ h => h.1) ?_
    (image_spec outPath mapPath opts env hmap)) v hv
  rintro out u ⟨r, ho, ⟨f, m, hfin⟩ | ⟨-, hcrash, -⟩⟩
  · exact .inr ⟨r, ho, hfin.crashAt⟩
  · exact .inr ⟨r, ho, hcrash⟩

/-- **The map invariant.**  After every history the map on disk is well formed, if it is one of
this source. -/
theorem Reached.sound (h : Reached B src outPath mapPath w) : w.disk.map.Sound src := by
  refine Recovers.induction (C := fun w => w.disk.map.Sound src)
    (fun w hw m hm hid hsize => ?_) (fun c w hw v hv _ => ?_) (fun w v hw hd => ?_) h
  · exact absurd ⟨hid, hsize⟩ (hw m hm)
  · exact (cut_of_leaves hw hv).mapSound hw
  · rcases hd with hd | hd | hd
    · rw [hd]
      exact hw
    · intro m hm
      exact absurd (hd.symm.trans hm) (by simp)
    · intro m hm
      exact absurd (hd.symm.trans hm) (by simp)

/-- A run that returns complete, seen from the world it started in. -/
lemma Reached.finished (h : Reached B src outPath mapPath w) {out : ImageOutcome}
    (hrun : (image B src outPath mapPath opts env w).result = .ok out)
    (hcomplete : out.complete = true) :
    ∃ r f m, Opens B src opts w r ∧
      r.Finished out (image B src outPath mapPath opts env w).final f m := by
  obtain ⟨r, ho, ⟨f, m, hfin⟩ | ⟨hno, -⟩⟩ :=
    wp_returned (image_spec outPath mapPath opts env h.sound) hrun
  · exact ⟨r, f, m, ho, hfin⟩
  · exact absurd (hno.symm.trans hcomplete) (by simp)

/-- **A run that nothing disturbs completes**, once its files can be opened. -/
theorem image_completes (outPath mapPath : String) {r : ImageRun σ} (hmap : w.disk.map.Sound src)
    (ho : Opens B src opts w r) (hcancel : ∀ i, env.cancel i = false)
    (hfault : ∀ op, env.fault op = false) :
    ∃ out f m, (image B src outPath mapPath opts env w).result = .ok out ∧
      out.complete = true ∧
      r.Finished out (image B src outPath mapPath opts env w).final f m := by
  have hspec := image_spec (B := B) outPath mapPath opts env hmap
  cases hres : (image B src outPath mapPath opts env w).result with
  | error e =>
    obtain ⟨-, ⟨op, -, hop⟩ | hno⟩ := wp_thrown hspec hres
    · exact absurd ((hfault op).symm.trans hop) (by simp)
    · exact absurd ⟨r, ho⟩ hno
  | ok out =>
    obtain ⟨r', ho', ⟨f, m, hfin⟩ | ⟨-, -, i, hi⟩⟩ := wp_returned hspec hres
    · obtain rfl := ho.unique ho'
      exact ⟨out, f, m, rfl, hfin.complete, hfin⟩
    · exact absurd ((hcancel i).symm.trans hi) (by simp)

/-- A run that goes on where a history ended is part of the history. -/
lemma Reached.image (h : Reached B src outPath mapPath w) :
    Reached B src outPath mapPath (image B src outPath mapPath opts env w).final :=
  .ran (opts, env) h (List.mem_append_right _ (List.mem_singleton_self _)) trivial

end Reached

/-! ## The first run -/

section First

variable (B : Backend) (src : BlockSource σ) (opts : ImageOptions) (s : σ)

/-- No output, no map, and a source in state `s` that nobody has read. -/
def World.empty (s : σ) : World σ := ⟨⟨.absent, .absent, .absent⟩, ⟨s, []⟩, []⟩

/-- The first run over a source. -/
def firstRun : ImageRun σ :=
  ⟨B, src, opts, freshMap src opts, [], [], ⟨s, []⟩, .absent, []⟩

lemma opens_firstRun : Opens B src opts (World.empty s) (firstRun B src opts s) :=
  ⟨rfl, rfl, rfl, .inr ⟨.inr rfl, rfl⟩, rfl, rfl, rfl, .inr ⟨.inr rfl, by simp [World.empty], rfl,
    rfl⟩⟩

lemma reached_empty (outPath mapPath : String) : Reached B src outPath mapPath (World.empty s) :=
  .begin fun m h => absurd h (by simp [World.empty])

/-- Nothing is done before the first run. -/
lemma firstRun_pending {i : ℕ} (h : i < (freshMap src opts).numChunks) :
    (firstRun B src opts s).Pending i := ⟨h, ImageMap.not_isChunkDone_new _ _ _ _ _ _ _⟩

/-- The first run completes if nothing disturbs it. -/
lemma firstRun_completes (outPath mapPath : String) : ∃ out f m,
    (image B src outPath mapPath opts .quiet (World.empty s)).result = .ok out ∧
      out.complete = true ∧ (firstRun B src opts s).Finished out
        (image B src outPath mapPath opts .quiet (World.empty s)).final f m :=
  image_completes outPath mapPath (reached_empty B src s outPath mapPath).sound
    (opens_firstRun B src opts s) (fun _ => rfl) fun _ => rfl

end First

end Reclaim
