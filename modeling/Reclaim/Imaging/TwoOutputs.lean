import Reclaim.Imaging.Fidelity
import Reclaim.Imaging.Leaf

/-!
# One image, stored raw and stored compressed

The raw and the zstd output of one image differ in how a read finds out that it has no bytes.  A raw
read reports what lies behind the end of the file; a compressed read fills its buffer with zeros,
copies the frames it can decompress over them, and reports nothing: what the map says is all.  So a
sector behind the end of the image that lies in its last chunk, and a sector of a chunk whose frame
is gone, are good in compressed output.

`readsAlike_iff` says exactly which requests both outputs answer alike.
-/

namespace Reclaim

open FileBytes

variable {σ : Type}

/-! ## Statuses that are marked twice -/

/-- The status of a sector that is reported twice. -/
def SectorStatus.worse (a b : SectorStatus) : SectorStatus :=
  if a = .bad ∨ b = .bad then .bad else if a = .unread ∨ b = .unread then .unread else .good

namespace ReadResult

lemma status_mark_worse {r : ReadResult} {i : ℕ} (st : SectorStatus) (hi : i < r.sectorCount) :
    (r.mark i st).status i = (r.status i).worse st := by
  cases st with
  | good => cases h : r.status i <;> simp [mark, h, SectorStatus.worse]
  | bad =>
    rw [mark, status_markBad, if_pos ⟨rfl, hi⟩]
    cases r.status i <;> rfl
  | unread =>
    rw [mark, status_markUnread]
    cases h : r.status i <;> simp [hi, SectorStatus.worse]

lemma sectorCount_foldl_mark (st : ℕ → SectorStatus) (r : ReadResult) (n : ℕ) :
    ((List.range n).foldl (fun r i => r.mark i (st i)) r).sectorCount = r.sectorCount := by
  induction n with
  | zero => rfl
  | succ n ih => rw [List.range_succ, List.foldl_append, List.foldl_cons, List.foldl_nil,
      sectorCount_mark, ih]

/-- Marking the first `n` sectors in turn keeps the worse of two reports. -/
lemma status_foldl_mark_worse (st : ℕ → SectorStatus) (r : ReadResult) {j n : ℕ} (hj : j < n)
    (hn : n ≤ r.sectorCount) :
    ((List.range n).foldl (fun r i => r.mark i (st i)) r).status j = (r.status j).worse (st j) := by
  have hold : ∀ n ≤ j, ((List.range n).foldl (fun r i => r.mark i (st i)) r).status j =
      r.status j := by
    intro n hn
    induction n with
    | zero => rfl
    | succ n ih =>
      rw [List.range_succ, List.foldl_append, List.foldl_cons, List.foldl_nil,
        status_mark_of_ne _ _ (by omega), ih (by omega)]
  induction n, hj using Nat.le_induction with
  | base =>
    rw [List.range_succ, List.foldl_append, List.foldl_cons, List.foldl_nil,
      status_mark_worse _ (by rw [sectorCount_foldl_mark]; omega), hold j le_rfl]
  | succ n hjn ih =>
    rw [List.range_succ, List.foldl_append, List.foldl_cons, List.foldl_nil,
      status_mark_of_ne _ _ (by omega), ih (by omega)]

end ReadResult

/-! ## The two outputs -/

/-- The map of the compressed output of the same image. -/
def ImageMap.compressed (m : ImageMap) (frames : List FrameEntry) : ImageMap :=
  { m with compression := .zstd, frames := frames }

/-- The outputs of one complete image under the map `m`.  Raw output has every byte of it.  A frame
of compressed output is that of a chunk, and decompresses to it or not at all; a chunk may have any
number of frames. -/
structure OneImage (B : Backend) (m : ImageMap) (raw packed : Bytes) (frames : List FrameEntry) :
    Prop where
  compression : m.compression = .none
  chunkSize_pos : 0 < m.chunkSize
  size_le : m.size ≤ u64Max
  length : raw.length = m.size
  frames : ∀ fr ∈ frames, ∃ i, fr.imageOffset = i * m.chunkSize ∧ fr.uncompressed = m.chunkLen i ∧
    ∀ d, decodeFrame B packed fr = some d → d = slice raw (i * m.chunkSize) (m.chunkLen i)

/-- The byte at `x` is in a chunk none of whose frames decompresses. -/
def ChunkLost (B : Backend) (m : ImageMap) (packed : Bytes) (frames : List FrameEntry) (x : ℕ) :
    Prop :=
  x < m.size ∧ ∀ fr ∈ frames, fr.imageOffset = x / m.chunkSize * m.chunkSize →
    decodeFrame B packed fr = none

instance (B : Backend) (m : ImageMap) (packed : Bytes) (frames : List FrameEntry) (x : ℕ) :
    Decidable (ChunkLost B m packed frames x) := inferInstanceAs (Decidable (_ ∧ _))

/-- Two images answer a request alike: the same bytes, the same status of every sector, and no
sector with a byte in `lost` good in either. -/
structure ReadsAlike (B : Backend) (a b : MappedImage) (lost : ℕ → Prop) (off n : ℕ) : Prop where
  bytes : (a.readAt B off n).1 = (b.readAt B off n).1
  statuses : ∀ i, (a.readAt B off n).2.status i = (b.readAt B off n).2.status i
  damaged : ∀ k < n, lost (off + k) →
    (a.readAt B off n).2.status (k / a.sectorSize) ≠ .good ∧
      (b.readAt B off n).2.status (k / b.sectorSize) ≠ .good

section Alike

variable {B : Backend} {m : ImageMap} {raw packed : Bytes} {frames : List FrameEntry} {off n k : ℕ}

/-- What the frames put into a read: the image's byte, or a zero behind its end and where the chunk
is lost. -/
lemma OneImage.put_eq (h : OneImage B m raw packed frames) (hk : k < n) :
    (MappedImage.ofFile packed (m.compressed frames)).put B off n (off + k) =
      if off + k < m.size ∧ ¬ ChunkLost B m packed frames (off + k) then byteAt raw (off + k)
      else 0 := by
  set mi := MappedImage.ofFile packed (m.compressed frames) with hmi
  have hfile : mi.file = packed := rfl
  have hsize := h.size_le
  unfold MappedImage.put
  by_cases hend : off + k < saturatingAdd off n
  swap
  · unfold saturatingAdd at hend
    rw [if_neg (by unfold saturatingAdd; exact hend), if_neg (by omega)]
  rw [if_pos hend, hfile]
  cases hfind : mi.frames.reverse.find? fun fr =>
      fr.covers (off + k) && reaches B packed (saturatingAdd off n) fr with
  | none =>
    -- every frame over this byte fails to decompress
    rw [if_neg]
    rintro ⟨hin, hlost⟩
    refine hlost ⟨hin, fun fr hfr hkey => ?_⟩
    obtain ⟨i, hoff, hun, hdec⟩ := h.frames fr hfr
    obtain rfl : i = (off + k) / m.chunkSize :=
      Nat.eq_of_mul_eq_mul_right h.chunkSize_pos (hoff.symm.trans hkey)
    obtain ⟨hlo, hhi⟩ := (ImageMap.chunk_covers_iff h.chunkSize_pos hin).2 rfl
    have hno := List.find?_eq_none.1 hfind fr
      (List.mem_reverse.2 (mem_frames_ofFile.2 (show fr ∈ (m.compressed frames).frames from hfr)))
    cases hd : decodeFrame B packed fr with
    | none => rfl
    | some d =>
      refine absurd ?_ hno
      have hlen : d.length = m.chunkLen ((off + k) / m.chunkSize) := by
        rw [hdec d hd, length_slice]
      simp only [FrameEntry.covers, reaches, hd, hoff, hun, hlen, Bool.and_eq_true,
        decide_eq_true_eq]
      omega
  | some fr =>
    have hfr : fr ∈ frames :=
      mem_frames_ofFile.1 (List.mem_reverse.1 (List.mem_of_find?_eq_some hfind))
    have hcover := List.find?_some hfind
    obtain ⟨i, hoff, hun, hdec⟩ := h.frames fr hfr
    rw [Bool.and_eq_true, FrameEntry.covers, Bool.and_eq_true, decide_eq_true_eq,
      decide_eq_true_eq, hoff, hun] at hcover
    obtain ⟨⟨hlo, hhi⟩, hreach⟩ := hcover
    have hin : off + k < m.size := by
      unfold ImageMap.chunkLen at hhi
      omega
    have hchunk := (ImageMap.chunk_covers_iff h.chunkSize_pos hin).1 ⟨hlo, hhi⟩
    cases hd : decodeFrame B packed fr with
    | none =>
      rw [reaches, hd] at hreach
      exact absurd hreach (by simp)
    | some d =>
      have hintact : ¬ ChunkLost B m packed frames (off + k) := fun hlost =>
        absurd (hd.symm.trans (hlost.2 fr hfr (by rw [hoff, hchunk]))) (by simp)
      rw [if_pos ⟨hin, hintact⟩]
      dsimp only
      have hbyte : d[off + k - fr.imageOffset]?.getD 0 = byteAt d (off + k - fr.imageOffset) := by
        rw [byteAt, List.getD_eq_getElem?_getD]
      rw [frameByte, hd, Option.bind_some, hbyte, hdec d hd, byteAt_slice, hoff, if_pos (by omega)]
      congr 1
      omega

/-- A read reports on every sector of the request, and on no other. -/
lemma sectorCount_mappedRead (B : Backend) (mi : MappedImage) (off n : ℕ) :
    (mi.readAt B off n).2.sectorCount = divCeil n mi.sectorSize := by
  unfold MappedImage.readAt
  dsimp only
  split
  · simp
  · cases mi.map.compression with
    | none =>
      dsimp only
      rw [MappedImage.overlayStatus_eq, ReadResult.sectorCount_foldl_mark]
      simp
    | zstd =>
      dsimp only
      rw [MappedImage.overlayStatus_eq, ReadResult.sectorCount_foldl_mark]
      simp

/-- Raw output is read as the image's bytes, and zeros behind its end. -/
lemma OneImage.byteAt_raw (h : OneImage B m raw packed frames)
    (hal : (MappedImage.ofFile raw m).sectorSize ∣ off) (hk : k < n) :
    byteAt ((MappedImage.ofFile raw m).readAt B off n).1 k =
      if off + k < m.size then byteAt raw (off + k) else 0 := by
  have hread : ((MappedImage.ofFile raw m).readAt B off n).1 =
      (readFileAt raw m.size (MappedImage.ofFile raw m).sectorSize off n).1 := by
    have hraw : (MappedImage.ofFile raw m).map.compression = .none := h.compression
    rw [MappedImage.readAt, if_neg (not_not.2 hal), hraw]
    rfl
  rw [hread, byteAt_readFileAt_eq hal hk, h.length, min_self]

/-- A sector of raw output is bad behind the end of the image, and else as the map records it. -/
lemma OneImage.status_raw (h : OneImage B m raw packed frames)
    (hal : (MappedImage.ofFile raw m).sectorSize ∣ off) (hk : k < n) :
    let mi := MappedImage.ofFile raw m
    (mi.readAt B off n).2.status (k / mi.sectorSize) =
      if off + min ((k / mi.sectorSize + 1) * mi.sectorSize) n ≤ m.size then
        mi.recordedAt off (k / mi.sectorSize)
      else .bad := by
  intro mi
  have hss : 0 < mi.sectorSize := MappedImage.sectorSize_pos
  have hin : k / mi.sectorSize < divCeil n mi.sectorSize := div_lt_divCeil hss hk
  have hraw : mi.map.compression = .none := h.compression
  have hfile : (readFileAt mi.file mi.map.size mi.sectorSize off n).2.status (k / mi.sectorSize) =
      if off + min ((k / mi.sectorSize + 1) * mi.sectorSize) n ≤ min m.size raw.length then .good
      else .bad := status_readFileAt hss hal hk
  have hmem : k / mi.sectorSize ∈
    (readFileAt mi.file mi.map.size mi.sectorSize off n).2.badSectors ↔
      ¬ off + min ((k / mi.sectorSize + 1) * mi.sectorSize) n ≤ m.size := by
    rw [ReadResult.mem_badSectors, hfile, h.length, min_self]
    split <;> simp [*]
  rw [MappedImage.readAt, if_neg (not_not.2 hal), hraw]
  dsimp only
  rw [MappedImage.overlayStatus_eq, ReadResult.status_foldl_mark_worse _ _ (by simpa using hin)
    le_rfl, ReadResult.status_foldl_markBad, ReadResult.status_good]
  by_cases hend : off + min ((k / mi.sectorSize + 1) * mi.sectorSize) n ≤ m.size
  · rw [if_pos hend, if_neg fun hb => hmem.1 hb.1 hend]
    cases mi.recordedAt off (k / mi.sectorSize) <;> rfl
  · rw [if_neg hend, if_pos ⟨hmem.2 hend, by simpa using hin⟩]
    cases mi.recordedAt off (k / mi.sectorSize) <;> rfl

/-- A sector of compressed output is as the map records it. -/
lemma status_compressed (B : Backend) (m : ImageMap) (packed : Bytes) (frames : List FrameEntry)
    (hal : (MappedImage.ofFile packed (m.compressed frames)).sectorSize ∣ off) (hk : k < n) :
    let mi := MappedImage.ofFile packed (m.compressed frames)
    (mi.readAt B off n).2.status (k / mi.sectorSize) = mi.recordedAt off (k / mi.sectorSize) := by
  intro mi
  have hss : 0 < mi.sectorSize := MappedImage.sectorSize_pos
  have hin : k / mi.sectorSize < divCeil n mi.sectorSize := div_lt_divCeil hss hk
  have hzstd : mi.map.compression = .zstd := rfl
  rw [MappedImage.readAt, if_neg (not_not.2 hal), hzstd]
  dsimp only
  rw [MappedImage.overlayStatus_eq, ReadResult.status_foldl_mark_worse _ _ (by simpa using hin)
    le_rfl, ReadResult.status_good]
  cases mi.recordedAt off (k / mi.sectorSize) <;> rfl

/-- **When both outputs of an image read alike.**  An aligned read returns the same bytes and the
same statuses over both, and no sector of a lost chunk as good, if and only if every sector that is
not recorded bad ends inside the image, and every byte of the request in a lost chunk is a zero in a
sector that is recorded bad or unread. -/
theorem readsAlike_iff (h : OneImage B m raw packed frames)
    (hal : (MappedImage.ofFile raw m).sectorSize ∣ off) :
    let mi := MappedImage.ofFile raw m
    ReadsAlike B mi (.ofFile packed (m.compressed frames)) (ChunkLost B m packed frames) off n ↔
      (∀ k < n, mi.recordedAt off (k / mi.sectorSize) ≠ .bad →
        off + min ((k / mi.sectorSize + 1) * mi.sectorSize) n ≤ m.size) ∧
      ∀ k < n, ChunkLost B m packed frames (off + k) →
        mi.recordedAt off (k / mi.sectorSize) ≠ .good ∧ byteAt raw (off + k) = 0 := by
  intro mi
  set mz := MappedImage.ofFile packed (m.compressed frames) with hmz
  have hss : 0 < mi.sectorSize := MappedImage.sectorSize_pos
  have hsame : mz.sectorSize = mi.sectorSize := rfl
  have hzstd : ∀ k < n, (mz.readAt B off n).2.status (k / mi.sectorSize) =
      mi.recordedAt off (k / mi.sectorSize) :=
        fun k hk => status_compressed B m packed frames hal hk
  have hraw : ∀ k < n, (mi.readAt B off n).2.status (k / mi.sectorSize) =
      if off + min ((k / mi.sectorSize + 1) * mi.sectorSize) n ≤ m.size then
        mi.recordedAt off (k / mi.sectorSize)
      else .bad := fun k hk => h.status_raw hal hk
  have hbyteRaw : ∀ k < n, byteAt (mi.readAt B off n).1 k =
      if off + k < m.size then byteAt raw (off + k) else 0 := fun k hk => h.byteAt_raw hal hk
  have hbyteZstd : ∀ k < n, byteAt (mz.readAt B off n).1 k =
      if off + k < m.size ∧ ¬ ChunkLost B m packed frames (off + k) then byteAt raw (off + k)
      else 0 := by
    intro k hk
    have hread : (mz.readAt B off n).1 = mz.readZstd B off n := by
      have hcomp : mz.map.compression = .zstd := rfl
      rw [MappedImage.readAt, if_neg (not_not.2 (hsame ▸ hal)), hcomp]
    rw [hread, MappedImage.byteAt_readZstd, h.put_eq hk]
  constructor
  · rintro ⟨hbytes, hstatuses, hdamaged⟩
    refine ⟨fun k hk hbad => ?_, fun k hk hlost => ⟨?_, ?_⟩⟩
    · by_contra hend
      have hst := hstatuses (k / mi.sectorSize)
      rw [hraw k hk, if_neg hend, hzstd k hk] at hst
      exact hbad hst.symm
    · rw [← hzstd k hk]
      exact (hdamaged k hk hlost).2
    · have hbyte := congrArg (byteAt · k) hbytes
      simp only [hbyteRaw k hk, hbyteZstd k hk, hlost, hlost.1, not_true_eq_false, and_false,
        if_true, if_false] at hbyte
      exact hbyte
  · rintro ⟨hinside, hzero⟩
    have hstatus : ∀ k < n, (mi.readAt B off n).2.status (k / mi.sectorSize) =
        (mz.readAt B off n).2.status (k / mi.sectorSize) := by
      intro k hk
      rw [hraw k hk, hzstd k hk]
      split_ifs with hend
      · rfl
      · by_contra hbad
        exact hend (hinside k hk fun hb => hbad hb.symm)
    refine ⟨ext_byteAt (by rw [length_readAt, length_readAt]) fun k hk => ?_, fun i => ?_,
      fun k hk hlost => ?_⟩
    · rw [length_readAt] at hk
      rw [hbyteRaw k hk, hbyteZstd k hk]
      by_cases hlost : ChunkLost B m packed frames (off + k)
      · rw [if_pos hlost.1, if_neg fun hin => hin.2 hlost, (hzero k hk hlost).2]
      · simp only [hlost, not_false_eq_true, and_true]
    · by_cases hi : i * mi.sectorSize < n
      · have hdiv : i * mi.sectorSize / mi.sectorSize = i := Nat.mul_div_cancel i hss
        rw [← hdiv]
        exact hstatus _ hi
      · -- no such sector
        have hnone : ∀ {r : ReadResult}, r.sectorCount = divCeil n mi.sectorSize →
            r.status i = .good := by
          intro r hr
          by_contra hbad
          rw [← lt_divCeil_iff hss, ← hr] at hi
          exact hi (ReadResult.lt_of_status_ne_good hbad)
        rw [hnone (sectorCount_mappedRead B mi off n), hnone (sectorCount_mappedRead B mz off n)]
    · rw [hstatus k hk, hsame, hzstd k hk]
      exact ⟨(hzero k hk hlost).1, (hzero k hk hlost).1⟩

end Alike

/-! ## Where the two outputs come from -/

/-- The outputs that two complete runs of the imager leave are the outputs of one image, none of
whose chunks is lost. -/
lemma Keeps.oneImage {src : BlockSource σ} {B : Backend} {st : src.Stable} {m : ImageMap}
    {raw packed : Bytes} {frames : List FrameEntry} (hraw : Keeps st B raw m)
    (hpacked : Keeps st B packed (m.compressed frames)) (hwf : m.WellFormed src)
    (hwf' : (m.compressed frames).WellFormed src) (hcomp : m.compression = .none)
    (hlen : raw.length = src.len) (hall : ∀ i < m.numChunks, m.isChunkDone i = true) :
    OneImage B m raw packed frames ∧ ∀ x, ¬ ChunkLost B m packed frames x := by
  have hstored : ∀ i, m.isChunkDone i = true →
      slice raw (i * m.chunkSize) (m.chunkLen i) = st.chunkOf m i := by
    intro i hi
    have hs := (hraw.stored i hi).2
    rwa [hcomp] at hs
  have hframe : ∀ i, m.isChunkDone i = true → ∃ fr ∈ frames, fr.imageOffset = i * m.chunkSize ∧
      decodeFrame B packed fr = some (st.chunkOf m i) := by
    intro i hi
    obtain ⟨fr, hfind, hdec⟩ := (hpacked.stored i hi).2
    obtain ⟨hfr, hkey⟩ := (find_frame_iff hwf'.frames_nodup).1 hfind
    exact ⟨fr, hfr, hkey, hdec⟩
  refine ⟨⟨hcomp, hwf.chunkSize_pos, hwf.size ▸ src.len_le, hlen.trans hwf.size.symm, ?_⟩, ?_⟩
  · intro fr hfr
    obtain ⟨-, i, hdone, hoff, hun⟩ := hwf'.frames fr hfr
    refine ⟨i, hoff, hun, fun d hd => ?_⟩
    obtain ⟨fr', hfr', hkey, hdec⟩ := hframe i hdone
    have hfrs : fr = fr' :=
      List.inj_on_of_nodup_map hwf'.frames_nodup hfr hfr' (hoff.trans hkey.symm)
    rw [hstored i hdone, ← Option.some_inj, ← hdec, ← hfrs, hd]
  · rintro x ⟨hx, hlost⟩
    obtain ⟨fr, hfr, hkey, hdec⟩ := hframe _ (hall _ (hwf.chunk_of hx).1)
    exact absurd (hdec.symm.trans (hlost fr hfr hkey)) (by simp)

/-! ## Half a chunk -/

/-- The map of a complete image of one sector, in chunks of two. -/
def halfChunk : ImageMap :=
  { ImageMap.new "s" 512 512 1024 .blake3 .none with chunkHashes := [some ""], complete := true }

/-- Its sector, which the backend without compression stores as it is. -/
def sevens : Bytes := List.replicate 512 7

/-- The frame of its chunk. -/
def sevensFrame : FrameEntry := ⟨0, 0, 512, 512⟩

lemma oneImage_sevens : OneImage .plain halfChunk sevens sevens [sevensFrame] where
  compression := rfl
  chunkSize_pos := by decide
  size_le := by decide
  length := List.length_replicate
  frames fr hfr := by
    obtain rfl := List.mem_singleton.1 hfr
    refine ⟨0, rfl, rfl, fun d hd => ?_⟩
    have hlimit : min sevensFrame.compressed Backend.plain.readLimit = 512 := by decide
    have hread : readFrame .plain sevens sevensFrame = slice sevens 0 512 := by
      rw [readFrame_eq, hlimit]
      exact List.append_nil _
    have hdec : decodeFrame .plain sevens sevensFrame = some (slice sevens 0 512) :=
      congrArg some hread
    exact Option.some.inj (hd.symm.trans hdec)

/-- Inside the image both outputs read alike. -/
theorem sevens_readsAlike : ReadsAlike .plain (.ofFile sevens halfChunk)
    (.ofFile sevens (halfChunk.compressed [sevensFrame]))
    (ChunkLost .plain halfChunk sevens [sevensFrame]) 0 512 := by
  refine (readsAlike_iff oneImage_sevens (dvd_zero _)).2 ⟨fun k hk _ => ?_, fun k hk hlost => ?_⟩
  · have hsize : halfChunk.size = 512 := rfl
    omega
  · have hdec : decodeFrame .plain sevens sevensFrame ≠ none := by decide
    have hchunk : k / 1024 = 0 := Nat.div_eq_of_lt (by omega)
    refine absurd (hlost.2 sevensFrame (List.mem_singleton.2 rfl) ?_) hdec
    have hkey : 0 = (0 + k) / 1024 * 1024 := by omega
    exact hkey

/-- **Behind the end of the image, and where the frame is gone, compressed output reads good.** -/
theorem readsAlike_counterexample :
    (OneImage .plain halfChunk sevens sevens [sevensFrame] ∧
      ¬ ReadsAlike .plain (.ofFile sevens halfChunk)
        (.ofFile sevens (halfChunk.compressed [sevensFrame]))
        (ChunkLost .plain halfChunk sevens [sevensFrame]) 0 1024) ∧
    OneImage .plain halfChunk sevens sevens [] ∧
      ¬ ReadsAlike .plain (.ofFile sevens halfChunk) (.ofFile sevens (halfChunk.compressed []))
        (ChunkLost .plain halfChunk sevens []) 0 512 := by
  have hempty : OneImage .plain halfChunk sevens sevens [] :=
    { oneImage_sevens with frames := fun fr hfr => absurd hfr List.not_mem_nil }
  refine ⟨⟨oneImage_sevens, fun h => ?_⟩, hempty, fun h => ?_⟩
  · -- the second sector of the chunk
    have hst := h.statuses 1
    have hraw : ((MappedImage.ofFile sevens halfChunk).readAt .plain 0 1024).2.status 1 = .bad :=
      oneImage_sevens.status_raw (k := 512) (dvd_zero _) (by omega)
    have hzstd : ((MappedImage.ofFile sevens (halfChunk.compressed [sevensFrame])).readAt .plain 0
        1024).2.status 1 = .good :=
      status_compressed (k := 512) .plain halfChunk sevens [sevensFrame] (dvd_zero _) (by omega)
    exact absurd (hraw.symm.trans (hst.trans hzstd)) (by decide)
  · have hlost : ChunkLost .plain halfChunk sevens [] (0 + 0) := by decide
    have hzstd : ((MappedImage.ofFile sevens (halfChunk.compressed [])).readAt .plain 0
        512).2.status 0 = .good :=
      status_compressed (k := 0) .plain halfChunk sevens [] (dvd_zero _) (by omega)
    exact (h.damaged 0 (by omega) hlost).2 hzstd

end Reclaim
