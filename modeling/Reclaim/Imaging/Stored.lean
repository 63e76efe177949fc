import Reclaim.Imaging.Mapped
import Reclaim.Block.Source
import Mathlib.Data.List.Perm.Basic

/-!
# What an output file stores

`storedChunk` is the bytes that an output file holds for chunk `i` under a map, whatever the
file's state: raw output in place, zstd output through the frame indexed at the chunk's offset,
zeros where there is no frame or it does not decompress.  `readAt_chunk` says that this is what
`MappedImage` returns for the chunk.

`Stores` is the stronger relation that a chunk written whole satisfies.  Where every chunk of a
read is stored in this sense, a read over any window returns the stored bytes (`byteAt_readAt`),
so raw and zstd output read alike.
-/

namespace Reclaim

open FileBytes

variable {σ : Type}

/-! ## Well-formed maps -/

/-- What every map that describes `src` satisfies once the imager has saved it: its geometry is the
source's, its bad runs are sectors of chunks it records, and its frames are those of chunks it
records, one a chunk. -/
structure ImageMap.WellFormed (src : BlockSource σ) (m : ImageMap) : Prop where
  sourceId : m.sourceId = src.id
  size : m.size = src.len
  sectorSize : m.sectorSize = src.sector
  chunkSize_pos : 0 < m.chunkSize
  chunkSize_le : m.chunkSize ≤ u32Max
  numChunks : m.numChunks = divCeil src.len m.chunkSize
  unread : m.unread = []
  bad : ∀ lba, InRanges m.bad lba → ∃ i, m.isChunkDone i = true ∧
    ∃ s < divCeil (m.chunkLen i) src.sector, lba = i * m.chunkSize / src.sector + s
  exact : src.sector ∣ m.chunkSize → Exact m.bad
  frames : ∀ fr ∈ m.frames, m.compression = .zstd ∧ ∃ i, m.isChunkDone i = true ∧
    fr.imageOffset = i * m.chunkSize ∧ fr.uncompressed = m.chunkLen i
  frames_nodup : (m.frames.map (·.imageOffset)).Nodup

namespace ImageMap

variable {m : ImageMap}

lemma WellFormed.offset_lt {src : BlockSource σ} (h : m.WellFormed src) {i : ℕ}
    (hi : i < m.numChunks) : i * m.chunkSize < m.size := by
  rw [h.numChunks, lt_divCeil_iff h.chunkSize_pos] at hi
  rw [h.size]
  exact hi

/-- The chunk of an offset inside the image, and the place in it. -/
lemma WellFormed.chunk_of {src : BlockSource σ} (h : m.WellFormed src) {x : ℕ}
    (hx : x < m.size) :
    x / m.chunkSize < m.numChunks ∧ x % m.chunkSize < m.chunkLen (x / m.chunkSize) := by
  have hpos := h.chunkSize_pos
  have hlt : x / m.chunkSize < m.numChunks := by
    rw [h.numChunks]
    exact div_lt_divCeil hpos (h.size ▸ hx)
  refine ⟨hlt, ?_⟩
  have h1 := Nat.div_add_mod' x m.chunkSize
  have h2 := Nat.mod_lt x hpos
  unfold chunkLen
  omega

/-- An image of a source is read in the source's sectors. -/
lemma WellFormed.sectorSize_ofFile {src : BlockSource σ} (h : m.WellFormed src) (f : Bytes) :
    (MappedImage.ofFile f m).sectorSize = src.sector := by
  have hmax : max src.sector 1 = src.sector := max_eq_left src.sector_pos
  rw [MappedImage.sectorSize, MappedImage.ofFile, h.sectorSize, hmax]

end ImageMap

/-! ## Frames -/

/-- A frame read is a slice of the file, as far as one positioned read goes, and zeros. -/
lemma readFrame_eq (B : Backend) (f : Bytes) (fr : FrameEntry) :
    readFrame B f fr = slice f fr.fileOffset (min fr.compressed B.readLimit) ++
      List.replicate (fr.compressed - min fr.compressed B.readLimit) 0 := by
  have hslice := take_drop_padded f fr.fileOffset (min fr.compressed B.readLimit)
  have hlen : ((f.drop fr.fileOffset).take (min fr.compressed B.readLimit)).length ≤
      min fr.compressed B.readLimit := List.length_take_le _ _
  rw [readFrame, ← hslice, List.append_assoc, List.replicate_append_replicate]
  congr 2
  omega

/-- A frame depends only on the bytes it occupies. -/
lemma decodeFrame_congr (B : Backend) {f g : Bytes} {fr : FrameEntry}
    (h : ∀ x, fr.fileOffset ≤ x → x < fr.fileOffset + fr.compressed → byteAt f x = byteAt g x) :
    decodeFrame B f fr = decodeFrame B g fr := by
  rw [decodeFrame, decodeFrame, readFrame_eq, readFrame_eq]
  rw [slice_congr fun x hx hx' => h x hx (by omega)]

/-- What a frame written for the chunk `d` decompresses to when it is read back: the index entry
holds no length above the largest `u32`, and one positioned read returns no more than it does. -/
def reread (B : Backend) (d : Bytes) : Option Bytes :=
  let want := min (B.compress d).length u32Max
  let got := (B.compress d).take (min want B.readLimit)
  B.decompress (got ++ List.replicate (want - min want B.readLimit) 0) (min d.length u32Max)

/-- A frame that was written whole decompresses to what is read back of it. -/
lemma decodeFrame_of_slice (B : Backend) {f d : Bytes} {off io : ℕ}
    (hslice : slice f off (B.compress d).length = B.compress d) :
    decodeFrame B f ⟨io, off, min d.length u32Max, min (B.compress d).length u32Max⟩ =
      reread B d := by
  have hgot : slice f off (min (min (B.compress d).length u32Max) B.readLimit) =
      (B.compress d).take (min (min (B.compress d).length u32Max) B.readLimit) := by
    have htake := take_slice f off (show min (min (B.compress d).length u32Max) B.readLimit ≤
      (B.compress d).length by omega)
    rw [← htake, hslice]
  rw [decodeFrame, readFrame_eq, reread]
  simp only [hgot]

/-- A frame that fits its index entry and one positioned read decompresses to the chunk. -/
lemma reread_of_fits {B : Backend} {d : Bytes} (hfit : B.FrameFits d) (hlen : d.length ≤ u32Max) :
    reread B d = some d := by
  have h1 : min (B.compress d).length u32Max = (B.compress d).length := min_eq_left hfit.1
  have h2 : min (B.compress d).length B.readLimit = (B.compress d).length := min_eq_left hfit.2
  simp only [reread, h1, h2, List.take_length, Nat.sub_self, List.replicate_zero,
    List.append_nil, min_eq_left hlen, B.lossless]

/-- A frame outside the request changes nothing. -/
lemma copyFrame_of_disjoint (B : Backend) (f : Bytes) {off wantEnd : ℕ} {fr : FrameEntry}
    (h : fr.imageOffset + fr.uncompressed ≤ off ∨ wantEnd ≤ fr.imageOffset) (buf : Bytes) :
    copyFrame B f off wantEnd buf fr = buf := by
  simp [copyFrame, h]

/-- What a frame that decompresses whole does to a buffer. -/
lemma copyFrame_of_decodes (B : Backend) {f d buf : Bytes} {off wantEnd : ℕ} {fr : FrameEntry}
    (hend : wantEnd ≤ off + buf.length) (hdec : decodeFrame B f fr = some d)
    (hd : d.length = fr.uncompressed) :
    (copyFrame B f off wantEnd buf fr).length = buf.length ∧
      ∀ k, off + k < wantEnd → byteAt (copyFrame B f off wantEnd buf fr) k =
        if fr.imageOffset ≤ off + k ∧ off + k < fr.imageOffset + d.length then
          byteAt d (off + k - fr.imageOffset)
        else byteAt buf k := by
  rw [copyFrame]
  split
  · exact ⟨rfl, fun k hk => by rw [if_neg (by omega)]⟩
  · rename_i hover
    simp only [hdec]
    split
    · exact ⟨rfl, fun k hk => by rw [if_neg (by omega)]⟩
    · rename_i hne
      rw [if_pos (by omega)]
      set src := (d.drop (max off fr.imageOffset - fr.imageOffset)).take
        (min wantEnd (fr.imageOffset + fr.uncompressed) - max off fr.imageOffset) with hsrc
      have hlen : src.length =
          min wantEnd (fr.imageOffset + fr.uncompressed) - max off fr.imageOffset := by
        rw [hsrc, List.length_take, List.length_drop]
        omega
      have hne' : src ≠ [] := by
        rw [← List.length_pos_iff, hlen]
        omega
      refine ⟨by rw [length_writeAt _ _ _ hne', hlen]; omega, fun k hk => ?_⟩
      rw [byteAt_writeAt, hlen]
      by_cases hin : fr.imageOffset ≤ off + k ∧ off + k < fr.imageOffset + d.length
      · rw [if_pos (by omega), if_pos hin, hsrc, byteAt_take, if_pos (by omega), byteAt_drop]
        congr 1
        omega
      · rw [if_neg (by omega), if_neg hin]

/-- The frames of an index, one a key: the first with an offset is the only one. -/
lemma find_frame_iff {frames : List FrameEntry} (hn : (frames.map (·.imageOffset)).Nodup)
    {off : ℕ} {fr : FrameEntry} :
    frames.find? (fun x => x.imageOffset = off) = some fr ↔
      fr ∈ frames ∧ fr.imageOffset = off := by
  constructor
  · intro h
    exact ⟨List.mem_of_find?_eq_some h, by simpa using List.find?_some h⟩
  · rintro ⟨hmem, rfl⟩
    cases h : frames.find? (fun x => x.imageOffset = fr.imageOffset) with
    | none =>
      have := List.find?_eq_none.1 h fr hmem
      simp at this
    | some fr' =>
      have hkey : fr'.imageOffset = fr.imageOffset := by simpa using List.find?_some h
      rw [List.inj_on_of_nodup_map hn (List.mem_of_find?_eq_some h) hmem hkey]

/-! ## Stored chunks -/

/-- What a read of a chunk of `len` bytes returns when its frame decompresses, or does not. -/
def padChunk (len : ℕ) (plain : Option Bytes) : Bytes :=
  match plain with
  | some d => if len ≤ d.length then d.take len else List.replicate len 0
  | none => List.replicate len 0

lemma padChunk_self (d : Bytes) : padChunk d.length (some d) = d := by
  simp [padChunk]

lemma length_padChunk (len : ℕ) (plain : Option Bytes) : (padChunk len plain).length = len := by
  unfold padChunk
  split
  · split
    · rename_i h
      rw [List.length_take]
      omega
    · simp
  · simp

/-- The bytes that the output file `f` holds for chunk `i` under the map `m`. -/
def storedChunk (B : Backend) (f : Bytes) (m : ImageMap) (i : ℕ) : Bytes :=
  match m.compression with
  | .none => slice f (i * m.chunkSize) (m.chunkLen i)
  | .zstd => padChunk (m.chunkLen i)
      ((m.frames.find? fun fr => fr.imageOffset = i * m.chunkSize).bind (decodeFrame B f))

/-- The output file `f` stores `d` as chunk `i`: in place, or in a frame that decompresses to it. -/
def Stores (B : Backend) (f : Bytes) (m : ImageMap) (i : ℕ) (d : Bytes) : Prop :=
  d.length = m.chunkLen i ∧
    match m.compression with
    | .none => slice f (i * m.chunkSize) (m.chunkLen i) = d
    | .zstd => ∃ fr, m.frames.find? (fun fr => fr.imageOffset = i * m.chunkSize) = some fr ∧
        decodeFrame B f fr = some d

lemma length_storedChunk (B : Backend) (f : Bytes) (m : ImageMap) (i : ℕ) :
    (storedChunk B f m i).length = m.chunkLen i := by
  unfold storedChunk
  cases m.compression with
  | none => exact length_slice _ _ _
  | zstd => exact length_padChunk _ _

/-- A chunk that is stored in the strong sense is the chunk the file holds. -/
lemma Stores.storedChunk_eq {B : Backend} {f d : Bytes} {m : ImageMap} {i : ℕ}
    (h : Stores B f m i d) : storedChunk B f m i = d := by
  obtain ⟨hlen, h⟩ := h
  unfold storedChunk
  cases hc : m.compression with
  | none => simpa only [hc] using h
  | zstd =>
    simp only [hc] at h
    obtain ⟨fr, hfind, hdec⟩ := h
    simp only [hfind, Option.bind_some, hdec, ← hlen, padChunk_self]

/-- The file holds for a chunk what its place, or its frame and the index, determine. -/
lemma storedChunk_congr {B : Backend} {f g : Bytes} {m m' : ImageMap} {i : ℕ}
    (hc : m.compression = m'.compression) (hcs : m.chunkSize = m'.chunkSize)
    (hsize : m.size = m'.size)
    (hraw : m.compression = .none →
      slice f (i * m.chunkSize) (m.chunkLen i) = slice g (i * m.chunkSize) (m.chunkLen i))
    (hzstd : m.compression = .zstd →
      m.frames.find? (fun fr => fr.imageOffset = i * m.chunkSize) =
        m'.frames.find? (fun fr => fr.imageOffset = i * m.chunkSize) ∧
      ∀ fr, m.frames.find? (fun fr => fr.imageOffset = i * m.chunkSize) = some fr →
        decodeFrame B f fr = decodeFrame B g fr) :
    storedChunk B f m i = storedChunk B g m' i := by
  have hlen : m.chunkLen i = m'.chunkLen i := by
    rw [ImageMap.chunkLen, ImageMap.chunkLen, hsize, hcs]
  unfold storedChunk
  rw [← hc, ← hlen, ← hcs]
  cases hcomp : m.compression with
  | none => exact hraw hcomp
  | zstd =>
    obtain ⟨hfind, hdec⟩ := hzstd hcomp
    dsimp only
    rw [← hfind]
    cases hf : m.frames.find? (fun fr => fr.imageOffset = i * m.chunkSize) with
    | none => rfl
    | some fr => simp only [Option.bind_some, hdec fr hf]

/-! ## Reading raw output -/

/-- Inside the image a raw read returns the file's bytes. -/
lemma byteAt_readFileAt {f : Bytes} {len ss off n k : ℕ} (hal : ss ∣ off) (hk : k < n)
    (hx : off + k < len) : byteAt (readFileAt f len ss off n).1 k = byteAt f (off + k) := by
  have hslice := take_drop_padded f off (min n (len - off))
  rw [readFileAt, if_neg (by omega), if_neg (by simpa using hal), if_neg (by omega)]
  dsimp only
  have hbyte := congrArg (byteAt · k) hslice
  simp only [byteAt_slice, if_pos (show k < min n (len - off) by omega)] at hbyte
  rw [← hbyte, byteAt_append, byteAt_append]
  simp

lemma length_readFileAt (f : Bytes) (len ss off n : ℕ) :
    (readFileAt f len ss off n).1.length = n := by
  unfold readFileAt
  dsimp only
  split
  · rename_i h
    simp [h]
  · split
    · simp
    · split
      · simp
      · simp only [List.length_append, List.length_take, List.length_drop, List.length_replicate]
        omega

/-! ## Reading zstd output -/

/-- A byte inside the image lies in chunk `i` exactly when `i` is the chunk of its offset. -/
lemma ImageMap.chunk_covers_iff {m : ImageMap} (hpos : 0 < m.chunkSize) {x i : ℕ}
    (hx : x < m.size) :
    (i * m.chunkSize ≤ x ∧ x < i * m.chunkSize + m.chunkLen i) ↔ x / m.chunkSize = i := by
  rw [Nat.div_eq_iff hpos, ImageMap.chunkLen]
  omega

/-- A frame that decompresses to chunk `i`. -/
def IsFrameOf (B : Backend) (f : Bytes) (m : ImageMap) (data : ℕ → Bytes) (fr : FrameEntry)
    (i : ℕ) : Prop :=
  fr.imageOffset = i * m.chunkSize ∧ fr.uncompressed = m.chunkLen i ∧
    decodeFrame B f fr = some (data i) ∧ (data i).length = m.chunkLen i

/-- Reading frames that each decompress to their chunk: a byte inside the image is its chunk's, if
one of the frames is of that chunk. -/
lemma byteAt_foldl_copyFrame (B : Backend) {f : Bytes} {m : ImageMap} {data : ℕ → Bytes}
    {off wantEnd : ℕ} (hpos : 0 < m.chunkSize) (frames : List FrameEntry)
    (hframes : ∀ fr ∈ frames, ∃ i, IsFrameOf B f m data fr i) (buf : Bytes)
    (hend : wantEnd ≤ off + buf.length) :
    (frames.foldl (copyFrame B f off wantEnd) buf).length = buf.length ∧
      ∀ k, off + k < wantEnd → off + k < m.size →
        byteAt (frames.foldl (copyFrame B f off wantEnd) buf) k =
          if ∃ fr ∈ frames, fr.imageOffset = (off + k) / m.chunkSize * m.chunkSize then
            byteAt (data ((off + k) / m.chunkSize)) ((off + k) % m.chunkSize)
          else byteAt buf k := by
  induction frames generalizing buf with
  | nil => exact ⟨rfl, fun k _ _ => by simp⟩
  | cons fr frames ih =>
    obtain ⟨i, hoff, hun, hdec, hlen⟩ := hframes fr List.mem_cons_self
    obtain ⟨hbuf', hbytes⟩ := copyFrame_of_decodes B hend hdec (hlen.trans hun.symm)
    obtain ⟨hres, hrest⟩ :=
      ih (fun x hx => hframes x (List.mem_cons_of_mem _ hx)) _ (hbuf'.symm ▸ hend)
    refine ⟨hres.trans hbuf', fun k hk hsize => ?_⟩
    rw [List.foldl_cons, hrest k hk hsize, hbytes k hk, hlen, hoff]
    have hcov := ImageMap.chunk_covers_iff hpos hsize (i := i)
    by_cases hi : (off + k) / m.chunkSize = i
    · have hmod : (off + k) % m.chunkSize = off + k - i * m.chunkSize := by
        have := Nat.div_add_mod' (off + k) m.chunkSize
        rw [hi] at this
        omega
      rw [if_pos (hcov.2 hi), hi, hmod, ite_self, if_pos ⟨fr, List.mem_cons_self, hoff⟩]
    · have hkey : i * m.chunkSize ≠ (off + k) / m.chunkSize * m.chunkSize := fun h =>
        hi (Nat.eq_of_mul_eq_mul_right hpos h).symm
      rw [if_neg fun h => hi (hcov.1 h)]
      refine if_congr ⟨?_, ?_⟩ rfl rfl
      · rintro ⟨x, hx, h⟩
        exact ⟨x, List.mem_cons_of_mem _ hx, h⟩
      · rintro ⟨x, hx, h⟩
        rcases List.mem_cons.1 hx with rfl | hx
        · exact absurd (hoff.symm.trans h) hkey
        · exact ⟨x, hx, h⟩

/-! ## Reading an image back -/

variable {B : Backend} {f : Bytes} {m : ImageMap} {src : BlockSource σ}

lemma length_copyFrame (B : Backend) (f : Bytes) (off wantEnd : ℕ) (buf : Bytes)
    (fr : FrameEntry) : (copyFrame B f off wantEnd buf fr).length = buf.length := by
  unfold copyFrame
  dsimp only
  split
  · rfl
  · split
    · rfl
    · rename_i plain _
      split
      · rfl
      · split
        · rename_i h
          by_cases hd : ((plain.drop (max off fr.imageOffset - fr.imageOffset)).take
              (min wantEnd (fr.imageOffset + fr.uncompressed) - max off fr.imageOffset)) = []
          · rw [hd, writeAt_nil]
          · rw [length_writeAt _ _ _ hd, List.length_take, List.length_drop]
            omega
        · rfl

lemma length_foldl_copyFrame (B : Backend) (f : Bytes) (off wantEnd : ℕ)
    (frames : List FrameEntry) (buf : Bytes) :
    (frames.foldl (copyFrame B f off wantEnd) buf).length = buf.length := by
  induction frames generalizing buf with
  | nil => rfl
  | cons fr frames ih => rw [List.foldl_cons, ih, length_copyFrame]

/-- A read fills the whole buffer. -/
lemma length_readAt (B : Backend) (mi : MappedImage) (off n : ℕ) :
    (mi.readAt B off n).1.length = n := by
  unfold MappedImage.readAt
  dsimp only
  split
  · simp
  · cases mi.map.compression with
    | none => exact length_readFileAt _ _ _ _ _
    | zstd => exact (length_foldl_copyFrame _ _ _ _ _ _).trans (by simp)

/-- An unaligned read returns zeros. -/
lemma readAt_unaligned (B : Backend) {mi : MappedImage} {off : ℕ} (h : ¬ mi.sectorSize ∣ off)
    (n : ℕ) : (mi.readAt B off n).1 = List.replicate n 0 := by
  unfold MappedImage.readAt
  rw [if_pos h]

lemma mem_frames_ofFile {fr : FrameEntry} :
    fr ∈ (MappedImage.ofFile f m).frames ↔ fr ∈ m.frames := by
  simp [MappedImage.ofFile]

/-- **Reading stored chunks.**  Where every chunk is stored, an aligned read over any window
returns the stored bytes, for raw and zstd output alike. -/
lemma byteAt_readAt (hwf : m.WellFormed src) {data : ℕ → Bytes}
    (hstored : ∀ i < m.numChunks, Stores B f m i (data i)) {off n k : ℕ}
    (hal : (MappedImage.ofFile f m).sectorSize ∣ off) (hk : k < n) (hx : off + k < m.size) :
    byteAt ((MappedImage.ofFile f m).readAt B off n).1 k =
      byteAt (data ((off + k) / m.chunkSize)) ((off + k) % m.chunkSize) := by
  obtain ⟨hi, hmod⟩ := hwf.chunk_of hx
  obtain ⟨hlen, hst⟩ := hstored _ hi
  unfold MappedImage.readAt
  rw [if_neg (not_not.2 hal)]
  cases hc : m.compression with
  | none =>
    simp only [hc] at hst
    have hmi : (MappedImage.ofFile f m).map.compression = .none := hc
    simp only [hmi]
    have hraw : byteAt (readFileAt f m.size (MappedImage.ofFile f m).sectorSize off n).1 k =
        byteAt f (off + k) := byteAt_readFileAt hal hk hx
    apply hraw.trans
    rw [← hst, byteAt_slice, if_pos hmod, Nat.div_add_mod']
  | zstd =>
    simp only [hc] at hst
    have hmi : (MappedImage.ofFile f m).map.compression = .zstd := hc
    simp only [hmi]
    have hframes : ∀ fr ∈ (MappedImage.ofFile f m).frames, ∃ i, IsFrameOf B f m data fr i := by
      intro fr hfr
      rw [mem_frames_ofFile] at hfr
      obtain ⟨-, i, hdone, hoff, hun⟩ := hwf.frames fr hfr
      obtain ⟨hlen', hst'⟩ := hstored i (ImageMap.isChunkDone_lt hdone)
      simp only [hc] at hst'
      obtain ⟨fr', hfind, hdec⟩ := hst'
      have hsame := (find_frame_iff hwf.frames_nodup).2 ⟨hfr, hoff⟩
      obtain rfl := Option.some_injective _ (hfind.symm.trans hsame)
      exact ⟨i, hoff, hun, hdec, hlen'⟩
    have hu64 : m.size ≤ u64Max := hwf.size ▸ src.len_le
    have hend : saturatingAdd off n ≤ off + (List.replicate n (0 : UInt8)).length := by
      rw [List.length_replicate]
      exact min_le_left _ _
    have hin : off + k < saturatingAdd off n := by
      unfold saturatingAdd
      omega
    obtain ⟨-, hbytes⟩ := byteAt_foldl_copyFrame B hwf.chunkSize_pos _ hframes _ hend
    refine (hbytes k hin hx).trans ?_
    obtain ⟨fr, hfind, -⟩ := hst
    obtain ⟨hfr, hkey⟩ := (find_frame_iff hwf.frames_nodup).1 hfind
    rw [if_pos ⟨fr, mem_frames_ofFile.2 hfr, hkey⟩]

/-- Reading one chunk's window touches one frame only. -/
lemma foldl_copyFrame_chunk (B : Backend) (f : Bytes) {m : ImageMap} {i : ℕ}
    (frames : List FrameEntry) (hn : (frames.map (·.imageOffset)).Nodup)
    (hframes : ∀ fr ∈ frames, fr.imageOffset ≠ i * m.chunkSize →
      fr.imageOffset + fr.uncompressed ≤ i * m.chunkSize ∨
        i * m.chunkSize + m.chunkLen i ≤ fr.imageOffset) (buf : Bytes) :
    frames.foldl (copyFrame B f (i * m.chunkSize) (i * m.chunkSize + m.chunkLen i)) buf =
      ((frames.find? fun fr => fr.imageOffset = i * m.chunkSize).map
        (copyFrame B f (i * m.chunkSize) (i * m.chunkSize + m.chunkLen i) buf)).getD buf := by
  induction frames generalizing buf with
  | nil => rfl
  | cons fr frames ih =>
    rw [List.map_cons, List.nodup_cons] at hn
    have ih := ih hn.2 fun x hx => hframes x (List.mem_cons_of_mem _ hx)
    rw [List.foldl_cons, ih]
    by_cases hkey : fr.imageOffset = i * m.chunkSize
    · -- no other frame has this offset
      have hnone : frames.find? (fun x => x.imageOffset = i * m.chunkSize) = none := by
        refine List.find?_eq_none.2 fun x hx hxk => hn.1 ?_
        rw [hkey, ← of_decide_eq_true hxk]
        exact List.mem_map_of_mem hx
      rw [hnone, List.find?_cons_of_pos (by simpa using hkey)]
      rfl
    · rw [copyFrame_of_disjoint B f (hframes fr List.mem_cons_self hkey),
        List.find?_cons_of_neg (by simpa using hkey)]

/-- **Reading one chunk.**  The read of a sector-aligned chunk returns what the file holds for it,
in whatever state the file is. -/
lemma readAt_chunk (hwf : m.WellFormed src) {i : ℕ} (hi : i < m.numChunks)
    (hal : (MappedImage.ofFile f m).sectorSize ∣ i * m.chunkSize) :
    ((MappedImage.ofFile f m).readAt B (i * m.chunkSize) (m.chunkLen i)).1 =
      storedChunk B f m i := by
  have hoff := hwf.offset_lt hi
  have hin : i * m.chunkSize + m.chunkLen i ≤ m.size := by
    unfold ImageMap.chunkLen
    omega
  apply ext_byteAt (by rw [length_readAt, length_storedChunk])
  intro k hk
  rw [length_readAt] at hk
  unfold MappedImage.readAt storedChunk
  rw [if_neg (not_not.2 hal)]
  cases hc : m.compression with
  | none =>
    have hmi : (MappedImage.ofFile f m).map.compression = .none := hc
    simp only [hmi]
    have hraw : byteAt (readFileAt f m.size (MappedImage.ofFile f m).sectorSize
        (i * m.chunkSize) (m.chunkLen i)).1 k = byteAt f (i * m.chunkSize + k) :=
      byteAt_readFileAt hal hk (by omega)
    apply hraw.trans
    rw [byteAt_slice, if_pos hk]
  | zstd =>
    have hmi : (MappedImage.ofFile f m).map.compression = .zstd := hc
    have hu64 : m.size ≤ u64Max := hwf.size ▸ src.len_le
    have hend : saturatingAdd (i * m.chunkSize) (m.chunkLen i) =
        i * m.chunkSize + m.chunkLen i := min_eq_left (hin.trans hu64)
    simp only [hmi, MappedImage.readZstd, hend]
    have hperm : (MappedImage.ofFile f m).frames.Perm m.frames := List.perm_insertionSort _ _
    have hn : ((MappedImage.ofFile f m).frames.map (·.imageOffset)).Nodup :=
      (hperm.map _).nodup_iff.2 hwf.frames_nodup
    have hother : ∀ fr ∈ (MappedImage.ofFile f m).frames, fr.imageOffset ≠ i * m.chunkSize →
        fr.imageOffset + fr.uncompressed ≤ i * m.chunkSize ∨
          i * m.chunkSize + m.chunkLen i ≤ fr.imageOffset := by
      intro fr hfr hne
      obtain ⟨-, j, -, hoffj, hun⟩ := hwf.frames fr (mem_frames_ofFile.1 hfr)
      have hij : j ≠ i := fun h => hne (h ▸ hoffj)
      rw [hoffj, hun]
      unfold ImageMap.chunkLen
      rcases Nat.lt_or_gt_of_ne hij with h | h
      · have := Nat.mul_le_mul_right m.chunkSize (show j + 1 ≤ i from h)
        rw [Nat.add_mul] at this
        omega
      · have := Nat.mul_le_mul_right m.chunkSize (show i + 1 ≤ j from h)
        rw [Nat.add_mul] at this
        omega
    have hfile : (MappedImage.ofFile f m).file = f := rfl
    rw [hfile, foldl_copyFrame_chunk B f _ hn hother]
    have hfind : (MappedImage.ofFile f m).frames.find?
        (fun fr => fr.imageOffset = i * m.chunkSize) =
          m.frames.find? fun fr => fr.imageOffset = i * m.chunkSize := by
      apply Option.ext
      intro fr
      rw [find_frame_iff hn, find_frame_iff hwf.frames_nodup, hperm.mem_iff]
    rw [hfind]
    cases hf : m.frames.find? (fun fr => fr.imageOffset = i * m.chunkSize) with
    | none => rfl
    | some fr =>
      obtain ⟨hmem, hkey⟩ := (find_frame_iff hwf.frames_nodup).1 hf
      obtain ⟨-, j, -, hoffj, hun⟩ := hwf.frames fr hmem
      obtain rfl : j = i := Nat.eq_of_mul_eq_mul_right hwf.chunkSize_pos (hoffj.symm.trans hkey)
      simp only [Option.map_some, Option.getD_some, Option.bind_some, copyFrame, hkey, hun]
      rw [if_neg (by omega)]
      cases hdec : decodeFrame B f fr with
      | none => rfl
      | some plain =>
        simp only [padChunk, max_self, min_self, Nat.sub_self, Nat.add_sub_cancel_left,
          Nat.zero_add,
          List.drop_zero, List.length_replicate, le_refl, true_and]
        rw [if_neg (by omega)]
        split
        · rename_i hlen
          rw [byteAt_writeAt, List.length_take, if_pos (by omega), Nat.sub_zero]
        · rfl

end Reclaim
