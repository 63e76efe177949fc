import Reclaim.Block.RawDevice
import Reclaim.Block.SectorTable
import Reclaim.Imaging.Stored

/-!
# The leaf sources

Four sources read a backing store themselves: an image file, bytes in memory, an image with its map,
and a raw device.  Each keeps the promises of a read on some requests only.  All but the bytes in
memory report the sector in which they stop bad and leave what they read of it in the buffer, the
bytes in memory report it good, and an image with a map reports what the map records over whatever
the image holds.
-/

namespace Reclaim

open FileBytes

/-! ## Image files -/

/-- An `ImageFile`: the file as a read finds it, and the length it had when it was opened.  A read
that fails somewhere finds a file that ends there. -/
structure ImageFile where
  file : Bytes
  len : ℕ
  sectorSize : ℕ
  sectorSize_pos : 0 < sectorSize

/-- The byte at a position of a file of which `len` bytes count. -/
def fileByte (file : Bytes) (len x : ℕ) : Option UInt8 := if x < len then file[x]? else none

section File

variable {file : Bytes} {len ss off n k : ℕ}

lemma fileByte_of_lt {x : ℕ} (hx : x < min len file.length) :
    fileByte file len x = some (byteAt file x) := by
  rw [fileByte, if_pos (by omega)]
  simp [byteAt, List.getD_eq_getElem?_getD, show x < file.length by omega]

/-- What an aligned read has at `k`: the file's byte, as far as the file goes. -/
lemma byteAt_readFileAt_eq (hal : ss ∣ off) (hk : k < n) :
    byteAt (readFileAt file len ss off n).1 k =
      if off + k < min len file.length then byteAt file (off + k) else 0 := by
  by_cases hlt : off + k < len
  · rw [byteAt_readFileAt hal hk hlt]
    split
    · rfl
    · exact byteAt_of_length_le (by omega)
  · rw [if_neg (by omega), readFileAt, if_neg (by omega), if_neg (not_not.2 hal)]
    split
    · exact byteAt_replicate_zero _ _
    · rw [byteAt_append, if_neg, byteAt_replicate_zero]
      rw [List.length_take, List.length_drop]
      omega

/-- A sector is good if the file goes on to the end of it, as far as the request does. -/
lemma status_readFileAt (hss : 0 < ss) (hal : ss ∣ off) (hk : k < n) :
    (readFileAt file len ss off n).2.status (k / ss) =
      if off + min ((k / ss + 1) * ss) n ≤ min len file.length then .good else .bad := by
  have hin : k / ss < divCeil n ss := div_lt_divCeil hss hk
  have hpos : k < (k / ss + 1) * ss := by
    rw [Nat.add_mul, Nat.one_mul]
    exact Nat.lt_div_mul_add hss
  rw [readFileAt, if_neg (by omega), if_neg (not_not.2 hal)]
  split
  · rw [if_neg (by omega)]
    exact ReadResult.status_allBad hin
  · dsimp only
    rw [ReadResult.status_markBadFromByte, ReadResult.status_good, List.length_take,
      List.length_drop]
    by_cases h : off + min ((k / ss + 1) * ss) n ≤ min len file.length
    · rw [if_pos h, if_neg (by omega)]
    · rw [if_neg h, if_pos ⟨by simpa using hin, by omega⟩]

/-- The bytes a file read leaves in a sector that it reports bad. -/
lemma zeroTail_file_iff (hss : 0 < ss) (hal : ss ∣ off) {e : ℕ} :
    ZeroTail (byteAt file) ss off n e ↔
      ∀ k < n, off + k < e → e < off + min ((k / ss + 1) * ss) n → byteAt file (off + k) = 0 := by
  rcases Nat.lt_or_ge off e with hlt | hle
  · obtain ⟨d, rfl⟩ := Nat.exists_eq_add_of_lt hlt
    rw [Nat.add_assoc, zeroTail_iff hss hal]
    constructor
    · exact fun h k _ hk hcut => h k (by omega) (by omega)
    · exact fun h k hk hcut => h k (by omega) (by omega) (by omega)
  · exact iff_of_true (fun h => by omega) fun k _ hk => by omega

end File

namespace ImageFile

/-- The byte at a position of the source. -/
def content (f : ImageFile) : ℕ → Option UInt8 := fileByte f.file f.len

/-- `ImageFile::read_at`. -/
def readAt (f : ImageFile) (off n : ℕ) : ReadOutcome :=
  let r := readFileAt f.file f.len f.sectorSize off n
  ⟨r.1, r.2⟩

/-- **What an `ImageFile` promises.**  A read keeps its promises exactly if only zeros lie, in the
last sector, before the end of what can be read, or the request does not reach across that end. -/
theorem honours_iff_end {f : ImageFile} {off n : ℕ} (hal : f.sectorSize ∣ off) :
    Honours f.sectorSize f.len off n f.content (f.readAt off n) ↔
      ZeroTail (byteAt f.file) f.sectorSize off n (min f.len f.file.length) := by
  have hss := f.sectorSize_pos
  have hstatus : ∀ k < n, ((f.readAt off n).result.status (k / f.sectorSize) = .good ↔
      off + min ((k / f.sectorSize + 1) * f.sectorSize) n ≤ min f.len f.file.length) :=
        fun k hk => by
    rw [readAt, status_readFileAt hss hal hk]
    split <;> simp [*]
  have hheld : ∀ k < n, off + k < min f.len f.file.length →
      byteAt (f.readAt off n).buf k = byteAt f.file (off + k) ∧
        f.content (off + k) = some (byteAt f.file (off + k)) := fun k hk hh =>
    ⟨by rw [readAt, byteAt_readFileAt_eq hal hk, if_pos hh], fileByte_of_lt hh⟩
  have hfree : ∀ k < n, ¬ off + k < min f.len f.file.length →
      byteAt (f.readAt off n).buf k = 0 := fun k hk hh => by
    rw [readAt, byteAt_readFileAt_eq hal hk, if_neg hh]
  rw [zeroTail_file_iff hss hal, honours_iff_zero (length_readFileAt _ _ _ _ _) hheld hfree]
  · constructor
    · exact fun h k hk hin hcut => h k hk hin (by rw [ne_eq, hstatus k hk]; omega)
    · exact fun h k hk hin hbad => h k hk hin (by rw [ne_eq, hstatus k hk] at hbad; omega)
  · intro k hk hgood
    rw [hstatus k hk] at hgood
    have hpos : k < (k / f.sectorSize + 1) * f.sectorSize := by
      rw [Nat.add_mul, Nat.one_mul]
      exact Nat.lt_div_mul_add hss
    omega

end ImageFile

/-! ## Images with a map -/

/-- The frame decides what the image holds at `x`. -/
def FrameEntry.covers (fr : FrameEntry) (x : ℕ) : Bool :=
  decide (fr.imageOffset ≤ x) && decide (x < fr.imageOffset + fr.uncompressed)

/-- The byte that a frame has for `x`, if it decompresses so far. -/
def frameByte (B : Backend) (file : Bytes) (x : ℕ) (fr : FrameEntry) : Option UInt8 :=
  (decodeFrame B file fr).bind fun plain => plain[x - fr.imageOffset]?

/-- A frame decompresses as far as a request up to `wantEnd` asks for it. -/
def reaches (B : Backend) (file : Bytes) (wantEnd : ℕ) (fr : FrameEntry) : Bool :=
  match decodeFrame B file fr with
  | none => false
  | some plain => decide (min wantEnd (fr.imageOffset + fr.uncompressed) ≤
      fr.imageOffset + plain.length)

section Frames

variable {B : Backend} {file buf : Bytes} {off wantEnd k : ℕ} {fr : FrameEntry}

/-- A frame that reaches as far as it is asked for is copied over what was there before. -/
lemma byteAt_copyFrame (hend : wantEnd ≤ off + buf.length) :
    byteAt (copyFrame B file off wantEnd buf fr) k =
      if off + k < wantEnd ∧ (fr.covers (off + k) && reaches B file wantEnd fr) = true then
        (frameByte B file (off + k) fr).getD 0
      else byteAt buf k := by
  unfold copyFrame reaches frameByte FrameEntry.covers
  dsimp only
  split
  · rw [if_neg]
    simp only [Bool.and_eq_true, decide_eq_true_eq]
    omega
  cases hdec : decodeFrame B file fr with
  | none => simp
  | some plain =>
    simp only [Bool.and_eq_true, decide_eq_true_eq, Option.bind_some]
    split
    · rw [if_neg]
      omega
    split
    · rename_i hcopy hfit
      rw [byteAt_writeAt, List.length_take, List.length_drop]
      by_cases hin : off + k < wantEnd ∧ fr.imageOffset ≤ off + k ∧
          off + k < fr.imageOffset + fr.uncompressed
      · rw [if_pos (by omega), if_pos (by omega), byteAt_take,
          if_pos (by omega), byteAt_drop, byteAt,
          List.getD_eq_getElem?_getD]
        congr 2
        omega
      · rw [if_neg (by omega), if_neg (by omega)]
    · rw [if_neg]
      omega

/-- **Frames one after the other**: the last one that reaches as far as it is asked for decides. -/
lemma byteAt_foldl_copyFrame_eq (frames : List FrameEntry) (hend : wantEnd ≤ off + buf.length)
    (hk : off + k < wantEnd) :
    byteAt (frames.foldl (copyFrame B file off wantEnd) buf) k =
      match frames.reverse.find? fun fr => fr.covers (off + k) && reaches B file wantEnd fr with
      | some fr => (frameByte B file (off + k) fr).getD 0
      | none => byteAt buf k := by
  induction frames using List.reverseRecOn with
  | nil => rfl
  | append_singleton frames fr ih =>
    have hlen : wantEnd ≤ off + (frames.foldl (copyFrame B file off wantEnd) buf).length := by
      rw [length_foldl_copyFrame]
      exact hend
    rw [List.foldl_append, List.foldl_cons, List.foldl_nil, byteAt_copyFrame hlen,
      List.reverse_append, List.reverse_singleton, List.singleton_append, List.find?_cons]
    cases hfr : fr.covers (off + k) && reaches B file wantEnd fr with
    | true => rw [if_pos ⟨hk, rfl⟩]
    | false =>
      rw [if_neg (by simp), ih]

/-- Behind its end a request gets nothing. -/
lemma byteAt_foldl_copyFrame_of_le (frames : List FrameEntry) (hend : wantEnd ≤ off + buf.length)
    (hk : wantEnd ≤ off + k) :
    byteAt (frames.foldl (copyFrame B file off wantEnd) buf) k = byteAt buf k := by
  induction frames generalizing buf with
  | nil => rfl
  | cons fr frames ih =>
    rw [List.foldl_cons, ih (by rw [length_copyFrame]; exact hend), byteAt_copyFrame hend,
      if_neg (by omega)]

end Frames

namespace ReadResult

lemma status_mark_good_iff {r : ReadResult} {i : ℕ} {st : SectorStatus} (hi : i < r.sectorCount) :
    (r.mark i st).status i = .good ↔ r.status i = .good ∧ st = .good := by
  cases st with
  | good => simp [mark]
  | bad => simp [mark, status_markBad, hi]
  | unread =>
    rw [mark, status_markUnread]
    by_cases hgood : r.status i = .good
    · simp [hgood, hi]
    · simp [hgood]

/-- Marking the first `n` sectors in turn leaves those good that are, and are to be. -/
lemma status_foldl_mark_good_iff (st : ℕ → SectorStatus) (r : ReadResult) (j : ℕ) {n : ℕ}
    (hn : n ≤ r.sectorCount) :
    ((List.range n).foldl (fun r i => r.mark i (st i)) r).sectorCount = r.sectorCount ∧
      (((List.range n).foldl (fun r i => r.mark i (st i)) r).status j = .good ↔
        r.status j = .good ∧ (j < n → st j = .good)) := by
  induction n with
  | zero => simp
  | succ n ih =>
    obtain ⟨hcount, hstatus⟩ := ih (Nat.le_of_succ_le hn)
    rw [List.range_succ, List.foldl_append, List.foldl_cons, List.foldl_nil]
    refine ⟨by rw [sectorCount_mark, hcount], ?_⟩
    by_cases hj : n = j
    · subst hj
      rw [status_mark_good_iff (by omega), hstatus]
      simp
    · rw [status_mark_of_ne _ _ hj, hstatus]
      have hlt : j < n ↔ j < n + 1 := by omega
      rw [hlt]

end ReadResult

namespace MappedImage

variable {B : Backend} {mi : MappedImage} {off n : ℕ}

/-- What the map records of a sector. -/
def recorded (mi : MappedImage) (lba : ℕ) : SectorStatus :=
  if inRanges mi.bad lba then .bad
  else if inRanges mi.unread lba || !mi.map.isChunkDone
    (saturatingMul lba mi.sectorSize / max mi.map.chunkSize 1) then .unread
  else .good

/-- What the map records of sector `i` of a request at `off`. -/
def recordedAt (mi : MappedImage) (off i : ℕ) : SectorStatus :=
  mi.recorded (saturatingAdd (off / mi.sectorSize) i)

lemma overlaySector_eq (res : ReadResult) (i : ℕ) :
    mi.overlaySector off res i = res.mark i (mi.recordedAt off i) := by
  unfold overlaySector recordedAt recorded
  dsimp only
  split
  · rfl
  · split <;> rfl

/-- The overlay marks each sector as the map records it. -/
lemma overlayStatus_eq (mi : MappedImage) (off : ℕ) (res : ReadResult) : mi.overlayStatus off res =
    (List.range res.sectorCount).foldl (fun r i => r.mark i (mi.recordedAt off i)) res := by
  rw [overlayStatus]
  exact congrArg (fun f => List.foldl f res _) (funext₂ overlaySector_eq)

lemma status_overlayStatus {res : ReadResult} {i : ℕ} (hi : i < res.sectorCount) :
    (mi.overlayStatus off res).status i = .good ↔
      res.status i = .good ∧ mi.recordedAt off i = .good := by
  rw [overlayStatus_eq, (ReadResult.status_foldl_mark_good_iff _ res i le_rfl).2]
  simp [hi]

/-- The byte at a position of the image: the file's, or that of the newest frame over it. -/
def content (B : Backend) (mi : MappedImage) (x : ℕ) : Option UInt8 :=
  match mi.map.compression with
  | .none => fileByte mi.file mi.map.size x
  | .zstd =>
    if x < mi.map.size then
      (mi.frames.reverse.find? fun fr => fr.covers x).bind (frameByte B mi.file x)
    else none

/-- What the frames put at `x` for a request: the byte of the newest that decompresses as far as the
request asks for it, or zero. -/
def put (B : Backend) (mi : MappedImage) (off n x : ℕ) : UInt8 :=
  if x < saturatingAdd off n then
    match mi.frames.reverse.find? fun fr =>
      fr.covers x && reaches B mi.file (saturatingAdd off n) fr
    with
    | some fr => (frameByte B mi.file x fr).getD 0
    | none => 0
  else 0

/-- A request for which the image and its map agree: where the map calls a sector good, the image
has its content; where it does not, the image has zeros. -/
def Agrees (B : Backend) (mi : MappedImage) (off n : ℕ) : Prop :=
  match mi.map.compression with
  | .none =>
    ZeroTail (byteAt mi.file) mi.sectorSize off n (min mi.map.size mi.file.length) ∧
      ∀ k < n, off + k < min mi.map.size mi.file.length →
        mi.recordedAt off (k / mi.sectorSize) ≠ .good → byteAt mi.file (off + k) = 0
  | .zstd => ∀ k < n,
    if mi.recordedAt off (k / mi.sectorSize) = .good then
      mi.content B (off + k) = some (mi.put B off n (off + k))
    else mi.put B off n (off + k) = 0

/-- `MappedImage::read_at`, as what it leaves in the buffer and what it returns. -/
def readOutcome (B : Backend) (mi : MappedImage) (off n : ℕ) : ReadOutcome :=
  ⟨(mi.readAt B off n).1, (mi.readAt B off n).2⟩

lemma sectorSize_pos : 0 < mi.sectorSize := by
  unfold sectorSize
  omega

/-- A read of a raw image is that of the file, with what the map records. -/
lemma readAt_raw (hc : mi.map.compression = .none) (hal : mi.sectorSize ∣ off) :
    mi.readAt B off n = ((readFileAt mi.file mi.map.size mi.sectorSize off n).1,
      mi.overlayStatus off ((readFileAt mi.file mi.map.size mi.sectorSize off n).2.badSectors.foldl
        ReadResult.markBad (ReadResult.good mi.sectorSize (divCeil n mi.sectorSize)))) := by
  rw [MappedImage.readAt, if_neg (not_not.2 hal), hc]

/-- A sector of a raw image is good if the file goes on to the end of it and the map calls it so. -/
lemma status_raw_iff (hc : mi.map.compression = .none) (hal : mi.sectorSize ∣ off) {k : ℕ}
    (hk : k < n) : (mi.readOutcome B off n).result.status (k / mi.sectorSize) = .good ↔
      off + min ((k / mi.sectorSize + 1) * mi.sectorSize) n ≤ min mi.map.size mi.file.length ∧
        mi.recordedAt off (k / mi.sectorSize) = .good := by
  have hss : 0 < mi.sectorSize := sectorSize_pos
  have hin : k / mi.sectorSize < divCeil n mi.sectorSize := div_lt_divCeil hss hk
  have hmem : k / mi.sectorSize ∈
      (readFileAt mi.file mi.map.size mi.sectorSize off n).2.badSectors ↔
        ¬ off + min ((k / mi.sectorSize + 1) * mi.sectorSize) n ≤
          min mi.map.size mi.file.length := by
    rw [ReadResult.mem_badSectors, status_readFileAt hss hal hk]
    split <;> simp [*]
  rw [readOutcome, readAt_raw hc hal, status_overlayStatus (by simpa using hin),
    ReadResult.status_foldl_markBad]
  apply and_congr_left'
  simp [hmem, hin]

/-- A read of a raw image shows the file's bytes. -/
lemma byteAt_raw (hc : mi.map.compression = .none) (hal : mi.sectorSize ∣ off) {k : ℕ}
    (hk : k < n) :
    byteAt (mi.readOutcome B off n).buf k =
      if off + k < min mi.map.size mi.file.length then byteAt mi.file (off + k) else 0 := by
  rw [readOutcome, readAt_raw hc hal, byteAt_readFileAt_eq hal hk]

/-- A raw image with its map. -/
lemma honours_raw_iff (hc : mi.map.compression = .none) (hal : mi.sectorSize ∣ off) :
    Honours mi.sectorSize mi.map.size off n (mi.content B) (mi.readOutcome B off n) ↔
      mi.Agrees B off n := by
  have hss : 0 < mi.sectorSize := sectorSize_pos
  have hcontent : mi.content B = fileByte mi.file mi.map.size := by
    funext x
    rw [content, hc]
  have hstatus : ∀ k < n, ((mi.readOutcome B off n).result.status (k / mi.sectorSize) = .good ↔
      off + min ((k / mi.sectorSize + 1) * mi.sectorSize) n ≤ min mi.map.size mi.file.length ∧
        mi.recordedAt off (k / mi.sectorSize) = .good) := fun _ hk => status_raw_iff hc hal hk
  have hheld : ∀ k < n, off + k < min mi.map.size mi.file.length →
      byteAt (mi.readOutcome B off n).buf k = byteAt mi.file (off + k) ∧
        mi.content B (off + k) = some (byteAt mi.file (off + k)) := fun k hk hh => by
    rw [hcontent]
    exact ⟨by rw [byteAt_raw hc hal hk, if_pos hh], fileByte_of_lt hh⟩
  have hfree : ∀ k < n, ¬ off + k < min mi.map.size mi.file.length →
      byteAt (mi.readOutcome B off n).buf k = 0 := fun k hk hh => by
    rw [byteAt_raw hc hal hk, if_neg hh]
  have hagrees : mi.Agrees B off n ↔
      ZeroTail (byteAt mi.file) mi.sectorSize off n (min mi.map.size mi.file.length) ∧
        ∀ k < n, off + k < min mi.map.size mi.file.length →
          mi.recordedAt off (k / mi.sectorSize) ≠ .good → byteAt mi.file (off + k) = 0 := by
    rw [Agrees, hc]
  rw [hagrees, zeroTail_file_iff hss hal, honours_iff_zero (length_readAt _ _ _ _) hheld hfree]
  · constructor
    · intro h
      refine ⟨fun k hk hin hcut => h k hk hin ?_, fun k hk hin hbad => h k hk hin ?_⟩
      · rw [ne_eq, hstatus k hk]
        omega
      · rw [ne_eq, hstatus k hk]
        exact fun hg => hbad hg.2
    · rintro ⟨hzero, hlisted⟩ k hk hin hbad
      by_cases hg : mi.recordedAt off (k / mi.sectorSize) = .good
      · apply hzero k hk hin
        rw [ne_eq, hstatus k hk] at hbad
        by_contra hcut
        exact hbad ⟨by omega, hg⟩
      · exact hlisted k hk hin hg
  · intro k hk hgood
    rw [hstatus k hk] at hgood
    have hpos : k < (k / mi.sectorSize + 1) * mi.sectorSize := by
      rw [Nat.add_mul, Nat.one_mul]
      exact Nat.lt_div_mul_add hss
    omega

/-- A compressed image is read as what its frames put there. -/
lemma byteAt_readZstd (B : Backend) (mi : MappedImage) (off n k : ℕ) :
    byteAt (mi.readZstd B off n) k = mi.put B off n (off + k) := by
  have hend : saturatingAdd off n ≤ off + (List.replicate n (0 : UInt8)).length := by
    rw [List.length_replicate]
    exact min_le_left _ _
  unfold readZstd put
  split
  · rename_i hlt
    refine (byteAt_foldl_copyFrame_eq _ hend hlt).trans ?_
    rw [byteAt_replicate_zero]
  · rename_i hle
    exact (byteAt_foldl_copyFrame_of_le _ hend (not_lt.1 hle)).trans (byteAt_replicate_zero _ _)

/-- A compressed image with its map. -/
lemma honours_zstd_iff (hc : mi.map.compression = .zstd) (hal : mi.sectorSize ∣ off) :
    Honours mi.sectorSize mi.map.size off n (mi.content B) (mi.readOutcome B off n) ↔
      mi.Agrees B off n := by
  have hss : 0 < mi.sectorSize := sectorSize_pos
  have hread : mi.readAt B off n = (mi.readZstd B off n,
      mi.overlayStatus off (ReadResult.good mi.sectorSize (divCeil n mi.sectorSize))) := by
    rw [MappedImage.readAt, if_neg (not_not.2 hal), hc]
  have hstatus : ∀ k < n, ((mi.readOutcome B off n).result.status (k / mi.sectorSize) = .good ↔
      mi.recordedAt off (k / mi.sectorSize) = .good) := by
    intro k hk
    have hin : k / mi.sectorSize < divCeil n mi.sectorSize := div_lt_divCeil hss hk
    rw [readOutcome, hread, status_overlayStatus (by simpa using hin), ReadResult.status_good]
    simp
  have hbyte : ∀ k < n, byteAt (mi.readOutcome B off n).buf k = mi.put B off n (off + k) := by
    intro k _
    rw [readOutcome, hread]
    exact byteAt_readZstd B mi off n k
  have hagrees : mi.Agrees B off n ↔ ∀ k < n,
      if mi.recordedAt off (k / mi.sectorSize) = .good then
        mi.content B (off + k) = some (mi.put B off n (off + k))
      else mi.put B off n (off + k) = 0 := by
    rw [Agrees, hc]
  rw [hagrees]
  constructor
  · intro h k hk
    rw [← hbyte k hk]
    split
    · rename_i hg
      exact h.exact k hk ((hstatus k hk).2 hg)
    · rename_i hg
      exact h.zeroFilled k hk (mt (hstatus k hk).1 hg)
  · intro h
    refine ⟨length_readAt _ _ _ _, fun k hk hg => ?_, fun k hk hg => ?_, fun k hk hle hg => ?_⟩
    · have hk' := h k hk
      rw [if_pos ((hstatus k hk).1 hg)] at hk'
      rw [hk', hbyte k hk]
    · have hk' := h k hk
      rw [if_neg (mt (hstatus k hk).2 hg)] at hk'
      rw [hbyte k hk, hk']
    · -- behind the end of the image there is no content
      have hk' := h k hk
      rw [if_pos ((hstatus k hk).1 hg), content, hc] at hk'
      simp only [if_neg (not_lt.2 hle)] at hk'
      exact absurd hk' (by simp)

/-- **What a `MappedImage` promises.**  A read keeps its promises exactly if the image and its map
agree over the request. -/
theorem honours_iff_agrees (hal : mi.sectorSize ∣ off) :
    Honours mi.sectorSize mi.map.size off n (mi.content B) (mi.readOutcome B off n) ↔
      mi.Agrees B off n := by
  cases hc : mi.map.compression with
  | none => exact honours_raw_iff hc hal
  | zstd => exact honours_zstd_iff hc hal

end MappedImage

/-! ## All of them -/

/-- A leaf source, opened. -/
inductive LeafSource where
  | image (f : ImageFile)
  | memory (m : MemorySource)
  | mapped (B : Backend) (mi : MappedImage)
  | raw (dev : RawDevice)

namespace LeafSource

/-- The logical sector size. -/
def sectorSize : LeafSource → ℕ
  | .image f => f.sectorSize
  | .memory m => m.sectorSize
  | .mapped _ mi => mi.sectorSize
  | .raw dev => dev.sectorSize

/-- The length in bytes. -/
def len : LeafSource → ℕ
  | .image f => f.len
  | .memory m => m.data.length
  | .mapped _ mi => mi.map.size
  | .raw dev => dev.len

/-- The byte of the backing store at a position. -/
def content : LeafSource → ℕ → Option UInt8
  | .image f => f.content
  | .memory m => m.content
  | .mapped B mi => mi.content B
  | .raw dev => dev.content

/-- `read_at`; only a raw device carries anything from read to read. -/
def readAt (s : RawState) (off n : ℕ) : LeafSource → ReadOutcome
  | .image f => f.readAt off n
  | .memory m => m.readAt off n
  | .mapped B mi => mi.readOutcome B off n
  | .raw dev => (dev.readAt s off n).1

/-- The request is one that the source answers as promised. -/
def Clean (s : RawState) (off n : ℕ) : LeafSource → Prop
  | .image f => ZeroTail (byteAt f.file) f.sectorSize off n (min f.len f.file.length)
  | .memory m =>
    m.sectorSize ∣ m.data.length ∨ off + n ≤ m.data.length ∨ m.data.length ≤ off
  | .mapped B mi => mi.Agrees B off n
  | .raw dev => ∀ e, dev.StopsAt off (min n (dev.len - off)) s.calls e →
      ZeroTail dev.medium dev.sectorSize off n (off + e)

/-- **What the leaf sources promise.**  An aligned read of any of them keeps its promises exactly
if it is clean. -/
theorem honours_iff_clean (l : LeafSource) (s : RawState) (off n : ℕ) (hal : l.sectorSize ∣ off) :
    Honours l.sectorSize l.len off n l.content (l.readAt s off n) ↔ l.Clean s off n := by
  cases l with
  | image f => exact ImageFile.honours_iff_end hal
  | memory m => exact MemorySource.honours_iff_end hal
  | mapped B mi => exact MappedImage.honours_iff_agrees hal
  | raw dev => exact RawDevice.honours_iff_stops hal

/-- A source of two sectors in memory. -/
def twoSectors : LeafSource :=
  .memory ⟨List.replicate 1024 7, 512, sector512_pos, by rw [List.length_replicate]; decide⟩

/-- Its second sector reads as promised. -/
theorem twoSectors_honours : Honours twoSectors.sectorSize twoSectors.len 512 512
    twoSectors.content (twoSectors.readAt ⟨0, false⟩ 512 512) := by
  refine (honours_iff_clean twoSectors ⟨0, false⟩ 512 512 (by decide)).2 (.inl ?_)
  rw [List.length_replicate]
  decide

/-- An image file that ends in the middle of its second sector. -/
def raggedImage : LeafSource := .image ⟨List.replicate 700 7, 700, 512, sector512_pos⟩

/-- That sector is reported bad, and the bytes that were read of it are in the buffer. -/
theorem raggedImage_counterexample : ¬ ∀ (l : LeafSource) (s : RawState) (off n : ℕ),
    l.sectorSize ∣ off → Honours l.sectorSize l.len off n l.content (l.readAt s off n) := by
  intro h
  have hbad : (raggedImage.readAt ⟨0, false⟩ 512 512).result.status (0 / 512) = .bad := by
    decide +kernel
  have hbyte : byteAt (raggedImage.readAt ⟨0, false⟩ 512 512).buf 0 = 7 := by decide +kernel
  have hzero := (h raggedImage ⟨0, false⟩ 512 512 (by decide)).zeroFilled 0 (by decide)
    (by rw [show raggedImage.sectorSize = 512 from rfl, hbad]; decide)
  rw [hbyte] at hzero
  exact absurd hzero (by decide)

end LeafSource

end Reclaim
