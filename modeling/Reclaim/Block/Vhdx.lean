import Reclaim.Block.BlockTable

/-!
# VHDX images

A region table says where the metadata and the block table are, and the metadata how large the disk
and its blocks are.  In the block table every `chunkRatio` entries of blocks are followed by one of
a sector bitmap.  A block that is fully present has its data at a multiple of one MiB, and any other
block is zero.
-/

namespace Reclaim

open FileBytes

namespace Vhdx

/-- `MB`. -/
def mb : ℕ := 1024 * 1024

/-- `MAX_BLOCKS`. -/
def maxBlocks : ℕ := 16 * 1024 * 1024

/-- "vhdxfile". -/
def fileIdentifier : Bytes := [0x76, 0x68, 0x64, 0x78, 0x66, 0x69, 0x6C, 0x65]

/-- "regi". -/
def regionSignature : Bytes := [0x72, 0x65, 0x67, 0x69]

/-- "metadata". -/
def metadataSignature : Bytes := [0x6D, 0x65, 0x74, 0x61, 0x64, 0x61, 0x74, 0x61]

/-- `GUID_REGION_BAT`. -/
def guidRegionBat : Bytes :=
  [0x66, 0x77, 0xC2, 0x2D, 0x23, 0xF6, 0x00, 0x42, 0x9D, 0x64, 0x11, 0x5E, 0x9B, 0xFD, 0x4A, 0x08]

/-- `GUID_REGION_META`. -/
def guidRegionMeta : Bytes :=
  [0x06, 0xA2, 0x7C, 0x8B, 0x90, 0x47, 0x9A, 0x4B, 0xB8, 0xFE, 0x57, 0x5F, 0x05, 0x0F, 0x88, 0x6E]

/-- `GUID_META_FILEPARAMS`. -/
def guidMetaFileParams : Bytes :=
  [0x37, 0x67, 0xA1, 0xCA, 0x36, 0xFA, 0x43, 0x4D, 0xB3, 0xB6, 0x33, 0xF0, 0xAA, 0x44, 0xE7, 0x6B]

/-- `GUID_META_VDSIZE`. -/
def guidMetaVdSize : Bytes :=
  [0x24, 0x42, 0xA5, 0x2F, 0x1B, 0xCD, 0x76, 0x48, 0xB2, 0x11, 0x5D, 0xBE, 0xD8, 0x3B, 0xF4, 0xB8]

/-- `GUID_META_LOGSECT`. -/
def guidMetaLogSect : Bytes :=
  [0x1D, 0xBF, 0x41, 0x81, 0x6F, 0xA9, 0x09, 0x47, 0xBA, 0x47, 0xF2, 0x33, 0xA8, 0xFA, 0xAB, 0x5F]

/-- One entry of a region table: the places of the block table and of the metadata so far. -/
def regionStep (tbl : Bytes) (found : Option ℕ × Option ℕ) (i : ℕ) :
    Option (Option ℕ × Option ℕ) := do
  let base := 16 + i * 32
  let guid ← getRange tbl base 16
  let fileOffset ← getLe 8 tbl (base + 16)
  some (if guid = guidRegionBat then (some fileOffset, found.2)
    else if guid = guidRegionMeta then (found.1, some fileOffset) else found)

/-- `read_region_table`: where the block table and the metadata are. -/
def readRegionTable (file : Bytes) (pos : ℕ) : Option (ℕ × ℕ) := do
  let tbl ← readExact file pos (64 * 1024)
  guard (getRange tbl 0 4 = some regionSignature)
  let count ← getLe 4 tbl 8
  guard (count ≤ 2047)
  let found ← (List.range count).foldlM (regionStep tbl) (none, none)
  let bat ← found.1
  let metadata ← found.2
  some (bat, metadata)

/-- `VhdxMeta`. -/
structure Metadata where
  blockSize : ℕ
  virtualSize : ℕ
  logicalSector : ℕ
  deriving DecidableEq

/-- One item of the metadata. -/
def metadataStep (file hdr : Bytes) (regionOff : ℕ) (m : Metadata) (i : ℕ) : Metadata :=
  let base := 32 + i * 32
  let guid := getRange hdr base 16
  let itemOff := (getLe 4 hdr (base + 16)).getD 0
  let itemLen := (getLe 4 hdr (base + 20)).getD 0
  let item := (readExact file (saturatingAdd regionOff itemOff) (min itemLen 4096)).getD []
  if guid = some guidMetaFileParams then { m with blockSize := (getLe 4 item 0).getD 0 }
  else if guid = some guidMetaVdSize then { m with virtualSize := (getLe 8 item 0).getD 0 }
  else if guid = some guidMetaLogSect then { m with logicalSector := (getLe 4 item 0).getD 512 }
  else m

/-- `read_metadata`: the items, up to the first that does not lie in the table. -/
def readMetadata (file : Bytes) (regionOff : ℕ) : Option Metadata := do
  let hdr ← readExact file regionOff (64 * 1024)
  guard (getRange hdr 0 8 = some metadataSignature)
  let count := (getLe 2 hdr 10).getD 0
  let items := (List.range (min count 2047)).takeWhile fun i =>
    (getRange hdr (32 + i * 32) 16).isSome
  some (items.foldl (metadataStep file hdr regionOff) ⟨0, 0, 512⟩)

/-- What the opener goes by. -/
structure Header where
  batOff : ℕ
  blockSize : ℕ
  virtualSize : ℕ
  logicalSector : ℕ
  deriving DecidableEq

/-- The checks of `open`. -/
def header (file : Bytes) : Option Header := do
  let ident ← readExact file 0 8
  guard (getRange ident 0 8 = some fileIdentifier)
  let regions ← (readRegionTable file 0x30000).or (readRegionTable file 0x40000)
  let m ← readMetadata file regions.2
  guard ¬(m.blockSize = 0 ∨ m.virtualSize = 0)
  guard (divCeil m.virtualSize m.blockSize ≤ maxBlocks)
  some ⟨regions.1, m.blockSize, m.virtualSize, max m.logicalSector 512⟩

namespace Header

variable (h : Header) (file : Bytes)

def totalBlocks : ℕ := divCeil h.virtualSize h.blockSize

/-- How many entries of blocks there are between two of bitmaps. -/
def chunkRatio : ℕ := max (saturatingMul (2 ^ 23) h.logicalSector / max h.blockSize 1) 1

/-- Where the entry of a block is in the file. -/
def entryOff (b : ℕ) : ℕ := saturatingAdd h.batOff (saturatingMul (b + b / h.chunkRatio) 8)

/-- The entry of a block; 0 if it cannot be read. -/
def entry (b : ℕ) : ℕ := ((readExact file (h.entryOff b) 8).bind fun v => getLe 8 v 0).getD 0

/-- How much of the disk is in a block. -/
def thisOut (b : ℕ) : ℕ := min h.blockSize (h.virtualSize - b * h.blockSize)

/-- The piece for a block. -/
def piece (b : ℕ) : Piece :=
  let e := h.entry file b
  let state := e &&& 7
  let fileOffsetMb := e >>> 20
  if state = 6 ∧ fileOffsetMb ≠ 0 then .raw (saturatingMul fileOffsetMb mb) else .zero

/-- The pushes of `open`: the blocks, and a hole up to the end of the disk. -/
def pushes : List (ℕ × Piece) :=
  withTail h.virtualSize (blockWalk h.thisOut (h.piece file) h.totalBlocks 0)

/-- The place of a block's entry in the table, which is in groups of one bitmap behind `ratio`
blocks. -/
def tableIndex (ratio b : ℕ) : ℕ := b / ratio * (ratio + 1) + b % ratio

/-- The byte of the disk at a position, if the file has it: that of a block that is fully present,
and zero of any other. -/
def guestByte (x : ℕ) : Option UInt8 :=
  let ratio := max (2 ^ 23 * h.logicalSector / h.blockSize) 1
  let e := leField 8 file (h.batOff + tableIndex ratio (x / h.blockSize) * 8)
  if e % 8 = 6 ∧ e / 2 ^ 20 ≠ 0 then file[e / 2 ^ 20 * 2 ^ 20 + x % h.blockSize]? else some 0

end Header

/-- A disk that the opener accepts. -/
structure Disk where
  path : String
  file : Bytes
  file_le : file.length ≤ u64Max
  header : Header
  accepted : Vhdx.header file = some header

/-! ## What is checked -/

/-- The items of the metadata have the widths of their fields. -/
def Metadata.Fits (m : Metadata) : Prop :=
  m.blockSize < 2 ^ 32 ∧ m.virtualSize ≤ u64Max ∧ m.logicalSector < 2 ^ 32

lemma Metadata.Fits.step {file hdr : Bytes} {regionOff : ℕ} {m : Metadata} (h : m.Fits) (i : ℕ) :
    (metadataStep file hdr regionOff m i).Fits := by
  have hfield : ∀ n (b : Bytes) k, k < 256 ^ n → (getLe n b 0).getD k < 256 ^ n := by
    intro n b k hk
    cases hg : getLe n b 0 with
    | none => exact hk
    | some v => exact getLe_lt hg
  obtain ⟨hblock, hsize, hsector⟩ := h
  unfold metadataStep
  dsimp only
  split_ifs
  · exact ⟨hfield 4 _ 0 (by omega), hsize, hsector⟩
  · have hlt := hfield 8 ((readExact file (saturatingAdd regionOff
      ((getLe 4 hdr (32 + i * 32 + 16)).getD 0))
      (min ((getLe 4 hdr (32 + i * 32 + 20)).getD 0) 4096)).getD []) 0 (by omega)
    exact ⟨hblock, Nat.le_pred_of_lt hlt, hsector⟩
  · exact ⟨hblock, hsize, hfield 4 _ 512 (by omega)⟩
  · exact ⟨hblock, hsize, hsector⟩

lemma Metadata.Fits.foldl {file hdr : Bytes} {regionOff : ℕ} {m : Metadata} (h : m.Fits)
    (items : List ℕ) : (items.foldl (metadataStep file hdr regionOff) m).Fits := by
  induction items generalizing m with
  | nil => exact h
  | cons i items ih => exact ih (h.step i)

namespace Disk

variable (d : Disk)

/-- What the opener has checked. -/
lemma checks (d : Disk) : 0 < d.header.blockSize ∧ d.header.totalBlocks ≤ maxBlocks ∧
    d.header.virtualSize ≤ u64Max ∧ d.header.logicalSector < 2 ^ 32 := by
  have h := d.accepted
  unfold Vhdx.header at h
  simp only [Option.bind_eq_bind, Option.bind_eq_some_iff, Option.guard_eq_some'] at h
  obtain ⟨ident, -, -, -, regions, -, m, hm, -, hnz, -, hblocks, h⟩ := h
  unfold readMetadata at hm
  simp only [Option.bind_eq_bind, Option.bind_eq_some_iff, Option.guard_eq_some'] at hm
  obtain ⟨hdr, -, -, -, hm⟩ := hm
  have hinit : (⟨0, 0, 512⟩ : Metadata).Fits := ⟨by decide, by decide, by decide⟩
  have hfits : m.Fits := by
    rw [← Option.some.inj hm]
    exact hinit.foldl _
  rw [← Option.some.inj h]
  exact ⟨by dsimp only; omega, hblocks, hfits.2.1, max_lt hfits.2.2 (by omega)⟩

/-- The image that is opened.  Nothing of it is compressed. -/
def image : FileImage where
  file := d.file
  inflate _ _ _ := none
  pushes := d.header.pushes d.file
  outLen := d.header.virtualSize
  sectorSize := d.header.logicalSector
  id := "vhdx:" ++ d.path ++ ":" ++ toString d.header.virtualSize
  file_le := d.file_le
  outLen_le := d.checks.2.2.1

/-- Bitmaps are skipped as the table is laid out. -/
lemma add_div_eq_tableIndex (ratio b : ℕ) : b + b / ratio = Header.tableIndex ratio b := by
  have hdiv := Nat.div_add_mod' b ratio
  rw [Header.tableIndex, Nat.mul_succ]
  omega

/-- The entry that is read is the block's. -/
lemma entry_eq (d : Disk) {b : ℕ} (hb : b < d.header.totalBlocks) :
    d.header.entry d.file b = leField 8 d.file (d.header.batOff +
      Header.tableIndex (max (2 ^ 23 * d.header.logicalSector / d.header.blockSize) 1) b * 8) := by
  obtain ⟨hpos, hblocks, -, hsector⟩ := d.checks
  have hmax : maxBlocks = 2 ^ 24 := rfl
  have hu : u64Max = 2 ^ 64 - 1 := rfl
  have hfile := d.file_le
  have hratio : d.header.chunkRatio =
      max (2 ^ 23 * d.header.logicalSector / d.header.blockSize) 1 := by
    have hsat : saturatingMul (2 ^ 23) d.header.logicalSector =
      2 ^ 23 * d.header.logicalSector := by
      unfold saturatingMul
      omega
    rw [Header.chunkRatio, hsat, max_eq_left (show 1 ≤ d.header.blockSize from hpos)]
  rw [← hratio, ← add_div_eq_tableIndex]
  have hle : b / d.header.chunkRatio ≤ b := Nat.div_le_self _ _
  have hidx : saturatingMul (b + b / d.header.chunkRatio) 8 =
    (b + b / d.header.chunkRatio) * 8 := by
    unfold saturatingMul
    omega
  have hoff : d.header.entryOff b =
      min (d.header.batOff + (b + b / d.header.chunkRatio) * 8) u64Max := by
    rw [Header.entryOff, hidx]
    rfl
  generalize d.header.batOff + (b + b / d.header.chunkRatio) * 8 = place at *
  rw [Header.entry, hoff]
  by_cases hin : place + 8 ≤ d.file.length
  · have hread : readExact d.file (min place u64Max) 8 = getRange d.file place 8 := by
      rw [readExact, if_neg (by omega), min_eq_left (by omega)]
    have hself : ∀ v : Bytes, v.length = 8 → getRange v 0 8 = some v := by
      intro v hv
      rw [getRange, if_pos (by omega), List.drop_zero, List.take_of_length_le hv.le]
    rw [hread, getRange, if_pos hin, Option.bind_some, getLe, hself _ (by
      rw [List.length_take, List.length_drop]; omega), leField, if_pos hin]
    rfl
  · rw [readExact, if_neg (by omega), getRange, if_neg (by omega), leField, if_neg hin]
    rfl

/-- **A VHDX disk reads as its table says.** -/
lemma serves_guest (d : Disk) : d.image.Serves (d.header.guestByte d.file) := by
  obtain ⟨hpos, -, hsize, -⟩ := d.checks
  apply d.image.serves.congr
  intro x hx
  have hbyte := pushed_withTail (D := fileBlock (fun _ _ _ => none) d.file) d.file_le hsize hpos
    (d.header.piece d.file) (n := d.header.totalBlocks) (fun j _ => rfl) hx
  have hin : x / d.header.blockSize < d.header.totalBlocks := div_lt_divCeil hpos hx
  rw [FileImage.byte]
  apply hbyte.trans
  rw [if_pos hin]
  unfold Header.guestByte Header.piece
  dsimp only
  rw [d.entry_eq hin, show (7 : ℕ) = 2 ^ 3 - 1 from rfl, Nat.and_two_pow_sub_one_eq_mod,
    Nat.shiftRight_eq_div_pow]
  split_ifs
  · exact getElem?_saturating d.file_le _ _
  · rfl

end Disk

end Vhdx

end Reclaim
