import Reclaim.Block.BlockTable

/-!
# VDI images

The disk is in blocks, and a table has for each the place of its data among the data blocks.  Two
entries are reserved: for a block that was never allocated, and for one that was zeroed.
-/

namespace Reclaim

open FileBytes

namespace Vdi

/-- `SIG`. -/
def sig : ℕ := 0xBEDA107F

/-- `VDI_UNALLOCATED`. -/
def unallocated : ℕ := 0xFFFFFFFF

/-- `VDI_ZERO`. -/
def zeroBlock : ℕ := 0xFFFFFFFE

/-- `MAX_BLOCKS`. -/
def maxBlocks : ℕ := 64 * 1024 * 1024

/-- What the header says, and the table. -/
structure Header where
  offsetBlocks : ℕ
  offsetData : ℕ
  diskSize : ℕ
  blockSize : ℕ
  blocks : ℕ
  bat : Bytes
  deriving DecidableEq

/-- The checks of `open`. -/
def header (file : Bytes) : Option Header := do
  let hdr ← readExact file 0 0x200
  guard (getLe 4 hdr 0x40 = some sig)
  let offsetBlocks ← getLe 4 hdr 0x154
  let offsetData ← getLe 4 hdr 0x158
  let diskSize ← getLe 8 hdr 0x170
  let blockSize ← getLe 4 hdr 0x178
  let blocks ← getLe 4 hdr 0x180
  guard ¬(blockSize = 0 ∨ blocks = 0 ∨ maxBlocks < blocks)
  let bat ← readExact file offsetBlocks (saturatingMul blocks 4)
  some ⟨offsetBlocks, offsetData, diskSize, blockSize, blocks, bat⟩

namespace Header

variable (h : Header) (file : Bytes)

/-- The entry of a block in the table. -/
def entry (i : ℕ) : ℕ := (getLe 4 h.bat (saturatingMul i 4)).getD unallocated

/-- How much of the disk is in a block. -/
def thisOut (i : ℕ) : ℕ :=
  if h.diskSize < saturatingMul (i + 1) h.blockSize then
    h.diskSize - saturatingMul i h.blockSize
  else h.blockSize

/-- The piece for a block. -/
def piece (i : ℕ) : Piece :=
  if h.entry i = unallocated ∨ h.entry i = zeroBlock then .zero
  else .raw (saturatingAdd h.offsetData (saturatingMul (h.entry i) h.blockSize))

/-- The pushes of `open`: the blocks, and a hole up to the end of the disk. -/
def pushes : List (ℕ × Piece) := withTail h.diskSize (blockWalk h.thisOut h.piece h.blocks 0)

/-- The byte of the disk at a position, if the file has it: that of the data block that the table
names, and zero for a reserved entry and behind the table. -/
def guestByte (x : ℕ) : Option UInt8 :=
  let e := leField 4 file (h.offsetBlocks + x / h.blockSize * 4)
  if x / h.blockSize < h.blocks ∧ e ≠ unallocated ∧ e ≠ zeroBlock then
    file[h.offsetData + e * h.blockSize + x % h.blockSize]?
  else some 0

end Header

/-- A disk that the opener accepts. -/
structure Disk where
  path : String
  file : Bytes
  file_le : file.length ≤ u64Max
  header : Header
  accepted : Vdi.header file = some header

namespace Disk

variable (d : Disk)

/-- What the opener has checked, and the table that it has read. -/
lemma checks (d : Disk) : 0 < d.header.blockSize ∧ d.header.blockSize < 256 ^ 4 ∧
    d.header.blocks ≤ maxBlocks ∧ d.header.diskSize ≤ u64Max ∧
    readExact d.file d.header.offsetBlocks (saturatingMul d.header.blocks 4) =
      some d.header.bat := by
  have h := d.accepted
  unfold Vdi.header at h
  simp only [Option.bind_eq_bind, Option.bind_eq_some_iff, Option.guard_eq_some'] at h
  obtain ⟨hdr, -, -, -, offB, -, offD, -, size, hsize, block, hblock, blocks, -, -, hcheck,
    bat, hbat,
    h⟩ := h
  rw [← Option.some.inj h]
  have hsize' := getLe_lt hsize
  have hu : u64Max = 256 ^ 8 - 1 := by decide
  exact ⟨by dsimp only; omega, getLe_lt hblock, by dsimp only; omega, by dsimp only; omega, hbat⟩

/-- The image that is opened.  Nothing of it is compressed. -/
def image : FileImage where
  file := d.file
  inflate _ _ _ := none
  pushes := d.header.pushes
  outLen := d.header.diskSize
  sectorSize := 512
  id := "vdi:" ++ d.path ++ ":" ++ toString d.header.diskSize
  file_le := d.file_le
  outLen_le := d.checks.2.2.2.1

/-- Nothing saturates: there are at most `2 ^ 26` blocks of less than `2 ^ 32` bytes. -/
lemma thisOut_eq (d : Disk) {i : ℕ} (hi : i < d.header.blocks) :
    d.header.thisOut i = blockLen d.header.diskSize d.header.blockSize i := by
  obtain ⟨-, hblock, hblocks, -, -⟩ := d.checks
  have hmax : maxBlocks = 2 ^ 26 := rfl
  have hu : u64Max = 2 ^ 64 - 1 := rfl
  have hsat : ∀ j ≤ i + 1, saturatingMul j d.header.blockSize = j * d.header.blockSize := by
    intro j hj
    have hmul : j * d.header.blockSize ≤ 2 ^ 26 * 256 ^ 4 := Nat.mul_le_mul (by omega) hblock.le
    unfold saturatingMul
    omega
  rw [Header.thisOut, hsat (i + 1) le_rfl, hsat i (by omega), blockLen, Nat.succ_mul]
  split_ifs <;> omega

/-- The table has the entries that the file has. -/
lemma entry_eq (d : Disk) {i : ℕ} (hi : i < d.header.blocks) :
    d.header.entry i = leField 4 d.file (d.header.offsetBlocks + i * 4) := by
  obtain ⟨-, -, hblocks, -, hbat⟩ := d.checks
  have hmax : maxBlocks = 2 ^ 26 := rfl
  have hu : u64Max = 2 ^ 64 - 1 := rfl
  have hlen : saturatingMul i 4 = i * 4 ∧ i * 4 + 4 ≤ saturatingMul d.header.blocks 4 := by
    unfold saturatingMul
    omega
  have hget := getLe_readExact (n := 4) hbat hlen.2 (by omega)
  have hwhole : d.header.offsetBlocks + i * 4 + 4 ≤ d.file.length := by
    unfold readExact getRange at hbat
    rw [if_neg (by omega)] at hbat
    split at hbat
    · omega
    · cases hbat
  rw [Header.entry, hlen.1, hget, ← getLe_getD, getLe, getRange, if_pos hwhole]
  rfl

/-- **A VDI disk reads as its table says.** -/
lemma serves_guest (d : Disk) : d.image.Serves (d.header.guestByte d.file) := by
  obtain ⟨hpos, -, -, hsize, -⟩ := d.checks
  apply d.image.serves.congr
  intro x hx
  have hbyte := pushed_withTail (D := fileBlock (fun _ _ _ => none) d.file) d.file_le hsize hpos
    d.header.piece (fun j hj => d.thisOut_eq hj) hx
  rw [FileImage.byte]
  apply hbyte.trans
  unfold Header.guestByte Header.piece
  dsimp only
  by_cases hin : x / d.header.blockSize < d.header.blocks
  · rw [if_pos hin, d.entry_eq hin]
    by_cases he : leField 4 d.file (d.header.offsetBlocks + x / d.header.blockSize * 4) =
        unallocated ∨ leField 4 d.file (d.header.offsetBlocks + x / d.header.blockSize * 4) =
          zeroBlock
    · rw [if_pos he, if_neg fun h => he.elim h.2.1 h.2.2]
      rfl
    · rw [if_neg he, if_pos ⟨hin, not_or.1 he⟩]
      have hplace : ∀ e b : ℕ, saturatingAdd d.header.offsetData (saturatingMul e b) =
          min (d.header.offsetData + e * b) u64Max := by
        intro e b
        unfold saturatingAdd saturatingMul
        omega
      rw [hplace]
      exact getElem?_saturating d.file_le _ _
  · rw [if_neg hin, if_neg fun h => hin h.1]

end Disk

end Vdi

end Reclaim
