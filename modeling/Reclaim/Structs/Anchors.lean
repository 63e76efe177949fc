import Reclaim.Carve.Text
import Reclaim.Fs.Walk

/-!
# Anchors of lost filesystems

An anchor is a magic number at a fixed offset in a volume.  Where the sweep finds it, the anchor's
validator reads the superblock around it and proposes a volume, or two where it cannot tell which of
two copies of the superblock this is.  All validators but that of F2FS propose lengths that are
plausible for the source (`validate_bounded`).
-/

namespace Reclaim
namespace Structs

open FileBytes
open PlainText (ascii)

/-! ## Proposals -/

/-- A source, with the size of its sectors. -/
structure Source extends Volume where
  sectorSize : ℕ

/-- `ProposedVolume`. -/
structure ProposedVolume where
  start : ℕ
  len : ℕ
  fs : String
  confidence : ℚ
  evidence : String
  deriving DecidableEq

variable (src : Source)

/-- `read`. -/
def Source.read (offset len : ℕ) : Bytes := src.toVolume.read offset len

/-- `plausible_len`. -/
def plausibleLen (start len : ℕ) : Bool :=
  0 < len ∧ saturatingAdd start len ≤ max (saturatingMul src.len 2) len

/-- `pow2`. -/
def pow2 (v : ℕ) : Bool := 512 ≤ v ∧ v ≤ 2 ^ 26 ∧ 2 ^ v.log2 = v

/-! ## Validators -/

/-- `apfs_nxsb`. -/
def apfsNxsb (start : ℕ) : List ProposedVolume :=
  let b := src.read start 4096
  if getRange b 32 4 ≠ some (ascii "NXSB") then []
  else
    let blockSize := leU32 b 36
    let blockCount := leU64 b 40
    let len := saturatingMul blockCount blockSize
    if !pow2 blockSize then []
    else if !plausibleLen src start len then []
    else [⟨start, len, "apfs", 9 / 10,
      s!"APFS NXSB container: block_size={blockSize}, blocks={blockCount}"⟩]

/-- `apfs_apsb`: not a volume of its own, so of length 0. -/
def apfsApsb (start : ℕ) : List ProposedVolume :=
  let b := src.read start 512
  if getRange b 32 4 ≠ some (ascii "APSB") then []
  else [⟨start, 0, "apfs-volume", 1 / 2,
    "APFS APSB volume superblock (adopt the enclosing NXSB container)"⟩]

/-- `hfsplus`: the header is the main one, or the alternate one at the end of the volume. -/
def hfsplus (start : ℕ) : List ProposedVolume :=
  let vhOff := start + 1024
  let vh := src.read vhOff 512
  let sig := vh.take 2
  if sig ≠ ascii "H+" ∧ sig ≠ ascii "HX" then []
  else
    let version := beU16 vh 2
    if version ≠ 4 ∧ version ≠ 5 then []
    else
      let blockSize := beU32 vh 40
      let totalBlocks := beU32 vh 44
      if !pow2 blockSize || totalBlocks = 0 then []
      else
        let len := saturatingMul totalBlocks blockSize
        let kind := if sig = ascii "HX" then "hfsx" else "hfsplus"
        let matchesVh (off : ℕ) : Bool :=
          let o := src.read off 512
          o.take 2 = sig ∧ beU32 o 44 = totalBlocks
        let mainStart := vhOff - 1024
        let mainConfirmed := plausibleLen src mainStart len &&
          matchesVh (saturatingAdd mainStart len - 1024)
        let altStart := if len ≤ vhOff + 1024 then some (vhOff + 1024 - len) else none
        let altConfirmed := altStart.any fun s => plausibleLen src s len && matchesVh (s + 1024)
        if mainConfirmed && !altConfirmed then
          [⟨mainStart, len, kind, 19 / 20,
            s!"HFS+ volume header: block_size={blockSize}, blocks={totalBlocks}, alt VH confirms"⟩]
        else if altConfirmed && !mainConfirmed then
          altStart.toList.map fun s => ⟨s, len, kind, 19 / 20,
            s!"HFS+ via alternate volume header: block_size={blockSize}, blocks={totalBlocks}"⟩
        else
          (if plausibleLen src mainStart len then
            [⟨mainStart, len, kind, 7 / 10, s!"HFS+ volume header (unconfirmed as main): " ++
              s!"block_size={blockSize}, blocks={totalBlocks}"⟩]
          else []) ++
          (altStart.filter fun s => s ≠ mainStart && plausibleLen src s len).toList.map fun s =>
            ⟨s, len, kind, 18 / 25, s!"HFS+ alternate volume header (main VH zeroed): " ++
              s!"block_size={blockSize}, blocks={totalBlocks}"⟩

/-- `ntfs`. -/
def ntfs (start : ℕ) : List ProposedVolume :=
  let b := src.read start 512
  if getRange b 3 8 ≠ some (ascii "NTFS    ") then []
  else if leU16 b 510 ≠ 0xAA55 then []
  else
    let bps := leU16 b 11
    let totalSectors := leU64 b 40
    let len := saturatingMul (saturatingAdd totalSectors 1) bps
    if !pow2 bps then []
    else if !plausibleLen src start len then []
    else [⟨start, len, "ntfs", 23 / 25,
      s!"NTFS boot sector: bytes/sector={bps}, sectors={totalSectors}"⟩]

/-- `exfat`: the boot sector is the main one, or the backup 12 sectors behind it. -/
def exfat (start : ℕ) : List ProposedVolume :=
  let b := src.read start 512
  if getRange b 3 8 ≠ some (ascii "EXFAT   ") then []
  else
    let bpsShift := (byteAt b 108).toNat
    let volumeLength := leU64 b 72
    let len := volumeLength * 2 ^ bpsShift
    if bpsShift < 9 ∨ 12 < bpsShift then []
    else if u64Max / 2 ^ bpsShift < volumeLength then []
    else if !plausibleLen src start len then []
    else
      let bps := 2 ^ bpsShift
      let isExfatAt (off : ℕ) : Bool :=
        off < src.len ∧ getRange (src.read off 512) 3 8 = some (ascii "EXFAT   ")
      if isExfatAt (start + 12 * bps) then
        [⟨start, len, "exfat", 19 / 20,
          s!"exFAT main boot sector: volume_length={volumeLength} sectors"⟩]
      else if 12 * bps ≤ start ∧ isExfatAt (start - 12 * bps) = true then
        [⟨start - 12 * bps, len, "exfat", 9 / 10,
          s!"exFAT (via backup boot): volume_length={volumeLength} sectors"⟩]
      else
        ⟨start, len, "exfat", 13 / 20,
          s!"exFAT boot sector (unconfirmed): volume_length={volumeLength} sectors"⟩ ::
        if 12 * bps ≤ start then
          [⟨start - 12 * bps, len, "exfat", 7 / 10,
            s!"exFAT (backup boot survived, main zeroed): volume_length={volumeLength}"⟩]
        else []

/-- `fat`. -/
def fat (start : ℕ) : List ProposedVolume :=
  let b := src.read start 512
  if leU16 b 510 ≠ 0xAA55 then []
  else
    let isFat32 := getRange b 82 8 = some (ascii "FAT32   ")
    let isFat16 := getRange b 54 8 = some (ascii "FAT16   ")
    let isFat12 := getRange b 54 8 = some (ascii "FAT12   ")
    if ¬(isFat32 ∨ isFat16 ∨ isFat12) then []
    else
      let bps := leU16 b 11
      let ts16 := leU16 b 19
      let ts32 := leU32 b 32
      let sectors := if ts16 ≠ 0 then ts16 else ts32
      let len := saturatingMul sectors bps
      if !pow2 bps then []
      else if !plausibleLen src start len then []
      else
        let kind := if isFat32 then "fat32" else "fat"
        [⟨start, len, kind, 17 / 20,
          s!"FAT BPB ({kind}): bytes/sector={bps}, sectors={sectors}"⟩]

/-- `ext`. -/
def ext (start : ℕ) : List ProposedVolume :=
  let sb := src.read (start + 1024) 1024
  if leU16 sb 0x38 ≠ 0xEF53 then []
  else
    let logBs := leU32 sb 0x18
    if 6 < logBs then []
    else
      let blockSize := 1024 * 2 ^ logBs
      let blocksLo := leU32 sb 0x04
      let incompat := leU32 sb 0x60
      let blocks := if incompat / 0x80 % 2 ≠ 0 then leU32 sb 0x150 * 2 ^ 32 + blocksLo else blocksLo
      let len := saturatingMul blocks blockSize
      if blocks = 0 ∨ leU32 sb 0x20 = 0 then []
      else if !plausibleLen src start len then []
      else [⟨start, len, "ext", 9 / 10,
        s!"ext superblock: block_size={blockSize}, blocks={blocks}"⟩]

/-- `iso9660`. -/
def iso9660 (start : ℕ) : List ProposedVolume :=
  let pvd := src.read (start + 32768) 2048
  if byteAt pvd 0 ≠ 1 ∨ getRange pvd 1 5 ≠ some (ascii "CD001") then []
  else
    let blockSize := max (leU16 pvd 128) 2048
    let space := leU32 pvd 80
    let len := saturatingMul space blockSize
    if !plausibleLen src start len then []
    else [⟨start, len, "iso9660", 9 / 10,
      s!"ISO 9660 PVD: block_size={blockSize}, blocks={space}"⟩]

/-- `xfs`. -/
def xfs (start : ℕ) : List ProposedVolume :=
  let b := src.read start 512
  if getRange b 0 4 ≠ some (ascii "XFSB") then []
  else
    let blockSize := beU32 b 4
    let dblocks := beU64 b 8
    let len := saturatingMul dblocks blockSize
    if !pow2 blockSize then []
    else if !plausibleLen src start len then []
    else [⟨start, len, "xfs", 17 / 20,
      s!"XFS superblock (detect+carve): block_size={blockSize}, blocks={dblocks}"⟩]

/-- `btrfs`. -/
def btrfs (start : ℕ) : List ProposedVolume :=
  let sb := src.read (start + 65536) 4096
  if getRange sb 64 8 ≠ some (ascii "_BHRfS_M") then []
  else
    let totalBytes := leU64 sb 0x70
    let sectorsize := leU32 sb 0x90
    if !pow2 sectorsize then []
    else if !plausibleLen src start totalBytes then []
    else [⟨start, totalBytes, "btrfs", 17 / 20,
      s!"Btrfs superblock (detect+carve): sectorsize={sectorsize}, total={totalBytes}"⟩]

/-- `f2fs`: the only one that proposes a length without a look at the source. -/
def f2fs (start : ℕ) : List ProposedVolume :=
  let sb := src.read (start + 1024) 1024
  if leU32 sb 0 ≠ 0xF2F52010 then []
  else
    let logBlocksize := leU32 sb 16
    if 16 < logBlocksize then []
    else
      let blockSize := 2 ^ logBlocksize
      let blockCount := leU64 sb 36
      let len := saturatingMul blockCount (max blockSize 1)
      let len := if len = 0 then saturatingMul blockCount 4096 else len
      [⟨start, len, "f2fs", 4 / 5,
        s!"F2FS superblock (detect+carve): block_count={blockCount}"⟩]

/-- `ufs`: of length 0, as the two that follow. -/
def ufs (start : ℕ) : List ProposedVolume :=
  let sb1 := src.read (start + 8192) 2048
  let sb2 := src.read (start + 65536) 2048
  let bs :=
    if leU32 sb1 1372 = 0x00011954 then leU32 sb1 48
    else if leU32 sb2 1372 = 0x19540119 then leU32 sb2 48
    else 0
  [⟨start, 0, "ufs", 7 / 10, s!"UFS superblock (detect+carve): block_size={bs}"⟩]

/-- `zfs`. -/
def zfs (start : ℕ) : List ProposedVolume :=
  let b := src.read start 4096
  let magic := leU64 b 0
  if magic ≠ 0x0000000000bab10c ∧ magic ≠ 0x0cb1ba0000000000 then []
  else [⟨start, 0, "zfs", 3 / 5, "ZFS uberblock (detect+carve)"⟩]

/-- `vmfs`. -/
def vmfs (start : ℕ) : List ProposedVolume :=
  let b := src.read start 16
  if leU32 b 0 ≠ 0xC001D00D then []
  else [⟨start, 0, "vmfs", 3 / 5, "VMFS magic (detect+carve)"⟩]

/-! ## The anchors -/

/-- `FsAnchor`. -/
structure FsAnchor where
  needle : Bytes
  internalOffset : ℕ
  validate : Source → ℕ → List ProposedVolume

/-- `ANCHORS`. -/
def anchors : List FsAnchor :=
  [⟨ascii "NXSB", 32, apfsNxsb⟩,
    ⟨ascii "APSB", 32, apfsApsb⟩,
    ⟨ascii "H+", 1024, hfsplus⟩,
    ⟨ascii "HX", 1024, hfsplus⟩,
    ⟨ascii "NTFS    ", 3, ntfs⟩,
    ⟨ascii "EXFAT   ", 3, exfat⟩,
    ⟨ascii "FAT32   ", 82, fat⟩,
    ⟨ascii "FAT1", 54, fat⟩,
    ⟨[0x53, 0xEF], 1080, ext⟩,
    ⟨ascii "XFSB", 0, xfs⟩,
    ⟨ascii "_BHRfS_M", 65600, btrfs⟩,
    ⟨[0x10, 0x20, 0xF5, 0xF2], 1024, f2fs⟩,
    ⟨ascii "CD001", 32769, iso9660⟩,
    ⟨[0x54, 0x19, 0x01, 0x00], 9564, ufs⟩,
    ⟨[0x19, 0x01, 0x54, 0x19], 66908, ufs⟩,
    ⟨[0x0c, 0xb1, 0xba, 0x00], 0, zfs⟩,
    ⟨[0x0d, 0xd0, 0x01, 0xc0], 0, vmfs⟩]

/-- The needles are different. -/
lemma nodup_needles : (anchors.map FsAnchor.needle).Nodup := by decide +kernel

lemma needle_ne_nil {a : FsAnchor} (ha : a ∈ anchors) : a.needle ≠ [] := by
  have hall : ∀ n ∈ anchors.map FsAnchor.needle, n ≠ [] := by decide +kernel
  exact hall _ (List.mem_map_of_mem ha)

lemma length_needle_le {a : FsAnchor} (ha : a ∈ anchors) : a.needle.length ≤ 8 := by
  have hall : ∀ n ∈ anchors.map FsAnchor.needle, n.length ≤ 8 := by decide +kernel
  exact hall _ (List.mem_map_of_mem ha)

/-! ## Plausible lengths -/

section Bounded

variable {src} {p : ProposedVolume} {l l' : List ProposedVolume} {c : Prop} [Decidable c]

/-- The length of a proposal is plausible, if it has one and is not that of F2FS. -/
def Bounded (src : Source) (p : ProposedVolume) : Prop :=
  p.fs = "f2fs" ∨ p.len = 0 ∨ plausibleLen src p.start p.len = true

lemma bounded_nil : ∀ p ∈ ([] : List ProposedVolume), Bounded src p := by
  intro p hp
  cases hp

lemma bounded_singleton (h : Bounded src p) : ∀ q ∈ [p], Bounded src q := by
  intro q hq
  rwa [List.mem_singleton.1 hq]

/-- Behind a check that refuses. -/
lemma bounded_unless (h : ¬c → ∀ p ∈ l, Bounded src p) :
    ∀ p ∈ if c then [] else l, Bounded src p := by
  split
  · exact bounded_nil
  · exact h ‹_›

/-- Behind the check for a plausible length. -/
lemma bounded_of_plausibleLen {start len : ℕ} {fs evidence : String} {confidence : ℚ} :
    ∀ p ∈ if (!plausibleLen src start len) = true then [] else
      [(⟨start, len, fs, confidence, evidence⟩ : ProposedVolume)], Bounded src p :=
  bounded_unless fun h => bounded_singleton (.inr (.inr (by simpa using h)))

lemma plausibleLen_iff {start len : ℕ} : plausibleLen src start len = true ↔
    0 < len ∧ saturatingAdd start len ≤ max (saturatingMul src.len 2) len := decide_eq_true_iff

/-- A length that is plausible is so for an earlier start. -/
lemma plausibleLen_mono {start start' len : ℕ} (h : plausibleLen src start len = true)
    (hle : start' ≤ start) : plausibleLen src start' len = true := by
  rw [plausibleLen_iff] at h ⊢
  have hstart : saturatingAdd start' len ≤ saturatingAdd start len :=
    min_le_min_right _ (Nat.add_le_add_right hle len)
  exact ⟨h.1, hstart.trans h.2⟩

lemma apfsNxsb_bounded (start : ℕ) : ∀ p ∈ apfsNxsb src start, Bounded src p := by
  unfold apfsNxsb
  exact bounded_unless fun _ => bounded_unless fun _ => bounded_of_plausibleLen

lemma ntfs_bounded (start : ℕ) : ∀ p ∈ ntfs src start, Bounded src p := by
  unfold ntfs
  exact bounded_unless fun _ => bounded_unless fun _ => bounded_unless fun _ => bounded_of_plausibleLen

lemma fat_bounded (start : ℕ) : ∀ p ∈ fat src start, Bounded src p := by
  unfold fat
  exact bounded_unless fun _ => bounded_unless fun _ => bounded_unless fun _ => bounded_of_plausibleLen

lemma ext_bounded (start : ℕ) : ∀ p ∈ ext src start, Bounded src p := by
  unfold ext
  exact bounded_unless fun _ => bounded_unless fun _ => bounded_unless fun _ => bounded_of_plausibleLen

lemma iso9660_bounded (start : ℕ) : ∀ p ∈ iso9660 src start, Bounded src p := by
  unfold iso9660
  exact bounded_unless fun _ => bounded_of_plausibleLen

lemma xfs_bounded (start : ℕ) : ∀ p ∈ xfs src start, Bounded src p := by
  unfold xfs
  exact bounded_unless fun _ => bounded_unless fun _ => bounded_of_plausibleLen

lemma btrfs_bounded (start : ℕ) : ∀ p ∈ btrfs src start, Bounded src p := by
  unfold btrfs
  exact bounded_unless fun _ => bounded_unless fun _ => bounded_of_plausibleLen

lemma f2fs_bounded (start : ℕ) : ∀ p ∈ f2fs src start, Bounded src p := by
  unfold f2fs
  exact bounded_unless fun _ => bounded_unless fun _ => bounded_singleton (.inl rfl)

lemma apfsApsb_bounded (start : ℕ) : ∀ p ∈ apfsApsb src start, Bounded src p := by
  unfold apfsApsb
  exact bounded_unless fun _ => bounded_singleton (.inr (.inl rfl))

lemma ufs_bounded (start : ℕ) : ∀ p ∈ ufs src start, Bounded src p := by
  unfold ufs
  exact bounded_singleton (.inr (.inl rfl))

lemma zfs_bounded (start : ℕ) : ∀ p ∈ zfs src start, Bounded src p := by
  unfold zfs
  exact bounded_unless fun _ => bounded_singleton (.inr (.inl rfl))

lemma vmfs_bounded (start : ℕ) : ∀ p ∈ vmfs src start, Bounded src p := by
  unfold vmfs
  exact bounded_unless fun _ => bounded_singleton (.inr (.inl rfl))

/-- The backup's volume begins before it. -/
lemma exfat_bounded (start : ℕ) : ∀ p ∈ exfat src start, Bounded src p := by
  unfold exfat
  refine bounded_unless fun _ => bounded_unless fun _ => bounded_unless fun _ =>
    bounded_unless fun h => ?_
  have hlen : plausibleLen src start
      (leU64 (src.read start 512) 72 * 2 ^ (byteAt (src.read start 512) 108).toNat) = true := by
    simpa using h
  have hearlier := fun k : ℕ => plausibleLen_mono hlen (Nat.sub_le start k)
  dsimp only
  split
  · exact bounded_singleton (.inr (.inr hlen))
  split
  · exact bounded_singleton (.inr (.inr (hearlier _)))
  · refine List.forall_mem_cons.2 ⟨.inr (.inr hlen), ?_⟩
    split
    · exact bounded_singleton (.inr (.inr (hearlier _)))
    · exact bounded_nil

lemma hfsplus_bounded (start : ℕ) : ∀ p ∈ hfsplus src start, Bounded src p := by
  unfold hfsplus
  refine bounded_unless fun _ => bounded_unless fun _ => bounded_unless fun _ => ?_
  intro p hp
  extract_lets len kind matchesVh mainStart mainConfirmed altStart altConfirmed at hp
  split at hp
  · rename_i h
    have hlen : plausibleLen src mainStart len = true := by
      simp only [mainConfirmed, Bool.and_eq_true] at h
      exact h.1.1
    obtain rfl := List.mem_singleton.1 hp
    exact .inr (.inr hlen)
  split at hp
  · rename_i h
    obtain ⟨s, hs, rfl⟩ := List.mem_map.1 hp
    simp only [altConfirmed, Option.mem_toList.1 hs, Option.any_some, Bool.and_eq_true] at h
    exact .inr (.inr h.1.1)
  · rcases List.mem_append.1 hp with hp | hp
    · split at hp
      · rename_i h
        obtain rfl := List.mem_singleton.1 hp
        exact .inr (.inr h)
      · cases hp
    · obtain ⟨s, hs, rfl⟩ := List.mem_map.1 hp
      have hlen := (Option.mem_filter_iff.1 (Option.mem_toList.1 hs)).2
      rw [Bool.and_eq_true] at hlen
      exact .inr (.inr hlen.2)

/-- **What the validators propose** is plausible, if it has a length and is not of F2FS. -/
lemma validate_bounded {a : FsAnchor} (ha : a ∈ anchors) (start : ℕ) :
    ∀ p ∈ a.validate src start, Bounded src p := by
  simp only [anchors, List.mem_cons, List.not_mem_nil, or_false] at ha
  rcases ha with rfl | rfl | rfl | rfl | rfl | rfl | rfl | rfl | rfl | rfl | rfl | rfl | rfl |
    rfl | rfl | rfl | rfl
  all_goals dsimp only
  · exact apfsNxsb_bounded start
  · exact apfsApsb_bounded start
  · exact hfsplus_bounded start
  · exact hfsplus_bounded start
  · exact ntfs_bounded start
  · exact exfat_bounded start
  · exact fat_bounded start
  · exact fat_bounded start
  · exact ext_bounded start
  · exact xfs_bounded start
  · exact btrfs_bounded start
  · exact f2fs_bounded start
  · exact iso9660_bounded start
  · exact ufs_bounded start
  · exact ufs_bounded start
  · exact zfs_bounded start
  · exact vmfs_bounded start

end Bounded

end Structs
end Reclaim
