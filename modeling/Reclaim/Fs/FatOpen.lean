import Reclaim.Fs.Fat

/-!
# Opening a FAT volume

The boot sector says where the tables and the clusters are.  A `Bpb` carries what `parse_bpb` checks
of it; everything else of an opened volume is computed from its fields.
-/

namespace Reclaim

open FileBytes

/-- `FsError`. -/
inductive FsError where
  /-- The source did not look like this filesystem. -/
  | notThisFs (text : String)
  /-- A structure was too corrupt to continue. -/
  | corrupt (text : String)
  /-- An explicit budget was exhausted. -/
  | budget (text : String)
  deriving DecidableEq, Repr

/-! ## Fields of what was read -/

namespace Volume

variable (v : Volume) {off m k n : ℕ}

lemma take_drop_read (h : k + n ≤ m) : ((v.read off m).drop k).take n = v.read (off + k) n := by
  apply ext_byteAt (by simp; omega)
  intro j hj
  rw [List.length_take, List.length_drop, length_read] at hj
  rw [byteAt_take, if_pos (by omega), byteAt_drop, byteAt_read _ _ (by omega),
    byteAt_read _ _ (by omega), Nat.add_assoc]

lemma leField_read (h : k + n ≤ m) : leField n (v.read off m) k = leValue (v.read (off + k) n) := by
  rw [leField, if_pos (by rwa [length_read]), v.take_drop_read h]

lemma getRange_read (h : k + n ≤ m) : getRange (v.read off m) k n = some (v.read (off + k) n) := by
  rw [getRange, if_pos (by rwa [length_read]), v.take_drop_read h]

end Volume

/-! ## The boot sector -/

namespace FatFs

/-- What a boot sector says of its volume. -/
structure Bpb where
  bytesPerSector : ℕ
  sectorsPerCluster : ℕ
  reservedSectors : ℕ
  numFats : ℕ
  rootEntries : ℕ
  totalSectors : ℕ
  fatSize : ℕ
  rootCluster : ℕ
  bytesPerSector_mem : bytesPerSector ∈ [512, 1024, 2048, 4096]
  /-- A power of two. -/
  sectorsPerCluster_mem : sectorsPerCluster ∈ [1, 2, 4, 8, 16, 32, 64, 128]
  reservedSectors_pos : 0 < reservedSectors
  numFats_mem : numFats ∈ [1, 2]
  totalSectors_pos : 0 < totalSectors
  fatSize_pos : 0 < fatSize

/-- A field that is used if it is not zero, and another else. -/
def orElse (x y : ℕ) : ℕ := if x ≠ 0 then x else y

/-- `parse_bpb`. -/
def parseBpb (boot : Bytes) : Option Bpb :=
  if h : leU16 boot 11 ∈ [512, 1024, 2048, 4096] ∧
      (byteAt boot 13).toNat ∈ [1, 2, 4, 8, 16, 32, 64, 128] ∧ 0 < leU16 boot 14 ∧
      (byteAt boot 16).toNat ∈ [1, 2] ∧ 0 < orElse (leU16 boot 19) (leU32 boot 32) ∧
      0 < orElse (leU16 boot 22) (leU32 boot 36) then
    some
      { bytesPerSector := leU16 boot 11
        sectorsPerCluster := (byteAt boot 13).toNat
        reservedSectors := leU16 boot 14
        numFats := (byteAt boot 16).toNat
        rootEntries := leU16 boot 17
        totalSectors := orElse (leU16 boot 19) (leU32 boot 32)
        fatSize := orElse (leU16 boot 22) (leU32 boot 36)
        rootCluster := leU32 boot 44
        bytesPerSector_mem := h.1
        sectorsPerCluster_mem := h.2.1
        reservedSectors_pos := h.2.2.1
        numFats_mem := h.2.2.2.1
        totalSectors_pos := h.2.2.2.2.1
        fatSize_pos := h.2.2.2.2.2 }
  else none

namespace Bpb

variable (bpb : Bpb)

def rootDirSectors : ℕ := divCeil (bpb.rootEntries * 32) bpb.bytesPerSector

def firstDataSector : ℕ := bpb.reservedSectors + bpb.numFats * bpb.fatSize + bpb.rootDirSectors

/-- The number of clusters, in 32 bits. -/
def clusterCount : ℕ :=
  (bpb.totalSectors - bpb.firstDataSector) / bpb.sectorsPerCluster % 2 ^ 32

/-- `classify`: the width of the table goes by the number of clusters. -/
def classify : FatKind :=
  if bpb.clusterCount < 4085 then .fat12
  else if bpb.clusterCount < 65525 then .fat16
  else .fat32

/-- The volume that a boot sector describes. -/
def mount (vol : Volume) : FatFs where
  vol := vol
  kind := bpb.classify
  bytesPerSector := bpb.bytesPerSector
  clusterSize := bpb.bytesPerSector * bpb.sectorsPerCluster
  fatOffset := bpb.reservedSectors * bpb.bytesPerSector
  fatSizeBytes := bpb.fatSize * bpb.bytesPerSector
  firstDataSector := bpb.firstDataSector
  countOfClusters := bpb.clusterCount
  rootRegionOff := (bpb.reservedSectors + bpb.numFats * bpb.fatSize) * bpb.bytesPerSector
  rootRegionLen := bpb.rootDirSectors * bpb.bytesPerSector
  rootCluster := bpb.rootCluster
  totalBytes := bpb.totalSectors * bpb.bytesPerSector

end Bpb

/-- The copy of the boot sector that FAT32 keeps, for a volume whose own is bad. -/
def backupBpb (vol : Volume) (boot : Bytes) : Except FsError Bpb :=
  let bk := leU16 boot 50
  if bk = 0 then .error (.notThisFs "no valid FAT BPB")
  else
    match parseBpb (vol.read (bk * max (leU16 boot 11) 512) 512) with
    | some bpb => .ok bpb
    | none => .error (.corrupt "FAT BPB + backup both bad")

/-- The boot sector that a volume is opened by. -/
def findBpb (vol : Volume) : Except FsError Bpb :=
  let boot := vol.read 0 512
  match parseBpb boot with
  | some bpb => if getRange boot 510 2 = some [0x55, 0xAA] then .ok bpb else backupBpb vol boot
  | none => backupBpb vol boot

/-- `open`. -/
def openVolume (vol : Volume) : Except FsError FatFs := (findBpb vol).map (·.mount vol)

/-- `fats_match`: the first megabyte of the two tables is the same. -/
def fatsMatch (bpb : Bpb) (vol : Volume) : Bool :=
  let fs := bpb.mount vol
  if 2 ≤ bpb.numFats then
    let fat1 := vol.read (fs.fatOffset + fs.fatSizeBytes) (min fs.fatSizeBytes (1024 * 1024))
    let n := min fat1.length fs.fat0.length
    fs.fat0.take n == fat1.take n
  else true

/-- What is in the table is read from the volume. -/
lemma fatBytes_eq {fs : FatFs} {idx n : ℕ} (h : idx + n ≤ min fs.fatSizeBytes maxFatCache) :
    fs.fatBytes idx n = fs.vol.read (fs.fatOffset + idx) n := by
  rw [fatBytes, fat0, fs.vol.getRange_read h]

/-- A boot sector is accepted if its fields are those of one. -/
lemma parseBpb_eq {boot : Bytes} {bpb : Bpb} (hbytes : leU16 boot 11 = bpb.bytesPerSector)
    (hsectors : (byteAt boot 13).toNat = bpb.sectorsPerCluster)
    (hreserved : leU16 boot 14 = bpb.reservedSectors) (hfats : (byteAt boot 16).toNat = bpb.numFats)
    (hentries : leU16 boot 17 = bpb.rootEntries)
    (htotal : orElse (leU16 boot 19) (leU32 boot 32) = bpb.totalSectors)
    (hsize : orElse (leU16 boot 22) (leU32 boot 36) = bpb.fatSize)
    (hroot : leU32 boot 44 = bpb.rootCluster) : parseBpb boot = some bpb := by
  obtain ⟨_, _, _, _, _, _, _, _, h1, h2, h3, h4, h5, h6⟩ := bpb
  subst hbytes hsectors hreserved hfats hentries htotal hsize hroot
  exact dif_pos ⟨h1, h2, h3, h4, h5, h6⟩

/-- A volume with a good boot sector is opened by it. -/
lemma openVolume_eq {vol : Volume} {bpb : Bpb} (hparse : parseBpb (vol.read 0 512) = some bpb)
    (hmark : getRange (vol.read 0 512) 510 2 = some [0x55, 0xAA]) :
    openVolume vol = .ok (bpb.mount vol) := by
  have hfind : findBpb vol = .ok bpb := by
    unfold findBpb
    generalize vol.read 0 512 = boot at hparse hmark ⊢
    simp only [hparse, hmark, if_true]
  rw [openVolume, hfind]
  rfl

lemma exists_bpb {vol : Volume} {fs : FatFs} (h : openVolume vol = .ok fs) :
    ∃ bpb : Bpb, fs = bpb.mount vol := by
  unfold openVolume at h
  cases hbpb : findBpb vol with
  | error e =>
    rw [hbpb] at h
    cases h
  | ok bpb =>
    rw [hbpb] at h
    exact ⟨bpb, (Except.ok.inj h).symm⟩

/-! ## Geometry -/

section Geometry

variable (bpb : Bpb) (vol : Volume)

/-- Where the clusters begin. -/
def dataStart (fs : FatFs) : ℕ := fs.firstDataSector * fs.bytesPerSector

namespace Bpb

lemma bytesPerSector_bounds : 512 ≤ bpb.bytesPerSector ∧ bpb.bytesPerSector ≤ 4096 := by
  have h := bpb.bytesPerSector_mem
  simp only [List.mem_cons, List.not_mem_nil, or_false] at h
  omega

lemma sectorsPerCluster_bounds : 1 ≤ bpb.sectorsPerCluster ∧ bpb.sectorsPerCluster ≤ 128 := by
  have h := bpb.sectorsPerCluster_mem
  simp only [List.mem_cons, List.not_mem_nil, or_false] at h
  omega

lemma clusterSize_pos : 0 < (bpb.mount vol).clusterSize :=
  Nat.mul_pos (by have := bpb.bytesPerSector_bounds; omega) bpb.sectorsPerCluster_bounds.1

lemma clusterSize_le : (bpb.mount vol).clusterSize ≤ 4096 * 128 :=
  Nat.mul_le_mul bpb.bytesPerSector_bounds.2 bpb.sectorsPerCluster_bounds.2

/-- The table, and at least a sector before it, come before the clusters. -/
lemma fatSizeBytes_lt : (bpb.mount vol).fatSizeBytes + 512 ≤ (bpb.mount vol).dataStart := by
  have hfats : bpb.fatSize ≤ bpb.numFats * bpb.fatSize :=
    Nat.le_mul_of_pos_left _ (by
      have h := bpb.numFats_mem
      simp only [List.mem_cons, List.not_mem_nil, or_false] at h
      omega)
  have hsectors : bpb.fatSize + 1 ≤ bpb.firstDataSector := by
    have := bpb.reservedSectors_pos
    rw [firstDataSector]
    omega
  calc bpb.fatSize * bpb.bytesPerSector + 512
      ≤ (bpb.fatSize + 1) * bpb.bytesPerSector := by
        have := bpb.bytesPerSector_bounds
        rw [Nat.add_mul, Nat.one_mul]
        omega
    _ ≤ bpb.firstDataSector * bpb.bytesPerSector := Nat.mul_le_mul_right _ hsectors

lemma le_fatSizeBytes : 512 ≤ (bpb.mount vol).fatSizeBytes := by
  have h := Nat.mul_le_mul bpb.fatSize_pos bpb.bytesPerSector_bounds.1
  rw [Nat.one_mul] at h
  exact h

/-- The clusters follow each other from the start of the data on. -/
lemma clusterOffset_eq {c : ℕ} (h2 : 2 ≤ c) (hc : c < (bpb.mount vol).countOfClusters + 2) :
    (bpb.mount vol).clusterOffset c =
      some ((bpb.mount vol).dataStart + (c - 2) * (bpb.mount vol).clusterSize) := by
  have hsectors : bpb.bytesPerSector * bpb.sectorsPerCluster / bpb.bytesPerSector =
      bpb.sectorsPerCluster :=
    Nat.mul_div_cancel_left _ (by have := bpb.bytesPerSector_bounds; omega)
  rw [clusterOffset, if_neg (by omega)]
  apply congrArg some
  change (bpb.firstDataSector + (c - 2) * (bpb.bytesPerSector * bpb.sectorsPerCluster /
    bpb.bytesPerSector)) * bpb.bytesPerSector = bpb.firstDataSector * bpb.bytesPerSector +
      (c - 2) * (bpb.bytesPerSector * bpb.sectorsPerCluster)
  rw [hsectors, Nat.add_mul, Nat.mul_assoc, Nat.mul_comm bpb.sectorsPerCluster]

end Bpb
end Geometry

end FatFs
end Reclaim
