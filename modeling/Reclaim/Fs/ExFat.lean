import Reclaim.Fs.Fat
import Reclaim.Fs.FatOpen

/-!
# exFAT

A directory is a list of entry sets, each a File entry, a Stream entry and the Name entries; a bit
of the type code says whether a set is in use.  A directory whose set is not is descended into while
its first cluster is free.
-/

namespace Reclaim

open FileBytes

/-- An opened exFAT volume. -/
structure ExFat where
  vol : Volume
  clusterSize : ℕ
  fatOffset : ℕ
  clusterHeapOffset : ℕ
  clusterCount : ℕ
  rootDirCluster : ℕ
  volumeLength : ℕ
  /-- 512 bytes to 32 MiB. -/
  clusterSize_pow : ∃ k, 9 ≤ k ∧ k ≤ 25 ∧ clusterSize = 2 ^ k

namespace ExFat

/-- `MAX_DIR_BYTES`: cap on a single directory read. -/
def maxDirBytes : ℕ := 32 * 1024 * 1024

variable (fs : ExFat)

/-- One more than the last cluster. -/
def clusterLimit : ℕ := min (fs.clusterCount + 2) (2 ^ 32 - 1)

/-- `cluster_offset`. -/
def clusterOffset (cluster : ℕ) : Option ℕ :=
  if cluster < 2 ∨ fs.clusterLimit ≤ cluster then none
  else some (saturatingAdd fs.clusterHeapOffset (saturatingMul (cluster - 2) fs.clusterSize))

/-- `fat_next`. -/
def fatNext (cluster : ℕ) : ℕ := leU32 (fs.vol.read (fs.fatOffset + cluster * 4) 4) 0

/-- The clusters from `cur` on, at most `cap` of them. -/
def chainFrom : ℕ → ℕ → List ℕ
  | 0, _ => []
  | cap + 1, cur =>
    if 2 ≤ cur ∧ cur < fs.clusterLimit then
      let next := fs.fatNext cur
      if next = 0xFFFFFFFF ∨ next < 2 ∨ fs.clusterLimit ≤ next ∨ next = cur then [cur]
      else cur :: chainFrom cap next
    else []

/-- `chain`: follow a cluster chain. -/
def chain (first maxClusters : ℕ) : List ℕ :=
  fs.chainFrom (max (min maxClusters fs.clusterLimit) 1) first

/-- Clusters taken to be contiguous, from the first on. -/
def contiguous (first dataLen need : ℕ) : List Extent :=
  match fs.clusterOffset first with
  | some start =>
    [⟨start, min (min dataLen (saturatingMul need fs.clusterSize)) (fs.volumeLength - start)⟩]
  | none => []

/-- `resolve_extents`: contiguous clusters if the flag says so, else the chain; where that is
broken, or too short for a deleted file, contiguous clusters again, which is a guess if there are
several. -/
def resolveExtents (first dataLen : ℕ) (noFatChain deleted : Bool) : List Extent × Bool :=
  if dataLen = 0 ∨ first < 2 then ([], false)
  else
    let need := divCeil dataLen fs.clusterSize
    if noFatChain then (fs.contiguous first dataLen need, false)
    else
      let clusters := fs.chain first (saturatingAdd need 2)
      let extents := coalesceClusters fs.clusterOffset fs.clusterSize clusters dataLen
      if clusters = [] ∨ (deleted = true ∧ clusters.length < need) ∨ extents = [] then
        (fs.contiguous first dataLen need, decide (1 < need))
      else (extents, false)

/-- The clusters of a directory, joined until there are enough bytes. -/
def joinClusters : List ℕ → Bytes → Bytes
  | [], buf => buf
  | c :: cs, buf =>
    match fs.clusterOffset c with
    | none => buf
    | some off =>
      if maxDirBytes ≤ buf.length then buf
      else joinClusters cs (buf ++ fs.vol.read off fs.clusterSize)

/-- `read_directory`. -/
def readDirectory (first : ℕ) : Option Bytes :=
  let maxClusters := saturatingAdd (maxDirBytes / max fs.clusterSize 1) 1
  let clusters := fs.chain first (min maxClusters (2 ^ 20))
  if clusters = [] then none else some (fs.joinClusters clusters [])

/-- The place of the bitmap's entry in the root directory. -/
def bitmapEntry (root : Bytes) : List ℕ → Option ℕ
  | [] => none
  | k :: ks =>
    if byteAt root (32 * k) = 0x81 then some (32 * k)
    else if byteAt root (32 * k) = 0 then none
    else bitmapEntry root ks

/-- `load_bitmap`. -/
def loadBitmap : Option Bitmap := do
  let root ← fs.readDirectory fs.rootDirCluster
  let i ← bitmapEntry root (List.range (root.length / 32))
  let start ← fs.clusterOffset (leU32 root (i + 20))
  let want := min (min (leU64 root (i + 24)) (divCeil fs.clusterCount 8 + 8)) (64 * 1024 * 1024)
  some (Bitmap.new fs.clusterSize fs.clusterHeapOffset fs.clusterCount (fs.vol.read start want))

/-! ## Entry sets -/

/-- The units of the Name entries from `off` on, at most `nameLen` of them. -/
def nameUnits (dir : Bytes) (nameLen : ℕ) : ℕ → ℕ → List ℕ → List ℕ
  | 0, _, units => units
  | entries + 1, off, units =>
    if off + 32 ≤ dir.length ∧ units.length < nameLen ∧ (byteAt dir off).toNat % 128 = 0x41 then
      let more := (List.range 15).map fun k => leU16 dir (off + 2 + k * 2)
      nameUnits dir nameLen entries (off + 32) (units ++ more.take (nameLen - units.length))
    else units

/-- `read_name`. -/
def readName (dir : Bytes) (off nameEntries nameLen : ℕ) : String :=
  let units := nameUnits dir nameLen nameEntries off []
  Text.fromUtf16Lossy (units.reverse.dropWhile (· == 0)).reverse

/-- A File entry with its Stream entry, as the walk reads them. -/
structure EntrySet where
  inUse : Bool
  isDir : Bool
  secondary : ℕ
  name : String
  created : Option String
  modified : Option String
  first : ℕ
  dataLen : ℕ
  noFatChain : Bool

/-- The set that begins at `i`, if a Stream entry follows. -/
def readSet (dir : Bytes) (i : ℕ) : Option EntrySet :=
  let stream := i + 32
  if (byteAt dir stream).toNat % 128 = 0x40 then
    let secondary := (byteAt dir (i + 1)).toNat
    some
      { inUse := (byteAt dir i).toNat.testBit 7
        isDir := (leU16 dir (i + 4)).testBit 4
        secondary := secondary
        name := readName dir (stream + 32) (secondary - 1) (byteAt dir (stream + 3)).toNat
        created := exfatDate (leU32 dir (i + 8))
        modified := exfatDate (leU32 dir (i + 12))
        first := leU32 dir (stream + 20)
        dataLen := leU64 dir (stream + 24)
        noFatChain := (byteAt dir (stream + 1)).toNat.testBit 1 }
  else none

/-- The state of a set's entry. -/
def EntrySet.state (s : EntrySet) : EntryState := if s.inUse then .live else .deleted

/-- The entry of a set. -/
def setEntry (s : EntrySet) (path : String) : Entry :=
  let resolved :=
    if s.isDir then ([], false) else fs.resolveExtents s.first s.dataLen s.noFatChain (!s.inUse)
  { Entry.newFile s.name (if s.isDir then 0 else s.dataLen) s.state with
    kind := if s.isDir then .dir else .file
    path := some path
    created := s.created
    modified := s.modified
    extents := resolved.1
    contiguousAssumed := resolved.2 }

/-- What a set adds to the walk: a file, or a directory with a name of its own, if asked for. -/
def emitSet (opts : WalkOpts) (s : EntrySet) (path : String) (w : Walked) : Walked :=
  if opts.includes s.state = true ∧
      (s.isDir = true → s.name ≠ "" ∧ s.name ≠ "." ∧ s.name ≠ "..") then
    w.emit (fs.setEntry s path)
  else w

/-- A directory is descended into while it is in use or its first cluster is free. -/
def descends (bitmap : Option Bitmap) (s : EntrySet) : Bool :=
  s.isDir && decide (2 ≤ s.first) &&
    (s.inUse ||
      ((bitmap.bind fun b =>
        (fs.clusterOffset s.first).map fun o => !b.isOffsetAllocated o).getD true))

/-- The entries of a directory from `i` on, with the subdirectories found; none of these are
descended into where the source leaves the directory at the cap. -/
def scanDir (opts : WalkOpts) (bitmap : Option Bitmap) (dir : Bytes) (parent : String) :
    ℕ → ℕ → List (ℕ × String) → Walked → Walked × List (ℕ × String)
  | 0, _, subdirs, w => (w, subdirs)
  | fuel + 1, i, subdirs, w =>
    if i + 32 ≤ dir.length then
      if opts.maxEntries ≤ w.stats.emitted then (w, [])
      else if byteAt dir i = 0 then (w, subdirs)
      else if (byteAt dir i).toNat % 128 = 0x05 then
        match readSet dir i with
        | none => scanDir opts bitmap dir parent fuel (i + 32) subdirs w
        | some s =>
          let path := FatFs.childPath parent s.name
          let subdirs' := if fs.descends bitmap s then subdirs ++ [(s.first, path)] else subdirs
          scanDir opts bitmap dir parent fuel (i + 32 * (1 + max s.secondary 1)) subdirs'
            (fs.emitSet opts s path w)
      else scanDir opts bitmap dir parent fuel (i + 32) subdirs w
    else (w, subdirs)

/-- `walk_dir`, with `depth` levels left; the directories visited are kept beside the walk.  Each
round of the scan is an entry or more, so it is over when the fuel is. -/
def walkDir (opts : WalkOpts) (bitmap : Option Bitmap) :
    ℕ → ℕ × String → List ℕ × Walked → List ℕ × Walked
  | 0, _, s => s
  | depth + 1, d, s =>
    if opts.maxEntries ≤ s.2.stats.emitted then s
    else if d.1 ∈ s.1 then s
    else
      match fs.readDirectory d.1 with
      | none => (d.1 :: s.1, s.2)
      | some dir =>
        let r := fs.scanDir opts bitmap dir d.2 (dir.length / 32 + 1) 0 [] s.2
        r.2.foldl (fun s d => walkDir opts bitmap depth d s) (d.1 :: s.1, r.1)

/-- `walk`. -/
def walk (opts : WalkOpts) : Walked :=
  (fs.walkDir opts fs.loadBitmap 65 (fs.rootDirCluster, "") ([], Walked.start)).2

variable {fs} {opts : WalkOpts}

lemma emits_emitSet {w : Walked} (hroom : w.stats.emitted < opts.maxEntries) (s : EntrySet)
    (path : String) : Emits (MayEmit opts) w (fs.emitSet opts s path w) := by
  unfold emitSet
  split
  · rename_i h
    exact Emits.emit ⟨hroom, h.1⟩
  · exact Emits.refl w

lemma emits_scanDir (fs : ExFat) (opts : WalkOpts) (bitmap : Option Bitmap) (dir : Bytes)
    (parent : String) (fuel : ℕ) :
    ∀ (i : ℕ) (subdirs : List (ℕ × String)) (w : Walked),
      Emits (MayEmit opts) w (fs.scanDir opts bitmap dir parent fuel i subdirs w).1 := by
  induction fuel with
  | zero => exact fun _ _ w => Emits.refl w
  | succ fuel ih =>
    intro i subdirs w
    rw [scanDir]
    split
    · split
      · exact Emits.refl w
      · rename_i hroom
        split
        · exact Emits.refl w
        split
        · split
          · exact ih _ _ w
          · exact (emits_emitSet (not_le.1 hroom) _ _).trans (ih _ _ _)
        · exact ih _ _ w
    · exact Emits.refl w

lemma emits_walkDir (bitmap : Option Bitmap) (depth : ℕ) :
    ∀ (d : ℕ × String) (s : List ℕ × Walked),
      Emits (MayEmit opts) s.2 (fs.walkDir opts bitmap depth d s).2 := by
  induction depth with
  | zero => exact fun _ s => Emits.refl s.2
  | succ depth ih =>
    intro d s
    rw [walkDir]
    split
    · exact Emits.refl s.2
    split
    · exact Emits.refl s.2
    · split
      · exact Emits.refl s.2
      · rename_i dir _
        have hscan := emits_scanDir fs opts bitmap dir d.2 (dir.length / 32 + 1) 0 [] s.2
        exact hscan.trans (Emits.foldl (·.2) _ (fun t d' _ => ih d' t) (_, _))

/-- A walk of an exFAT volume emits what it may. -/
lemma emits_walk (fs : ExFat) (opts : WalkOpts) :
    Emits (MayEmit opts) Walked.start (fs.walk opts) :=
  emits_walkDir _ 65 _ ([], Walked.start)

end ExFat

end Reclaim

/-!
## Opening an exFAT volume

The geometry of an opened volume is small enough that no offset of a cluster is cut to 64 bits.
-/

namespace Reclaim

open FileBytes

namespace ExFat

/-- The name in a boot sector. -/
def bootMark : Bytes := [0x45, 0x58, 0x46, 0x41, 0x54, 0x20, 0x20, 0x20]

/-- `read_boot`: the boot sector, or the backup of it for one of the sector sizes. -/
def readBoot (vol : Volume) : Option Bytes :=
  let main := vol.read 0 512
  if getRange main 3 8 = some bootMark then some main
  else
    ([9, 10, 11, 12].find? fun shift =>
      let bak := vol.read (12 * 2 ^ shift) 512
      getRange bak 3 8 == some bootMark && (byteAt bak 108).toNat == shift).map
        fun shift => vol.read (12 * 2 ^ shift) 512

lemma pow_shifts {m n : ℕ} (h : 9 ≤ m ∧ m ≤ 12 ∧ m + n ≤ 25) :
    ∃ k, 9 ≤ k ∧ k ≤ 25 ∧ 2 ^ (m + n) = 2 ^ k :=
  ⟨m + n, by omega, h.2.2, rfl⟩

/-- `open`. -/
def openVolume (vol : Volume) : Except FsError ExFat :=
  match readBoot vol with
  | none => .error (.notThisFs "no EXFAT boot signature (main or backup)")
  | some boot =>
    let bpsShift := (byteAt boot 108).toNat
    let spcShift := (byteAt boot 109).toNat
    if h : 9 ≤ bpsShift ∧ bpsShift ≤ 12 ∧ bpsShift + spcShift ≤ 25 then
      if leU32 boot 96 < 2 then .error (.corrupt "exFAT geometry invalid")
      else
        .ok
          { vol := vol
            clusterSize := 2 ^ (bpsShift + spcShift)
            fatOffset := leU32 boot 80 * 2 ^ bpsShift
            clusterHeapOffset := leU32 boot 88 * 2 ^ bpsShift
            clusterCount := leU32 boot 92
            rootDirCluster := leU32 boot 96
            volumeLength := saturatingMul (leU64 boot 72) (2 ^ bpsShift)
            clusterSize_pow := pow_shifts h }
    else .error (.corrupt "implausible exFAT sector/cluster shift")

/-- What the fields of a boot sector allow. -/
structure Opened (fs : ExFat) : Prop where
  clusterHeapOffset_lt : fs.clusterHeapOffset < 2 ^ 44
  volumeLength_le : fs.volumeLength ≤ u64Max

variable {vol : Volume} {fs : ExFat} {c : ℕ}

lemma opened_of_openVolume (h : openVolume vol = .ok fs) : fs.Opened := by
  unfold openVolume at h
  split at h
  · cases h
  · rename_i boot _
    dsimp only at h
    split at h
    · rename_i hshift
      split at h
      · cases h
      · obtain rfl := Except.ok.inj h
        refine ⟨?_, min_le_right ..⟩
        calc leU32 boot 88 * 2 ^ (byteAt boot 108).toNat
            ≤ leU32 boot 88 * 2 ^ 12 :=
              Nat.mul_le_mul_left _ (Nat.pow_le_pow_right (by omega) hshift.2.1)
          _ < 2 ^ 44 := by
              have hlt := leU32_lt boot 88
              omega
    · cases h

lemma clusterSize_le (fs : ExFat) : fs.clusterSize ≤ 2 ^ 25 := by
  obtain ⟨k, -, hk, hsize⟩ := fs.clusterSize_pow
  rw [hsize]
  exact Nat.pow_le_pow_right (by omega) hk

/-- The clusters of an opened volume follow each other. -/
lemma Opened.clusterOffset_eq (h : fs.Opened) (h2 : 2 ≤ c) (hc : c < fs.clusterLimit) :
    fs.clusterOffset c = some (fs.clusterHeapOffset + (c - 2) * fs.clusterSize) := by
  have hlimit : fs.clusterLimit ≤ 2 ^ 32 - 1 := min_le_right ..
  have hbytes : (c - 2) * fs.clusterSize ≤ 2 ^ 32 * 2 ^ 25 :=
    Nat.mul_le_mul (by omega) fs.clusterSize_le
  have hheap := h.clusterHeapOffset_lt
  have hmax : 2 ^ 44 + 2 ^ 32 * 2 ^ 25 ≤ u64Max := by decide
  rw [clusterOffset, if_neg (by omega), saturatingMul, min_eq_left (by omega), saturatingAdd,
    min_eq_left (by omega)]

end ExFat
end Reclaim
