import Reclaim.Foundation.Unicode
import Reclaim.Fs.Dates
import Reclaim.Fs.Walk

/-!
# FAT12, FAT16 and FAT32

A directory is a list of records of 32 bytes; the pieces of a long name stand before the record they
belong to, and a deleted record keeps all but the first byte of its short name.  The chain of a live
file is in the table; that of a deleted one is gone, and its clusters are taken to be contiguous.
-/

namespace Reclaim

open FileBytes

/-! ## Clusters -/

/-- The extents of clusters from an open run on: its start, its length and its last cluster. -/
def clusterRuns (offsetOf : ℕ → Option ℕ) (clusterSize : ℕ) :
    List ℕ → ℕ → Option (ℕ × ℕ × ℕ) → List Extent
  | [], _, run => (run.map fun r => ⟨r.1, r.2.1⟩).toList
  | c :: cs, remaining, run =>
    match offsetOf c with
    | none => (run.map fun r => ⟨r.1, r.2.1⟩).toList
    | some off =>
      if remaining = 0 then (run.map fun r => ⟨r.1, r.2.1⟩).toList
      else
        let rest := remaining - min remaining clusterSize
        match run with
        | none => clusterRuns offsetOf clusterSize cs rest (some (off, clusterSize, c))
        | some (start, len, prev) =>
          if prev + 1 = c then
            clusterRuns offsetOf clusterSize cs rest (some (start, len + clusterSize, c))
          else
            ⟨start, len⟩ :: clusterRuns offsetOf clusterSize cs rest (some (off, clusterSize, c))

/-- `coalesce`: an ordered cluster list as byte extents, the last one cut so that they do not hold
more than `size`. -/
def coalesceClusters (offsetOf : ℕ → Option ℕ) (clusterSize : ℕ) (clusters : List ℕ) (size : ℕ) :
    List Extent :=
  let extents := clusterRuns offsetOf clusterSize clusters size none
  let total := (extents.map (·.len)).sum
  let cut :=
    if size < total then
      extents.modifyLast fun e => ⟨e.offset, e.len - (total - size)⟩
    else extents
  cut.filter fun e => decide (0 < e.len)

/-! ## The table -/

/-- FAT width. -/
inductive FatKind where
  | fat12
  | fat16
  | fat32
  deriving DecidableEq, Repr

/-- `eoc`: the least entry that ends a chain. -/
def FatKind.eoc : FatKind → ℕ
  | .fat12 => 0x0FF8
  | .fat16 => 0xFFF8
  | .fat32 => 0x0FFFFFF8

/-- An opened FAT volume. -/
structure FatFs where
  vol : Volume
  kind : FatKind
  bytesPerSector : ℕ
  clusterSize : ℕ
  fatOffset : ℕ
  fatSizeBytes : ℕ
  firstDataSector : ℕ
  countOfClusters : ℕ
  /-- The fixed root directory of FAT12 and FAT16. -/
  rootRegionOff : ℕ
  rootRegionLen : ℕ
  /-- The root directory of FAT32. -/
  rootCluster : ℕ
  totalBytes : ℕ

namespace FatFs

/-- `MAX_DIR_BYTES`: cap on a single directory read. -/
def maxDirBytes : ℕ := 8 * 1024 * 1024

/-- `MAX_FAT_CACHE`: cap on the cached table. -/
def maxFatCache : ℕ := 64 * 1024 * 1024

variable (fs : FatFs)

/-- `cluster_offset`. -/
def clusterOffset (cluster : ℕ) : Option ℕ :=
  if cluster < 2 ∨ fs.countOfClusters + 2 ≤ cluster then none
  else
    some ((fs.firstDataSector + (cluster - 2) * (fs.clusterSize / fs.bytesPerSector)) *
      fs.bytesPerSector)

/-- `fat0`: the first table, as far as it is cached. -/
def fat0 : Bytes := fs.vol.read fs.fatOffset (min fs.fatSizeBytes maxFatCache)

/-- `fat_bytes`: from the cache where it has them, else from the volume. -/
def fatBytes (idx n : ℕ) : Bytes :=
  match getRange fs.fat0 idx n with
  | some b => b
  | none =>
    if idx < fs.fatSizeBytes then fs.vol.read (saturatingAdd fs.fatOffset idx) n
    else List.replicate n 0

/-- `fat_entry`. -/
def fatEntry (cluster : ℕ) : ℕ :=
  match fs.kind with
  | .fat32 => leU32 (fs.fatBytes (cluster * 4) 4) 0 % 2 ^ 28
  | .fat16 => leU16 (fs.fatBytes (cluster * 2) 2) 0
  | .fat12 =>
    let v := leU16 (fs.fatBytes (cluster + cluster / 2) 2) 0
    if cluster % 2 = 0 then v % 2 ^ 12 else v / 16 % 2 ^ 12

/-- The clusters from `cur` on, at most `cap` of them. -/
def chainFrom : ℕ → ℕ → List ℕ
  | 0, _ => []
  | cap + 1, cur =>
    if 2 ≤ cur ∧ cur < fs.countOfClusters + 2 then
      let next := fs.fatEntry cur
      if fs.kind.eoc ≤ next ∨ next < 2 ∨ fs.countOfClusters + 2 ≤ next ∨ next = cur then [cur]
      else cur :: chainFrom cap next
    else []

/-- `chain`: follow a cluster chain. -/
def chain (first max' : ℕ) : List ℕ :=
  fs.chainFrom (max (min max' (fs.countOfClusters + 2)) 1) first

/-- The clusters of a directory, joined until there are enough bytes. -/
def joinClusters : List ℕ → Bytes → Bytes
  | [], buf => buf
  | c :: cs, buf =>
    match fs.clusterOffset c with
    | none => buf
    | some off =>
      if maxDirBytes ≤ buf.length then buf
      else joinClusters cs (buf ++ fs.vol.read off fs.clusterSize)

/-- `read_directory`. -/
def readDirectory (firstCluster : ℕ) (isFixedRoot : Bool) : Bytes :=
  if isFixedRoot then fs.vol.read fs.rootRegionOff (min fs.rootRegionLen (16 * 1024 * 1024))
  else
    fs.joinClusters
      (fs.chain firstCluster (saturatingAdd (maxDirBytes / max fs.clusterSize 1) 1)) []

/-- Clusters taken to be contiguous, from the first on. -/
def contiguous (first size need : ℕ) : List Extent :=
  match fs.clusterOffset first with
  | some start =>
    [⟨start, min (min size (saturatingMul need fs.clusterSize)) (fs.totalBytes - start)⟩]
  | none => []

/-- `resolve_extents`: the chain of a live file; for a deleted one, or a broken chain, contiguous
clusters, which is a guess if there are several. -/
def resolveExtents (first size : ℕ) (deleted : Bool) : List Extent × Bool :=
  if size = 0 ∨ first < 2 then ([], false)
  else
    let need := divCeil size fs.clusterSize
    let extents :=
      if deleted then []
      else coalesceClusters fs.clusterOffset fs.clusterSize
        (fs.chain first (saturatingAdd need 2)) size
    if extents ≠ [] then (extents, false)
    else (fs.contiguous first size need, decide (1 < need))

/-- The free clusters that a deleted entry could have begun at before its high word was zeroed. -/
def candidates (lo : ℕ) : List ℕ :=
  (((List.range' 1 255).map fun k => lo + k * 2 ^ 16).takeWhile
    fun c => decide (c < fs.countOfClusters + 2)).filter fun c => fs.fatEntry c == 0

/-- How many of the first bytes of a cluster are not zero. -/
def headCount (cluster : ℕ) : ℕ :=
  match fs.clusterOffset cluster with
  | some off => (fs.vol.read off 16).countP (· ≠ 0)
  | none => 0

/-- `repair_first_cluster`: the candidate with the most bytes at its start, if the cluster that the
entry names has none. -/
def repairFirstCluster (hi lo : ℕ) : ℕ :=
  let first := hi * 2 ^ 16 + lo
  if fs.kind ≠ .fat32 ∨ hi ≠ 0 ∨ lo = 0 ∨ fs.countOfClusters ≤ 0xFFFF then first
  else if 0 < fs.headCount first then first
  else
    ((fs.candidates lo).foldl
      (fun best c => if best.2 < fs.headCount c then (c, fs.headCount c) else best) (first, 0)).1

end FatFs

/-! ## Names -/

namespace FatName

/-- `lfn_chars`: the 13 units of a piece of a long name. -/
def lfnChars (ent : Bytes) : List ℕ :=
  ([1, 3, 5, 7, 9, 14, 16, 18, 20, 22, 24, 28, 30]).map (leU16 ent)

/-- `assemble_lfn`: the pieces, the last one first, without terminator and padding. -/
def assembleLfn (lfn : List (List ℕ)) : Option String :=
  let units := lfn.reverse.flatten.filter fun u => decide (u ≠ 0 ∧ u ≠ 0xFFFF)
  if units = [] then none else some (Text.fromUtf16Lossy units)

/-- White space of Unicode among the first 256 characters. -/
def isSpace (c : Char) : Bool :=
  decide (9 ≤ c.toNat ∧ c.toNat ≤ 13) || c.toNat == 0x20 || c.toNat == 0x85 || c.toNat == 0xA0

/-- `trim_fat`. -/
def trimFat (raw : Bytes) (lower : Bool) : List Char :=
  let chars := raw.map fun b => Char.ofNat (if b = 0x05 then 0xE5 else b.toNat)
  let trimmed := (chars.reverse.dropWhile isSpace).reverse
  if lower then trimmed.map Char.toLower else trimmed

/-- One more of a first character. -/
def countChar (counts : List (UInt8 × ℕ)) (c : UInt8) : List (UInt8 × ℕ) :=
  if counts.any (·.1 == c) then counts.map fun e => if e.1 = c then (e.1, e.2 + 1) else e
  else counts ++ [(c, 1)]

/-- `infer_first_char`: the most frequent first character of the live names with the same three
characters behind it; of several, the one seen last. -/
def inferFirstChar (name : Bytes) (siblings : List Bytes) : Option UInt8 :=
  let alike := siblings.filter fun s => (s.drop 1).take 3 == (name.drop 1).take 3
  let firsts := (alike.map fun s => byteAt s 0).filter fun c => decide (c ≠ 0 ∧ c ≠ 0x20)
  ((firsts.foldl countChar []).foldl
    (fun best e => match best with
      | some b => if b.2 ≤ e.2 then some e else some b
      | none => some e) none).map (·.1)

/-- `short_name`: the 8.3 name, in lower case where the flags say so. -/
def shortName (ent : Bytes) (deleted : Bool) (siblings : List Bytes) : String :=
  let raw := ent.take 11
  let name := if deleted then raw.set 0 ((inferFirstChar raw siblings).getD 0x5F) else raw
  let ntres := (byteAt ent 12).toNat
  let base := trimFat (name.take 8) (ntres.testBit 3)
  let ext := trimFat ((name.drop 8).take 3) (ntres.testBit 4)
  String.ofList (if ext = [] then base else base ++ '.' :: ext)

end FatName

/-! ## The walk -/

namespace FatFs

open FatName

/-- `DELETED`: the first byte of a deleted record. -/
def deletedMark : UInt8 := 0xE5

/-- `ATTR_LFN`. -/
def attrLfn : UInt8 := 0x0F

/-- The records of a directory. -/
def dirRecords (dir : Bytes) : List Bytes :=
  (List.range (dir.length / 32)).map fun k => (dir.drop (32 * k)).take 32

/-- `collect_sfn_names`: the short names of live records. -/
def collectSfnNames (records : List Bytes) : List Bytes :=
  ((records.takeWhile fun ent => byteAt ent 0 != 0).filter fun ent =>
    byteAt ent 11 != attrLfn && byteAt ent 0 != deletedMark && byteAt ent 0 != 0x2E).map
      fun ent => ent.take 11

/-- The path of a name in a directory. -/
def childPath (parent name : String) : String :=
  if parent = "" then name else parent ++ "/" ++ name

variable (fs : FatFs)

/-- The entry of a record. -/
def recordEntry (ent : Bytes) (deleted isDir : Bool) (name path : String) (first : ℕ) : Entry :=
  let state := if deleted then EntryState.deleted else EntryState.live
  let size := if isDir then 0 else leU32 ent 28
  let resolved := if isDir then ([], false) else fs.resolveExtents first size deleted
  { Entry.newFile name size state with
    kind := if isDir then .dir else .file
    path := some path
    created := fatDate (leU16 ent 16)
    modified := fatDate (leU16 ent 24)
    extents := resolved.1
    contiguousAssumed := resolved.2 }

/-- The first cluster that a record names, or is taken to have named. -/
def recordCluster (ent : Bytes) (deleted : Bool) : ℕ :=
  if deleted then fs.repairFirstCluster (leU16 ent 20) (leU16 ent 26)
  else leU16 ent 20 * 2 ^ 16 + leU16 ent 26

/-- An entry, if the options ask for its state. -/
def emitAsked (opts : WalkOpts) (e : Entry) (w : Walked) : Walked :=
  if opts.includes e.state then w.emit e else w

/-- The records of a directory, with the pieces of a long name before them and the subdirectories
found; none of these are descended into where the source leaves the directory at the cap. -/
def scanRecords (opts : WalkOpts) (siblings : List Bytes) (parent : String) :
    List Bytes → List (List ℕ) → List (ℕ × String) → Walked → Walked × List (ℕ × String)
  | [], _, subdirs, w => (w, subdirs)
  | ent :: ents, lfn, subdirs, w =>
    if opts.maxEntries ≤ w.stats.emitted then (w, [])
    else
      let attr := byteAt ent 11
      if byteAt ent 0 = 0 then (w, subdirs)
      else if attr = attrLfn then
        scanRecords opts siblings parent ents (lfn ++ [lfnChars ent]) subdirs w
      else if attr.toNat.testBit 3 = true ∧ attr.toNat.testBit 4 = false then
        -- the volume label
        scanRecords opts siblings parent ents [] subdirs w
      else
        let deleted := byteAt ent 0 == deletedMark
        let isDir := attr.toNat.testBit 4
        let name := (assembleLfn lfn).getD (shortName ent deleted siblings)
        if name = "." ∨ name = ".." ∨ name = "" then
          scanRecords opts siblings parent ents [] subdirs w
        else
          let first := fs.recordCluster ent deleted
          let path := childPath parent name
          let subdirs' :=
            if isDir = true ∧ deleted = false ∧ 2 ≤ first then subdirs ++ [(first, path)]
            else subdirs
          scanRecords opts siblings parent ents [] subdirs'
            (emitAsked opts (fs.recordEntry ent deleted isDir name path first) w)

/-- `walk_dir`, with `depth` levels left; the directories visited are kept beside the walk. -/
def walkDir (opts : WalkOpts) :
    ℕ → (isFixedRoot : Bool) → ℕ × String → List ℕ × Walked → List ℕ × Walked
  | 0, _, _, s => s
  | depth + 1, isFixedRoot, d, s =>
    if opts.maxEntries ≤ s.2.stats.emitted then s
    else if isFixedRoot = false ∧ d.1 ∈ s.1 then s
    else
      let records := dirRecords (fs.readDirectory d.1 isFixedRoot)
      let r := fs.scanRecords opts (collectSfnNames records) d.2 records [] [] s.2
      r.2.foldl (fun s d => walkDir opts depth false d s)
        (if isFixedRoot then s.1 else d.1 :: s.1, r.1)

/-- `walk`. -/
def walk (opts : WalkOpts) : Walked :=
  let fixedRoot := decide (fs.kind ≠ .fat32)
  (fs.walkDir opts 65 fixedRoot (if fixedRoot then 0 else fs.rootCluster, "") ([], Walked.start)).2

variable {fs} {opts : WalkOpts}

lemma emits_emitAsked {w : Walked} (hroom : w.stats.emitted < opts.maxEntries) (e : Entry) :
    Emits (MayEmit opts) w (emitAsked opts e w) := by
  unfold emitAsked
  split
  · rename_i hasked
    exact Emits.emit ⟨hroom, hasked⟩
  · exact Emits.refl w

lemma emits_scanRecords (fs : FatFs) (opts : WalkOpts) (siblings : List Bytes) (parent : String)
    (ents : List Bytes) :
    ∀ (lfn : List (List ℕ)) (subdirs : List (ℕ × String)) (w : Walked),
      Emits (MayEmit opts) w (fs.scanRecords opts siblings parent ents lfn subdirs w).1 := by
  induction ents with
  | nil => exact fun _ _ w => Emits.refl w
  | cons ent ents ih =>
    intro lfn subdirs w
    rw [scanRecords]
    split
    · exact Emits.refl w
    · rename_i hroom
      dsimp only
      split
      · exact Emits.refl w
      split
      · exact ih _ _ w
      split
      · exact ih _ _ w
      split
      · exact ih _ _ w
      · exact (emits_emitAsked (not_le.1 hroom) _).trans (ih _ _ _)

lemma emits_walkDir (depth : ℕ) : ∀ (isFixedRoot : Bool) (d : ℕ × String) (s : List ℕ × Walked),
    Emits (MayEmit opts) s.2 (fs.walkDir opts depth isFixedRoot d s).2 := by
  induction depth with
  | zero => exact fun _ _ s => Emits.refl s.2
  | succ depth ih =>
    intro isFixedRoot d s
    rw [walkDir]
    split
    · exact Emits.refl s.2
    split
    · exact Emits.refl s.2
    · have hscan := emits_scanRecords fs opts
        (collectSfnNames (dirRecords (fs.readDirectory d.1 isFixedRoot))) d.2
        (dirRecords (fs.readDirectory d.1 isFixedRoot)) [] [] s.2
      exact hscan.trans (Emits.foldl (·.2) _ (fun t d' _ => ih false d' t) (_, _))

/-- A walk of a FAT volume emits what it may. -/
lemma emits_walk (fs : FatFs) (opts : WalkOpts) :
    Emits (MayEmit opts) Walked.start (fs.walk opts) :=
  emits_walkDir 65 _ _ ([], Walked.start)

end FatFs

end Reclaim
