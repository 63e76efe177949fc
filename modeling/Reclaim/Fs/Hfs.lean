import Reclaim.Foundation.Unicode
import Reclaim.Fs.Dates
import Reclaim.Fs.Walk

/-!
# HFS+ and HFSX

A volume header names the extents of the catalog, a B-tree whose leaves are linked to each other.
The records of the leaves are the live folders and files; a sweep over the volume looks for records
that are in no leaf any more.  All numbers are big-endian.
-/

namespace Reclaim

open FileBytes

namespace Hfs

/-! ## Catalog records -/

/-- `kHFSPlusFolderRecord`. -/
def recFolder : ℕ := 1

/-- `kHFSPlusFileRecord`. -/
def recFile : ℕ := 2

/-- `kHFSPlusFolderThreadRecord`. -/
def recFolderThread : ℕ := 3

/-- `kHFSPlusFileThreadRecord`. -/
def recFileThread : ℕ := 4

/-- `kHFSRootFolderID`. -/
def rootFolderId : ℕ := 2

/-- `kHFSRootParentID`. -/
def rootParentId : ℕ := 1

/-- `HFSPlusExtentDescriptor`: a run of allocation blocks. -/
structure ExtentDescriptor where
  startBlock : ℕ
  blockCount : ℕ
  startBlock_lt : startBlock < 2 ^ 32
  blockCount_lt : blockCount < 2 ^ 32

/-- The extent descriptor at `base`. -/
def extentAt (b : Bytes) (base : ℕ) : ExtentDescriptor where
  startBlock := beU32 b base
  blockCount := beU32 b (base + 4)
  startBlock_lt := beField_lt 4 b base
  blockCount_lt := beField_lt 4 b (base + 4)

/-- `parse_extents`: the inline extents, up to the first empty one. -/
def parseExtents (b : Bytes) (off : ℕ) : List ExtentDescriptor :=
  ((List.range 8).map fun i => extentAt b (off + i * 8)).takeWhile fun e => e.blockCount ≠ 0

/-- `HFSPlusForkData`: the size of a fork and its inline extents. -/
structure ForkData where
  logicalSize : ℕ
  totalBlocks : ℕ
  extents : List ExtentDescriptor

/-- The fork data at `off`. -/
def ForkData.parse (b : Bytes) (off : ℕ) : ForkData where
  logicalSize := beU64 b off
  totalBlocks := beU32 b (off + 12)
  extents := parseExtents b (off + 16)

/-- `HFSPlusCatalogKey`: the parent's number and the name. -/
structure CatalogKey where
  parentId : ℕ
  name : String
  /-- Where the record begins behind the key. -/
  totalLen : ℕ

/-- The units of a name of `n` units at `off`. -/
def unitsAt (b : Bytes) (off n : ℕ) : List ℕ := (List.range n).map fun i => beU16 b (off + i * 2)

/-- `parse_key`. -/
def parseKey (b : Bytes) (off : ℕ) : Option CatalogKey :=
  let keyLength := beU16 b off
  let nameLen := beU16 b (off + 6)
  if keyLength < 6 ∨ 0x2fe < keyLength then none
  else if 255 < nameLen ∨ keyLength ≠ 6 + 2 * nameLen then none
  else some ⟨beU32 b (off + 2), Text.fromUtf16Lossy (unitsAt b (off + 8) nameLen),
    (2 + keyLength + 1) / 2 * 2⟩

/-- What stands behind a key. -/
inductive CatalogRecord where
  | folder (cnid : ℕ)
  | file (cnid : ℕ) (dataFork resourceFork : ForkData) (createDate modDate : ℕ)
  | thread (parentId : ℕ) (name : String)

/-- `parse_record`. -/
def parseRecord (b : Bytes) (off : ℕ) : Option CatalogRecord :=
  let recType := beU16 b off
  if recType = recFolder then some (.folder (beU32 b (off + 8)))
  else if recType = recFile then
    some (.file (beU32 b (off + 8)) (ForkData.parse b (off + 88)) (ForkData.parse b (off + 168))
      (beU32 b (off + 12)) (beU32 b (off + 16)))
  else if recType = recFolderThread ∨ recType = recFileThread then
    let nameLen := beU16 b (off + 8)
    if 255 < nameLen then none
    else some (.thread (beU32 b (off + 4)) (Text.fromUtf16Lossy (unitsAt b (off + 10) nameLen)))
  else none

/-! ## The volume header -/

/-- `VolumeHeader`. -/
structure VolumeHeader where
  caseSensitive : Bool
  blockSize : ℕ
  totalBlocks : ℕ
  catalog : ForkData
  allocation : ForkData
  blockSize_mem : 512 ≤ blockSize ∧ blockSize ≤ 2 ^ 20
  /-- A fork has at most eight inline extents. -/
  catalog_le : catalog.extents.length ≤ 8

lemma length_parseExtents_le (b : Bytes) (off : ℕ) : (parseExtents b off).length ≤ 8 := by
  refine (List.takeWhile_prefix _).length_le.trans ?_
  rw [List.length_map, List.length_range]

/-- The volume header in these bytes. -/
def VolumeHeader.parse (vh : Bytes) : Option VolumeHeader :=
  let sig := beU16 vh 0
  let blockSize := beU32 vh 40
  if sig ≠ 0x482B ∧ sig ≠ 0x4858 then none
  else if h : 512 ≤ blockSize ∧ blockSize ≤ 2 ^ 20 ∧ 2 ^ blockSize.log2 = blockSize then
    let catalog := ForkData.parse vh 272
    if catalog.extents = [] then none
    else some
      { caseSensitive := sig == 0x4858
        blockSize := blockSize
        totalBlocks := beU32 vh 44
        catalog := catalog
        allocation := ForkData.parse vh 112
        blockSize_mem := ⟨h.1, h.2.1⟩
        catalog_le := length_parseExtents_le vh (272 + 16) }
  else none

end Hfs

/-- An opened HFS+ or HFSX volume. -/
structure Hfs where
  src : Volume
  vh : Hfs.VolumeHeader

namespace Hfs

/-- `open`: by the volume header, or by the alternate one at the end of the volume. -/
def ofVolume (src : Volume) : Option Hfs :=
  ((VolumeHeader.parse (src.read 1024 1024)).or
    (VolumeHeader.parse (src.read (src.len - 1024) 512))).map fun vh => ⟨src, vh⟩

variable (fs : Hfs)

/-- `bs`. -/
def bs : ℕ := max fs.vh.blockSize 1

/-! ## Reading forks -/

/-- `fork_device_offset`: where a byte of a fork is, and how many bytes of its extent are left from
there, `consumed` bytes being before the extents. -/
def forkDeviceOffset : (extents : List ExtentDescriptor) → (consumed byteOff : ℕ) → Option (ℕ × ℕ)
  | [], _, _ => none
  | e :: es, consumed, byteOff =>
    let extBytes := saturatingMul e.blockCount fs.bs
    if byteOff < saturatingAdd consumed extBytes then
      let within := byteOff - consumed
      some (saturatingAdd (saturatingMul e.startBlock fs.bs) within, extBytes - within)
    else forkDeviceOffset es (saturatingAdd consumed extBytes) byteOff

/-- The loop of `read_fork`: what has been read of `len` bytes from `byteOff` on. -/
def readForkFrom (extents : List ExtentDescriptor) (byteOff len : ℕ) : ℕ → Bytes → Bytes
  | 0, out => out
  | fuel + 1, out =>
    if out.length < len then
      match fs.forkDeviceOffset extents 0 (byteOff + out.length) with
      | none => out
      | some (dev, left) =>
        let chunk := min (len - out.length) (min left (2 ^ 20))
        if chunk = 0 then out
        else readForkFrom extents byteOff len fuel (out ++ fs.src.read dev chunk)
    else out

/-- `read_fork`: zeros where the fork has no bytes. -/
def readFork (extents : List ExtentDescriptor) (byteOff len : ℕ) : Bytes :=
  let out := fs.readForkFrom extents byteOff len len []
  out ++ List.replicate (len - out.length) 0

/-- `catalog_geometry`: the size of the catalog's nodes, and its first leaf. -/
def catalogGeometry : Option (ℕ × ℕ) :=
  let head := fs.readFork fs.vh.catalog.extents 0 512
  let nodeSize := beU16 head (14 + 18)
  if nodeSize < 512 ∨ 2 ^ nodeSize.log2 ≠ nodeSize then none
  else some (nodeSize, beU32 head (14 + 10))

/-- `read_node`. -/
def readNode (nodeNum nodeSize : ℕ) : Bytes :=
  fs.readFork fs.vh.catalog.extents (saturatingMul nodeNum nodeSize) nodeSize

/-- `record_offsets`: the offsets at the end of a node, that of the first record last.  As many as a
node has room for, none of which lies before the node. -/
def recordOffsets (node : Bytes) (nodeSize numRecords : ℕ) : List ℕ :=
  (List.range (min ((nodeSize - 14) / 2) numRecords)).map fun i =>
    beU16 node (nodeSize - 2 * (i + 1))

/-! ## The catalog -/

/-- `MAX_NODES`: the nodes that the walk visits. -/
def maxNodes : ℕ := 2000000

/-- A catalog entry. -/
structure CatEntry where
  parentId : ℕ
  name : String
  isDir : Bool
  cnid : ℕ
  dataFork : Option ForkData
  create : Option String
  modified : Option String

/-- The parents and names that folders and files have, the last that was found first. -/
abbrev CnidMap := List (ℕ × ℕ × String)

/-- What the walk has found. -/
structure Catalog where
  entries : List CatEntry
  cnidMap : CnidMap

/-- `parse_catalog_leaf`: the folder or the file at an offset of a node. -/
def parseCatalogLeaf (node : Bytes) (recOff : ℕ) : Option CatEntry := do
  let key ← parseKey node recOff
  match ← parseRecord node (recOff + key.totalLen) with
  | .folder cnid => some ⟨key.parentId, key.name, true, cnid, none, none, none⟩
  | .file cnid dataFork _ createDate modDate =>
    some ⟨key.parentId, key.name, false, cnid, some dataFork, hfsDate createDate, hfsDate modDate⟩
  | .thread .. => none

/-- One record: its entry and its parent and name are kept. -/
def takeRecord (node : Bytes) (c : Catalog) (recOff : ℕ) : Catalog :=
  match parseCatalogLeaf node recOff with
  | none => c
  | some e => ⟨c.entries ++ [e], (e.cnid, e.parentId, e.name) :: c.cnidMap⟩

/-- One node: the records of a leaf. -/
def takeNode (node : Bytes) (nodeSize : ℕ) (c : Catalog) : Catalog :=
  if byteAt node 8 = 0xFF then
    (recordOffsets node nodeSize (min (beU16 node 10) 2000)).foldl (takeRecord node) c
  else c

/-- The loop of `walk_catalog`: the nodes from `nodeNum` on, up to one that was seen. -/
def walkNodes (nodeSize : ℕ) : (budget nodeNum : ℕ) → (seen : List ℕ) → Catalog → Catalog
  | 0, _, _, c => c
  | budget + 1, nodeNum, seen, c =>
    if nodeNum = 0 ∨ nodeNum ∈ seen then c
    else
      let node := fs.readNode nodeNum nodeSize
      walkNodes nodeSize budget (beU32 node 0) (nodeNum :: seen) (takeNode node nodeSize c)

/-- `walk_catalog`. -/
def walkCatalog : Catalog :=
  match fs.catalogGeometry with
  | none => ⟨[], []⟩
  | some (nodeSize, firstLeaf) => fs.walkNodes nodeSize maxNodes firstLeaf [] ⟨[], []⟩

/-- The names from below the root folder down to `cur`, at most `guard` of them. -/
def pathParts (map : CnidMap) : (guard cur : ℕ) → List String
  | 0, _ => []
  | guard + 1, cur =>
    if cur = rootFolderId ∨ cur = rootParentId ∨ cur = 0 then []
    else
      match map.lookup cur with
      | none => []
      | some (parent, name) => pathParts map guard parent ++ [name]

/-- `path_of`. -/
def pathOf (map : CnidMap) (parent : ℕ) (name : String) : String :=
  String.intercalate "/" (pathParts map 128 parent ++ [name])

/-! ## Entries -/

/-- The loop of `fork_extents`: `remaining` bytes of the file are left. -/
def forkExtentsFrom : (remaining : ℕ) → List ExtentDescriptor → List Extent
  | _, [] => []
  | remaining, e :: es =>
    if e.blockCount = 0 then forkExtentsFrom remaining es
    else
      let byteLen := saturatingMul e.blockCount fs.bs
      let len := if remaining = 0 then byteLen else min byteLen remaining
      ⟨saturatingMul e.startBlock fs.bs, len⟩ :: forkExtentsFrom (remaining - byteLen) es

/-- `fork_extents`. -/
def forkExtents (fork : ForkData) : List Extent :=
  fs.forkExtentsFrom fork.logicalSize fork.extents

/-- `to_entry`. -/
def toEntry (e : CatEntry) (map : CnidMap) (state : EntryState) : Entry :=
  { Entry.newFile e.name ((e.dataFork.map (·.logicalSize)).getD 0) state with
    path := some (pathOf map e.parentId e.name)
    extents := (e.dataFork.map fs.forkExtents).getD []
    created := e.create
    modified := e.modified }

/-! ## Stale records -/

/-- `is_plausible_name`, for the characters that are letters or digits. -/
def isPlausibleName (alphanumeric : Char → Bool) (name : String) : Bool :=
  let cs := name.toList
  !cs.isEmpty && cs.length ≤ 255 &&
    cs.all (fun c => !(c.toNat < 0x20 || c == '\x7f' || c == '\ufffd')) &&
      decide (¬ [' ', ' ', ' '] <:+: cs) && cs.any alphanumeric

/-- The parent and name of an entry. -/
def CatEntry.key (e : CatEntry) : ℕ × String := (e.parentId, e.name)

/-- `try_stale_at`: the file whose record is at `off`, unless its parent and name were seen. -/
def tryStaleAt (alphanumeric : Char → Bool) (buf : Bytes) (off : ℕ)
    (live emitted : List (ℕ × String)) : Option CatEntry := do
  let key ← parseKey buf off
  guard (rootFolderId ≤ key.parentId ∧ key.parentId < 0x40000000)
  guard (isPlausibleName alphanumeric key.name = true)
  let dataOff := off + key.totalLen
  guard (beU16 buf dataOff = recFile)
  guard ((key.parentId, key.name) ∉ live ∧ (key.parentId, key.name) ∉ emitted)
  match ← parseRecord buf dataOff with
  | .file cnid dataFork _ createDate modDate =>
    guard (16 ≤ cnid ∧ cnid < 0x40000000)
    guard ((hfsDate createDate).isSome = true ∧ (hfsDate modDate).isSome = true)
    let first ← dataFork.extents.head?
    guard (first.blockCount ≠ 0 ∧ first.startBlock < fs.vh.totalBlocks)
    some ⟨key.parentId, key.name, false, cnid, some dataFork, hfsDate createDate, hfsDate modDate⟩
  | _ => none

/-- `MAX_STALE_SCAN_BYTES`. -/
def maxStaleScanBytes : ℕ := 16 * 2 ^ 30

/-- Bytes from one chunk of the sweep to the next. -/
def staleChunk : ℕ := 2 ^ 20

/-- Bytes that are read beyond a chunk: a record can straddle its end. -/
def staleOverlap : ℕ := 1024

/-- Bytes that are swept. -/
def staleTotal : ℕ := min fs.src.len maxStaleScanBytes

/-- Bytes that are read for the chunk at `pos`. -/
def staleWant (pos : ℕ) : ℕ := min (staleChunk + staleOverlap) (fs.staleTotal - pos)

/-- Where the loop over the chunk at `pos` ends. -/
def staleScanTo (pos : ℕ) : ℕ :=
  fs.staleWant pos - if fs.staleTotal ≤ pos + fs.staleWant pos then 0 else staleOverlap

/-- The offsets of that loop: the even ones with eight bytes before its end. -/
def staleOffsets (pos : ℕ) : List ℕ :=
  (List.range ((fs.staleScanTo pos - 6) / 2)).map fun i => 2 * i

/-- Where the chunks begin. -/
def staleChunks : List ℕ := (List.range (divCeil fs.staleTotal staleChunk)).map (· * staleChunk)

/-- What the sweep has come to: the walk, and the files found. -/
structure Stale where
  walked : Walked
  found : List CatEntry

/-- `emitted`: the parents and names of the files found. -/
def Stale.emitted (s : Stale) : List (ℕ × String) := s.found.map CatEntry.key

section Sweep

variable (alphanumeric : Char → Bool) (opts : WalkOpts) (live : List (ℕ × String)) (map : CnidMap)

/-- One offset of a chunk. -/
def staleStep (buf : Bytes) (s : Stale) (off : ℕ) : Stale :=
  match fs.tryStaleAt alphanumeric buf off live s.emitted with
  | none => s
  | some e =>
    let counted := s.walked.emit (fs.toEntry e map .orphaned)
    ⟨if opts.includeDeleted then counted else ⟨counted.stats, s.walked.sink⟩, s.found ++ [e]⟩

/-- The chunk at `pos`. -/
def staleScanChunk (s : Stale) (pos : ℕ) : Stale :=
  (fs.staleOffsets pos).foldl
    (fs.staleStep alphanumeric opts live map (fs.src.read pos (fs.staleWant pos))) s

/-- `stale_scan`. -/
def staleScan (w : Walked) : Stale :=
  fs.staleChunks.foldl (fs.staleScanChunk alphanumeric opts live map) ⟨w, []⟩

end Sweep

/-! ## The walk -/

/-- The live files. -/
def emitLive (c : Catalog) (w : Walked) : Walked :=
  w.emitAll ((c.entries.filter fun e => !e.isDir).map fun e => fs.toEntry e c.cnidMap .live)

/-- `walk`. -/
def walk (alphanumeric : Char → Bool) (opts : WalkOpts) : Walked :=
  let c := fs.walkCatalog
  let w := if opts.includeLive then fs.emitLive c Walked.start else Walked.start
  if opts.includeDeleted then
    (fs.staleScan alphanumeric opts (c.entries.map CatEntry.key) c.cnidMap w).walked
  else w

end Hfs
end Reclaim
