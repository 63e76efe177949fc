import Mathlib.Data.List.Sort
import Reclaim.Foundation.KeyedTable
import Reclaim.Foundation.Versions
import Reclaim.Fs.ApfsObjects
import Reclaim.Fs.Dates
import Reclaim.Fs.Walk

/-!
# Views of an APFS container

A container has a superblock for each checkpoint that is still in its descriptor ring.  A checkpoint
or a snapshot of a volume is a view: what the records of its file-system tree say, which is reached
through the object maps as they were at a transaction.

All trees of one walk are read on one budget of nodes, which is the state of the reading functions.
-/

namespace Reclaim

open FileBytes

/-! ## Superblocks -/

namespace Apfs

/-- A container superblock. -/
structure Nxsb where
  xid : ℕ
  blockSize : ℕ
  blockCount : ℕ
  omapOid : ℕ
  fsOids : List ℕ
  xpDescBase : ℕ
  xpDescBlocks : ℕ

/-- A block as a container superblock. -/
def Nxsb.parse (block : Bytes) : Option Nxsb := do
  let obj ← ObjPhys.parse block
  guard (obj.kind = 1)
  guard (getRange block 32 4 = some "NXSB".toUTF8.data.toList)
  let blockSize := leU32 block 36
  guard (512 ≤ blockSize ∧ blockSize ≤ 65536 ∧ 2 ^ blockSize.log2 = blockSize)
  let maxFs := min (leU32 block 180) 100
  some
    { xid := obj.xid
      blockSize := blockSize
      blockCount := leU64 block 40
      omapOid := leU64 block 160
      fsOids := ((List.range maxFs).map fun i => leU64 block (184 + i * 8)).filter (· != 0)
      xpDescBase := leU64 block 112
      xpDescBlocks := leU32 block 104 }

/-- A volume superblock. -/
structure VolumeSb where
  omapOid : ℕ
  rootTreeOid : ℕ
  snapMetaTreeOid : ℕ
  incompat : ℕ
  role : ℕ

/-- A block as a volume superblock. -/
def VolumeSb.parse (block : Bytes) : Option VolumeSb := do
  let obj ← ObjPhys.parse block
  guard (obj.kind = 13)
  guard (getRange block 32 4 = some "APSB".toUTF8.data.toList)
  some
    { omapOid := leU64 block 128
      rootTreeOid := leU64 block 136
      snapMetaTreeOid := leU64 block 152
      incompat := leU64 block 56
      role := leU16 block 964 }

/-- The keys of directory records have hashes: names are compared without case or normalised. -/
def VolumeSb.hashedDrec (v : VolumeSb) : Bool := v.incompat &&& 9 != 0

/-- The sealed System volume. -/
def VolumeSb.isSystem (v : VolumeSb) : Bool := v.role == 1 || v.incompat &&& 0x20 != 0

end Apfs

/-- An opened APFS container. -/
structure Apfs where
  src : Volume
  blockSize : ℕ
  newest : Apfs.Nxsb
  /-- All valid container superblocks, newest first. -/
  history : List Apfs.Nxsb
  /-- The nodes that one tree may have. -/
  nodeBudget : ℕ

namespace Apfs

/-- Caps on the nodes of a tree, and on those of a whole walk. -/
def nodeBudgetCap : ℕ := 64000

/-- The nodes that all trees of a walk may have together. -/
def totalWorkBudget : ℕ := 500000

/-- `open`: the superblock of block 0 leads to the ring, and the newest of those that verify is the
container's. -/
def ofVolume (src : Volume) : Option Apfs := do
  let block0 ← Nxsb.parse (src.read 0 4096)
  let bs := block0.blockSize
  let own := if fletcher64Valid (src.read 0 bs) then [block0] else []
  let ring := (List.range (min block0.xpDescBlocks 1024)).filterMap fun i =>
    let blk := src.read (saturatingMul (saturatingAdd block0.xpDescBase i) bs) bs
    if fletcher64Valid blk then (Nxsb.parse blk).filter fun nx => nx.blockSize == bs else none
  let history := (KeyedTable.insertAll Nxsb.xid [] (own ++ ring)).insertionSort
    fun a b => b.xid ≤ a.xid
  some ⟨src, bs, history.head?.getD block0, history, nodeBudgetCap⟩

variable (fs : Apfs)

/-- A block of the container. -/
def readBlock (paddr : ℕ) : Bytes := fs.src.read (saturatingMul paddr fs.blockSize) fs.blockSize

/-- A block whose checksum verifies. -/
def readVerifiedBlock (paddr : ℕ) : Option Bytes :=
  if fletcher64Valid (fs.readBlock paddr) then some (fs.readBlock paddr) else none

/-! ## Reading trees -/

/-- A walk over one tree, within the budget that is left. -/
def budgetedWalk (root : Node) (fetch : ℕ → Option Bytes) (fixedKey fixedVal : ℕ) :
    StateM ℕ (List (Bytes × Bytes)) := fun start =>
  let cap := min start fs.nodeBudget
  let r := walkLeaves root fetch fixedKey fixedVal cap
  (r.1, start - (cap - r.2))

/-- One mapping of an object map, as it is added to the index: it replaces one that is not newer. -/
def omapAdd (atXid : ℕ) (idx : ℕ → Option (ℕ × ℕ)) (kv : Bytes × Bytes) : ℕ → Option (ℕ × ℕ) :=
  let oid := leU64 kv.1 0
  let xid := leU64 kv.1 8
  if atXid < xid then idx
  else if ((idx oid).getD (0, 0)).1 ≤ xid then Function.update idx oid (some (xid, leU64 kv.2 8))
  else idx

/-- `omap_index`: the blocks of the objects of a map as they were at a transaction. -/
def omapIndex (omapOid atXid : ℕ) : StateM ℕ (ℕ → Option ℕ) := do
  let treeOid := leU64 (fs.readBlock omapOid) 48
  if treeOid = 0 then pure fun _ => none
  else
    match Node.parse (fs.readBlock treeOid) with
    | none => pure fun _ => none
    | some root => do
      let kvs ← fs.budgetedWalk root fs.readVerifiedBlock 16 16
      let idx := kvs.foldl (omapAdd atXid) fun _ => none
      pure fun oid => (idx oid).map (·.2)

/-- `resolve_volume`: the superblock of a volume at a transaction. -/
def resolveVolume (omapOid fsOid atXid : ℕ) : StateM ℕ (Option VolumeSb) := do
  let idx ← fs.omapIndex omapOid atXid
  pure ((idx fsOid).bind fun paddr => VolumeSb.parse (fs.readBlock paddr))

/-- The block of an object, if it is still that object and not newer than the transaction. -/
def fetchObject (vidx : ℕ → Option ℕ) (atXid oid : ℕ) : Option Bytes := do
  let p ← vidx oid
  let blk ← fs.readVerifiedBlock p
  let obj ← ObjPhys.parse blk
  guard (obj.oid = oid ∧ obj.xid ≤ atXid)
  some blk

/-- `walk_fs_tree`: the records of the file-system tree of a volume at a transaction. -/
def walkFsTree (vol : VolumeSb) (atXid : ℕ) : StateM ℕ (List FsRec) := do
  let vidx ← fs.omapIndex vol.omapOid atXid
  match (vidx vol.rootTreeOid).bind fun p => Node.parse (fs.readBlock p) with
  | none => pure []
  | some root => do
    let kvs ← fs.budgetedWalk root (fs.fetchObject vidx atXid) 0 0
    pure (kvs.filterMap (FsRec.parse vol.hashedDrec))

/-- `target_volumes`: all but the System volume, or all if that leaves none. -/
def targetVolumes (includeSystem : Bool) : StateM ℕ (List (ℕ × VolumeSb)) := do
  let resolved := fs.newest.fsOids.mapM fun fsOid => do
    let vol ← fs.resolveVolume fs.newest.omapOid fsOid fs.newest.xid
    pure (vol.map fun v => (fsOid, v))
  let all ← resolved
  let out := (all.filterMap id).filter fun t => includeSystem || !t.2.isSystem
  if out.isEmpty then do
    let again ← resolved
    pure (again.filterMap id)
  else pure out

/-- `snapshot_points`: the transactions of a volume's snapshots, and the blocks of their
superblocks. -/
def snapshotPoints (vol : VolumeSb) : StateM ℕ (List (ℕ × ℕ)) := do
  if vol.snapMetaTreeOid = 0 then pure []
  else
    match Node.parse (fs.readBlock vol.snapMetaTreeOid) with
    | none => pure []
    | some root => do
      let kvs ← fs.budgetedWalk root fs.readVerifiedBlock 0 0
      pure (kvs.filterMap fun kv =>
        if 8 ≤ kv.1.length ∧ (splitKey (leU64 kv.1 0)).2 = 1 ∧ leU64 kv.2 8 ≠ 0 then
          some ((splitKey (leU64 kv.1 0)).1, leU64 kv.2 8)
        else none)

/-! ## What the records of a view say -/

/-- The inode that a record is. -/
def FsRec.inode? : FsRec → Option (ℕ × Inode)
  | .inode id i => some (id, i)
  | _ => none

/-- The directory record that a record is. -/
def FsRec.dirRec? : FsRec → Option ChildRec
  | .dirRec d => some d
  | _ => none

/-- The extent of a file that a record is. -/
def FsRec.extentOf? (id : ℕ) : FsRec → Option FileExtent
  | .fileExtent id' e => if id' = id then some e else none
  | _ => none

/-- The directory records of a view. -/
def drecs (recs : List FsRec) : List ChildRec := recs.filterMap FsRec.dirRec?

/-- The records of a view by object id. -/
def contents (recs : List FsRec) : VolumeContents where
  inodes id := (Versions.table (·.1) (recs.filterMap FsRec.inode?) id).map (·.2)
  extents id :=
    match recs.filterMap (FsRec.extentOf? id) with
    | [] => none
    | es => some es

/-- `edges`: the directory record of each child. -/
def edges (recs : List FsRec) : ℕ → Option ChildRec := Versions.table (·.fileId) (drecs recs)

/-- `path_of`, from a child on; at the root, and at parent 0, the path begins. -/
def pathParts (edge : ℕ → Option ChildRec) : (guard cur : ℕ) → Option (List String)
  | 0, _ => some []
  | g + 1, cur => (edge cur).bind fun d =>
    if d.parentId = 2 ∨ d.parentId = 0 then some [d.name]
    else (pathParts edge g d.parentId).map (· ++ [d.name])

/-- The full path of a file. -/
def pathOf (recs : List FsRec) (fileId : ℕ) : Option String :=
  (pathParts (edges recs) 128 fileId).map ("/".intercalate ·)

/-- `present_names`: a view has a record for a name in a directory. -/
def isPresent (recs : List FsRec) (key : ℕ × String) : Bool :=
  (drecs recs).any fun d => d.key == key

/-- `live_ids`: an inode or a directory record of a view refers to an object id. -/
def isLiveId (recs : List FsRec) (id : ℕ) : Bool :=
  ((contents recs).inodes id).isSome || (drecs recs).any fun d => d.fileId == id

/-- A block has data of a live file. -/
def holdsLiveData (bs : ℕ) (recs : List FsRec) (b : ℕ) : Bool :=
  recs.any fun r =>
    match r with
    | .fileExtent _ e =>
      decide (e.physBlock ≠ 0 ∧ e.len ≠ 0 ∧ e.physBlock ≤ b ∧
        b < e.physBlock + min ((e.len + bs - 1) / bs) (2 ^ 20))
    | _ => false

/-- `live_bitmap_from`: the blocks with data of the files of a view. -/
def liveBitmapFrom (recs : List FsRec) : Option Bitmap :=
  let n := fs.newest.blockCount
  if n = 0 ∨ 512 * 2 ^ 20 < n then none
  else
    some (Bitmap.new fs.blockSize 0 n ((List.range ((n + 7) / 8)).map fun i =>
      (List.range 8).foldl (fun x j =>
        if i * 8 + j < n ∧ holdsLiveData (max fs.blockSize 1) recs (i * 8 + j) = true then
          x ||| (1 <<< UInt8.ofNat j)
        else x) 0))

end Apfs
end Reclaim
