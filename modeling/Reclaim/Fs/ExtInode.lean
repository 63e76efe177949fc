import Reclaim.Foundation.LittleEndian
import Reclaim.Fs.Extents

/-!
# Inodes of ext volumes

An inode maps the blocks of its file either by an extent tree, whose nodes list runs of blocks or
further nodes, or by the classic map of twelve pointers and three trees of pointer blocks.  Both are
collected into pairs of a logical and a physical block, which `runs_to_extents` sorts, coalesces and
cuts to the size.

The collected pairs know where a block belongs in the file, but the extents made of them do not.
-/

namespace Reclaim
namespace Ext

open FileBytes

/-- `EXTENT_MAGIC`. -/
def extentMagic : ℕ := 0xF30A

/-- `EXTENTS_FL`: the inode has an extent tree. -/
def extentsFl : ℕ := 0x00080000

/-- `MAX_FILE_BLOCKS`: cap on data blocks collected for one file. -/
def maxFileBlocks : ℕ := 8 * 1024 * 1024

/-- `MAX_EXTENT_DEPTH`: cap on extent-tree interior depth. -/
def maxExtentDepth : ℕ := 5

/-- `MAX_MAP_NODES`: cap on block-map nodes read per file. -/
def maxMapNodes : ℕ := 4096

/-- The geometry that the block maps depend on. -/
structure Superblock where
  blockSize : ℕ
  /-- 1 KiB to 64 KiB. -/
  valid : ∃ k ≤ 6, blockSize = 1024 * 2 ^ k

namespace Superblock

lemma blockSize_pos (sb : Superblock) : 0 < sb.blockSize := by
  obtain ⟨k, -, h⟩ := sb.valid
  rw [h]
  positivity

lemma blockSize_le (sb : Superblock) : sb.blockSize ≤ 2 ^ 16 := by
  obtain ⟨k, hk, h⟩ := sb.valid
  have : 2 ^ k ≤ 2 ^ 6 := Nat.pow_le_pow_right (by omega) hk
  rw [h]
  omega

lemma two_dvd_blockSize (sb : Superblock) : 2 ∣ sb.blockSize := by
  obtain ⟨k, -, h⟩ := sb.valid
  exact h ▸ Dvd.dvd.mul_right (by norm_num) _

end Superblock

/-- The fields of an inode that its entry is made of. -/
structure Inode where
  mode : ℕ
  size : ℕ
  flags : ℕ
  ctime : ℕ
  mtime : ℕ
  iBlock : Bytes
  size_le : size ≤ u64Max
  length_iBlock : iBlock.length = 60

namespace Inode

def isDir (i : Inode) : Bool := i.mode &&& 0xF000 == 0x4000

def isRegular (i : Inode) : Bool := i.mode &&& 0xF000 == 0x8000

end Inode

/-! ## The extent tree -/

/-- What is left of the budget, and the blocks collected: logical and physical number. -/
structure Collect where
  budget : ℕ
  out : List (ℕ × ℕ)

/-- A block more, unless there are too many already. -/
def Collect.push (c : Collect) (b : ℕ × ℕ) : Collect :=
  if maxFileBlocks < c.out.length then c else { c with out := c.out ++ [b] }

/-- The blocks of the `i`th entry of a leaf node. -/
def leafBlocks (node : Bytes) (i : ℕ) : List (ℕ × ℕ) :=
  let base := 12 + i * 12
  let logical := leU32 node base
  let raw := leU16 node (base + 4)
  let len := if 32768 < raw then raw - 32768 else raw
  let phys := leU16 node (base + 6) * 2 ^ 32 + leU32 node (base + 8)
  (List.range len).map fun b => (saturatingAdd logical b, saturatingAdd phys b)

/-- The block of the node that the `i`th entry of an index node names. -/
def childBlock (node : Bytes) (i : ℕ) : ℕ :=
  leU16 node (12 + i * 12 + 8) * 2 ^ 32 + leU32 node (12 + i * 12 + 4)

/-- The entries that a node holds in full. -/
def nodeEntries (node : Bytes) : List ℕ :=
  (List.range (leU16 node 2)).takeWhile fun i => 12 + i * 12 + 12 ≤ node.length

/-- `collect_extent_tree`, with `guard` levels left and `read` for the volume.  Once there are too
many blocks, the source leaves the node and the model lets the rest of it pass without effect. -/
def collectExtentTree (read : ℕ → ℕ → Bytes) (sb : Superblock) : ℕ → Bytes → Collect → Collect
  | 0, _, c => c
  | guard + 1, node, c =>
    if maxFileBlocks < c.out.length ∨ c.budget = 0 then c
    else
      let c := { c with budget := c.budget - 1 }
      if leU16 node 0 ≠ extentMagic then c
      else if leU16 node 4 < leU16 node 2 ∨ (node.length - 12) / 12 < leU16 node 4 then c
      else
        (nodeEntries node).foldl
          (fun c i =>
            if leU16 node 6 = 0 then (leafBlocks node i).foldl Collect.push c
            else
              collectExtentTree read sb guard
                (read (saturatingMul (childBlock node i) sb.blockSize) sb.blockSize) c) c

/-! ## The classic map -/

/-- A walk along the pointers, at a logical block. -/
structure Walk extends Collect where
  logical : ℕ

/-- `push_data_block`: a pointer of zero is a hole of one block. -/
def pushDataBlock (phys : ℕ) (w : Walk) : Walk where
  budget := w.budget
  out := if phys ≠ 0 then w.out ++ [(w.logical, phys)] else w.out
  logical := w.logical + 1

/-- Run `f` on each, and stop when there are too many blocks. -/
def untilFull (f : ℕ → Walk → Walk) : List ℕ → Walk → Walk
  | [], w => w
  | i :: is, w => if maxFileBlocks < (f i w).out.length then f i w else untilFull f is (f i w)

/-- The pointer at `i` in a pointer block. -/
def pointer (data : Bytes) (i : ℕ) : ℕ := leU32 data (i * 4)

/-- `walk_indirect`, of the block that holds `level` levels of pointers.  A block of zero is left
without moving on. -/
def walkIndirect (read : ℕ → ℕ → Bytes) (sb : Superblock) : ℕ → ℕ → Walk → Walk
  | 0, _, w => w
  | level + 1, block, w =>
    if block = 0 ∨ maxFileBlocks < w.out.length ∨ w.budget = 0 then w
    else
      let data := read (saturatingMul block sb.blockSize) sb.blockSize
      untilFull
        (fun i w =>
          if level = 0 then pushDataBlock (pointer data i) w
          else walkIndirect read sb level (pointer data i) w)
        (List.range (sb.blockSize / 4)) { w with budget := w.budget - 1 }

/-- `collect_classic`. -/
def collectClassic (read : ℕ → ℕ → Bytes) (sb : Superblock) (iBlock : Bytes) (budget : ℕ) :
    List (ℕ × ℕ) :=
  let direct := (List.range 12).foldl (fun w i => pushDataBlock (pointer iBlock i) w)
    ⟨⟨budget, []⟩, 0⟩
  (walkIndirect read sb 3 (pointer iBlock 14)
    (walkIndirect read sb 2 (pointer iBlock 13)
      (walkIndirect read sb 1 (pointer iBlock 12) direct))).out

/-! ## From blocks to extents -/

/-- A block behind the extents, joined to the last where that ends. -/
def addBlock (bs : ℕ) (es : List Extent) (pb : ℕ) : List Extent :=
  let off := saturatingMul pb bs
  match es.getLast? with
  | some last =>
    if saturatingAdd last.offset last.len = off then
      es.dropLast ++ [⟨last.offset, saturatingAdd last.len bs⟩]
    else es ++ [⟨off, bs⟩]
  | none => es ++ [⟨off, bs⟩]

/-- `trim_to_size`. -/
def trimToSize (es : List Extent) (size : ℕ) : List Extent :=
  if size = 0 then [] else trimExtentsTo size 0 es

/-- `runs_to_extents`. -/
def runsToExtents (sb : Superblock) (blocks : List (ℕ × ℕ)) (size : ℕ) : List Extent :=
  trimToSize
    ((blocks.mergeSort fun a b => a.1 ≤ b.1).foldl (fun es b => addBlock sb.blockSize es b.2) [])
    size

/-- `Inode::extents`. -/
def Inode.extents (read : ℕ → ℕ → Bytes) (sb : Superblock) (i : Inode) : List Extent :=
  runsToExtents sb
    (if i.flags &&& extentsFl ≠ 0 then
      (collectExtentTree read sb (maxExtentDepth + 1) i.iBlock ⟨maxMapNodes, []⟩).out
    else collectClassic read sb i.iBlock maxMapNodes)
    i.size

/-- The entry that the walk records for a directory entry's inode. -/
def entry (read : ℕ → ℕ → Bytes) (sb : Superblock) (dateFromEpoch : ℕ → Option String)
    (i : Inode) (name path : String) (state : EntryState) : Option Entry :=
  if i.isDir then none
  else
    let extents := i.extents read sb
    some { Entry.newFile name (if 0 < i.size then i.size else totalLen extents) state with
      kind := if i.isRegular then .file else .other
      path := some path
      created := dateFromEpoch i.ctime
      modified := dateFromEpoch i.mtime
      extents := extents }

end Ext
end Reclaim
