import Reclaim.Foundation.LittleEndian
import Reclaim.Foundation.NodeWalk
import Reclaim.Foundation.Unicode
import Reclaim.Fs.Apfs

/-!
# APFS objects, B-trees and records

Every object of a container begins with a header that has its checksum, its identifier and the
transaction that wrote it.  Object maps and file-system trees are B-trees of one format: a node has
a table of places in it, for keys that grow up and values that grow down.  The records of a
file-system tree are told apart by the top bits of their keys.
-/

namespace Reclaim
namespace Apfs

open FileBytes

/-! ## Objects -/

/-- The header of an object, `obj_phys_t`. -/
structure ObjPhys where
  /-- Stored Fletcher-64 checksum. -/
  cksum : ℕ
  /-- Object identifier. -/
  oid : ℕ
  /-- Transaction identifier. -/
  xid : ℕ
  oType : ℕ
  subtype : ℕ

/-- The header at the front of a block. -/
def ObjPhys.parse (block : Bytes) : Option ObjPhys :=
  if block.length < 32 then none
  else some
    { cksum := leU64 block 0
      oid := leU64 block 8
      xid := leU64 block 16
      oType := leU32 block 24
      subtype := leU32 block 28 }

/-- The object type without its flags. -/
def ObjPhys.kind (o : ObjPhys) : ℕ := o.oType % 65536

/-- The B-tree subtype. -/
def ObjPhys.subKind (o : ObjPhys) : ℕ := o.subtype % 65536

/-- The modulus of the checksum's sums. -/
def fletcherMod : ℕ := 0xffffffff

/-- Both sums of a Fletcher checksum, with one word more. -/
def fletcherAdd (s : ℕ × ℕ) (w : ℕ) : ℕ × ℕ :=
  ((s.1 + w) % fletcherMod, (s.2 + (s.1 + w) % fletcherMod) % fletcherMod)

/-- The words of four bytes that a string has. -/
def leWords : Bytes → List ℕ
  | a :: b :: c :: d :: rest => leValue [a, b, c, d] :: leWords rest
  | _ => []

/-- `fletcher64_check`: the checksum that a block ought to have. -/
def fletcher64Check (block : Bytes) : ℕ :=
  let s := (leWords (block.drop 8)).foldl fletcherAdd (0, 0)
  let c1 := fletcherMod - (s.1 + s.2) % fletcherMod
  let c2 := fletcherMod - (s.1 + c1) % fletcherMod
  c2 * 2 ^ 32 + c1

/-- `fletcher64_valid`. -/
def fletcher64Valid (block : Bytes) : Bool :=
  if block.length < 8 then false else leU64 block 0 == fletcher64Check block

/-! ## Nodes of B-trees -/

/-- A B-tree node: its header and its block. -/
structure Node where
  block : Bytes
  flags : ℕ
  /-- Zero at the leaves. -/
  level : ℕ
  nkeys : ℕ
  /-- Where the table begins behind the header. -/
  tableOff : ℕ
  tableLen : ℕ

/-- A block as a B-tree node. -/
def Node.parse (block : Bytes) : Option Node := do
  let obj ← ObjPhys.parse block
  guard (obj.kind = 2 ∨ obj.kind = 3)
  guard (56 ≤ block.length)
  some
    { block := block
      flags := leU16 block 32
      level := leU16 block 34
      nkeys := leU32 block 36
      tableOff := leU16 block 40
      tableLen := leU16 block 42 }

namespace Node

/-- A root has a trailer of forty bytes. -/
def isRoot (n : Node) : Bool := n.flags % 2 == 1

/-- Keys and values have the size that the tree has for them. -/
def fixed (n : Node) : Bool := n.flags / 4 % 2 == 1

/-- The node has records, not children. -/
def isLeaf (n : Node) : Bool := n.flags / 2 % 2 == 1 || n.level == 0

/-- Where the keys begin. -/
def keyArea (n : Node) : ℕ := 56 + n.tableOff + n.tableLen

/-- Where the values end. -/
def valBase (n : Node) : ℕ := n.block.length - if n.isRoot then 40 else 0

/-- An entry of the table: place and length of a key, place and length of its value. -/
def tocEntry (n : Node) (i : ℕ) : ℕ × ℕ × ℕ × ℕ :=
  let toc := 56 + n.tableOff
  if n.fixed then (leU16 n.block (toc + i * 4), 0, leU16 n.block (toc + i * 4 + 2), 0)
  else
    (leU16 n.block (toc + i * 8), leU16 n.block (toc + i * 8 + 2),
      leU16 n.block (toc + i * 8 + 4), leU16 n.block (toc + i * 8 + 6))

/-- `record`: the key and the value of an entry, if both lie in the node. -/
def record (n : Node) (fixedKey fixedVal : ℕ) (i : ℕ) : Option (Bytes × Bytes) := do
  let e := n.tocEntry i
  let key ← getRange n.block (n.keyArea + e.1) (if n.fixed then fixedKey else e.2.1)
  guard (e.2.2.1 ≤ n.valBase)
  let vlen := if n.fixed then if n.isLeaf then fixedVal else 8 else e.2.2.2
  let val ← getRange n.block (n.valBase - e.2.2.1) vlen
  some (key, val)

/-- The entries that are looked at: no more than the table has room for. -/
def entries (n : Node) : ℕ := min (min n.nkeys (2 ^ 20)) (n.tableLen / if n.fixed then 4 else 8)

/-- The keys and values of a node. -/
def records (n : Node) (fixedKey fixedVal : ℕ) : List (Bytes × Bytes) :=
  (List.range n.entries).filterMap (n.record fixedKey fixedVal)

end Node

/-- A B-tree whose pointers `fetch` follows: the child of a node is a node of a lower level. -/
def bTree (fetch : ℕ → Option Bytes) (fixedKey fixedVal : ℕ) :
    NodeWalk.Nodes ℕ Node (Bytes × Bytes) where
  view n :=
    if n.isLeaf then .inl (n.records fixedKey fixedVal)
    else .inr ((n.records fixedKey 8).map fun r => leU64 r.2 0)
  child n p := ((fetch p).bind Node.parse).filter fun c => decide (c.level < n.level)

/-- `walk_leaves`: the records of the leaves below a root, and what is left of the budget. -/
def walkLeaves (root : Node) (fetch : ℕ → Option Bytes) (fixedKey fixedVal budget : ℕ) :
    List (Bytes × Bytes) × ℕ :=
  NodeWalk.walk (bTree fetch fixedKey fixedVal) budget ([], [root])

/-! ## Records of a file-system tree -/

/-- `split_key`: the object identifier and the type of a record. -/
def splitKey (oat : ℕ) : ℕ × ℕ := (oat % 2 ^ 60, oat / 2 ^ 60)

/-- A directory record under its parent. -/
structure ChildRec extends DirRec where
  parentId : ℕ
  deriving DecidableEq

/-- The parent and the name that a directory record is found by. -/
def ChildRec.key (d : ChildRec) : ℕ × String := (d.parentId, d.name)

/-- The bytes before the first zero. -/
def untilZero (b : Bytes) : Bytes := b.takeWhile (· != 0)

/-- `parse_dir_rec`; `hashed` is the layout of the keys on volumes whose names are looked up by a
hash. -/
def parseDirRec (parentId : ℕ) (key val : Bytes) (hashed : Bool) : Option ChildRec := do
  let nameOff := if hashed then 12 else 10
  let nameLen := if hashed then leU32 key 8 % 1024 else leU16 key 8
  guard (nameLen ≠ 0 ∧ nameLen ≤ 1024)
  let field ← getRange key nameOff nameLen
  let raw := untilZero field
  guard (raw ≠ [])
  some
    { parentId := parentId
      name := Text.fromUtf8Lossy raw
      fileId := leU64 val 0
      isDir := leU16 val 16 % 16 == 4
      dateAdded := leU64 val 8 }

/-- The last size that the extended fields have: `n` of them are left, with their headers at `hdr`
and their payloads at `data`. -/
def xfieldSize (blob : Bytes) : (n hdr data : ℕ) → Option ℕ → Option ℕ
  | 0, _, _, size => size
  | n + 1, hdr, data, size =>
    let xSize := leU16 blob (hdr + 2)
    let size :=
      if byteAt blob hdr = 8 then ((getRange blob data xSize).map fun p => leU64 p 0).or size
      else size
    xfieldSize blob n (hdr + 4) (data + (xSize + 7) / 8 * 8) size

/-- `parse_inode_xfields`: the size of the data stream. -/
def parseInodeXfields (val : Bytes) : Option ℕ :=
  if val.length < 92 + 4 then none
  else
    let blob := val.drop 92
    let numExts := leU16 blob 0
    xfieldSize blob (min numExts 64) 4 (4 + numExts * 4) none

lemma xfieldSize_le (blob : Bytes) (n hdr data : ℕ) (size : Option ℕ)
    (h : ∀ s ∈ size, s ≤ u64Max) : ∀ s ∈ xfieldSize blob n hdr data size, s ≤ u64Max := by
  induction n generalizing hdr data size with
  | zero => exact h
  | succ n ih =>
    apply ih _ _ _
    split
    · intro s hs
      cases hp : getRange blob data (leU16 blob (hdr + 2)) with
      | none =>
        rw [hp] at hs
        exact h s hs
      | some p =>
        rw [hp] at hs
        obtain rfl := Option.some.inj hs
        exact Nat.le_pred_of_lt (leU64_lt p 0)
    · exact h

lemma parseInodeXfields_le (val : Bytes) : ∀ s ∈ parseInodeXfields val, s ≤ u64Max := by
  unfold parseInodeXfields
  split
  · intro s hs
    cases hs
  · apply xfieldSize_le _ _ _ _ _
    intro s hs
    cases hs

/-- `parse_inode`. -/
def parseInode (val : Bytes) : Inode where
  size := parseInodeXfields val
  createTime := leU64 val 16
  modTime := leU64 val 24
  size_le := parseInodeXfields_le val

/-- `parse_file_extent`; the top byte of the length has flags. -/
def parseFileExtent (key val : Bytes) : FileExtent where
  logical := leU64 key 8
  len := leU64 val 0 % 2 ^ 56
  physBlock := leU64 val 8

/-- A record of a file-system tree that says something about a file. -/
inductive FsRec where
  | inode (id : ℕ) (i : Inode)
  | dirRec (d : ChildRec)
  | fileExtent (id : ℕ) (e : FileExtent)
  deriving DecidableEq

/-- `absorb`: what a key and its value are. -/
def FsRec.parse (hashed : Bool) (kv : Bytes × Bytes) : Option FsRec :=
  if kv.1.length < 8 then none
  else
    let oat := splitKey (leU64 kv.1 0)
    if oat.2 = 3 then some (.inode oat.1 (parseInode kv.2))
    else if oat.2 = 9 then (parseDirRec oat.1 kv.1 kv.2 hashed).map .dirRec
    else if oat.2 = 8 then some (.fileExtent oat.1 (parseFileExtent kv.1 kv.2))
    else none

/-- What a record of a tree is found by. -/
inductive RecKey where
  | inode (id : ℕ)
  | dirRec (parentId : ℕ) (name : String)
  | fileExtent (id logical : ℕ)
  deriving DecidableEq

/-- The key of a record. -/
def FsRec.key : FsRec → RecKey
  | .inode id _ => .inode id
  | .dirRec d => .dirRec d.parentId d.name
  | .fileExtent id e => .fileExtent id e.logical

end Apfs
end Reclaim
