import Reclaim.Block.ReadResult
import Reclaim.Fs.ExtMap
import Reclaim.Fs.FatOpen

/-!
# Inode numbers of ext volumes

The superblock says how large blocks and inodes are and how many inodes a group has, and the table
of groups where the inodes of each begin.  `inode_location` goes from the number of an inode to its
place.  `harvest_inode_block` goes the other way, from the places in a copy of a block that the
journal holds to the numbers of the inodes there.
-/

namespace Reclaim
namespace Ext

open FileBytes

/-- `EXT_MAGIC`. -/
def extMagic : ℕ := 0xEF53

/-- `INCOMPAT_64BIT`. -/
def incompat64Bit : ℕ := 0x0080

/-- A block group's descriptor. -/
structure GroupDesc where
  blockBitmap : ℕ
  inodeTable : ℕ

/-- `Superblock`: the geometry of the volume, with the descriptors of its groups. -/
structure Geometry where
  blockSize : ℕ
  inodeSize : ℕ
  inodesCount : ℕ
  blocksCount : ℕ
  firstDataBlock : ℕ
  blocksPerGroup : ℕ
  inodesPerGroup : ℕ
  descSize : ℕ
  has64Bit : Bool
  journalInum : ℕ
  groups : List GroupDesc
  foundAtGroup : ℕ

namespace Geometry

variable (sb : Geometry)

/-- `inode_location`: the byte offset of an inode, numbered from 1. -/
def inodeLocation (ino : ℕ) : Option ℕ :=
  if ino = 0 ∨ sb.inodesPerGroup = 0 then none
  else
    (sb.groups[(ino - 1) / sb.inodesPerGroup]?).map fun gd =>
      saturatingAdd (saturatingMul gd.inodeTable sb.blockSize)
        (saturatingMul ((ino - 1) % sb.inodesPerGroup) sb.inodeSize)

/-- `group_count`. -/
def groupCount : ℕ :=
  if sb.blocksPerGroup = 0 then 0
  else divCeil (sb.blocksCount - sb.firstDataBlock) sb.blocksPerGroup

end Geometry

/-! ## Reading the superblock -/

/-- `read_lo_hi`. -/
def readLoHi (b : Bytes) (lo hi : ℕ) (has64 : Bool) : ℕ :=
  if has64 then leU32 b lo + leU32 b hi * 2 ^ 32 else leU32 b lo

/-- `read_group_descs`. -/
def readGroupDescs (v : Volume) (sb : Geometry) : List GroupDesc :=
  -- no more groups than the source can hold
  let addressable := saturatingAdd
    (divCeil (v.len / max sb.blockSize 1) (max sb.blocksPerGroup 1)) 1
  let ngroups := min (min sb.groupCount addressable) 65536
  let gdtOff := saturatingMul (sb.firstDataBlock + 1) sb.blockSize
  let total := min (saturatingMul ngroups sb.descSize) (v.len - gdtOff)
  let bytes := v.read gdtOff total
  (List.range ngroups).map fun g =>
    let base := g * sb.descSize
    ⟨readLoHi bytes base (base + 0x20) sb.has64Bit,
      readLoHi bytes (base + 8) (base + 0x28) sb.has64Bit⟩

/-- The superblock has 64-bit block numbers. -/
def is64Bit (sb : Bytes) : Bool := leU32 sb 0x60 &&& incompat64Bit ≠ 0

/-- The fields of a superblock. -/
def fieldsOf (sb : Bytes) (foundGroup : ℕ) : Geometry where
  blockSize := 1024 * 2 ^ leU32 sb 0x18
  inodeSize := if 1 ≤ leU32 sb 0x4C then max (leU16 sb 0x58) 128 else 128
  inodesCount := leU32 sb 0
  blocksCount := readLoHi sb 0x04 0x150 (is64Bit sb)
  firstDataBlock := leU32 sb 0x14
  blocksPerGroup := leU32 sb 0x20
  inodesPerGroup := leU32 sb 0x28
  descSize := if is64Bit sb then leU16 sb 0xFE else 32
  has64Bit := is64Bit sb
  journalInum := leU32 sb 0xE0
  groups := []
  foundAtGroup := foundGroup

/-- `parse_at`: the superblock at byte `off`, found in `foundGroup`. -/
def parseAt (v : Volume) (off foundGroup : ℕ) : Option Geometry :=
  let sb := v.read off 1024
  if leU16 sb 0x38 ≠ extMagic then none
  else if 6 < leU32 sb 0x18 then none
  else if is64Bit sb ∧ leU16 sb 0xFE ∉ [64, 128, 256, 512, 1024] then none
  else if leU32 sb 0x20 = 0 ∨ leU32 sb 0x28 = 0 then none
  else
    let me := fieldsOf sb foundGroup
    if readGroupDescs v me = [] then none else some { me with groups := readGroupDescs v me }

/-- `backup_groups`: the groups below `limit` that hold a copy of the superblock. -/
def backupGroups (limit : ℕ) : List ℕ :=
  ((1 :: [3, 5, 7].flatMap fun base =>
    ((List.range 32).map fun k => base ^ (k + 1)).takeWhile (· < limit)).mergeSort).dedup

/-- `first_data_block_for`. -/
def firstDataBlockFor (blockSize : ℕ) : ℕ := if blockSize = 1024 then 1 else 0

/-- `read_superblock`: the superblock, or the first copy of it that fits the block size for which
it was looked up. -/
def readSuperblock (v : Volume) : Option Geometry :=
  (parseAt v 1024 0).or <|
    (backupGroups 4096).findSome? fun g =>
      [1024, 4096, 2048, 8192, 16384, 32768, 65536].findSome? fun bs =>
        (parseAt v (saturatingMul (g * (bs * 8) + firstDataBlockFor bs) bs) g).filter
          fun sb => sb.blockSize = bs

/-- What the parser makes sure of. -/
structure Geometry.Accepted (sb : Geometry) : Prop where
  blockSize : ∃ k ≤ 6, sb.blockSize = 1024 * 2 ^ k
  inodeSize_ge : 128 ≤ sb.inodeSize
  inodeSize_lt : sb.inodeSize < 2 ^ 16
  inodesPerGroup_pos : 0 < sb.inodesPerGroup
  inodesPerGroup_lt : sb.inodesPerGroup < 2 ^ 32
  groups_ne : sb.groups ≠ []
  groups_le : sb.groups.length ≤ 65536

lemma inodeSize_fieldsOf (b : Bytes) (g : ℕ) :
    128 ≤ (fieldsOf b g).inodeSize ∧ (fieldsOf b g).inodeSize < 2 ^ 16 := by
  have hsize := leU16_lt b 0x58
  unfold fieldsOf
  dsimp only
  split
  · exact ⟨le_max_right .., max_lt hsize (by omega)⟩
  · omega

lemma length_readGroupDescs_le (v : Volume) (sb : Geometry) :
    (readGroupDescs v sb).length ≤ 65536 := by
  unfold readGroupDescs
  dsimp only
  rw [List.length_map, List.length_range]
  exact min_le_right ..

lemma accepted_of_parseAt {v : Volume} {off g : ℕ} {sb : Geometry} (h : parseAt v off g = some sb) :
    sb.Accepted := by
  unfold parseAt at h
  generalize v.read off 1024 = b at h
  dsimp only at h
  split_ifs at h with hmagic hlog hdesc hzero hgroups
  have hsize := inodeSize_fieldsOf b g
  obtain rfl := Option.some.inj h
  exact
    { blockSize := ⟨_, not_lt.1 hlog, rfl⟩
      inodeSize_ge := hsize.1
      inodeSize_lt := hsize.2
      inodesPerGroup_pos := Nat.pos_of_ne_zero (not_or.1 hzero).2
      inodesPerGroup_lt := leU32_lt ..
      groups_ne := hgroups
      groups_le := length_readGroupDescs_le v _ }

/-- **The parser's bounds**, wherever the superblock was found. -/
lemma accepted_of_readSuperblock {v : Volume} {sb : Geometry} (h : readSuperblock v = some sb) :
    sb.Accepted := by
  unfold readSuperblock at h
  rw [Option.or_eq_some_iff] at h
  obtain h | ⟨-, h⟩ := h
  · exact accepted_of_parseAt h
  · obtain ⟨g, -, hg⟩ := List.exists_of_findSome?_eq_some h
    obtain ⟨bs, -, hbs⟩ := List.exists_of_findSome?_eq_some hg
    exact accepted_of_parseAt (Option.filter_eq_some_iff.1 hbs).1

/-! ## The harvest -/

/-- An inode with the fields that say whether it was deleted. -/
structure JournalInode extends Inode where
  dtime : ℕ
  links : ℕ

/-- `parse_inode_bytes`. -/
def parseInodeBytes (raw : Bytes) : Option JournalInode :=
  if h : raw.length < 128 then none
  else
    some
      { mode := leU16 raw 0x00
        size :=
          if leU16 raw 0x00 &&& 0xF000 = 0x8000 then leU32 raw 0x6C * 2 ^ 32 + leU32 raw 0x04
          else leU32 raw 0x04
        flags := leU32 raw 0x20
        ctime := leU32 raw 0x0C
        mtime := leU32 raw 0x10
        iBlock := (raw.drop 0x28).take 60
        size_le := by
          have hlo := leU32_lt raw 0x04
          have hhi := leU32_lt raw 0x6C
          unfold u64Max
          split <;> omega
        length_iBlock := by
          rw [List.length_take, List.length_drop]
          omega
        dtime := leU32 raw 0x14
        links := leU16 raw 0x1A }

/-- `inode_map_empty`. -/
def Inode.mapEmpty (i : Inode) : Bool := i.iBlock.all (· = 0)

namespace Geometry

variable (sb : Geometry)

/-- The inodes that the harvest looks for in a block. -/
def inodesPerBlock : ℕ := sb.blockSize / max sb.inodeSize 1

/-- The blocks that the harvest takes for a group's inode table. -/
def tableBlocks : ℕ :=
  max (saturatingMul sb.inodesPerGroup sb.inodeSize / max sb.blockSize 1) 1

/-- The block is in the inode table of the group. -/
def inTable (fsBlock : ℕ) (g : GroupDesc) : Bool :=
  g.inodeTable ≤ fsBlock ∧ fsBlock < saturatingAdd g.inodeTable sb.tableBlocks

/-- The places of inodes in a block of a table, with the numbers that the harvest gives them: those
of the first group in whose table the block is. -/
def harvestSlots (fsBlock : ℕ) : List (ℕ × ℕ) :=
  match sb.groups.zipIdx.find? fun g => sb.inTable fsBlock g.1 with
  | none => []
  | some (g, gi) =>
    let firstInoIndex := saturatingMul (fsBlock - g.inodeTable) sb.inodesPerBlock
    (List.range sb.inodesPerBlock).filterMap fun k =>
      let ino := saturatingAdd
        (saturatingAdd (saturatingMul gi sb.inodesPerGroup) (saturatingAdd firstInoIndex k)) 1
      if ino < 2 ^ 32 then some (saturatingMul k sb.inodeSize, ino) else none

/-- The inode at a place is kept if it has a map, and none with its number is known already. -/
def harvestSlot (blk : Bytes) (out : ℕ → Option JournalInode) (slot : ℕ × ℕ) :
    ℕ → Option JournalInode :=
  match (getRange blk slot.1 sb.inodeSize).bind parseInodeBytes with
  | none => out
  | some inode =>
    if 0 < inode.size ∧ inode.mapEmpty = false ∧ out slot.2 = none then
      fun ino => if ino = slot.2 then some inode else out ino
    else out

/-- `harvest_inode_block`. -/
def harvestInodeBlock (fsBlock : ℕ) (blk : Bytes) (out : ℕ → Option JournalInode) :
    ℕ → Option JournalInode :=
  (sb.harvestSlots fsBlock).foldl (sb.harvestSlot blk) out

variable {sb} in
lemma harvestSlot_eq_some {blk : Bytes} {out : ℕ → Option JournalInode} {slot : ℕ × ℕ} {ino : ℕ}
    {inode : JournalInode} (h : sb.harvestSlot blk out slot ino = some inode) :
    out ino = some inode ∨
      (slot.2 = ino ∧ (getRange blk slot.1 sb.inodeSize).bind parseInodeBytes = some inode) := by
  unfold harvestSlot at h
  cases hread : (getRange blk slot.1 sb.inodeSize).bind parseInodeBytes with
  | none =>
    rw [hread] at h
    exact .inl h
  | some found =>
    rw [hread] at h
    dsimp only at h
    split at h
    · dsimp only at h
      split at h
      · exact .inr ⟨Eq.symm ‹_›, h⟩
      · exact .inl h
    · exact .inl h

variable {sb} in
/-- **What the harvest finds** is at a place to which it gives the number. -/
lemma slot_of_harvest {fsBlock ino : ℕ} {blk : Bytes} {out : ℕ → Option JournalInode}
    {inode : JournalInode} (h : sb.harvestInodeBlock fsBlock blk out ino = some inode) :
    out ino = some inode ∨ ∃ off, (off, ino) ∈ sb.harvestSlots fsBlock ∧
      (getRange blk off sb.inodeSize).bind parseInodeBytes = some inode := by
  unfold harvestInodeBlock at h
  generalize sb.harvestSlots fsBlock = slots at h ⊢
  induction slots generalizing out with
  | nil => exact .inl h
  | cons slot slots ih =>
    rw [List.foldl_cons] at h
    obtain hout | ⟨off, hoff, hread⟩ := ih h
    · obtain hout | ⟨rfl, hread⟩ := harvestSlot_eq_some hout
      · exact .inl hout
      · exact .inr ⟨slot.1, List.mem_cons_self, hread⟩
    · exact .inr ⟨off, List.mem_cons_of_mem _ hoff, hread⟩

/-! ### Places and numbers -/

/-- Where the `j`th inode of a group is, if 64 bits reach there. -/
def place (g : GroupDesc) (j : ℕ) : ℕ := g.inodeTable * sb.blockSize + j * sb.inodeSize

/-- The inodes of a group fill whole blocks, 64 bits reach all of them, and none is in what is
taken for the table of a group before its own. -/
structure Regular (sb : Geometry) : Prop where
  whole : sb.inodesPerGroup = sb.inodesPerBlock ∨
    (sb.inodeSize ∣ sb.blockSize ∧ sb.inodesPerBlock ∣ sb.inodesPerGroup)
  reach : ∀ (gi : ℕ) (hg : gi < sb.groups.length), ∀ j < sb.inodesPerGroup,
    gi * sb.inodesPerGroup + j + 1 < 2 ^ 32 → sb.place sb.groups[gi] j ≤ u64Max
  apart : ∀ (gi : ℕ) (hg : gi < sb.groups.length), ∀ j < sb.inodesPerGroup,
    gi * sb.inodesPerGroup + j + 1 < 2 ^ 32 → ∀ (k : ℕ) (hk : k < gi),
      sb.inTable (sb.place sb.groups[gi] j / sb.blockSize) sb.groups[k] = false

variable {sb}

/-- The first group in whose table a block is. -/
lemma find_table {fsBlock gi : ℕ} {g : GroupDesc} :
    sb.groups.zipIdx.find? (fun g => sb.inTable fsBlock g.1) = some (g, gi) ↔
      ∃ hg : gi < sb.groups.length, sb.groups[gi] = g ∧ sb.inTable fsBlock g = true ∧
        ∀ (k : ℕ) (hk : k < gi), sb.inTable fsBlock sb.groups[k] = false := by
  rw [List.find?_eq_some_iff_getElem]
  constructor
  · rintro ⟨htable, i, hi, hget, hbefore⟩
    rw [List.getElem_zipIdx, Nat.zero_add, Prod.mk.injEq] at hget
    obtain ⟨hg, rfl⟩ := hget
    rw [List.length_zipIdx] at hi
    refine ⟨hi, hg, htable, fun k hk => ?_⟩
    have hnot := hbefore k hk
    rwa [List.getElem_zipIdx, Bool.not_eq_true'] at hnot
  · rintro ⟨hg, hget, htable, hbefore⟩
    refine ⟨htable, gi, by rwa [List.length_zipIdx], ?_, fun k hk => ?_⟩
    · rw [List.getElem_zipIdx, hget, Nat.zero_add]
    · rw [List.getElem_zipIdx, Bool.not_eq_true']
      exact hbefore k hk

lemma inTable_iff {fsBlock : ℕ} {g : GroupDesc} : sb.inTable fsBlock g = true ↔
    g.inodeTable ≤ fsBlock ∧ fsBlock < saturatingAdd g.inodeTable sb.tableBlocks := by
  unfold inTable
  exact decide_eq_true_iff

section Numbers

variable (h : sb.Accepted)

include h

lemma blockSize_le_of_accepted : 1024 ≤ sb.blockSize ∧ sb.blockSize ≤ 2 ^ 16 := by
  obtain ⟨k, hk, hbs⟩ := h.blockSize
  have hlow : 1 ≤ 2 ^ k := Nat.one_le_two_pow
  have hhigh : 2 ^ k ≤ 2 ^ 6 := Nat.pow_le_pow_right (by omega) hk
  omega

lemma inodesPerBlock_eq : sb.inodesPerBlock = sb.blockSize / sb.inodeSize := by
  have hsize := h.inodeSize_ge
  rw [inodesPerBlock, max_eq_left (by omega)]

lemma inodesPerBlock_le : sb.inodesPerBlock * sb.inodeSize ≤ sb.blockSize ∧
    sb.inodesPerBlock ≤ 512 := by
  have hsize := h.inodeSize_ge
  have hbs := blockSize_le_of_accepted h
  rw [inodesPerBlock_eq h]
  refine ⟨Nat.div_mul_le_self .., ?_⟩
  calc sb.blockSize / sb.inodeSize ≤ sb.blockSize / 128 := Nat.div_le_div_left hsize (by omega)
    _ ≤ 512 := by omega

lemma table_le : sb.inodesPerGroup * sb.inodeSize ≤ 2 ^ 48 := by
  have hsize := h.inodeSize_lt
  have hcount := h.inodesPerGroup_lt
  calc sb.inodesPerGroup * sb.inodeSize ≤ 2 ^ 32 * 2 ^ 16 := Nat.mul_le_mul (by omega) (by omega)
    _ = 2 ^ 48 := by norm_num

lemma tableBlocks_eq :
    sb.tableBlocks = max (sb.inodesPerGroup * sb.inodeSize / sb.blockSize) 1 := by
  have hbs := blockSize_le_of_accepted h
  have htable := table_le h
  unfold tableBlocks
  rw [saturatingMul, min_eq_left (by unfold u64Max; omega),
    max_eq_left (by omega : 1 ≤ sb.blockSize)]

lemma tableBlocks_le : sb.tableBlocks ≤ 2 ^ 38 := by
  have hbs := blockSize_le_of_accepted h
  have htable := table_le h
  rw [tableBlocks_eq h]
  apply max_le
  · calc sb.inodesPerGroup * sb.inodeSize / sb.blockSize ≤ 2 ^ 48 / 1024 :=
          Nat.div_le_div htable hbs.1 (by omega)
      _ ≤ 2 ^ 38 := by norm_num
  · norm_num

/-- **The slots of a block** are those of the first group in whose table it is. -/
lemma mem_harvestSlots {fsBlock off ino : ℕ} :
    (off, ino) ∈ sb.harvestSlots fsBlock ↔
      ∃ (gi : ℕ) (hg : gi < sb.groups.length), sb.inTable fsBlock sb.groups[gi] = true ∧
        (∀ (k : ℕ) (hk : k < gi), sb.inTable fsBlock sb.groups[k] = false) ∧
        ∃ k < sb.inodesPerBlock, off = k * sb.inodeSize ∧ ino < 2 ^ 32 ∧
          ino = gi * sb.inodesPerGroup +
            ((fsBlock - sb.groups[gi].inodeTable) * sb.inodesPerBlock + k) + 1 := by
  have hper := inodesPerBlock_le h
  -- no sum or product on the way is cut off
  have hnumber : ∀ {gi d k : ℕ}, gi < sb.groups.length → d < sb.tableBlocks →
      k < sb.inodesPerBlock →
      saturatingMul k sb.inodeSize = k * sb.inodeSize ∧
        saturatingAdd (saturatingAdd (saturatingMul gi sb.inodesPerGroup)
          (saturatingAdd (saturatingMul d sb.inodesPerBlock) k)) 1 =
        gi * sb.inodesPerGroup + (d * sb.inodesPerBlock + k) + 1 := by
    intro gi d k hgi hd hk
    have hblocks := tableBlocks_le h
    have hgroups := h.groups_le
    have hbs := blockSize_le_of_accepted h
    have hgroup : gi * sb.inodesPerGroup ≤ 2 ^ 50 :=
      (Nat.mul_le_mul (by omega : gi ≤ 2 ^ 16) h.inodesPerGroup_lt.le).trans (by norm_num)
    have hindex : d * sb.inodesPerBlock ≤ 2 ^ 50 :=
      (Nat.mul_le_mul (hd.le.trans hblocks) hper.2).trans (by norm_num)
    have hoff : k * sb.inodeSize ≤ 2 ^ 50 :=
      ((Nat.mul_le_mul_right _ hk.le).trans (hper.1.trans hbs.2)).trans (by norm_num)
    have hk512 : k ≤ 512 := hk.le.trans hper.2
    have hfits : ∀ {a : ℕ}, a ≤ 2 ^ 53 → a ≤ u64Max := fun ha => ha.trans (by decide)
    have hidx : saturatingAdd (d * sb.inodesPerBlock) k = d * sb.inodesPerBlock + k :=
      saturatingAdd_of_le (hfits (by omega))
    have hsum : saturatingAdd (gi * sb.inodesPerGroup) (d * sb.inodesPerBlock + k) =
        gi * sb.inodesPerGroup + (d * sb.inodesPerBlock + k) :=
      saturatingAdd_of_le (hfits (by omega))
    rw [saturatingMul_of_le (hfits (hoff.trans (by norm_num))),
      saturatingMul_of_le (hfits (hgroup.trans (by norm_num))),
      saturatingMul_of_le (hfits (hindex.trans (by norm_num))), hidx, hsum]
    exact ⟨rfl, saturatingAdd_of_le (hfits (by omega))⟩
  have hdist : ∀ {g : GroupDesc}, sb.inTable fsBlock g = true →
      fsBlock - g.inodeTable < sb.tableBlocks := by
    intro g hg
    obtain ⟨hlow, hhigh⟩ := inTable_iff.1 hg
    have := hhigh.trans_le (min_le_left ..)
    omega
  unfold harvestSlots
  constructor
  · intro hmem
    cases hfind : sb.groups.zipIdx.find? fun g => sb.inTable fsBlock g.1 with
    | none =>
      rw [hfind] at hmem
      cases hmem
    | some found =>
      obtain ⟨g, gi⟩ := found
      rw [hfind] at hmem
      obtain ⟨k, hk, hslot⟩ := List.mem_filterMap.1 hmem
      rw [List.mem_range] at hk
      obtain ⟨hg, rfl, htable, hbefore⟩ := find_table.1 hfind
      obtain ⟨hoff, hino⟩ := hnumber hg (hdist htable) hk
      rw [hoff, hino] at hslot
      dsimp only at hslot
      split at hslot
      · rename_i hlt
        obtain ⟨rfl, rfl⟩ := Prod.mk.inj (Option.some.inj hslot)
        exact ⟨gi, hg, htable, hbefore, k, hk, rfl, hlt, rfl⟩
      · cases hslot
  · rintro ⟨gi, hg, htable, hbefore, k, hk, rfl, hlt, rfl⟩
    obtain ⟨hoff, hino⟩ := hnumber hg (hdist htable) hk
    rw [find_table.2 ⟨hg, rfl, htable, hbefore⟩]
    apply List.mem_filterMap.2 ⟨k, List.mem_range.2 hk, _⟩
    dsimp only
    rw [hoff, hino, if_pos hlt]

/-- An inode number is that of a place in a group. -/
lemma exists_number {ino : ℕ} (hino : ino ≠ 0) :
    ∃ gi, ∃ j < sb.inodesPerGroup, ino = gi * sb.inodesPerGroup + j + 1 := by
  refine ⟨(ino - 1) / sb.inodesPerGroup, (ino - 1) % sb.inodesPerGroup,
    Nat.mod_lt _ h.inodesPerGroup_pos, ?_⟩
  have hsplit := Nat.div_add_mod' (ino - 1) sb.inodesPerGroup
  omega

lemma location_number (gi : ℕ) {j : ℕ} (hj : j < sb.inodesPerGroup) :
    sb.inodeLocation (gi * sb.inodesPerGroup + j + 1) =
      (sb.groups[gi]?).map fun g => min (sb.place g j) u64Max := by
  have hpos := h.inodesPerGroup_pos
  have hdiv : (j + gi * sb.inodesPerGroup) / sb.inodesPerGroup = gi := by
    rw [Nat.add_mul_div_right _ _ hpos, Nat.div_eq_of_lt hj, Nat.zero_add]
  have hmod : (j + gi * sb.inodesPerGroup) % sb.inodesPerGroup = j := by
    rw [Nat.add_mul_mod_self_right, Nat.mod_eq_of_lt hj]
  unfold inodeLocation
  rw [if_neg (by omega), Nat.add_sub_cancel, Nat.add_comm _ j, hdiv, hmod]
  congr 1
  funext g
  unfold saturatingAdd saturatingMul place
  omega

/-- Inodes that divide a block fill it. -/
lemma block_of_dvd (hdvd : sb.inodeSize ∣ sb.blockSize) :
    sb.inodesPerBlock * sb.inodeSize = sb.blockSize ∧ 0 < sb.inodesPerBlock := by
  have hbs := blockSize_le_of_accepted h
  have hblock : sb.inodesPerBlock * sb.inodeSize = sb.blockSize := by
    rw [inodesPerBlock_eq h]
    exact Nat.div_mul_cancel hdvd
  refine ⟨hblock, Nat.pos_of_ne_zero fun h0 => ?_⟩
  rw [h0, Nat.zero_mul] at hblock
  omega

/-- So many full blocks of inodes are so many blocks. -/
lemma table_of_dvd (hdvd : sb.inodeSize ∣ sb.blockSize) {q : ℕ}
    (hq : sb.inodesPerGroup = sb.inodesPerBlock * q) :
    sb.inodesPerGroup * sb.inodeSize / sb.blockSize = q := by
  have hbs := blockSize_le_of_accepted h
  have hmul : sb.inodesPerGroup * sb.inodeSize = q * sb.blockSize := by
    rw [hq, ← (block_of_dvd h hdvd).1]
    ring
  rw [hmul, Nat.mul_div_cancel _ (by omega)]

/-- A place of a table holds the inode that its number says. -/
lemma index_of_whole (hw : sb.inodesPerGroup = sb.inodesPerBlock ∨
      (sb.inodeSize ∣ sb.blockSize ∧ sb.inodesPerBlock ∣ sb.inodesPerGroup))
    {d k : ℕ} (hd : d < sb.tableBlocks) (hk : k < sb.inodesPerBlock) :
    d * sb.inodesPerBlock + k < sb.inodesPerGroup ∧
      (d * sb.inodesPerBlock + k) * sb.inodeSize = d * sb.blockSize + k * sb.inodeSize := by
  have hbs := blockSize_le_of_accepted h
  have hper := inodesPerBlock_le h
  have hsize := h.inodeSize_ge
  rw [tableBlocks_eq h] at hd
  obtain hone | ⟨hdvd, q, hq⟩ := hw
  · have hfull : sb.inodesPerGroup * sb.inodeSize / sb.blockSize ≤ 1 := by
      rw [hone]
      calc sb.inodesPerBlock * sb.inodeSize / sb.blockSize ≤ sb.blockSize / sb.blockSize :=
            Nat.div_le_div_right hper.1
        _ = 1 := Nat.div_self (by omega)
    obtain rfl : d = 0 := by omega
    rw [Nat.zero_mul, Nat.zero_mul, Nat.zero_add, Nat.zero_add]
    exact ⟨by omega, rfl⟩
  · obtain ⟨hblock, -⟩ := block_of_dvd h hdvd
    have hpos := h.inodesPerGroup_pos
    have hqpos : 0 < q := by
      rcases Nat.eq_zero_or_pos q with rfl | hq0
      · rw [Nat.mul_zero] at hq
        omega
      · exact hq0
    have hcount := table_of_dvd h hdvd hq
    rw [hcount, max_eq_left hqpos] at hd
    constructor
    · calc d * sb.inodesPerBlock + k < d * sb.inodesPerBlock + sb.inodesPerBlock := by omega
        _ = (d + 1) * sb.inodesPerBlock := (Nat.succ_mul ..).symm
        _ ≤ q * sb.inodesPerBlock := Nat.mul_le_mul_right _ hd
        _ = sb.inodesPerGroup := by rw [hq, Nat.mul_comm]
    · rw [← hblock]
      ring

/-- An inode is in one of the table's blocks, at one of its places. -/
lemma place_of_whole (hw : sb.inodesPerGroup = sb.inodesPerBlock ∨
      (sb.inodeSize ∣ sb.blockSize ∧ sb.inodesPerBlock ∣ sb.inodesPerGroup))
    {j : ℕ} (hj : j < sb.inodesPerGroup) :
    ∃ d < sb.tableBlocks, ∃ k < sb.inodesPerBlock, j = d * sb.inodesPerBlock + k ∧
      j * sb.inodeSize / sb.blockSize = d ∧ j * sb.inodeSize % sb.blockSize = k * sb.inodeSize := by
  have hbs := blockSize_le_of_accepted h
  have hper := inodesPerBlock_le h
  have hsize := h.inodeSize_ge
  have hmax : 1 ≤ sb.tableBlocks := le_max_right ..
  obtain hone | ⟨hdvd, q, hq⟩ := hw
  · have hlt : j * sb.inodeSize < sb.blockSize :=
      (Nat.mul_lt_mul_of_pos_right (by omega) (by omega)).trans_le hper.1
    exact ⟨0, hmax, j, by omega, by omega, Nat.div_eq_of_lt hlt, Nat.mod_eq_of_lt hlt⟩
  · obtain ⟨hblock, hnpos⟩ := block_of_dvd h hdvd
    have hcount := table_of_dvd h hdvd hq
    refine ⟨j / sb.inodesPerBlock, ?_, j % sb.inodesPerBlock, Nat.mod_lt _ hnpos,
      (Nat.div_add_mod' ..).symm, ?_, ?_⟩
    · rw [tableBlocks_eq h, hcount]
      apply lt_of_lt_of_le _ (le_max_left ..)
      rw [Nat.div_lt_iff_lt_mul hnpos, Nat.mul_comm, ← hq]
      exact hj
    · rw [← hblock]
      exact Nat.mul_div_mul_right _ _ (by omega)
    · rw [← hblock, Nat.mul_mod_mul_right]

lemma place_div_mod {g : GroupDesc} {j : ℕ} :
    sb.place g j / sb.blockSize = g.inodeTable + j * sb.inodeSize / sb.blockSize ∧
      sb.place g j % sb.blockSize = j * sb.inodeSize % sb.blockSize := by
  have hbs := blockSize_le_of_accepted h
  unfold place
  rw [Nat.add_comm, Nat.add_mul_div_right _ _ (by omega), Nat.add_mul_mod_self_right, Nat.add_comm]
  exact ⟨rfl, rfl⟩

/-- A table that 64 bits reach begins and ends in them. -/
lemma table_reached {g : GroupDesc} (hreach : sb.place g 0 ≤ u64Max) :
    saturatingAdd g.inodeTable sb.tableBlocks = g.inodeTable + sb.tableBlocks := by
  have hbs := blockSize_le_of_accepted h
  have hblocks := tableBlocks_le h
  have hstart : g.inodeTable * 1024 ≤ u64Max := by
    unfold place at hreach
    rw [Nat.zero_mul, Nat.add_zero] at hreach
    exact (Nat.mul_le_mul_left _ hbs.1).trans hreach
  apply saturatingAdd_of_le
  unfold u64Max at hstart ⊢
  omega

end Numbers

/-- The harvest and `inode_location` are inverse to each other. -/
structure Inverse (sb : Geometry) : Prop where
  places : ∀ fsBlock off ino, (off, ino) ∈ sb.harvestSlots fsBlock →
    sb.inodeLocation ino = some (fsBlock * sb.blockSize + off)
  numbers : ∀ ino < 2 ^ 32, ∀ loc, sb.inodeLocation ino = some loc →
    (loc % sb.blockSize, ino) ∈ sb.harvestSlots (loc / sb.blockSize)

lemma Regular.inverse (h : sb.Accepted) (hr : sb.Regular) : sb.Inverse := by
  constructor
  · intro fsBlock off ino hslot
    obtain ⟨gi, hg, htable, -, k, hk, rfl, hlt, rfl⟩ := (mem_harvestSlots h).1 hslot
    obtain ⟨hlow, hhigh⟩ := inTable_iff.1 htable
    have hd : fsBlock - sb.groups[gi].inodeTable < sb.tableBlocks := by
      have := hhigh.trans_le (min_le_left ..)
      omega
    obtain ⟨hindex, hoff⟩ := index_of_whole h hr.whole hd hk
    have hplace : sb.place sb.groups[gi]
        ((fsBlock - sb.groups[gi].inodeTable) * sb.inodesPerBlock + k) =
        fsBlock * sb.blockSize + k * sb.inodeSize := by
      unfold place
      rw [hoff, ← Nat.add_assoc, ← Nat.add_mul, Nat.add_sub_cancel' hlow]
    have hreach := hr.reach gi hg _ hindex hlt
    rw [location_number h _ hindex, List.getElem?_eq_getElem hg, Option.map_some,
      min_eq_left hreach, hplace]
  · intro ino hlt loc hloc
    have hino : ino ≠ 0 := by
      rintro rfl
      cases hloc
    obtain ⟨gi, j, hj, rfl⟩ := exists_number h hino
    rw [location_number h _ hj, Option.map_eq_some_iff] at hloc
    obtain ⟨g, hget, rfl⟩ := hloc
    obtain ⟨hg, rfl⟩ := List.getElem?_eq_some_iff.1 hget
    obtain ⟨d, hd, k, hk, hindex, hdiv, hmod⟩ := place_of_whole h hr.whole hj
    have hreach := hr.reach gi hg j hj hlt
    have hfirst : sb.place sb.groups[gi] 0 ≤ u64Max :=
      hr.reach gi hg 0 (by omega) (by omega)
    obtain ⟨hblock, hoff⟩ := place_div_mod h (g := sb.groups[gi]) (j := j)
    rw [min_eq_left hreach]
    refine (mem_harvestSlots h).2 ⟨gi, hg, ?_, hr.apart gi hg j hj hlt, k, hk, ?_, hlt, ?_⟩
    · rw [inTable_iff, hblock, hdiv, table_reached h hfirst]
      omega
    · rw [hoff, hmod]
    · rw [hblock, hdiv, Nat.add_sub_cancel_left, hindex, Nat.add_assoc]

/-- The last byte of the address space is at no place. -/
lemma last_not_place (h : sb.Accepted) {k : ℕ} (hk : k < sb.inodesPerBlock) :
    u64Max % sb.blockSize ≠ k * sb.inodeSize := by
  have hsize := h.inodeSize_ge
  have hper := inodesPerBlock_le h
  have hend : (k + 1) * sb.inodeSize ≤ sb.inodesPerBlock * sb.inodeSize :=
    Nat.mul_le_mul_right _ hk
  rw [Nat.succ_mul] at hend
  have hlast : u64Max % sb.blockSize = sb.blockSize - 1 := by
    obtain ⟨m, hm, hbs⟩ := h.blockSize
    rw [hbs]
    interval_cases m <;> rfl
  omega

lemma Inverse.reach (h : sb.Accepted) (hi : sb.Inverse) (gi : ℕ) (hg : gi < sb.groups.length)
    (j : ℕ) (hj : j < sb.inodesPerGroup) (hlt : gi * sb.inodesPerGroup + j + 1 < 2 ^ 32) :
    sb.place sb.groups[gi] j ≤ u64Max := by
  by_contra hfar
  have hloc : sb.inodeLocation (gi * sb.inodesPerGroup + j + 1) = some u64Max := by
    rw [location_number h _ hj, List.getElem?_eq_getElem hg, Option.map_some,
      min_eq_right (not_le.1 hfar).le]
  obtain ⟨-, -, -, -, k, hk, hoff, -⟩ := (mem_harvestSlots h).1 (hi.numbers _ hlt _ hloc)
  exact last_not_place h hk hoff

/-- The first block of the first table belongs to the first group. -/
lemma slot_of_first (h : sb.Accepted) (hi : sb.Inverse) (h0 : 0 < sb.groups.length) {k : ℕ}
    (hk : k < sb.inodesPerBlock) :
    (k * sb.inodeSize, k + 1) ∈ sb.harvestSlots sb.groups[0].inodeTable := by
  have hpos := h.inodesPerGroup_pos
  have hlt := h.inodesPerGroup_lt
  have hper := inodesPerBlock_le h
  have hreach := hi.reach h 0 h0 0 hpos (by omega)
  have hone : 1 ≤ sb.tableBlocks := le_max_right ..
  refine (mem_harvestSlots h).2 ⟨0, h0, ?_, fun k hk => absurd hk (by omega), k, hk, rfl, ?_, ?_⟩
  · rw [inTable_iff, table_reached h hreach]
    omega
  · omega
  · rw [Nat.sub_self]
    omega

/-- The `k`th inode of the volume is at no other place than its own. -/
lemma location_first (h : sb.Accepted) (hi : sb.Inverse) (h0 : 0 < sb.groups.length) {j : ℕ}
    (hj : j < sb.inodesPerGroup) :
    sb.inodeLocation (j + 1) = some (sb.place sb.groups[0] j) := by
  have hlt := h.inodesPerGroup_lt
  have hreach := hi.reach h 0 h0 j hj (by omega)
  have hloc := location_number h 0 hj
  rwa [Nat.zero_mul, Nat.zero_add, List.getElem?_eq_getElem h0, Option.map_some,
    min_eq_left hreach] at hloc

lemma Inverse.whole (h : sb.Accepted) (hi : sb.Inverse) :
    sb.inodesPerGroup = sb.inodesPerBlock ∨
      (sb.inodeSize ∣ sb.blockSize ∧ sb.inodesPerBlock ∣ sb.inodesPerGroup) := by
  have h0 : 0 < sb.groups.length := List.length_pos_iff.2 h.groups_ne
  have hbs := blockSize_le_of_accepted h
  have hper := inodesPerBlock_le h
  have hsize := h.inodeSize_ge
  have hpos := h.inodesPerGroup_pos
  have hlt32 := h.inodesPerGroup_lt
  rcases lt_trichotomy sb.inodesPerGroup sb.inodesPerBlock with hlt | heq | hgt
  · -- the block has places for more inodes than the group
    exfalso
    have hloc := hi.places _ _ _ (slot_of_first h hi h0 hlt)
    have hnext := location_number h 1 hpos
    rw [Nat.one_mul, Nat.add_zero, hloc, eq_comm, Option.map_eq_some_iff] at hnext
    obtain ⟨g, hget, hplace⟩ := hnext
    obtain ⟨h1, rfl⟩ := List.getElem?_eq_some_iff.1 hget
    have hreach := hi.reach h 1 h1 0 hpos (by omega)
    have hinside : sb.inodesPerGroup * sb.inodeSize < sb.blockSize :=
      (Nat.mul_lt_mul_of_pos_right hlt (by omega)).trans_le hper.1
    have hsome : 0 < sb.inodesPerGroup * sb.inodeSize := Nat.mul_pos hpos (by omega)
    rw [min_eq_left hreach, place, Nat.zero_mul, Nat.add_zero] at hplace
    have hlow : sb.groups[0].inodeTable < sb.groups[1].inodeTable := by
      apply Nat.lt_of_mul_lt_mul_right (a := sb.blockSize)
      omega
    have hhigh : sb.groups[1].inodeTable < sb.groups[0].inodeTable + 1 := by
      apply Nat.lt_of_mul_lt_mul_right (a := sb.blockSize)
      rw [Nat.succ_mul]
      omega
    omega
  · exact .inl heq
  · right
    have hdvd : sb.inodeSize ∣ sb.blockSize := by
      -- the inode after the places of the first block straddles its end
      by_contra hndvd
      have hinside : sb.inodesPerBlock * sb.inodeSize < sb.blockSize := by
        apply lt_of_le_of_ne hper.1
        intro heq
        exact hndvd (heq ▸ Nat.dvd_mul_left ..)
      have hslot := hi.numbers _ (by omega) _ (location_first h hi h0 hgt)
      obtain ⟨-, -, -, -, k, hk, hoff, -⟩ := (mem_harvestSlots h).1 hslot
      rw [(place_div_mod h).2, Nat.mod_eq_of_lt hinside] at hoff
      have := Nat.eq_of_mul_eq_mul_right (by omega) hoff
      omega
    refine ⟨hdvd, ?_⟩
    -- the inodes in the last block of the table are in no block of it for the harvest
    by_contra hndvd
    obtain ⟨hblock, hnpos⟩ := block_of_dvd h hdvd
    have hj : sb.inodesPerGroup / sb.inodesPerBlock * sb.inodesPerBlock < sb.inodesPerGroup := by
      apply lt_of_le_of_ne (Nat.div_mul_le_self ..)
      intro heq
      exact hndvd (heq ▸ Nat.dvd_mul_left ..)
    have hcount : sb.tableBlocks = sb.inodesPerGroup / sb.inodesPerBlock := by
      rw [tableBlocks_eq h, ← hblock, Nat.mul_div_mul_right _ _ (by omega)]
      exact max_eq_left ((Nat.one_le_div_iff hnpos).2 hgt.le)
    have hslot := hi.numbers _ (by omega) _ (location_first h hi h0 hj)
    obtain ⟨gi, hg, htable, -, k, -, -, -, hnumber⟩ := (mem_harvestSlots h).1 hslot
    rcases Nat.eq_zero_or_pos gi with rfl | hgi
    · obtain ⟨-, hhigh⟩ := inTable_iff.1 htable
      have hlt := hhigh.trans_le (min_le_left ..)
      rw [(place_div_mod h).1, Nat.mul_assoc, hblock, Nat.mul_div_cancel _ (by omega), hcount]
        at hlt
      omega
    · have hfirst : 1 * sb.inodesPerGroup ≤ gi * sb.inodesPerGroup := Nat.mul_le_mul_right _ hgi
      omega

lemma Inverse.regular (h : sb.Accepted) (hi : sb.Inverse) : sb.Regular := by
  refine ⟨hi.whole h, hi.reach h, ?_⟩
  intro gi hg j hj hlt k hk
  by_contra htable
  have hloc := location_number h gi hj
  rw [List.getElem?_eq_getElem hg, Option.map_some, min_eq_left (hi.reach h gi hg j hj hlt)] at hloc
  obtain ⟨first, hf, hin, hbefore, slot, hslot, -, -, hnumber⟩ :=
    (mem_harvestSlots h).1 (hi.numbers _ hlt _ hloc)
  -- the first group with the block is before the inode's own
  have hearly : first ≤ k := by
    by_contra hlate
    exact htable (hbefore k (not_le.1 hlate))
  have hd : sb.place sb.groups[gi] j / sb.blockSize - sb.groups[first].inodeTable <
      sb.tableBlocks := by
    obtain ⟨hlow, hhigh⟩ := inTable_iff.1 hin
    have := hhigh.trans_le (min_le_left ..)
    omega
  have hindex := (index_of_whole h (hi.whole h) hd hslot).1
  have hgroup : (first + 1) * sb.inodesPerGroup ≤ gi * sb.inodesPerGroup :=
    Nat.mul_le_mul_right _ (by omega)
  rw [Nat.succ_mul] at hgroup
  omega

end Geometry

/-- **The harvest and `inode_location` are inverse to each other** exactly if the geometry is
regular. -/
theorem harvest_inverse_iff (v : Volume) (sb : Geometry) (h : readSuperblock v = some sb) :
    sb.Inverse ↔ sb.Regular :=
  ⟨fun hi => hi.regular (accepted_of_readSuperblock h),
    fun hr => hr.inverse (accepted_of_readSuperblock h)⟩

/-- A volume of eight blocks of a kibibyte, with one group of `ipg` inodes of 128 bytes, from block
5 on. -/
def smallVolume (ipg : UInt8) : Volume where
  len := 8192
  content x :=
    match x with
    | 0x404 => 8
    | 0x414 => 1
    | 0x421 => 0x20
    | 0x428 => ipg
    | 0x438 => 0x53
    | 0x439 => 0xEF
    | 0x808 => 5
    | _ => 0

/-- Its geometry. -/
def smallGeometry (ipg : ℕ) : Geometry where
  blockSize := 1024
  inodeSize := 128
  inodesCount := 0
  blocksCount := 8
  firstDataBlock := 1
  blocksPerGroup := 0x2000
  inodesPerGroup := ipg
  descSize := 32
  has64Bit := false
  journalInum := 0
  groups := [⟨0, 5⟩]
  foundAtGroup := 0

set_option maxRecDepth 20000 in
/-- Sixteen inodes fill two blocks. -/
theorem smallGeometry_inverse : (smallGeometry 16).Inverse := by
  apply (harvest_inverse_iff (smallVolume 16) (smallGeometry 16) rfl).2
  have hone : ∀ gi, gi < (smallGeometry 16).groups.length → gi = 0 :=
    fun gi hg => Nat.lt_one_iff.1 hg
  constructor
  · exact .inr ⟨⟨8, rfl⟩, ⟨2, rfl⟩⟩
  · intro gi hg j hj _
    obtain rfl := hone gi hg
    have hj16 : j < 16 := hj
    show 5 * 1024 + j * 128 ≤ u64Max
    unfold u64Max
    omega
  · intro gi hg j _ _ k hk
    obtain rfl := hone gi hg
    exact absurd hk (Nat.not_lt_zero k)

set_option maxRecDepth 20000 in
/-- Of twelve inodes, the harvest gives no place to the last four. -/
theorem smallGeometry_counterexample :
    readSuperblock (smallVolume 12) = some (smallGeometry 12) ∧ ¬ (smallGeometry 12).Inverse := by
  refine ⟨rfl, fun hi => ?_⟩
  have hloc : (smallGeometry 12).inodeLocation 9 = some 6144 := rfl
  have hslot := hi.numbers 9 (by norm_num) 6144 hloc
  have hnone : (smallGeometry 12).harvestSlots (6144 / 1024) = [] := rfl
  exact List.not_mem_nil (hnone ▸ hslot)

end Ext
end Reclaim
