import Reclaim.Part.Gpt

/-!
# MBR partition tables

The first sector of a disk has a table of four partitions, in blocks of 512 bytes.  One of them may
be an extended partition, which begins with a sector like the first: its table has one logical
partition, and points to the next such sector.  `parse` reads the four, and `expand` follows the
chains.
-/

namespace Reclaim

open FileBytes

variable {σ : Type}

/-- `mbr_fs_hint`. -/
def mbrFsHint (t : ℕ) : Option String :=
  if t ∈ [0x01, 0x04, 0x06, 0x0E] then some "fat"
  else if t ∈ [0x0B, 0x0C] then some "fat32"
  else if t = 0x07 then some "exfat/ntfs"
  else if t = 0xAF then some "hfs+"
  else if t = 0x83 then some "linux"
  else if t = 0xEE then some "gpt-protective"
  else none

namespace Mbr

/-- `mbr_type_label`. -/
def typeLabel (t : ℕ) : String :=
  if t = 0x01 then "FAT12"
  else if t ∈ [0x04, 0x06] then "FAT16"
  else if t ∈ [0x0B, 0x0C] then "FAT32"
  else if t = 0x07 then "exFAT / NTFS / HPFS"
  else if t = 0x0E then "FAT16 LBA"
  else if t ∈ [0x05, 0x0F, 0x85] then "Extended"
  else if t = 0x82 then "Linux swap"
  else if t = 0x83 then "Linux"
  else if t = 0xAF then "Apple HFS/HFS+"
  else if t = 0xAB then "Apple Boot"
  else if t = 0xEE then "GPT protective"
  else if t = 0xEF then "EFI System"
  else "Unknown"

/-- `is_extended`. -/
def isExtended (t : ℕ) : Bool := decide (t ∈ [0x05, 0x0F, 0x85])

/-- MBR LBAs are 512-byte units by convention. -/
def unit : ℕ := 512

/-- The sector has the signature of a partition table. -/
def signed (buf : Bytes) : Bool :=
  decide (buf[510]? = some 0x55) && decide (buf[511]? = some 0xAA)

/-- An entry of a table. -/
structure Slot where
  typeByte : ℕ
  lba : ℕ
  num : ℕ
  deriving DecidableEq, Repr

/-- Entry `i` of the table in a sector. -/
def slot (buf : Bytes) (i : ℕ) : Option Slot :=
  let rec' := (buf.drop (446 + i * 16)).take 16
  if rec'.length < 16 then none
  else some ⟨(byteAt rec' 4).toNat, leU32 rec' 8, leU32 rec' 12⟩

/-- The partition of type `t` that begins at `start`, cut at the end of the source. -/
def partition (t start size total : ℕ) : Partition where
  index := 0
  start := start
  len := min size (total - start)
  scheme := .mbr
  typeByte := some t
  typeGuid := none
  typeLabel := typeLabel t
  name := none
  fsHint := mbrFsHint t

/-- The range of an entry that is in use, if it begins in the source. -/
def Slot.range (total : ℕ) (e : Slot) : Option (ℕ × ℕ) :=
  let start := saturatingMul e.lba unit
  let size := saturatingMul e.num unit
  if e.typeByte = 0 ∨ e.num = 0 then none
  else if total ≤ start ∨ min size (total - start) = 0 then none
  else some (start, size)

/-- The partition of an entry that is not extended. -/
def Slot.primary (total : ℕ) (e : Slot) : Option Partition :=
  (e.range total).bind fun r =>
    if isExtended e.typeByte then none else some (partition e.typeByte r.1 r.2 total)

/-- The table of a sector. -/
def slots (buf : Bytes) : List Slot := (List.range 4).filterMap (slot buf)

/-- `mbr::parse`. -/
def parse (lba0 : Bytes) (total : ℕ) : Option PartitionMap :=
  if ¬ signed lba0 then none
  else
    let extended := (slots lba0).filter fun e => (e.range total).isSome && isExtended e.typeByte
    some
      { scheme := .mbr
        entries := Gpt.number ((slots lba0).filterMap (Slot.primary total))
        confidence := 0.9
        notes := if extended = [] then [] else
          [toString extended.length ++ " extended partition(s) present (EBR chain)"]
        containers := [] }

/-- The logical partition of an extended boot record at `cur`. -/
def logical (total cur : ℕ) (e : Slot) : Option Partition :=
  let size := e.num * unit
  let start := saturatingAdd cur (e.lba * unit)
  if e.typeByte ≠ 0 ∧ size ≠ 0 ∧ start < total ∧ 0 < min size (total - start) then
    some (partition e.typeByte start size total)
  else none

/-- Where the next extended boot record is, if there is one further on. -/
def nextEbr (extBase cur : ℕ) (e : Slot) : Option ℕ :=
  let next := saturatingAdd extBase (e.lba * unit)
  if e.typeByte = 0 ∨ e.lba * unit = 0 ∨ next ≤ cur then none else some next

/-- The logical partitions of a chain, from the record at `cur` on. -/
def followEbr (extBase total : ℕ) : ℕ → ℕ → ReadProg (List Partition)
  | 0, _ => pure []
  | guard + 1, cur =>
    if total ≤ cur then pure []
    else do
      let ebr ← ReadProg.bytes cur 512
      if ¬ signed ebr then pure []
      else match slot ebr 0, slot ebr 1 with
        | some e0, some e1 =>
          let here := (logical total cur e0).toList
          match nextEbr extBase cur e1 with
          | none => pure here
          | some next => do
            let rest ← followEbr extBase total guard next
            pure (here ++ rest)
        | some e0, none => pure (logical total cur e0).toList
        | none, _ => pure []

/-- How many records of a chain are followed. -/
def ebrGuard : ℕ := 256

/-- The logical partitions of the extended ones among the entries. -/
def logicals (total : ℕ) : List Slot → ReadProg (List Partition)
  | [] => pure []
  | e :: rest => do
    let here ← if isExtended e.typeByte then
      followEbr (e.lba * unit) total ebrGuard (e.lba * unit) else pure []
    let more ← logicals total rest
    pure (here ++ more)

/-- `mbr::expand`. -/
def expand (lba0 : Bytes) (total : ℕ) (m : PartitionMap) : ReadProg PartitionMap := do
  let nextIndex := (m.entries.map (·.index)).foldl max 0 + 1
  let found ← logicals total (slots lba0)
  pure { m with
    entries := m.entries ++ found.mapIdx fun i p => { p with index := nextIndex + i } }

end Mbr

end Reclaim
