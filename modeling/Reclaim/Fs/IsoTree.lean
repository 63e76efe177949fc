import Reclaim.Carve.Text
import Reclaim.Fs.FatOpen
import Reclaim.Fs.Iso
import Reclaim.Foundation.Fields

/-!
# Opening an ISO 9660 or Joliet volume

The volume descriptors begin at sector 16.  A primary one gives the size of the logical blocks and
the root directory; a supplementary one of Joliet has a root directory of its own, which is
preferred.  The last descriptor of a kind counts (`foldl_of_writes`).
-/

namespace Reclaim

open FileBytes
open PlainText (ascii)

namespace Iso

/-- `SECTOR`. -/
def sector : ℕ := 2048

/-- `VD_START_SECTOR`. -/
def vdStartSector : ℕ := 16

/-- `root_record`: extent and data length of the root directory. -/
def rootRecord (vd : Bytes) : ℕ × ℕ :=
  let record := (getRange vd 156 34).getD []
  (leU32 record 2, leU32 record 10)

/-- `is_joliet`. -/
def isJoliet (vd : Bytes) : Bool :=
  let esc := (getRange vd 88 3).getD []
  esc = ascii "%/@" ∨ esc = ascii "%/C" ∨ esc = ascii "%/E"

/-- `detect_udf`. -/
def detectUdf (v : Volume) : Bool :=
  leU16 (v.read (256 * sector) 16) 0 == 2 ||
    (List.range 4).any fun i => v.read ((vdStartSector + i) * sector + 1) 4 == ascii "NSR0"

/-- What the descriptors say. -/
structure Descriptors where
  pvdRoot : Option (ℕ × ℕ)
  jolietRoot : Option (ℕ × ℕ)
  blockSize : ℕ
  blockSize_ge : sector ≤ blockSize

/-- Before the first descriptor. -/
def Descriptors.start : Descriptors := ⟨none, none, sector, le_rfl⟩

/-- A descriptor is taken in: a primary one, or one of Joliet. -/
def Descriptors.take (d : Descriptors) (vd : Bytes) : Descriptors :=
  if byteAt vd 0 = 1 then
    { d with
      pvdRoot := some (rootRecord vd)
      blockSize := max (leU16 vd 128) sector
      blockSize_ge := le_max_right _ _ }
  else if byteAt vd 0 = 2 ∧ isJoliet vd = true then { d with jolietRoot := some (rootRecord vd) }
  else d

section Take

variable {d : Descriptors} {vd : Bytes}

lemma Descriptors.blockSize_take (h : byteAt vd 0 ≠ 1) : (d.take vd).blockSize = d.blockSize := by
  rw [take, if_neg h]
  split <;> rfl

lemma Descriptors.pvdRoot_take (h : byteAt vd 0 ≠ 1) : (d.take vd).pvdRoot = d.pvdRoot := by
  rw [take, if_neg h]
  split <;> rfl

lemma Descriptors.jolietRoot_take (h : ¬(byteAt vd 0 = 2 ∧ isJoliet vd = true)) :
    (d.take vd).jolietRoot = d.jolietRoot := by
  rw [take, if_neg h]
  split <;> rfl

lemma Descriptors.jolietRoot_take_joliet (h : byteAt vd 0 = 2 ∧ isJoliet vd = true) :
    (d.take vd).jolietRoot = some (rootRecord vd) := by
  have hone : byteAt vd 0 ≠ 1 := by
    rw [h.1]
    decide
  rw [take, if_neg hone, if_pos h]

end Take

/-- Descriptor `i`. -/
def descriptor (v : Volume) (i : ℕ) : Bytes := v.read ((vdStartSector + i) * sector) sector

/-- The descriptors from `i` on, `n` at most, up to the terminator. -/
def scanDescriptors (v : Volume) : ℕ → ℕ → Descriptors → Descriptors
  | 0, _, d => d
  | n + 1, i, d =>
    let vd := descriptor v i
    if getRange vd 1 5 ≠ some (ascii "CD001") then d
    else if byteAt vd 0 = 255 then d
    else scanDescriptors v n (i + 1) (d.take vd)

/-- `open`. -/
def openVolume (v : Volume) : Except FsError Iso :=
  if v.read (vdStartSector * sector + 1) 5 ≠ ascii "CD001" then
    if detectUdf v then .ok ⟨v, sector, 0, 0, false, le_rfl⟩
    else .error (.notThisFs "no CD001 primary volume descriptor")
  else
    let d := scanDescriptors v 32 0 .start
    match (d.jolietRoot.map (true, ·)).or (d.pvdRoot.map (false, ·)) with
    | none => .error (.corrupt "iso: no root directory record")
    | some (joliet, root) =>
      if root.1 = 0 then .error (.corrupt "iso: zero root extent")
      else .ok ⟨v, d.blockSize, root.1, root.2, joliet, d.blockSize_ge⟩

/-! ## The last descriptor of a kind -/

/-- What is written is there in the end, if all that write it write the same. -/
lemma foldl_of_writes {σ α β : Type} {f : σ → α → σ} {l : List α} {s : σ} (get : σ → β)
    (writes : α → Prop) {b : β} (hkeep : ∀ s a, ¬ writes a → get (f s a) = get s)
    (hset : ∀ s, ∀ a ∈ l, writes a → get (f s a) = b) (h : get s = b ∨ ∃ a ∈ l, writes a) :
    get (l.foldl f s) = b := by
  induction l generalizing s with
  | nil => simpa using h
  | cons a l ih =>
    refine ih (fun s a' ha' => hset s a' (List.mem_cons_of_mem a ha')) ?_
    by_cases hw : writes a
    · exact .inl (hset s a List.mem_cons_self hw)
    · rcases h with h | ⟨a', ha', hw'⟩
      · exact .inl ((hkeep s a hw).trans h)
      · rcases List.mem_cons.1 ha' with rfl | ha'
        · exact absurd hw' hw
        · exact .inr ⟨a', ha', hw'⟩

/-- The descriptors before the terminator are taken in. -/
lemma scanDescriptors_eq {v : Volume} {m i e : ℕ} (hi : i ≤ e) (hcap : e < i + m)
    (hstandard : ∀ j ≤ e, getRange (descriptor v j) 1 5 = some (ascii "CD001"))
    (hbefore : ∀ j < e, byteAt (descriptor v j) 0 ≠ 255) (hend : byteAt (descriptor v e) 0 = 255)
    (d : Descriptors) :
    scanDescriptors v m i d = ((List.range' i (e - i)).map (descriptor v)).foldl .take d := by
  induction m generalizing i d with
  | zero => omega
  | succ m ih =>
    rw [scanDescriptors, hstandard i hi, if_neg (not_not_intro rfl)]
    rcases hi.eq_or_lt with rfl | hlt
    · rw [if_pos hend, Nat.sub_self, List.range'_zero, List.map_nil, List.foldl_nil]
    · have hleft : e - i = e - (i + 1) + 1 := by omega
      rw [if_neg (hbefore i hlt), ih hlt (by omega), hleft, List.range'_succ, List.map_cons,
        List.foldl_cons]

end Iso

end Reclaim

/-!
## Images of ISO 9660 and Joliet

What the standard has on the medium.  A directory record is at least 34 bytes and says its own
length; a directory is an extent of records, the first two for itself and its parent, and no record
crosses the end of a sector, which is a block if blocks are not smaller than sectors.  A file that
is recorded in several sections has a record for each.  An `Image` is a volume with the tree of
records that is on it, and `Image.WellFormed` says that it is.
-/

namespace Reclaim

open FileBytes
open PlainText (ascii)

namespace Iso

/-! ## Records -/

/-- A directory record. -/
structure DirRecord where
  bytes : Bytes
  length_bytes : bytes.length = (byteAt bytes 0).toNat
  name_fits : 33 + (byteAt bytes 32).toNat ≤ bytes.length

namespace DirRecord

/-- The identifier. -/
def name (r : DirRecord) : Bytes := (r.bytes.drop 33).take (byteAt r.bytes 32).toNat

/-- The block where the extent begins. -/
def extent (r : DirRecord) : ℕ := leU32 r.bytes 2

/-- The blocks of the extended attribute record, with which the extent begins. -/
def xarLength (r : DirRecord) : ℕ := (byteAt r.bytes 1).toNat

def dataLength (r : DirRecord) : ℕ := leU32 r.bytes 10

def isDir (r : DirRecord) : Bool := (byteAt r.bytes 25).toNat.testBit 1

/-- Another record follows for the next section of the file. -/
def multiExtent (r : DirRecord) : Bool := (byteAt r.bytes 25).toNat.testBit 7

/-- The bytes that are recorded: those of the extent behind the extended attribute record. -/
def content (r : DirRecord) (v : Volume) (blockSize : ℕ) : Bytes :=
  v.read ((r.extent + r.xarLength) * blockSize) r.dataLength

end DirRecord

/-! ## Records as they are written -/

section Write

variable {flags : UInt8} {extent len : ℕ} {name : Bytes}

/-- The parts of a record without extended attributes. -/
def recordParts (flags : UInt8) (extent len : ℕ) (name : Bytes) : List Bytes :=
  [[UInt8.ofNat (33 + name.length)], [0], leBytes 4 extent, beBytes 4 extent, leBytes 4 len,
    beBytes 4 len, List.replicate 7 0, [flags], [0, 0], [1, 0, 0, 1], [UInt8.ofNat name.length],
    name]

lemma length_recordParts :
    (recordParts flags extent len name).flatten.length = 33 + name.length := by
  simp only [recordParts, List.flatten_cons, List.flatten_nil, List.length_append, List.length_cons,
    List.length_nil, length_leBytes, length_beBytes, List.length_replicate]
  omega

lemma byteAt_recordParts (i : ℕ) {b : UInt8} {off : ℕ}
    (hi : (recordParts flags extent len name)[i]? = some [b])
    (hoff : ((recordParts flags extent len name).take i).flatten.length = off) :
    byteAt (recordParts flags extent len name).flatten off = b := byteAt_parts i hi hoff

lemma toNat_nameLength (h : name.length ≤ 222) :
    (byteAt (recordParts flags extent len name).flatten 32).toNat = name.length := by
  rw [byteAt_recordParts 10 rfl (by simp [recordParts]), UInt8.toNat_ofNat']
  omega

lemma recordParts_length_eq (h : name.length ≤ 222) :
    (recordParts flags extent len name).flatten.length =
      (byteAt (recordParts flags extent len name).flatten 0).toNat := by
  have hfirst : byteAt (recordParts flags extent len name).flatten 0 =
      UInt8.ofNat (33 + name.length) := byteAt_recordParts 0 rfl rfl
  rw [hfirst, length_recordParts, UInt8.toNat_ofNat']
  omega

lemma recordParts_name_fits (h : name.length ≤ 222) :
    33 + (byteAt (recordParts flags extent len name).flatten 32).toNat ≤
      (recordParts flags extent len name).flatten.length := by
  rw [toNat_nameLength h, length_recordParts]

/-- A record without extended attributes. -/
def writeRecord (flags : UInt8) (extent len : ℕ) (name : Bytes) (h : name.length ≤ 222) :
    DirRecord where
  bytes := (recordParts flags extent len name).flatten
  length_bytes := recordParts_length_eq h
  name_fits := recordParts_name_fits h

variable (h : name.length ≤ 222)

lemma length_writeRecord :
    (writeRecord flags extent len name h).bytes.length = 33 + name.length := length_recordParts

/-- **What is written in a record is read back.** -/
lemma name_writeRecord : (writeRecord flags extent len name h).name = name := by
  have hbefore : ((recordParts flags extent len name).take 11).flatten.length = 33 := by
    simp [recordParts]
  have hlast := take_drop_parts (x := []) 11 rfl hbefore
  rw [List.append_nil] at hlast
  rw [DirRecord.name, writeRecord, toNat_nameLength h, hlast.2]

lemma extent_writeRecord (hextent : extent < 2 ^ 32) :
    (writeRecord flags extent len name h).extent = extent := by
  have hfield : leField 4 ((recordParts flags extent len name).flatten ++ []) 2 = extent :=
    leField_parts 2 rfl rfl hextent
  rwa [List.append_nil] at hfield

lemma dataLength_writeRecord (hlen : len < 2 ^ 32) :
    (writeRecord flags extent len name h).dataLength = len := by
  have hfield : leField 4 ((recordParts flags extent len name).flatten ++ []) 10 = len :=
    leField_parts 4 rfl rfl hlen
  rwa [List.append_nil] at hfield

lemma xarLength_writeRecord : (writeRecord flags extent len name h).xarLength = 0 :=
  congrArg UInt8.toNat (byteAt_recordParts 1 rfl rfl)

lemma isDir_writeRecord :
    (writeRecord flags extent len name h).isDir = flags.toNat.testBit 1 := by
  rw [DirRecord.isDir, writeRecord, byteAt_recordParts 7 rfl (by simp [recordParts])]

lemma multiExtent_writeRecord :
    (writeRecord flags extent len name h).multiExtent = flags.toNat.testBit 7 := by
  rw [DirRecord.multiExtent, writeRecord, byteAt_recordParts 7 rfl (by simp [recordParts])]

end Write

/-- The records of a sector, and zeros. -/
def sectorBytes (blockSize : ℕ) (rs : List DirRecord) : Bytes :=
  rs.flatMap DirRecord.bytes ++
    List.replicate (blockSize - (rs.flatMap DirRecord.bytes).length) 0

/-- The sectors of a directory. -/
def dirBytes (blockSize : ℕ) (sectors : List (List DirRecord)) : Bytes :=
  sectors.flatMap (sectorBytes blockSize)

/-- The directory lists the records, behind its own and that of its parent. -/
def Lists (v : Volume) (blockSize : ℕ) (d : DirRecord) (rs : List DirRecord) : Prop :=
  ∃ (self parent : DirRecord) (sectors : List (List DirRecord)),
    self.name = [0] ∧ parent.name = [1] ∧ sectors.flatten = self :: parent :: rs ∧
    (∀ s ∈ sectors, (s.flatMap DirRecord.bytes).length ≤ blockSize) ∧
    d.content v blockSize = dirBytes blockSize sectors

/-! ## Identifiers -/

/-- The bytes of an identifier. -/
def encodeName (joliet : Bool) (s : String) : Bytes :=
  if joliet then
    (Text.utf16Encode s).flatMap fun u => [UInt8.ofNat (u / 256), UInt8.ofNat (u % 256)]
  else s.toUTF8.toList

/-- The identifier is that of the name.  A file's may have a dot at the end where there is no
extension, and a version. -/
structure Identifies (joliet isDir : Bool) (raw : Bytes) (name : String) : Prop where
  name_ne : name ≠ ""
  not_self : raw ≠ [0]
  not_parent : raw ≠ [1]
  dir : isDir = true → raw = encodeName joliet name
  file : isDir = false → ';' ∉ name.toList ∧ name.toList.getLast? ≠ some '.' ∧
    ∃ dot version : String, (dot = "" ∨ dot = ".") ∧ (version = "" ∨ ∃ v, version = ";" ++ v) ∧
      raw = encodeName joliet (name ++ dot ++ version)

/-! ## Trees -/

/-- What a directory lists: files, and directories with what they list. -/
inductive Listing where
  | nil
  | file (r : DirRecord) (name : String) (rest : Listing)
  | dir (r : DirRecord) (name : String) (content : Listing) (rest : Listing)

/-- A file's record in a tree. -/
structure FilePlace where
  path : String
  name : String
  record : DirRecord

namespace Listing

/-- The records of the directory. -/
def records : Listing → List DirRecord
  | nil => []
  | file r _ rest => r :: rest.records
  | dir r _ _ rest => r :: rest.records

/-- All directories below. -/
def dirs : Listing → List DirRecord
  | nil => []
  | file _ _ rest => rest.dirs
  | dir r _ content rest => r :: content.dirs ++ rest.dirs

/-- How many directories are one in the other. -/
def depth : Listing → ℕ
  | nil => 0
  | file _ _ rest => rest.depth
  | dir _ _ content rest => max (content.depth + 1) rest.depth

/-- The files of the directory; `base` is its path, with a slash at the end. -/
def here (base : String) : Listing → List FilePlace
  | nil => []
  | file r name rest => ⟨base ++ name, name, r⟩ :: rest.here base
  | dir _ _ _ rest => rest.here base

/-- The files of all directories below. -/
def deeper (base : String) : Listing → List FilePlace
  | nil => []
  | file _ _ rest => rest.deeper base
  | dir _ name content rest =>
    content.here (base ++ name ++ "/") ++ content.deeper (base ++ name ++ "/") ++ rest.deeper base

/-- All files. -/
def places (base : String) (l : Listing) : List FilePlace := l.here base ++ l.deeper base

/-- The tree is on the volume. -/
def Recorded (v : Volume) (blockSize : ℕ) (joliet : Bool) : Listing → Prop
  | nil => True
  | file r name rest =>
    Identifies joliet false r.name name ∧ r.isDir = false ∧ (r.dataLength ≠ 0 → r.extent ≠ 0) ∧
      rest.Recorded v blockSize joliet
  | dir r name content rest =>
    Identifies joliet true r.name name ∧ r.isDir = true ∧ Lists v blockSize r content.records ∧
      content.Recorded v blockSize joliet ∧ rest.Recorded v blockSize joliet

end Listing

/-! ## Images -/

/-- A volume, and what is recorded on it. -/
structure Image where
  vol : Volume
  blockSize : ℕ
  joliet : Bool
  root : DirRecord
  content : Listing

namespace Image

/-- All directories. -/
def dirs (img : Image) : List DirRecord := img.root :: img.content.dirs

/-- All files. -/
def places (img : Image) : List FilePlace := img.content.places ""

/-- The descriptors of the image, of which the terminator is number `e`: a primary one at least, and
if the names are those of Joliet, one with its escape sequence. -/
structure Described (img : Image) (e : ℕ) : Prop where
  standard : ∀ i ≤ e, getRange (descriptor img.vol i) 1 5 = some (ascii "CD001")
  before : ∀ i < e, byteAt (descriptor img.vol i) 0 ≠ 255
  terminator : byteAt (descriptor img.vol e) 0 = 255
  primary : ∃ i < e, byteAt (descriptor img.vol i) 0 = 1
  blockSize : ∀ i < e, byteAt (descriptor img.vol i) 0 = 1 →
    leU16 (descriptor img.vol i) 128 = img.blockSize
  joliet : img.joliet = true ↔
    ∃ i < e, byteAt (descriptor img.vol i) 0 = 2 ∧ isJoliet (descriptor img.vol i) = true
  root : ∀ i < e, (if img.joliet = true then
      byteAt (descriptor img.vol i) 0 = 2 ∧ isJoliet (descriptor img.vol i) = true
    else byteAt (descriptor img.vol i) 0 = 1) →
    getRange (descriptor img.vol i) 156 34 = some img.root.bytes

/-- The image is as the standard says. -/
structure WellFormed (img : Image) (e : ℕ) : Prop where
  described : img.Described e
  root : Lists img.vol img.blockSize img.root img.content.records
  content : img.content.Recorded img.vol img.blockSize img.joliet
  /-- The first sectors are not for extents. -/
  extent_ne : ∀ d ∈ img.dirs, d.extent ≠ 0
  extents_nodup : (img.dirs.map DirRecord.extent).Nodup

/-- What the engine is made for: blocks of a sector or more, no extended attribute records at
directories, and nothing beyond its caps. -/
structure Supported (img : Image) (e : ℕ) (opts : WalkOpts) : Prop where
  descriptors : e < 32
  blockSize : sector ≤ img.blockSize
  xarLength : ∀ d ∈ img.dirs, d.xarLength = 0
  dataLength : ∀ d ∈ img.dirs, d.dataLength ≤ maxDirBytes
  depth : img.content.depth ≤ maxDepth
  files : img.places.length < min opts.maxEntries maxEntries
  live : opts.includeLive = true

end Image

/-- The entry of a file's record: its path, and its extent. -/
def FilePlace.entry (blockSize : ℕ) (p : FilePlace) : Entry :=
  { Entry.newFile p.name p.record.dataLength .live with
    path := some p.path
    extents := if p.record.dataLength = 0 then []
      else [⟨p.record.extent * blockSize, p.record.dataLength⟩] }

/-- The directories that a walk visits. -/
def visited (iso : Iso) (opts : WalkOpts) : List ℕ :=
  if opts.includeLive = false ∨ iso.rootLba = 0 then []
  else (iso.walkDir opts (maxDepth + 1) ⟨iso.rootLba, iso.rootLen, ""⟩ ([], Walked.start)).1

end Iso

end Reclaim
