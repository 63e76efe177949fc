import Reclaim.Part.Table

/-!
# GUID partition tables

A disk with a GUID partition table has two copies of it: a header in the second block that points to
an array of entries, and a header in the last block that points to another.  `parse` reads both
headers, settles on one of them by its own checksum, and then reads the array that one points to.
-/

namespace Reclaim

open FileBytes

/-! ## Checksums and GUIDs -/

/-- One bit of the reflected CRC-32. -/
def crcBit (crc : UInt32) : UInt32 := (crc >>> 1) ^^^ (0xEDB88320 &&& (0 - (crc &&& 1)))

/-- One byte of it. -/
def crcByte (crc : UInt32) (b : UInt8) : UInt32 := crcBit^[8] (crc ^^^ b.toUInt32)

/-- `crc32`: CRC-32/ISO-HDLC. -/
def crc32 (data : Bytes) : UInt32 := ~~~ data.foldl crcByte 0xFFFFFFFF

example : crc32 [0x31, 0x32, 0x33, 0x34, 0x35, 0x36, 0x37, 0x38, 0x39] = 0xCBF43926 := by
  decide +kernel

/-- `n` in upper-case hexadecimal, at least `width` digits wide. -/
def upperHex (width n : ℕ) : String :=
  let digits := (Nat.toDigits 16 n).map Char.toUpper
  String.ofList (List.replicate (width - digits.length) '0' ++ digits)

/-- `guid_to_string`: the first three groups are little-endian. -/
def guidToString (raw : Bytes) : String :=
  if raw.length < 16 then ""
  else
    let g i := upperHex 2 (byteAt raw i).toNat
    upperHex 8 (leField 4 raw 0) ++ "-" ++ upperHex 4 (leField 2 raw 4) ++ "-" ++
      upperHex 4 (leField 2 raw 6) ++ "-" ++ g 8 ++ g 9 ++ "-" ++ g 10 ++ g 11 ++ g 12 ++ g 13 ++
      g 14 ++ g 15

/-- `is_zero_guid`. -/
def isZeroGuid (raw : Bytes) : Bool := decide (16 ≤ raw.length) && (raw.take 16).all (· == 0)

/-- The partition types with a name of their own. -/
def typeLabels : List (String × String) :=
  [("7C3457EF-0000-11AA-AA11-00306543ECAC", "Apple APFS"),
    ("48465300-0000-11AA-AA11-00306543ECAC", "Apple HFS+"),
    ("53746F72-6167-11AA-AA11-00306543ECAC", "Apple Core Storage"),
    ("426F6F74-0000-11AA-AA11-00306543ECAC", "Apple Boot (Recovery)"),
    ("55465300-0000-11AA-AA11-00306543ECAC", "Apple UFS"),
    ("52414944-0000-11AA-AA11-00306543ECAC", "Apple RAID"),
    ("52414944-5F4F-11AA-AA11-00306543ECAC", "Apple RAID offline"),
    ("4C616265-6C00-11AA-AA11-00306543ECAC", "Apple Label"),
    ("C12A7328-F81F-11D2-BA4B-00A0C93EC93B", "EFI System"),
    ("024DEE41-33E7-11D3-9D69-0008C781F39F", "MBR partition scheme"),
    ("EBD0A0A2-B9E5-4433-87C0-68B6B72699C7", "Microsoft Basic Data"),
    ("E3C9E316-0B5C-4DB8-817D-F92DF00215AE", "Microsoft Reserved"),
    ("DE94BBA4-06D1-4D40-A16A-BFD50179D6AC", "Windows Recovery"),
    ("5808C8AA-7E8F-42E0-85D2-E1E90434CFB3", "Windows LDM metadata"),
    ("AF9B60A0-1431-4F62-BC68-3311714A69AD", "Windows LDM data"),
    ("0FC63DAF-8483-4772-8E79-3D69D8477DE4", "Linux filesystem"),
    ("0657FD6D-A4AB-43C4-84E5-0933C84B4F4F", "Linux swap"),
    ("E6D6D379-F507-44C2-A23C-238F2A3DF928", "Linux LVM"),
    ("A19D880F-05FC-4D3B-A006-743F0F84911E", "Linux RAID"),
    ("21686148-6449-6E6F-744E-656564454649", "BIOS boot")]

/-- `type_label`. -/
def typeLabel (guid : String) : String := (typeLabels.lookup guid).getD "Unknown"

/-- The UTF-16 code units of a name, up to the first zero. -/
def nameUnits : Bytes → List ℕ
  | lo :: hi :: rest =>
    let u := lo.toNat + 256 * hi.toNat
    if u = 0 then [] else u :: nameUnits rest
  | _ => []

/-- `String::from_utf16_lossy`: a surrogate without its partner is the replacement character. -/
def fromUtf16Lossy : List ℕ → List Char
  | [] => []
  | u :: rest =>
    if u < 0xD800 ∨ 0xDFFF < u then Char.ofNat u :: fromUtf16Lossy rest
    else match rest with
      | v :: rest' =>
        if u < 0xDC00 ∧ 0xDC00 ≤ v ∧ v ≤ 0xDFFF then
          Char.ofNat (0x10000 + (u - 0xD800) * 0x400 + (v - 0xDC00)) :: fromUtf16Lossy rest'
        else Char.ofNat 0xFFFD :: fromUtf16Lossy (v :: rest')
      | [] => [Char.ofNat 0xFFFD]

/-- `decode_name`. -/
def decodeName (raw : Bytes) : Option String :=
  if nameUnits raw = [] then none else some (String.ofList (fromUtf16Lossy (nameUnits raw)))

/-- `gpt_fs_hint`. -/
def gptFsHint (label : String) : Option String :=
  match label with
  | "Apple APFS" => some "apfs"
  | "Apple HFS+" => some "hfs+"
  | "Apple Core Storage" => some "core-storage"
  | "Microsoft Basic Data" => some "exfat/ntfs/fat"
  | "Linux filesystem" => some "linux"
  | "EFI System" => some "fat"
  | _ => none

namespace Gpt

/-- `EFI PART`. -/
def sig : Bytes := [0x45, 0x46, 0x49, 0x20, 0x50, 0x41, 0x52, 0x54]

/-- What a header says. -/
structure Header where
  entryLba : ℕ
  numEntries : ℕ
  entrySize : ℕ
  entriesCrc : ℕ
  headerCrcOk : Bool
  deriving DecidableEq, Repr

/-- `parse_header`; the checksum is computed with its own field zeroed. -/
def parseHeader (buf : Bytes) : Option Header :=
  let headerSize := leU32 buf 12
  if buf.take 8 ≠ sig ∨ ¬ (92 ≤ headerSize ∧ headerSize ≤ 512) ∨ buf.length < headerSize then none
  else
    let hdr := writeAt (buf.take headerSize) 16 [0, 0, 0, 0]
    some
      { entryLba := leU64 buf 72
        numEntries := leU32 buf 80
        entrySize := leU32 buf 84
        entriesCrc := leU32 buf 88
        headerCrcOk := decide ((crc32 hdr).toNat = leU32 buf 16) }

/-- The header that is used, whether it is the backup, and what is noted about it. -/
def choose : Option Header → Option Header → Option (Header × Bool × List String)
  | some p, b =>
    if p.headerCrcOk then some (p, false, [])
    else match b.filter (·.headerCrcOk) with
      | some b => some (b, true, ["primary GPT header CRC bad; used backup header"])
      | none => some (p, false, ["GPT header CRC mismatch (primary); parsing best-effort"])
  | none, some b =>
    if b.headerCrcOk then some (b, true, ["primary GPT header CRC bad; used backup header"])
    else some (b, true, ["GPT header CRC mismatch (backup); parsing best-effort"])
  | none, none => none

/-- The entry of a record, if it is in use, its range is not empty and it begins in the source; its
end is clamped to the source. -/
def entryOf (ss total : ℕ) (rec : Bytes) : Option Partition :=
  let typeRaw := rec.take 16
  if rec.length < 16 ∨ isZeroGuid typeRaw then none
  else
    let firstLba := leU64 rec 32
    let lastLba := leU64 rec 40
    let start := saturatingMul firstLba ss
    let len := min (saturatingMul (saturatingAdd (lastLba - firstLba) 1) ss) (total - start)
    if lastLba < firstLba ∨ total ≤ start ∨ len = 0 then none
    else
      let guid := guidToString typeRaw
      let label := typeLabel guid
      some
        { index := 0, start, len, scheme := .gpt, typeByte := none, typeGuid := some guid,
          typeLabel := label, name :=
            decodeName (if 128 ≤ rec.length then (rec.drop 56).take 72 else []),
          fsHint := gptFsHint label }

/-- Number partitions from 1 on. -/
def number (ps : List Partition) : List Partition := ps.mapIdx fun i p => { p with index := i + 1 }

/-- The records of an array, as far as the table that was read holds them whole. -/
def records (table : Bytes) (entrySize num : ℕ) : List Bytes :=
  ((List.range num).takeWhile fun i => decide (i * entrySize + entrySize ≤ table.length)).map
    fun i => (table.drop (i * entrySize)).take entrySize

/-- The Apple container that a partition is. -/
def containerOf (p : Partition) : Option ContainerAnchor :=
  let evidence := "GPT type GUID " ++ p.typeGuid.getD ""
  if p.typeLabel = "Apple APFS" then some ⟨"apfs-container", p.start, evidence⟩
  else if p.typeLabel = "Apple Core Storage" then some ⟨"core-storage", p.start, evidence⟩
  else none

/-- How much of an array is read. -/
def tableCap : ℕ := 2 ^ 20

/-- What is made of the header that is used. -/
def readTable (ss total : ℕ) (hdr : Header) (usedBackup : Bool) (notes : List String) :
    ReadProg PartitionMap :=
  let entrySize := hdr.entrySize
  let num := hdr.numEntries
  if ¬ (128 ≤ entrySize ∧ entrySize ≤ 4096) ∨ num = 0 ∨ 4096 < num then
    pure
      { scheme := .gpt, entries := [], confidence := 0.4,
        notes := notes ++ ["implausible GPT entry geometry (num=" ++ toString num ++ ", size=" ++
          toString entrySize ++ "); ignoring"],
        containers := [] }
  else do
    let table ← ReadProg.bytes (saturatingMul hdr.entryLba ss) (min (num * entrySize) tableCap)
    let entriesCrcOk := decide ((crc32 table).toNat = hdr.entriesCrc)
    let entries := number ((records table entrySize num).filterMap (entryOf ss total))
    pure
      { scheme := .gpt, entries
        confidence :=
          if hdr.headerCrcOk && entriesCrcOk then if usedBackup then 0.9 else 0.99 else 0.6
        notes := if entriesCrcOk then notes else
          notes ++ ["GPT partition-entry CRC mismatch; entries parsed best-effort"]
        containers := entries.filterMap containerOf }

/-- `gpt::parse`. -/
def parse (ss total : ℕ) : ReadProg (Option PartitionMap) := do
  let primary ← ReadProg.bytes ss 512
  let backup ← ReadProg.bytes (total - ss) 512
  match choose (parseHeader primary) (parseHeader backup) with
  | none => pure none
  | some (hdr, usedBackup, notes) =>
    let m ← readTable ss total hdr usedBackup notes
    pure (some m)

end Gpt

end Reclaim
