import Reclaim.Foundation.Unicode
import Reclaim.Fs.Dates
import Reclaim.Fs.Ntfs
import Reclaim.Fs.Walk

/-!
# NTFS records

A record of the master file table is protected by an update sequence: the last two bytes of every
stride of 512 are kept in an array of the record, and a sequence number stands in their place.
`apply_fixup` puts them back before the attributes are read.

The attributes follow one another up to an end mark, each resident in the record or a list of runs.
-/

namespace Reclaim
namespace Ntfs

open FileBytes

/-! ## The fix-up -/

/-- Put back the end of a stride from the array at `usaOff`. -/
def restoreStride (usaOff : ℕ) (b : Bytes) (k : ℕ) : Bytes :=
  (b.set (k * 512 + 510) (byteAt b (usaOff + 2 + k * 2))).set (k * 512 + 511)
    (byteAt b (usaOff + 3 + k * 2))

/-- The strides whose end and whose two bytes of the array lie in the record. -/
def strides (b : Bytes) : List ℕ :=
  (List.range (leU16 b 6 - 1)).takeWhile fun k =>
    decide (k * 512 + 512 ≤ b.length ∧ leU16 b 4 + 4 + k * 2 ≤ b.length)

/-- `apply_fixup`. -/
def applyFixup (b : Bytes) : Bytes :=
  if leU16 b 6 < 2 ∨ b.length < leU16 b 4 + leU16 b 6 * 2 then b
  else (strides b).foldl (restoreStride (leU16 b 4)) b

/-! ## Data runs -/

/-- `read_le_unsigned`: at most eight bytes count. -/
def readLeUnsigned (b : Bytes) (off size : ℕ) : ℕ :=
  leValue ((List.range (min size 8)).map fun i => byteAt b (off + i))

/-- `read_le_signed`, an `i64`. -/
def readLeSigned (b : Bytes) (off size : ℕ) : ℤ :=
  (readLeUnsigned b off size : ℤ).bmod (2 ^ (8 * min size 8))

/-- The runs from `pos` on, the last one at cluster `lcn`; `left` more may be listed. -/
def decodeRunsFrom (b : Bytes) : (guard pos : ℕ) → (lcn : ℤ) → (left : ℕ) → List Run
  | 0, _, _, _ => []
  | guard + 1, pos, lcn, left =>
    if pos < b.length then
      let header := (byteAt b pos).toNat
      let lenSize := header % 16
      let offSize := header / 16
      if header = 0 ∨ lenSize = 0 ∨ b.length < pos + 1 + lenSize + offSize then []
      else
        let length := readLeUnsigned b (pos + 1) lenSize
        let next := pos + 1 + lenSize + offSize
        if offSize = 0 then ⟨0, length, true⟩ :: decodeRunsFrom b guard next lcn (left - 1)
        else
          let lcn := (lcn + readLeSigned b (pos + 1 + lenSize) offSize).bmod (2 ^ 64)
          if lcn < 0 then []
          else if left ≤ 1 then [⟨lcn.toNat, length, false⟩]
          else ⟨lcn.toNat, length, false⟩ :: decodeRunsFrom b guard next lcn (left - 1)
    else []

/-- `decode_runs`: the listing ends with the run with which there are more than 65536. -/
def decodeRuns (b : Bytes) : List Run := decodeRunsFrom b 100000 0 0 65537

/-! ## Attributes -/

/-- `decode_utf16`: `units` little-endian units, without zeros at the end. -/
def decodeUtf16 (b : Bytes) (off units : ℕ) : String :=
  let v := (List.range units).map fun i => leU16 b (off + i * 2)
  Text.fromUtf16Lossy (v.reverse.dropWhile (· == 0)).reverse

/-- One parsed attribute. -/
structure Attr where
  typeId : ℕ
  /-- Empty for the unnamed stream. -/
  name : String
  resident : Bool
  /-- Logical data size. -/
  realSize : ℕ
  runs : List Run
  /-- Where resident content lies in the record. -/
  contentOff : ℕ
  contentLen : ℕ

/-- The data of an attribute. -/
def Attr.data (a : Attr) : DataAttr := ⟨a.resident, a.realSize, a.runs⟩

/-- `resident_data`: the content of a resident attribute in the fixed-up record. -/
def Attr.residentData (a : Attr) (b : Bytes) : Bytes :=
  if a.resident then (getRange b a.contentOff a.contentLen).getD [] else []

def attrStandardInformation : ℕ := 0x10
def attrFileName : ℕ := 0x30
def attrData : ℕ := 0x80
def attrIndexAllocation : ℕ := 0xA0
def attrEnd : ℕ := 0xFFFFFFFF

/-- The attribute at `a`, of `total` bytes. -/
def readAttr (b : Bytes) (a total : ℕ) : Attr :=
  let nonResident := byteAt b (a + 8) ≠ 0
  let nameLen := (byteAt b (a + 9)).toNat
  let runOff := leU16 b (a + 32)
  let coff := leU16 b (a + 20)
  -- resident content is cut to the attribute it lives in
  let clen := if coff < total then min (leU32 b (a + 16)) (total - coff) else 0
  { typeId := leU32 b a
    name := if 0 < nameLen then decodeUtf16 b (a + leU16 b (a + 10)) nameLen else ""
    resident := !decide nonResident
    realSize := if nonResident then leU64 b (a + 48) else clen
    runs :=
      if nonResident ∧ a + runOff ≤ b.length ∧ runOff ≤ total then
        decodeRuns ((b.drop (a + runOff)).take (total - runOff))
      else []
    contentOff := if nonResident then 0 else a + coff
    contentLen := if nonResident then 0 else clen }

/-- The attributes from `a` on. -/
def readAttrs (b : Bytes) : ℕ → ℕ → List Attr
  | 0, _ => []
  | guard + 1, a =>
    let total := leU32 b (a + 4)
    if b.length < a + 4 ∨ leU32 b a = attrEnd ∨ total < 16 ∨ b.length < a + total then []
    else readAttr b a total :: readAttrs b guard (a + total)

/-- A `$FILE_NAME`. -/
structure FileName where
  name : String
  /-- POSIX, Win32, DOS, or Win32 and DOS. -/
  nameType : ℕ
  parent : ℕ

/-- `parse_file_name` of the content of an attribute. -/
def parseFileName (c : Bytes) : Option FileName :=
  let name := decodeUtf16 c 66 (byteAt c 64).toNat
  if name = "" then none else some ⟨name, (byteAt c 65).toNat, leU64 c 0 % 2 ^ 48⟩

/-- A parsed `FILE` record. -/
structure MftRecord where
  inUse : Bool
  isDirectory : Bool
  attrs : List Attr
  fileNames : List FileName
  created : Option String
  modified : Option String

/-- `FILE`, which a record begins with. -/
def fileMagic : Bytes := [0x46, 0x49, 0x4C, 0x45]

namespace MftRecord

/-- `parse`. -/
def parse (buf : Bytes) : Option MftRecord :=
  if buf.take 4 = fileMagic then
    let b := applyFixup buf
    let attrs := readAttrs b 1024 (leU16 b 20)
    let std := (attrs.filter fun a => a.typeId == attrStandardInformation && a.resident).getLast?
    let content := (std.map (·.residentData b)).getD []
    some
      { inUse := (leU16 b 22).testBit 0
        isDirectory := (leU16 b 22).testBit 1
        attrs := attrs
        fileNames := (attrs.filter fun a => a.typeId == attrFileName && a.resident).filterMap
          fun a => (getRange b a.contentOff a.contentLen).bind parseFileName
        created := filetimeDate (leU64 content 0)
        modified := filetimeDate (leU64 content 8) }
  else none

/-- The rank of a kind of name: Win32 before POSIX before DOS. -/
def rank (nameType : ℕ) : ℕ :=
  if nameType = 1 ∨ nameType = 3 then 0
  else if nameType = 0 then 1
  else if nameType = 2 then 2
  else 3

/-- `best_file_name`: the first name of the least rank. -/
def bestFileName (p : MftRecord) : Option FileName :=
  p.fileNames.foldl
    (fun best f => match best with
      | some g => if rank f.nameType < rank g.nameType then some f else some g
      | none => some f) none

/-- `unnamed_data`, as an attribute. -/
def unnamedData (p : MftRecord) : Option Attr :=
  p.attrs.find? fun a => a.typeId == attrData && a.name == ""

/-- `resident_data_offset`. -/
def residentDataOffset (p : MftRecord) : Option ℕ :=
  (p.attrs.find? fun a => a.typeId == attrData && a.name == "" && a.resident).map (·.contentOff)

/-- `named_data`. -/
def namedData (p : MftRecord) (name : String) : Option Attr :=
  p.attrs.find? fun a => a.typeId == attrData && a.name == name

/-- `index_allocation`: the index of a directory, if it is not resident. -/
def indexAllocation (p : MftRecord) : Option Attr :=
  p.attrs.find? fun a => a.typeId == attrIndexAllocation && !a.resident

end MftRecord

end Ntfs
end Reclaim
