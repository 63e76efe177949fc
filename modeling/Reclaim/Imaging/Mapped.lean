import Reclaim.Imaging.Map

/-!
# Reading an image back

A `MappedImage` is an image file together with its map.  Raw output is read in place; zstd output
is read by decompressing every frame that overlaps the request.  The status of a sector is what
the map says of it: bad, never imaged, or good.
-/

namespace Reclaim

open FileBytes

/-- `read_file_at`: fill from a file of which `len` bytes count; what is missing reads as zero and
its sectors are bad. -/
def readFileAt (file : Bytes) (len ss off n : ℕ) : Bytes × ReadResult :=
  let count := divCeil n ss
  if n = 0 then ([], ReadResult.good ss count)
  else if ¬ ss ∣ off then (List.replicate n 0, ReadResult.allBad ss count)
  else if len ≤ off then (List.replicate n 0, ReadResult.allBad ss count)
  else
    let avail := min n (len - off)
    let got := (file.drop off).take avail
    (got ++ List.replicate (n - got.length) 0,
      (ReadResult.good ss count).markBadFromByte ss n got.length)

/-- An image and its map, with the frames sorted by image offset and the runs coalesced. -/
structure MappedImage where
  file : Bytes
  map : ImageMap
  frames : List FrameEntry
  bad : List LbaRange
  unread : List LbaRange

namespace MappedImage

/-- `MappedImage::open` on an image file's bytes. -/
def ofFile (file : Bytes) (map : ImageMap) : MappedImage where
  file := file
  map := map
  frames := map.frames.insertionSort fun a b => a.imageOffset ≤ b.imageOffset
  bad := coalesce map.bad
  unread := coalesce map.unread

/-- The sector size the image is read with. -/
def sectorSize (mi : MappedImage) : ℕ := max mi.map.sectorSize 1

/-- One sector's part of `overlay_status`. -/
def overlaySector (mi : MappedImage) (offset : ℕ) (res : ReadResult) (i : ℕ) : ReadResult :=
  let cs := max mi.map.chunkSize 1
  let lba := saturatingAdd (offset / mi.sectorSize) i
  let chunk := saturatingMul lba mi.sectorSize / cs
  if inRanges mi.bad lba then res.markBad i
  else if inRanges mi.unread lba || !mi.map.isChunkDone chunk then res.markUnread i
  else res

/-- `overlay_status`: what the map records of each sector. -/
def overlayStatus (mi : MappedImage) (offset : ℕ) (res : ReadResult) : ReadResult :=
  (List.range res.sectorCount).foldl (mi.overlaySector offset) res

end MappedImage

/-- One positioned read of a frame's bytes into a zeroed buffer. -/
def readFrame (B : Backend) (file : Bytes) (fr : FrameEntry) : Bytes :=
  let got := (file.drop fr.fileOffset).take (min fr.compressed B.readLimit)
  got ++ List.replicate (fr.compressed - got.length) 0

/-- What a frame decompresses to. -/
def decodeFrame (B : Backend) (file : Bytes) (fr : FrameEntry) : Option Bytes :=
  B.decompress (readFrame B file fr) fr.uncompressed

/-- Copy a frame's part of the request into the buffer. -/
def copyFrame (B : Backend) (file : Bytes) (off wantEnd : ℕ) (buf : Bytes) (fr : FrameEntry) :
    Bytes :=
  let fEnd := fr.imageOffset + fr.uncompressed
  if fEnd ≤ off ∨ wantEnd ≤ fr.imageOffset then buf
  else match decodeFrame B file fr with
    | none => buf
    | some plain =>
      let copyStart := max off fr.imageOffset
      let copyEnd := min wantEnd fEnd
      if copyEnd ≤ copyStart then buf
      else
        let srcOff := copyStart - fr.imageOffset
        let dstOff := copyStart - off
        let n := copyEnd - copyStart
        if dstOff + n ≤ buf.length ∧ srcOff + n ≤ plain.length then
          writeAt buf dstOff ((plain.drop srcOff).take n)
        else buf

namespace MappedImage

/-- `read_zstd`: zeros, overwritten by each overlapping frame in turn. -/
def readZstd (B : Backend) (mi : MappedImage) (off n : ℕ) : Bytes :=
  mi.frames.foldl (copyFrame B mi.file off (saturatingAdd off n)) (List.replicate n 0)

/-- `MappedImage::read_at`. -/
def readAt (B : Backend) (mi : MappedImage) (off n : ℕ) : Bytes × ReadResult :=
  let ss := mi.sectorSize
  let count := divCeil n ss
  if ¬ ss ∣ off then (List.replicate n 0, ReadResult.allBad ss count)
  else match mi.map.compression with
    | .none =>
      let r := readFileAt mi.file mi.map.size ss off n
      (r.1,
        mi.overlayStatus off (r.2.badSectors.foldl ReadResult.markBad (ReadResult.good ss count)))
    | .zstd => (mi.readZstd B off n, mi.overlayStatus off (ReadResult.good ss count))

end MappedImage

end Reclaim
