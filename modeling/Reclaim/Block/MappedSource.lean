import Reclaim.Block.SegmentMap
import Reclaim.Block.Source
import Reclaim.Foundation.Selection

/-!
# Reading through a map

A `MappedSource` reads a virtual image: for each part of a request it looks up the segment, and
fills in zeros, bytes of the backing file, or bytes of a block that it decompresses and keeps.  A
part that cannot be had leaves zeros and makes all its sectors bad.

The backing file is a source whose sectors can be read, or not, whatever is read with them
(`Sectorwise`), and what the decompressors make of a block is `inflate`.
-/

namespace Reclaim

open FileBytes

variable {σ : Type}

/-- A source whose sectors can each be read or not, and hold one content, in every read that ends in
the source. -/
structure Sectorwise (src : BlockSource σ) where
  readable : ℕ → Bool
  content : ℕ → UInt8
  status : ∀ s off n, src.sector ∣ off → off + n ≤ src.len → ∀ k < n,
    ((src.readAt s off n).1.result.status (k / src.sector) = .good ↔
      readable ((off + k) / src.sector) = true)
  bytes : ∀ s off n, src.sector ∣ off → off + n ≤ src.len → ∀ k < n,
    readable ((off + k) / src.sector) = true →
      byteAt (src.readAt s off n).1.buf k = content (off + k)

/-- The bytes of a source that can be had. -/
def Sectorwise.byte {src : BlockSource σ} (h : Sectorwise src) (y : ℕ) : Option UInt8 :=
  if y < src.len ∧ h.readable (y / src.sector) = true then some (h.content y) else none

/-! ## Decoding -/

/-- `MAX_BLOCK_OUT`. -/
def maxBlockOut : ℕ := 64 * 1024 * 1024

/-- `decompress`; `inflate` is what the decoders of the compressed formats make of a block. -/
def decompress (inflate : Codec → Bytes → ℕ → Option Bytes) (codec : Codec) (src : Bytes)
    (outLen : ℕ) : Option Bytes :=
  if maxBlockOut < outLen then none
  else
    let out := match codec with
      | .zero => some (List.replicate outLen 0)
      | .raw => if src.length < outLen then none else some (src.take outLen)
      | _ => inflate codec src outLen
    out.filter fun b => decide (b.length = outLen)

/-- How many decoded blocks are kept. -/
def decodeCacheBlocks : ℕ := 16

/-- Decoded blocks by the index of their segment, the ones used last behind. -/
structure DecodeCache where
  order : List ℕ
  map : List (ℕ × Bytes)
  deriving DecidableEq, Repr

namespace DecodeCache

/-- `DecodeCache::touch`. -/
def touch (c : DecodeCache) (key : ℕ) : DecodeCache :=
  { c with order := c.order.erase key ++ [key] }

/-- `DecodeCache::get`. -/
def get (c : DecodeCache) (key : ℕ) : Option Bytes × DecodeCache :=
  match c.map.find? fun e => decide (e.1 = key) with
  | some e => (some e.2, c.touch key)
  | none => (none, c)

/-- Drop the blocks used longest ago while there are too many. -/
def trim (key : ℕ) : ℕ → DecodeCache → DecodeCache
  | 0, c => c
  | fuel + 1, c =>
    if decodeCacheBlocks < c.order.length then
      match c.order with
      | victim :: rest => trim key fuel
          ⟨rest, if victim = key then c.map else c.map.filter fun e => decide (e.1 ≠ victim)⟩
      | [] => c
    else c

/-- `DecodeCache::put`. -/
def put (c : DecodeCache) (key : ℕ) (val : Bytes) : DecodeCache :=
  let map := (key, val) :: c.map.filter fun e => decide (e.1 ≠ key)
  if c.map.any fun e => decide (e.1 = key) then
    DecodeCache.touch ⟨c.order, map⟩ key
  else trim key (c.order.length + 1) ⟨c.order ++ [key], map⟩

end DecodeCache

/-! ## The source -/

/-- `read_backing_unaligned`. -/
def readBackingUnaligned (backing : BlockSource σ) (pos n : ℕ) (s : σ) : Option Bytes × σ :=
  if n = 0 then (some [], s)
  else
    let ss := backing.sector
    let start := pos - pos % ss
    let stop := saturatingAdd pos n
    let alignedStop := min (saturatingMul (divCeil stop ss) ss) backing.len
    if alignedStop < stop then (none, s)
    else
      let span := alignedStop - start
      let r := backing.readAt s start span
      let first := (pos - start) / ss
      let last := (stop - 1 - start) / ss
      if ∃ i ∈ List.range' first (last + 1 - first), r.1.result.status i ≠ .good then (none, r.2)
      else if span < pos - start + n then (none, r.2)
      else (some ((r.1.buf.drop (pos - start)).take n), r.2)

/-- A virtual image over a backing source. -/
structure MappedSource (σ : Type) where
  backing : BlockSource σ
  segs : List Segment
  outLen : ℕ
  sectorSize : ℕ
  id : String
  outLen_le : outLen ≤ u64Max
  sectorSize_pos : 0 < sectorSize

/-- `SegmentMap::build`. -/
def SegmentMap.build (m : SegmentMap) (backing : BlockSource σ) (outLen sectorSize : ℕ)
    (id : String)
    (h : outLen ≤ u64Max) : MappedSource σ where
  backing := backing
  segs := m.segs
  outLen := outLen
  sectorSize := max sectorSize 1
  id := id
  outLen_le := h
  sectorSize_pos := by omega

/-- Mark bad every sector with a byte of `[start, start + len)` in it. -/
def markBadRange (res : ReadResult) (ss start len : ℕ) : ReadResult :=
  if len = 0 then res
  else
    let first := start / ss
    let last := (start + len - 1) / ss
    ((List.range' first (last + 1 - first)).filter fun i =>
      decide (i < res.sectorCount)).foldl ReadResult.markBad res

namespace MappedSource

variable (inflate : Codec → Bytes → ℕ → Option Bytes) (m : MappedSource σ)

/-- On which side of segment `i` a position lies. -/
def side (off i : ℕ) : Option Ordering :=
  (m.segs[i]?).map fun s =>
    if off < s.outStart then .lt else if s.stop ≤ off then .gt else .eq

/-- `seg_for`. -/
def segFor (off : ℕ) : Option ℕ := bisect (m.side off) m.segs.length 0 m.segs.length

/-- `decoded_block`. -/
def decodedBlock (idx : ℕ) (seg : Segment) (s : σ × DecodeCache) :
    Option Bytes × (σ × DecodeCache) :=
  match seg.piece with
  | .zero => (none, s)
  | .raw _ => (none, s)
  | .compressed codec pos clen =>
    match s.2.get idx with
    | (some hit, cache) => (some hit, (s.1, cache))
    | (none, cache) =>
      let avail := m.backing.len - pos
      let maxClen := saturatingAdd (saturatingAdd seg.outLen (seg.outLen / 8)) (2 ^ 20)
      let r := readBackingUnaligned m.backing pos (min (min clen avail) maxClen) s.1
      match r.1.bind fun comp => decompress inflate codec comp seg.outLen with
      | some raw => (some raw, (r.2, cache.put idx raw))
      | none => (none, (r.2, cache))

/-- `fill_from_segment`: what goes into `n` bytes of a request, from `within` on in segment
`idx`. -/
def fillFromSegment (idx : ℕ) (seg : Segment) (within n : ℕ) (s : σ × DecodeCache) :
    Option Bytes × (σ × DecodeCache) :=
  match seg.piece with
  | .zero => (some (List.replicate n 0), s)
  | .raw pos =>
    let r := readBackingUnaligned m.backing (saturatingAdd pos within) n s.1
    (r.1, (r.2, s.2))
  | .compressed _ _ _ =>
    let r := m.decodedBlock inflate idx seg s
    (r.1.bind fun block =>
      if block.length < within + n then none else some ((block.drop within).take n), r.2)

/-- The loop of `read_at`: what has been put in so far, from `done` on. -/
def readLoop (off total : ℕ) : ℕ → ℕ → Bytes × ReadResult → σ × DecodeCache →
    (Bytes × ReadResult) × (σ × DecodeCache)
  | 0, _, acc, s => (acc, s)
  | fuel + 1, done, acc, s =>
    if done < total then
      let cur := saturatingAdd off done
      let rest := markBadRange acc.2 m.sectorSize done (total - done)
      if m.outLen ≤ cur then ((acc.1, rest), s)
      else
        match m.segFor cur with
        | none => ((acc.1, rest), s)
        | some idx =>
          match m.segs[idx]? with
          | none => ((acc.1, rest), s)
          | some seg =>
            let within := cur - seg.outStart
            let want := min (seg.outLen - within) (total - done)
            let r := m.fillFromSegment inflate idx seg within want s
            let acc' := match r.1 with
              | some bytes => (acc.1 ++ bytes, acc.2)
              | none => (acc.1 ++ List.replicate want 0, markBadRange acc.2 m.sectorSize done want)
            readLoop off total fuel (done + want) acc' r.2
    else (acc, s)

/-- `read_at`. -/
def readAt (s : σ × DecodeCache) (off n : ℕ) : ReadOutcome × (σ × DecodeCache) :=
  let ss := m.sectorSize
  let count := divCeil n ss
  if n = 0 then (⟨[], ReadResult.good ss count⟩, s)
  else if ¬ ss ∣ off ∨ m.outLen ≤ off then (⟨List.replicate n 0, ReadResult.allBad ss count⟩, s)
  else
    let r := m.readLoop inflate off n n 0 ([], ReadResult.good ss count) s
    (⟨r.1.1 ++ List.replicate (n - r.1.1.length) 0, r.1.2⟩, r.2)

end MappedSource

end Reclaim
