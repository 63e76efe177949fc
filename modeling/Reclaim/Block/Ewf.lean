import Mathlib.Data.Nat.Bitwise
import Reclaim.Block.JoinedImages

/-!
# EWF images

Each file of a set is a chain of sections.  A volume section of the first has the geometry, and the
table sections have the chunks of the medium in order: where each is in its file, as it stands or as
a zlib stream.  The opener maps the chunks of each file, and concatenates the files.

The sectors of the whole have at least 512 bytes.  If those of the medium are smaller, the data of a
file need not end with a sector of the whole, and what follows the last one is dropped.
-/

namespace Reclaim

open FileBytes

namespace Ewf

/-- `EVF_SIG` and `LVF_SIG`. -/
def signatures : List Bytes :=
  [[0x45, 0x56, 0x46, 0x09, 0x0D, 0x0A, 0xFF, 0x00],
    [0x4C, 0x56, 0x46, 0x09, 0x0D, 0x0A, 0xFF, 0x00]]

/-- `COMPRESSED_BIT`. -/
def compressedBit : ℕ := 2 ^ 31

/-- `OFFSET_MASK`. -/
def offsetMask : ℕ := 2 ^ 31 - 1

/-- `MAX_CHUNKS`. -/
def maxChunks : ℕ := 64 * 1024 * 1024

/-- "volume", "disk", "table", "next" and "done". -/
def volumeKind : Bytes := [0x76, 0x6F, 0x6C, 0x75, 0x6D, 0x65]
def diskKind : Bytes := [0x64, 0x69, 0x73, 0x6B]
def tableKind : Bytes := [0x74, 0x61, 0x62, 0x6C, 0x65]
def nextKind : Bytes := [0x6E, 0x65, 0x78, 0x74]
def doneKind : Bytes := [0x64, 0x6F, 0x6E, 0x65]

/-! ## The sections of a file -/

/-- A section: its type, where its data are, and its size. -/
structure Section where
  kind : Bytes
  dataOff : ℕ
  size : ℕ

/-- The sections from an offset on, up to the last one of the file. -/
def sections (file : Bytes) : ℕ → ℕ → List Section
  | 0, _ => []
  | fuel + 1, off =>
    match readExact file off 76 with
    | none => []
    | some desc =>
      let kind := (desc.take 16).takeWhile (· ≠ 0)
      let next := leU64 desc 16
      if kind = nextKind ∨ kind = doneKind then []
      else
        ⟨kind, saturatingAdd off 76, leU64 desc 24⟩ ::
          if next = 0 ∨ next ≤ off ∨ file.length ≤ next then [] else sections file fuel next

/-- The geometry of a medium. -/
structure Geometry where
  sectorsPerChunk : ℕ
  bytesPerSector : ℕ
  sectorCount : ℕ
  deriving DecidableEq

namespace Geometry

variable (g : Geometry)

def chunkSize : ℕ := saturatingMul g.sectorsPerChunk g.bytesPerSector

def mediaSize : ℕ := saturatingMul g.sectorCount g.bytesPerSector

end Geometry

/-- `parse_volume`. -/
def parseVolume (file : Bytes) (pos : ℕ) : Option Geometry :=
  (readExact file pos 32).bind fun d =>
    if leU32 d 8 = 0 ∨ leU32 d 12 = 0 then none
    else
      let count := if leU32 d 16 = 0 then saturatingMul (leU32 d 4) (leU32 d 8) else leU32 d 16
      some ⟨leU32 d 8, leU32 d 12, count⟩

/-- The chunks of a table: what their offsets are relative to, and an entry for each. -/
structure Table where
  baseOffset : ℕ
  entries : List ℕ
  deriving DecidableEq

/-- `parse_table`. -/
def parseTable (file : Bytes) (pos size : ℕ) : Option Table := do
  let hdr ← readExact file pos 24
  let count := leU32 hdr 0
  guard ¬(count = 0 ∨ 4000000 < count)
  guard ¬(size ≠ 0 ∧ size < count * 4 % 2 ^ 32)
  let raw ← readExact file (saturatingAdd pos 24) (count * 4)
  some ⟨leU64 hdr 8, (List.range count).map fun i => leU32 raw (i * 4)⟩

/-- The geometry that the last volume section of a file has. -/
def geometryOf (file : Bytes) : Option Geometry :=
  ((sections file 100000 13).filterMap fun s =>
    if s.kind = volumeKind ∨ s.kind = diskKind then parseVolume file s.dataOff else none).getLast?

/-- The tables of a file. -/
def tablesOf (file : Bytes) : List Table :=
  (sections file 100000 13).filterMap fun s =>
    if s.kind = tableKind then parseTable file s.dataOff s.size else none

/-- `parse_segment`. -/
def parseSegment (file : Bytes) : Option (Option Geometry × List Table) :=
  if maxChunks < ((tablesOf file).map fun t => t.entries.length).sum then none
  else some (geometryOf file, tablesOf file)

/-! ## Mapping the chunks -/

/-- What is pushed, how much of the medium is left, and how many chunks were looked at. -/
structure Pushed where
  pushes : List (ℕ × Piece)
  remaining : Option ℕ
  visited : ℕ

/-- The pushes for the entries of a table. -/
def pushEntries (chunkOut base segLen : ℕ) : List ℕ → Option ℕ → Pushed
  | [], remaining => ⟨[], remaining, 0⟩
  | ent :: rest, remaining =>
    let off := saturatingAdd base (ent &&& offsetMask)
    let rem := remaining.getD chunkOut
    let thisOut := min chunkOut rem
    if thisOut = 0 then ⟨[], remaining, 1⟩
    else
      -- up to the next entry's offset, or the end of the file
      let next := (rest.head?.map fun e => saturatingAdd base (e &&& offsetMask)).getD segLen
      let piece := if ent &&& compressedBit ≠ 0 then .compressed .zlib off (max (next - off) 1)
        else .raw off
      let more := pushEntries chunkOut base segLen rest (some (rem - thisOut))
      ⟨(thisOut, piece) :: more.pushes, more.remaining, more.visited + 1⟩

/-- The pushes for the tables of a file. -/
def pushTables (chunkOut segLen : ℕ) : List Table → Option ℕ → Pushed
  | [], remaining => ⟨[], remaining, 0⟩
  | t :: rest, remaining =>
    let here := pushEntries chunkOut t.baseOffset segLen t.entries remaining
    let more := pushTables chunkOut segLen rest here.remaining
    ⟨here.pushes ++ more.pushes, more.remaining, here.visited + more.visited⟩

/-- What is opened of a file that has data. -/
structure Part where
  path : String
  file : Bytes
  pushes : List (ℕ × Piece)
  sectorSize : ℕ
  deriving DecidableEq

/-- How much a part has. -/
def Part.outLen (p : Part) : ℕ := (SegmentMap.ofPushes p.pushes).nextOut

/-- The loop of `open`: the geometry, what is left of the medium and how many chunks there were so
far. -/
def openFrom : List (String × Bytes) → Option Geometry → Option ℕ → ℕ →
    Option (Option Geometry × List Part)
  | [], geom, _, _ => some (geom, [])
  | seg :: rest, geom, remaining, visited => do
    let head := (readExact seg.2 0 8).getD []
    guard (head ∈ signatures)
    let parsed ← parseSegment seg.2
    let remaining := match parsed.1 with
      | some g => remaining.or (some g.mediaSize)
      | none => remaining
    let g ← parsed.1.or geom
    let r := pushTables g.chunkSize seg.2.length parsed.2 remaining
    guard (visited + r.visited ≤ maxChunks)
    let more ← openFrom rest (some g) r.remaining (visited + r.visited)
    let part : Part := ⟨seg.1, seg.2, r.pushes, max g.bytesPerSector 512⟩
    some (more.1, if part.outLen = 0 then more.2 else part :: more.2)

/-- `open`, of the files that are there. -/
def openParts (segments : List (String × Bytes)) : Option (Geometry × List Part) := do
  let all ← openFrom segments none none 0
  let g ← all.1
  guard (all.2 ≠ [])
  some (g, all.2)

/-! ## What the tables mean -/

/-- A chunk: its file, where its data begin and end there, and whether they are compressed. -/
structure Chunk where
  file : Bytes
  offset : ℕ
  stop : ℕ
  compressed : Bool
  deriving DecidableEq

/-- The chunks of a table; one ends where the next begins, the last where the file does. -/
def entryChunks (file : Bytes) (base : ℕ) : List ℕ → List Chunk
  | [] => []
  | ent :: rest =>
    ⟨file, base + ent % 2 ^ 31, (rest.head?.map fun e => base + e % 2 ^ 31).getD file.length,
      ent.testBit 31⟩ :: entryChunks file base rest

/-- The chunks of the tables of a file. -/
def fileChunks (file : Bytes) : List Chunk :=
  (tablesOf file).flatMap fun t => entryChunks file t.baseOffset t.entries

/-- The chunks of a set. -/
def chunksOf (segments : List (String × Bytes)) : List Chunk :=
  segments.flatMap fun seg => fileChunks seg.2

namespace Chunk

/-- A chunk has `len` bytes: they are in the file, or they are in a stream there that ends before
the next chunk, and that the opener decodes. -/
structure Has (c : Chunk) (dec : StreamDecoder) (len : ℕ) : Prop where
  raw : c.compressed = false → c.offset + len ≤ c.file.length
  stream : c.compressed = true → ∃ out n, dec.read (c.file.drop c.offset) = some (out, n) ∧
    out.length = len ∧ c.offset + n ≤ c.stop
  decodable : c.compressed = true → len ≤ maxBlockOut ∧
    ∀ out n, dec.read (c.file.drop c.offset) = some (out, n) → n ≤ maxCompressed len

/-- A byte of the chunk. -/
def byte (c : Chunk) (dec : StreamDecoder) (i : ℕ) : UInt8 :=
  if c.compressed then byteAt (((dec.read (c.file.drop c.offset)).map (·.1)).getD []) i
  else byteAt c.file (c.offset + i)

/-- The piece for the chunk. -/
def piece (c : Chunk) : Piece :=
  if c.compressed then
    .compressed .zlib (min c.offset u64Max) (max (min c.stop u64Max - min c.offset u64Max) 1)
  else .raw (min c.offset u64Max)

end Chunk

/-- A well-formed set that the opener accepts: the first file has the geometry, and there is a chunk
for every part of the medium. -/
structure ChunkSet where
  path : String
  segments : List (String × Bytes)
  dec : StreamDecoder
  geometry : Geometry
  parts : List Part
  accepted : openParts segments = some (geometry, parts)
  file_le : ∀ seg ∈ segments, seg.2.length ≤ u64Max
  first : ∃ seg rest, segments = seg :: rest ∧ geometryOf seg.2 = some geometry
  rest : ∀ seg ∈ segments, geometryOf seg.2 = none ∨ geometryOf seg.2 = some geometry
  fits : geometry.sectorCount * geometry.bytesPerSector ≤ u64Max
  covers : (chunksOf segments).length = divCeil geometry.mediaSize geometry.chunkSize
  has : ∀ (j : ℕ) (c : Chunk), (chunksOf segments)[j]? = some c →
    c.Has dec (blockLen geometry.mediaSize geometry.chunkSize j)

namespace ChunkSet

variable (set : ChunkSet)

/-- The bytes of the medium. -/
def mediaLen : ℕ := set.geometry.sectorCount * set.geometry.bytesPerSector

/-- The byte of the medium at a position, of the chunk that covers it. -/
def mediaByte (x : ℕ) : UInt8 :=
  match (chunksOf set.segments)[x / set.geometry.chunkSize]? with
  | some c => c.byte set.dec (x % set.geometry.chunkSize)
  | none => 0

/-- The sectors that the whole is read in. -/
def sector : ℕ := max set.geometry.bytesPerSector 512

/-- Where the chunks of the first `i` files end. -/
def fileEnd (i : ℕ) : ℕ :=
  min ((chunksOf (set.segments.take i)).length * set.geometry.chunkSize) set.mediaLen

end ChunkSet

/-! ## The chunks are pushed one by one -/

/-- The pushes for chunks of `size` bytes in all, from the `j`-th on. -/
def chunkPushes (size chunkSize : ℕ) : ℕ → List Chunk → List (ℕ × Piece)
  | _, [] => []
  | j, c :: rest => (blockLen size chunkSize j, c.piece) :: chunkPushes size chunkSize (j + 1) rest

section Pushing

variable {size chunkSize : ℕ}

lemma chunkPushes_append (l more : List Chunk) : ∀ j, chunkPushes size chunkSize j (l ++ more) =
    chunkPushes size chunkSize j l ++ chunkPushes size chunkSize (j + l.length) more := by
  induction l with
  | nil => exact fun j => rfl
  | cons c rest ih =>
    intro j
    rw [List.cons_append, chunkPushes, chunkPushes, ih, List.cons_append, List.length_cons,
      show j + 1 + rest.length = j + (rest.length + 1) by omega]

lemma chunkPushes_eq (size chunkSize : ℕ) (piece : ℕ → Piece) (l : List Chunk) : ∀ j,
    (∀ i c, l[i]? = some c → piece (j + i) = c.piece) →
      chunkPushes size chunkSize j l = blockPieces size chunkSize piece j l.length := by
  induction l with
  | nil => exact fun j _ => rfl
  | cons c rest ih =>
    intro j h
    have hrest := ih (j + 1) fun i d hd => by
      rw [show j + 1 + i = j + (i + 1) by omega]
      exact h (i + 1) d hd
    have hcons : blockPieces size chunkSize piece j (c :: rest).length =
        (blockLen size chunkSize j, piece j) ::
          blockPieces size chunkSize piece (j + 1) rest.length := rfl
    rw [chunkPushes, hrest, hcons]
    exact congrArg (fun p => (_, p) :: _) (h 0 c rfl).symm

/-- A piece is pushed for a chunk, as its entry says. -/
lemma piece_entry (file : Bytes) (base ent : ℕ) (rest : List ℕ) (hfile : file.length ≤ u64Max) :
    (if ent &&& compressedBit ≠ 0 then Piece.compressed .zlib
      (saturatingAdd base (ent &&& offsetMask))
        (max ((rest.head?.map fun e => saturatingAdd base (e &&& offsetMask)).getD file.length -
          saturatingAdd base (ent &&& offsetMask)) 1)
      else .raw (saturatingAdd base (ent &&& offsetMask))) =
    Chunk.piece ⟨file, base + ent % 2 ^ 31,
      (rest.head?.map fun e => base + e % 2 ^ 31).getD file.length, ent.testBit 31⟩ := by
  have hbit : ent &&& compressedBit ≠ 0 ↔ ent.testBit 31 = true := by
    rw [compressedBit, Nat.and_two_pow]
    cases ent.testBit 31 <;> simp
  have hmask : ∀ e, e &&& offsetMask = e % 2 ^ 31 := fun e => Nat.and_two_pow_sub_one_eq_mod e 31
  have hnext : (rest.head?.map fun e => saturatingAdd base (e &&& offsetMask)).getD file.length =
      min ((rest.head?.map fun e => base + e % 2 ^ 31).getD file.length) u64Max := by
    cases rest.head? with
    | none => exact (min_eq_left hfile).symm
    | some e =>
      rw [Option.map_some, hmask]
      rfl
  rw [hnext, hmask, Chunk.piece]
  exact if_congr hbit rfl rfl

lemma lt_divCeil_of_lt {j : ℕ} (hpos : 0 < chunkSize) (hj : j < divCeil size chunkSize) :
    j * chunkSize < size := (lt_divCeil_iff hpos).1 hj

/-- **The entries of a table** are taken one after the other, while there is some of the medium left
for each. -/
lemma pushEntries_eq (hpos : 0 < chunkSize) (file : Bytes) (hfile : file.length ≤ u64Max) (base : ℕ)
    (ents : List ℕ) : ∀ j, j + ents.length ≤ divCeil size chunkSize →
      pushEntries chunkSize base file.length ents (some (size - j * chunkSize)) =
        ⟨chunkPushes size chunkSize j (entryChunks file base ents),
          some (size - (j + ents.length) * chunkSize), ents.length⟩ := by
  induction ents with
  | nil => exact fun j _ => rfl
  | cons ent rest ih =>
    intro j hj
    rw [List.length_cons] at hj ⊢
    have hleft := lt_divCeil_of_lt hpos (show j < divCeil size chunkSize by omega)
    have hlen : min chunkSize (size - j * chunkSize) = blockLen size chunkSize j := rfl
    have hne : blockLen size chunkSize j ≠ 0 := by
      rw [← hlen]
      omega
    have hnext : size - j * chunkSize - blockLen size chunkSize j = size - (j + 1) * chunkSize := by
      rw [← hlen, Nat.succ_mul]
      omega
    rw [pushEntries, Option.getD_some, hlen, if_neg hne, hnext, ih (j + 1) (by omega)]
    dsimp only
    rw [piece_entry file base ent rest hfile]
    rw [show j + 1 + rest.length = j + (rest.length + 1) by omega]
    rfl

lemma length_entryChunks (file : Bytes) (base : ℕ) (ents : List ℕ) :
    (entryChunks file base ents).length = ents.length := by
  induction ents with
  | nil => rfl
  | cons ent rest ih => rw [entryChunks, List.length_cons, ih, List.length_cons]

/-- The tables of a file are taken one after the other. -/
lemma pushTables_eq (hpos : 0 < chunkSize) (file : Bytes) (hfile : file.length ≤ u64Max)
    (ts : List Table) : ∀ j l, l = ts.flatMap (fun t => entryChunks file t.baseOffset t.entries) →
      j + l.length ≤ divCeil size chunkSize →
        pushTables chunkSize file.length ts (some (size - j * chunkSize)) =
          ⟨chunkPushes size chunkSize j l, some (size - (j + l.length) * chunkSize), l.length⟩ := by
  induction ts with
  | nil =>
    rintro j l rfl _
    rfl
  | cons t rest ih =>
    rintro j l rfl hj
    rw [List.flatMap_cons, List.length_append, length_entryChunks] at hj ⊢
    rw [pushTables, pushEntries_eq hpos file hfile t.baseOffset t.entries j (by omega)]
    dsimp only
    rw [ih _ _ rfl (by omega), chunkPushes_append, length_entryChunks, Nat.add_assoc]

end Pushing

/-! ## The files are mapped one by one -/

section Opening

variable {g : Geometry} {segments : List (String × Bytes)}

/-- What is opened of some files, from the `j`-th chunk on: a part for each that has chunks. -/
def partsFrom (g : Geometry) : ℕ → List (String × Bytes) → List Part
  | _, [] => []
  | j, seg :: rest =>
    let l := fileChunks seg.2
    let more := partsFrom g (j + l.length) rest
    if l = [] then more
    else ⟨seg.1, seg.2, chunkPushes g.mediaSize g.chunkSize j l, max g.bytesPerSector 512⟩ :: more

lemma chunksOf_cons (seg : String × Bytes) (rest : List (String × Bytes)) :
    chunksOf (seg :: rest) = fileChunks seg.2 ++ chunksOf rest := List.flatMap_cons

lemma mediaSize_le (g : Geometry) : g.mediaSize ≤ u64Max := min_le_right _ _

lemma nextOut_ofPushes (pushes : List (ℕ × Piece)) :
    (SegmentMap.ofPushes pushes).nextOut = min (totalOut pushes) u64Max :=
  (SegmentMap.denotes_ofPushes (B := fun _ => none) (D := fun _ _ _ _ => none) (fun _ _ => rfl)
    pushes).next

/-- How much the chunks of a file have. -/
lemma outLen_chunkPushes (hpos : 0 < g.chunkSize) (l : List Chunk) (j : ℕ) :
    (SegmentMap.ofPushes (chunkPushes g.mediaSize g.chunkSize j l)).nextOut =
      min (l.length * g.chunkSize) (g.mediaSize - j * g.chunkSize) := by
  have hmax := mediaSize_le g
  rw [nextOut_ofPushes, chunkPushes_eq _ _ (fun i => (l[i - j]?.map Chunk.piece).getD .zero) l j
    fun i c hc => by rw [Nat.add_sub_cancel_left, hc]; rfl]
  rw [(blockPieces_spec (B := fun _ => none) (D := fun _ _ _ _ => none) _ hpos _ l.length j).1,
    min_eq_left]
  exact (min_le_right _ _).trans ((Nat.sub_le _ _).trans hmax)

/-- With the geometry in hand, every file goes on where the last one ended. -/
lemma openFrom_eq (hpos : 0 < g.chunkSize) (segs : List (String × Bytes)) : ∀ j visited r,
    (∀ seg ∈ segs, seg.2.length ≤ u64Max) →
    (∀ seg ∈ segs, geometryOf seg.2 = none ∨ geometryOf seg.2 = some g) →
    j + (chunksOf segs).length ≤ divCeil g.mediaSize g.chunkSize →
    openFrom segs (some g) (some (g.mediaSize - j * g.chunkSize)) visited = some r →
      r = (some g, partsFrom g j segs) := by
  induction segs with
  | nil =>
    intro j visited r _ _ _ h
    exact (Option.some.inj h).symm
  | cons seg rest ih =>
    intro j visited r hfile hgeom hj h
    rw [chunksOf_cons, List.length_append] at hj
    rw [openFrom] at h
    simp only [Option.bind_eq_bind, Option.bind_eq_some_iff, Option.guard_eq_some'] at h
    obtain ⟨-, -, parsed, hparsed, g', hg', -, -, more, hmore, h⟩ := h
    obtain rfl : parsed = (geometryOf seg.2, tablesOf seg.2) := by
      unfold parseSegment at hparsed
      split at hparsed
      · cases hparsed
      · exact (Option.some.inj hparsed).symm
    have hsame : g' = g := by
      dsimp only at hg'
      rcases hgeom seg List.mem_cons_self with hnone | hsome
      · rw [hnone] at hg'
        exact (Option.some.inj hg').symm
      · rw [hsome] at hg'
        exact (Option.some.inj hg').symm
    subst hsame
    have hrem : (match geometryOf seg.2 with
        | some g => (some (g'.mediaSize - j * g'.chunkSize)).or (some g.mediaSize)
        | none => some (g'.mediaSize - j * g'.chunkSize)) =
          some (g'.mediaSize - j * g'.chunkSize) := by
      cases geometryOf seg.2 <;> rfl
    dsimp only at hmore h
    rw [hrem, pushTables_eq hpos seg.2 (hfile seg List.mem_cons_self) _ j (fileChunks seg.2) rfl
      (by omega)] at hmore h
    obtain rfl := ih _ _ more (fun s hs => hfile s (List.mem_cons_of_mem _ hs))
      (fun s hs => hgeom s (List.mem_cons_of_mem _ hs)) (by omega) hmore
    rw [← Option.some.inj h, partsFrom]
    dsimp only
    unfold Part.outLen
    rw [outLen_chunkPushes hpos]
    by_cases hnil : fileChunks seg.2 = []
    · rw [if_pos hnil, if_pos (by rw [hnil, List.length_nil, Nat.zero_mul, Nat.zero_min])]
    · have hlen : 0 < (fileChunks seg.2).length := List.length_pos_iff.2 hnil
      have hleft := lt_divCeil_of_lt hpos (show j < divCeil g'.mediaSize g'.chunkSize by omega)
      have hsome : 0 < (fileChunks seg.2).length * g'.chunkSize := Nat.mul_pos hlen hpos
      rw [if_neg hnil, if_neg (by omega)]

/-- The first file has the geometry. -/
lemma openFrom_first {seg : String × Bytes} {rest : List (String × Bytes)}
    (h : geometryOf seg.2 = some g) (visited : ℕ) :
    openFrom (seg :: rest) none none visited =
      openFrom (seg :: rest) (some g) (some (g.mediaSize - 0 * g.chunkSize)) visited := by
  rw [openFrom, openFrom, Nat.zero_mul, Nat.sub_zero]
  unfold parseSegment
  split
  · rfl
  · rw [h]
    rfl

/-- A geometry that is taken has sectors and chunks. -/
lemma geometryOf_pos {file : Bytes} (h : geometryOf file = some g) :
    (0 < g.sectorsPerChunk ∧ g.sectorsPerChunk ≤ u32Max) ∧
      0 < g.bytesPerSector ∧ g.bytesPerSector ≤ u32Max := by
  obtain ⟨s, -, hs⟩ := List.mem_filterMap.1 (List.mem_of_getLast? h)
  split at hs
  · obtain ⟨d, -, hd⟩ := Option.bind_eq_some_iff.1 hs
    by_cases hzero : leU32 d 8 = 0 ∨ leU32 d 12 = 0
    · rw [if_pos hzero] at hd
      cases hd
    · rw [if_neg hzero] at hd
      rw [← Option.some.inj hd]
      have hspc := leU32_lt d 8
      have hbps := leU32_lt d 12
      have hmax : u32Max = 2 ^ 32 - 1 := by decide
      dsimp only
      exact ⟨⟨by omega, by omega⟩, by omega, by omega⟩
  · cases hs

end Opening

/-! ## The opened source -/

/-- A part, as an image. -/
def Part.image (p : Part) (dec : StreamDecoder) (h : p.file.length ≤ u64Max) : FileImage where
  file := p.file
  inflate _ := dec.inflate
  pushes := p.pushes
  outLen := p.outLen
  sectorSize := p.sectorSize
  id := "ewf-seg:" ++ p.path ++ ":" ++ toString p.outLen
  file_le := h
  outLen_le := by
    unfold Part.outLen
    rw [nextOut_ofPushes]
    exact min_le_right _ _

/-- All bytes of a part can be had. -/
structure Part.Readable (p : Part) (dec : StreamDecoder) (sector : ℕ) : Prop where
  file_le : p.file.length ≤ u64Max
  sector_eq : p.sectorSize = sector
  sector_le : sector ≤ u32Max
  whole : ∀ x < p.outLen, (pushed (fun y => p.file[y]?) (fileBlock (fun _ => dec.inflate) p.file)
    p.pushes x).isSome = true

/-- A part that can be read. -/
def Part.wholeImage (p : Part) {dec : StreamDecoder} {sector : ℕ} (h : p.Readable dec sector) :
    WholeImage where
  image := p.image dec h.file_le
  content x := ((p.image dec h.file_le).byte x).getD 0
  whole x hx := by
    obtain ⟨b, hb⟩ := Option.isSome_iff_exists.1 (h.whole x hx)
    have hbyte : (p.image dec h.file_le).byte x = some b := hb
    rw [hbyte]
    rfl
  sectorSize_le := by
    rw [show (p.image dec h.file_le).sectorSize = p.sectorSize from rfl, h.sector_eq]
    exact h.sector_le

/-- Parts have some content, from `a` on. -/
def PartsHave (dec : StreamDecoder) (f : ℕ → UInt8) : ℕ → List Part → Prop
  | _, [] => True
  | a, p :: rest => (∀ x < p.outLen, pushed (fun y => p.file[y]?)
      (fileBlock (fun _ => dec.inflate) p.file) p.pushes x = some (f (a + x))) ∧
        PartsHave dec f (a + p.outLen) rest

lemma PartsHave.chained {dec : StreamDecoder} {sector : ℕ} {f : ℕ → UInt8} (parts : List Part) :
    ∀ a (h : ∀ p ∈ parts, p.Readable dec sector), PartsHave dec f a parts →
      Chained f a (parts.pmap (fun p hp => p.wholeImage hp) h) := by
  induction parts with
  | nil => exact fun a _ _ => trivial
  | cons p rest ih =>
    intro a h hhave
    refine ⟨fun x hx => ?_, ih _ _ hhave.2⟩
    have hbyte : (p.image dec (h p List.mem_cons_self).file_le).byte x = some (f (a + x)) :=
      hhave.1 x hx
    change ((p.image dec _).byte x).getD 0 = _
    rw [hbyte]
    rfl

lemma PartsHave.isSome {dec : StreamDecoder} {f : ℕ → UInt8} (parts : List Part) :
    ∀ a, PartsHave dec f a parts → ∀ p ∈ parts, ∀ x < p.outLen,
      (pushed (fun y => p.file[y]?) (fileBlock (fun _ => dec.inflate) p.file) p.pushes x).isSome =
        true := by
  induction parts with
  | nil => exact fun a _ p hp => absurd hp List.not_mem_nil
  | cons q rest ih =>
    intro a hhave p hp x hx
    rcases List.mem_cons.1 hp with rfl | hp
    · rw [hhave.1 x hx]
      rfl
    · exact ih _ hhave.2 p hp x hx

lemma lengthOf_pmap {dec : StreamDecoder} {sector : ℕ} (parts : List Part)
    (h : ∀ p ∈ parts, p.Readable dec sector) :
    lengthOf (parts.pmap (fun p hp => p.wholeImage hp) h) = (parts.map Part.outLen).sum := by
  unfold lengthOf
  rw [List.map_pmap]
  exact congrArg List.sum (List.pmap_eq_map ..)

namespace ChunkSet

variable {set : ChunkSet}

lemma geometry_pos (set : ChunkSet) : 0 < set.geometry.chunkSize ∧
    set.geometry.bytesPerSector ≤ u32Max ∧ set.geometry.mediaSize = set.mediaLen := by
  obtain ⟨seg, rest, -, hgeom⟩ := set.first
  obtain ⟨⟨hspc, -⟩, hbps, hmax⟩ := geometryOf_pos hgeom
  have hmul := Nat.mul_pos hspc hbps
  have hu : 0 < u64Max := by decide
  exact ⟨lt_min hmul hu, hmax, min_eq_left set.fits⟩

/-- What the opener opens. -/
lemma parts_eq (set : ChunkSet) :
    set.parts = partsFrom set.geometry 0 set.segments ∧ set.parts ≠ [] := by
  obtain ⟨hpos, -, -⟩ := set.geometry_pos
  obtain ⟨seg, rest, hsegs, hgeom⟩ := set.first
  have h := set.accepted
  unfold openParts at h
  simp only [Option.bind_eq_bind, Option.bind_eq_some_iff, Option.guard_eq_some'] at h
  obtain ⟨all, hall, g, hg, -, hne, h⟩ := h
  rw [hsegs, openFrom_first hgeom, ← hsegs] at hall
  obtain rfl := openFrom_eq hpos set.segments 0 0 all set.file_le set.rest
    (by rw [Nat.zero_add, set.covers]) hall
  obtain ⟨-, hparts⟩ := Prod.mk.inj (Option.some.inj h)
  rw [← hparts]
  exact ⟨rfl, hne⟩

/-- A chunk that is there decodes to its bytes. -/
lemma byte_piece (set : ChunkSet) {file : Bytes} (hfile : file.length ≤ u64Max) {j : ℕ} {c : Chunk}
    (hc : (chunksOf set.segments)[j]? = some c) (hsame : c.file = file) {i : ℕ}
    (hi : i < blockLen set.geometry.mediaSize set.geometry.chunkSize j) :
    c.piece.byte (fun y => file[y]?) (fileBlock (fun _ => set.dec.inflate) file)
      (blockLen set.geometry.mediaSize set.geometry.chunkSize j) i = some (c.byte set.dec i) := by
  subst hsame
  have hhas := set.has j c hc
  unfold Chunk.piece Chunk.byte
  cases hcomp : c.compressed with
  | false =>
    have hraw := hhas.raw hcomp
    have hin : c.offset + i < c.file.length := by omega
    rw [if_neg (by simp), if_neg (by simp), min_eq_left (by omega)]
    exact (List.getElem?_eq_getElem hin).trans
      (congrArg some (List.getD_eq_getElem _ _ hin).symm)
  | true =>
    obtain ⟨out, n, hread, hlen, hstop⟩ := hhas.stream hcomp
    obtain ⟨hsmall, hstream⟩ := hhas.decodable hcomp
    have hn := set.dec.length_le _ _ _ hread
    rw [List.length_drop] at hn
    have hle := hstream out n hread
    have hdrop : c.file.drop (min c.offset u64Max) = c.file.drop c.offset := by
      rcases le_total c.offset u64Max with hoff | hoff
      · rw [min_eq_left hoff]
      · rw [List.drop_eq_nil_of_le (by omega), List.drop_eq_nil_of_le (by omega)]
    have hblock := fileBlock_stream (show Codec.zlib ≠ .raw ∧ Codec.zlib ≠ .zero by decide)
      (by rw [hdrop]; exact hread) (max (min c.stop u64Max - min c.offset u64Max) 1)
      (blockLen set.geometry.mediaSize set.geometry.chunkSize j)
    rw [if_pos ⟨le_min (by omega) hle, hlen, hsmall⟩] at hblock
    rw [if_pos rfl, if_pos rfl, hread]
    change (fileBlock _ _ _ _ _ _).map _ = _
    rw [hblock]
    rfl

/-- A part has the bytes of its chunks. -/
lemma byte_part (set : ChunkSet) {file : Bytes} (hfile : file.length ≤ u64Max) (l : List Chunk)
    {j : ℕ} (hl : ∀ i c, l[i]? = some c → (chunksOf set.segments)[j + i]? = some c ∧ c.file = file)
    {x : ℕ} (hx : x < min (l.length * set.geometry.chunkSize)
      (set.geometry.mediaSize - j * set.geometry.chunkSize)) :
    pushed (fun y => file[y]?) (fileBlock (fun _ => set.dec.inflate) file)
      (chunkPushes set.geometry.mediaSize set.geometry.chunkSize j l) x =
        some (set.mediaByte (j * set.geometry.chunkSize + x)) := by
  obtain ⟨hpos, -, -⟩ := set.geometry_pos
  have hin : x / set.geometry.chunkSize < l.length := (Nat.div_lt_iff_lt_mul hpos).2 (by omega)
  obtain ⟨hchunk, hsame⟩ := hl _ _ (List.getElem?_eq_getElem hin)
  have hplace : (j * set.geometry.chunkSize + x) / set.geometry.chunkSize =
      j + x / set.geometry.chunkSize := by
    rw [Nat.add_comm, Nat.add_mul_div_right _ _ hpos, Nat.add_comm]
  have hwithin : (j * set.geometry.chunkSize + x) % set.geometry.chunkSize =
      x % set.geometry.chunkSize := by
    rw [Nat.add_comm, Nat.add_mul_mod_self_right]
  have hlen : x % set.geometry.chunkSize < blockLen set.geometry.mediaSize set.geometry.chunkSize
      (j + x / set.geometry.chunkSize) := by
    have hmod := Nat.mod_lt x hpos
    have hdiv := Nat.div_add_mod' x set.geometry.chunkSize
    have hadd := Nat.add_mul j (x / set.geometry.chunkSize) set.geometry.chunkSize
    unfold blockLen
    omega
  have hpieces := chunkPushes_eq set.geometry.mediaSize set.geometry.chunkSize
    (fun i => ((chunksOf set.segments)[i]?.map Chunk.piece).getD .zero) l j
    fun i c hc => by rw [(hl i c hc).1]; rfl
  rw [hpieces, (blockPieces_spec _ hpos _ l.length j).2 x hx, hchunk]
  refine (set.byte_piece hfile hchunk hsame hlen).trans ?_
  unfold mediaByte
  rw [hplace, hwithin, hchunk]

/-- Where the chunks before the `j`-th end. -/
def chunkEnd (g : Geometry) (j : ℕ) : ℕ := min (j * g.chunkSize) g.mediaSize

/-- How much is opened of a file. -/
lemma outLen_of_chunks {g : Geometry} (hpos : 0 < g.chunkSize) (path : String) (file : Bytes)
    (l : List Chunk) (j sector : ℕ) :
    chunkEnd g j + Part.outLen ⟨path, file, chunkPushes g.mediaSize g.chunkSize j l, sector⟩ =
      chunkEnd g (j + l.length) := by
  unfold Part.outLen chunkEnd
  rw [outLen_chunkPushes hpos, Nat.add_mul]
  omega

/-- **The parts have the medium**, from chunk to chunk. -/
lemma partsHave_from (set : ChunkSet) (segs : List (String × Bytes)) : ∀ j,
    (∀ seg ∈ segs, seg.2.length ≤ u64Max) →
    (∀ (i : ℕ) (c : Chunk), (chunksOf segs)[i]? = some c →
      (chunksOf set.segments)[j + i]? = some c) →
    (∀ seg ∈ segs, ∀ c ∈ fileChunks seg.2, c.file = seg.2) →
    PartsHave set.dec set.mediaByte (chunkEnd set.geometry j) (partsFrom set.geometry j segs) := by
  obtain ⟨hpos, -, -⟩ := set.geometry_pos
  induction segs with
  | nil => exact fun j _ _ _ => trivial
  | cons seg rest ih =>
    intro j hfile hchunks hsame
    rw [chunksOf_cons] at hchunks
    have hrest := ih (j + (fileChunks seg.2).length)
      (fun s hs => hfile s (List.mem_cons_of_mem _ hs)) (fun i c hc => by
        rw [Nat.add_assoc]
        apply hchunks _ c
        rw [List.getElem?_append_right (Nat.le_add_right _ _), Nat.add_sub_cancel_left]
        exact hc)
      fun s hs => hsame s (List.mem_cons_of_mem _ hs)
    rw [partsFrom]
    by_cases hnil : fileChunks seg.2 = []
    · rw [if_pos hnil]
      rw [hnil, List.length_nil, Nat.add_zero] at hrest ⊢
      exact hrest
    · rw [if_neg hnil]
      have hl : ∀ (i : ℕ) (c : Chunk), (fileChunks seg.2)[i]? = some c →
          (chunksOf set.segments)[j + i]? = some c ∧ c.file = seg.2 := by
        intro i c hc
        have hlt := (List.getElem?_eq_some_iff.1 hc).1
        exact ⟨hchunks i c (by rw [List.getElem?_append_left hlt]; exact hc),
          hsame seg List.mem_cons_self c (List.mem_of_getElem? hc)⟩
      have hlast : j < divCeil set.geometry.mediaSize set.geometry.chunkSize := by
        have hlen := List.length_pos_iff.2 hnil
        have hhead := (hl 0 _ (List.getElem?_eq_getElem hlen)).1
        have hlt := (List.getElem?_eq_some_iff.1 hhead).1
        rw [set.covers] at hlt
        exact hlt
      have hstart : chunkEnd set.geometry j = j * set.geometry.chunkSize :=
        min_eq_left (lt_divCeil_of_lt hpos hlast).le
      refine ⟨fun x hx => ?_, ?_⟩
      · rw [hstart]
        apply set.byte_part (hfile seg List.mem_cons_self) _ hl
        unfold Part.outLen at hx
        rw [outLen_chunkPushes hpos] at hx
        exact hx
      · rw [outLen_of_chunks hpos]
        exact hrest

lemma file_of_mem_fileChunks {file : Bytes} {c : Chunk} (h : c ∈ fileChunks file) :
    c.file = file := by
  obtain ⟨t, -, hc⟩ := List.mem_flatMap.1 h
  generalize t.entries = ents at hc
  induction ents with
  | nil => exact absurd hc List.not_mem_nil
  | cons ent rest ih =>
    rcases List.mem_cons.1 hc with rfl | hc
    · rfl
    · exact ih hc

lemma mem_partsFrom {g : Geometry} {p : Part} (segs : List (String × Bytes)) : ∀ j,
    p ∈ partsFrom g j segs → p.sectorSize = max g.bytesPerSector 512 ∧
      ∃ seg ∈ segs, p.file = seg.2 := by
  induction segs with
  | nil => exact fun j h => absurd h List.not_mem_nil
  | cons seg rest ih =>
    intro j h
    rw [partsFrom] at h
    by_cases hnil : fileChunks seg.2 = []
    · rw [if_pos hnil] at h
      obtain ⟨hsize, s, hs, hfile⟩ := ih _ h
      exact ⟨hsize, s, List.mem_cons_of_mem _ hs, hfile⟩
    · rw [if_neg hnil] at h
      rcases List.mem_cons.1 h with rfl | h
      · exact ⟨rfl, seg, List.mem_cons_self, rfl⟩
      · obtain ⟨hsize, s, hs, hfile⟩ := ih _ h
        exact ⟨hsize, s, List.mem_cons_of_mem _ hs, hfile⟩

/-- As many parts are opened as files have chunks. -/
lemma length_partsFrom {g : Geometry} (segs : List (String × Bytes)) : ∀ j,
    (partsFrom g j segs).length =
      (segs.filter fun seg => decide (fileChunks seg.2 ≠ [])).length := by
  induction segs with
  | nil => exact fun j => rfl
  | cons seg rest ih =>
    intro j
    rw [partsFrom]
    by_cases hnil : fileChunks seg.2 = []
    · rw [if_pos hnil, ih, List.filter_cons_of_neg (by simpa using hnil)]
    · rw [if_neg hnil, List.length_cons, ih, List.filter_cons_of_pos (by simpa using hnil),
        List.length_cons]

/-- The parts have all that is up to the end of their chunks. -/
lemma sum_partsFrom {g : Geometry} (hpos : 0 < g.chunkSize) (segs : List (String × Bytes)) : ∀ j,
    chunkEnd g j + ((partsFrom g j segs).map Part.outLen).sum =
      chunkEnd g (j + (chunksOf segs).length) := by
  induction segs with
  | nil => exact fun j => rfl
  | cons seg rest ih =>
    intro j
    rw [partsFrom, chunksOf_cons, List.length_append, ← Nat.add_assoc, ← ih]
    by_cases hnil : fileChunks seg.2 = []
    · rw [if_pos hnil, hnil, List.length_nil, Nat.add_zero]
    · rw [if_neg hnil, List.map_cons, List.sum_cons, ← Nat.add_assoc, outLen_of_chunks hpos]

/-- The parts have whole sectors if the chunks of every file end with one. -/
lemma dvd_partsFrom {g : Geometry} (hpos : 0 < g.chunkSize) (ss : ℕ)
    (segs : List (String × Bytes)) :
    ∀ j, ss ∣ chunkEnd g j → ((∀ p ∈ partsFrom g j segs, ss ∣ p.outLen) ↔
      ∀ i, ss ∣ chunkEnd g (j + (chunksOf (segs.take i)).length)) := by
  induction segs with
  | nil =>
    intro j hj
    apply iff_of_true (fun p hp => absurd hp List.not_mem_nil)
    intro i
    rw [List.take_nil]
    exact hj
  | cons seg rest ih =>
    intro j hj
    have htake : ∀ i, chunkEnd g (j + (chunksOf ((seg :: rest).take (i + 1))).length) =
        chunkEnd g (j + (fileChunks seg.2).length + (chunksOf (rest.take i)).length) := by
      intro i
      rw [List.take_succ_cons, chunksOf_cons, List.length_append, Nat.add_assoc]
    have hsplit : (∀ i, ss ∣ chunkEnd g (j + (chunksOf ((seg :: rest).take i)).length)) ↔
        ∀ i, ss ∣ chunkEnd g (j + (fileChunks seg.2).length + (chunksOf (rest.take i)).length) := by
      constructor
      · intro h i
        rw [← htake]
        exact h (i + 1)
      · intro h i
        cases i with
        | zero => exact hj
        | succ i =>
          rw [htake]
          exact h i
    rw [hsplit, partsFrom]
    by_cases hnil : fileChunks seg.2 = []
    · rw [if_pos hnil, hnil, List.length_nil, Nat.add_zero]
      exact ih j hj
    · rw [if_neg hnil, List.forall_mem_cons]
      have hend := outLen_of_chunks hpos seg.1 seg.2 (fileChunks seg.2) j
        (max g.bytesPerSector 512)
      constructor
      · rintro ⟨hhere, hrest⟩
        exact (ih _ (by rw [← hend]; exact hj.add hhere)).1 hrest
      · intro h
        have hnext : ss ∣ chunkEnd g (j + (fileChunks seg.2).length) := h 0
        refine ⟨(Nat.dvd_add_right hj).1 (by rw [hend]; exact hnext), (ih _ hnext).2 h⟩

/-! ## The whole -/

/-- The parts have the medium. -/
lemma partsHave (set : ChunkSet) : PartsHave set.dec set.mediaByte 0 set.parts := by
  have h := set.partsHave_from set.segments 0 set.file_le
    (fun i c hc => by rw [Nat.zero_add]; exact hc)
    fun seg _ c hc => file_of_mem_fileChunks hc
  rw [← set.parts_eq.1] at h
  have hzero : chunkEnd set.geometry 0 = 0 := by
    unfold chunkEnd
    rw [Nat.zero_mul, Nat.zero_min]
  rw [hzero] at h
  exact h

lemma readable (set : ChunkSet) : ∀ p ∈ set.parts, p.Readable set.dec set.sector := by
  intro p hp
  have hmem := hp
  rw [set.parts_eq.1] at hmem
  obtain ⟨hsize, seg, hseg, hfile⟩ := mem_partsFrom _ _ hmem
  have hmax : 512 ≤ u32Max := by decide
  exact ⟨hfile ▸ set.file_le seg hseg, hsize, max_le set.geometry_pos.2.1 hmax,
    set.partsHave.isSome _ _ p hp⟩

/-- The parts, as images. -/
def images (set : ChunkSet) : List WholeImage :=
  set.parts.pmap (fun p h => p.wholeImage h) set.readable

lemma length_images (set : ChunkSet) : lengthOf set.images = set.mediaLen := by
  obtain ⟨hpos, -, hmedia⟩ := set.geometry_pos
  have hsum := sum_partsFrom hpos set.segments 0
  have hall := le_divCeil_mul hpos set.geometry.mediaSize
  rw [← set.parts_eq.1, Nat.zero_add, set.covers] at hsum
  unfold chunkEnd at hsum
  rw [Nat.zero_mul, Nat.zero_min, Nat.zero_add, min_eq_right hall, hmedia] at hsum
  exact (lengthOf_pmap _ _).trans hsum

lemma sector_of_mem_images {w : WholeImage} (h : w ∈ set.images) : w.image.sector = set.sector := by
  obtain ⟨p, hp, rfl⟩ := List.mem_pmap.1 h
  have hsize := (set.readable p hp).sector_eq
  have hpos : max set.sector 1 = set.sector := by
    unfold sector
    omega
  exact (congrArg (max · 1) hsize).trans hpos

/-- The files that are concatenated. -/
def joined (set : ChunkSet) : ImageList where
  images := set.images
  id := "ewf:" ++ set.path ++ ":" ++ toString set.geometry.mediaSize
  sector := set.sector
  sector_eq _ h := sector_of_mem_images h
  nonempty h := set.parts_eq.2 (List.length_eq_zero_iff.1
    (List.length_pmap.symm.trans (congrArg List.length h)))
  fits := by
    rw [length_images]
    exact set.fits

/-- The opened source is the medium: one part by itself, or the parts end to end. -/
def Right (set : ChunkSet) : Prop :=
  match set.images with
  | [w] => w.image.outLen = set.mediaLen ∧ w.image.ReadsAs set.mediaByte
  | _ => set.joined.source.total = set.mediaLen ∧ set.joined.ReadsAs set.mediaByte

/-- **A set reads as its medium** exactly if one file has all the chunks, or those of every file end
with a whole sector. -/
theorem right_iff (set : ChunkSet) :
    set.Right ↔ (set.segments.filter fun seg => decide (fileChunks seg.2 ≠ [])).length = 1 ∨
      ∀ i, set.sector ∣ set.fileEnd i := by
  obtain ⟨hpos, -, hmedia⟩ := set.geometry_pos
  have hchain : Chained set.mediaByte 0 set.images := set.partsHave.chained _ _ _
  have hcount : set.images.length =
      (set.segments.filter fun seg => decide (fileChunks seg.2 ≠ [])).length := by
    rw [← length_partsFrom set.segments 0, ← set.parts_eq.1]
    exact List.length_pmap
  have htotal : set.joined.source.total = set.mediaLen ↔
      ∀ w ∈ set.images, set.sector ∣ w.image.outLen := by
    rw [← length_images]
    exact (Eq.congr_left set.joined.total_source).trans (countedOf_eq_iff set.images)
  have hwhole : (∀ w ∈ set.images, set.sector ∣ w.image.outLen) ↔
      ∀ i, set.sector ∣ set.fileEnd i := by
    have hdvd := dvd_partsFrom hpos set.sector set.segments 0 (by
      unfold chunkEnd
      rw [Nat.zero_mul, Nat.zero_min]
      exact Nat.dvd_zero _)
    rw [← set.parts_eq.1] at hdvd
    refine Iff.trans ?_ (hdvd.trans (forall_congr' fun i => ?_))
    · constructor
      · exact fun h p hp => h _ (List.mem_pmap.2 ⟨p, hp, rfl⟩)
      · intro h w hw
        obtain ⟨p, hp, rfl⟩ := List.mem_pmap.1 hw
        exact h p hp
    · rw [Nat.zero_add, chunkEnd, hmedia]
      rfl
  rw [← hcount, ← hwhole]
  unfold Right
  split
  · rename_i w hone
    refine iff_of_true ⟨?_, ?_⟩ (.inl (by rw [hone]; rfl))
    · rw [← length_images, hone]
      exact (Nat.add_zero _).symm
    · rw [hone] at hchain
      refine (FileImage.readsAs_iff _ _).2 fun x hx => ?_
      rw [w.whole x hx, hchain.1 x hx, Nat.zero_add]
  · rename_i hmany
    have hne : set.images.length ≠ 1 := fun h => by
      obtain ⟨w, hw⟩ := List.length_eq_one_iff.1 h
      exact hmany w hw
    rw [or_iff_right hne, htotal]
    exact and_iff_left_of_imp fun hdvd => set.joined.readsAs hchain hdvd

/-- The chunks of every file end with a whole sector if the sectors are of 512 bytes or more. -/
lemma dvd_fileEnd (set : ChunkSet) (h : 512 ≤ set.geometry.bytesPerSector) (i : ℕ) :
    set.sector ∣ set.fileEnd i := by
  have hsector : set.sector = set.geometry.bytesPerSector := max_eq_left h
  have hmedia : set.geometry.bytesPerSector ∣ set.mediaLen := Nat.dvd_mul_left ..
  rw [hsector]
  unfold fileEnd
  rcases min_choice ((chunksOf (set.segments.take i)).length * set.geometry.chunkSize)
    set.mediaLen with hmin | hmin
  · rw [hmin]
    obtain ⟨seg, rest, -, hgeom⟩ := set.first
    obtain ⟨⟨-, hspc⟩, -, hbps⟩ := geometryOf_pos hgeom
    have hsize : set.geometry.chunkSize =
        set.geometry.sectorsPerChunk * set.geometry.bytesPerSector :=
      min_eq_left ((Nat.mul_le_mul hspc hbps).trans (by decide))
    rw [hsize]
    exact (Nat.dvd_mul_left ..).mul_left _
  · rw [hmin]
    exact hmedia

/-! ## Sectors smaller than 512 bytes -/

/-- The first of two files, with the geometry and one chunk of 256 bytes. -/
def firstFile : Bytes :=
  List.flatten [[0x45, 0x56, 0x46, 9, 0x0D, 0x0A, 0xFF, 0, 1, 1, 0, 0, 0], volumeKind,
    List.replicate 10 0, [0x79], List.replicate 7 0, [0x6C], List.replicate 55 0, [2, 0, 0, 0, 1],
    List.replicate 4 0, [1, 0, 0, 2], List.replicate 15 0, tableKind, List.replicate 11 0,
    [0xE1, 1], List.replicate 6 0, [0x68], List.replicate 51 0, [1], List.replicate 7 0, [0xE1],
    List.replicate 19 0, List.replicate 256 7, nextKind, List.replicate 12 0, [0xE1, 1],
    List.replicate 6 0, [0x4C], List.replicate 51 0]

/-- The second, with another chunk. -/
def secondFile : Bytes :=
  List.flatten [[0x45, 0x56, 0x46, 9, 0x0D, 0x0A, 0xFF, 0, 1, 2, 0, 0, 0], tableKind,
    List.replicate 11 0, [0x75, 1], List.replicate 6 0, [0x68], List.replicate 51 0, [1],
    List.replicate 7 0, [0x75], List.replicate 19 0, List.replicate 256 9, doneKind,
    List.replicate 12 0, [0x75, 1], List.replicate 6 0, [0x4C], List.replicate 51 0]

def smallSegments : List (String × Bytes) := [("s.E01", firstFile), ("s.E02", secondFile)]

lemma chunksOf_small : chunksOf smallSegments =
    [⟨firstFile, 225, 557, false⟩, ⟨secondFile, 117, 449, false⟩] := by decide +kernel

/-- A medium of two sectors of 256 bytes, one in each file. -/
def smallSectors : ChunkSet where
  path := "s.E01"
  segments := smallSegments
  dec := .stored
  geometry := ⟨1, 256, 2⟩
  parts := [⟨"s.E01", firstFile, [(256, .raw 225)], 512⟩,
    ⟨"s.E02", secondFile, [(256, .raw 117)], 512⟩]
  accepted := by decide +kernel
  file_le := by decide +kernel
  first := ⟨_, _, rfl, by decide +kernel⟩
  rest := by decide +kernel
  fits := by decide
  covers := by
    rw [chunksOf_small]
    decide
  has j c hc := by
    rw [chunksOf_small] at hc
    have hraw : c.compressed = false ∧ c.offset + 256 ≤ c.file.length := by
      rcases List.mem_cons.1 (List.mem_of_getElem? hc) with rfl | hmem
      · exact ⟨rfl, by decide +kernel⟩
      · rw [List.mem_singleton.1 hmem]
        exact ⟨rfl, by decide +kernel⟩
    have hlen : blockLen (Geometry.mediaSize ⟨1, 256, 2⟩)
      (Geometry.chunkSize ⟨1, 256, 2⟩) j ≤ 256 :=
      min_le_left _ _
    have hnot : ¬ c.compressed = true := by simp [hraw.1]
    exact ⟨fun _ => by omega, fun h => absurd h hnot, fun h => absurd h hnot⟩

/-- Of a medium with small sectors, what does not fill a sector of 512 bytes in its file is lost. -/
theorem right_counterexample : ¬ ∀ set : ChunkSet, set.Right := by
  intro h
  have htotal : smallSectors.joined.source.total = smallSectors.mediaLen := (h smallSectors).1
  have hzero : smallSectors.joined.source.total = 0 := by
    rw [smallSectors.joined.total_source]
    decide
  rw [hzero] at htotal
  exact absurd htotal (by decide)

end ChunkSet

end Ewf

end Reclaim
