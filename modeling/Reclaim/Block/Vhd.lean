import Reclaim.Block.BlockTable

/-!
# VHD images

A dynamic disk is a table of blocks; each block that is there begins with a bitmap of its sectors,
and a sector has its data if its bit is set.  The opener looks at the bitmaps and pushes each block
as one run of the file if all its bits are set, and sector by sector otherwise.

`sectorByte` says what the format makes of a position, and `serves` that the opened source serves
that, by the one path or the other.
-/

namespace Reclaim

open FileBytes

namespace Vhd

/-- "cxsparse", which the header of a dynamic disk begins with. -/
def dynamicCookie : Bytes := [0x63, 0x78, 0x73, 0x70, 0x61, 0x72, 0x73, 0x65]

/-- "conectix", which the footer begins with. -/
def footerCookie : Bytes := [0x63, 0x6F, 0x6E, 0x65, 0x63, 0x74, 0x69, 0x78]

/-- `BAT_UNUSED`. -/
def batUnused : ℕ := 0xFFFFFFFF

/-- What a dynamic disk says of itself. -/
structure Geometry where
  currentSize : ℕ
  blockSize : ℕ
  maxEntries : ℕ
  bat : Bytes
  deriving DecidableEq

/-- What a VHD is. -/
inductive Layout where
  | fixed (currentSize : ℕ)
  | dynamic (g : Geometry)
  deriving DecidableEq

/-- The header and the table that `open_dynamic` reads. -/
def dynamicGeometry (file : Bytes) (dataOffset currentSize : ℕ) : Option Geometry := do
  let hdr ← readExact file dataOffset 1024
  guard (getRange hdr 0 8 = some dynamicCookie)
  let tableOffset ← getBe 8 hdr 16
  let maxEntries ← getBe 4 hdr 28
  let blockSize ← getBe 4 hdr 32
  guard ¬(blockSize = 0 ∨ ¬512 ∣ blockSize ∨ 64 * 1024 * 1024 < blockSize ∨
    2040 * 1024 * 1024 * 1024 < currentSize ∨ maxEntries = 0 ∨ 16 * 1024 * 1024 < maxEntries)
  let bat ← readExact file tableOffset (saturatingMul maxEntries 4)
  some ⟨currentSize, blockSize, maxEntries, bat⟩

/-- The checks of `open`. -/
def layout (file : Bytes) : Option Layout := do
  guard (512 ≤ file.length)
  let footer ← readExact file (file.length - 512) 512
  guard (getRange footer 0 8 = some footerCookie)
  let dataOffset := (getBe 8 footer 16).getD u64Max
  let currentSize ← getBe 8 footer 48
  let diskType ← getBe 4 footer 60
  if diskType = 2 then some (.fixed currentSize)
  else if diskType = 3 ∨ diskType = 4 then
    (dynamicGeometry file dataOffset currentSize).map .dynamic
  else none

/-- `bit_set`: VHD block bitmaps are MSB-first per byte. -/
def bitSet (bm : Bytes) (sector : ℕ) : Bool :=
  (bm[sector / 8]?).any fun b => b.toNat.testBit (7 - sector % 8)

namespace Geometry

variable (g : Geometry) (file : Bytes)

/-- Bytes of a block's bitmap. -/
def bitmapBytes : ℕ := divCeil (g.blockSize / 512) 8

/-- Bytes of a block's bitmap, padded up to a sector boundary. -/
def bitmapSpan : ℕ := saturatingMul (max (divCeil g.bitmapBytes 512) 1) 512

/-- The entry of a block in the table. -/
def entry (i : ℕ) : ℕ := (getBe 4 g.bat (i * 4)).getD batUnused

/-- Where a block begins in the file. -/
def blockStart (i : ℕ) : ℕ := saturatingMul (g.entry i) 512

/-- Where a block's data begin. -/
def dataStart (i : ℕ) : ℕ := saturatingAdd (g.blockStart i) g.bitmapSpan

/-- The bitmap of a block, empty if it cannot be read. -/
def bitmap (i : ℕ) : Bytes := (readExact file (g.blockStart i) g.bitmapBytes).getD []

/-- How much of the disk is in a block. -/
def thisOut (i : ℕ) : ℕ := min g.blockSize (g.currentSize - i * g.blockSize)

/-- The pushes for the sectors of a block from `sec` on. -/
def sectorPushes (bm : Bytes) (dataStart thisOut : ℕ) : ℕ → ℕ → ℕ → List (ℕ × Piece)
  | 0, _, _ => []
  | fuel + 1, sec, produced =>
    if produced < thisOut then
      let piece := if bitSet bm sec then .raw (saturatingAdd dataStart (saturatingMul sec 512))
        else .zero
      let out := min 512 (thisOut - produced)
      (out, piece) :: sectorPushes bm dataStart thisOut fuel (sec + 1) (produced + out)
    else []

/-- The pushes for a block. -/
def blockPushes (i : ℕ) : List (ℕ × Piece) :=
  if g.entry i = batUnused then [(g.thisOut i, .zero)]
  else
    let bm := g.bitmap file i
    if (List.range (divCeil (g.thisOut i) 512)).all (bitSet bm) then
      [(g.thisOut i, .raw (g.dataStart i))]
    else sectorPushes bm (g.dataStart i) (g.thisOut i) (g.thisOut i) 0 0

/-- The pushes for the blocks from `i` on, up to the end of the disk. -/
def blocksFrom : ℕ → ℕ → List (ℕ × Piece)
  | 0, _ => []
  | n + 1, i => if g.thisOut i = 0 then [] else g.blockPushes file i ++ blocksFrom n (i + 1)

/-- The pushes of `open_dynamic`: the blocks, and a hole up to the end of the disk. -/
def pushes : List (ℕ × Piece) :=
  let blocks := g.blocksFrom file g.maxEntries 0
  let out := (SegmentMap.ofPushes blocks).nextOut
  if out < g.currentSize then blocks ++ [(g.currentSize - out, .zero)] else blocks

/-- The sector at `y` of a block is there: the block is in the table, its bitmap is in the file, and
the sector's bit is set, the highest bit of a byte first. -/
def Present (i y : ℕ) : Prop :=
  i < g.maxEntries ∧ g.entry i ≠ batUnused ∧
    g.entry i * 512 + g.bitmapBytes ≤ file.length ∧
    (byteAt file (g.entry i * 512 + y / 512 / 8)).toNat.testBit (7 - y / 512 % 8) = true

instance (i y : ℕ) : Decidable (g.Present file i y) := inferInstanceAs (Decidable (_ ∧ _))

/-- The byte at `y` of a block, if the file has it: of the block's data where the sector is there,
and zero otherwise. -/
def blockByte (i y : ℕ) : Option UInt8 :=
  if g.Present file i y then file[g.entry i * 512 + g.bitmapSpan + y]? else some 0

/-- The byte of the disk at a position. -/
def sectorByte (x : ℕ) : Option UInt8 := g.blockByte file (x / g.blockSize) (x % g.blockSize)

end Geometry

/-- A dynamic disk that the opener accepts. -/
structure DynamicDisk where
  path : String
  file : Bytes
  file_le : file.length ≤ u64Max
  geometry : Geometry
  accepted : layout file = some (.dynamic geometry)

namespace DynamicDisk

variable (d : DynamicDisk)

/-- What the opener has checked. -/
lemma checks (d : DynamicDisk) : d.geometry.currentSize ≤ u64Max ∧ 0 < d.geometry.blockSize ∧
    512 ∣ d.geometry.blockSize := by
  have h := d.accepted
  unfold layout at h
  simp only [Option.bind_eq_bind, Option.bind_eq_some_iff, Option.guard_eq_some'] at h
  obtain ⟨-, -, footer, -, -, -, size, -, ty, -, h⟩ := h
  by_cases hfixed : ty = 2
  · rw [if_pos hfixed] at h
    cases h
  rw [if_neg hfixed] at h
  by_cases hdyn : ty = 3 ∨ ty = 4
  · rw [if_pos hdyn] at h
    obtain ⟨g, hg, heq⟩ := Option.map_eq_some_iff.1 h
    obtain rfl : g = d.geometry := by injection heq
    unfold dynamicGeometry at hg
    simp only [Option.bind_eq_bind, Option.bind_eq_some_iff, Option.guard_eq_some'] at hg
    obtain ⟨hdr, -, -, -, table, -, entries, -, block, -, -, hcheck, bat, -, hg⟩ := hg
    rw [← Option.some.inj hg]
    dsimp only
    have hmax : 2040 * 1024 * 1024 * 1024 ≤ u64Max := by decide
    exact ⟨by omega, by omega, by omega⟩
  · rw [if_neg hdyn] at h
    cases h

end DynamicDisk

/-! ## The pushes of a block -/

namespace Geometry

variable {g : Geometry} {file : Bytes} {D : Codec → ℕ → ℕ → ℕ → Option Bytes}

/-- The piece that is pushed for a sector. -/
lemma sectorPiece_byte (hfile : file.length ≤ u64Max) (present : Bool) (start sec len y : ℕ) :
    (if present then Piece.raw (saturatingAdd start (saturatingMul sec 512)) else .zero).byte
        (fun z => file[z]?) D len y =
      if present then file[start + (sec * 512 + y)]? else some 0 := by
  cases present with
  | false => rfl
  | true =>
    have hpos : saturatingAdd start (saturatingMul sec 512) = min (start + sec * 512) u64Max := by
      unfold saturatingAdd saturatingMul
      omega
    rw [if_pos rfl, if_pos rfl, hpos]
    exact (getElem?_saturating hfile _ y).trans (by rw [Nat.add_assoc])

lemma sectorPushes_end (bm : Bytes) (start thisOut fuel sec : ℕ) :
    sectorPushes bm start thisOut fuel sec thisOut = [] := by
  cases fuel with
  | zero => rfl
  | succ fuel => rw [sectorPushes, if_neg (lt_irrefl _)]

/-- **Sector by sector**, each has its data if its bit is set. -/
lemma sectorPushes_spec (hfile : file.length ≤ u64Max) (bm : Bytes) (start thisOut : ℕ) (fuel : ℕ) :
    ∀ sec produced, produced = sec * 512 → thisOut ≤ produced + fuel →
      totalOut (sectorPushes bm start thisOut fuel sec produced) = thisOut - produced ∧
      ∀ y < thisOut - produced,
        pushed (fun z => file[z]?) D (sectorPushes bm start thisOut fuel sec produced) y =
          if bitSet bm (sec + y / 512) then file[start + (produced + y)]? else some 0 := by
  induction fuel with
  | zero =>
    intro sec produced hprod h
    refine ⟨?_, fun y hy => ?_⟩
    · rw [sectorPushes, totalOut_nil]
      omega
    · omega
  | succ fuel ih =>
    intro sec produced hprod h
    rw [sectorPushes]
    by_cases hlt : produced < thisOut
    · rw [if_pos hlt]
      dsimp only
      have hin : ∀ y < 512, sec + y / 512 = sec := fun y hy => by omega
      have hpiece : ∀ len y,
          (if bitSet bm sec then Piece.raw (saturatingAdd start (saturatingMul sec 512))
            else .zero).byte (fun z => file[z]?) D len y =
          if bitSet bm sec then file[start + (produced + y)]? else some 0 := by
        rw [hprod]
        exact fun len y => sectorPiece_byte hfile _ start sec len y
      by_cases hlast : thisOut - produced ≤ 512
      · -- the last sector may be cut
        rw [min_eq_right hlast, Nat.add_sub_cancel' hlt.le, sectorPushes_end]
        refine ⟨by simp, fun y hy => ?_⟩
        rw [pushed, if_pos hy, hpiece, hin y (by omega)]
      · rw [min_eq_left (not_le.1 hlast).le]
        obtain ⟨htotal, hbyte⟩ := ih (sec + 1) (produced + 512) (by omega) (by omega)
        refine ⟨by rw [totalOut_cons, htotal]; omega, fun y hy => ?_⟩
        rw [pushed]
        by_cases hy' : y < 512
        · rw [if_pos hy', hpiece, hin y hy']
        · have hsec : sec + 1 + (y - 512) / 512 = sec + y / 512 := by omega
          have hpos : produced + 512 + (y - 512) = produced + y := by omega
          rw [if_neg hy', hbyte (y - 512) (by omega), hsec, hpos]
    · rw [if_neg hlt]
      refine ⟨?_, fun y hy => ?_⟩
      · rw [totalOut_nil]
        omega
      · omega

/-- The bits of a bitmap that is in the file, and none of one that is not. -/
lemma bitSet_bitmap (g : Geometry) (hfile : file.length ≤ u64Max) (h512 : 512 ∣ g.blockSize)
    {i y : ℕ} (hy : y < g.blockSize) :
    bitSet (g.bitmap file i) (y / 512) = true ↔
      g.entry i * 512 + g.bitmapBytes ≤ file.length ∧
        (byteAt file (g.entry i * 512 + y / 512 / 8)).toNat.testBit (7 - y / 512 % 8) = true := by
  have hsec : y / 512 < g.blockSize / 512 :=
    Nat.div_lt_div_of_lt_of_dvd h512 hy
  have hin : y / 512 / 8 < g.bitmapBytes := div_lt_divCeil (by omega) hsec
  have hstart : g.blockStart i = min (g.entry i * 512) u64Max := rfl
  unfold bitmap readExact getRange
  rw [if_neg (by omega)]
  by_cases hwhole : g.blockStart i + g.bitmapBytes ≤ file.length
  · have hplace : g.blockStart i = g.entry i * 512 := by omega
    rw [if_pos hwhole, Option.getD_some, hplace, and_iff_right (by omega), bitSet,
      List.getElem?_eq_getElem (by rw [List.length_take, List.length_drop]; omega),
      Option.any_some, List.getElem_take, List.getElem_drop, byteAt,
      List.getD_eq_getElem _ _ (by omega)]
  · rw [if_neg hwhole, Option.getD_none]
    refine iff_of_false (by simp [bitSet]) fun h => hwhole ?_
    omega

/-- **A block is pushed alike on both paths**: as one run if all its bits are set, and sector by
sector. -/
lemma blockPushes_spec (g : Geometry) (hfile : file.length ≤ u64Max) (h512 : 512 ∣ g.blockSize)
    {i : ℕ} (hi : i < g.maxEntries) :
    totalOut (g.blockPushes file i) = g.thisOut i ∧
      ∀ y < g.thisOut i,
        pushed (fun z => file[z]?) D (g.blockPushes file i) y = g.blockByte file i y := by
  have hstart : ∀ y, file[g.dataStart i + y]? = file[g.entry i * 512 + g.bitmapSpan + y]? := by
    intro y
    have hpos : g.dataStart i = min (g.entry i * 512 + g.bitmapSpan) u64Max := by
      unfold dataStart blockStart saturatingAdd saturatingMul
      omega
    rw [hpos, getElem?_saturating hfile]
  have hpresent : ∀ y < g.thisOut i, g.entry i ≠ batUnused →
      (bitSet (g.bitmap file i) (y / 512) = true ↔ g.Present file i y) := by
    intro y hy hent
    have hlt : y < g.blockSize := hy.trans_le (min_le_left _ _)
    rw [g.bitSet_bitmap hfile h512 hlt]
    exact ⟨fun h => ⟨hi, hent, h⟩, fun h => h.2.2⟩
  unfold blockPushes blockByte
  by_cases hent : g.entry i = batUnused
  · rw [if_pos hent]
    refine ⟨by simp, fun y hy => ?_⟩
    rw [pushed, if_pos hy, if_neg (fun h => h.2.1 hent)]
    rfl
  rw [if_neg hent]
  dsimp only
  split
  · rename_i hall
    refine ⟨by simp, fun y hy => ?_⟩
    have hbit : bitSet (g.bitmap file i) (y / 512) = true := by
      rw [List.all_eq_true] at hall
      exact hall _ (List.mem_range.2 (div_lt_divCeil (by omega) hy))
    rw [pushed, if_pos hy, if_pos ((hpresent y hy hent).1 hbit)]
    exact hstart y
  · obtain ⟨htotal, hbyte⟩ := sectorPushes_spec (D := D) hfile (g.bitmap file i) (g.dataStart i)
      (g.thisOut i) (g.thisOut i) 0 0 (by omega) (by omega)
    rw [Nat.sub_zero] at htotal hbyte
    refine ⟨htotal, fun y hy => ?_⟩
    rw [hbyte y hy, Nat.zero_add, Nat.zero_add, hstart]
    exact if_congr (hpresent y hy hent) rfl rfl

/-- The blocks put out the disk up to their end. -/
lemma blocksFrom_spec (g : Geometry) (hfile : file.length ≤ u64Max) (hblock : 0 < g.blockSize)
    (h512 : 512 ∣ g.blockSize) (n : ℕ) : ∀ i, i + n = g.maxEntries →
      totalOut (g.blocksFrom file n i) =
        min (n * g.blockSize) (g.currentSize - i * g.blockSize) ∧
      ∀ y < min (n * g.blockSize) (g.currentSize - i * g.blockSize),
        pushed (fun z => file[z]?) D (g.blocksFrom file n i) y =
          g.blockByte file (i + y / g.blockSize) (y % g.blockSize) := by
  induction n with
  | zero =>
    intro i hi
    refine ⟨by rw [blocksFrom, totalOut_nil]; omega, fun y hy => by omega⟩
  | succ n ih =>
    intro i hi
    rw [blocksFrom, Nat.succ_mul]
    obtain ⟨hblockTotal, hblockByte⟩ := g.blockPushes_spec (D := D) hfile h512 (show i < _ by omega)
    obtain ⟨htotal, hbyte⟩ := ih (i + 1) (by omega)
    rw [Nat.succ_mul] at htotal hbyte
    have hthis : g.thisOut i = min g.blockSize (g.currentSize - i * g.blockSize) := rfl
    by_cases hzero : g.thisOut i = 0
    · rw [if_pos hzero]
      refine ⟨by rw [totalOut_nil]; omega, fun y hy => by omega⟩
    · rw [if_neg hzero]
      refine ⟨by rw [totalOut_append, hblockTotal, htotal]; omega, fun y hy => ?_⟩
      rw [pushed_append, hblockTotal]
      by_cases hy' : y < g.thisOut i
      · rw [if_pos hy', hblockByte y hy', Nat.div_eq_of_lt (by omega), Nat.mod_eq_of_lt (by omega),
          Nat.add_zero]
      · have hfull : g.thisOut i = g.blockSize := by omega
        obtain ⟨y, rfl⟩ := Nat.exists_eq_add_of_le (not_lt.1 hy')
        rw [if_neg hy', Nat.add_sub_cancel_left, hbyte y (by omega), hfull,
          Nat.add_div_left _ hblock, Nat.add_mod_left]
        congr 1
        omega

/-- **What is pushed for the disk** is what the format says of every position. -/
lemma pushes_spec (g : Geometry) (hfile : file.length ≤ u64Max) (hsize : g.currentSize ≤ u64Max)
    (hblock : 0 < g.blockSize) (h512 : 512 ∣ g.blockSize) {x : ℕ} (hx : x < g.currentSize) :
    pushed (fun z => file[z]?) D (g.pushes file) x = g.sectorByte file x := by
  obtain ⟨htotal, hbyte⟩ := g.blocksFrom_spec (D := D) hfile hblock h512 g.maxEntries 0
    (Nat.zero_add _)
  rw [Nat.zero_mul, Nat.sub_zero] at htotal hbyte
  have hnext : (SegmentMap.ofPushes (g.blocksFrom file g.maxEntries 0)).nextOut =
      totalOut (g.blocksFrom file g.maxEntries 0) := by
    have hmap := SegmentMap.denotes_ofPushes (B := fun z => file[z]?) (D := D)
      (fun y hy => List.getElem?_eq_none (by omega)) (g.blocksFrom file g.maxEntries 0)
    rw [hmap.next, min_eq_left]
    omega
  unfold pushes
  dsimp only
  rw [hnext, htotal]
  by_cases hcovered : x < min (g.maxEntries * g.blockSize) g.currentSize
  · have hblocks := hbyte x hcovered
    rw [Nat.zero_add] at hblocks
    split
    · rw [pushed_append, htotal, if_pos hcovered]
      exact hblocks
    · exact hblocks
  · -- no block of the table goes so far
    have hpast : g.maxEntries ≤ x / g.blockSize := (Nat.le_div_iff_mul_le hblock).2 (by omega)
    rw [if_pos (by omega), pushed_append, htotal, if_neg hcovered, pushed, if_pos (by omega)]
    unfold sectorByte blockByte
    rw [if_neg (fun h => absurd h.1 (by omega))]
    rfl

end Geometry

namespace DynamicDisk

variable (d : DynamicDisk)

/-- The image that is opened.  Nothing of it is compressed. -/
def image : FileImage where
  file := d.file
  inflate _ _ _ := none
  pushes := d.geometry.pushes d.file
  outLen := d.geometry.currentSize
  sectorSize := 512
  id := "vhd-dyn:" ++ d.path ++ ":" ++ toString d.geometry.currentSize
  file_le := d.file_le
  outLen_le := d.checks.1

/-- A disk of one block of two sectors, of which the second is there. -/
def twoSectors : DynamicDisk where
  path := "two.vhd"
  file := List.flatten [dynamicCookie, List.replicate 8 0, [0, 0, 0, 0, 0, 0, 4, 0],
    List.replicate 4 0, [0, 0, 0, 1, 0, 0, 4, 0], List.replicate 988 0, [0, 0, 0, 3],
    List.replicate 508 0, [0x40], List.replicate 511 0, List.replicate 1024 7, footerCookie,
    List.replicate 40 0, [0, 0, 0, 0, 0, 0, 4, 0], List.replicate 4 0, [0, 0, 0, 3],
    List.replicate 448 0]
  file_le := by decide +kernel
  geometry := ⟨1024, 1024, 1, [0, 0, 0, 3]⟩
  accepted := by decide +kernel

example : twoSectors.image.byte 0 = some 0 ∧ twoSectors.image.byte 512 = some 7 := by decide +kernel

end DynamicDisk

end Vhd

end Reclaim
