import Reclaim.Block.BlockTable

/-!
# Hosted sparse VMDK images

The disk is in grains.  A grain directory says where the grain tables are, and a grain table where
each grain is: nowhere, or at a sector of the file.  The entry 1 is reserved for a grain that was
zeroed.  `open_sparse` does not know it and takes the grain to begin at sector 1.

`guestByte` is what the tables mean, and `servesGuest_iff` says when the opened source serves that.
-/

namespace Reclaim

open FileBytes

namespace Vmdk

/-- "KDMV", the lowest byte first. -/
def kdmv : ℕ := 0x564D444B

/-- `MAX_GRAINS`. -/
def maxGrains : ℕ := 64 * 1024 * 1024

/-- What the header of a sparse extent says, and the grain directory.  Sizes are in sectors. -/
structure SparseHeader where
  capacity : ℕ
  grainSize : ℕ
  numGtesPerGt : ℕ
  gdOffset : ℕ
  gd : Bytes
  deriving DecidableEq

namespace SparseHeader

variable (h : SparseHeader) (file : Bytes)

/-- The length of the disk in bytes. -/
def outLen : ℕ := saturatingMul h.capacity 512

/-- The length of a grain in bytes. -/
def grainBytes : ℕ := saturatingMul h.grainSize 512

def totalGrains : ℕ := divCeil h.capacity h.grainSize

/-- How much of the disk is in a grain. -/
def thisOut (g : ℕ) : ℕ := min h.grainBytes (h.outLen - saturatingMul g h.grainBytes)

/-- The sector of the grain table that a grain is in; 0 if there is none. -/
def gtSector (g : ℕ) : ℕ := (getLe 4 h.gd (g / h.numGtesPerGt * 4)).getD 0

/-- The grain table at a sector: one that was read before, or it is read. -/
def grainTable (cache : List (ℕ × Bytes)) (sector : ℕ) : Option Bytes :=
  match cache.lookup sector with
  | some gt => some gt
  | none => readExact file (saturatingMul sector 512) (saturatingMul h.numGtesPerGt 4)

/-- The piece for an entry of a grain table. -/
def entryPiece (grainSector : ℕ) : Piece :=
  if grainSector = 0 then .zero else .raw (saturatingMul grainSector 512)

/-- The pushes for the grains from `g` on; `cache` has the grain tables that were read. -/
def grainsFrom : ℕ → ℕ → List (ℕ × Bytes) → Option (List (ℕ × Piece))
  | 0, _, _ => some []
  | n + 1, g, cache =>
    if h.thisOut g = 0 then some []
    else if h.gtSector g = 0 then
      (grainsFrom n (g + 1) cache).map fun rest => (h.thisOut g, .zero) :: rest
    else do
      let gt ← h.grainTable file cache (h.gtSector g)
      let e := (getLe 4 gt (g % h.numGtesPerGt * 4)).getD 0
      let rest ← grainsFrom n (g + 1) ((h.gtSector g, gt) :: cache)
      some ((h.thisOut g, entryPiece e) :: rest)

/-- The pushes of `open_sparse`: the grains, and a hole up to the end of the disk. -/
def pushes : Option (List (ℕ × Piece)) :=
  (h.grainsFrom file h.totalGrains 0 []).map (withTail h.outLen)

/-- The entry of a grain in its table; 0 if there is no table. -/
def gte (g : ℕ) : ℕ :=
  let gt := leField 4 file (h.gdOffset * 512 + g / h.numGtesPerGt * 4)
  if gt = 0 then 0 else leField 4 file (gt * 512 + g % h.numGtesPerGt * 4)

/-- The byte of the disk at a position, if the file has it: that of the grain, and zero if the grain
is nowhere or was zeroed. -/
def guestByte (x : ℕ) : Option UInt8 :=
  let e := h.gte file (x / h.grainBytes)
  if e = 0 ∨ e = 1 then some 0 else file[e * 512 + x % h.grainBytes]?

end SparseHeader

/-- The checks of `open_sparse`, and the directory that it reads. -/
def openSparse (file : Bytes) : Option SparseHeader := do
  let hdr ← readExact file 0 512
  let flags := (getLe 4 hdr 8).getD 0
  let capacity ← getLe 8 hdr 12
  let grainSize ← getLe 8 hdr 20
  let numGtesPerGt ← getLe 4 hdr 44
  let gdOffset ← getLe 8 hdr 56
  guard ¬(grainSize = 0 ∨ numGtesPerGt = 0)
  guard (grainSize ≤ 2 ^ 20)
  -- compressed grains
  guard (flags &&& 0x10000 = 0)
  guard (divCeil capacity grainSize ≤ maxGrains)
  let numGts := divCeil (divCeil capacity grainSize) numGtesPerGt
  let gd ← readExact file (saturatingMul gdOffset 512) (saturatingMul numGts 4)
  some ⟨capacity, grainSize, numGtesPerGt, gdOffset, gd⟩

/-- The checks of `open` and `open_sparse`. -/
def sparseHeader (file : Bytes) : Option SparseHeader := do
  guard (getLe 4 ((readExact file 0 512).getD []) 0 = some kdmv)
  openSparse file

/-- What `open_sparse` has checked, and the directory that it has read. -/
lemma openSparse_checks {file : Bytes} {hd : SparseHeader} (h : openSparse file = some hd) :
    0 < hd.grainSize ∧ hd.grainSize ≤ 2 ^ 20 ∧ 0 < hd.numGtesPerGt ∧ hd.totalGrains ≤ maxGrains ∧
      readExact file (saturatingMul hd.gdOffset 512)
        (saturatingMul (divCeil hd.totalGrains hd.numGtesPerGt) 4) = some hd.gd := by
  unfold openSparse at h
  simp only [Option.bind_eq_bind, Option.bind_eq_some_iff, Option.guard_eq_some'] at h
  obtain ⟨hdr, -, capacity, -, grain, -, gtes, -, gdOff, -, -, hnz, -, hmax, -, -, -, hgrains,
    gd, hgd, h⟩ := h
  rw [← Option.some.inj h]
  exact ⟨by dsimp only; omega, hmax, by dsimp only; omega, hgrains, hgd⟩

/-- Nothing saturates: a disk has at most `2 ^ 26` grains of at most `2 ^ 29` bytes. -/
lemma SparseHeader.sizes {hd : SparseHeader} (hpos : 0 < hd.grainSize)
    (hgrain : hd.grainSize ≤ 2 ^ 20)
    (htotal : hd.totalGrains ≤ maxGrains) : hd.grainBytes = hd.grainSize * 512 ∧
    hd.outLen = hd.capacity * 512 ∧
    ∀ g < hd.totalGrains, hd.thisOut g = blockLen hd.outLen hd.grainBytes g := by
  have hu : u64Max = 2 ^ 64 - 1 := rfl
  have hmax : maxGrains = 2 ^ 26 := rfl
  have hbytes : hd.grainBytes = hd.grainSize * 512 := by
    unfold SparseHeader.grainBytes saturatingMul
    omega
  have hgrains : hd.totalGrains ≤ 2 ^ 26 := by omega
  have hcap : hd.capacity ≤ 2 ^ 26 * 2 ^ 20 := by
    have hcover : hd.capacity ≤ hd.totalGrains * hd.grainSize := le_divCeil_mul hpos _
    exact hcover.trans (Nat.mul_le_mul hgrains hgrain)
  refine ⟨hbytes, ?_, fun g hg => ?_⟩
  · unfold SparseHeader.outLen saturatingMul
    omega
  · have hstart : g * hd.grainBytes ≤ 2 ^ 26 * (2 ^ 20 * 512) :=
      Nat.mul_le_mul (by omega) (by rw [hbytes]; exact Nat.mul_le_mul_right 512 hgrain)
    have hsat : saturatingMul g hd.grainBytes = g * hd.grainBytes := by
      unfold saturatingMul
      omega
    rw [SparseHeader.thisOut, hsat, blockLen]

/-- A sparse extent that the opener accepts. -/
structure SparseDisk where
  path : String
  file : Bytes
  file_le : file.length ≤ u64Max
  header : SparseHeader
  pushes : List (ℕ × Piece)
  accepted : sparseHeader file = some header
  mapped : header.pushes file = some pushes

namespace SparseDisk

variable (d : SparseDisk)

/-- What the opener has checked, and the directory that it has read. -/
lemma checks (d : SparseDisk) : 0 < d.header.grainSize ∧ d.header.grainSize ≤ 2 ^ 20 ∧
    0 < d.header.numGtesPerGt ∧ d.header.totalGrains ≤ maxGrains ∧
    readExact d.file (saturatingMul d.header.gdOffset 512)
      (saturatingMul (divCeil d.header.totalGrains d.header.numGtesPerGt) 4) =
        some d.header.gd := by
  have h := d.accepted
  unfold sparseHeader at h
  simp only [Option.bind_eq_bind, Option.bind_eq_some_iff, Option.guard_eq_some'] at h
  obtain ⟨-, -, h⟩ := h
  exact openSparse_checks h

/-- Nothing saturates. -/
lemma sizes (d : SparseDisk) : d.header.grainBytes = d.header.grainSize * 512 ∧
    d.header.outLen = d.header.capacity * 512 ∧
    ∀ g < d.header.totalGrains, d.header.thisOut g =
      blockLen d.header.outLen d.header.grainBytes g := by
  obtain ⟨hpos, hgrain, -, htotal, -⟩ := d.checks
  exact SparseHeader.sizes hpos hgrain htotal

lemma grainBytes_pos (d : SparseDisk) : 0 < d.header.grainBytes := by
  have := d.checks.1
  rw [d.sizes.1]
  omega

/-- A table that can be read begins below the last `u64`. -/
lemma readExact_saturating {file t : Bytes} (hfile : file.length ≤ u64Max) {s len : ℕ}
    (h : readExact file (saturatingMul s 512) len = some t) (hlen : 0 < len) :
    saturatingMul s 512 = s * 512 := by
  unfold readExact getRange at h
  rw [if_neg hlen.ne'] at h
  split at h
  · unfold saturatingMul at *
    omega
  · cases h

/-- The grain directory says where a table is. -/
lemma gtSector_eq (d : SparseDisk) {g : ℕ} (hg : g < d.header.totalGrains) :
    d.header.gtSector g =
      leField 4 d.file (d.header.gdOffset * 512 + g / d.header.numGtesPerGt * 4) := by
  obtain ⟨-, -, hnum, htotal, hgd⟩ := d.checks
  have hdir : g / d.header.numGtesPerGt < divCeil d.header.totalGrains d.header.numGtesPerGt :=
    div_lt_divCeil hnum hg
  have hle : divCeil d.header.totalGrains d.header.numGtesPerGt ≤ d.header.totalGrains := by
    by_contra hlt
    have hlast := (lt_divCeil_iff hnum).1 (not_le.1 hlt)
    exact absurd (Nat.le_mul_of_pos_right d.header.totalGrains hnum) (by omega)
  have hsat : saturatingMul (divCeil d.header.totalGrains d.header.numGtesPerGt) 4 =
      divCeil d.header.totalGrains d.header.numGtesPerGt * 4 := by
    have hu : u64Max = 2 ^ 64 - 1 := rfl
    have hmax : maxGrains = 2 ^ 26 := rfl
    unfold saturatingMul
    omega
  have hlen : g / d.header.numGtesPerGt * 4 + 4 ≤
      divCeil d.header.totalGrains d.header.numGtesPerGt * 4 := by
    have hmul := Nat.mul_le_mul_right 4 (Nat.succ_le_of_lt hdir)
    rwa [Nat.succ_mul] at hmul
  have hpos : 0 < divCeil d.header.totalGrains d.header.numGtesPerGt * 4 :=
    Nat.mul_pos (Nat.zero_lt_of_lt hdir) (by omega)
  rw [hsat] at hgd
  rw [SparseHeader.gtSector, getLe_readExact hgd hlen (by omega),
    readExact_saturating d.file_le hgd hpos, getLe_getD]

/-- An entry of a grain table that was read is the grain's. -/
lemma gte_eq (d : SparseDisk) {g : ℕ} (hg : g < d.header.totalGrains)
    (hgt : d.header.gtSector g ≠ 0) {gt : Bytes}
    (hread : readExact d.file (saturatingMul (d.header.gtSector g) 512)
      (saturatingMul d.header.numGtesPerGt 4) = some gt) :
    (getLe 4 gt (g % d.header.numGtesPerGt * 4)).getD 0 = d.header.gte d.file g := by
  have hnum := d.checks.2.2.1
  have hmod := Nat.mod_lt g hnum
  have hlen : g % d.header.numGtesPerGt * 4 + 4 ≤ saturatingMul d.header.numGtesPerGt 4 := by
    have hlt : g % d.header.numGtesPerGt ≤ g := Nat.mod_le _ _
    have hmax : maxGrains = 2 ^ 26 := rfl
    have hu : u64Max = 2 ^ 64 - 1 := rfl
    have htotal := d.checks.2.2.2.1
    unfold saturatingMul
    omega
  rw [getLe_readExact hread hlen (by omega), readExact_saturating d.file_le hread (by omega),
    getLe_getD, SparseHeader.gte, ← d.gtSector_eq hg, if_neg hgt]

/-- A table that was kept is the one in the file. -/
lemma grainTable_eq (d : SparseDisk) {cache : List (ℕ × Bytes)} {sector : ℕ}
    (hcache : ∀ s t, cache.lookup s = some t → readExact d.file (saturatingMul s 512)
      (saturatingMul d.header.numGtesPerGt 4) = some t) :
    d.header.grainTable d.file cache sector = readExact d.file (saturatingMul sector 512)
      (saturatingMul d.header.numGtesPerGt 4) := by
  unfold SparseHeader.grainTable
  cases h : cache.lookup sector with
  | none => rfl
  | some gt => exact (hcache _ _ h).symm

/-- **The grains are pushed one by one**, each as the tables say. -/
lemma grainsFrom_eq (d : SparseDisk) (n : ℕ) : ∀ g cache l,
    (∀ s t, cache.lookup s = some t → readExact d.file (saturatingMul s 512)
      (saturatingMul d.header.numGtesPerGt 4) = some t) →
    g + n ≤ d.header.totalGrains → d.header.grainsFrom d.file n g cache = some l →
      l = blockWalk d.header.thisOut
        (fun j => SparseHeader.entryPiece (d.header.gte d.file j)) n g := by
  induction n with
  | zero => exact fun g cache l _ _ hl => (Option.some.inj hl).symm
  | succ n ih =>
    intro g cache l hcache hin hl
    have hg : g < d.header.totalGrains := by omega
    rw [SparseHeader.grainsFrom] at hl
    rw [blockWalk]
    by_cases hzero : d.header.thisOut g = 0
    · rw [if_pos hzero] at hl ⊢
      exact (Option.some.inj hl).symm
    rw [if_neg hzero] at hl ⊢
    by_cases hgt : d.header.gtSector g = 0
    · rw [if_pos hgt] at hl
      obtain ⟨rest, hfrom, rfl⟩ := Option.map_eq_some_iff.1 hl
      have hgte : d.header.gte d.file g = 0 := by
        unfold SparseHeader.gte
        dsimp only
        rw [← d.gtSector_eq hg, if_pos hgt]
      rw [hgte, ih (g + 1) cache rest hcache (by omega) hfrom]
      rfl
    · rw [if_neg hgt] at hl
      simp only [Option.bind_eq_bind, Option.bind_eq_some_iff] at hl
      obtain ⟨gt, hgtable, rest, hfrom, hl⟩ := hl
      rw [d.grainTable_eq hcache] at hgtable
      have hcache' : ∀ s t, List.lookup s ((d.header.gtSector g, gt) :: cache) = some t →
          readExact d.file (saturatingMul s 512) (saturatingMul d.header.numGtesPerGt 4) =
            some t := by
        intro s t hs
        rw [List.lookup_cons] at hs
        split at hs
        · rename_i hkey
          rw [eq_of_beq hkey, ← Option.some.inj hs]
          exact hgtable
        · exact hcache s t hs
      rw [← Option.some.inj hl, ih (g + 1) _ rest hcache' (by omega) hfrom, d.gte_eq hg hgt hgtable]

/-- The image that is opened.  Nothing of it is compressed. -/
def image : FileImage where
  file := d.file
  inflate _ _ _ := none
  pushes := d.pushes
  outLen := d.header.outLen
  sectorSize := 512
  id := "vmdk:" ++ d.path ++ ":" ++ toString d.header.outLen
  file_le := d.file_le
  outLen_le := min_le_right _ _

/-- A position has what the opener makes of the entry of its grain. -/
lemma byte_eq (d : SparseDisk) {x : ℕ} (hx : x < d.header.outLen) :
    d.image.byte x =
      let e := d.header.gte d.file (x / d.header.grainBytes)
      if e = 0 then some 0 else d.file[e * 512 + x % d.header.grainBytes]? := by
  obtain ⟨hbytes, hout, hthis⟩ := d.sizes
  obtain ⟨l, hfrom, hpushes⟩ := Option.map_eq_some_iff.1 d.mapped
  have hl := d.grainsFrom_eq _ 0 [] l (fun s t h => by cases h) (by omega) hfrom
  have hin : x / d.header.grainBytes < d.header.totalGrains := by
    have hcover : d.header.capacity ≤ d.header.totalGrains * d.header.grainSize :=
      le_divCeil_mul d.checks.1 _
    rw [Nat.div_lt_iff_lt_mul d.grainBytes_pos, hbytes, ← Nat.mul_assoc]
    rw [hout] at hx
    exact hx.trans_le (Nat.mul_le_mul_right 512 hcover)
  have hbyte := pushed_withTail (D := fileBlock (fun _ _ _ => none) d.file) d.file_le
    (min_le_right _ _ : d.header.outLen ≤ u64Max) d.grainBytes_pos
    (fun j => SparseHeader.entryPiece (d.header.gte d.file j)) hthis hx
  rw [if_pos hin] at hbyte
  rw [FileImage.byte, image, ← hpushes, hl]
  apply hbyte.trans
  unfold SparseHeader.entryPiece
  dsimp only
  by_cases he : d.header.gte d.file (x / d.header.grainBytes) = 0
  · rw [if_pos he, if_pos he]
    rfl
  · rw [if_neg he, if_neg he]
    exact getElem?_saturating d.file_le _ _

/-- A sector is in one grain. -/
lemma div_grainBytes (d : SparseDisk) {x y : ℕ} (h : x / 512 = y / 512) :
    x / d.header.grainBytes = y / d.header.grainBytes := by
  rw [d.sizes.1, Nat.mul_comm, ← Nat.div_div_eq_div_mul, ← Nat.div_div_eq_div_mul, h]

/-- Whatever is read for a grain that was zeroed is zero in the file. -/
def ZeroedReadsZero (d : SparseDisk) : Prop :=
  ∀ x < d.header.outLen, d.header.gte d.file (x / d.header.grainBytes) = 1 →
    d.file[512 + x % d.header.grainBytes]? = some 0

/-- **When a sparse extent reads as its tables say**: exactly when no grain on the disk was zeroed,
or zeros begin at sector 1 as far as such grains go. -/
lemma servesGuest_iff (d : SparseDisk) :
    d.image.Serves (d.header.guestByte d.file) ↔ d.ZeroedReadsZero := by
  constructor
  · intro h x hx he
    have hzero : ∀ y, y / 512 = x / 512 → d.header.guestByte d.file y = some 0 := by
      intro y hy
      unfold SparseHeader.guestByte
      dsimp only
      rw [d.div_grainBytes hy, he, if_pos (.inr rfl)]
    have hsector : d.image.sector = 512 := rfl
    have hbyte := h.byte_eq hx fun y hlo hhi => by
      rw [hsector] at hlo
      rw [hzero y (by omega)]
      rfl
    rw [hzero x rfl, d.byte_eq hx] at hbyte
    dsimp only at hbyte
    rwa [he, if_neg Nat.one_ne_zero, Nat.one_mul] at hbyte
  · intro hzero
    apply d.image.serves.congr
    intro x hx
    rw [d.byte_eq hx]
    unfold SparseHeader.guestByte
    dsimp only
    by_cases he : d.header.gte d.file (x / d.header.grainBytes) = 1
    · rw [he, if_neg Nat.one_ne_zero, if_pos (.inr rfl), Nat.one_mul]
      exact hzero x hx he
    · simp only [he, or_false]

end SparseDisk

end Vmdk

end Reclaim
