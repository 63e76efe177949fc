import Reclaim.Block.Concat
import Reclaim.Block.FileImage
import Reclaim.Block.Vdi
import Reclaim.Block.Vhdx
import Reclaim.Block.Vmdk

/-!
# Images end to end

An image whose pushes give every byte is a source like any other, and several of them can be
concatenated.  Each keeps what it has decoded, and so the state of the whole says what was read of
each part.
-/

namespace Reclaim

open FileBytes

/-! ## An image as a source -/

lemma MappedSource.sectorCount_readLoop {σ : Type} (inflate : Codec → Bytes → ℕ → Option Bytes)
    (m : MappedSource σ) (off total fuel : ℕ) : ∀ done acc s,
    (m.readLoop inflate off total fuel done acc s).1.2.sectorCount = acc.2.sectorCount := by
  induction fuel with
  | zero => exact fun done acc s => rfl
  | succ fuel ih =>
    intro done acc s
    rw [readLoop]
    dsimp only
    split
    · split
      · exact sectorCount_markBadRange ..
      split
      · exact sectorCount_markBadRange ..
      split
      · exact sectorCount_markBadRange ..
      rw [ih]
      split
      · rfl
      · exact sectorCount_markBadRange ..
    · rfl

lemma MappedSource.sectorCount_readAt {σ : Type} (inflate : Codec → Bytes → ℕ → Option Bytes)
    (m : MappedSource σ) (s : σ × DecodeCache) (off n : ℕ) :
    (m.readAt inflate s off n).1.result.sectorCount = divCeil n m.sectorSize := by
  unfold readAt
  dsimp only
  split
  · rfl
  split
  · exact ReadResult.sectorCount_allBad _ _
  · exact sectorCount_readLoop ..

namespace FileImage

variable {im : FileImage}

lemma length_readAt (im : FileImage) (history : List (ℕ × ℕ)) (off n : ℕ) :
    (im.readAt history off n).buf.length = n :=
  (readAt_spec im.pushedImage.denotes.tiles (im.pushedImage.fresh_after () history) off n).2.1

/-- A request that does not begin with a sector has nothing. -/
lemma readAt_unaligned (im : FileImage) (history : List (ℕ × ℕ)) {off : ℕ} (h : ¬ im.sector ∣ off)
    (n : ℕ) : (∀ k < n, byteAt (im.readAt history off n).buf k = 0) ∧
      ∀ j < divCeil n im.sector, (im.readAt history off n).result.status j = .bad := by
  obtain ⟨-, -, -, hlost, hstatus⟩ := readAt_spec im.pushedImage.denotes.tiles
    (im.pushedImage.fresh_after () history) off n
  have hnot : ∀ k, ¬ im.pushedImage.HadWith off n k := fun k ⟨_, hs⟩ => h hs.aligned
  refine ⟨fun k hk => hlost k hk (hnot k),
    fun j hj => (hstatus j hj).1.2 ⟨j * im.sector, ?_, ?_, hnot _⟩⟩
  · exact (lt_divCeil_iff im.sector_pos).1 hj
  · exact Nat.mul_div_cancel _ im.sector_pos

end FileImage

/-- An image that has some content, all of it. -/
structure WholeImage where
  image : FileImage
  content : ℕ → UInt8
  whole : ∀ x < image.outLen, image.byte x = some (content x)
  sectorSize_le : image.sectorSize ≤ u32Max

/-- What was read of each of several images. -/
abbrev Histories := ℕ → List (ℕ × ℕ)

namespace WholeImage

/-- An aligned read in the image. -/
lemma reads (w : WholeImage) : w.image.ReadsAs w.content :=
  (FileImage.readsAs_iff w.image w.content).2 w.whole

/-- The image as the `i`-th of several sources. -/
def source (w : WholeImage) (i : ℕ) : BlockSource Histories where
  id := w.image.id
  len := w.image.outLen
  sectorSize := w.image.sectorSize
  readAt s off n := (w.image.readAt (s i) off n, Function.update s i (s i ++ [(off, n)]))
  vanished _ := false
  len_le := w.image.outLen_le
  sectorSize_le := w.sectorSize_le
  filled s off n := w.image.length_readAt (s i) off n
  sectorCount_eq s off n := MappedSource.sectorCount_readAt ..
  zeroFilled s off n hin j hbad k hk := by
    subst hk
    have hss := w.image.sector_pos
    by_cases hkn : k < n
    · by_cases hal : w.image.sector ∣ off
      · exact absurd ((w.reads (s i) off n hal hin).2 k hkn).2 hbad
      · exact (w.image.readAt_unaligned (s i) hal n).1 k hkn
    · exact byteAt_of_length_le ((w.image.length_readAt (s i) off n).trans_le (not_lt.1 hkn))
  unaligned s off n hal j hj := (w.image.readAt_unaligned (s i) hal n).2 j hj

lemma sector_source (w : WholeImage) (i : ℕ) : (w.source i).sector = w.image.sector := rfl

/-- Every sector of it can be read. -/
def sectors (w : WholeImage) (i : ℕ) : Sectorwise (w.source i) where
  readable _ := true
  content := w.content
  status s off n hal hin k hk := iff_of_true ((w.reads (s i) off n hal hin).2 k hk).2 rfl
  bytes s off n hal hin k hk _ := ((w.reads (s i) off n hal hin).2 k hk).1

/-- The image as a part of several. -/
def part (w : WholeImage) (i : ℕ) : (p : BlockSource Histories) × Sectorwise p :=
  ⟨w.source i, w.sectors i⟩

lemma byte_part (w : WholeImage) (i : ℕ) {x : ℕ} (hx : x < w.image.outLen) :
    (w.part i).2.byte x = some (w.content x) := if_pos ⟨hx, rfl⟩

end WholeImage

/-! ## Several images -/

/-- The images as parts, from the `i`-th on. -/
def imageParts : ℕ → List WholeImage → List ((p : BlockSource Histories) × Sectorwise p)
  | _, [] => []
  | i, w :: rest => w.part i :: imageParts (i + 1) rest

/-- The images have one content, from `a` on. -/
def Chained (f : ℕ → UInt8) : ℕ → List WholeImage → Prop
  | _, [] => True
  | a, w :: rest => (∀ x < w.image.outLen, w.content x = f (a + x)) ∧
      Chained f (a + w.image.outLen) rest

/-- How much the images have. -/
def lengthOf (ws : List WholeImage) : ℕ := (ws.map fun w => w.image.outLen).sum

/-- What counts of the images in sectors of one size. -/
def countedOf (ss : ℕ) (ws : List WholeImage) : ℕ :=
  (ws.map fun w => w.image.outLen - w.image.outLen % ss).sum

lemma sum_imageParts (ss : ℕ) (ws : List WholeImage) : ∀ i,
    ((imageParts i ws).map fun p => ConcatSource.clamped ss p.1).sum = countedOf ss ws := by
  induction ws with
  | nil => exact fun i => rfl
  | cons w rest ih =>
    intro i
    rw [imageParts, List.map_cons, List.sum_cons, ih]
    rfl

/-- Images that end with whole sectors count as a whole, and only they do. -/
lemma countedOf_eq_iff {ss : ℕ} (ws : List WholeImage) :
    countedOf ss ws = lengthOf ws ↔ ∀ w ∈ ws, ss ∣ w.image.outLen := by
  have hle : ∀ ws : List WholeImage, countedOf ss ws ≤ lengthOf ws := fun ws =>
    List.sum_le_sum fun w _ => Nat.sub_le ..
  induction ws with
  | nil => simp [countedOf, lengthOf]
  | cons w rest ih =>
    have hrest := hle rest
    have hmod := Nat.mod_le w.image.outLen ss
    have hcons : countedOf ss (w :: rest) =
        w.image.outLen - w.image.outLen % ss + countedOf ss rest := List.sum_cons
    have hcons' : lengthOf (w :: rest) = w.image.outLen + lengthOf rest := List.sum_cons
    rw [hcons, hcons', List.forall_mem_cons, Nat.dvd_iff_mod_eq_zero]
    refine Iff.trans ?_ (and_congr_right' ih)
    omega

lemma joinedByte_imageParts {ss : ℕ} {f : ℕ → UInt8} (ws : List WholeImage) : ∀ i a,
    (∀ w ∈ ws, ss ∣ w.image.outLen) → Chained f a ws → ∀ x < lengthOf ws,
      joinedByte ss (imageParts i ws) x = some (f (a + x)) := by
  induction ws with
  | nil => exact fun i a _ _ x hx => absurd hx (Nat.not_lt_zero x)
  | cons w rest ih =>
    intro i a hdvd hchain x hx
    have hcons : lengthOf (w :: rest) = w.image.outLen + lengthOf rest := List.sum_cons
    have hclamp : ConcatSource.clamped ss (w.part i).1 = w.image.outLen := by
      change w.image.outLen - w.image.outLen % ss = _
      rw [Nat.mod_eq_zero_of_dvd (hdvd w List.mem_cons_self), Nat.sub_zero]
    rw [imageParts, joinedByte, hclamp]
    by_cases hin : x < w.image.outLen
    · rw [if_pos hin, w.byte_part i hin, hchain.1 x hin]
    · rw [if_neg hin, ih (i + 1) _ (fun w' hw' => hdvd w' (List.mem_cons_of_mem _ hw')) hchain.2 _
        (by omega), show a + w.image.outLen + (x - w.image.outLen) = a + x by omega]

/-- Images that are concatenated. -/
structure ImageList where
  images : List WholeImage
  id : String
  sector : ℕ
  sector_eq : ∀ w ∈ images, w.image.sector = sector
  nonempty : images ≠ []
  fits : lengthOf images ≤ u64Max

namespace ImageList

variable (l : ImageList)

lemma sector_of_mem {p : (p : BlockSource Histories) × Sectorwise p} (ws : List WholeImage) :
    ∀ i, (∀ w ∈ ws, w.image.sector = l.sector) → p ∈ imageParts i ws → p.1.sector = l.sector := by
  induction ws with
  | nil => exact fun i _ h => absurd h List.not_mem_nil
  | cons w rest ih =>
    intro i hall h
    rcases List.mem_cons.1 h with rfl | h
    · exact hall w List.mem_cons_self
    · exact ih (i + 1) (fun w' hw' => hall w' (List.mem_cons_of_mem _ hw')) h

lemma sectorOf_parts : ConcatSource.sectorOf ((imageParts 0 l.images).map (·.1)) = l.sector := by
  obtain ⟨w, rest, himages⟩ := List.exists_cons_of_ne_nil l.nonempty
  rw [himages]
  exact l.sector_eq w (himages ▸ List.mem_cons_self)

/-- The parts of the concatenation. -/
def partList : PartList Histories where
  parts := imageParts 0 l.images
  id := l.id
  shared p hp := (l.sector_of_mem l.images 0 l.sector_eq hp).trans l.sectorOf_parts.symm
  fits := by
    rw [List.map_congr_left fun p hp => by rw [l.sector_of_mem l.images 0 l.sector_eq hp],
      sum_imageParts]
    exact (List.sum_le_sum fun w _ => Nat.sub_le ..).trans l.fits

/-- The source of the images end to end. -/
def source : ConcatSource Histories := l.partList.source

lemma sector_partList : l.partList.sector = l.sector := l.sectorOf_parts

lemma total_source : l.source.total = countedOf l.sector l.images := by
  have htotal := l.partList.concatenates.total
  unfold PartList.length at htotal
  rw [sector_partList] at htotal
  exact htotal.trans (sum_imageParts _ _ 0)

/-- Every aligned read in the whole has the bytes of some content, all good. -/
def ReadsAs (f : ℕ → UInt8) : Prop :=
  ∀ s off n, l.sector ∣ off → off + n ≤ l.source.total →
    (l.source.readAt s off n).1.buf.length = n ∧
      ∀ k < n, byteAt (l.source.readAt s off n).1.buf k = f (off + k) ∧
        (l.source.readAt s off n).1.result.status (k / l.sector) = .good

/-- **Images that end with whole sectors are read one behind the other.** -/
lemma readsAs {f : ℕ → UInt8} (hchain : Chained f 0 l.images)
    (hdvd : ∀ w ∈ l.images, l.sector ∣ w.image.outLen) : l.ReadsAs f := by
  intro s off n hal hin
  have hcat := l.partList.concatenates
  have hsec := l.sector_partList
  rw [total_source, (countedOf_eq_iff l.images).2 hdvd] at hin
  have hbyte : ∀ k < n, l.partList.byte (off + k) = some (f (off + k)) := by
    intro k hk
    unfold PartList.byte
    rw [hsec, ← Nat.zero_add (off + k)]
    refine (joinedByte_imageParts l.images 0 0 hdvd hchain (0 + (off + k)) (by omega)).trans ?_
    rw [Nat.zero_add, Nat.zero_add]
  refine ⟨hcat.filled s off n (by rw [hsec]; exact hal), fun k hk => ⟨?_, ?_⟩⟩
  · have hk' := hcat.bytes s off n (by rw [hsec]; exact hal) k hk
    rw [hbyte k hk] at hk'
    exact hk'
  · have hk' := hcat.good s off n (by rw [hsec]; exact hal) k hk
    rw [hbyte k hk, hsec] at hk'
    exact hk'.2 rfl

end ImageList

end Reclaim

/-!
## Images of tables of blocks

Sparse VMDK, VDI and VHDX images have one thing in common: a table says of each block that it is
zero or where it is.  `TableImage.reads_iff` says when the opened source reads as the tables say:
always, but for a VMDK with zeroed grains.
-/

namespace Reclaim

open FileBytes

/-- An image of one of the three formats that its opener accepts. -/
inductive TableImage where
  | vmdk (d : Vmdk.SparseDisk)
  | vdi (d : Vdi.Disk)
  | vhdx (d : Vhdx.Disk)

namespace TableImage

/-- The source that is opened. -/
def source : TableImage → FileImage
  | .vmdk d => d.image
  | .vdi d => d.image
  | .vhdx d => d.image

/-- The length in bytes that the header declares. -/
def capacity : TableImage → ℕ
  | .vmdk d => d.header.capacity * 512
  | .vdi d => d.header.diskSize
  | .vhdx d => d.header.virtualSize

/-- The byte that the format's tables give a position, if the file has it. -/
def guestByte : TableImage → ℕ → Option UInt8
  | .vmdk d => d.header.guestByte d.file
  | .vdi d => d.header.guestByte d.file
  | .vhdx d => d.header.guestByte d.file

/-- No grain on the disk is marked as zeroed, or what the file has from its second sector on is zero
as far as such grains go. -/
def NoZeroedGrain : TableImage → Prop
  | .vmdk d => d.ZeroedReadsZero
  | .vdi _ => True
  | .vhdx _ => True

/-- **When an image of tables reads as the tables say.**  The source has the declared length, and
every read serves the bytes of the table lookup, if and only if no grain of a VMDK is marked as
zeroed, but for such as happen to be read as zeros. -/
theorem reads_iff (t : TableImage) :
    (t.source.outLen = t.capacity ∧ t.source.Serves t.guestByte) ↔ t.NoZeroedGrain := by
  cases t with
  | vmdk d => exact (and_iff_right d.sizes.2.1).trans d.servesGuest_iff
  | vdi d => exact iff_of_true ⟨rfl, d.serves_guest⟩ trivial
  | vhdx d => exact iff_of_true ⟨rfl, d.serves_guest⟩ trivial

/-- A sparse VMDK of one sector, in a grain that was zeroed.  The text of the descriptor is in the
second sector of the file. -/
def zeroedGrain : Vmdk.SparseDisk where
  path := "zeroed.vmdk"
  file := List.flatten [[0x4B, 0x44, 0x4D, 0x56, 2, 0, 0, 0, 4, 0, 0, 0, 1, 0, 0, 0, 0, 0, 0, 0,
    128, 0, 0, 0, 0, 0, 0, 0], List.replicate 16 0, [0, 2, 0, 0], List.replicate 8 0, [2],
    List.replicate 455 0, List.replicate 512 35, [3], List.replicate 511 0, [1],
    List.replicate 2047 0]
  file_le := by decide +kernel
  header := ⟨1, 128, 512, 2, 3 :: List.replicate 3 0⟩
  pushes := [(512, .raw 512)]
  accepted := by decide +kernel
  mapped := by decide +kernel

/-- **A zeroed grain reads as the sector of the descriptor.** -/
theorem zeroedGrain_counterexample : (vmdk zeroedGrain).guestByte 0 = some 0 ∧
    (vmdk zeroedGrain).source.byte 0 = some 35 ∧
    ¬ ((vmdk zeroedGrain).source.outLen = (vmdk zeroedGrain).capacity ∧
      (vmdk zeroedGrain).source.Serves (vmdk zeroedGrain).guestByte) := by
  have hguest : (vmdk zeroedGrain).guestByte 0 = some 0 := by decide +kernel
  have hbyte : (vmdk zeroedGrain).source.byte 0 = some 35 := by decide +kernel
  refine ⟨hguest, hbyte, fun h => ?_⟩
  have hin : 0 < (vmdk zeroedGrain).source.outLen := by decide
  have hsame := h.2.byte_eq hin fun y _ hy => by
    rw [Nat.le_zero.1 hy, hguest]
    rfl
  rw [hguest, hbyte] at hsame
  exact absurd hsame (by decide)

end TableImage

end Reclaim
