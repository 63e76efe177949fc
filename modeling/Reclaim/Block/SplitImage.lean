import Reclaim.Block.Concat
import Reclaim.Block.Container
import Reclaim.Block.FileImage

/-!
# Split images

A capture that was cut into numbered pieces is opened as the image files of its pieces, one behind
the other.  The opened source has the bytes that `concatSource` gives the image: all bytes of a
piece up to its last whole sector.
-/

namespace Reclaim

open FileBytes

/-- `ImageFile::open`. -/
def openImageFile (host : SourceHost) (path : String) : Option (BlockSource Unit) :=
  (host.file path).bind fun d =>
    if h : d.length ≤ u64Max then
      some (imageSource (SourceId.image (host.canonical path) d.length).text d h)
    else none

/-- `split::open`. -/
def openSplitSource (host : SourceHost) (path : String) : Option (ConcatSource Unit) :=
  ((path :: splitPieces host path 99999 2).mapM (openImageFile host)).map fun parts =>
    ConcatSource.new parts (SourceId.container .split path parts.length).text

/-- A split set: the files of its pieces, as far as they are there. -/
structure SplitSet where
  host : SourceHost
  path : String
  files : List Bytes
  found : List.Forall₂ (fun q d => host.file q = some d)
    (path :: splitPieces host path 99999 2) files
  fits : (files.map List.length).sum ≤ u64Max

/-- A piece of an image, as a part. -/
def piecePart (host : SourceHost) (piece : String × Bytes) (h : piece.2.length ≤ u64Max) :
    (p : BlockSource Unit) × Sectorwise p :=
  ⟨imageSource (SourceId.image (host.canonical piece.1) piece.2.length).text piece.2 h,
    imageSectors _ piece.2 h⟩

/-- The bytes of some files, each up to its last whole sector. -/
def joinedFiles (files : List Bytes) : Bytes :=
  files.flatMap fun d => d.take (d.length - d.length % 512)

namespace SplitSet

variable (set : SplitSet)

/-- The pieces: paths and files. -/
def pieces : List (String × Bytes) :=
  (set.path :: splitPieces set.host set.path 99999 2).zip set.files

/-- The image that is read through a source: the bytes of the pieces, all of them good. -/
structure Reads (c : ConcatSource Unit) : Prop where
  total : c.total = (joinedFiles set.files).length
  bytes : ∀ off n, 512 ∣ off → ∀ k < n,
    byteAt (c.readAt () off n).1.buf k = byteAt (joinedFiles set.files) (off + k)
  good : ∀ off n, 512 ∣ off → ∀ k < n, ((c.readAt () off n).1.result.status (k / 512) = .good ↔
    off + k < (joinedFiles set.files).length)

variable {set}

lemma length_piece_le {piece : String × Bytes} (h : piece ∈ set.pieces) :
    piece.2.length ≤ u64Max := by
  have hmem : piece.2 ∈ set.files := (List.of_mem_zip h).2
  exact (List.single_le_sum (fun _ _ => Nat.zero_le _) _ (List.mem_map_of_mem hmem)).trans set.fits

/-- The pieces are opened one after the other. -/
lemma mapM_openImageFile {host : SourceHost} {paths : List String} {files : List Bytes}
    (h : List.Forall₂ (fun q d => host.file q = some d) paths files)
    (hlen : ∀ piece ∈ paths.zip files, piece.2.length ≤ u64Max) :
    paths.mapM (openImageFile host) =
      some (((paths.zip files).pmap (piecePart host) hlen).map (·.1)) := by
  induction h with
  | nil => rfl
  | @cons q d paths files hfile _ ih =>
    have hd : d.length ≤ u64Max := hlen (q, d) (by simp)
    have hrest := ih fun piece hp => hlen piece (List.mem_cons_of_mem _ hp)
    have hopen : openImageFile host q = some (piecePart host (q, d) hd).1 := by
      rw [openImageFile, hfile]
      exact dif_pos hd
    rw [List.mapM_cons, hopen, hrest]
    rfl

lemma clamped_piece {host : SourceHost} {piece : String × Bytes} (h : piece.2.length ≤ u64Max) :
    ConcatSource.clamped 512 (piecePart host piece h).1 =
      piece.2.length - piece.2.length % 512 := rfl

/-- The bytes of the parts are those of the files. -/
lemma joinedByte_pieces (host : SourceHost) (pieces : List (String × Bytes))
    (hlen : ∀ piece ∈ pieces, piece.2.length ≤ u64Max) : ∀ x,
    joinedByte 512 (pieces.pmap (piecePart host) hlen) x =
      (joinedFiles (pieces.map (·.2)))[x]? := by
  induction pieces with
  | nil => exact fun x => rfl
  | cons piece pieces ih =>
    intro x
    have hp := hlen piece List.mem_cons_self
    have htake : (piece.2.take (piece.2.length - piece.2.length % 512)).length =
        piece.2.length - piece.2.length % 512 := by
      rw [List.length_take]
      omega
    rw [List.pmap_cons, joinedByte, clamped_piece, List.map_cons, joinedFiles, List.flatMap_cons]
    split
    · rename_i hx
      have hin : x < piece.2.length := by omega
      rw [List.getElem?_append_left (by omega), List.getElem?_take_of_lt hx]
      refine (if_pos ⟨hin, rfl⟩).trans ?_
      rw [List.getElem?_eq_getElem hin]
      exact congrArg some (List.getD_eq_getElem _ _ hin)
    · rename_i hx
      rw [List.getElem?_append_right (by omega), htake]
      exact ih _ _

/-- What counts of the parts is what is joined of the files. -/
lemma sum_clamped (host : SourceHost) (pieces : List (String × Bytes))
    (hlen : ∀ piece ∈ pieces, piece.2.length ≤ u64Max) :
    ((pieces.pmap (piecePart host) hlen).map fun p => ConcatSource.clamped 512 p.1).sum =
      (joinedFiles (pieces.map (·.2))).length := by
  induction pieces with
  | nil => rfl
  | cons piece pieces ih =>
    have hrest := ih fun q hq => hlen q (List.mem_cons_of_mem _ hq)
    rw [List.pmap_cons, List.map_cons, List.sum_cons, hrest, clamped_piece, List.map_cons,
      joinedFiles, joinedFiles, List.flatMap_cons, List.length_append, List.length_take]
    omega

lemma length_joinedFiles_le (files : List Bytes) :
    (joinedFiles files).length ≤ (files.map List.length).sum := by
  induction files with
  | nil => exact le_rfl
  | cons d files ih =>
    rw [List.map_cons, List.sum_cons, joinedFiles, List.flatMap_cons, List.length_append,
      List.length_take]
    unfold joinedFiles at ih
    omega

lemma map_pieces (set : SplitSet) : set.pieces.map (·.2) = set.files :=
  List.map_snd_zip set.found.length_eq.ge

variable (set)

/-- The parts of the set. -/
def parts : List ((p : BlockSource Unit) × Sectorwise p) :=
  set.pieces.pmap (piecePart set.host) fun _ h => length_piece_le h

lemma sector_of_mem {p : (p : BlockSource Unit) × Sectorwise p} (h : p ∈ set.parts) :
    p.1.sector = 512 := by
  obtain ⟨piece, -, -, rfl⟩ := List.mem_pmap.1 h
  rfl

lemma sectorOf_parts : ConcatSource.sectorOf (set.parts.map (·.1)) = 512 := by
  unfold ConcatSource.sectorOf
  cases hparts : set.parts with
  | nil => rfl
  | cons p rest => exact set.sector_of_mem (hparts ▸ List.mem_cons_self)

/-- The list of the parts. -/
def partList : PartList Unit where
  parts := set.parts
  id := (SourceId.container .split set.path set.parts.length).text
  shared p hp := (set.sector_of_mem hp).trans set.sectorOf_parts.symm
  fits := by
    rw [List.map_congr_left fun p hp => by rw [set.sector_of_mem hp]]
    rw [show (set.parts.map fun p => ConcatSource.clamped 512 p.1).sum = _ from
      sum_clamped set.host set.pieces _, map_pieces]
    exact (length_joinedFiles_le set.files).trans set.fits

lemma sector_partList : set.partList.sector = 512 := set.sectorOf_parts

lemma length_partList : set.partList.length = (joinedFiles set.files).length := by
  unfold PartList.length
  rw [sector_partList]
  exact (sum_clamped set.host set.pieces _).trans (by rw [map_pieces])

lemma byte_partList (x : ℕ) : set.partList.byte x = (joinedFiles set.files)[x]? := by
  unfold PartList.byte
  rw [sector_partList]
  exact (joinedByte_pieces set.host set.pieces _ x).trans (by rw [map_pieces])

/-- The opener opens the parts. -/
lemma openSplitSource_eq : openSplitSource set.host set.path = some set.partList.source := by
  unfold openSplitSource
  rw [mapM_openImageFile set.found fun _ h => length_piece_le h, Option.map_some, List.length_map]
  rfl

lemma reads_partList : set.Reads set.partList.source := by
  have hcat := set.partList.concatenates
  have hsec := set.sector_partList
  refine ⟨hcat.total.trans set.length_partList, fun off n hal k hk => ?_, fun off n hal k hk => ?_⟩
  · have hbyte := hcat.bytes () off n (by rw [hsec]; exact hal) k hk
    rw [hbyte, byte_partList, byteAt, List.getD_eq_getElem?_getD]
  · have hgood := hcat.good () off n (by rw [hsec]; exact hal) k hk
    rw [hsec, byte_partList] at hgood
    rw [hgood]
    simp

end SplitSet

/-- **What a concatenation reads.**  Parts that share a sector size are read one behind the other,
each up to its last whole sector, and a split image is opened as the concatenation of its pieces. -/
theorem concatenates_right (σ : Type) : (∀ l : PartList σ, l.Concatenates) ∧
    ∀ set : SplitSet, ∃ c, openSplitSource set.host set.path = some c ∧ set.Reads c :=
  ⟨fun l => l.concatenates, fun set => ⟨_, set.openSplitSource_eq, set.reads_partList⟩⟩

/-! ## Parts that are cut, and parts with other sectors -/

/-- Two sectors of 4096 bytes, of which the second is bad. -/
def badTail : SectorTable Unit where
  id := "tail"
  len := 8192
  sectorSize := 4096
  content _ := 1
  status _ i := if i = 1 then .bad else .good
  next s := s
  vanished _ := false
  len_le := by decide
  sectorSize_le := sector4096_le_u32Max
  sectorSize_pos := sector4096_pos

/-- Two parts of 700 bytes make 1024; and of a part with larger sectors than the first, the bytes of
a bad sector are reported good. -/
theorem concatenation_counterexample :
    (ConcatSource.new [imageSource "a" (List.replicate 700 1) (by decide +kernel),
      imageSource "b" (List.replicate 700 2) (by decide +kernel)] "cat").total ≠ 700 + 700 ∧
    (badTail.source.readAt () 0 8192).1.result.status 1 = .bad ∧
    ((ConcatSource.new [imageSource "a" (List.replicate 512 1) (by decide +kernel),
      badTail.source] "cat").readAt () 512 8192).1.result.status 8 = .good := by
  refine ⟨by decide +kernel, by decide +kernel, by decide +kernel⟩

end Reclaim
