import Mathlib.Data.Nat.Bitwise
import Reclaim.Block.FileImage

/-!
# QCOW2 images

The image is in clusters, and two levels of tables say where each is in the file: nowhere, in which
case it is zero, as it stands, or as a compressed stream.

`guestByte` is what the tables mean.  A compressed cluster that the end of the disk cuts is not
read: the stream decodes to a whole cluster, and the opener asks for as much as is in the disk.
-/

namespace Reclaim

open FileBytes

namespace Qcow2

/-- "QFI" and 0xfb. -/
def magic : ℕ := 0x514649FB

/-- `OFLAG_COMPRESSED`. -/
def oflagCompressed : ℕ := 2 ^ 62

/-- `OFLAG_ZERO`: a standard cluster with bit 0 set reads as zeros. -/
def oflagZero : ℕ := 1

/-- `L2_OFFSET_MASK`. -/
def l2OffsetMask : ℕ := 0x00FFFFFFFFFFFE00

/-- `MAX_CLUSTERS`. -/
def maxClusters : ℕ := 64 * 1024 * 1024

/-- What the header says, and the L1 table. -/
structure Header where
  clusterBits : ℕ
  size : ℕ
  l1 : Bytes
  deriving DecidableEq

/-- The checks of `open`. -/
def header (file : Bytes) : Option Header := do
  let hdr ← readExact file 0 104
  guard (getBe 4 hdr 0 = some magic)
  guard (2 ≤ (getBe 4 hdr 4).getD 0)
  let clusterBits ← getBe 4 hdr 20
  guard (9 ≤ clusterBits ∧ clusterBits ≤ 21)
  let size ← getBe 8 hdr 24
  let l1Size ← getBe 4 hdr 36
  let l1Offset ← getBe 8 hdr 40
  guard ((getBe 4 hdr 32).getD 0 = 0)
  guard (divCeil size (2 ^ clusterBits) ≤ maxClusters)
  let l1 ← readExact file l1Offset (saturatingMul l1Size 8)
  some ⟨clusterBits, size, l1⟩

namespace Header

variable (h : Header) (file : Bytes)

def clusterSize : ℕ := 2 ^ h.clusterBits

/-- How many entries an L2 table has. -/
def l2Entries : ℕ := h.clusterSize / 8

def totalClusters : ℕ := divCeil h.size h.clusterSize

/-- How much of the disk is in a cluster. -/
def thisOut (c : ℕ) : ℕ := blockLen h.size h.clusterSize c

/-- Where the number of sectors begins in the entry of a compressed cluster. -/
def csizeShift : ℕ := 62 - (h.clusterBits - 8)

def csizeMask : ℕ := 2 ^ (h.clusterBits - 8) - 1

def coffsetMask : ℕ := 2 ^ h.csizeShift - 1

/-- Where the L2 table of a cluster is; 0 if there is none. -/
def l2Offset (c : ℕ) : ℕ :=
  ((getBe 8 h.l1 (c / h.l2Entries * 8)).map fun v => v &&& l2OffsetMask).getD 0

/-- The piece for an L2 entry. -/
def entryPiece (e : ℕ) : Piece :=
  if e = 0 then .zero
  else if e &&& oflagCompressed ≠ 0 then
    let sectors := ((e >>> h.csizeShift) &&& h.csizeMask) + 1
    .compressed .deflate (e &&& h.coffsetMask) (saturatingMul sectors 512)
  else
    let host := e &&& l2OffsetMask
    if host = 0 ∨ e &&& oflagZero ≠ 0 then .zero else .raw host

/-- The L2 table of a cluster: the one that was read last, or it is read. -/
def l2Table (c : ℕ) (cur : Option (ℕ × Bytes)) : Option Bytes :=
  match cur.filter fun t => decide (t.1 = h.l2Offset c) with
  | some t => some t.2
  | none => readExact file (h.l2Offset c) h.clusterSize

/-- The pushes for the clusters from `c` on; `cur` is the L2 table that was read last. -/
def clustersFrom : ℕ → ℕ → Option (ℕ × Bytes) → Option (List (ℕ × Piece))
  | 0, _, _ => some []
  | n + 1, c, cur =>
    if h.thisOut c = 0 then some []
    else if h.l2Offset c = 0 then
      (clustersFrom n (c + 1) cur).map fun rest => (h.thisOut c, .zero) :: rest
    else do
      let table ← h.l2Table file c cur
      let e := (getBe 8 table (c % h.l2Entries * 8)).getD 0
      let rest ← clustersFrom n (c + 1) (some (h.l2Offset c, table))
      some ((h.thisOut c, h.entryPiece e) :: rest)

/-- The pushes of `open`: the clusters, and a hole up to the end of the disk. -/
def pushes : Option (List (ℕ × Piece)) :=
  (h.clustersFrom file h.totalClusters 0 none).map fun clusters =>
    let out := (SegmentMap.ofPushes clusters).nextOut
    if out < h.size then clusters ++ [(h.size - out, .zero)] else clusters

/-! ## What the tables mean -/

/-- Bits 9 to 55 of an entry are an offset. -/
def entryOffset (e : ℕ) : ℕ := e / 512 % 2 ^ 47 * 512

/-- Where a cluster is. -/
inductive Cluster where
  | zero
  | standard (host : ℕ)
  | compressed (offset sectors : ℕ)
  deriving DecidableEq

/-- The piece for a cluster. -/
def Cluster.piece : Cluster → Piece
  | .zero => .zero
  | .standard host => .raw host
  | .compressed offset sectors => .compressed .deflate offset (saturatingMul sectors 512)

/-- What an L2 entry means.  Of a compressed cluster it has the offset, in the low bits, and how
many sectors there are behind the first, up to bit 61. -/
def cluster (e : ℕ) : Cluster :=
  if e.testBit 62 then
    .compressed (e % 2 ^ h.csizeShift) (e / 2 ^ h.csizeShift % 2 ^ (h.clusterBits - 8) + 1)
  else if e.testBit 0 ∨ entryOffset e = 0 then .zero
  else .standard (entryOffset e)

/-- The L2 entry of a cluster; 0 if there is no table. -/
def l2Entry (c : ℕ) : ℕ :=
  let l2 := entryOffset (beField 8 h.l1 (c / h.l2Entries * 8))
  if l2 = 0 then 0 else beField 8 file (l2 + c % h.l2Entries * 8)

/-- The two-level lookup. -/
def lookup (c : ℕ) : Cluster := h.cluster (h.l2Entry file c)

/-- The byte of the disk at a position. -/
def guestByte (dec : StreamDecoder) (x : ℕ) : UInt8 :=
  match h.lookup file (x / h.clusterSize) with
  | .zero => 0
  | .standard host => byteAt file (host + x % h.clusterSize)
  | .compressed offset _ =>
    byteAt (((dec.read (file.drop offset)).map (·.1)).getD []) (x % h.clusterSize)

end Header

/-- An image whose tables are well formed: the tables can be read, the clusters that are there are
in the file, and the compressed ones are streams of one cluster. -/
structure Image where
  path : String
  file : Bytes
  file_le : file.length ≤ u64Max
  dec : StreamDecoder
  header : Header
  pushes : List (ℕ × Piece)
  accepted : Qcow2.header file = some header
  mapped : header.pushes file = some pushes
  standard : ∀ c < header.totalClusters, ∀ host, header.lookup file c = .standard host →
    host + header.thisOut c ≤ file.length
  compressed : ∀ c < header.totalClusters, ∀ offset sectors,
    header.lookup file c = .compressed offset sectors →
      ∃ out n, dec.read (file.drop offset) = some (out, n) ∧ out.length = header.clusterSize ∧
        n ≤ sectors * 512

/-! ## The entries -/

lemma and_l2OffsetMask (v : ℕ) : v &&& l2OffsetMask = Header.entryOffset v := by
  have hmask : l2OffsetMask = (2 ^ 47 - 1) <<< 9 := by decide
  have hoff : Header.entryOffset v = (v >>> 9 % 2 ^ 47) <<< 9 := by
    rw [Nat.shiftRight_eq_div_pow, Nat.shiftLeft_eq]
    rfl
  rw [hmask, hoff]
  apply Nat.eq_of_testBit_eq
  intro i
  simp only [Nat.testBit_and, Nat.testBit_shiftLeft, Nat.testBit_two_pow_sub_one,
    Nat.testBit_mod_two_pow, Nat.testBit_shiftRight]
  by_cases hi : 9 ≤ i
  · have hsum : 9 + (i - 9) = i := by omega
    simp [hi, hsum, Bool.and_comm]
  · simp [hi]

namespace Header

variable {h : Header} {file : Bytes}

/-- **An entry is taken as it is meant.** -/
lemma entryPiece_eq (h : Header) (e : ℕ) : h.entryPiece e = (h.cluster e).piece := by
  have hcompressed : e &&& oflagCompressed ≠ 0 ↔ e.testBit 62 = true := by
    rw [oflagCompressed, Nat.and_two_pow]
    cases e.testBit 62 <;> simp
  have hzero : e &&& oflagZero ≠ 0 ↔ e.testBit 0 = true := by
    rw [oflagZero, Nat.and_one_is_mod, Nat.testBit_zero]
    simp
  unfold entryPiece cluster
  rw [and_l2OffsetMask]
  by_cases h0 : e = 0
  · subst h0
    simp [entryOffset, Cluster.piece]
  rw [if_neg h0]
  by_cases hc : e.testBit 62 = true
  · rw [if_pos (hcompressed.2 hc), if_pos hc]
    dsimp only
    rw [coffsetMask, csizeMask, Nat.and_two_pow_sub_one_eq_mod, Nat.and_two_pow_sub_one_eq_mod,
      Nat.shiftRight_eq_div_pow]
    rfl
  · rw [if_neg (fun hand => hc (hcompressed.1 hand)), if_neg hc]
    dsimp only
    by_cases hz : e.testBit 0 = true ∨ entryOffset e = 0
    · rw [if_pos hz, if_pos (hz.symm.imp id hzero.2)]
      rfl
    · rw [if_neg hz, if_neg (fun hor => hz (hor.symm.imp hzero.1 id))]
      rfl

/-! ## The clusters -/

lemma l2Offset_eq (h : Header) (c : ℕ) :
    h.l2Offset c = entryOffset (beField 8 h.l1 (c / h.l2Entries * 8)) := by
  rw [← getBe_getD, l2Offset]
  cases getBe 8 h.l1 (c / h.l2Entries * 8) with
  | none => rfl
  | some v => exact and_l2OffsetMask v

/-- An entry of a table that was read is there in the file. -/
lemma tableEntry_eq (h : Header) (h8 : 8 ∣ h.clusterSize) (hpos : 0 < h.clusterSize) {c : ℕ}
    {table : Bytes} (ht : readExact file (h.l2Offset c) h.clusterSize = some table)
    (hoff : h.l2Offset c ≠ 0) :
    (getBe 8 table (c % h.l2Entries * 8)).getD 0 = h.l2Entry file c := by
  have hlt : c % h.l2Entries < h.l2Entries := Nat.mod_lt _ (by unfold l2Entries; omega)
  have hin : c % h.l2Entries * 8 + 8 ≤ h.clusterSize := by
    unfold l2Entries at hlt ⊢
    omega
  unfold readExact at ht
  rw [if_neg hpos.ne'] at ht
  unfold l2Entry
  dsimp only
  rw [← l2Offset_eq, if_neg hoff, ← getBe_getD, getBe, getBe, getRange_getRange ht hin]

/-- The table that is used for a cluster is the one in the file. -/
lemma l2Table_eq (h : Header) {c : ℕ} {cur : Option (ℕ × Bytes)}
    (hcur : ∀ t, cur = some t → readExact file t.1 h.clusterSize = some t.2) :
    h.l2Table file c cur = readExact file (h.l2Offset c) h.clusterSize := by
  unfold l2Table
  split
  · rename_i t ht
    obtain ⟨hsome, hkey⟩ := Option.filter_eq_some_iff.1 ht
    rw [← of_decide_eq_true hkey]
    exact (hcur t hsome).symm
  · rfl

/-- **The clusters are pushed one by one**, each as the tables say. -/
lemma clustersFrom_eq (h : Header) (h8 : 8 ∣ h.clusterSize) (hpos : 0 < h.clusterSize) (n : ℕ) :
    ∀ c cur l, (∀ t, cur = some t → readExact file t.1 h.clusterSize = some t.2) →
      (∀ j < n, h.thisOut (c + j) ≠ 0) → h.clustersFrom file n c cur = some l →
        l = blockPieces h.size h.clusterSize (fun j => (h.lookup file j).piece) c n := by
  induction n with
  | zero =>
    intro c cur l hcur hout hl
    exact (Option.some.inj hl).symm
  | succ n ih =>
    intro c cur l hcur hout hl
    have hrest : ∀ j < n, h.thisOut (c + 1 + j) ≠ 0 := fun j hj => by
      rw [Nat.add_assoc, Nat.add_comm 1]
      exact hout (j + 1) (by omega)
    have hcons : ∀ f, blockPieces h.size h.clusterSize f c (n + 1) =
      (h.thisOut c, f c) :: blockPieces h.size h.clusterSize f (c + 1) n := fun f => rfl
    have hhere : h.thisOut c ≠ 0 := hout 0 (Nat.succ_pos n)
    rw [clustersFrom, if_neg hhere] at hl
    rw [hcons]
    by_cases hoff : h.l2Offset c = 0
    · rw [if_pos hoff] at hl
      obtain ⟨rest, hfrom, rfl⟩ := Option.map_eq_some_iff.1 hl
      have hzero : h.lookup file c = .zero := by
        rw [l2Offset_eq] at hoff
        unfold lookup l2Entry
        dsimp only
        rw [if_pos hoff]
        rfl
      rw [hzero, ih (c + 1) cur rest hcur hrest hfrom]
      rfl
    · rw [if_neg hoff] at hl
      simp only [Option.bind_eq_bind, Option.bind_eq_some_iff] at hl
      obtain ⟨table, htable, rest, hfrom, hl⟩ := hl
      rw [l2Table_eq h hcur] at htable
      have hcur' : ∀ t, some (h.l2Offset c, table) = some t →
          readExact file t.1 h.clusterSize = some t.2 := by
        rintro t ht
        rw [← Option.some.inj ht]
        exact htable
      rw [← Option.some.inj hl, ih (c + 1) _ rest hcur' hrest hfrom,
        tableEntry_eq h h8 hpos htable hoff, entryPiece_eq]
      rfl

end Header

namespace Image

variable (im : Image)

/-- What the opener has checked of the header. -/
lemma checks (im : Image) : 9 ≤ im.header.clusterBits ∧ im.header.clusterBits ≤ 21 ∧
    im.header.size ≤ u64Max := by
  have h := im.accepted
  unfold Qcow2.header at h
  simp only [Option.bind_eq_bind, Option.bind_eq_some_iff, Option.guard_eq_some'] at h
  obtain ⟨hdr, -, -, -, -, -, bits, -, -, hbits, size, hsize, l1Size, -, off, -, -, -, -, -, l1, -,
    h⟩ := h
  rw [← Option.some.inj h]
  have hmax : size < 256 ^ 8 := by
    have heq := getBe_getD 8 hdr 24
    rw [hsize, Option.getD_some] at heq
    rw [heq]
    exact beField_lt 8 hdr 24
  have hu : u64Max = 256 ^ 8 - 1 := by decide
  dsimp only
  exact ⟨hbits.1, hbits.2, by omega⟩

/-- The image that is opened.  What is compressed is deflated. -/
def image : FileImage where
  file := im.file
  inflate _ := im.dec.inflate
  pushes := im.pushes
  outLen := im.header.size
  sectorSize := 512
  id := "qcow2:" ++ im.path ++ ":" ++ toString im.header.size
  file_le := im.file_le
  outLen_le := im.checks.2.2

/-- A cluster is on the disk as a whole, and as much is read of the file as its stream is long. -/
def ReadWhole (c offset : ℕ) : Prop :=
  (c + 1) * im.header.clusterSize ≤ im.header.size ∧
    ∀ out n, im.dec.read (im.file.drop offset) = some (out, n) →
      n ≤ maxCompressed im.header.clusterSize

variable {im}

lemma clusterSize_pos (im : Image) : 0 < im.header.clusterSize := Nat.pow_pos (by omega)

lemma eight_dvd (im : Image) : 8 ∣ im.header.clusterSize :=
  Nat.pow_dvd_pow 2 (show 3 ≤ im.header.clusterBits by have := im.checks.1; omega)

lemma thisOut_pos (im : Image) {c : ℕ} (hc : c < im.header.totalClusters) :
    c * im.header.clusterSize < im.header.size ∧ im.header.thisOut c ≠ 0 := by
  have hpos := im.clusterSize_pos
  have hlt := (lt_divCeil_iff hpos).1 hc
  refine ⟨hlt, ?_⟩
  unfold Header.thisOut blockLen
  omega

/-- A position has what the piece of its cluster gives. -/
lemma byte_eq (im : Image) {x : ℕ} (hx : x < im.header.size) :
    im.image.byte x = (im.header.lookup im.file (x / im.header.clusterSize)).piece.byte
      (fun y => im.file[y]?) (fileBlock (fun _ => im.dec.inflate) im.file)
      (im.header.thisOut (x / im.header.clusterSize)) (x % im.header.clusterSize) := by
  have hpos := im.clusterSize_pos
  obtain ⟨clusters, hfrom, hpushes⟩ := Option.map_eq_some_iff.1 im.mapped
  have hclusters := Header.clustersFrom_eq im.header im.eight_dvd hpos _ 0 none clusters
    (fun t ht => by cases ht)
    (fun j hj => by rw [Nat.zero_add]; exact (im.thisOut_pos hj).2) hfrom
  obtain ⟨htotal, hbyte⟩ := blockPieces_spec (B := fun y => im.file[y]?)
    (D := fileBlock (fun _ => im.dec.inflate) im.file) im.header.size hpos
    (fun j => (im.header.lookup im.file j).piece) im.header.totalClusters 0
  have hall : im.header.size ≤ im.header.totalClusters * im.header.clusterSize :=
    le_divCeil_mul hpos _
  rw [Nat.zero_mul, Nat.sub_zero, min_eq_right hall] at htotal hbyte
  rw [← hclusters] at htotal hbyte
  have hnext : (SegmentMap.ofPushes clusters).nextOut = im.header.size := by
    have hmap := SegmentMap.denotes_ofPushes (B := fun y => im.file[y]?)
      (D := fun _ _ _ _ => none) (fun y hy => List.getElem?_eq_none (hy.trans' im.file_le)) clusters
    rw [hmap.next, htotal, min_eq_left im.checks.2.2]
  dsimp only at hpushes
  rw [hnext, if_neg (lt_irrefl _)] at hpushes
  have hx' := hbyte x hx
  rw [Nat.zero_add, hpushes] at hx'
  exact hx'

/-- A compressed cluster is decoded if it is read as a whole, and not otherwise. -/
lemma block_of_compressed (im : Image) {c offset sectors : ℕ} (hc : c < im.header.totalClusters)
    (hlook : im.header.lookup im.file c = .compressed offset sectors) :
    ∃ out n, im.dec.read (im.file.drop offset) = some (out, n) ∧
      (im.ReadWhole c offset → fileBlock (fun _ => im.dec.inflate) im.file .deflate offset
        (saturatingMul sectors 512) (im.header.thisOut c) = some out) ∧
      (¬ im.ReadWhole c offset → fileBlock (fun _ => im.dec.inflate) im.file .deflate offset
        (saturatingMul sectors 512) (im.header.thisOut c) = none) := by
  obtain ⟨out, n, hread, hlen, hn⟩ := im.compressed c hc offset sectors hlook
  obtain ⟨hstart, -⟩ := im.thisOut_pos hc
  have hblock := fileBlock_stream (show Codec.deflate ≠ .raw ∧ Codec.deflate ≠ .zero by decide)
    hread (saturatingMul sectors 512) (im.header.thisOut c)
  have hfile := im.dec.length_le _ _ _ hread
  rw [List.length_drop] at hfile
  have hmax := im.file_le
  have hclen : n ≤ saturatingMul sectors 512 := le_min hn (by omega)
  have hbig : im.header.clusterSize ≤ maxBlockOut :=
    (Nat.pow_le_pow_right (by decide) im.checks.2.1).trans (by decide)
  have hthis : im.header.thisOut c =
      min im.header.clusterSize (im.header.size - c * im.header.clusterSize) := rfl
  have hsucc : (c + 1) * im.header.clusterSize =
    c * im.header.clusterSize + im.header.clusterSize :=
    Nat.succ_mul ..
  refine ⟨out, n, hread, fun hwhole => ?_, fun hcut => ?_⟩
  · have hfull : im.header.thisOut c = im.header.clusterSize := by
      have := hwhole.1
      omega
    have hall := hwhole.2 out n hread
    rw [hblock, if_pos ⟨le_min hclen (by rw [hfull]; exact hall), by omega, by omega⟩]
  · rw [hblock, if_neg]
    rintro ⟨hle, hsame, -⟩
    have hfull : im.header.thisOut c = im.header.clusterSize := by omega
    rw [hfull] at hle
    refine hcut ⟨by omega, fun out' n' hread' => ?_⟩
    rw [hread] at hread'
    obtain ⟨-, rfl⟩ := Prod.mk.inj (Option.some.inj hread')
    exact hle.trans (min_le_right _ _)

/-- **A disk reads as its tables say** exactly if every compressed cluster is on it as a whole. -/
theorem reads_guest_iff (im : Image) :
    im.image.ReadsAs (im.header.guestByte im.file im.dec) ↔
      ∀ c < im.header.totalClusters, ∀ offset sectors,
        im.header.lookup im.file c = .compressed offset sectors → im.ReadWhole c offset := by
  have hpos := im.clusterSize_pos
  rw [FileImage.readsAs_iff]
  constructor
  · intro hreads c hc offset sectors hlook
    obtain ⟨out, n, -, -, hblock⟩ := im.block_of_compressed hc hlook
    have hx := (im.thisOut_pos hc).1
    have hbyte := hreads _ hx
    rw [im.byte_eq hx, Nat.mul_div_cancel _ hpos, hlook] at hbyte
    by_contra hnot
    change (fileBlock _ _ _ _ _ _).map _ = _ at hbyte
    rw [hblock hnot] at hbyte
    cases hbyte
  · intro hwhole x hx
    have hc : x / im.header.clusterSize < im.header.totalClusters :=
      div_lt_divCeil hpos hx
    have hin : x % im.header.clusterSize < im.header.thisOut (x / im.header.clusterSize) := by
      have hmod := Nat.mod_lt x hpos
      have hdiv := Nat.div_add_mod' x im.header.clusterSize
      have hsize : x < im.header.size := hx
      unfold Header.thisOut blockLen
      omega
    rw [im.byte_eq hx, Header.guestByte]
    cases hlook : im.header.lookup im.file (x / im.header.clusterSize) with
    | zero => rfl
    | standard host =>
      have hfile := im.standard _ hc host hlook
      have hlt : host + x % im.header.clusterSize < im.file.length := by omega
      exact (List.getElem?_eq_getElem hlt).trans
        (congrArg some (List.getD_eq_getElem _ _ hlt).symm)
    | compressed offset sectors =>
      obtain ⟨out, n, hread, hblock, -⟩ := im.block_of_compressed hc hlook
      change (fileBlock _ _ _ _ _ _).map _ = _
      rw [hblock (hwhole _ hc offset sectors hlook)]
      dsimp only
      rw [hread]
      rfl

/-- A disk of a hundred bytes, in one compressed cluster of 512. -/
def cutFile : Bytes :=
  List.flatten [[0x51, 0x46, 0x49, 0xFB, 0, 0, 0, 3], List.replicate 12 0, [0, 0, 0, 9],
    [0, 0, 0, 0, 0, 0, 0, 100], List.replicate 4 0, [0, 0, 0, 1], [0, 0, 0, 0, 0, 0, 0, 104],
    List.replicate 56 0, [0, 0, 0, 0, 0, 0, 2, 0], List.replicate 400 0,
    [0x60, 0, 0, 0, 0, 0, 4, 0], List.replicate 504 0, [1, 0x00, 0x02, 0xFF, 0xFD],
    List.replicate 512 7]

def cutHeader : Header := ⟨9, 100, [0, 0, 0, 0, 0, 0, 2, 0]⟩

lemma lookup_cutFile : cutHeader.lookup cutFile 0 = .compressed 1024 2 := by decide +kernel

def cutCluster : Image where
  path := "cut.qcow2"
  file := cutFile
  file_le := by decide +kernel
  dec := .stored
  header := cutHeader
  pushes := [(100, .compressed .deflate 1024 1024)]
  accepted := by decide +kernel
  mapped := by decide +kernel
  standard c hc host hlook := by
    obtain rfl : c = 0 := Nat.lt_one_iff.1 hc
    rw [lookup_cutFile] at hlook
    cases hlook
  compressed c hc offset sectors hlook := by
    obtain rfl : c = 0 := Nat.lt_one_iff.1 hc
    rw [lookup_cutFile] at hlook
    cases hlook
    have hread : StreamDecoder.stored.read (cutFile.drop 1024) = some (List.replicate 512 7, 517) :=
      by decide +kernel
    have hsize : cutHeader.clusterSize = 512 := by decide
    rw [hsize]
    exact ⟨List.replicate 512 7, 517, hread, List.length_replicate, by omega⟩

/-- What is in a compressed cluster that the end of the disk cuts is not read. -/
theorem reads_guest_counterexample :
    ¬ ∀ im : Image, im.image.ReadsAs (im.header.guestByte im.file im.dec) := by
  intro h
  have hbyte := (FileImage.readsAs_iff _ _).1 (h cutCluster) 0 (by decide)
  have hnone : cutCluster.image.byte 0 = none := by decide +kernel
  rw [hnone] at hbyte
  cases hbyte

end Image

end Qcow2

end Reclaim
