import Reclaim.Block.LbaRange

/-!
# The image map

The sidecar of an image: its geometry, one hash for each chunk that has been imaged (`none` marks
a chunk still to do, which is all that `--resume` goes by), the bad and unread runs, and for zstd
output the index of frames.

`Backend` is the code the imager calls that is not part of the repository: the two hash crates,
zstd, and how many bytes one positioned read of a file returns at most.
-/

namespace Reclaim

open FileBytes

/-- Whole-image and per-chunk hash algorithm. -/
inductive HashAlgo where
  | blake3
  | sha256
  deriving DecidableEq, Repr

/-- Destination compression. -/
inductive Compression where
  | none
  | zstd
  deriving DecidableEq, Repr

/-- The hash crates, zstd at the level the imager uses, and the operating system's limit on one
positioned read.  Decompressing a compressed string gives it back. -/
structure Backend where
  hash : HashAlgo → Bytes → String
  compress : Bytes → Bytes
  decompress : Bytes → ℕ → Option Bytes
  readLimit : ℕ
  lossless : ∀ d, decompress (compress d) d.length = some d

namespace Backend

/-- A compressed frame that its index entry describes and one positioned read returns whole. -/
def FrameFits (B : Backend) (d : Bytes) : Prop :=
  (B.compress d).length ≤ u32Max ∧ (B.compress d).length ≤ B.readLimit

/-- Spell the bytes as characters. -/
def spell (d : Bytes) : String := String.ofList (d.map fun b => Char.ofNat b.toNat)

/-- A backend without compression, whose hash spells the bytes. -/
def plain : Backend where
  hash _ d := spell d
  compress d := d
  decompress d _ := some d
  readLimit := u32Max
  lossless _ := rfl

lemma spell_injective : Function.Injective spell := by
  intro a b h
  have hchars : a.map (fun b => Char.ofNat b.toNat) = b.map fun b => Char.ofNat b.toNat := by
    rw [← String.toList_ofList (l := a.map _), ← String.toList_ofList (l := b.map _)]
    exact congrArg String.toList h
  refine List.map_injective_iff.2 (fun x y hxy => ?_) hchars
  have hcode : ∀ z : UInt8, (Char.ofNat z.toNat).toNat = z.toNat := by
    intro z
    have hz := z.toNat_lt
    have hvalid : z.toNat.isValidChar := .inl (by omega)
    rw [Char.ofNat, dif_pos hvalid]
    rfl
  rw [← UInt8.toNat_inj, ← hcode x, ← hcode y]
  exact congrArg Char.toNat hxy

lemma hash_plain_injective (algo : HashAlgo) : Function.Injective (plain.hash algo) :=
  spell_injective

end Backend

/-- A streaming hasher: what has been fed to it. -/
structure Digest where
  algo : HashAlgo
  fed : Bytes

namespace Digest

def new (algo : HashAlgo) : Digest := ⟨algo, []⟩

def update (d : Digest) (data : Bytes) : Digest := { d with fed := d.fed ++ data }

def finalizeHex (B : Backend) (d : Digest) : String := B.hash d.algo d.fed

end Digest

/-- One-shot hash of `data`. -/
def hashBytes (B : Backend) (algo : HashAlgo) (data : Bytes) : String :=
  ((Digest.new algo).update data).finalizeHex B

@[simp] lemma hashBytes_eq (B : Backend) (algo : HashAlgo) (data : Bytes) :
    hashBytes B algo data = B.hash algo data := by
  simp [hashBytes, Digest.new, Digest.update, Digest.finalizeHex]

/-- One zstd frame's placement. -/
structure FrameEntry where
  imageOffset : ℕ
  fileOffset : ℕ
  uncompressed : ℕ
  compressed : ℕ
  deriving DecidableEq, Repr

/-- The imaging sidecar map. -/
structure ImageMap where
  version : ℕ
  sourceId : String
  size : ℕ
  sectorSize : ℕ
  chunkSize : ℕ
  hashAlgo : HashAlgo
  compression : Compression
  frames : List FrameEntry
  chunkHashes : List (Option String)
  wholeHash : Option String
  bad : List LbaRange
  unread : List LbaRange
  complete : Bool
  firstMibHash : Option String
  lastMibHash : Option String
  deriving DecidableEq, Repr

namespace ImageMap

/-- A fresh map for a source. -/
def new (sourceId : String) (size sectorSize chunkSize : ℕ) (hashAlgo : HashAlgo)
    (compression : Compression) : ImageMap where
  version := 1
  sourceId := sourceId
  size := size
  sectorSize := sectorSize
  chunkSize := chunkSize
  hashAlgo := hashAlgo
  compression := compression
  frames := []
  chunkHashes := List.replicate (divCeil size (max chunkSize 1)) none
  wholeHash := none
  bad := []
  unread := []
  complete := false
  firstMibHash := none
  lastMibHash := none

/-- Number of chunks. -/
def numChunks (m : ImageMap) : ℕ := m.chunkHashes.length

/-- True if chunk `i` has been imaged. -/
def isChunkDone (m : ImageMap) (i : ℕ) : Bool := ((m.chunkHashes[i]?).map (·.isSome)).getD false

/-- Total bad sectors recorded. -/
def badSectors (m : ImageMap) : ℕ := totalCount m.bad

/-- The bytes of chunk `i`: a full chunk, or what is left of the source. -/
def chunkLen (m : ImageMap) (i : ℕ) : ℕ := min (m.size - i * m.chunkSize) m.chunkSize

lemma isChunkDone_iff {m : ImageMap} {i : ℕ} :
    m.isChunkDone i = true ↔ ∃ h, m.chunkHashes[i]? = some (some h) := by
  unfold isChunkDone
  rcases m.chunkHashes[i]? with _ | _ | h <;> simp

lemma isChunkDone_lt {m : ImageMap} {i : ℕ} (h : m.isChunkDone i = true) : i < m.numChunks := by
  obtain ⟨x, hx⟩ := isChunkDone_iff.1 h
  exact (List.getElem?_eq_some_iff.1 hx).1

/-- Whether a chunk is done depends on the hashes only. -/
lemma isChunkDone_congr {m m' : ImageMap} {i : ℕ} (h : m.chunkHashes[i]? = m'.chunkHashes[i]?) :
    m.isChunkDone i = m'.isChunkDone i := by rw [isChunkDone, isChunkDone, h]

@[simp] lemma not_isChunkDone_new (id : String) (size ss cs : ℕ) (a : HashAlgo) (c : Compression)
    (i : ℕ) : (ImageMap.new id size ss cs a c).isChunkDone i = false := by
  rw [Bool.eq_false_iff, Ne, isChunkDone_iff]
  rintro ⟨h, hh⟩
  simp only [new, List.getElem?_replicate] at hh
  split at hh <;> simp at hh

end ImageMap

/-- `round_up`: the next multiple of `m`, saturating at the largest `u32`. -/
def roundUp (v m : ℕ) : ℕ := min (divCeil v (max m 1) * max m 1) u32Max

lemma roundUp_pos {v m : ℕ} (hv : 0 < v) : 0 < roundUp v m := by
  have h1 : 0 < divCeil v (max m 1) := (lt_divCeil_iff (by omega)).2 (by omega)
  have h2 : 0 < divCeil v (max m 1) * max m 1 := Nat.mul_pos h1 (by omega)
  unfold roundUp u32Max
  omega

lemma roundUp_le (v m : ℕ) : roundUp v m ≤ u32Max := min_le_right _ _

end Reclaim
