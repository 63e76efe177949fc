import Reclaim.Block.SectorTable
import Reclaim.Foundation.LittleEndian
import Reclaim.Foundation.ReadProgram
import Reclaim.Imaging.Mapped
import Mathlib.Data.Rat.Init

/-!
# Partition tables

The partition scanner reads a source through `readBytes`, which rounds a range out to sectors, cuts
it at the end of the source and fills up with zeros.  What a sector's status was is not looked at,
so a `Medium` is a block source with the bytes that its reads show, zeros where it cannot be read.

A `PartitionMap` is what a scan comes to, and its `volumeWindows` are what the filesystem engines
are given.
-/

namespace Reclaim

open FileBytes

variable {σ : Type}

/-- `read_bytes`: any bytes of the source, zeros for what is not there. -/
def readBytes (src : BlockSource σ) (offset len : ℕ) (s : σ) : Bytes × σ :=
  let out := List.replicate len 0
  if len = 0 ∨ src.len ≤ offset then (out, s)
  else
    let ss := src.sector
    let start := offset - offset % ss
    let stop := min (saturatingAdd offset len) src.len
    let alignedStop := min (saturatingMul (divCeil stop ss) ss) (alignUp src.len ss)
    if alignedStop ≤ start then (out, s)
    else
      let span := alignedStop - start
      let r := src.readAt s start span
      let skip := offset - start
      let copy := min (min len (span - skip)) (stop - offset)
      ((r.1.buf.drop skip).take copy ++ List.replicate (len - copy) 0, r.2)

/-- The scanner's reads, for a program over reads. -/
def readStep (src : BlockSource σ) (offset len : ℕ) (s : σ) : (Bytes × Bool) × σ :=
  (((readBytes src offset len s).1, false), (readBytes src offset len s).2)

/-- A source and the bytes that its reads show. -/
structure Medium (σ : Type) where
  src : BlockSource σ
  content : ℕ → UInt8
  shows : ∀ s off n, src.sector ∣ off → ∀ k < n, off + k < src.len →
    byteAt (src.readAt s off n).1.buf k = content (off + k)

namespace Medium

/-- A range of the medium, zeros behind its end. -/
def bytes (d : Medium σ) (offset len : ℕ) : Bytes :=
  (List.range len).map fun k => if offset + k < d.src.len then d.content (offset + k) else 0

/-- The medium as one that answers every read with its bytes. -/
def reader (d : Medium σ) : Reader := fun offset len => (d.bytes offset len, false)

variable {d : Medium σ} {offset len : ℕ}

@[simp] lemma reader_fst : (d.reader offset len).1 = d.bytes offset len := rfl

lemma run_bytes : (ReadProg.bytes offset len).run d.reader = d.bytes offset len := by
  rw [ReadProg.run_bytes, reader_fst]

@[simp] lemma length_bytes : (d.bytes offset len).length = len := by simp [bytes]

lemma byteAt_bytes {k : ℕ} (hk : k < len) :
    byteAt (d.bytes offset len) k =
      if offset + k < d.src.len then d.content (offset + k) else 0 := by
  simp [byteAt, bytes, List.getD_eq_getElem?_getD, hk]

/-- A part of a range is a range. -/
lemma take_drop_bytes {a n : ℕ} (h : a + n ≤ len) :
    ((d.bytes offset len).drop a).take n = d.bytes (offset + a) n := by
  refine ext_byteAt ?_ fun k hk => ?_
  · rw [List.length_take, List.length_drop, length_bytes, length_bytes]
    omega
  · rw [List.length_take, List.length_drop, length_bytes] at hk
    rw [byteAt_take, if_pos (by omega), byteAt_drop, byteAt_bytes (by omega),
      byteAt_bytes (by omega), Nat.add_assoc]

lemma min_saturatingAdd {a b l : ℕ} (hl : l ≤ u64Max) :
    min (saturatingAdd a b) l = min (a + b) l := by
  rw [saturatingAdd, min_assoc, min_eq_right hl]

/-- The sectors that a read is rounded out to reach its end. -/
lemma stop_le_alignedStop (d : Medium σ) {stop : ℕ} (h : stop ≤ d.src.len) :
    stop ≤ min (saturatingMul (divCeil stop d.src.sector) d.src.sector)
      (alignUp d.src.len d.src.sector) := by
  have hlen := d.src.len_le
  refine le_min (le_min (le_divCeil_mul d.src.sector_pos stop) (h.trans hlen)) (h.trans ?_)
  unfold alignUp saturatingAdd
  split <;> omega

/-- **A read of any bytes** returns those of the medium, in whatever state the source is. -/
lemma readBytes_eq (s : σ) : (readBytes d.src offset len s).1 = d.bytes offset len := by
  unfold readBytes
  simp only [min_saturatingAdd d.src.len_le]
  split
  · rename_i h
    refine ext_byteAt (by simp) fun k hk => ?_
    rw [List.length_replicate] at hk
    rw [byteAt_replicate_zero, byteAt_bytes hk, if_neg (by omega)]
  · rename_i h
    set stop := min (offset + len) d.src.len with hstop
    have haligned := d.stop_le_alignedStop (min_le_right _ _ : stop ≤ d.src.len)
    generalize min (saturatingMul _ _) (alignUp _ _) = alignedStop at haligned ⊢
    have hdvd : d.src.sector ∣ offset - offset % d.src.sector := Nat.dvd_sub_mod offset
    have hstart : offset - offset % d.src.sector ≤ offset := Nat.sub_le _ _
    generalize offset - offset % d.src.sector = start at hdvd hstart ⊢
    have hend : offset < stop := by omega
    rw [if_neg (by omega)]
    -- what is copied reaches the end of the read or of the source
    have hcopy : min (min len (alignedStop - start - (offset - start))) (stop - offset) =
        min len (stop - offset) := by omega
    have hin : ∀ k < len, k < min len (stop - offset) ↔ offset + k < d.src.len := by omega
    have hskip : min len (stop - offset) ≤ alignedStop - start - (offset - start) := by omega
    have hfilled : (d.src.readAt s start (alignedStop - start)).1.buf.length =
        alignedStop - start := d.src.filled ..
    dsimp only
    rw [hcopy]
    clear_value stop
    generalize min len (stop - offset) = copy at hcopy hin hskip ⊢
    have hcopied : (((d.src.readAt s start (alignedStop - start)).1.buf.drop
        (offset - start)).take copy).length = copy := by
      rw [List.length_take, List.length_drop, hfilled, min_eq_left hskip]
    refine ext_byteAt ?_ fun k hk => ?_
    · rw [List.length_append, hcopied, List.length_replicate, length_bytes]
      omega
    · rw [List.length_append, hcopied, List.length_replicate] at hk
      rw [byteAt_append, hcopied, byteAt_bytes (by omega)]
      by_cases h : k < copy
      · have hk' : offset + k < d.src.len := (hin k (by omega)).1 h
        rw [if_pos h, if_pos hk', byteAt_take, if_pos h, byteAt_drop,
          d.shows s start _ hdvd _ (by omega) (by omega)]
        congr 1
        omega
      · rw [if_neg h, if_neg (mt (hin k (by omega)).2 h), byteAt_replicate_zero]

/-- What a scanner comes to does not depend on the state of the source. -/
lemma exec_eq {α : Type} (p : ReadProg α) (s : σ) :
    (p.exec (readStep d.src) s).1 = p.run d.reader := by
  refine (ReadProg.exec_eq_run (I := fun _ => True) (fun s _ offset len => ⟨?_, trivial⟩) p s
    trivial).1
  rw [readStep, readBytes_eq]
  rfl

/-- A medium of `len` bytes in sectors that begin with the given bytes and go on with zeros. -/
def ofSectors (len sectorSize : ℕ) (sector : ℕ → Bytes) (hlen : len ≤ u64Max)
    (hss : sectorSize ≤ u32Max) (hpos : 0 < sectorSize) : Medium Unit where
  src := SectorTable.source
    { id := "disk", len, sectorSize, next := id, vanished := fun _ => false
      content := fun x => byteAt (sector (x / sectorSize)) (x % sectorSize)
      status := fun _ _ => .good, len_le := hlen, sectorSize_le := hss, sectorSize_pos := hpos }
  content x := byteAt (sector (x / sectorSize)) (x % sectorSize)
  shows s off n hal k hk hin := by
    rw [SectorTable.sector_source] at hal
    refine (SectorTable.byteAt_answer _ hk).trans ?_
    rw [SectorTable.byteFor, SectorTable.sectorAt, if_pos]
    rw [if_neg]
    rintro (h | h)
    · exact h hal
    · have hmul := Nat.div_mul_le_self k sectorSize
      have hin' : off + k < len := hin
      have h' : len ≤ off + k / sectorSize * sectorSize := h
      omega

end Medium

/-! ## What a scan comes to -/

/-- A partition-table scheme. -/
inductive Scheme where
  | gpt
  | mbr
  | hybridMbr
  | apm
  | none
  deriving DecidableEq, Repr

/-- One partition, by its place in the source. -/
structure Partition where
  index : ℕ
  start : ℕ
  len : ℕ
  scheme : Scheme
  typeByte : Option ℕ
  typeGuid : Option String
  typeLabel : String
  name : Option String
  fsHint : Option String
  deriving DecidableEq, Repr

/-- The anchor of a `Container` or volume that is only detected. -/
structure ContainerAnchor where
  kind : String
  offset : ℕ
  evidence : String
  deriving DecidableEq, Repr

/-- The parsed partition map. -/
structure PartitionMap where
  scheme : Scheme
  entries : List Partition
  confidence : ℚ
  notes : List String
  containers : List ContainerAnchor
  deriving DecidableEq, Repr

/-- `volume_windows`: the partitions, or the whole source where there is no table. -/
def PartitionMap.volumeWindows (m : PartitionMap) (sourceLen : ℕ) : List (ℕ × ℕ) :=
  if m.entries = [] then [(0, sourceLen)] else m.entries.map fun p => (p.start, p.len)

end Reclaim
