import Mathlib.Algebra.BigOperators.Group.Finset.Basic
import Reclaim.Foundation.Fields
import Reclaim.Fs.ApfsViews

/-!
# The space manager's bitmap

A container is divided into chunks, each with a block of bits for its blocks.  Chunk-info blocks
list the chunks in order, as many as fit in a block, and the space manager lists these.

`build` appends the bits of the chunks as it comes to them.  A chunk-info block that is missing, or
does not list all the chunks it has room for, appends less than its share, and what follows is put
at the place of other blocks: `inPlace_iff`.
-/

namespace Reclaim
namespace Apfs

open FileBytes

/-- A space manager whose chunk-info blocks are listed in its own block. -/
structure Spaceman where
  src : Volume
  base : ℕ
  blockSize : ℕ
  blockCount : ℕ
  sm : Bytes
  /-- A chunk has as many blocks as a block has bits. -/
  perChunk : leU32 sm 36 = saturatingMul (max blockSize 1) 8

namespace Spaceman

/-- The space manager at a block; of the layouts, the one with a single level. -/
def load (src : Volume) (base smPaddr blockSize blockCount : ℕ) : Option Spaceman :=
  let bs := max blockSize 1
  if smPaddr * bs ≤ u64Max ∧ base + smPaddr * bs ≤ u64Max then
    let sm := src.read (base + smPaddr * bs) blockSize
    (ObjPhys.parse sm).bind fun obj =>
      if obj.kind ≠ 5 ∨ leU32 sm 36 = 0 then none
      else if h : leU32 sm 36 = saturatingMul bs 8 then
        if leU32 sm 68 ≠ 0 ∨ leU32 sm 64 = 0 then none
        else some ⟨src, base, blockSize, blockCount, sm, h⟩
      else none
  else none

variable (m : Spaceman)

def bs : ℕ := max m.blockSize 1

def bytesPerChunk : ℕ := leU32 m.sm 36 / 8

/-- No more than the bitmap of the container, and no more than 64 MiB. -/
def maxBytes : ℕ := min (divCeil m.blockCount 8) (64 * 2 ^ 20)

def cibCount : ℕ := leU32 m.sm 64

/-- The address of a chunk-info block. -/
def cibPaddr (c : ℕ) : ℕ := leU64 m.sm (leU32 m.sm 80 + c * 8)

def readBlock (paddr : ℕ) : Bytes :=
  m.src.read (saturatingAdd m.base (saturatingMul paddr m.bs)) m.blockSize

/-- A chunk-info block, if there is one. -/
def cib (c : ℕ) : Option Bytes :=
  if m.cibPaddr c = 0 then none
  else (ObjPhys.parse (m.readBlock (m.cibPaddr c))).map fun _ => m.readBlock (m.cibPaddr c)

/-- The chunks that a chunk-info block has room for. -/
def chunksPerCib : ℕ := (m.blockSize - 40) / 32

/-- The chunks that a chunk-info block lists. -/
def chunks (c : ℕ) : ℕ :=
  match m.cib c with
  | none => 0
  | some b => min (leU32 b 36) m.chunksPerCib

/-- The address of the bits of a chunk; zero if all its blocks are free. -/
def bitmapAddr (c k : ℕ) : ℕ :=
  match m.cib c with
  | none => 0
  | some b => leU64 b (40 + k * 32 + 24)

/-- The bits of a chunk as they are appended. -/
def chunkBytes (addr : ℕ) : Bytes :=
  if addr = 0 then List.replicate m.bytesPerChunk 0
  else
    let bm := m.readBlock addr
    bm.take m.bytesPerChunk ++ List.replicate (m.bytesPerChunk - bm.length) 0

/-- The bits with those of a chunk. -/
def addChunk (bits : Bytes) (p : ℕ × ℕ) : Bytes :=
  if m.maxBytes ≤ bits.length then bits else bits ++ m.chunkBytes (m.bitmapAddr p.1 p.2)

/-- The bits with those of the chunks of a chunk-info block. -/
def addCib (bits : Bytes) (c : ℕ) : Bytes :=
  if m.maxBytes ≤ bits.length then bits
  else (List.range (m.chunks c)).foldl (fun bits k => m.addChunk bits (c, k)) bits

/-- The bits that are assembled. -/
def bits : Bytes := (List.range (min m.cibCount 4096)).foldl m.addCib []

/-- The bitmap, if there are any bits. -/
def bitmap : Option Bitmap :=
  if m.bits = [] then none else some (Bitmap.new m.blockSize 0 m.blockCount m.bits)

/-- `build`. -/
def build (src : Volume) (base smPaddr blockSize blockCount : ℕ) : Option Bitmap :=
  (load src base smPaddr blockSize blockCount).bind bitmap

/-! ## Chunks and their places -/

/-- The place of a chunk among all chunks. -/
def number (c k : ℕ) : ℕ := c * m.chunksPerCib + k

/-- A chunk that a chunk-info block lists, and that has blocks of the container. -/
structure Lists (c k : ℕ) : Prop where
  cib : c < m.cibCount
  chunk : k < m.chunks c
  block : m.number c k * (8 * m.bs) < m.blockCount

/-- A bit of a chunk. -/
def chunkBit (c k x : ℕ) : Bool :=
  if m.bitmapAddr c k = 0 then false
  else (byteAt (m.readBlock (m.bitmapAddr c k)) (x / 8) >>> UInt8.ofNat (x % 8)) &&& 1 == 1

/-- The chunks that are come to, in order. -/
def listed : List (ℕ × ℕ) :=
  (List.range (min m.cibCount 4096)).flatMap fun c => (List.range (m.chunks c)).map fun k => (c, k)

/-- Those whose bits are appended. -/
def placed : List (ℕ × ℕ) := m.listed.take (divCeil m.maxBytes m.bytesPerChunk)

/-- Every chunk is put at its own place. -/
def InPlace : Prop := ∀ c k, m.Lists c k → m.placed[m.number c k]? = some (c, k)

/-- Before every chunk all chunk-info blocks are full, and neither they nor the bits are too
many. -/
def NoGap : Prop := ∀ c k, m.Lists c k →
  c < 4096 ∧ m.number c k * m.bs < 64 * 2 ^ 20 ∧ ∀ c' < c, m.chunks c' = m.chunksPerCib

variable {m}

lemma bs_pos (m : Spaceman) : 0 < m.bs := lt_max_of_lt_right one_pos

lemma bytesPerChunk_eq : m.bytesPerChunk = m.bs := by
  have hlt := leU32_lt m.sm 36
  have hbits := m.perChunk
  unfold saturatingMul u64Max at hbits
  unfold bytesPerChunk bs
  omega

lemma chunks_le (c : ℕ) : m.chunks c ≤ m.chunksPerCib := by
  unfold chunks
  split
  · exact Nat.zero_le _
  · exact min_le_right ..

lemma length_chunkBytes (addr : ℕ) : (m.chunkBytes addr).length = m.bs := by
  unfold chunkBytes
  split
  · rw [List.length_replicate, bytesPerChunk_eq]
  · rw [bytesPerChunk_eq]
    simp only [List.length_append, List.length_take, List.length_replicate]
    omega

/-! ## What is appended -/

/-- Where there are bits enough, no more are appended. -/
lemma foldl_addChunk_full {bits : Bytes} (h : m.maxBytes ≤ bits.length) (ps : List (ℕ × ℕ)) :
    ps.foldl m.addChunk bits = bits := by
  induction ps with
  | nil => rfl
  | cons p ps ih => rw [List.foldl_cons, addChunk, if_pos h, ih]

/-- Chunks are appended up to the bits that are wanted. -/
lemma foldl_addChunk (ps : List (ℕ × ℕ)) : ∀ (j : ℕ) (bits : Bytes), bits.length = j * m.bs →
    ps.foldl m.addChunk bits = bits ++ (ps.take (divCeil m.maxBytes m.bs - j)).flatMap
      fun p => m.chunkBytes (m.bitmapAddr p.1 p.2) := by
  induction ps with
  | nil =>
    intro j bits _
    rw [List.foldl_nil, List.take_nil, List.flatMap_nil, List.append_nil]
  | cons p ps ih =>
    intro j bits hlen
    by_cases hfull : m.maxBytes ≤ bits.length
    · have hnone : divCeil m.maxBytes m.bs - j = 0 := by
        have := (lt_divCeil_iff (n := m.maxBytes) (i := j) m.bs_pos).not.2 (by omega)
        omega
      rw [foldl_addChunk_full hfull, hnone, List.take_zero, List.flatMap_nil, List.append_nil]
    · have hmore := (lt_divCeil_iff (n := m.maxBytes) (i := j) m.bs_pos).2 (by omega)
      obtain ⟨r, hr⟩ : ∃ r, divCeil m.maxBytes m.bs - j = r + 1 :=
        ⟨_, (Nat.succ_pred (by omega)).symm⟩
      have hnext : (bits ++ m.chunkBytes (m.bitmapAddr p.1 p.2)).length = (j + 1) * m.bs := by
        rw [List.length_append, length_chunkBytes, hlen, Nat.succ_mul]
      rw [List.foldl_cons, addChunk, if_neg hfull, ih (j + 1) _ hnext, hr, List.take_succ_cons,
        List.flatMap_cons, List.append_assoc]
      have hrest : divCeil m.maxBytes m.bs - (j + 1) = r := by omega
      rw [hrest]

/-- The bits are those of the chunks that are placed. -/
lemma bits_eq : m.bits = m.placed.flatMap fun p => m.chunkBytes (m.bitmapAddr p.1 p.2) := by
  have hcib : m.addCib = fun bits c =>
      ((List.range (m.chunks c)).map fun k => (c, k)).foldl m.addChunk bits := by
    funext bits c
    rw [addCib, List.foldl_map]
    split
    · rename_i hfull
      have := foldl_addChunk_full hfull ((List.range (m.chunks c)).map fun k => (c, k))
      rw [List.foldl_map] at this
      exact this.symm
    · rfl
  rw [bits, hcib, ← List.foldl_flatMap, placed, bytesPerChunk_eq]
  exact foldl_addChunk _ 0 [] (Nat.zero_mul _).symm

/-! ## Where a chunk is put -/

/-- The chunks that are listed before those of a chunk-info block. -/
def before (m : Spaceman) (c : ℕ) : ℕ := ∑ c' ∈ Finset.range c, m.chunks c'

lemma before_succ_le (m : Spaceman) {c n : ℕ} (h : c < n) :
    m.before c + m.chunks c ≤ m.before n := by
  rw [before, before, ← Finset.sum_range_succ]
  exact Finset.sum_le_sum_of_subset (Finset.range_subset_range.2 h)

/-- A chunk comes behind those of the chunk-info blocks before its own. -/
lemma getElem?_listing (n i c k : ℕ) :
    ((List.range n).flatMap fun c => (List.range (m.chunks c)).map fun k => (c, k))[i]? =
      some (c, k) ↔ c < n ∧ k < m.chunks c ∧ i = m.before c + k := by
  have hlen : ∀ n, ((List.range n).flatMap fun c =>
      (List.range (m.chunks c)).map fun k => (c, k)).length = m.before n := by
    intro n
    induction n with
    | zero => rfl
    | succ n ih =>
      rw [List.range_succ, List.flatMap_append, List.length_append, ih, List.flatMap_singleton,
        List.length_map, List.length_range, before, before, Finset.sum_range_succ]
  induction n with
  | zero => simp
  | succ n ih =>
    rw [List.range_succ, List.flatMap_append, List.flatMap_singleton]
    by_cases hi : i < m.before n
    · rw [List.getElem?_append_left (by rwa [hlen])]
      refine ih.trans ⟨fun ⟨hc, hk, heq⟩ => ⟨by omega, hk, heq⟩, fun ⟨hc, hk, heq⟩ => ⟨?_, hk, heq⟩⟩
      have hne : c ≠ n := by
        rintro rfl
        omega
      omega
    · rw [List.getElem?_append_right (by rw [hlen]; omega), hlen, List.getElem?_map,
        Option.map_eq_some_iff]
      constructor
      · rintro ⟨k', hk', heq⟩
        obtain ⟨rfl, rfl⟩ := Prod.mk.inj heq
        obtain ⟨hlt, hk'⟩ := List.getElem?_eq_some_iff.1 hk'
        rw [List.getElem_range] at hk'
        rw [List.length_range] at hlt
        exact ⟨Nat.lt_succ_self n, by omega, by omega⟩
      · rintro ⟨hc, hk, heq⟩
        have hcn : c = n := by
          by_contra hne
          have := m.before_succ_le (show c < n by omega)
          omega
        subst hcn
        have hplace : i - m.before c = k := by omega
        exact ⟨k, by rw [hplace, List.getElem?_range hk], rfl⟩

/-- The chunks listed before are at most what there is room for, and as many only if all the
chunk-info blocks are full. -/
lemma before_eq_iff (m : Spaceman) (c : ℕ) :
    m.before c = c * m.chunksPerCib ↔ ∀ c' < c, m.chunks c' = m.chunksPerCib := by
  have hall := Finset.sum_eq_sum_iff_of_le (s := Finset.range c) (f := m.chunks)
    (g := fun _ => m.chunksPerCib) fun c' _ => chunks_le c'
  rw [Finset.sum_const, Finset.card_range, smul_eq_mul] at hall
  rw [before, hall]
  exact forall_congr' fun c' => by rw [Finset.mem_range]

/-- **The place of a chunk**: its own if and only if nothing is lost before it. -/
lemma placed_iff {c k : ℕ} (h : m.Lists c k) :
    m.placed[m.number c k]? = some (c, k) ↔
      c < 4096 ∧ m.number c k * m.bs < 64 * 2 ^ 20 ∧ ∀ c' < c, m.chunks c' = m.chunksPerCib := by
  have hin : m.number c k * m.bs < divCeil m.blockCount 8 := by
    rw [lt_divCeil_iff (by norm_num), Nat.mul_assoc, Nat.mul_comm m.bs]
    exact h.block
  have hwanted : m.number c k < divCeil m.maxBytes m.bytesPerChunk ↔
      m.number c k * m.bs < 64 * 2 ^ 20 := by
    rw [bytesPerChunk_eq, lt_divCeil_iff m.bs_pos, maxBytes, lt_min_iff]
    exact and_iff_right hin
  have hplace : m.number c k = m.before c + k ↔ ∀ c' < c, m.chunks c' = m.chunksPerCib := by
    rw [← before_eq_iff, number, Nat.add_right_cancel_iff, eq_comm]
  rw [← hwanted, ← hplace, placed, List.getElem?_take]
  split
  · rename_i hlt
    rw [listed, getElem?_listing, lt_min_iff]
    exact ⟨fun ⟨hc, _, heq⟩ => ⟨hc.2, hlt, heq⟩, fun ⟨hc, _, heq⟩ => ⟨⟨h.cib, hc⟩, h.chunk, heq⟩⟩
  · rename_i hlt
    exact ⟨fun hnone => absurd hnone (Option.some_ne_none _).symm,
      fun ⟨_, hlt', _⟩ => absurd hlt' hlt⟩

/-! ## The bits of the container -/

/-- The bits of a chunk are its own. -/
lemma bit_chunkBytes (c k x : ℕ) :
    ((byteAt (m.chunkBytes (m.bitmapAddr c k)) (x / 8) >>> UInt8.ofNat (x % 8)) &&& 1 == 1) =
      m.chunkBit c k x := by
  unfold chunkBit chunkBytes
  split
  · rw [byteAt_replicate_zero]
    simp
  · have hread : (m.readBlock (m.bitmapAddr c k)).length ≤ m.bytesPerChunk := by
      rw [bytesPerChunk_eq, readBlock, Volume.length_read]
      exact le_max_left ..
    dsimp only
    rw [List.take_of_length_le hread, byteAt_append]
    split
    · rfl
    · rename_i hout
      rw [byteAt_replicate_zero, byteAt_of_length_le (not_lt.1 hout)]

/-- **A block's bit** is that of its chunk, if the chunk is at its place. -/
lemma isBlockAllocated_of_placed {bm : Bitmap} (hbm : bm ∈ m.bitmap) {b c k : ℕ}
    (hb : b < m.blockCount) (hnumber : b / (8 * m.bs) = m.number c k)
    (hplace : m.placed[m.number c k]? = some (c, k)) :
    bm.isBlockAllocated b = m.chunkBit c k (b % (8 * m.bs)) := by
  have hpos := m.bs_pos
  have hlt := Nat.mod_lt b (show 0 < 8 * m.bs by omega)
  have hx : b % (8 * m.bs) / 8 < m.bs := by omega
  have hdiv := Nat.div_add_mod b (8 * m.bs)
  rw [hnumber, Nat.mul_assoc, Nat.mul_comm m.bs] at hdiv
  have hbyte : b / 8 = m.number c k * m.bs + b % (8 * m.bs) / 8 := by omega
  have hbit : b % 8 = b % (8 * m.bs) % 8 := by omega
  obtain ⟨x, hdrop⟩ : ∃ x, (m.bits ++ []).drop (m.number c k * m.bs) =
      m.chunkBytes (m.bitmapAddr c k) ++ x := by
    rw [bits_eq]
    exact drop_flatMap (fun p => length_chunkBytes _) hplace []
  rw [List.append_nil] at hdrop
  have hlen : b % (8 * m.bs) / 8 < (m.chunkBytes (m.bitmapAddr c k)).length := by
    rwa [length_chunkBytes]
  have hget : m.bits[b / 8]? =
      some (byteAt (m.chunkBytes (m.bitmapAddr c k)) (b % (8 * m.bs) / 8)) := by
    rw [hbyte, ← List.getElem?_drop, hdrop, List.getElem?_append_left hlen,
      List.getElem?_eq_getElem hlen, byteAt, List.getD_eq_getElem _ _ hlen]
  unfold bitmap at hbm
  split at hbm
  · cases hbm
  · obtain rfl := Option.some.inj hbm
    unfold Bitmap.isBlockAllocated Bitmap.new
    dsimp only
    rw [if_neg (not_le.2 hb), hget, hbit]
    exact bit_chunkBytes c k _

/-- **The bitmap of the container.**  The chunks that are placed are those whose bits are appended.
All are at their own places if and only if no chunk-info block before one of them is missing or
short; and then the bit of a block is that of the chunk that covers it. -/
theorem inPlace_iff (m : Spaceman) :
    (m.bits = m.placed.flatMap fun p => m.chunkBytes (m.bitmapAddr p.1 p.2)) ∧
      (m.InPlace ↔ m.NoGap) ∧
        (m.InPlace → ∀ bm ∈ m.bitmap, ∀ b < m.blockCount, ∀ c k, m.Lists c k →
          b / (8 * m.bs) = m.number c k →
            bm.isBlockAllocated b = m.chunkBit c k (b % (8 * m.bs))) := by
  refine ⟨bits_eq, forall₂_congr fun c k => forall_congr' fun h => placed_iff h, ?_⟩
  intro hplace bm hbm b hb c k hlists hnumber
  exact isBlockAllocated_of_placed hbm hb hnumber (hplace c k hlists)

/-! ## A sample -/

/-- A container with a space manager in block 2.  Of two chunk-info blocks the first is missing; the
second lists a chunk of which the first block is in use. -/
def firstMissing : Volume where
  len := 61440 * 512
  content x :=
    match x with
    | 0x418 => 5
    | 0x421 => 2
    | 0x425 => 0x10
    | 0x428 => 14
    | 0x440 => 2
    | 0x450 => 128
    | 0x488 => 3
    | 0x624 => 1
    | 0x640 => 4
    | 0x800 => 1
    | _ => 0

set_option maxRecDepth 20000 in
/-- The second block of the chunk is free, and its bit says that it is in use. -/
theorem firstMissing_counterexample : ∃ m ∈ load firstMissing 0 2 512 61440, m.Lists 1 0 ∧
    57345 / (8 * m.bs) = m.number 1 0 ∧ m.chunkBit 1 0 (57345 % (8 * m.bs)) = false ∧
      (m.bitmap.map fun bm => bm.isBlockAllocated 57345) = some true ∧
        m.placed[m.number 1 0]? = none :=
  ⟨⟨firstMissing, 0, 512, 61440, firstMissing.read 1024 512, rfl⟩, rfl,
    ⟨by decide, by decide, by decide⟩, rfl, rfl, rfl, rfl⟩

end Spaceman
end Apfs
end Reclaim
