import Reclaim.Foundation.FileBytes
import Reclaim.Block.LbaRange
import Mathlib.Data.Nat.Count
import Mathlib.Order.Interval.Finset.Nat

/-!
# Allocation bitmaps

A bit for each cluster of a volume, set where the cluster is in use.
-/

namespace Reclaim

open FileBytes

/-- A cluster allocation bitmap. -/
structure Bitmap where
  /-- Bytes a cluster. -/
  blockSize : ℕ
  /-- Byte offset that bit 0 covers. -/
  baseOffset : ℕ
  /-- Number of meaningful bits. -/
  blockCount : ℕ
  /-- Packed bits, the lowest first within each byte. -/
  bits : Bytes
  blockSize_pos : 0 < blockSize

namespace Bitmap

/-- A bitmap from packed bytes. -/
def new (blockSize baseOffset blockCount : ℕ) (bits : Bytes) : Bitmap where
  blockSize := max blockSize 1
  baseOffset := baseOffset
  blockCount := blockCount
  bits := bits
  blockSize_pos := lt_max_of_lt_right one_pos

/-- Allocation state of a cluster; out of range counts as allocated. -/
def isBlockAllocated (b : Bitmap) (index : ℕ) : Bool :=
  if b.blockCount ≤ index then true
  else
    match b.bits[index / 8]? with
    | some x => (x >>> UInt8.ofNat (index % 8)) &&& 1 == 1
    | none => true

/-- Allocation state at a volume-relative offset; what lies before the clusters counts as
allocated. -/
def isOffsetAllocated (b : Bitmap) (offset : ℕ) : Bool :=
  if offset < b.baseOffset then true
  else b.isBlockAllocated ((offset - b.baseOffset) / b.blockSize)

end Bitmap

end Reclaim

/-!
## Free space in a range of bytes

How likely a deleted file can be recovered is judged by how much of its space is still free, and
`unallocated_fraction` measures that with one sample a cluster, of a million clusters at most.

The clusters of a volume begin at the base of its bitmap, and the samples lie at multiples of the
cluster size.  Where the base is such a multiple too, each sample is the start of a cluster, and the
fraction is the one of the clusters that the range meets (`unallocatedFraction_exact`).
-/

namespace Reclaim

open FileBytes

namespace Bitmap

/-! ## Counting bits -/

/-- Bit `i` of a byte. -/
def byteBit (x : UInt8) (i : ℕ) : Bool := (x >>> UInt8.ofNat i) &&& 1 == 1

/-- `u8::count_ones`. -/
def countOnes (x : UInt8) : ℕ := (List.range 8).countP (byteBit x)

/-- The set bits among the first `n`: whole bytes, and a masked last one. -/
def popCount (bits : Bytes) (n : ℕ) : ℕ :=
  let full := n / 8
  let rem := n % 8
  let count := ((bits.take full).map countOnes).sum
  if 0 < rem then
    match bits[full]? with
    | some last => count + countOnes (last &&& (UInt8.ofNat (2 ^ rem) - 1))
    | none => count
  else count

/-- `Bitmap::allocated_count`. -/
def allocatedCount (b : Bitmap) : ℕ :=
  popCount b.bits (min b.blockCount (saturatingMul b.bits.length 8))

/-- Bit `i` is set. -/
def bitSet (bits : Bytes) (i : ℕ) : Bool := (bits[i / 8]?).any fun x => byteBit x (i % 8)

lemma byteBit_eq_testBit {x : UInt8} {i : ℕ} (hi : i < 8) : byteBit x i = x.toNat.testBit i := by
  have hshift : (x >>> UInt8.ofNat i).toNat = x.toNat >>> i := by
    rw [UInt8.toNat_shiftRight, UInt8.toNat_ofNat_of_lt' (lt_trans hi (by decide)),
      Nat.mod_eq_of_lt hi]
  rw [byteBit, Nat.testBit, Bool.eq_iff_iff, beq_iff_eq, ← UInt8.toNat_inj, UInt8.toNat_and, hshift,
    Nat.and_comm, UInt8.toNat_one, bne_iff_ne, Nat.one_and_eq_mod_two]
  omega

/-- Masked to its low `n` bits, a byte has the ones among these. -/
lemma countOnes_mask (x : UInt8) {n : ℕ} (hn : n < 8) :
    countOnes (x &&& (UInt8.ofNat (2 ^ n) - 1)) = (List.range n).countP (byteBit x) := by
  have hmask : (UInt8.ofNat (2 ^ n) - 1).toNat = 2 ^ n - 1 := by
    interval_cases n <;> rfl
  have hbit : ∀ i < 8,
      byteBit (x &&& (UInt8.ofNat (2 ^ n) - 1)) i = (byteBit x i && decide (i < n)) := by
    intro i hi
    rw [byteBit_eq_testBit hi, byteBit_eq_testBit hi, UInt8.toNat_and, Nat.testBit_and, hmask,
      Nat.testBit_two_pow_sub_one]
  have hsplit : List.range 8 = List.range n ++ (List.range (8 - n)).map (n + ·) := by
    rw [← List.range_add, Nat.add_sub_cancel' hn.le]
  have hlow : ∀ i ∈ List.range n,
      byteBit (x &&& (UInt8.ofNat (2 ^ n) - 1)) i = byteBit x i := by
    intro i hi
    have hi' := List.mem_range.1 hi
    rw [hbit i (by omega), decide_eq_true hi', Bool.and_true]
  have hhigh : ∀ i ∈ (List.range (8 - n)).map (n + ·),
      byteBit (x &&& (UInt8.ofNat (2 ^ n) - 1)) i ≠ true := by
    intro i hi
    obtain ⟨k, hk, rfl⟩ := List.mem_map.1 hi
    have hk' := List.mem_range.1 hk
    rw [hbit _ (by omega), decide_eq_false (by omega), Bool.and_false]
    exact Bool.false_ne_true
  rw [countOnes, hsplit, List.countP_append, List.countP_eq_zero.2 hhigh, Nat.add_zero]
  exact List.countP_congr fun i hi => by rw [hlow i hi]

lemma bitSet_cons_lt (x : UInt8) (bits : Bytes) {i : ℕ} (hi : i < 8) :
    bitSet (x :: bits) i = byteBit x i := by
  rw [bitSet, Nat.div_eq_of_lt hi, Nat.mod_eq_of_lt hi]
  rfl

lemma bitSet_cons_add (x : UInt8) (bits : Bytes) (i : ℕ) :
    bitSet (x :: bits) (8 + i) = bitSet bits i := by
  rw [bitSet, Nat.add_div_left i (by omega), Nat.add_mod_left, List.getElem?_cons_succ, bitSet]

lemma countP_cons_lt (x : UInt8) (bits : Bytes) {n : ℕ} (hn : n ≤ 8) :
    (List.range n).countP (bitSet (x :: bits)) = (List.range n).countP (byteBit x) := by
  apply List.countP_congr
  intro i hi
  rw [bitSet_cons_lt x bits (lt_of_lt_of_le (List.mem_range.1 hi) hn)]

/-- **Counting byte by byte** counts the bits below `n` that are set. -/
lemma popCount_eq (bits : Bytes) : ∀ n ≤ bits.length * 8,
    popCount bits n = (List.range n).countP (bitSet bits) := by
  induction bits with
  | nil =>
    intro n hn
    rw [List.length_nil, Nat.zero_mul, Nat.le_zero] at hn
    rw [hn]
    rfl
  | cons x bits ih =>
    intro n hn
    rw [List.length_cons] at hn
    by_cases hlt : n < 8
    · -- the masked byte is the first
      rw [countP_cons_lt x bits hlt.le, popCount, Nat.div_eq_of_lt hlt, Nat.mod_eq_of_lt hlt]
      have hmask := countOnes_mask x hlt
      by_cases hzero : 0 < n
      · rw [if_pos hzero]
        simpa using hmask
      · rw [if_neg hzero, show n = 0 by omega]
        rfl
    · obtain ⟨m, rfl⟩ := Nat.exists_eq_add_of_le (not_lt.1 hlt)
      have hrest := ih m (by omega)
      have hcount : popCount (x :: bits) (8 + m) = countOnes x + popCount bits m := by
        rw [popCount, popCount, Nat.add_div_left m (by omega), Nat.add_mod_left,
          List.take_succ_cons, List.map_cons, List.sum_cons, List.getElem?_cons_succ]
        split
        · cases bits[m / 8]? with
          | none => rfl
          | some last => exact Nat.add_assoc _ _ _
        · rfl
      have htail : ((List.range m).map fun i => 8 + i).countP (bitSet (x :: bits)) =
          (List.range m).countP (bitSet bits) := by
        rw [List.countP_map]
        apply List.countP_congr
        intro i _
        rw [Function.comp_apply, bitSet_cons_add]
      rw [hcount, hrest, List.range_add, List.countP_append, countP_cons_lt x bits le_rfl, htail]
      rfl

/-! ## Sampling -/

/-- How many clusters are sampled at most. -/
def sampleCap : ℕ := 1000000

/-- The sampling loop: how many clusters were sampled and how many of these were free, from cluster
`c` on.  The fuel is what is left of the cap. -/
def sample (b : Bitmap) (last : ℕ) : ℕ → ℕ → ℕ × ℕ → ℕ × ℕ
  | 0, _, acc => acc
  | fuel + 1, c, acc =>
    if c ≤ last then
      let byteOff := saturatingMul c b.blockSize
      b.sample last fuel ((c + 1) % 2 ^ 64)
        (acc.1 + 1, if b.isOffsetAllocated byteOff then acc.2 else acc.2 + 1)
    else acc

/-- `Bitmap::unallocated_fraction`, before it is rounded. -/
def unallocatedFraction (b : Bitmap) (offset len : ℕ) : ℚ :=
  if len = 0 then 1
  else
    let first := offset / b.blockSize
    let last := saturatingAdd offset (len - 1) / b.blockSize
    let r := b.sample last sampleCap first (0, 0)
    if r.1 = 0 then 1 else (r.2 : ℚ) / (r.1 : ℚ)

/-- The cell of the cluster grid that has a byte. -/
def cell (b : Bitmap) (x : ℕ) : ℕ :=
  (x + (b.blockSize - b.baseOffset % b.blockSize) % b.blockSize) / b.blockSize

/-- The clusters that a range of bytes meets. -/
def clusters (b : Bitmap) (offset len : ℕ) : Finset ℕ :=
  (Finset.Ico offset (offset + len)).image b.cell

/-- Those of them that are free. -/
def freeClusters (b : Bitmap) (offset len : ℕ) : Finset ℕ :=
  ((Finset.Ico offset (offset + len)).filter fun x => b.isOffsetAllocated x = false).image b.cell

/-- The share of free clusters among those that a range meets. -/
def freeShare (b : Bitmap) (offset len : ℕ) : ℚ :=
  ((b.freeClusters offset len).card : ℚ) / ((b.clusters offset len).card : ℚ)

/-- How much of a range lies in the clusters that are sampled. -/
def sampledLen (b : Bitmap) (offset len : ℕ) : ℕ :=
  min len (sampleCap * b.blockSize - offset % b.blockSize)

section Sampling

variable {b : Bitmap} {offset len : ℕ}

/-- What the loop counts: the starts of consecutive cells, and the free ones among them. -/
lemma sample_eq (last : ℕ) (hlast : last * b.blockSize ≤ u64Max) (hend : last < 2 ^ 64 - 1)
    (fuel : ℕ) : ∀ c acc, b.sample last fuel c acc =
      (acc.1 + min fuel (last + 1 - c), acc.2 + (List.range' c (min fuel (last + 1 - c))).countP
        fun j => !b.isOffsetAllocated (j * b.blockSize)) := by
  induction fuel with
  | zero => exact fun c acc => by simp [sample]
  | succ fuel ih =>
    intro c acc
    rw [sample]
    by_cases hc : c ≤ last
    · have hle := Nat.mul_le_mul_right b.blockSize hc
      have hsat : saturatingMul c b.blockSize = c * b.blockSize := min_eq_left (by omega)
      have hcount : min (fuel + 1) (last + 1 - c) = min fuel (last + 1 - (c + 1)) + 1 := by omega
      rw [if_pos hc, Nat.mod_eq_of_lt (by omega), ih, hsat, hcount, List.range'_succ,
        List.countP_cons]
      apply Prod.ext (by dsimp only; omega)
      dsimp only
      cases b.isOffsetAllocated (c * b.blockSize) with
      | true => simp
      | false =>
        simp only [Bool.false_eq_true, if_false, Bool.not_false, if_true]
        omega
    · rw [if_neg hc, show last + 1 - c = 0 by omega]
      simp

lemma cell_of_dvd (hbase : b.blockSize ∣ b.baseOffset) (x : ℕ) : b.cell x = x / b.blockSize := by
  rw [cell, Nat.mod_eq_zero_of_dvd hbase, Nat.sub_zero, Nat.mod_self, Nat.add_zero]

/-- A byte is as allocated as the start of its cell. -/
lemma isOffsetAllocated_cell (hbase : b.blockSize ∣ b.baseOffset) (x : ℕ) :
    b.isOffsetAllocated (x / b.blockSize * b.blockSize) = b.isOffsetAllocated x := by
  obtain ⟨q, hq⟩ := hbase
  have hpos := b.blockSize_pos
  have hbefore : x / b.blockSize * b.blockSize < b.baseOffset ↔ x < b.baseOffset := by
    rw [hq, Nat.mul_comm b.blockSize q, Nat.mul_lt_mul_right hpos, Nat.div_lt_iff_lt_mul hpos]
  have hindex : (x / b.blockSize * b.blockSize - b.baseOffset) / b.blockSize =
      (x - b.baseOffset) / b.blockSize := by
    rw [hq, Nat.sub_mul_div, Nat.sub_mul_div, Nat.mul_div_cancel _ hpos]
  unfold isOffsetAllocated
  simp only [hbefore, hindex]

/-- The cells that a range meets come one behind the other. -/
lemma image_div_Ico (hlen : 0 < len) :
    (Finset.Ico offset (offset + len)).image (· / b.blockSize) =
      Finset.Icc (offset / b.blockSize) ((offset + len - 1) / b.blockSize) := by
  have hpos := b.blockSize_pos
  ext j
  rw [Finset.mem_image, Finset.mem_Icc]
  constructor
  · rintro ⟨x, hx, rfl⟩
    rw [Finset.mem_Ico] at hx
    exact ⟨Nat.div_le_div_right hx.1, Nat.div_le_div_right (by omega)⟩
  · rintro ⟨hfirst, hlast⟩
    have h1 : j * b.blockSize ≤ offset + len - 1 := (Nat.le_div_iff_mul_le hpos).1 hlast
    -- the range has the start of the cell, or begins inside it
    refine ⟨max offset (j * b.blockSize), ?_, ?_⟩
    · rw [Finset.mem_Ico]
      omega
    · have h2 : offset < (j + 1) * b.blockSize := by
        rw [← Nat.div_lt_iff_lt_mul hpos]
        omega
      rw [Nat.div_eq_iff hpos]
      rw [Nat.add_mul, Nat.one_mul] at h2
      omega

/-- The clusters of a range, for a grid without a shift. -/
lemma clusters_eq (hbase : b.blockSize ∣ b.baseOffset) (hlen : 0 < len) :
    b.clusters offset len =
      Finset.Icc (offset / b.blockSize) ((offset + len - 1) / b.blockSize) := by
  rw [← image_div_Ico hlen, clusters]
  exact Finset.image_congr fun x _ => cell_of_dvd hbase x

lemma freeClusters_eq (hbase : b.blockSize ∣ b.baseOffset) (hlen : 0 < len) :
    b.freeClusters offset len =
      (Finset.Icc (offset / b.blockSize) ((offset + len - 1) / b.blockSize)).filter
        fun j => b.isOffsetAllocated (j * b.blockSize) = false := by
  rw [← image_div_Ico hlen, Finset.filter_image, freeClusters]
  refine (Finset.image_congr fun x _ => cell_of_dvd hbase x).trans ?_
  congr 1
  apply Finset.filter_congr
  intro x _
  rw [isOffsetAllocated_cell hbase]

/-- The last cell that is sampled is that of the last byte that counts. -/
lemma last_sampled (b : Bitmap) (offset : ℕ) (hlen : 0 < len) :
    0 < b.sampledLen offset len ∧ (offset + b.sampledLen offset len - 1) / b.blockSize + 1 -
        offset / b.blockSize =
      min sampleCap ((offset + len - 1) / b.blockSize + 1 - offset / b.blockSize) := by
  have hpos := b.blockSize_pos
  have hmod := Nat.mod_lt offset hpos
  have hdiv := Nat.div_add_mod offset b.blockSize
  set bs := b.blockSize with hbs
  have hcap : bs ≤ sampleCap * bs := Nat.le_mul_of_pos_left bs (by decide)
  have hfirst : offset / bs ≤ (offset + len - 1) / bs := Nat.div_le_div_right (by omega)
  unfold sampledLen
  rw [← hbs]
  constructor
  · omega
  -- where the cap ends
  have hend : (offset + (sampleCap * bs - offset % bs) - 1) / bs = offset / bs + sampleCap - 1 := by
    have hsum : offset + (sampleCap * bs - offset % bs) = (offset / bs + sampleCap) * bs := by
      rw [Nat.add_mul, Nat.mul_comm (offset / bs)]
      omega
    have hcells : 0 < offset / bs + sampleCap := Nat.add_pos_right _ (by decide)
    rw [hsum, Nat.div_eq_iff hpos, Nat.sub_mul, Nat.one_mul]
    have hle := Nat.le_mul_of_pos_left bs hcells
    omega
  have hcells : 0 < sampleCap := by decide
  rcases le_total len (sampleCap * bs - offset % bs) with hle | hle
  · have hin : (offset + len - 1) / bs ≤ offset / bs + sampleCap - 1 := by
      rw [← hend]
      exact Nat.div_le_div_right (by omega)
    rw [min_eq_left hle, min_eq_right]
    generalize (offset + len - 1) / bs = last at *
    generalize offset / bs = first at *
    omega
  · have hin : offset / bs + sampleCap - 1 ≤ (offset + len - 1) / bs := by
      rw [← hend]
      exact Nat.div_le_div_right (by omega)
    rw [min_eq_right hle, hend]
    generalize (offset + len - 1) / bs = last at *
    generalize offset / bs = first at *
    rw [min_eq_left (by omega)]
    omega

/-- The fraction of a range, where the clusters begin at multiples of their size. -/
lemma unallocatedFraction_eq (hbase : b.blockSize ∣ b.baseOffset) (hlen : 0 < len)
    (hrange : offset + len ≤ u64Max) :
    b.unallocatedFraction offset len = b.freeShare offset (b.sampledLen offset len) := by
  have hpos := b.blockSize_pos
  have hsat : saturatingAdd offset (len - 1) = offset + len - 1 := by
    unfold saturatingAdd
    omega
  obtain ⟨hsampled, hcount⟩ := last_sampled b offset hlen
  have hlast : (offset + len - 1) / b.blockSize * b.blockSize ≤ offset + len - 1 :=
    Nat.div_mul_le_self _ _
  have hbound : (offset + len - 1) / b.blockSize ≤ offset + len - 1 := Nat.div_le_self _ _
  have hu : u64Max = 2 ^ 64 - 1 := rfl
  have hne : min sampleCap ((offset + len - 1) / b.blockSize + 1 - offset / b.blockSize) ≠ 0 := by
    have hfirst : offset / b.blockSize ≤ (offset + len - 1) / b.blockSize :=
      Nat.div_le_div_right (by omega)
    have hcap : 0 < sampleCap := by decide
    omega
  unfold unallocatedFraction freeShare
  rw [if_neg hlen.ne', clusters_eq hbase hsampled, freeClusters_eq hbase hsampled]
  dsimp only
  rw [hsat, sample_eq _ (by omega) (by omega), Nat.zero_add, Nat.zero_add, if_neg hne,
    Nat.card_Icc, hcount]
  have hfree : ((Finset.Icc (offset / b.blockSize)
      ((offset + b.sampledLen offset len - 1) / b.blockSize)).filter
        fun j => b.isOffsetAllocated (j * b.blockSize) = false).card =
      (List.range' (offset / b.blockSize) (min sampleCap
        ((offset + len - 1) / b.blockSize + 1 - offset / b.blockSize))).countP
          fun j => !b.isOffsetAllocated (j * b.blockSize) := by
    -- the list that is gone through is the interval
    rw [← hcount, List.countP_eq_length_filter]
    have hlist : Finset.Icc (offset / b.blockSize)
        ((offset + b.sampledLen offset len - 1) / b.blockSize) =
          (List.range' (offset / b.blockSize) ((offset + b.sampledLen offset len - 1) /
            b.blockSize + 1 - offset / b.blockSize)).toFinset := by
      ext j
      rw [Finset.mem_Icc, List.mem_toFinset, List.mem_range'_1]
      omega
    have hnot : ∀ j, b.isOffsetAllocated (j * b.blockSize) = false ↔
        (!b.isOffsetAllocated (j * b.blockSize)) = true := fun j => by simp
    simp only [hnot]
    rw [hlist, ← List.toFinset_filter, List.toFinset_card_of_nodup ((List.nodup_range' 1).filter _)]
  rw [hfree]

/-- A range that meets no more clusters than are sampled counts as a whole. -/
lemma sampledLen_eq (hbase : b.blockSize ∣ b.baseOffset) (hlen : 0 < len)
    (hcard : (b.clusters offset len).card ≤ sampleCap) : b.sampledLen offset len = len := by
  have hpos := b.blockSize_pos
  have hmod := Nat.div_add_mod offset b.blockSize
  rw [clusters_eq hbase hlen, Nat.card_Icc] at hcard
  have hlast : (offset + len - 1) / b.blockSize < offset / b.blockSize + sampleCap := by
    generalize (offset + len - 1) / b.blockSize = last at *
    omega
  rw [Nat.div_lt_iff_lt_mul hpos, Nat.add_mul, Nat.mul_comm (offset / b.blockSize)] at hlast
  unfold sampledLen
  omega

lemma allocatedCount_eq (hcount : b.blockCount ≤ u64Max) :
    b.allocatedCount = (List.range b.blockCount).countP (bitSet b.bits) := by
  set n := min b.blockCount (saturatingMul b.bits.length 8) with hn
  have hbits : n = min b.blockCount (b.bits.length * 8) := by
    rw [hn, saturatingMul]
    omega
  obtain ⟨r, hr⟩ := Nat.exists_eq_add_of_le (show n ≤ b.blockCount by omega)
  -- behind the bits that are there, none is set
  have hnone : ((List.range r).map fun i => n + i).countP (bitSet b.bits) = 0 := by
    rw [List.countP_eq_zero]
    intro i hi
    obtain ⟨k, hk, rfl⟩ := List.mem_map.1 hi
    rw [List.mem_range] at hk
    have hlen : b.bits.length ≤ (n + k) / 8 := by
      rw [Nat.le_div_iff_mul_le (by omega)]
      omega
    rw [bitSet, List.getElem?_eq_none hlen]
    exact Bool.false_ne_true
  rw [allocatedCount, ← hn, popCount_eq _ _ (by omega), hr, List.range_add, List.countP_append,
    hnone, Nat.add_zero]

end Sampling

/-- **What the bitmap says of a range.**  The allocated clusters are the set bits below the number
of blocks.  If the clusters begin at multiples of their size, the fraction of a range is the share
of free clusters among the first million it meets. -/
theorem unallocatedFraction_exact (b : Bitmap) (hcount : b.blockCount ≤ u64Max) :
    b.allocatedCount = (List.range b.blockCount).countP (bitSet b.bits) ∧
    (b.blockSize ∣ b.baseOffset → ∀ offset len, 0 < len → offset + len ≤ u64Max →
      b.unallocatedFraction offset len = b.freeShare offset (b.sampledLen offset len) ∧
      ((b.clusters offset len).card ≤ sampleCap →
        b.unallocatedFraction offset len = b.freeShare offset len)) := by
  refine ⟨allocatedCount_eq hcount, fun hbase offset len hlen hrange => ?_⟩
  have hfraction := unallocatedFraction_eq hbase hlen hrange
  refine ⟨hfraction, fun hcard => ?_⟩
  rw [hfraction, sampledLen_eq hbase hlen hcard]

/-- Sixteen clusters, of which the first three are in use. -/
def sixteen : Bitmap := new 4096 0x10000 16 [7, 0]

theorem unallocatedFraction_exact_sixteen :
    sixteen.allocatedCount = (List.range 16).countP (bitSet [7, 0]) ∧
    sixteen.unallocatedFraction 0x12000 8192 =
      sixteen.freeShare 0x12000 (sixteen.sampledLen 0x12000 8192) :=
  have h := unallocatedFraction_exact sixteen (by decide)
  ⟨h.1, (h.2 (by decide) 0x12000 8192 (by decide) (by decide)).1⟩

/-- One free cluster of one byte. -/
def oneFree : Bitmap := new 1 0 1 [0]

lemma freeShare_oneFree {len : ℕ} (hlen : 0 < len) : oneFree.freeShare 0 len = 1 / len := by
  have hsize : oneFree.blockSize = 1 := rfl
  have hfree : oneFree.freeClusters 0 len = {0} := by
    rw [freeClusters_eq (by decide) hlen]
    ext j
    rw [Finset.mem_filter, Finset.mem_Icc, Finset.mem_singleton, hsize, Nat.mul_one]
    constructor
    · rintro ⟨-, hj⟩
      by_contra hne
      have hout : oneFree.isOffsetAllocated j = true := by
        have hbefore : ¬ j < oneFree.baseOffset := Nat.not_lt_zero j
        have hindex : (j - oneFree.baseOffset) / oneFree.blockSize = j := Nat.div_one j
        have hone : oneFree.blockCount ≤ j := Nat.pos_of_ne_zero hne
        rw [isOffsetAllocated, if_neg hbefore, hindex, isBlockAllocated, if_pos hone]
      rw [hout] at hj
      exact Bool.noConfusion hj
    · rintro rfl
      exact ⟨by omega, by decide⟩
  unfold freeShare
  rw [hfree, clusters_eq (by decide) hlen, hsize, Nat.card_Icc, Finset.card_singleton]
  congr 2
  omega

/-- Of two million clusters only half are sampled. -/
theorem unallocatedFraction_exact_counterexample : ¬ ∀ (b : Bitmap) (offset len : ℕ), 0 < len →
    b.unallocatedFraction offset len = b.freeShare offset len := by
  intro h
  have hsampled : oneFree.sampledLen 0 2000000 = 1000000 := by decide
  have hclaim := h oneFree 0 2000000 (by omega)
  rw [unallocatedFraction_eq (by decide) (by decide) (by decide), hsampled,
    freeShare_oneFree (by omega), freeShare_oneFree (by omega)] at hclaim
  norm_num at hclaim

end Bitmap

end Reclaim
