import Reclaim.Fs.FatOpen
import Reclaim.Fs.FreeSpace
import Reclaim.Foundation.Links
import Reclaim.Fs.ExFatDirs

/-!
# The allocation bitmap of a FAT volume

The bitmap has a bit for each number of a cluster, and numbers begin at 2: bit 0 stands where
cluster 0 would be, two clusters before the data.
-/

namespace Reclaim

open FileBytes

/-! ## Setting bits -/

namespace Bitmap

/-- Bit `i` set, if the buffer has it. -/
def setBit (bits : Bytes) (i : ℕ) : Bytes := bits.modify (i / 8) (· ||| (1 <<< UInt8.ofNat (i % 8)))

/-- The bits set that are in a list and have a property. -/
def setBits (p : ℕ → Bool) (l : List ℕ) (bits : Bytes) : Bytes :=
  l.foldl (fun bits c => if p c then setBit bits c else bits) bits

variable {bits : Bytes} {i j : ℕ} {x : UInt8}

lemma byteBit_or (hi : i < 8) (hj : j < 8) :
    byteBit (x ||| (1 <<< UInt8.ofNat i)) j = (decide (j = i) || byteBit x j) := by
  have hpow : 2 ^ i < 2 ^ 8 := Nat.pow_lt_pow_right (by omega) hi
  have hone : ((1 : UInt8) <<< UInt8.ofNat i).toNat = 2 ^ i := by
    rw [UInt8.toNat_shiftLeft, UInt8.toNat_ofNat_of_lt' (lt_trans hi (by decide)),
      Nat.mod_eq_of_lt hi,
      UInt8.toNat_one, Nat.one_shiftLeft, Nat.mod_eq_of_lt hpow]
  rw [byteBit_eq_testBit hj, byteBit_eq_testBit hj, UInt8.toNat_or, Nat.testBit_or, hone,
    Nat.testBit_two_pow, Bool.or_comm]
  simp only [eq_comm]

@[simp] lemma length_setBit : (setBit bits i).length = bits.length := List.length_modify ..

/-- A bit that the buffer has is set, the others stay. -/
lemma bitSet_setBit (hj : j / 8 < bits.length) :
    bitSet (setBit bits i) j = (decide (j = i) || bitSet bits j) := by
  rw [bitSet, bitSet, setBit, List.getElem?_modify, List.getElem?_eq_getElem hj]
  by_cases hbyte : i / 8 = j / 8
  · have hsame : j = i ↔ j % 8 = i % 8 := by omega
    simp only [hbyte, hsame, Option.any_some, if_true]
    exact byteBit_or (by omega) (by omega)
  · have hne : j ≠ i := fun h => hbyte (h ▸ rfl)
    simp [hbyte, hne]

@[simp] lemma length_setBits (p : ℕ → Bool) (l : List ℕ) :
    (setBits p l bits).length = bits.length := by
  induction l generalizing bits with
  | nil => rfl
  | cons c l ih =>
    rw [setBits, List.foldl_cons]
    apply ih.trans
    split
    · exact length_setBit
    · rfl

lemma bitSet_setBits (p : ℕ → Bool) (l : List ℕ) (hj : j / 8 < bits.length) :
    bitSet (setBits p l bits) j = (decide (j ∈ l ∧ p j = true) || bitSet bits j) := by
  induction l generalizing bits with
  | nil => simp [setBits]
  | cons c l ih =>
    rw [setBits, List.foldl_cons]
    split
    · rename_i hp
      refine (ih (by rwa [length_setBit])).trans ?_
      rw [bitSet_setBit hj, ← Bool.or_assoc]
      congr 1
      by_cases hjc : j = c
      · simp [hjc, hp]
      · simp [hjc]
    · rename_i hp
      refine (ih hj).trans ?_
      congr 1
      by_cases hjc : j = c
      · simp [hjc, hp]
      · simp [hjc]

lemma bitSet_replicate (n : ℕ) : bitSet (List.replicate n 0) j = false := by
  rw [bitSet, List.getElem?_replicate]
  split
  · rw [Option.any_some, byteBit_eq_testBit (by omega), UInt8.toNat_zero, Nat.zero_testBit]
  · rfl

/-- What a bitmap says of a cluster that it has a bit for. -/
lemma isBlockAllocated_eq {b : Bitmap} (hi : i < b.blockCount) :
    b.isBlockAllocated i = (decide (b.bits.length ≤ i / 8) || bitSet b.bits i) := by
  rw [isBlockAllocated, if_neg (by omega), bitSet]
  by_cases hlen : i / 8 < b.bits.length
  · rw [List.getElem?_eq_getElem hlen, decide_eq_false (by omega)]
    rfl
  · rw [List.getElem?_eq_none (by omega), decide_eq_true (by omega)]
    rfl

/-- The bit that a byte of the volume is under, if there is one. -/
def bitOf (b : Bitmap) (x : ℕ) : Option ℕ :=
  if x < b.baseOffset ∨ b.blockCount ≤ (x - b.baseOffset) / b.blockSize then none
  else some ((x - b.baseOffset) / b.blockSize)

end Bitmap

/-! ## The bitmap -/

namespace FatFs

/-- The most clusters that the bitmap has bits for. -/
def maxBitmapClusters : ℕ := 128 * 2 ^ 20

section Bits

variable (fs : FatFs)

/-- How many bytes an entry is taken to have; one of FAT12 has a half more. -/
def entryBytes : ℕ :=
  match fs.kind with
  | .fat32 => 4
  | .fat16 => 2
  | .fat12 => 1

/-- How many clusters the table describes. -/
def describable : ℕ := fs.fatSizeBytes / fs.entryBytes - 2

def bitmapCount : ℕ := min (min fs.countOfClusters fs.describable) maxBitmapClusters

/-- Where cluster 0 would be. -/
def bitmapBase : ℕ := ((fs.clusterOffset 2).map (· - 2 * fs.clusterSize)).getD 0

/-- `fat_bitmap`. -/
def fatBitmap : Option Bitmap :=
  let n := fs.bitmapCount
  if n = 0 then none
  else
    let bytes := min (divCeil (n + 2) 8) (16 * 1024 * 1024)
    let bits :=
      Bitmap.setBits (fun c => fs.fatEntry c != 0) (List.range' 2 n) (List.replicate bytes 0)
    some (.new fs.clusterSize fs.bitmapBase (n + 2) bits)

/-- Where the clusters end. -/
def dataEnd : ℕ := fs.dataStart + fs.countOfClusters * fs.clusterSize

/-- A bitmap agrees with the table: it says of each byte of a cluster what the table says of the
cluster, and only bytes of the data are under the bit of a cluster. -/
structure Agrees (b : Bitmap) : Prop where
  inside : ∀ c off j, fs.clusterOffset c = some off → j < fs.clusterSize →
    b.isOffsetAllocated (off + j) = decide (fs.fatEntry c ≠ 0)
  outside : ∀ x c off, b.bitOf x = some c → fs.clusterOffset c = some off →
    fs.dataStart ≤ x ∧ x < fs.dataEnd

/-- There are two clusters' bytes before the data, the table describes all clusters, and those that
the bitmap has no bits for are in use. -/
structure BitmapFits : Prop where
  two_clusters : 2 * fs.clusterSize ≤ fs.dataStart
  described : fs.countOfClusters ≤ fs.describable
  used : ∀ c, maxBitmapClusters ≤ c → c < fs.countOfClusters + 2 → fs.fatEntry c ≠ 0

/-- Every bit stands for the next cluster, and no cluster is in use. -/
structure EmptyShifted : Prop where
  one_cluster : fs.dataStart = fs.clusterSize
  one_more : fs.countOfClusters = fs.describable + 1
  empty : ∀ c, 2 ≤ c → c < fs.countOfClusters + 2 → fs.fatEntry c = 0

end Bits

section Mounted

variable {bpb : Bpb} {vol : Volume} {fs : FatFs} {b : Bitmap} {c i x : ℕ}

/-- An entry behind the end of the table is zero. -/
lemma fatEntry_eq_zero (hc : (bpb.mount vol).describable + 2 ≤ c) :
    (bpb.mount vol).fatEntry c = 0 := by
  set fs := bpb.mount vol with hfs
  have hbehind : ∀ idx n, 0 < n → fs.fatSizeBytes ≤ idx →
    fs.fatBytes idx n = List.replicate n 0 := by
    intro idx n hn hidx
    have hcached : fs.fat0.length ≤ fs.fatSizeBytes := by
      rw [fat0, Volume.length_read]
      exact min_le_left _ _
    rw [fatBytes, getRange, if_neg (by omega)]
    exact if_neg (by omega)
  have hsize : fs.fatSizeBytes % 4 = 0 := by
    have hmem := bpb.bytesPerSector_mem
    have hfour : bpb.bytesPerSector % 4 = 0 := by
      simp only [List.mem_cons, List.not_mem_nil, or_false] at hmem
      omega
    change bpb.fatSize * bpb.bytesPerSector % 4 = 0
    rw [Nat.mul_mod, hfour, Nat.mul_zero, Nat.zero_mod]
  rw [describable, entryBytes] at hc
  rw [fatEntry]
  cases hkind : fs.kind with
  | fat32 =>
    rw [hkind] at hc
    dsimp only at hc ⊢
    rw [hbehind _ _ (by omega) (by omega)]
    rfl
  | fat16 =>
    rw [hkind] at hc
    dsimp only at hc ⊢
    rw [hbehind _ _ (by omega) (by omega)]
    rfl
  | fat12 =>
    rw [hkind] at hc
    dsimp only at hc ⊢
    rw [hbehind _ _ (by omega) (by omega)]
    split
    · rfl
    · rfl

/-- A volume with clusters has a bitmap, and only such a volume. -/
lemma fatBitmap_eq_none_iff :
    (bpb.mount vol).fatBitmap = none ↔ (bpb.mount vol).countOfClusters = 0 := by
  have hsize := bpb.le_fatSizeBytes vol
  have hdescribed : 0 < (bpb.mount vol).describable := by
    rw [describable, entryBytes]
    split
    all_goals omega
  have hmax : 0 < maxBitmapClusters := by decide
  rw [fatBitmap]
  dsimp only
  split
  · rename_i hzero
    rw [bitmapCount] at hzero
    exact iff_of_true rfl (by omega)
  · rename_i hne
    refine iff_of_false (Option.some_ne_none _) fun hzero => hne ?_
    rw [bitmapCount, hzero, Nat.zero_min, Nat.zero_min]

/-- What the bitmap of a volume is. -/
structure IsBitmap (fs : FatFs) (b : Bitmap) : Prop where
  count_pos : 0 < fs.bitmapCount
  blockSize : b.blockSize = fs.clusterSize
  baseOffset : b.baseOffset = fs.bitmapBase
  blockCount : b.blockCount = fs.bitmapCount + 2
  allocated : ∀ i, b.isBlockAllocated i =
    decide (fs.bitmapCount + 2 ≤ i ∨ maxBitmapClusters ≤ i ∨ 2 ≤ i ∧ fs.fatEntry i ≠ 0)

/-- **Each bit is that of its cluster**; where there is no bit the bitmap says that the cluster is
in use, and the bits before the first cluster are not set. -/
lemma isBitmap_of_fatBitmap (hpos : 0 < fs.clusterSize) (hb : fs.fatBitmap = some b) :
    IsBitmap fs b := by
  rw [fatBitmap] at hb
  dsimp only at hb
  split at hb
  · cases hb
  rename_i hne
  have hb := (Option.some.inj hb).symm
  set n := fs.bitmapCount with hn
  have hblock : b.blockSize = fs.clusterSize := hb ▸ max_eq_left hpos
  have hcount : b.blockCount = n + 2 := hb ▸ rfl
  refine ⟨Nat.pos_of_ne_zero hne, hblock, hb ▸ rfl, hcount, fun i => ?_⟩
  by_cases hi : n + 2 ≤ i
  · rw [Bitmap.isBlockAllocated, if_pos (hcount ▸ hi), decide_eq_true (.inl hi)]
  have hlen : b.bits.length = min (divCeil (n + 2) 8) (16 * 1024 * 1024) := by
    rw [hb]
    exact (Bitmap.length_setBits ..).trans List.length_replicate
  have hbyte : i / 8 < divCeil (n + 2) 8 := (lt_divCeil_iff (by omega)).2 (by omega)
  have hmax : maxBitmapClusters = 16 * 1024 * 1024 * 8 := by decide
  rw [Bitmap.isBlockAllocated_eq (by omega), hlen]
  by_cases hcut : maxBitmapClusters ≤ i
  · rw [decide_eq_true (by omega), Bool.true_or, decide_eq_true (.inr (.inl hcut))]
  · have hbit : Bitmap.bitSet b.bits i = decide (2 ≤ i ∧ fs.fatEntry i ≠ 0) := by
      rw [hb]
      refine (Bitmap.bitSet_setBits _ _ (by rw [List.length_replicate]; omega)).trans ?_
      rw [Bitmap.bitSet_replicate, Bool.or_false, Bool.eq_iff_iff, decide_eq_true_iff,
        decide_eq_true_iff, List.mem_range'_1, bne_iff_ne]
      exact and_congr_left fun _ => by omega
    rw [decide_eq_false (by omega), Bool.false_or, hbit, Bool.eq_iff_iff, decide_eq_true_iff,
      decide_eq_true_iff]
    omega

/-! ### Where a byte is looked up -/

/-- The byte `x` is under bit `i` if it is so far behind the base. -/
lemma IsBitmap.isOffsetAllocated (h : IsBitmap fs b) (hlo : fs.bitmapBase + i * fs.clusterSize ≤ x)
    (hhi : x < fs.bitmapBase + (i + 1) * fs.clusterSize) :
    b.isOffsetAllocated x = b.isBlockAllocated i ∧
      (i < fs.bitmapCount + 2 → b.bitOf x = some i) := by
  have hindex : (x - b.baseOffset) / b.blockSize = i := by
    rw [h.baseOffset, h.blockSize]
    exact Nat.div_eq_of_lt_le (by omega) (by omega)
  have hbase : ¬ x < b.baseOffset := by
    rw [h.baseOffset]
    omega
  refine ⟨by rw [Bitmap.isOffsetAllocated, if_neg hbase, hindex], fun hi => ?_⟩
  rw [Bitmap.bitOf, hindex, h.blockCount, if_neg (by omega)]

/-- A byte that is under a bit is so far behind the base. -/
lemma IsBitmap.of_bitOf (h : IsBitmap fs b) (hpos : 0 < fs.clusterSize) (hx : b.bitOf x = some i) :
    i < fs.bitmapCount + 2 ∧ fs.bitmapBase + i * fs.clusterSize ≤ x ∧
      x < fs.bitmapBase + (i + 1) * fs.clusterSize := by
  rw [Bitmap.bitOf, h.baseOffset, h.blockSize, h.blockCount] at hx
  split at hx
  · cases hx
  · have hi := Option.some.inj hx
    have hlo := Nat.div_mul_le_self (x - fs.bitmapBase) fs.clusterSize
    have hhi := Nat.lt_div_mul_add (a := x - fs.bitmapBase) hpos
    rw [hi] at hlo hhi
    rw [Nat.add_mul, Nat.one_mul]
    omega

lemma IsBitmap.isOffsetAllocated_behind (h : IsBitmap fs b) (hpos : 0 < fs.clusterSize)
    (hx : fs.bitmapBase + (fs.bitmapCount + 2) * fs.clusterSize ≤ x) :
    b.isOffsetAllocated x = true := by
  have hindex : fs.bitmapCount + 2 ≤ (x - fs.bitmapBase) / fs.clusterSize :=
    (Nat.le_div_iff_mul_le hpos).2 (by omega)
  rw [Bitmap.isOffsetAllocated, h.baseOffset, if_neg (by omega), h.blockSize,
    Bitmap.isBlockAllocated, h.blockCount, if_pos hindex]

/-- Where the bitmap of a volume with clusters begins. -/
lemma bitmapBase_eq (hcount : 0 < (bpb.mount vol).countOfClusters) :
    (bpb.mount vol).bitmapBase =
      (bpb.mount vol).dataStart - 2 * (bpb.mount vol).clusterSize := by
  rw [bitmapBase, bpb.clusterOffset_eq vol le_rfl (by omega), Nat.sub_self, Nat.zero_mul]
  rfl

lemma valid_of_clusterOffset {off : ℕ} (h : fs.clusterOffset c = some off) :
    2 ≤ c ∧ c < fs.countOfClusters + 2 := by
  rw [clusterOffset] at h
  split at h
  · cases h
  · omega

/-- **With two clusters before the data** each byte of a cluster is under the bit of its cluster. -/
lemma agrees_iff_of_le (h : IsBitmap (bpb.mount vol) b)
    (hbefore : 2 * (bpb.mount vol).clusterSize ≤ (bpb.mount vol).dataStart) :
    (bpb.mount vol).Agrees b ↔ (bpb.mount vol).BitmapFits := by
  set fs := bpb.mount vol with hfs
  have hpos : 0 < fs.clusterSize := bpb.clusterSize_pos vol
  have hcounts := h.count_pos
  have hcount : fs.bitmapCount =
    min (min fs.countOfClusters fs.describable) maxBitmapClusters := rfl
  have hsome : 0 < fs.countOfClusters := by omega
  have hbase : fs.bitmapBase = fs.dataStart - 2 * fs.clusterSize := bitmapBase_eq hsome
  have hinside : ∀ c off j, fs.clusterOffset c = some off → j < fs.clusterSize →
      b.isOffsetAllocated (off + j) = b.isBlockAllocated c := by
    intro c off j hc hj
    obtain ⟨h2, hlt⟩ := valid_of_clusterOffset hc
    rw [bpb.clusterOffset_eq vol h2 hlt] at hc
    obtain ⟨d, rfl⟩ := Nat.exists_eq_add_of_le' h2
    obtain rfl := Option.some.inj hc
    refine (h.isOffsetAllocated ?_ ?_).1
    all_goals
      simp only [Nat.add_sub_cancel, Nat.add_mul, Nat.one_mul, ← hfs]
      omega
  constructor
  · intro hagree
    have hbit : ∀ c, 2 ≤ c → c < fs.countOfClusters + 2 →
        b.isBlockAllocated c = decide (fs.fatEntry c ≠ 0) := fun c h2 hlt => by
      have hc := bpb.clusterOffset_eq vol h2 hlt
      exact (hinside c _ 0 hc hpos).symm.trans (hagree.inside c _ 0 hc hpos)
    refine ⟨hbefore, ?_, fun c hmax hlt => ?_⟩
    · by_contra hlt
      -- the cluster behind the last one that the table describes
      have hfirst := hbit (fs.describable + 2) (by omega) (by omega)
      rw [fatEntry_eq_zero le_rfl, h.allocated, decide_eq_true (.inl (by omega))] at hfirst
      exact absurd hfirst (by decide)
    · have hlarge : 2 ≤ maxBitmapClusters := by decide
      have hused := hbit c (by omega) hlt
      rw [h.allocated, decide_eq_true (.inr (.inl hmax))] at hused
      exact of_decide_eq_true hused.symm
  · intro hfits
    have hdescribed := hfits.described
    refine ⟨fun c off j hc hj => ?_, fun x c off hx hc => ?_⟩
    · obtain ⟨h2, hlt⟩ := valid_of_clusterOffset hc
      rw [hinside c off j hc hj, h.allocated, Bool.eq_iff_iff, decide_eq_true_iff,
        decide_eq_true_iff]
      constructor
      · rintro (hbehind | hmax | ⟨-, hused⟩)
        · exact hfits.used c (by omega) hlt
        · exact hfits.used c hmax hlt
        · exact hused
      · exact fun hused => .inr (.inr ⟨h2, hused⟩)
    · obtain ⟨h2, hlt⟩ := valid_of_clusterOffset hc
      obtain ⟨-, hlo, hhi⟩ := h.of_bitOf hpos hx
      obtain ⟨d, rfl⟩ := Nat.exists_eq_add_of_le' h2
      have hd : (d + 1) * fs.clusterSize ≤ fs.countOfClusters * fs.clusterSize :=
        Nat.mul_le_mul_right _ (by omega)
      simp only [Nat.add_mul, Nat.one_mul] at hlo hhi hd
      rw [dataEnd]
      omega

/-- **With less before the data** every byte is under the bit of a cluster before its own. -/
lemma agrees_iff_of_lt (h : IsBitmap (bpb.mount vol) b)
    (hbefore : (bpb.mount vol).dataStart < 2 * (bpb.mount vol).clusterSize) :
    (bpb.mount vol).Agrees b ↔ (bpb.mount vol).EmptyShifted := by
  have hsize := bpb.clusterSize_le vol
  have htable := bpb.fatSizeBytes_lt vol
  set fs := bpb.mount vol with hfs
  have hpos : 0 < fs.clusterSize := bpb.clusterSize_pos vol
  have hoffset : ∀ d < fs.countOfClusters,
      fs.clusterOffset (d + 2) = some (fs.dataStart + d * fs.clusterSize) := fun d hd =>
    bpb.clusterOffset_eq vol (Nat.le_add_left 2 d) (Nat.add_lt_add_right hd 2)
  have hbehind : ∀ c, fs.describable + 2 ≤ c → fs.fatEntry c = 0 := fun c hc => fatEntry_eq_zero hc
  have hcounts := h.count_pos
  have hcount : fs.bitmapCount =
    min (min fs.countOfClusters fs.describable) maxBitmapClusters := rfl
  have hsome : 0 < fs.countOfClusters := by omega
  have hdiff : fs.bitmapBase = fs.dataStart - 2 * fs.clusterSize := bitmapBase_eq hsome
  have hbase : fs.bitmapBase = 0 := by omega
  -- such a table is small
  have hsmall : fs.describable + 2 < maxBitmapClusters := by
    have hentries : fs.fatSizeBytes / fs.entryBytes ≤ fs.fatSizeBytes := Nat.div_le_self ..
    have hmax : 2 * (4096 * 128) + 2 < maxBitmapClusters := by decide
    rw [describable]
    omega
  have hbits : fs.bitmapCount = min fs.countOfClusters fs.describable := by omega
  constructor
  · intro hagree
    have hsaid : ∀ d < fs.countOfClusters, ∀ j < fs.clusterSize,
        b.isOffsetAllocated (fs.dataStart + d * fs.clusterSize + j) =
          decide (fs.fatEntry (d + 2) ≠ 0) := fun d hd j hj =>
      hagree.inside (d + 2) _ j (hoffset d hd) hj
    -- the last byte under the bit of a cluster is in the data
    have hlast : ∀ d < fs.bitmapCount, (d + 3) * fs.clusterSize ≤ fs.dataEnd := by
      intro d hd
      have hbit := (h.isOffsetAllocated (i := d + 2) (x := (d + 3) * fs.clusterSize - 1)
        (by rw [hbase]; simp only [Nat.add_mul]; omega)
        (by rw [hbase]; simp only [Nat.add_mul]; omega)).2 (by omega)
      have hin := (hagree.outside _ _ _ hbit (hoffset d (by omega))).2
      omega
    have hdescribed : fs.describable < fs.countOfClusters := by
      by_contra hle
      obtain ⟨k, hk⟩ := Nat.exists_eq_add_of_lt hsome
      have hend := hlast k (by omega)
      rw [dataEnd, hk] at hend
      simp only [Nat.add_mul] at hend
      omega
    -- no byte of a cluster that the table does not describe is behind the bits
    have hshort : fs.dataEnd ≤ (fs.describable + 2) * fs.clusterSize := by
      by_contra hlt
      obtain ⟨k, hk⟩ := Nat.exists_eq_add_of_lt hsome
      have hend : fs.dataEnd = fs.dataStart + k * fs.clusterSize + fs.clusterSize := by
        rw [dataEnd, hk]
        simp only [Nat.add_mul]
        omega
      have hfree := hsaid k (by omega) (fs.clusterSize - 1) (by omega)
      rw [hbehind _ (by omega), h.isOffsetAllocated_behind hpos] at hfree
      · exact absurd hfree (by decide)
      · rw [hbase, hbits, min_eq_right hdescribed.le]
        omega
    have hmore : fs.countOfClusters = fs.describable + 1 := by
      by_contra hne
      have hmul : (fs.describable + 2) * fs.clusterSize ≤ fs.countOfClusters * fs.clusterSize :=
        Nat.mul_le_mul_right _ (by omega)
      rw [dataEnd] at hshort
      omega
    have hstart : fs.dataStart = fs.clusterSize := by
      obtain ⟨k, hk⟩ := Nat.exists_eq_add_of_lt hcounts
      have hend := hlast k (by omega)
      rw [dataEnd, hmore] at hshort hend
      rw [show k + 3 = fs.describable + 2 by omega] at hend
      simp only [Nat.add_mul] at hshort hend
      omega
    -- what the bitmap says of a cluster is what the table says of the one before
    have hshift : ∀ d < fs.countOfClusters,
        b.isBlockAllocated (d + 1) = decide (fs.fatEntry (d + 2) ≠ 0) := by
      intro d hd
      rw [← hsaid d hd 0 hpos]
      refine ((h.isOffsetAllocated ?_ ?_).1).symm
      all_goals
        simp only [hbase, hstart, Nat.add_mul, Nat.one_mul]
        omega
    have hempty : ∀ d < fs.countOfClusters, fs.fatEntry (d + 2) = 0 := by
      intro d
      induction d with
      | zero =>
        intro hd
        have hfirst := hshift 0 hd
        rw [h.allocated, decide_eq_false (by omega)] at hfirst
        exact not_not.1 (of_decide_eq_false hfirst.symm)
      | succ d ih =>
        intro hd
        have hnext := hshift (d + 1) hd
        rw [h.allocated, ih (by omega), decide_eq_false (by omega)] at hnext
        exact not_not.1 (of_decide_eq_false hnext.symm)
    refine ⟨hstart, hmore, fun c h2 hlt => ?_⟩
    obtain ⟨d, rfl⟩ := Nat.exists_eq_add_of_le' h2
    exact hempty d (by omega)
  · rintro ⟨hstart, hmore, hempty⟩
    have hfree : ∀ i < fs.bitmapCount + 2, b.isBlockAllocated i = false := fun i hi => by
      rw [h.allocated, decide_eq_false_iff_not]
      rintro (hbehind | hmax | ⟨h2, hused⟩)
      · omega
      · omega
      · exact hused (hempty i h2 (by omega))
    refine ⟨fun c off j hc hj => ?_, fun x c off hx hc => ?_⟩
    · obtain ⟨h2, hlt⟩ := valid_of_clusterOffset hc
      obtain ⟨d, rfl⟩ := Nat.exists_eq_add_of_le' h2
      obtain rfl := Option.some.inj ((hoffset d (by omega)).symm.trans hc)
      rw [hempty _ h2 hlt, (h.isOffsetAllocated (i := d + 1) _ _).1, hfree _ (by omega)]
      · rfl
      all_goals
        simp only [hbase, hstart, Nat.add_mul, Nat.one_mul]
        omega
    · obtain ⟨h2, -⟩ := valid_of_clusterOffset hc
      obtain ⟨hi, hlo, hhi⟩ := h.of_bitOf hpos hx
      have hfirst : 2 * fs.clusterSize ≤ c * fs.clusterSize := Nat.mul_le_mul_right _ h2
      have hend : (c + 1) * fs.clusterSize ≤ (fs.countOfClusters + 1) * fs.clusterSize :=
        Nat.mul_le_mul_right _ (by omega)
      rw [Nat.add_mul fs.countOfClusters] at hend
      rw [dataEnd]
      omega

/-- **The bytes right before the data are free**, says the bitmap. -/
lemma exists_free_before (h : IsBitmap (bpb.mount vol) b) :
    ∃ x < (bpb.mount vol).dataStart, b.isOffsetAllocated x = false := by
  have htable := bpb.fatSizeBytes_lt vol
  have hpos := bpb.clusterSize_pos vol
  have hcounts := h.count_pos
  have hsome : 0 < (bpb.mount vol).countOfClusters := by
    rw [bitmapCount] at hcounts
    omega
  have hbase := bitmapBase_eq hsome
  have hbefore : ∀ i < 2, b.isBlockAllocated i = false := fun i hi => by
    have hmax : 2 ≤ maxBitmapClusters := by decide
    rw [h.allocated, decide_eq_false (by omega)]
  set x := (bpb.mount vol).dataStart - 1 with hx
  have hlt : x < (bpb.mount vol).bitmapBase + 2 * (bpb.mount vol).clusterSize := by omega
  refine ⟨x, by omega, ?_⟩
  by_cases hone : x < (bpb.mount vol).bitmapBase + (bpb.mount vol).clusterSize
  · rw [(h.isOffsetAllocated (i := 0) (by omega) (by omega)).1, hbefore 0 (by omega)]
  · rw [(h.isOffsetAllocated (i := 1) (by omega) (by omega)).1, hbefore 1 (by omega)]

end Mounted

/-- **When the bitmap agrees with the table.**  It does if there are two clusters' bytes before the
data, the table describes all clusters and those behind the bitmap's limit are in use; else only if
the table is empty and every bit stands for the next cluster.  In no volume does it say that all
bytes before the data are in use. -/
theorem agrees_exact {vol : Volume} {fs : FatFs} (hopen : openVolume vol = .ok fs) :
    (fs.fatBitmap = none ↔ fs.countOfClusters = 0) ∧
    ∀ b, fs.fatBitmap = some b → (fs.Agrees b ↔ fs.BitmapFits ∨ fs.EmptyShifted) ∧
      ∃ x < fs.dataStart, b.isOffsetAllocated x = false := by
  obtain ⟨bpb, rfl⟩ := exists_bpb hopen
  refine ⟨fatBitmap_eq_none_iff, fun b hb => ?_⟩
  have h := isBitmap_of_fatBitmap (bpb.clusterSize_pos vol) hb
  have hpos := bpb.clusterSize_pos vol
  refine ⟨?_, exists_free_before h⟩
  by_cases hbefore : 2 * (bpb.mount vol).clusterSize ≤ (bpb.mount vol).dataStart
  · rw [agrees_iff_of_le h hbefore]
    refine ⟨.inl, fun hor => hor.resolve_right fun hshift => ?_⟩
    have hone := hshift.one_cluster
    omega
  · rw [agrees_iff_of_lt h (not_le.1 hbefore)]
    exact ⟨.inr, fun hor => hor.resolve_left fun hfits => hbefore hfits.two_clusters⟩

/-! ### Two small volumes -/

/-- The boot sector of a FAT12 volume with two tables of a sector and 512 root entries. -/
def sampleBoot (sectors lo hi : UInt8) : Bytes :=
  [0xEB, 0x3C, 0x90, 0x4D, 0x53, 0x44, 0x4F, 0x53, 0x35, 0x2E, 0x30, 0x00, 0x02, sectors,
    0x01, 0x00,
    0x02, 0x00, 0x02, lo, hi, 0xF8, 0x01, 0x00]

/-- The volume with the given table, twice. -/
def sample (sectors lo hi : UInt8) (table : Bytes) : Volume where
  len := 1024 * 1024
  content x :=
    if x = 510 then 0x55
    else if x = 511 then 0xAA
    else if x < 512 then byteAt (sampleBoot sectors lo hi) x
    else if x < 1536 then byteAt table ((x - 512) % 512)
    else 0

/-- A table that says that the first cluster is in use. -/
def firstUsed : Bytes := [0xF8, 0xFF, 0xFF, 0xFF, 0x0F]

/-- What its boot sector says. -/
def sampleBpb (sectors total : ℕ) (hsectors : sectors ∈ [1, 2, 4, 8, 16, 32, 64, 128])
    (htotal : 0 < total) : Bpb where
  bytesPerSector := 512
  sectorsPerCluster := sectors
  reservedSectors := 1
  numFats := 2
  rootEntries := 512
  totalSectors := total
  fatSize := 1
  rootCluster := 0
  bytesPerSector_mem := .head _
  sectorsPerCluster_mem := hsectors
  reservedSectors_pos := Nat.one_pos
  numFats_mem := .tail _ (.head _)
  totalSectors_pos := htotal
  fatSize_pos := Nat.one_pos

/-- Two clusters, each of 512 bytes. -/
def sectorBpb : Bpb := sampleBpb 1 37 (.head _) (Nat.succ_pos _)

/-- Two clusters, each of 64 KiB. -/
def largeBpb : Bpb := sampleBpb 128 291 (List.mem_of_getLast? rfl) (Nat.succ_pos _)

lemma openVolume_sample {sectors lo hi : UInt8} {table : Bytes}
    (hsectors : sectors.toNat ∈ [1, 2, 4, 8, 16, 32, 64, 128])
    (htotal : 0 < lo.toNat + 256 * hi.toNat) :
    openVolume (sample sectors lo hi table) =
      .ok ((sampleBpb sectors.toNat (lo.toNat + 256 * hi.toNat) hsectors htotal).mount
        (sample sectors lo hi table)) := by
  have hfield : ∀ k n, k + n ≤ 512 → leField n ((sample sectors lo hi table).read 0 512) k =
      leValue ((sample sectors lo hi table).read k n) := by
    intro k n hk
    rw [Volume.leField_read _ hk, Nat.zero_add]
  have hbyte : ∀ k < 512, byteAt ((sample sectors lo hi table).read 0 512) k =
      (sample sectors lo hi table).byte k := by
    intro k hk
    rw [Volume.byteAt_read _ 0 hk, Nat.zero_add]
  have htot16 : leU16 ((sample sectors lo hi table).read 0 512) 19 = lo.toNat + 256 * hi.toNat :=
    hfield 19 2 (by omega)
  have hfat16 : leU16 ((sample sectors lo hi table).read 0 512) 22 = 1 := hfield 22 2 (by omega)
  have hparse : parseBpb ((sample sectors lo hi table).read 0 512) =
      some (sampleBpb sectors.toNat (lo.toNat + 256 * hi.toNat) hsectors htotal) := by
    refine parseBpb_eq (hfield 11 2 (by omega)) (congrArg UInt8.toNat (hbyte 13 (by omega)))
      (hfield 14 2 (by omega)) (congrArg UInt8.toNat (hbyte 16 (by omega)))
      (hfield 17 2 (by omega)) ?_ ?_ (hfield 44 4 (by omega))
    · rw [htot16, orElse, if_pos htotal.ne']
      rfl
    · rw [hfat16]
      rfl
  have hmark : getRange ((sample sectors lo hi table).read 0 512) 510 2 = some [0x55, 0xAA] := by
    rw [Volume.getRange_read _ (by omega)]
    rfl
  exact openVolume_eq hparse hmark

lemma byte_sample {sectors lo hi : UInt8} {table : Bytes} {x : ℕ} (hlo : 512 ≤ x)
    (hhi : x < 1536) :
    (sample sectors lo hi table).byte x = byteAt table ((x - 512) % 512) := by
  have hcontent : (sample sectors lo hi table).content x =
      if x = 510 then 0x55
      else if x = 511 then 0xAA
      else if x < 512 then byteAt (sampleBoot sectors lo hi) x
      else if x < 1536 then byteAt table ((x - 512) % 512)
      else 0 := rfl
  have hlen : x < (sample sectors lo hi table).len := lt_trans hhi (by omega : 1536 < 1024 * 1024)
  rw [Volume.byte, if_pos hlen, hcontent, if_neg (by omega), if_neg (by omega), if_neg (by omega),
    if_pos hhi]

/-- What the table of the volume says. -/
lemma fatBytes_sample {sectors lo hi : UInt8} {table : Bytes} {total idx n : ℕ}
    (hsectors : sectors.toNat ∈ [1, 2, 4, 8, 16, 32, 64, 128]) (htotal : 0 < total)
    (hidx : idx + n ≤ 512) :
    ((sampleBpb sectors.toNat total hsectors htotal).mount (sample sectors lo hi table)).fatBytes
      idx n = slice table idx n := by
  have htable : (512 : ℕ) ≤ min (1 * 512) maxFatCache := by decide
  refine (fatBytes_eq (hidx.trans htable)).trans ?_
  apply ext_byteAt (by rw [Volume.length_read, length_slice])
  intro k hk
  rw [Volume.length_read] at hk
  rw [Volume.byteAt_read _ _ hk, byteAt_slice, if_pos hk]
  refine (byte_sample (x := 1 * 512 + idx + k) (by omega) (by omega)).trans (congrArg _ ?_)
  omega

/-- In a volume of small clusters the bitmap agrees. -/
theorem agrees_exact_sector :
    ∃ fs b, openVolume (sample 1 37 0 firstUsed) = .ok fs ∧ fs.fatBitmap = some b ∧
      fs.Agrees b := by
  have hopen : openVolume (sample 1 37 0 firstUsed) =
      .ok (sectorBpb.mount (sample 1 37 0 firstUsed)) :=
    openVolume_sample (.head _) (by decide)
  obtain ⟨hnone, hsome⟩ := agrees_exact hopen
  have hcount : (sectorBpb.mount (sample 1 37 0 firstUsed)).countOfClusters = 2 := rfl
  obtain ⟨b, hb⟩ := Option.ne_none_iff_exists'.1 fun h => by
    have hzero := hnone.1 h
    omega
  refine ⟨_, b, hopen, hb, (hsome b hb).1.2 (.inl ⟨by decide, by decide, fun c hmax hlt => ?_⟩)⟩
  have hlarge : 4 ≤ maxBitmapClusters := by decide
  omega

/-- In a volume of large clusters the first one is in use, and the bitmap says that it is free. -/
theorem largeCluster_counterexample :
    ∃ fs b, openVolume (sample 128 0x23 1 firstUsed) = .ok fs ∧ fs.fatBitmap = some b ∧
      fs.clusterOffset 2 = some 17920 ∧ fs.fatEntry 2 = 0xFFF ∧ b.isOffsetAllocated 17920 = false ∧
        ¬ fs.Agrees b := by
  set fs := largeBpb.mount (sample 128 0x23 1 firstUsed) with hfs
  have hopen : openVolume (sample 128 0x23 1 firstUsed) = .ok fs :=
    openVolume_sample (List.mem_of_getLast? rfl) (by decide)
  have hcount : fs.countOfClusters = 2 := rfl
  have hsome : fs.fatBitmap ≠ none := fun h => by
    have hzero : fs.countOfClusters = 0 := fatBitmap_eq_none_iff.1 h
    omega
  obtain ⟨b, hb⟩ := Option.ne_none_iff_exists'.1 hsome
  have hpos : 0 < fs.clusterSize := largeBpb.clusterSize_pos _
  have h := isBitmap_of_fatBitmap hpos hb
  have hoff : fs.clusterOffset 2 = some 17920 :=
    (largeBpb.clusterOffset_eq _ le_rfl (by decide)).trans rfl
  have hbytes : fs.fatBytes 3 2 = slice firstUsed 3 2 := fatBytes_sample _ _ (by omega)
  have hused : fs.fatEntry 2 = 0xFFF := by
    have hkind : fs.kind = .fat12 := rfl
    rw [fatEntry, hkind]
    exact congrArg (fun b => leU16 b 0 % 2 ^ 12) hbytes
  have hfree : b.isOffsetAllocated 17920 = false := by
    rw [(h.isOffsetAllocated (i := 0) (by decide) (by decide)).1, h.allocated]
    decide
  refine ⟨fs, b, hopen, hb, hoff, hused, hfree, fun hagree => ?_⟩
  have hsaid := hagree.inside 2 17920 0 hoff hpos
  rw [hused, hfree] at hsaid
  exact absurd hsaid (by decide)

end FatFs
end Reclaim

/-!
## Cluster chains

`chain` follows the links of a table and stops where a link leads out of the volume, where a cluster
links to itself, and at a cap on the number of clusters.  It does not remember where it was, so
links that return to an earlier cluster are followed round and round until the cap.
-/

namespace Reclaim

open FileBytes Links

namespace FatFs

variable (fs : FatFs)

/-- The cluster is one of the volume. -/
def ValidCluster (c : ℕ) : Prop := 2 ≤ c ∧ c < fs.countOfClusters + 2

/-- The chain ends behind the cluster. -/
def EndsAt (c : ℕ) : Prop :=
  fs.kind.eoc ≤ fs.fatEntry c ∨ fs.fatEntry c < 2 ∨ fs.countOfClusters + 2 ≤ fs.fatEntry c ∨
    fs.fatEntry c = c

instance : DecidablePred fs.ValidCluster := fun _ => inferInstanceAs (Decidable (_ ∧ _))

instance : DecidablePred fs.EndsAt := fun _ => inferInstanceAs (Decidable (_ ∨ _))

/-- The link of a cluster in the table. -/
def link : ℕ → Option ℕ := linkOf fs.ValidCluster fs.EndsAt fs.fatEntry

/-- The most clusters that a chain is followed for. -/
def chainCap (max' : ℕ) : ℕ := max (min max' (fs.countOfClusters + 2)) 1

lemma walks_chainFrom : Walks fs.ValidCluster fs.EndsAt fs.fatEntry fs.chainFrom where
  zero _ := rfl
  succ _ _ := rfl
  good_entry c _ hend := by
    unfold EndsAt at hend
    unfold ValidCluster
    omega

variable {fs} {first cap : ℕ}

lemma chain_eq (hfirst : fs.ValidCluster first) (max' : ℕ) :
    fs.chain first max' = follow fs.link (fs.chainCap max') first :=
  fs.walks_chainFrom.eq_follow hfirst

lemma valid_of_mem_follow (hfirst : fs.ValidCluster first) :
    ∀ c ∈ follow fs.link cap first, fs.ValidCluster c :=
  fun _ hc => fs.walks_chainFrom.good_of_mem hfirst hc

end FatFs

namespace ExFat

variable (fs : ExFat)

/-- The chain ends behind the cluster. -/
def EndsAt (c : ℕ) : Prop :=
  fs.fatNext c = 0xFFFFFFFF ∨ fs.fatNext c < 2 ∨ fs.clusterLimit ≤ fs.fatNext c ∨ fs.fatNext c = c

instance : DecidablePred fs.ValidCluster := fun _ => inferInstanceAs (Decidable (_ ∧ _))

instance : DecidablePred fs.EndsAt := fun _ => inferInstanceAs (Decidable (_ ∨ _))

/-- The link of a cluster in the table. -/
def link : ℕ → Option ℕ := linkOf fs.ValidCluster fs.EndsAt fs.fatNext

/-- The most clusters that a chain is followed for. -/
def chainCap (maxClusters : ℕ) : ℕ := max (min maxClusters fs.clusterLimit) 1

lemma walks_chainFrom : Walks fs.ValidCluster fs.EndsAt fs.fatNext fs.chainFrom where
  zero _ := rfl
  succ _ _ := rfl
  good_entry c _ hend := by
    unfold EndsAt at hend
    unfold ValidCluster
    omega

variable {fs} {first cap : ℕ}

lemma chain_eq (hfirst : fs.ValidCluster first) (maxClusters : ℕ) :
    fs.chain first maxClusters = follow fs.link (fs.chainCap maxClusters) first :=
  fs.walks_chainFrom.eq_follow hfirst

lemma valid_of_mem_follow (hfirst : fs.ValidCluster first) :
    ∀ c ∈ follow fs.link cap first, fs.ValidCluster c :=
  fun _ hc => fs.walks_chainFrom.good_of_mem hfirst hc

end ExFat

/-- **Chains in both tables.**  A chain is no longer than its cap, and it repeats no cluster exactly
if its links come to an end or if the cap is not more than the clusters that they lead to. -/
theorem chains_exact (fs : FatFs) (ex : ExFat) (first max' : ℕ) :
    ((fs.chain first max').length ≤ fs.chainCap max' ∧
      ((fs.chain first max').Nodup ↔ Ends fs.link first ∨
        (fs.chainCap max' : ℕ∞) ≤ (reached fs.link first).encard)) ∧
    (ex.chain first max').length ≤ ex.chainCap max' ∧
      ((ex.chain first max').Nodup ↔ Ends ex.link first ∨
        (ex.chainCap max' : ℕ∞) ≤ (reached ex.link first).encard) :=
  ⟨⟨fs.walks_chainFrom.length_le, fs.walks_chainFrom.nodup_iff⟩,
    ⟨ex.walks_chainFrom.length_le, ex.walks_chainFrom.nodup_iff⟩⟩

/-- A table in which clusters 2 and 3 link to each other. -/
def twoCycle : Bytes := [0xF8, 0xFF, 0xFF, 0x03, 0x20, 0x00]

/-- A file of four clusters that begins in the cycle is given both of its clusters twice. -/
theorem twoCycle_counterexample :
    ∃ fs, FatFs.openVolume (FatFs.sample 1 37 0 twoCycle) = .ok fs ∧ fs.chain 2 6 = [2, 3, 2, 3] ∧
      fs.resolveExtents 2 2048 false = ([⟨17920, 1024⟩, ⟨17920, 1024⟩], false) := by
  set fs := FatFs.sectorBpb.mount (FatFs.sample 1 37 0 twoCycle) with hfs
  have hopen : FatFs.openVolume (FatFs.sample 1 37 0 twoCycle) = .ok fs :=
    FatFs.openVolume_sample (.head _) (by decide)
  have hkind : fs.kind = .fat12 := rfl
  have hcount : fs.countOfClusters = 2 := rfl
  have hsize : fs.clusterSize = 512 := rfl
  have htable : ∀ idx, idx + 2 ≤ 512 → fs.fatBytes idx 2 = slice twoCycle idx 2 := fun idx hidx =>
    FatFs.fatBytes_sample _ _ hidx
  have htwo : fs.fatEntry 2 = 3 := by
    rw [FatFs.fatEntry, hkind]
    exact congrArg (fun b => leU16 b 0 % 2 ^ 12) (htable 3 (by omega))
  have hthree : fs.fatEntry 3 = 2 := by
    rw [FatFs.fatEntry, hkind]
    exact congrArg (fun b => leU16 b 0 / 16 % 2 ^ 12) (htable 4 (by omega))
  have hchain : fs.chain 2 6 = [2, 3, 2, 3] := by
    simp [FatFs.chain, FatFs.chainFrom, hcount, hkind, FatKind.eoc, htwo, hthree]
  have hfirst : fs.clusterOffset 2 = some 17920 :=
    (FatFs.sectorBpb.clusterOffset_eq _ le_rfl (by decide)).trans rfl
  have hsecond : fs.clusterOffset 3 = some 18432 :=
    (FatFs.sectorBpb.clusterOffset_eq _ (by decide) (by decide)).trans rfl
  refine ⟨fs, hopen, hchain, ?_⟩
  have hneed : saturatingAdd (divCeil 2048 512) 2 = 6 := by decide
  have hextents : coalesceClusters fs.clusterOffset 512 [2, 3, 2, 3] 2048 =
      [⟨17920, 1024⟩, ⟨17920, 1024⟩] := by
    simp [coalesceClusters, clusterRuns, hfirst, hsecond]
  unfold FatFs.resolveExtents
  simp [hneed, hchain, hsize, hextents]

end Reclaim
