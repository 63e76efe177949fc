import Reclaim.Fs.ExtGeometry
import Reclaim.Fs.FatBitmap

/-!
# The allocation bitmap of an ext volume

Each group has a bitmap of its own blocks, in a block that its descriptor names.  `build_bitmap`
copies them bit by bit into one bitmap of the volume, in which a bit is set from the beginning; so a
block of no group, or behind the bits of its group's bitmap, counts as allocated.
-/

namespace Reclaim

open FileBytes

/-! ## Writing bits -/

namespace Bitmap

/-- Bit `i` cleared, if the buffer has it. -/
def clearBit (bits : Bytes) (i : ℕ) : Bytes :=
  bits.modify (i / 8) (· &&& ~~~(1 <<< UInt8.ofNat (i % 8)))

/-- Bit `i` made `set`, if the buffer has it. -/
def putBit (set : Bool) (bits : Bytes) (i : ℕ) : Bytes :=
  if set then setBit bits i else clearBit bits i

variable {bits : Bytes} {i j : ℕ} {x : UInt8}

lemma byteBit_clear (hi : i < 8) (hj : j < 8) :
    byteBit (x &&& ~~~(1 <<< UInt8.ofNat i)) j = (!decide (j = i) && byteBit x j) := by
  have hbits : ∀ k < 8, ∀ l < 8, (~~~((1 : UInt8) <<< UInt8.ofNat k)).toNat.testBit l =
      !decide (l = k) := by decide
  rw [byteBit_eq_testBit hj, byteBit_eq_testBit hj, UInt8.toNat_and, Nat.testBit_and,
    hbits i hi j hj, Bool.and_comm]

@[simp] lemma length_putBit (set : Bool) : (putBit set bits i).length = bits.length := by
  unfold putBit clearBit
  split
  · exact length_setBit
  · exact List.length_modify ..

/-- A bit that the buffer has is what it was made, the others stay. -/
lemma bitSet_putBit (set : Bool) (hj : j / 8 < bits.length) :
    bitSet (putBit set bits i) j = if j = i then set else bitSet bits j := by
  cases set with
  | true =>
    rw [putBit, if_pos rfl, bitSet_setBit hj]
    by_cases hji : j = i
    · simp [hji]
    · simp [hji]
  | false =>
    rw [putBit, if_neg Bool.false_ne_true, bitSet, bitSet, clearBit, List.getElem?_modify,
      List.getElem?_eq_getElem hj]
    by_cases hbyte : i / 8 = j / 8
    · have hsame : j = i ↔ j % 8 = i % 8 := by omega
      have hclear := @byteBit_clear (i % 8) (j % 8) bits[j / 8] (by omega) (by omega)
      simp only [hbyte, if_true]
      change byteBit (bits[j / 8] &&& ~~~(1 <<< UInt8.ofNat (i % 8))) (j % 8) =
        if j = i then false else byteBit bits[j / 8] (j % 8)
      rw [hclear]
      by_cases hmod : j % 8 = i % 8
      · simp [hmod, hsame]
      · simp [hmod, hsame]
    · have hne : j ≠ i := fun h => hbyte (h ▸ rfl)
      simp [hbyte, hne]

/-- The bits from `first` on made what `p` says. -/
def putBits (p : ℕ → Bool) (first n : ℕ) (bits : Bytes) : Bytes :=
  (List.range n).foldl (fun bits i => putBit (p i) bits (first + i)) bits

@[simp] lemma length_putBits (p : ℕ → Bool) (first n : ℕ) :
    (putBits p first n bits).length = bits.length := by
  induction n with
  | zero => rfl
  | succ n ih =>
    rw [← ih, putBits, List.range_succ, List.foldl_append]
    exact length_putBit _

lemma bitSet_putBits (p : ℕ → Bool) (first n : ℕ) (hj : j / 8 < bits.length) :
    bitSet (putBits p first n bits) j =
      if first ≤ j ∧ j < first + n then p (j - first) else bitSet bits j := by
  induction n with
  | zero => rw [if_neg (by omega), putBits, List.range_zero, List.foldl_nil]
  | succ n ih =>
    have hstep : putBits p first (n + 1) bits =
        putBit (p n) (putBits p first n bits) (first + n) := by
      rw [putBits, List.range_succ, List.foldl_append]
      rfl
    rw [hstep, bitSet_putBit _ (by rwa [length_putBits]), ih]
    by_cases hlast : j = first + n
    · rw [if_pos hlast, if_pos (by omega), hlast, Nat.add_sub_cancel_left]
    · rw [if_neg hlast]
      by_cases hin : first ≤ j ∧ j < first + n
      · rw [if_pos hin, if_pos (by omega)]
      · rw [if_neg hin, if_neg (by omega)]

lemma bitSet_ones {n : ℕ} (hj : j / 8 < n) : bitSet (List.replicate n 0xFF) j = true := by
  have hbits : ∀ k < 8, byteBit 0xFF k = true := by decide
  rw [bitSet, List.getElem?_replicate, if_pos hj, Option.any_some]
  exact hbits (j % 8) (by omega)

/-- A new bitmap says what its bits do. -/
lemma isBlockAllocated_new {bs base n : ℕ} (hi : i < n) (hlen : i / 8 < bits.length) :
    (new bs base n bits).isBlockAllocated i = bitSet bits i := by
  have hin : decide ((new bs base n bits).bits.length ≤ i / 8) = false :=
    decide_eq_false (not_le.2 hlen)
  have hnew : i < (new bs base n bits).blockCount := hi
  rw [isBlockAllocated_eq hnew, hin, Bool.false_or]
  rfl

/-- An offset is in the block that it lies in, where blocks begin at zero. -/
lemma isOffsetAllocated_new {bs n : ℕ} (hbs : 0 < bs) (x : ℕ) :
    (new bs 0 n bits).isOffsetAllocated x = (new bs 0 n bits).isBlockAllocated (x / bs) := by
  have hzero : ¬ x < (new bs 0 n bits).baseOffset := Nat.not_lt_zero x
  have hsize : (x - (new bs 0 n bits).baseOffset) / (new bs 0 n bits).blockSize = x / bs := by
    change (x - 0) / max bs 1 = x / bs
    rw [Nat.sub_zero, max_eq_left hbs]
  rw [isOffsetAllocated, if_neg hzero, hsize]

end Bitmap

/-! ## Opened volumes -/

/-- `Ext`: an opened volume, with the superblock that was found on it. -/
structure Ext where
  src : Volume
  sb : Ext.Geometry
  opened : Ext.readSuperblock src = some sb

namespace Ext

/-- `open`. -/
def openVolume (src : Volume) : Except FsError Ext :=
  match h : readSuperblock src with
  | none => .error (.notThisFs "no ext superblock (primary or backup)")
  | some sb =>
    if sb.groups = [] then .error (.corrupt "ext: no group descriptors") else .ok ⟨src, sb, h⟩

variable (e : Ext)

lemma accepted : e.sb.Accepted := accepted_of_readSuperblock e.opened

/-- The fields of a superblock that was found are as they were read. -/
lemma exists_fieldsOf {v : Volume} {sb : Geometry} (h : readSuperblock v = some sb) :
    ∃ b g groups, sb = { fieldsOf b g with groups } ∧ (fieldsOf b g).blocksPerGroup ≠ 0 := by
  have hparse : ∀ {off g}, parseAt v off g = some sb →
      ∃ b g groups, sb = { fieldsOf b g with groups } ∧ (fieldsOf b g).blocksPerGroup ≠ 0 := by
    intro off g h
    unfold parseAt at h
    generalize v.read off 1024 = b at h
    dsimp only at h
    split_ifs at h with hmagic hlog hdesc hzero hgroups
    exact ⟨b, g, _, (Option.some.inj h).symm, fun h0 => hzero (.inl h0)⟩
  unfold readSuperblock at h
  rw [Option.or_eq_some_iff] at h
  obtain h | ⟨-, h⟩ := h
  · exact hparse h
  · obtain ⟨g, -, hg⟩ := List.exists_of_findSome?_eq_some h
    obtain ⟨bs, -, hbs⟩ := List.exists_of_findSome?_eq_some hg
    exact hparse (Option.filter_eq_some_iff.1 hbs).1

/-- The bounds of the numbers that say where a group begins. -/
lemma groups_bounded :
    e.sb.firstDataBlock < 2 ^ 32 ∧ 0 < e.sb.blocksPerGroup ∧ e.sb.blocksPerGroup < 2 ^ 32 := by
  obtain ⟨b, g, groups, hsb, hzero⟩ := exists_fieldsOf e.opened
  rw [hsb]
  exact ⟨leU32_lt b 0x14, Nat.pos_of_ne_zero hzero, leU32_lt b 0x20⟩

/-! ## The bitmap -/

/-- `MAX_BITMAP_BLOCKS`. -/
def maxBitmapBlocks : ℕ := 64 * 1024 * 1024

/-- The blocks that the bitmap has bits for. -/
def bitmapBlocks : ℕ := min e.sb.blocksCount (e.src.len / max e.sb.blockSize 1 + 1)

/-- The first block of a group. -/
def Geometry.groupFirst (sb : Geometry) (g : ℕ) : ℕ :=
  saturatingAdd sb.firstDataBlock (saturatingMul g sb.blocksPerGroup)

/-- The bitmap of a group. -/
def groupBitmap (gd : GroupDesc) : Bytes :=
  e.src.read (saturatingMul gd.blockBitmap e.sb.blockSize) e.sb.blockSize

/-- Bit `i` of a group's bitmap, set behind its end. -/
def groupBit (gd : GroupDesc) (i : ℕ) : Bool :=
  match (e.groupBitmap gd)[i / 8]? with
  | some x => Bitmap.byteBit x (i % 8)
  | none => true

/-- The bits of a group; it is left at the first block that the bitmap has no bit for. -/
def putGroup (blockCount : ℕ) (bits : Bytes) (g : GroupDesc × ℕ) : Bytes :=
  let first := e.sb.groupFirst g.2
  Bitmap.putBits (e.groupBit g.1) first (min e.sb.blocksPerGroup (blockCount - first)) bits

/-- `build_bitmap`. -/
def buildBitmap : Option Bitmap :=
  let blockCount := e.bitmapBlocks
  if blockCount = 0 ∨ maxBitmapBlocks < blockCount then none
  else
    some (Bitmap.new e.sb.blockSize 0 blockCount
      (e.sb.groups.zipIdx.foldl (e.putGroup blockCount)
        (List.replicate (divCeil blockCount 8) 0xFF)))

/-- What the bitmaps of the groups say of a block; one that no group has is allocated. -/
def blockInUse (b : ℕ) : Bool :=
  if b < e.sb.firstDataBlock then true
  else
    let i := b - e.sb.firstDataBlock
    match e.sb.groups[i / e.sb.blocksPerGroup]? with
    | some gd => e.groupBit gd (i % e.sb.blocksPerGroup)
    | none => true

lemma groupFirst_eq {g : ℕ} (hg : g ≤ 65536) :
    e.sb.groupFirst g = e.sb.firstDataBlock + g * e.sb.blocksPerGroup := by
  obtain ⟨hfirst, -, hbpg⟩ := e.groups_bounded
  have hprod : g * e.sb.blocksPerGroup ≤ 2 ^ 48 :=
    calc g * e.sb.blocksPerGroup ≤ 65536 * 2 ^ 32 := Nat.mul_le_mul hg hbpg.le
      _ = 2 ^ 48 := by norm_num
  rw [Geometry.groupFirst, saturatingMul, min_eq_left (by unfold u64Max; omega), saturatingAdd,
    min_eq_left (by unfold u64Max; omega)]

/-- Groups in turn: each block gets the bit of its own group. -/
lemma bitSet_foldl_putGroup {count b : ℕ} (hb : b < count) :
    ∀ (gs : List GroupDesc) (n : ℕ) (bits : Bytes), n + gs.length ≤ 65536 →
      b / 8 < bits.length →
      let first := e.sb.firstDataBlock
      let bpg := e.sb.blocksPerGroup
      Bitmap.bitSet ((gs.zipIdx n).foldl (e.putGroup count) bits) b =
        if first + n * bpg ≤ b then
          match gs[(b - first) / bpg - n]? with
          | some gd => e.groupBit gd ((b - first) % bpg)
          | none => Bitmap.bitSet bits b
        else Bitmap.bitSet bits b := by
  intro gs
  induction gs with
  | nil => exact fun n bits _ _ => by simp
  | cons gd gs ih =>
    intro n bits hn hlen
    rw [List.length_cons] at hn
    obtain ⟨-, hpos, -⟩ := e.groups_bounded
    have hfirst := e.groupFirst_eq (g := n) (by omega)
    rw [List.zipIdx_cons, List.foldl_cons]
    dsimp only
    rw [ih (n + 1) _ (by omega) (by rw [putGroup, Bitmap.length_putBits]; exact hlen), putGroup]
    dsimp only
    rw [Bitmap.bitSet_putBits _ _ _ hlen, hfirst]
    generalize e.sb.firstDataBlock = first
    generalize e.sb.blocksPerGroup = bpg at hpos ⊢
    have hsucc : (n + 1) * bpg = n * bpg + bpg := Nat.succ_mul n bpg
    have hleft : ∀ m, min bpg (count - m) ≤ bpg ∧
        (b < m + bpg → m ≤ b → b < m + min bpg (count - m)) := by omega
    obtain ⟨hmin, hwithin⟩ := hleft (first + n * bpg)
    by_cases hbefore : first + n * bpg ≤ b
    · rw [if_pos hbefore]
      obtain ⟨i, rfl⟩ := Nat.exists_eq_add_of_le hbefore
      have hsub : first + n * bpg + i - first = i + n * bpg := by omega
      rw [hsub, Nat.add_mul_div_right _ _ hpos, Nat.add_mul_mod_self_right]
      by_cases hin : i < bpg
      · have hlater : ¬ first + (n + 1) * bpg ≤ first + n * bpg + i := by omega
        rw [if_neg hlater, if_pos ⟨hbefore, hwithin (by omega) hbefore⟩, Nat.div_eq_of_lt hin,
          Nat.mod_eq_of_lt hin, Nat.zero_add, Nat.sub_self, Nat.add_sub_cancel_left]
        rfl
      · obtain ⟨q, hq⟩ : ∃ q, i / bpg = q + 1 :=
          Nat.exists_eq_succ_of_ne_zero (Nat.div_pos (not_lt.1 hin) hpos).ne'
        have hidx : q + 1 + n - (n + 1) = q := by omega
        have hidx' : q + 1 + n - n = q + 1 := by omega
        have hlater : first + (n + 1) * bpg ≤ first + n * bpg + i := by omega
        have hpast : ¬ (first + n * bpg ≤ first + n * bpg + i ∧
            first + n * bpg + i < first + n * bpg + min bpg (count - (first + n * bpg))) := by omega
        rw [if_pos hlater, if_neg hpast, hq, hidx, hidx', List.getElem?_cons_succ]
    · have hlater : ¬ first + (n + 1) * bpg ≤ b := by omega
      rw [if_neg hlater, if_neg fun h => hbefore h.1, if_neg hbefore]

/-- The bits that the groups are copied into say what the groups do. -/
lemma bitSet_groups {b : ℕ} (hb : b < e.bitmapBlocks) :
    let bits := e.sb.groups.zipIdx.foldl (e.putGroup e.bitmapBlocks)
      (List.replicate (divCeil e.bitmapBlocks 8) 0xFF)
    b / 8 < bits.length ∧ Bitmap.bitSet bits b = e.blockInUse b := by
  have hlen : b / 8 < divCeil e.bitmapBlocks 8 := div_lt_divCeil (by omega) hb
  have hones : b / 8 < (List.replicate (divCeil e.bitmapBlocks 8) (0xFF : UInt8)).length := by
    rwa [List.length_replicate]
  have hkeep : ∀ (gs : List (GroupDesc × ℕ)) (bits : Bytes),
      (gs.foldl (e.putGroup e.bitmapBlocks) bits).length = bits.length := by
    intro gs
    induction gs with
    | nil => exact fun _ => rfl
    | cons g gs ih => exact fun bits => (ih _).trans (Bitmap.length_putBits _ _ _)
  refine ⟨by rwa [hkeep], ?_⟩
  rw [e.bitSet_foldl_putGroup hb _ 0 _ (by have := e.accepted.groups_le; omega) hones,
    Bitmap.bitSet_ones hlen, blockInUse, Nat.zero_mul, Nat.add_zero]
  by_cases hfirst : b < e.sb.firstDataBlock
  · rw [if_pos hfirst, if_neg (not_le.2 hfirst)]
  · rw [if_neg hfirst, if_pos (not_lt.1 hfirst), Nat.sub_zero]

/-- **The bitmap of the volume** has as many bits as there are blocks that the source can hold, and
says of each exactly what the bitmap of its group does.  There is none for no blocks, or too many.
-/
theorem buildBitmap_exact :
    (e.buildBitmap = none ↔ e.bitmapBlocks = 0 ∨ maxBitmapBlocks < e.bitmapBlocks) ∧
      ∀ bm ∈ e.buildBitmap,
        (∀ b, bm.isBlockAllocated b = (decide (e.bitmapBlocks ≤ b) || e.blockInUse b)) ∧
          ∀ x, bm.isOffsetAllocated x = bm.isBlockAllocated (x / e.sb.blockSize) := by
  constructor
  · unfold buildBitmap
    dsimp only
    split
    · exact iff_of_true rfl ‹_›
    · exact iff_of_false (Option.some_ne_none _) ‹_›
  · intro bm hbm
    unfold buildBitmap at hbm
    dsimp only at hbm
    split at hbm
    · exact absurd hbm (Option.not_mem_none _)
    · obtain rfl := Option.mem_some_iff.1 hbm
      have hsize := (Geometry.blockSize_le_of_accepted e.accepted).1
      refine ⟨fun b => ?_, Bitmap.isOffsetAllocated_new (by omega)⟩
      by_cases hb : e.bitmapBlocks ≤ b
      · rw [decide_eq_true hb, Bool.true_or]
        exact if_pos hb
      · obtain ⟨hlen, hbit⟩ := e.bitSet_groups (not_le.1 hb)
        rw [decide_eq_false hb, Bool.false_or,
          Bitmap.isBlockAllocated_new (not_le.1 hb) hlen, hbit]

end Ext
end Reclaim
