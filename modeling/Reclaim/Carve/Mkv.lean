import Reclaim.Carve.FileView
import Reclaim.Foundation.LittleEndian

/-!
# Matroska files

A Matroska file is an EBML header and a Segment, each with its size in a variable-length integer: as
many leading zero bits as bytes follow the first, a marker bit, and the value.  The mask that takes
the marker off is a shift of an eight-bit number by the width; at a width of eight bytes that is all
its bits, which such a shift cannot do.
-/

namespace Reclaim

open FileBytes

namespace Mkv

/-- `CAP`. -/
def maxSize : ℕ := 16 * 1024 * 1024 * 1024

/-- The id of the EBML header. -/
def ebmlId : Bytes := [0x1A, 0x45, 0xDF, 0xA3]

/-- The id of the Segment. -/
def segmentId : Bytes := [0x18, 0x53, 0x80, 0x67]

/-- `leading_zeros`. -/
def leadingZeros (b : UInt8) : ℕ := if b = 0 then 8 else 7 - Nat.log2 b.toNat

/-- `0xFF >> len`: what the shift leaves when its amount is taken modulo the width, as it is where
overflow is not checked. -/
def markerMask (len : ℕ) : UInt8 := 0xFF >>> UInt8.ofNat len

/-- The shift `0xFF >> len` overflows, which is a panic where overflow is checked. -/
def MaskOverflows (len : ℕ) : Prop := 8 ≤ len

/-- `read_vint`: the value, or none for the unknown size, and the width. -/
def readVint (b : Bytes) : Option (Option ℕ × ℕ) :=
  match b with
  | [] => none
  | first :: rest =>
    if first = 0 then none
    else
      let len := leadingZeros first + 1
      if 8 < len ∨ b.length < len then none
      else
        let start := first &&& markerMask len
        -- at most eight bytes, so no bit is shifted out
        let val := (rest.take (len - 1)).foldl (fun val byte => val * 256 + byte.toNat) start.toNat
        let allOnes := start == markerMask len && (rest.take (len - 1)).all (· == 0xFF)
        if allOnes then some (none, len) else some (some val, len)

/-- A verdict about a Matroska file; `refine` has one id for all of them. -/
def verdict (len : ℕ) (validity : Validity) (score : ℕ) : Verdict :=
  { Verdict.accepted len validity score with format := some "video.mkv" }

/-- `validate`. -/
def validate (ctx : Ctx) : ReadProg Verdict := do
  let head ← ctx.read 0 4
  if head ≠ ebmlId then pure .rejected
  else do
    let sizeBytes ← ctx.read 4 8
    match readVint sizeBytes with
    | none => pure .rejected
    | some (ebmlSize, n1) =>
      let segIdPos := 4 + n1 + ebmlSize.getD 0
      let seg ← ctx.read segIdPos 12
      if seg.take 4 ≠ segmentId then
        pure (verdict (min (min ctx.available maxSize) (64 * 1024 * 1024)) .suspect 45)
      else
        match readVint ((seg.drop 4).take 8) with
        | none => pure .rejected
        | some (some size, n2) =>
          let total := segIdPos + 4 + n2 + size
          pure (if total ≤ ctx.available then verdict total .full 88
            else verdict ctx.available .truncated 50)
        | some (none, _) => pure (verdict (min ctx.available maxSize) .suspect 50)

/-! ## The format -/

/-- A value in `width` bytes: the marker bit before its bits. -/
def encodeVint (width value : ℕ) : Bytes := beBytes width (2 ^ (7 * width) + value)

/-- What a value means as a size: all ones are the unknown size. -/
def sizeOf (width value : ℕ) : Option ℕ := if value = 2 ^ (7 * width) - 1 then none else some value

/-- A value in a width is decoded, with no overflow, whatever follows it. -/
def Decodes (width value : ℕ) : Prop :=
  ¬ MaskOverflows width ∧
    ∀ x, readVint (encodeVint width value ++ x) = some (sizeOf width value, width)

/-! ## Integers -/

section Integers

variable {k n x w v : ℕ}

/-- The first byte of a number and the others. -/
lemma beBytes_succ (k n : ℕ) : beBytes (k + 1) n = UInt8.ofNat (n / 256 ^ k) :: beBytes k n := by
  induction k generalizing n with
  | zero => rw [pow_zero, Nat.div_one]; rfl
  | succ k ih =>
    rw [beBytes, ih, pow_succ', ← Nat.div_div_eq_div_mul]
    rfl

lemma foldl_beBytes (k n x : ℕ) :
    (beBytes k n).foldl (fun val byte => val * 256 + byte.toNat) x = x * 256 ^ k + n % 256 ^ k := by
  induction k generalizing n with
  | zero => simp [beBytes, Nat.mod_one]
  | succ k ih =>
    have hmod : n % 256 ^ (k + 1) = n % 256 + 256 * (n / 256 % 256 ^ k) := by
      rw [pow_succ', Nat.mod_mul]
    have hlast : (UInt8.ofNat n).toNat = n % 256 := UInt8.toNat_ofNat' ..
    rw [beBytes, List.foldl_append, ih, List.foldl_cons, List.foldl_nil, hlast, hmod, pow_succ]
    ring

/-- The bytes are all ones exactly when the number is the greatest that they hold. -/
lemma beBytes_allOnes (k n : ℕ) :
    (beBytes k n).all (· == 0xFF) = true ↔ n % 256 ^ k = 256 ^ k - 1 := by
  induction k generalizing n with
  | zero => simp [beBytes, Nat.mod_one]
  | succ k ih =>
    have hmod : n % 256 ^ (k + 1) = n % 256 + 256 * (n / 256 % 256 ^ k) := by
      rw [pow_succ', Nat.mod_mul]
    have hlast : UInt8.ofNat n = 0xFF ↔ n % 256 = 255 := by
      rw [← UInt8.toNat_inj, UInt8.toNat_ofNat']
      rfl
    have hpos : 0 < 256 ^ k := Nat.pow_pos (by omega)
    have hlt := Nat.mod_lt (n / 256) hpos
    rw [beBytes, List.all_append, Bool.and_eq_true, ih, hmod, pow_succ']
    simp only [List.all_cons, List.all_nil, Bool.and_true, beq_iff_eq, hlast]
    omega

/-- The mask keeps the bits of the value, unless the shift wraps around. -/
lemma toNat_markerMask (hw : w < 8) : (markerMask w).toNat = 2 ^ (8 - w) - 1 := by
  interval_cases w <;> rfl

lemma toNat_and_markerMask {b : UInt8} (hw : w < 8) :
    (b &&& markerMask w).toNat = b.toNat % 2 ^ (8 - w) := by
  rw [UInt8.toNat_and, toNat_markerMask hw, Nat.and_two_pow_sub_one_eq_mod]

/-- The parts of a value in `k + 1` bytes: what the first byte has, and what the others have. -/
lemma vint_parts (hk : k ≤ 7) (hv : v < 2 ^ (7 * (k + 1))) :
    (2 ^ (7 * (k + 1)) + v) / 256 ^ k = 2 ^ (7 - k) + v / 256 ^ k ∧
      (2 ^ (7 * (k + 1)) + v) % 256 ^ k = v % 256 ^ k ∧ v / 256 ^ k < 2 ^ (7 - k) := by
  have hsplit : 2 ^ (7 * (k + 1)) = 2 ^ (7 - k) * 256 ^ k := by
    rw [show (256 : ℕ) = 2 ^ 8 from rfl, ← pow_mul, ← pow_add]
    congr 1
    omega
  have hpos : 0 < 256 ^ k := Nat.pow_pos (by omega)
  rw [hsplit] at hv ⊢
  refine ⟨?_, Nat.mul_add_mod_self_right .., Nat.div_lt_of_lt_mul (by rwa [Nat.mul_comm])⟩
  rw [Nat.mul_comm, Nat.mul_add_div hpos]

/-- The zeros before the marker say how many bytes there are. -/
lemma leadingZeros_first (hk : k ≤ 7) {f : ℕ} (hf : f < 2 ^ (7 - k)) :
    leadingZeros (UInt8.ofNat (2 ^ (7 - k) + f)) = k := by
  have hle : 2 ^ (7 - k) ≤ 2 ^ 7 := Nat.pow_le_pow_right (by omega) (by omega)
  have hbyte : (UInt8.ofNat (2 ^ (7 - k) + f)).toNat = 2 ^ (7 - k) + f :=
    UInt8.toNat_ofNat_of_lt (by
      show _ < 256
      omega)
  have hlog : Nat.log2 (2 ^ (7 - k) + f) = 7 - k := by
    rw [Nat.log2_eq_iff (by omega), pow_succ]
    omega
  have hne : UInt8.ofNat (2 ^ (7 - k) + f) ≠ 0 := by
    intro h
    rw [h] at hbyte
    have := Nat.two_pow_pos (7 - k)
    change 0 = _ at hbyte
    omega
  rw [leadingZeros, if_neg hne, hbyte, hlog]
  omega

/-- **What is read of a value in a width**: the bits behind the mask, and the other bytes. -/
lemma readVint_encodeVint (hk : k ≤ 7) (hv : v < 2 ^ (7 * (k + 1))) (x : Bytes) :
    readVint (encodeVint (k + 1) v ++ x) =
      let start := UInt8.ofNat (2 ^ (7 - k) + v / 256 ^ k) &&& markerMask (k + 1)
      if start = markerMask (k + 1) ∧ v % 256 ^ k = 256 ^ k - 1 then some (none, k + 1)
      else some (some (start.toNat * 256 ^ k + v % 256 ^ k), k + 1) := by
  obtain ⟨hdiv, hmod, hlt⟩ := vint_parts hk hv
  have hzeros := leadingZeros_first hk hlt
  have hne : UInt8.ofNat (2 ^ (7 - k) + v / 256 ^ k) ≠ 0 := by
    intro h
    rw [h] at hzeros
    change 8 = k at hzeros
    omega
  have hrest : ((beBytes k (2 ^ (7 * (k + 1)) + v)) ++ x).take k =
      beBytes k (2 ^ (7 * (k + 1)) + v) := List.take_left' (length_beBytes ..)
  rw [encodeVint, beBytes_succ, hdiv, List.cons_append, readVint]
  dsimp only
  rw [if_neg hne, hzeros, Nat.add_sub_cancel, hrest, foldl_beBytes, hmod]
  have hlong : ¬ (8 < k + 1 ∨ (UInt8.ofNat (2 ^ (7 - k) + v / 256 ^ k) ::
      (beBytes k (2 ^ (7 * (k + 1)) + v) ++ x)).length < k + 1) := by
    rw [List.length_cons, List.length_append, length_beBytes]
    omega
  rw [if_neg hlong]
  refine if_congr ?_ rfl rfl
  rw [Bool.and_eq_true, beBytes_allOnes, hmod, beq_iff_eq]

/-- The greatest number of two digits, the first below `b` and the second below `a`. -/
lemma greatest_iff {a b : ℕ} (ha : 0 < a) (hb : v / a < b) :
    (v / a = b - 1 ∧ v % a = a - 1) ↔ v = b * a - 1 := by
  have hvalue : v / a * a + v % a = v := by
    rw [Nat.mul_comm]
    exact Nat.div_add_mod v a
  have hmod := Nat.mod_lt v ha
  have hle : a ≤ b * a := Nat.le_mul_of_pos_left a ((Nat.zero_le _).trans_lt hb)
  have hpred : (b - 1) * a = b * a - a := Nat.sub_one_mul b a
  constructor
  · rintro ⟨hdiv, hrest⟩
    rw [hdiv, hrest, hpred] at hvalue
    omega
  · intro hv
    have hdiv : v / a = b - 1 := by
      by_contra hne
      have hlt := lt_of_le_of_ne (Nat.le_sub_one_of_lt hb) hne
      have hmul := Nat.mul_le_mul_right a (Nat.succ_le_of_lt hlt)
      rw [hpred, Nat.succ_mul] at hmul
      omega
    rw [hdiv, hpred] at hvalue
    refine ⟨hdiv, ?_⟩
    generalize v % a = rest at hvalue hmod ⊢
    generalize b * a = product at hvalue hv hle
    omega

/-- **A value is decoded exactly in the widths below eight bytes.** -/
lemma decodes_iff (hw : 1 ≤ w) (hw8 : w ≤ 8) (hv : v < 2 ^ (7 * w)) : Decodes w v ↔ w < 8 := by
  obtain ⟨k, rfl⟩ := Nat.exists_eq_add_of_le' hw
  refine ⟨fun h => not_le.1 h.1, fun hlt => ⟨not_le.2 hlt, fun x => ?_⟩⟩
  obtain ⟨hdiv, hmod, hfirst⟩ := vint_parts (by omega) hv
  have hsplit : 2 ^ (7 * (k + 1)) = 2 ^ (7 - k) * 256 ^ k := by
    rw [show (256 : ℕ) = 2 ^ 8 from rfl, ← pow_mul, ← pow_add]
    congr 1
    omega
  have hle : 2 ^ (7 - k) ≤ 2 ^ 7 := Nat.pow_le_pow_right (by omega) (by omega)
  have hbyte : (UInt8.ofNat (2 ^ (7 - k) + v / 256 ^ k)).toNat = 2 ^ (7 - k) + v / 256 ^ k :=
    UInt8.toNat_ofNat_of_lt (by
      show _ < 256
      omega)
  have hstart : (UInt8.ofNat (2 ^ (7 - k) + v / 256 ^ k) &&& markerMask (k + 1)).toNat =
      v / 256 ^ k := by
    rw [toNat_and_markerMask hlt, hbyte, show 8 - (k + 1) = 7 - k by omega, Nat.add_mod_left,
      Nat.mod_eq_of_lt hfirst]
  have hvalue : v / 256 ^ k * 256 ^ k + v % 256 ^ k = v := by
    rw [Nat.mul_comm]
    exact Nat.div_add_mod v (256 ^ k)
  have hones : (UInt8.ofNat (2 ^ (7 - k) + v / 256 ^ k) &&& markerMask (k + 1) =
      markerMask (k + 1) ∧ v % 256 ^ k = 256 ^ k - 1) ↔ v = 2 ^ (7 * (k + 1)) - 1 := by
    rw [← UInt8.toNat_inj, hstart, toNat_markerMask hlt, show 8 - (k + 1) = 7 - k by omega, hsplit]
    exact greatest_iff (Nat.pow_pos (by omega)) hfirst
  rw [readVint_encodeVint (by omega) hv]
  dsimp only
  rw [hstart, hvalue, sizeOf]
  by_cases hv1 : v = 2 ^ (7 * (k + 1)) - 1
  · rw [if_pos (hones.2 hv1), if_pos hv1]
  · rw [if_neg (hones.not.2 hv1), if_neg hv1]

/-- In eight bytes the marker stays in the value, and no value is unknown. -/
lemma readVint_eight (hv : v < 2 ^ 56) (x : Bytes) :
    readVint (encodeVint 8 v ++ x) = some (some (2 ^ 56 + v), 8) := by
  obtain ⟨-, -, hfirst⟩ := vint_parts (k := 7) le_rfl hv
  have hzero : v / 256 ^ 7 = 0 := Nat.lt_one_iff.1 hfirst
  have hmod : v % 256 ^ 7 = v := Nat.mod_eq_of_lt hv
  rw [readVint_encodeVint (k := 7) le_rfl hv, hzero, hmod]
  dsimp only
  rw [if_neg (fun h => absurd h.1 (by decide))]
  rfl

end Integers

/-! ## A file and what follows it -/

/-- A file whose sizes are known. -/
structure File where
  headerWidth : ℕ
  /-- What the EBML header holds. -/
  header : Bytes
  segmentWidth : ℕ
  /-- What the Segment holds. -/
  segment : Bytes
  headerWidth_pos : 1 ≤ headerWidth
  headerWidth_le : headerWidth ≤ 8
  header_lt : header.length < 2 ^ (7 * headerWidth) - 1
  segmentWidth_pos : 1 ≤ segmentWidth
  segmentWidth_le : segmentWidth ≤ 8
  segment_lt : segment.length < 2 ^ (7 * segmentWidth) - 1

/-- The bytes of a file. -/
def File.bytes (f : File) : Bytes :=
  ebmlId ++ (encodeVint f.headerWidth f.header.length ++ (f.header ++
    (segmentId ++ (encodeVint f.segmentWidth f.segment.length ++ f.segment))))

section Exact

variable {R : Reader} {ctx : Ctx} {f : File} {T : Bytes} {n : ℕ}

lemma File.length_bytes (f : File) : f.bytes.length =
    8 + f.headerWidth + f.header.length + f.segmentWidth + f.segment.length := by
  simp only [File.bytes, List.length_append, encodeVint, length_beBytes, ebmlId, segmentId,
    List.length_cons, List.length_nil]
  omega

lemma isFull_verdict {len score : ℕ} {validity : Validity} :
    (verdict len validity score).IsFull n ↔ validity = .full ∧ len = n :=
  ⟨fun h => h.2, fun h => ⟨rfl, h⟩⟩

lemma length_encodeVint (w v : ℕ) : (encodeVint w v).length = w := length_beBytes ..

/-- A file with both sizes in fewer than eight bytes is sized exactly, if it is there. -/
lemma run_validate_narrow (h : ctx.Sees R (f.bytes ++ T)) (hheader : f.headerWidth < 8)
    (hsegment : f.segmentWidth < 8) : (validate ctx).run R =
      if f.bytes.length ≤ ctx.available then verdict f.bytes.length .full 88
      else verdict ctx.available .truncated 50 := by
  have hread : ∀ w v, v < 2 ^ (7 * w) - 1 → 1 ≤ w → w < 8 → ∀ x,
      readVint (encodeVint w v ++ x) = some (some v, w) := by
    intro w v hv hw hw8 x
    rw [((decodes_iff hw hw8.le (by omega)).2 hw8).2 x, sizeOf, if_neg hv.ne]
  -- what is read of a size, and what comes behind it
  have hfield : ∀ w v rest, w ≤ 8 → ∃ x, slice (encodeVint w v ++ rest) 0 8 =
    encodeVint w v ++ x := by
    intro w v rest hw
    have hsplit := slice_append_add (encodeVint w v) rest (8 - w)
    rw [length_encodeVint, Nat.add_sub_cancel' hw] at hsplit
    exact ⟨_, hsplit⟩
  set tail :=
    segmentId ++ (encodeVint f.segmentWidth f.segment.length ++ (f.segment ++ T)) with htail
  have hbytes : f.bytes ++ T =
      ebmlId ++ (encodeVint f.headerWidth f.header.length ++ (f.header ++ tail)) := by
    simp only [File.bytes, htail, List.append_assoc]
  obtain ⟨x, hx⟩ : ∃ x, slice (f.bytes ++ T) 4 8 =
    encodeVint f.headerWidth f.header.length ++ x := by
    rw [hbytes]
    obtain ⟨x, hx⟩ := hfield f.headerWidth f.header.length (f.header ++ tail) hheader.le
    exact ⟨x, (slice_append_right ebmlId _ 0 8).trans hx⟩
  obtain ⟨y, hy⟩ : ∃ y, slice (f.bytes ++ T) (4 + f.headerWidth + f.header.length) 12 =
      segmentId ++ (encodeVint f.segmentWidth f.segment.length ++ y) := by
    obtain ⟨y, hy⟩ := hfield f.segmentWidth f.segment.length (f.segment ++ T) hsegment.le
    refine ⟨y, ?_⟩
    have hskip :=
      slice_append_right (ebmlId ++ (encodeVint f.headerWidth f.header.length ++ f.header))
      tail 0 12
    have hlen : (ebmlId ++ (encodeVint f.headerWidth f.header.length ++ f.header)).length =
        4 + f.headerWidth + f.header.length := by
      rw [List.length_append, List.length_append, length_encodeVint, ← Nat.add_assoc]
      rfl
    rw [hlen, List.append_assoc, List.append_assoc, ← hbytes] at hskip
    rw [← hy]
    exact hskip.trans (slice_append_add segmentId _ 8)
  have hylen : (encodeVint f.segmentWidth f.segment.length ++ y).length = 8 := by
    have := congrArg List.length hy
    rw [length_slice, List.length_append] at this
    have hid : segmentId.length = 4 := rfl
    omega
  have hmagic : slice (f.bytes ++ T) 0 4 = ebmlId := by
    rw [File.bytes, List.append_assoc]
    exact slice_append_length ebmlId _
  unfold validate
  simp only [ReadProg.run_bind, ReadProg.run_ite, h.read]
  rw [hmagic, if_neg (not_not.2 rfl), hx, hread _ _ f.header_lt f.headerWidth_pos hheader]
  simp only [ReadProg.run_bind, ReadProg.run_ite, h.read, Option.getD_some]
  rw [hy, List.take_left' (show segmentId.length = 4 from rfl), if_neg (not_not.2 rfl),
    List.drop_left' (show segmentId.length = 4 from rfl), List.take_of_length_le hylen.le,
    hread _ _ f.segment_lt f.segmentWidth_pos hsegment]
  have htotal : 4 + f.headerWidth + f.header.length + 4 + f.segmentWidth + f.segment.length =
      f.bytes.length := by
    rw [File.length_bytes]
    omega
  dsimp only [ReadProg.run_pure]
  rw [htotal]

/-- **Which sizes are read right**: of any value in any width, and of the two of a file, those that
take fewer than eight bytes; and then the length is exact, if the file is there. -/
theorem vint_exact_iff (w v : ℕ) (R : Reader) (ctx : Ctx) (f : File) (T : Bytes) :
    (1 ≤ w → w ≤ 8 → v < 2 ^ (7 * w) → (Decodes w v ↔ w < 8)) ∧
    (ctx.Sees R (f.bytes ++ T) →
      ((Decodes f.headerWidth f.header.length ∧ Decodes f.segmentWidth f.segment.length ∧
        ((validate ctx).run R).IsFull f.bytes.length) ↔
      f.headerWidth < 8 ∧ f.segmentWidth < 8 ∧ f.bytes.length ≤ ctx.available)) := by
  refine ⟨fun hw hw8 hv => decodes_iff hw hw8 hv, fun h => ?_⟩
  have hheader := f.header_lt
  have hsegment := f.segment_lt
  rw [decodes_iff f.headerWidth_pos f.headerWidth_le (by omega),
    decodes_iff f.segmentWidth_pos f.segmentWidth_le (by omega)]
  refine and_congr_right fun h1 => and_congr_right fun h2 => ?_
  rw [run_validate_narrow h h1 h2]
  split
  · rename_i hle
    exact iff_of_true (isFull_verdict.2 ⟨rfl, rfl⟩) hle
  · rename_i hlt
    exact iff_of_false (fun hf => absurd (isFull_verdict.1 hf).1 (by decide)) hlt

/-- `video.mkv` of the catalog. -/
def sig : SigDef where
  id := "video.mkv"
  family := "video"
  extensions := ["mkv", "webm", "mka"]
  headers := [.exact 0 ebmlId]
  footer := none
  minSize := 32
  strategy := .structural
  validator := some "mkv"
  blockAligned := true
  footerAnchored := false

/-- A file of four bytes of header and two of Segment, its size in as many bytes as given. -/
def smallFile (width : ℕ) (hw : 2 ≤ width ∧ width ≤ 8) : File where
  headerWidth := 1
  header := [0, 0, 0, 0]
  segmentWidth := width
  segment := [1, 2]
  headerWidth_pos := le_rfl
  headerWidth_le := by omega
  header_lt := by decide
  segmentWidth_pos := by omega
  segmentWidth_le := hw.2
  segment_lt := by
    have hpow : 2 ^ (7 * 2) ≤ 2 ^ (7 * width) := Nat.pow_le_pow_right (by omega) (by omega)
    have htwo : ([1, 2] : Bytes).length = 2 := rfl
    omega

lemma seven_fits : 2 ≤ 7 ∧ 7 ≤ 8 := by omega

lemma eight_fits : 2 ≤ 8 ∧ 8 ≤ 8 := by omega

lemma smallFile_sees (width : ℕ) (hw : 2 ≤ width ∧ width ≤ 8) :
    Ctx.Sees ⟨15 + width, 0, 1000, sig⟩ (memReader ((smallFile width hw).bytes ++ []))
      ((smallFile width hw).bytes ++ []) := by
  have hlen : ((smallFile width hw).bytes ++ []).length = 15 + width := by
    rw [List.append_nil, File.length_bytes]
    show 8 + 1 + 4 + width + 2 = 15 + width
    omega
  refine Ctx.sees (memReader_reads _) hlen.symm (hlen ▸ ?_)
  have hu64 : u64Max = 2 ^ 64 - 1 := rfl
  omega

/-- A size of seven bytes is read right. -/
theorem vint_exact_seven :
    ((validate ⟨22, 0, 1000, sig⟩).run
      (memReader ((smallFile 7 seven_fits).bytes ++ []))).IsFull 22 := by
  have hlen : (smallFile 7 seven_fits).bytes.length = 22 := by rw [File.length_bytes]; rfl
  have hthere : (smallFile 7 seven_fits).bytes.length ≤
      Ctx.available ⟨22, 0, 1000, sig⟩ := by
    rw [hlen]
    decide
  have hexact := ((vint_exact_iff 1 0 _ _ _ _).2 (smallFile_sees 7 seven_fits)).2
    ⟨by decide, by decide, hthere⟩
  rw [hlen] at hexact
  exact hexact.2.2

/-- A size of eight bytes is not: the marker stays in the value, the unknown size is not recognised,
and the file is taken for a truncated one. -/
theorem eightBytes_counterexample :
    readVint (encodeVint 8 2) = some (some (2 ^ 56 + 2), 8) ∧
    readVint (encodeVint 8 (2 ^ 56 - 1)) = some (some (2 ^ 57 - 1), 8) ∧
    ((validate ⟨23, 0, 1000, sig⟩).run
      (memReader ((smallFile 8 eight_fits).bytes ++ []))).validity = .truncated := by
  refine ⟨?_, ?_, ?_⟩
  · decide
  · decide
  · decide

end Exact

end Mkv
end Reclaim
