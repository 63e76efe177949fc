import Reclaim.Fs.NtfsResident

/-!
# Protected records

A record is protected by putting a sequence number at the end of every stride and what was there in
an array.  The fix-up undoes that.  It does not compare the stride ends with the sequence number, so
a record of which a stride was not written is parsed like any other.
-/

namespace Reclaim
namespace Ntfs

open FileBytes

/-! ## Protecting a record -/

variable (lo hi : UInt8) (r : Bytes)

/-- How many strides the array has place for, of those that the record has. -/
def strideCount : ℕ := min (leU16 r 6 - 1) (r.length / 512)

/-- A byte is at the end of a stride that is protected. -/
def AtEnd (p : ℕ) : Prop := p / 512 < strideCount r ∧ 510 ≤ p % 512

/-- A byte is in the array, which has the sequence number first. -/
def InArray (p : ℕ) : Prop := leU16 r 4 ≤ p ∧ p < leU16 r 4 + 2 * (strideCount r + 1)

instance : DecidablePred (AtEnd r) := fun _ => inferInstanceAs (Decidable (_ ∧ _))

instance : DecidablePred (InArray r) := fun _ => inferInstanceAs (Decidable (_ ∧ _))

/-- A byte of the array: the sequence number, and then the stride ends. -/
def arrayEntry (j : ℕ) : UInt8 :=
  if j = 0 then lo else if j = 1 then hi else byteAt r ((j / 2 - 1) * 512 + 510 + j % 2)

/-- The record with its array. -/
def withArray : Bytes :=
  (List.range r.length).map fun p =>
    if InArray r p then arrayEntry lo hi r (p - leU16 r 4) else byteAt r p

/-- The record as it is stored. -/
def protect : Bytes :=
  (List.range r.length).map fun p =>
    if AtEnd r p then (if p % 2 = 0 then lo else hi) else byteAt (withArray lo hi r) p

/-- The array lies in the record behind its header, and at no end of a stride. -/
structure ArrayPlaced : Prop where
  behind : 8 ≤ leU16 r 4
  inside : leU16 r 4 + leU16 r 6 * 2 ≤ r.length
  apart : ∀ p, AtEnd r p → ¬ InArray r p

variable {lo hi r} {p : ℕ}

@[simp] lemma length_withArray : (withArray lo hi r).length = r.length := by simp [withArray]

@[simp] lemma length_protect : (protect lo hi r).length = r.length := by simp [protect]

lemma byteAt_withArray (hp : p < r.length) : byteAt (withArray lo hi r) p =
    if InArray r p then arrayEntry lo hi r (p - leU16 r 4) else byteAt r p := by
  simp [withArray, byteAt, List.getD_eq_getElem?_getD, hp]

lemma byteAt_protect (hp : p < r.length) : byteAt (protect lo hi r) p =
    if AtEnd r p then (if p % 2 = 0 then lo else hi) else byteAt (withArray lo hi r) p := by
  simp [protect, byteAt, List.getD_eq_getElem?_getD, hp]

/-- Two bytes that are the same are the same field. -/
lemma leU16_congr {b c : Bytes} {off off' : ℕ} (hb : off + 2 ≤ b.length) (hc : off' + 2 ≤ c.length)
    (h : ∀ i < 2, byteAt b (off + i) = byteAt c (off' + i)) : leU16 b off = leU16 c off' := by
  have hbytes : (b.drop off).take 2 = (c.drop off').take 2 := by
    apply ext_byteAt (by simp; omega)
    intro i hi
    rw [List.length_take] at hi
    rw [byteAt_take, byteAt_take, byteAt_drop, byteAt_drop, h i (by omega)]
  rw [leU16, leU16, leField, leField, if_pos hb, if_pos hc, hbytes]

lemma takeWhile_range {f : ℕ → Bool} {n : ℕ} (m : ℕ) (h : ∀ k < m, f k = true ↔ k < n) :
    (List.range m).takeWhile f = List.range (min m n) := by
  induction m with
  | zero => rw [Nat.zero_min]; rfl
  | succ m ih =>
    have hih := ih fun k hk => h k (by omega)
    rw [List.range_succ, List.takeWhile_append, hih, List.length_range, List.length_range]
    by_cases hm : m < n
    · rw [if_pos (min_eq_left hm.le), List.takeWhile_cons_of_pos ((h m (by omega)).2 hm),
        min_eq_left hm, List.range_succ]
      rfl
    · rw [not_lt] at hm
      rw [min_eq_right hm, min_eq_right (hm.trans (Nat.le_succ m))]
      split
      · rename_i heq
        subst heq
        rw [List.takeWhile_cons_of_neg (fun hf => absurd ((h n (by omega)).1 hf) (lt_irrefl n)),
          List.append_nil]
      · rfl

/-- The ends of the strides are where the strides are protected. -/
lemma atEnd_iff : AtEnd r p ↔ ∃ k < strideCount r, ∃ i < 2, p = k * 512 + 510 + i := by
  unfold AtEnd
  constructor
  · rintro ⟨hk, hi⟩
    exact ⟨p / 512, hk, p % 512 - 510, by omega, by omega⟩
  · rintro ⟨k, hk, i, hi2, rfl⟩
    omega

/-- The strides that are protected lie in the record. -/
lemma stride_le {k : ℕ} (hk : k < strideCount r) : k * 512 + 512 ≤ (protect lo hi r).length := by
  have hfit : strideCount r ≤ r.length / 512 := min_le_right ..
  rw [length_protect]
  omega

section Placed

variable (h : ArrayPlaced r)
include h

lemma byteAt_header (hp : p < 8) : byteAt (protect lo hi r) p = byteAt r p := by
  have hbehind := h.behind
  have hinside := h.inside
  have hend : ¬ AtEnd r p := fun ⟨_, hp'⟩ => by omega
  have harray : ¬ InArray r p := fun ⟨hp', _⟩ => by omega
  rw [byteAt_protect (by omega), if_neg hend, byteAt_withArray (by omega), if_neg harray]

/-- The header's fields are kept. -/
lemma leU16_header {off : ℕ} (hoff : off + 2 ≤ 8) :
    leU16 (protect lo hi r) off = leU16 r off := by
  have hbehind := h.behind
  have hinside := h.inside
  apply leU16_congr (by rw [length_protect]; omega) (by omega)
  intro i hi
  exact byteAt_header h (by omega)

/-- The strides that are protected are restored. -/
lemma restored_protect : restored (protect lo hi r) = List.range (strideCount r) := by
  have hinside := h.inside
  unfold restored strides strideCount
  rw [leU16_header h (by omega), leU16_header h (by omega), length_protect]
  split
  · rename_i hnone
    have hzero : min (leU16 r 6 - 1) (r.length / 512) = 0 := by omega
    rw [hzero]
    rfl
  · apply takeWhile_range _
    intro k hk
    rw [decide_eq_true_iff]
    omega

/-- What the array has for the end of a stride is what was there. -/
lemma arrayByte_protect {k i : ℕ} (hk : k < strideCount r) (hi2 : i < 2) :
    arrayByte (protect lo hi r) k i = byteAt r (k * 512 + 510 + i) := by
  have hoff : leU16 (protect lo hi r) 4 = leU16 r 4 := leU16_header h (by omega)
  have hinside := h.inside
  have hstrides : strideCount r ≤ leU16 r 6 - 1 := min_le_left ..
  obtain ⟨p, hp⟩ : ∃ p, p = leU16 r 4 + 2 + k * 2 + i := ⟨_, rfl⟩
  have harray : InArray r p := by
    unfold InArray
    omega
  have hend : ¬ AtEnd r p := fun hend => h.apart p hend harray
  have hentry : arrayEntry lo hi r (p - leU16 r 4) = byteAt r (k * 512 + 510 + i) := by
    unfold arrayEntry
    rw [if_neg (by omega), if_neg (by omega)]
    exact congrArg (byteAt r) (by omega)
  have hkept := (byteAt_foldl_restoreStride (protect lo hi r) k fun j hj =>
    stride_le (hj.trans hk)).2 p fun j hj i hi2 heq =>
      hend (atEnd_iff.2 ⟨j, hj.trans hk, i, hi2, heq⟩)
  rw [hoff] at hkept
  rw [arrayByte, hoff, ← hp, hkept, byteAt_protect (by omega), if_neg hend,
    byteAt_withArray (by omega), if_pos harray, hentry]

/-- **The fix-up restores a protected record.** -/
lemma applyFixup_protect : applyFixup (protect lo hi r) = withArray lo hi r := by
  obtain ⟨hends, hrest⟩ := byteAt_foldl_restoreStride (protect lo hi r) (strideCount r)
    fun k hk => stride_le hk
  have hfix : applyFixup (protect lo hi r) = (List.range (strideCount r)).foldl
      (restoreStride (leU16 (protect lo hi r) 4)) (protect lo hi r) := by
    rw [applyFixup_eq, restored_protect h]
  apply ext_byteAt (by simp)
  intro p hp
  rw [length_applyFixup, length_protect] at hp
  rw [hfix]
  by_cases hend : AtEnd r p
  · obtain ⟨k, hk, i, hi2, heq⟩ := atEnd_iff.1 hend
    have hread := (hends k hk i hi2).trans (arrayByte_protect h hk hi2)
    rw [← heq] at hread
    rw [hread, byteAt_withArray hp, if_neg (h.apart p hend)]
  · have hkept := hrest p fun k hk i hi2 heq => hend (atEnd_iff.2 ⟨k, hk, i, hi2, heq⟩)
    rw [hkept, byteAt_protect hp, if_neg hend]

end Placed

/-! ## Torn records -/

/-- The end of a stride does not carry the sequence number. -/
def Torn (b : Bytes) : Prop := ∃ k < b.length / 512, leU16 b (k * 512 + 510) ≠ leU16 b (leU16 b 4)

/-- A protected record is not torn, if all its strides are protected. -/
lemma not_torn_protect (h : ArrayPlaced r) (hall : r.length / 512 ≤ leU16 r 6 - 1)
    (hpos : 2 ≤ leU16 r 6) : ¬ Torn (protect lo hi r) := by
  have hinside := h.inside
  have hoff : leU16 (protect lo hi r) 4 = leU16 r 4 := leU16_header h (by omega)
  rintro ⟨k, hk, hne⟩
  rw [length_protect] at hk
  rw [hoff] at hne
  have hstride : k < strideCount r := lt_min (hk.trans_le hall) hk
  refine hne (leU16_congr (by rw [length_protect]; omega) (by rw [length_protect]; omega) ?_)
  intro i hi2
  have hend : AtEnd r (k * 512 + 510 + i) := atEnd_iff.2 ⟨k, hstride, i, hi2, rfl⟩
  have harray : InArray r (leU16 r 4 + i) := by
    unfold InArray
    omega
  have hapart : ¬ AtEnd r (leU16 r 4 + i) := fun hend => h.apart _ hend harray
  rw [byteAt_protect (by omega), if_pos hend, byteAt_protect (by omega), if_neg hapart,
    byteAt_withArray (by omega), if_pos harray, Nat.add_sub_cancel_left]
  interval_cases i
  · exact if_pos (by omega)
  · exact if_neg (by omega)

/-- **The fix-up.**  A record is restored from its protected form, which is not torn; and a torn one
is not parsed exactly if it does not begin like a record. -/
theorem fixup_exact (r b : Bytes) (lo hi : UInt8) :
    (ArrayPlaced r →
      applyFixup (protect lo hi r) = withArray lo hi r ∧
        (∀ p < r.length, ¬ InArray r p → byteAt (applyFixup (protect lo hi r)) p = byteAt r p) ∧
        (2 ≤ leU16 r 6 → r.length / 512 ≤ leU16 r 6 - 1 → ¬ Torn (protect lo hi r))) ∧
    ((Torn b → MftRecord.parse b = none) ↔ ¬ Torn b ∨ b.take 4 ≠ fileMagic) := by
  refine ⟨fun h => ⟨applyFixup_protect h, fun p hp harray => ?_, fun hpos hall => ?_⟩, ?_⟩
  · rw [applyFixup_protect h, byteAt_withArray hp, if_neg harray]
  · exact not_torn_protect h hall hpos
  · have hparse : MftRecord.parse b = none ↔ b.take 4 ≠ fileMagic := by
      unfold MftRecord.parse
      split
      · rename_i hmagic
        exact iff_of_false (Option.some_ne_none _) (not_not_intro hmagic)
      · rename_i hmagic
        exact iff_of_true rfl hmagic
    rw [hparse]
    exact imp_iff_not_or

/-- The beginning of a record of one stride, with its array at 48. -/
def strideHead (usn : UInt8) : Bytes :=
  fileMagic ++ [48, 0, 2, 0] ++ List.replicate 40 0 ++ [usn, 0, 0x41, 0x42]

/-- A record of one stride with two bytes at its end. -/
def strideRecord (usn x y : UInt8) : Bytes :=
  strideHead usn ++ (List.replicate 458 0 ++ [x, y])

lemma length_strideRecord (usn x y : UInt8) : (strideRecord usn x y).length = 512 := by
  have hhead : (strideHead usn).length = 52 := rfl
  rw [strideRecord, List.length_append, List.length_append, List.length_replicate, hhead]
  rfl

lemma leU16_strideRecord {usn x y : UInt8} {off : ℕ} (hoff : off + 2 ≤ 52) :
    leU16 (strideRecord usn x y) off = leU16 (strideHead usn) off :=
  leField_append hoff _

lemma byteAt_strideRecord {usn x y : UInt8} (i : ℕ) :
    byteAt (strideRecord usn x y) (510 + i) = byteAt [x, y] i := by
  have hhead : (strideHead usn).length = 52 := rfl
  rw [strideRecord, byteAt_append, hhead, if_neg (by omega), byteAt_append, List.length_replicate,
    if_neg (by omega)]
  exact congrArg (byteAt [x, y]) (by omega)

lemma arrayPlaced_strideRecord {usn x y : UInt8} : ArrayPlaced (strideRecord usn x y) := by
  have hoff : leU16 (strideRecord usn x y) 4 = 48 := leU16_strideRecord (by omega)
  have hcount : leU16 (strideRecord usn x y) 6 = 2 := leU16_strideRecord (by omega)
  have hlen := length_strideRecord usn x y
  refine ⟨by omega, by omega, fun p hend harray => ?_⟩
  unfold AtEnd strideCount at hend
  unfold InArray strideCount at harray
  omega

/-- A record of one stride is restored. -/
theorem fixup_exact_stride :
    let b := protect 7 0 (strideRecord 0 0x41 0x42)
    byteAt (applyFixup b) 510 = 0x41 ∧ byteAt (applyFixup b) 511 = 0x42 ∧ ¬ Torn b := by
  have hlen := length_strideRecord 0 0x41 0x42
  have hoff : leU16 (strideRecord 0 0x41 0x42) 4 = 48 := leU16_strideRecord (by omega)
  have hcount : leU16 (strideRecord 0 0x41 0x42) 6 = 2 := leU16_strideRecord (by omega)
  obtain ⟨-, hkept, htorn⟩ := (fixup_exact (strideRecord 0 0x41 0x42) [] 7 0).1
    arrayPlaced_strideRecord
  have harray : ∀ p, 510 ≤ p → ¬ InArray (strideRecord 0 0x41 0x42) p := fun p hp h => by
    unfold InArray strideCount at h
    omega
  refine ⟨?_, ?_, htorn (by omega) (by omega)⟩
  · rw [hkept 510 (by omega) (harray 510 le_rfl)]
    exact byteAt_strideRecord 0
  · rw [hkept 511 (by omega) (harray 511 (by omega))]
    exact byteAt_strideRecord 1

/-- A record whose stride end has other bytes than the sequence number 7 is parsed. -/
theorem torn_counterexample :
    Torn (strideRecord 7 9 9) ∧ MftRecord.parse (strideRecord 7 9 9) ≠ none := by
  have hlen := length_strideRecord 7 9 9
  have hoff : leU16 (strideRecord 7 9 9) 4 = 48 := leU16_strideRecord (by omega)
  have husn : leU16 (strideRecord 7 9 9) 48 = 7 := leU16_strideRecord (by omega)
  have hend : leU16 (strideRecord 7 9 9) 510 = leU16 [9, 9] 0 := by
    apply leU16_congr (by omega) (by decide)
    intro i _
    rw [byteAt_strideRecord, Nat.zero_add]
  refine ⟨⟨0, by omega, ?_⟩, ?_⟩
  · rw [hoff, husn, Nat.zero_mul, Nat.zero_add, hend]
    decide
  · unfold MftRecord.parse
    rw [if_pos]
    · exact Option.some_ne_none _
    · rfl

end Ntfs
end Reclaim
