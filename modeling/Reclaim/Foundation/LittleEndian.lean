import Reclaim.Foundation.FileBytes

/-!
# Little-endian and big-endian fields

The parsers read fixed-width fields out of a buffer, and zero where the buffer ends before.
-/

namespace Reclaim

open FileBytes

/-- `n` bytes from `off`, if the buffer has them. -/
def getRange (b : Bytes) (off n : ℕ) : Option Bytes :=
  if off + n ≤ b.length then some ((b.drop off).take n) else none

/-- The number that the bytes are, the lowest first. -/
def leValue (b : Bytes) : ℕ := b.foldr (fun x n => x.toNat + 256 * n) 0

/-- A field of `n` bytes; zero if it does not lie in the buffer. -/
def leField (n : ℕ) (b : Bytes) (off : ℕ) : ℕ :=
  if off + n ≤ b.length then leValue ((b.drop off).take n) else 0

/-- `le_u16`. -/
def leU16 (b : Bytes) (off : ℕ) : ℕ := leField 2 b off

/-- `le_u32`. -/
def leU32 (b : Bytes) (off : ℕ) : ℕ := leField 4 b off

/-- `le_u64`. -/
def leU64 (b : Bytes) (off : ℕ) : ℕ := leField 8 b off

/-- A field of `n` bytes, the highest first; zero if it does not lie in the buffer. -/
def beField (n : ℕ) (b : Bytes) (off : ℕ) : ℕ :=
  if off + n ≤ b.length then leValue ((b.drop off).take n).reverse else 0

/-- `be_u16`. -/
def beU16 (b : Bytes) (off : ℕ) : ℕ := beField 2 b off

/-- `be_u32`. -/
def beU32 (b : Bytes) (off : ℕ) : ℕ := beField 4 b off

/-- `be_u64`. -/
def beU64 (b : Bytes) (off : ℕ) : ℕ := beField 8 b off

/-- A field of `n` bytes, the lowest first, if it lies in the buffer. -/
def getLe (n : ℕ) (b : Bytes) (off : ℕ) : Option ℕ := (getRange b off n).map leValue

/-- A field of `n` bytes, the highest first, if it lies in the buffer. -/
def getBe (n : ℕ) (b : Bytes) (off : ℕ) : Option ℕ :=
  (getRange b off n).map fun f => leValue f.reverse

lemma leValue_lt (b : Bytes) : leValue b < 256 ^ b.length := by
  induction b with
  | nil => exact Nat.one_pos
  | cons x b ih =>
    have hcons : leValue (x :: b) = x.toNat + 256 * leValue b := rfl
    have := x.toNat_lt
    rw [hcons, List.length_cons, Nat.pow_succ]
    omega

lemma leField_lt (n : ℕ) (b : Bytes) (off : ℕ) : leField n b off < 256 ^ n := by
  unfold leField
  split
  · refine (leValue_lt _).trans_le (Nat.pow_le_pow_right (by omega) ?_)
    exact List.length_take_le ..
  · exact Nat.pow_pos (by omega)

lemma beField_lt (n : ℕ) (b : Bytes) (off : ℕ) : beField n b off < 256 ^ n := by
  unfold beField
  split
  · refine (leValue_lt _).trans_le (Nat.pow_le_pow_right (by omega) ?_)
    rw [List.length_reverse]
    exact List.length_take_le ..
  · exact Nat.pow_pos (by omega)

lemma leU16_lt (b : Bytes) (off : ℕ) : leU16 b off < 2 ^ 16 := leField_lt 2 b off

lemma leU32_lt (b : Bytes) (off : ℕ) : leU32 b off < 2 ^ 32 := leField_lt 4 b off

lemma leU64_lt (b : Bytes) (off : ℕ) : leU64 b off < 2 ^ 64 := leField_lt 8 b off

/-- A field that lies in a buffer is the same in a longer one. -/
lemma leField_append {n : ℕ} {b : Bytes} {off : ℕ} (h : off + n ≤ b.length) (c : Bytes) :
    leField n (b ++ c) off = leField n b off := by
  have hlong : off + n ≤ (b ++ c).length := by
    rw [List.length_append]
    omega
  unfold leField
  rw [if_pos h, if_pos hlong, List.drop_append_of_le_length (by omega),
    List.take_append_of_le_length (by rw [List.length_drop]; omega)]

/-- A range of a range that was read. -/
lemma getRange_getRange {b t : Bytes} {off n i k : ℕ} (h : getRange b off n = some t)
    (hk : i + k ≤ n) : getRange t i k = getRange b (off + i) k := by
  unfold getRange at h ⊢
  by_cases hin : off + n ≤ b.length
  · rw [if_pos hin] at h
    obtain rfl := Option.some.inj h
    have hlen : ((b.drop off).take n).length = n := by
      rw [List.length_take, List.length_drop]
      omega
    rw [if_pos (by omega), if_pos (by omega), List.drop_take, List.take_take, List.drop_drop,
      min_eq_left (by omega)]
  · rw [if_neg hin] at h
    cases h

lemma getBe_getD (n : ℕ) (b : Bytes) (off : ℕ) : (getBe n b off).getD 0 = beField n b off := by
  unfold getBe getRange beField
  split
  · rfl
  · rfl

/-! ## Writing fields -/

/-- `n` in `len` bytes, the highest first. -/
def beBytes : ℕ → ℕ → Bytes
  | 0, _ => []
  | len + 1, n => beBytes len (n / 256) ++ [UInt8.ofNat n]

lemma beBytes_succ (len n : ℕ) :
    beBytes (len + 1) n = beBytes len (n / 256) ++ [UInt8.ofNat n] := rfl

@[simp] lemma length_beBytes (len n : ℕ) : (beBytes len n).length = len := by
  induction len generalizing n with
  | zero => rfl
  | succ len ih => rw [beBytes_succ, List.length_append, ih, List.length_singleton]

lemma leValue_cons (x : UInt8) (b : Bytes) : leValue (x :: b) = x.toNat + 256 * leValue b := rfl

/-- A number that fits is read back. -/
lemma leValue_beBytes (len : ℕ) : ∀ n < 256 ^ len, leValue (beBytes len n).reverse = n := by
  induction len with
  | zero =>
    intro n hn
    rw [pow_zero, Nat.lt_one_iff] at hn
    rw [hn]
    rfl
  | succ len ih =>
    intro n hn
    rw [Nat.pow_succ] at hn
    rw [beBytes_succ, List.reverse_append, List.reverse_singleton, List.singleton_append,
      leValue_cons, ih (n / 256) (by omega), UInt8.toNat_ofNat']
    omega

/-- Bytes are those of the number they are. -/
lemma beBytes_leValue (b : Bytes) : beBytes b.length (leValue b.reverse) = b := by
  induction b using List.reverseRecOn with
  | nil => rfl
  | append_singleton b x ih =>
    have hx := x.toNat_lt
    rw [List.reverse_append, List.reverse_singleton, List.singleton_append, leValue_cons,
      List.length_append, List.length_singleton, beBytes_succ,
      show (x.toNat + 256 * leValue b.reverse) / 256 = leValue b.reverse by omega, ih]
    congr 2
    apply UInt8.toNat.inj
    rw [UInt8.toNat_ofNat']
    omega

end Reclaim
