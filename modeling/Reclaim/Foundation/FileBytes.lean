import Mathlib.Data.List.GetD
import Mathlib.Tactic

/-!
# Files as byte lists

A regular file is the list of its bytes.  Reading past the end of a file, or in a hole left by a
write beyond the end, gives zero, so every statement about a file's contents is one about
`byteAt`, which is defined at every offset.  `writeAt` and `setLen` are `pwrite` and `ftruncate`;
`slice` is a read that is always filled to its full length.
-/

namespace FileBytes

/-- A string of bytes: the contents of a file, or of a buffer. -/
abbrev Bytes := List UInt8

instance : LawfulBEq Bytes := inferInstance

/-- The byte at an offset, zero past the end. -/
def byteAt (f : Bytes) (x : ℕ) : UInt8 := f.getD x 0

/-- The `n` bytes from `off` on, zero past the end. -/
def slice (f : Bytes) (off n : ℕ) : Bytes := (List.range n).map fun k => byteAt f (off + k)

/-- The file extended with zeros to at least `n` bytes. -/
def padded (f : Bytes) (n : ℕ) : Bytes := f ++ List.replicate (n - f.length) 0

/-- Write `d` at `off`, filling a gap before it with zeros; an empty write changes nothing. -/
def writeAt (f : Bytes) (off : ℕ) (d : Bytes) : Bytes :=
  if d = [] then f else (padded f off).take off ++ d ++ f.drop (off + d.length)

/-- Truncate or extend the file to exactly `n` bytes. -/
def setLen (f : Bytes) (n : ℕ) : Bytes := (padded f n).take n

/-! ## Reading -/

lemma byteAt_of_length_le {f : Bytes} {x : ℕ} (h : f.length ≤ x) : byteAt f x = 0 :=
  List.getD_eq_default _ _ h

@[simp] lemma byteAt_nil (x : ℕ) : byteAt [] x = 0 := by simp [byteAt]

lemma byteAt_append (f g : Bytes) (x : ℕ) :
    byteAt (f ++ g) x = if x < f.length then byteAt f x else byteAt g (x - f.length) := by
  split
  · rename_i h; exact List.getD_append _ _ _ _ h
  · rename_i h; exact List.getD_append_right _ _ _ _ (not_lt.1 h)

@[simp] lemma byteAt_replicate_zero (n x : ℕ) : byteAt (List.replicate n 0) x = 0 := by
  by_cases h : x < n
  · exact List.getD_replicate 0 h
  · exact byteAt_of_length_le (by simpa using h)

lemma byteAt_take (f : Bytes) (n x : ℕ) :
    byteAt (f.take n) x = if x < n then byteAt f x else 0 := by
  split
  · rename_i h; simp [byteAt, h]
  · rename_i h; exact byteAt_of_length_le ((List.length_take_le _ _).trans (not_lt.1 h))

lemma byteAt_drop (f : Bytes) (n x : ℕ) : byteAt (f.drop n) x = byteAt f (n + x) := by
  simp [byteAt, List.getD_eq_getElem?_getD]

@[simp] lemma length_slice (f : Bytes) (off n : ℕ) : (slice f off n).length = n := by
  simp [slice]

lemma byteAt_slice (f : Bytes) (off n k : ℕ) :
    byteAt (slice f off n) k = if k < n then byteAt f (off + k) else 0 := by
  split
  · rename_i h; simp [byteAt, slice, List.getD_eq_getElem?_getD, h]
  · rename_i h; exact byteAt_of_length_le (by simpa using h)

/-- Two byte strings of one length are equal when they agree at every offset. -/
lemma ext_byteAt {f g : Bytes} (hlen : f.length = g.length)
    (h : ∀ x < f.length, byteAt f x = byteAt g x) : f = g := by
  apply List.ext_getElem hlen
  intro x hx hx'
  have hb := h x hx
  rwa [byteAt, byteAt, List.getD_eq_getElem _ _ hx, List.getD_eq_getElem _ _ hx'] at hb

/-- A shorter slice is the beginning of a longer one. -/
lemma take_slice (f : Bytes) (off : ℕ) {n m : ℕ} (h : n ≤ m) :
    (slice f off m).take n = slice f off n := by
  apply ext_byteAt (by rw [List.length_take, length_slice, length_slice]; omega)
  intro k hk
  rw [List.length_take, length_slice] at hk
  rw [byteAt_take, byteAt_slice, byteAt_slice, if_pos (by omega), if_pos (by omega),
    if_pos (by omega)]

/-- A slice in two parts. -/
lemma slice_add (f : Bytes) (off n m : ℕ) :
    slice f off (n + m) = slice f off n ++ slice f (off + n) m := by
  apply ext_byteAt (by simp)
  intro k hk
  rw [length_slice] at hk
  rw [byteAt_append, length_slice, byteAt_slice, byteAt_slice, byteAt_slice, if_pos hk]
  split
  · rfl
  · rw [if_pos (by omega)]
    congr 1
    omega

/-- The bytes between two others. -/
lemma slice_between (before f after : Bytes) :
    slice (before ++ f ++ after) before.length f.length = f := by
  apply ext_byteAt (by simp)
  intro k hk
  rw [length_slice] at hk
  rw [byteAt_slice, if_pos hk, byteAt_append, List.length_append, if_pos (by omega), byteAt_append,
    if_neg (by omega), Nat.add_sub_cancel_left]

/-- A slice depends only on the bytes it covers. -/
lemma slice_congr {f g : Bytes} {off n : ℕ}
    (h : ∀ x, off ≤ x → x < off + n → byteAt f x = byteAt g x) : slice f off n = slice g off n := by
  apply List.map_congr_left
  intro k hk
  have hk := List.mem_range.1 hk
  exact h (off + k) (by omega) (by omega)

lemma slice_eq_iff {f g : Bytes} {off n : ℕ} :
    slice f off n = slice g off n ↔ ∀ x, off ≤ x → x < off + n → byteAt f x = byteAt g x := by
  refine ⟨fun h x hx hx' => ?_, slice_congr⟩
  have hb := congrArg (byteAt · (x - off)) h
  simp only [byteAt_slice, if_pos (show x - off < n by omega)] at hb
  rwa [show off + (x - off) = x by omega] at hb

/-- A slice that spells `d` reads `d` byte by byte. -/
lemma slice_eq_of_byteAt {f d : Bytes} {off : ℕ}
    (h : ∀ k < d.length, byteAt f (off + k) = byteAt d k) : slice f off d.length = d := by
  apply ext_byteAt (by simp)
  intro k hk
  have hk : k < d.length := by simpa using hk
  rw [byteAt_slice, if_pos hk, h k hk]

/-- A slice of zeros. -/
lemma slice_eq_replicate {f : Bytes} {off n : ℕ}
    (h : ∀ x, off ≤ x → x < off + n → byteAt f x = 0) : slice f off n = List.replicate n 0 := by
  apply ext_byteAt (by simp)
  intro k hk
  have hk : k < n := by simpa using hk
  rw [byteAt_slice, if_pos hk, h _ (by omega) (by omega), byteAt_replicate_zero]

/-! ## Writing -/

@[simp] lemma length_padded (f : Bytes) (n : ℕ) : (padded f n).length = max f.length n := by
  simp only [padded, List.length_append, List.length_replicate]
  omega

@[simp] lemma byteAt_padded (f : Bytes) (n x : ℕ) : byteAt (padded f n) x = byteAt f x := by
  rw [padded, byteAt_append]
  split
  · rfl
  · rename_i h; rw [byteAt_replicate_zero, byteAt_of_length_le (not_lt.1 h)]

@[simp] lemma writeAt_nil (f : Bytes) (off : ℕ) : writeAt f off [] = f := by simp [writeAt]

/-- **A write changes the bytes it covers and no others.** -/
lemma byteAt_writeAt (f d : Bytes) (off x : ℕ) :
    byteAt (writeAt f off d) x =
      if off ≤ x ∧ x < off + d.length then byteAt d (x - off) else byteAt f x := by
  by_cases hd : d = []
  · subst hd; simp
  have hhead : ((padded f off).take off).length = off := by simp
  rw [writeAt, if_neg hd, byteAt_append, byteAt_append, List.length_append, hhead, byteAt_take,
    byteAt_padded, byteAt_drop]
  by_cases h1 : x < off
  · rw [if_pos (by omega), if_pos h1, if_pos h1, if_neg (by omega)]
  · by_cases h2 : x < off + d.length
    · rw [if_pos h2, if_neg h1, if_pos ⟨by omega, h2⟩]
    · rw [if_neg h2, if_neg (by omega), show off + d.length + (x - (off + d.length)) = x by omega]

lemma length_writeAt (f d : Bytes) (off : ℕ) (hd : d ≠ []) :
    (writeAt f off d).length = max f.length (off + d.length) := by
  simp only [writeAt, if_neg hd, List.length_append, List.length_take, length_padded,
    List.length_drop]
  omega

lemma slice_writeAt_self (f d : Bytes) (off : ℕ) : slice (writeAt f off d) off d.length = d :=
  slice_eq_of_byteAt fun k hk => by
    rw [byteAt_writeAt, if_pos ⟨by omega, by omega⟩, show off + k - off = k by omega]

/-- A slice outside a write reads what it read before. -/
lemma slice_writeAt_of_disjoint {f d : Bytes} {off a n : ℕ}
    (h : a + n ≤ off ∨ off + d.length ≤ a) : slice (writeAt f off d) a n = slice f a n :=
  slice_congr fun x hx hx' => by rw [byteAt_writeAt, if_neg (by omega)]

@[simp] lemma length_setLen (f : Bytes) (n : ℕ) : (setLen f n).length = n := by
  simp [setLen]

@[simp] lemma byteAt_setLen (f : Bytes) (n x : ℕ) :
    byteAt (setLen f n) x = if x < n then byteAt f x else 0 := by
  rw [setLen, byteAt_take, byteAt_padded]

/-- Setting the length leaves every slice below the new length alone. -/
lemma slice_setLen {f : Bytes} {off n len : ℕ} (h : off + n ≤ len) :
    slice (setLen f len) off n = slice f off n :=
  slice_congr fun x _ hx' => by rw [byteAt_setLen, if_pos (by omega)]

/-- A read that stops at the end of the file and is then zero-filled is a slice. -/
lemma take_drop_padded (f : Bytes) (off n : ℕ) :
    (f.drop off).take n ++ List.replicate (n - ((f.drop off).take n).length) 0 =
      slice f off n := by
  refine ext_byteAt ?_ fun k hk => ?_
  · simp only [List.length_append, List.length_take, List.length_drop, List.length_replicate,
      length_slice]
    omega
  · have hkn : k < n := by
      simp only [List.length_append, List.length_take, List.length_drop,
        List.length_replicate] at hk
      omega
    rw [byteAt_slice, if_pos hkn, byteAt_append]
    split
    · rw [byteAt_take, if_pos hkn, byteAt_drop]
    · rename_i h
      have hlen : f.length ≤ off + k := by
        simp only [List.length_take, List.length_drop] at h
        omega
      rw [byteAt_replicate_zero, byteAt_of_length_le hlen]

/-- Bytes that are laid out block by block, every block full but perhaps the last. -/
lemma byteAt_flatMap_blocks {b N : ℕ} (hb : 0 < b) (g : ℕ → Bytes) (n : ℕ)
    (hg : ∀ i < n, (g i).length = min (N - i * b) b) :
    ((List.range n).flatMap g).length = min N (n * b) ∧
      ∀ x < min N (n * b), byteAt ((List.range n).flatMap g) x = byteAt (g (x / b)) (x % b) := by
  induction n with
  | zero => simp
  | succ n ih =>
    obtain ⟨hlen, hbytes⟩ := ih fun i hi => hg i (Nat.lt_succ_of_lt hi)
    have hn := hg n (Nat.lt_succ_self n)
    have hmul : (n + 1) * b = n * b + b := by rw [Nat.add_mul, Nat.one_mul]
    rw [List.range_succ, List.flatMap_append, List.flatMap_singleton, hmul]
    refine ⟨by rw [List.length_append, hlen, hn]; omega, fun x hx => ?_⟩
    rw [byteAt_append, hlen]
    split
    · rename_i hlt
      exact hbytes x hlt
    · rename_i hge
      have hdiv : x / b = n := by
        rw [Nat.div_eq_iff hb]
        omega
      have hmod := Nat.div_add_mod' x b
      rw [hdiv] at hmod
      rw [hdiv]
      congr 1
      omega

end FileBytes
