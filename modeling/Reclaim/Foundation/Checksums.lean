import Mathlib.Data.ZMod.Basic
import Mathlib.Tactic

/-!
# Fletcher checksums

Two sums run over a list of words: the sum of the words, and the sum of all sums up to there.  A
word that is changed changes the first sum by as much, whatever is behind it, so both sums modulo
`M` stay the same only if the word does.
-/

namespace Fletcher

variable {R : Type} [AddCommMonoid R]

/-- Both sums, with one word more. -/
def add (s : R × R) (w : R) : R × R := (s.1 + w, s.2 + (s.1 + w))

/-- The first sum is that of the words. -/
lemma fst_foldl_add (ws : List R) (s : R × R) : (ws.foldl add s).1 = s.1 + ws.sum := by
  induction ws generalizing s with
  | nil => simp
  | cons w ws ih => rw [List.foldl_cons, ih, List.sum_cons, add, add_assoc]

/-- **One word**: the sums stay the same only if it does. -/
lemma foldl_add_change {G : Type} [AddCommGroup G] {before after : List G} {w w' : G} (s : G × G) :
    (before ++ w' :: after).foldl add s = (before ++ w :: after).foldl add s ↔ w' = w := by
  constructor
  · intro h
    have hsum := congrArg Prod.fst h
    rw [fst_foldl_add, fst_foldl_add, List.sum_append, List.sum_append, List.sum_cons,
      List.sum_cons] at hsum
    exact add_right_cancel (add_left_cancel (add_left_cancel hsum))
  · rintro rfl
    rfl

/-! ## Complements -/

section Complement

variable {M a b x y : ℕ}

/-- The complement of a sum, never zero. -/
def complement (M x : ℕ) : ℕ := M - x % M

lemma complement_pos (hM : 0 < M) : 0 < complement M x := Nat.sub_pos_of_lt (Nat.mod_lt x hM)

lemma complement_le : complement M x ≤ M := Nat.sub_le _ _

lemma cast_complement (hM : 0 < M) : (complement M x : ZMod M) = -(x : ZMod M) := by
  rw [complement, Nat.cast_sub (Nat.mod_lt x hM).le, ZMod.natCast_self, zero_sub, ZMod.natCast_mod]

/-- Numbers up to `M` are told apart modulo `M`, but for zero and `M`. -/
lemma cast_eq_cast_iff (ha : a ≤ M) (hb : b ≤ M) :
    (a : ZMod M) = b ↔ a = b ∨ a = 0 ∧ b = M ∨ a = M ∧ b = 0 := by
  rw [ZMod.natCast_eq_natCast_iff]
  constructor
  · intro h
    obtain rfl | ha := ha.eq_or_lt
    · obtain rfl | hb := hb.eq_or_lt
      · exact .inl rfl
      · have hzero : 0 = b := by rw [← Nat.mod_eq_of_lt hb, ← h, Nat.mod_self]
        exact .inr (.inr ⟨rfl, hzero.symm⟩)
    · obtain rfl | hb := hb.eq_or_lt
      · have hzero : a = 0 := by rw [← Nat.mod_eq_of_lt ha, h, Nat.mod_self]
        exact .inr (.inl ⟨hzero, rfl⟩)
      · exact .inl (h.eq_of_lt_of_lt ha hb)
  · rintro (rfl | ⟨rfl, rfl⟩ | ⟨rfl, rfl⟩)
    · rfl
    · exact (Nat.mod_self b).symm
    · exact Nat.mod_self a

/-- Complements are the same if the sums are. -/
lemma complement_eq_iff (hM : 0 < M) : complement M x = complement M y ↔ (x : ZMod M) = y := by
  rw [← neg_inj (a := (x : ZMod M)), ← cast_complement hM, ← cast_complement hM,
    cast_eq_cast_iff complement_le complement_le]
  have hx := complement_pos (x := x) hM
  have hy := complement_pos (x := y) hM
  omega

end Complement

end Fletcher

/-!
## Cyclic redundancy checks

A reflected check shifts its register right bit by bit and folds the polynomial in whenever a one
falls out.  The step is linear, and a bit above the lowest `n` only moves in `n` steps, so `n` steps
are a table look-up of the lowest `n` bits and a shift (`iterate_step_eq`).
-/

namespace Crc

variable {w : ℕ} (poly : BitVec w)

/-- One bit of the check. -/
def step (c : BitVec w) : BitVec w := if c.getLsbD 0 then poly ^^^ (c >>> 1) else c >>> 1

/-- The lowest `n` bits. -/
def low (n : ℕ) (c : BitVec w) : BitVec w := c &&& BitVec.ofNat w (2 ^ n - 1)

lemma getLsbD_low (n i : ℕ) (c : BitVec w) :
    (low n c).getLsbD i = (c.getLsbD i && decide (i < n)) := by
  rw [low, BitVec.getLsbD_and, BitVec.getLsbD_ofNat, Nat.testBit_two_pow_sub_one]
  by_cases h : i < w
  · simp [h]
  · simp [BitVec.getLsbD_of_ge c i (not_lt.1 h)]

/-- The step is linear. -/
lemma step_xor (x y : BitVec w) : step poly (x ^^^ y) = step poly x ^^^ step poly y := by
  have hcancel : ∀ a b : BitVec w, a ^^^ b = (poly ^^^ a) ^^^ (poly ^^^ b) := by
    intro a b
    calc a ^^^ b = (poly ^^^ poly) ^^^ (a ^^^ b) := by rw [BitVec.xor_self, BitVec.zero_xor]
      _ = (poly ^^^ a) ^^^ (poly ^^^ b) := by ac_rfl
  unfold step
  rw [BitVec.getLsbD_xor, BitVec.ushiftRight_xor_distrib]
  cases x.getLsbD 0 <;> cases y.getLsbD 0
  · simp
  · simp only [Bool.false_xor, if_true, Bool.false_eq_true, if_false]
    ac_rfl
  · simp only [Bool.xor_false, if_true, Bool.false_eq_true, if_false]
    ac_rfl
  · simp only [Bool.xor_self, Bool.false_eq_true, if_false, if_true]
    exact hcancel _ _

lemma iterate_step_xor (n : ℕ) (x y : BitVec w) :
    (step poly)^[n] (x ^^^ y) = (step poly)^[n] x ^^^ (step poly)^[n] y := by
  induction n generalizing x y with
  | zero => rfl
  | succ n ih => rw [Function.iterate_succ_apply, step_xor, ih]; rfl

/-- Without a one among its lowest `n` bits, a register is shifted by `n` steps. -/
lemma iterate_step_of_low (n : ℕ) (x : BitVec w) (h : ∀ i < n, x.getLsbD i = false) :
    (step poly)^[n] x = x >>> n := by
  induction n with
  | zero => rw [Function.iterate_zero_apply, BitVec.ushiftRight_zero]
  | succ n ih =>
    have hbit : (x >>> n).getLsbD 0 = false := by
      rw [BitVec.getLsbD_ushiftRight, Nat.add_zero]
      exact h n (Nat.lt_succ_self n)
    rw [Function.iterate_succ_apply', ih fun i hi => h i (Nat.lt_succ_of_lt hi), step, hbit,
      BitVec.shiftRight_add]
    rfl

/-- **Steps by table**: `n` steps are those of the lowest `n` bits, and a shift of the others. -/
theorem iterate_step_eq (n : ℕ) (x : BitVec w) :
    (step poly)^[n] x = (step poly)^[n] (low n x) ^^^ (x >>> n) := by
  have hsplit : x = low n x ^^^ (x ^^^ low n x) := by
    rw [← BitVec.xor_assoc, BitVec.xor_comm (low n x), BitVec.xor_assoc, BitVec.xor_self,
      BitVec.xor_zero]
  have hhigh : ∀ i < n, (x ^^^ low n x).getLsbD i = false := by
    intro i hi
    rw [BitVec.getLsbD_xor, getLsbD_low, decide_eq_true hi, Bool.and_true, Bool.xor_self]
  have hshift : (x ^^^ low n x) >>> n = x >>> n := by
    apply BitVec.eq_of_getLsbD_eq
    intro i _
    rw [BitVec.getLsbD_ushiftRight, BitVec.getLsbD_ushiftRight, BitVec.getLsbD_xor, getLsbD_low,
      decide_eq_false (by omega), Bool.and_false, Bool.xor_false]
  calc (step poly)^[n] x = (step poly)^[n] (low n x ^^^ (x ^^^ low n x)) := by rw [← hsplit]
    _ = (step poly)^[n] (low n x) ^^^ (step poly)^[n] (x ^^^ low n x) := iterate_step_xor ..
    _ = (step poly)^[n] (low n x) ^^^ (x >>> n) := by
      rw [iterate_step_of_low poly n _ hhigh, hshift]

end Crc
