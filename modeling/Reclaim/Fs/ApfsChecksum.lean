import Reclaim.Foundation.Checksums
import Reclaim.Foundation.Fields
import Reclaim.Fs.ApfsObjects

/-!
# Checksums of APFS objects

The checksum of an object is of the words behind it, so writing it makes the block verify.  A block
that verifies and has one word changed verifies no more, unless zero and the highest word, which the
sums cannot tell apart, were exchanged.
-/

namespace Reclaim
namespace Apfs

open FileBytes Fletcher

variable {block : Bytes} {i w : ℕ}

/-! ## The sums -/

section Sums

variable {ws us : List ℕ}

/-- The sums of words, modulo what they are taken. -/
def wordSums (ws : List ℕ) : ZMod fletcherMod × ZMod fletcherMod :=
  (ws.map (Nat.cast : ℕ → ZMod fletcherMod)).foldl add (0, 0)

lemma fletcherMod_pos : 0 < fletcherMod := by decide

lemma cast_foldl_fletcherAdd (ws : List ℕ) (s : ℕ × ℕ) :
    (((ws.foldl fletcherAdd s).1 : ZMod fletcherMod), ((ws.foldl fletcherAdd s).2 : ZMod _)) =
      (ws.map (Nat.cast : ℕ → ZMod fletcherMod)).foldl add ((s.1 : ZMod _), (s.2 : ZMod _)) := by
  induction ws generalizing s with
  | nil => rfl
  | cons w ws ih =>
    rw [List.foldl_cons, ih, List.map_cons, List.foldl_cons]
    simp only [fletcherAdd, add, ZMod.natCast_mod, Nat.cast_add]

/-- The checksum of words. -/
def checkWords (ws : List ℕ) : ℕ :=
  let s := ws.foldl fletcherAdd (0, 0)
  let c1 := complement fletcherMod (s.1 + s.2)
  complement fletcherMod (s.1 + c1) * 2 ^ 32 + c1

lemma fletcher64Check_eq (block : Bytes) :
    fletcher64Check block = checkWords (leWords (block.drop 8)) := rfl

lemma complement_lt (x : ℕ) : complement fletcherMod x < 2 ^ 32 :=
  complement_le.trans_lt (by decide)

lemma checkWords_lt (ws : List ℕ) : checkWords ws < 256 ^ 8 := by
  unfold checkWords
  generalize ws.foldl fletcherAdd (0, 0) = s
  have hlow := complement_lt (s.1 + s.2)
  have hhigh := complement_lt (s.1 + complement fletcherMod (s.1 + s.2))
  dsimp only
  omega

/-- **The checksums are the same exactly if the sums are.** -/
lemma checkWords_eq_iff : checkWords ws = checkWords us ↔ wordSums ws = wordSums us := by
  have hws := cast_foldl_fletcherAdd ws (0, 0)
  have hus := cast_foldl_fletcherAdd us (0, 0)
  rw [Nat.cast_zero] at hws hus
  unfold checkWords wordSums
  rw [← hws, ← hus]
  generalize ws.foldl fletcherAdd (0, 0) = s
  generalize us.foldl fletcherAdd (0, 0) = t
  dsimp only
  -- the two halves of the checksum are the complements
  have hhalves : ∀ {a b c d : ℕ}, b < 2 ^ 32 → d < 2 ^ 32 →
      (a * 2 ^ 32 + b = c * 2 ^ 32 + d ↔ b = d ∧ a = c) := by omega
  rw [hhalves (complement_lt _) (complement_lt _), complement_eq_iff fletcherMod_pos,
    complement_eq_iff fletcherMod_pos, Prod.mk.injEq]
  simp only [Nat.cast_add, cast_complement fletcherMod_pos]
  constructor
  · rintro ⟨hlow, hhigh⟩
    rw [hlow, add_left_inj] at hhigh
    rw [hhigh, add_right_inj] at hlow
    exact ⟨hhigh, hlow⟩
  · rintro ⟨h₁, h₂⟩
    rw [h₁, h₂]
    exact ⟨rfl, rfl⟩

end Sums

/-! ## Words of a block -/

/-- A block with the checksum that it ought to have. -/
def sealBlock (block : Bytes) : Bytes := leBytes 8 (fletcher64Check block) ++ block.drop 8

/-- A block with another word `i` of its body. -/
def setWord (block : Bytes) (i w : ℕ) : Bytes :=
  block.take (8 + 4 * i) ++ (leBytes 4 w ++ block.drop (8 + 4 * i + 4))

lemma leWords_append_word {v : Bytes} (hv : v.length = 4) (rest : Bytes) :
    leWords (v ++ rest) = leValue v :: leWords rest := by
  obtain ⟨a, b, c, d, rfl⟩ := List.length_eq_four.1 hv
  rfl

/-- Words are parted where the bytes are. -/
lemma leWords_append {front : Bytes} (h : front.length = 4 * i) (rest : Bytes) :
    leWords (front ++ rest) = leWords front ++ leWords rest := by
  induction i generalizing front with
  | zero =>
    obtain rfl := List.eq_nil_of_length_eq_zero h
    rfl
  | succ i ih =>
    have hfour : (front.take 4).length = 4 := by
      rw [List.length_take]
      omega
    have hrest : (front.drop 4).length = 4 * i := by
      rw [List.length_drop]
      omega
    rw [← List.take_append_drop 4 front, List.append_assoc, leWords_append_word hfour,
      leWords_append_word hfour, ih hrest, List.cons_append]

/-- The words of the body, parted at word `i`. -/
lemma leWords_body (h : 8 + 4 * i + 4 ≤ block.length) :
    leWords (block.drop 8) = leWords ((block.drop 8).take (4 * i)) ++
      leU32 block (8 + 4 * i) :: leWords (block.drop (8 + 4 * i + 4)) := by
  have hfront : ((block.drop 8).take (4 * i)).length = 4 * i := by
    rw [List.length_take, List.length_drop]
    omega
  have hword : ((block.drop (8 + 4 * i)).take 4).length = 4 := by
    rw [List.length_take, List.length_drop]
    omega
  have hparts : block.drop 8 = (block.drop 8).take (4 * i) ++
      ((block.drop (8 + 4 * i)).take 4 ++ block.drop (8 + 4 * i + 4)) := by
    have hbehind : block.drop (8 + 4 * i + 4) = (block.drop (8 + 4 * i)).drop 4 :=
      List.drop_drop.symm
    have hword' : block.drop (8 + 4 * i) = (block.drop 8).drop (4 * i) := List.drop_drop.symm
    rw [hbehind, List.take_append_drop, hword', List.take_append_drop]
  rw [hparts, leWords_append hfront, leWords_append_word hword, ← hparts]
  rw [leU32, leField, if_pos h]

/-- Of a block with another word, the words before and behind it are the same. -/
lemma leWords_setWord (h : 8 + 4 * i + 4 ≤ block.length) (hw : w < 2 ^ 32) :
    leWords ((setWord block i w).drop 8) = leWords ((block.drop 8).take (4 * i)) ++
      w :: leWords (block.drop (8 + 4 * i + 4)) := by
  have hfront : ((block.drop 8).take (4 * i)).length = 4 * i := by
    rw [List.length_take, List.length_drop]
    omega
  have hbody : (setWord block i w).drop 8 = (block.drop 8).take (4 * i) ++
      (leBytes 4 w ++ block.drop (8 + 4 * i + 4)) := by
    rw [setWord, List.drop_append_of_le_length (by rw [List.length_take]; omega), List.drop_take,
      Nat.add_sub_cancel_left]
  rw [hbody, leWords_append hfront, leWords_append_word (length_leBytes 4 w),
    leValue_leBytes hw]

/-- The header of a block with another word is the same. -/
lemma leU64_setWord (h : 8 + 4 * i + 4 ≤ block.length) :
    leU64 (setWord block i w) 0 = leU64 block 0 := by
  have hfront : (block.take (8 + 4 * i)).length = 8 + 4 * i := by
    rw [List.length_take]
    omega
  have hin : leU64 (block.take (8 + 4 * i)) 0 = leU64 block 0 := by
    conv_rhs => rw [← List.take_append_drop (8 + 4 * i) block]
    exact (leField_append (by omega) _).symm
  rw [← hin]
  exact leField_append (by omega) _

/-- A block with another word verifies if the checksum of the words is the same. -/
lemma valid_setWord_iff (h : 8 + 4 * i + 4 ≤ block.length) (hw : w < 2 ^ 32)
    (hvalid : fletcher64Valid block = true) :
    fletcher64Valid (setWord block i w) = true ↔
      (w : ZMod fletcherMod) = leU32 block (8 + 4 * i) := by
  have hlen : (setWord block i w).length = block.length := by
    simp only [setWord, List.length_append, List.length_take, List.length_drop, length_leBytes]
    omega
  unfold fletcher64Valid at hvalid ⊢
  rw [if_neg (by omega), beq_iff_eq] at hvalid
  rw [if_neg (by omega), beq_iff_eq, leU64_setWord h, hvalid, fletcher64Check_eq,
    fletcher64Check_eq, eq_comm, checkWords_eq_iff, leWords_setWord h hw, leWords_body h]
  unfold wordSums
  simp only [List.map_append, List.map_cons]
  exact foldl_add_change _

/-- A block with its checksum has the words of the block. -/
lemma valid_sealBlock (block : Bytes) : fletcher64Valid (sealBlock block) = true := by
  have hlen : (leBytes 8 (fletcher64Check block)).length = 8 := length_leBytes ..
  have hbody : (sealBlock block).drop 8 = block.drop 8 := by
    rw [sealBlock, List.drop_append_of_le_length hlen.ge, List.drop_of_length_le hlen.le,
      List.nil_append]
  have hstored : leU64 (sealBlock block) 0 = fletcher64Check block := by
    rw [sealBlock, leU64, leField_append (by omega), leField, if_pos (by omega), List.drop_zero,
      List.take_of_length_le (by omega)]
    exact leValue_leBytes (checkWords_lt _)
  rw [fletcher64Valid, if_neg (by rw [sealBlock, List.length_append]; omega), beq_iff_eq, hstored,
    fletcher64Check_eq, fletcher64Check_eq, hbody]

/-- **The checksum of an object block**: written into the header, it makes the block verify.  A
block that verifies and has one word of its body changed verifies only if the change is between zero
and the highest word. -/
theorem fletcher64_exact (block : Bytes) (hblock : 8 ≤ block.length) :
    (fletcher64Valid (sealBlock block) = true ∧ (sealBlock block).length = block.length ∧
      (sealBlock block).drop 8 = block.drop 8) ∧
    ∀ i w, 8 + 4 * i + 4 ≤ block.length → w < 2 ^ 32 → w ≠ leU32 block (8 + 4 * i) →
      fletcher64Valid block = true →
        (fletcher64Valid (setWord block i w) = true ↔
          w = 0 ∧ leU32 block (8 + 4 * i) = 0xffffffff ∨
            w = 0xffffffff ∧ leU32 block (8 + 4 * i) = 0) := by
  have hlen : (leBytes 8 (fletcher64Check block)).length = 8 := length_leBytes ..
  refine ⟨⟨valid_sealBlock block, ?_, ?_⟩, fun i w h hw hne hvalid => ?_⟩
  · rw [sealBlock, List.length_append, hlen, List.length_drop]
    omega
  · rw [sealBlock, List.drop_append_of_le_length hlen.ge, List.drop_of_length_le hlen.le,
      List.nil_append]
  · have hold : leU32 block (8 + 4 * i) < 2 ^ 32 := leU32_lt ..
    have hmod : fletcherMod = 0xffffffff := rfl
    rw [valid_setWord_iff h hw hvalid, cast_eq_cast_iff (by omega) (by omega), hmod]
    exact or_iff_right hne

/-- The rule, for a block of a header and seven words of zeros, the first of which becomes 5. -/
theorem fletcher64_exact_zeros :
    fletcher64Valid (sealBlock (List.replicate 36 0)) = true ∧
      ¬ fletcher64Valid (setWord (sealBlock (List.replicate 36 0)) 0 5) = true := by
  obtain ⟨hvalid, hlen, -⟩ := (fletcher64_exact (List.replicate 36 0) (by decide)).1
  rw [List.length_replicate] at hlen
  have hold : leU32 (sealBlock (List.replicate 36 0)) 8 = 0 := by decide
  refine ⟨hvalid, fun h => ?_⟩
  have hchange := ((fletcher64_exact (sealBlock (List.replicate 36 0)) (by omega)).2 0 5 (by omega)
    (by omega) (by rw [hold]; omega) hvalid).1 h
  omega

end Apfs
end Reclaim
