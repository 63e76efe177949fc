import Reclaim.Block.FileImage

/-!
# Tables of blocks

Most formats cut the disk into blocks of one size and have a table that says for each of them that
it is zero or where it is in the file.  Their openers walk the table up to the end of the disk, push
one piece for each block, and close with a hole if the table ends before the disk does.

`pushed_withTail` says what such a walk gives for a position, and `FileImage.Serves.byte_eq` that
an image which serves some content has it where all of the sector can be had.
-/

namespace Reclaim

open FileBytes

/-! ## Walking a table -/

/-- The pushes of a table walk, up to the end of the disk: `len` says how much of the disk is in a
block. -/
def blockWalk (len : ℕ → ℕ) (piece : ℕ → Piece) : ℕ → ℕ → List (ℕ × Piece)
  | 0, _ => []
  | n + 1, i => if len i = 0 then [] else (len i, piece i) :: blockWalk len piece n (i + 1)

/-- The pushes, and a hole up to the end of the disk. -/
def withTail (size : ℕ) (pushes : List (ℕ × Piece)) : List (ℕ × Piece) :=
  let out := (SegmentMap.ofPushes pushes).nextOut
  if out < size then pushes ++ [(size - out, .zero)] else pushes

/-- The walk ends early only where the blocks are empty. -/
lemma blockWalk_append {size blockSize : ℕ} (hpos : 0 < blockSize) (len : ℕ → ℕ)
    (piece : ℕ → Piece) (n : ℕ) : ∀ i, (∀ j < n, len (i + j) = blockLen size blockSize (i + j)) →
      ∃ rest, blockPieces size blockSize piece i n = blockWalk len piece n i ++ rest ∧
        totalOut rest = 0 := by
  induction n with
  | zero => exact fun i _ => ⟨[], rfl, rfl⟩
  | succ n ih =>
    intro i hlen
    have hcons : blockPieces size blockSize piece i (n + 1) =
        (blockLen size blockSize i, piece i) :: blockPieces size blockSize piece (i + 1) n := rfl
    have hhere : len i = blockLen size blockSize i := hlen 0 (Nat.succ_pos n)
    rw [blockWalk]
    by_cases hzero : len i = 0
    · rw [if_pos hzero]
      refine ⟨_, (List.nil_append _).symm, ?_⟩
      have htotal := (blockPieces_spec (B := fun _ => none) (D := fun _ _ _ _ => none) size hpos
        piece (n + 1) i).1
      rw [hhere, blockLen] at hzero
      rw [htotal]
      omega
    · obtain ⟨rest, hrest, htotal⟩ := ih (i + 1) fun j hj => by
        rw [Nat.add_assoc, Nat.add_comm 1]
        exact hlen (j + 1) (by omega)
      exact ⟨rest, by rw [if_neg hzero, hcons, hrest, hhere, List.cons_append], htotal⟩

/-- **What a table walk gives**: a position has the byte of its block's piece, or is zero behind the
end of the table. -/
lemma pushed_withTail {file : Bytes} {D : Codec → ℕ → ℕ → ℕ → Option Bytes}
    (hfile : file.length ≤ u64Max) {size blockSize : ℕ} (hsize : size ≤ u64Max)
    (hpos : 0 < blockSize) {len : ℕ → ℕ} (piece : ℕ → Piece) {n : ℕ}
    (hlen : ∀ j < n, len j = blockLen size blockSize j) {x : ℕ} (hx : x < size) :
    pushed (fun z => file[z]?) D (withTail size (blockWalk len piece n 0)) x =
      if x / blockSize < n then
        (piece (x / blockSize)).byte (fun z => file[z]?) D (blockLen size blockSize (x / blockSize))
          (x % blockSize)
      else some 0 := by
  obtain ⟨rest, hall, hrest⟩ := blockWalk_append hpos len piece n 0 fun j hj => by
    rw [Nat.zero_add]
    exact hlen j hj
  obtain ⟨htotal, hbyte⟩ := blockPieces_spec (B := fun z => file[z]?) (D := D) size hpos piece n 0
  rw [hall, totalOut_append, hrest, Nat.add_zero, Nat.zero_mul, Nat.sub_zero] at htotal
  rw [hall, Nat.zero_mul, Nat.sub_zero] at hbyte
  have hin : x / blockSize < n ↔ x < n * blockSize := Nat.div_lt_iff_lt_mul hpos
  have hwalk : x < n * blockSize → pushed (fun z => file[z]?) D (blockWalk len piece n 0) x =
      (piece (x / blockSize)).byte (fun z => file[z]?) D (blockLen size blockSize (x / blockSize))
        (x % blockSize) := by
    intro hlt
    have hb := hbyte x (by omega)
    rwa [pushed_append, if_pos (by omega), Nat.zero_add] at hb
  have hnext : (SegmentMap.ofPushes (blockWalk len piece n 0)).nextOut =
      min (n * blockSize) size := by
    have hmap := SegmentMap.denotes_ofPushes (B := fun z => file[z]?) (D := D)
      (fun y hy => List.getElem?_eq_none (by omega)) (blockWalk len piece n 0)
    rw [hmap.next, htotal, min_eq_left]
    omega
  unfold withTail
  dsimp only
  rw [hnext]
  by_cases hlt : x < n * blockSize
  · rw [if_pos (hin.2 hlt)]
    split
    · rw [pushed_append, htotal, if_pos (by omega)]
      exact hwalk hlt
    · exact hwalk hlt
  · -- the hole behind the table
    rw [if_neg (fun h => hlt (hin.1 h)), if_pos (by omega), pushed_append, htotal,
      if_neg (by omega), pushed, if_pos (by omega)]
    rfl

/-- A position past the last `u64` is past the end of a file. -/
lemma getElem?_saturating {file : Bytes} (hfile : file.length ≤ u64Max) (p y : ℕ) :
    file[min p u64Max + y]? = file[p + y]? := by
  rcases Nat.lt_or_ge p u64Max with hp | hp
  · rw [min_eq_left hp.le]
  · rw [List.getElem?_eq_none (by omega), List.getElem?_eq_none (by omega)]

/-! ## Fields of a table -/

lemma getLe_getD (n : ℕ) (b : Bytes) (off : ℕ) : (getLe n b off).getD 0 = leField n b off := by
  unfold getLe getRange leField
  split <;> rfl

lemma getLe_lt {n : ℕ} {b : Bytes} {off v : ℕ} (h : getLe n b off = some v) : v < 256 ^ n := by
  have hfield := getLe_getD n b off
  rw [h, Option.getD_some] at hfield
  rw [hfield]
  exact leField_lt n b off

/-- A field of a table that was read is there in the file. -/
lemma getLe_readExact {file table : Bytes} {pos len n i : ℕ}
    (h : readExact file pos len = some table) (hin : i + n ≤ len) (hn : 0 < n) :
    getLe n table i = getLe n file (pos + i) := by
  unfold readExact at h
  rw [if_neg (by omega)] at h
  rw [getLe, getLe, getRange_getRange h hin]

/-! ## What an image serves -/

/-- **Content that is served is what the image has**, where all of the sector can be had. -/
lemma FileImage.Serves.byte_eq {im : FileImage} {content : ℕ → Option UInt8} (h : im.Serves content)
    {x : ℕ} (hx : x < im.outLen)
    (hall : ∀ y, x / im.sector * im.sector ≤ y → y ≤ x → (content y).isSome = true) :
    im.byte x = content x := by
  have hss := im.sector_pos
  set off := x / im.sector * im.sector with hoff
  have hle : off ≤ x := Nat.div_mul_le_self _ _
  have hal : im.sector ∣ off := Dvd.intro_left _ rfl
  obtain ⟨-, hread⟩ := h.reads [] off (x - off + 1) hal (by omega)
    fun k hk => hall _ (by omega) (by omega)
  have hhad : ∀ k < x - off + 1, (im.byte (off + k)).isSome = true := by
    intro k hk
    by_contra hnone
    rw [Option.not_isSome_iff_eq_none] at hnone
    have hbad := (im.serves.missing [] off (x - off + 1) hal (by omega) k hk hnone).2
    rw [(hread k hk).2] at hbad
    exact absurd hbad (by decide)
  have hbyte := (hread (x - off) (by omega)).1
  have hserved := ((im.serves.reads [] off (x - off + 1) hal (by omega) hhad).2 (x - off)
    (by omega)).1
  rw [hbyte, show off + (x - off) = x by omega] at hserved
  have hsome := hhad (x - off) (by omega)
  rw [show off + (x - off) = x by omega] at hsome
  obtain ⟨b, hb⟩ := Option.isSome_iff_exists.1 hsome
  obtain ⟨c, hc⟩ := Option.isSome_iff_exists.1 (hall x hle le_rfl)
  rw [hb, hc] at hserved ⊢
  exact congrArg some hserved.symm

end Reclaim
