import Reclaim.Block.Source

/-!
# Sources given sector by sector

A `SectorTable` says of each sector what it holds and, depending on the state of the source, how a
read of it comes out.  `SectorTable.source` is the block source with exactly these answers: a
memory buffer, a device with bad sectors that a retry may or may not recover, a partly imaged
image with unread sectors, and a device that disappears at some read are all of this form.
-/

namespace Reclaim

open FileBytes

variable {σ : Type}

namespace ReadResult

/-- Mark sector `i` as `st` says. -/
def mark (r : ReadResult) (i : ℕ) : SectorStatus → ReadResult
  | .good => r
  | .bad => r.markBad i
  | .unread => r.markUnread i

/-- The result with the given statuses. -/
def ofStatus (sectorSize sectorCount : ℕ) (st : ℕ → SectorStatus) : ReadResult :=
  (List.range sectorCount).foldl (fun r i => r.mark i (st i)) (good sectorSize sectorCount)

@[simp] lemma sectorCount_mark (r : ReadResult) (i : ℕ) (st : SectorStatus) :
    (r.mark i st).sectorCount = r.sectorCount := by
  cases st <;> rfl

lemma status_markUnread (r : ReadResult) (i j : ℕ) :
    (r.markUnread i).status j =
      if i = j ∧ j < r.sectorCount ∧ r.status j = .good then .unread else r.status j := by
  have hbad : (r.markUnread i).bad = r.bad := rfl
  have hget : (r.markUnread i).unread.get j =
      (r.unread.get j || (decide (i = j) && decide (j < r.sectorCount))) := by
    simp only [markUnread, Bitset.get_set, r.unread_len]
  unfold status
  rw [hbad, hget]
  by_cases hb : r.bad.get j = true
  · simp [hb]
  · by_cases hu : r.unread.get j = true
    · simp [hb, hu]
    · simp [hb, hu]

lemma status_mark_of_ne (r : ReadResult) {i j : ℕ} (st : SectorStatus) (h : i ≠ j) :
    (r.mark i st).status j = r.status j := by
  cases st with
  | good => rfl
  | bad => rw [mark, status_markBad, if_neg fun h' => h h'.1]
  | unread => rw [mark, status_markUnread, if_neg fun h' => h h'.1]

lemma status_mark_self {r : ReadResult} {i : ℕ} (st : SectorStatus) (hi : i < r.sectorCount)
    (hgood : r.status i = .good) : (r.mark i st).status i = st := by
  cases st with
  | good => exact hgood
  | bad => rw [mark, status_markBad, if_pos ⟨rfl, hi⟩]
  | unread => rw [mark, status_markUnread, if_pos ⟨rfl, hi, hgood⟩]

/-- Marking the first `n` sectors in turn. -/
lemma status_foldl_mark (st : ℕ → SectorStatus) (ss count n : ℕ) (hn : n ≤ count) (j : ℕ) :
    ((List.range n).foldl (fun r i => r.mark i (st i)) (good ss count)).sectorCount = count ∧
    ((List.range n).foldl (fun r i => r.mark i (st i)) (good ss count)).status j =
      if j < n then st j else .good := by
  induction n with
  | zero => simp
  | succ n ih =>
    obtain ⟨hcount, hstatus⟩ := ih (Nat.le_of_succ_le hn)
    rw [List.range_succ, List.foldl_append, List.foldl_cons, List.foldl_nil]
    refine ⟨by rw [sectorCount_mark, hcount], ?_⟩
    by_cases hj : n = j
    · subst hj
      rw [status_mark_self _ (by omega) (by rw [hstatus, if_neg (lt_irrefl n)]),
        if_pos (Nat.lt_succ_self n)]
    · rw [status_mark_of_ne _ _ hj, hstatus]
      refine if_congr ?_ rfl rfl
      omega

@[simp] lemma sectorCount_ofStatus (ss n : ℕ) (st : ℕ → SectorStatus) :
    (ofStatus ss n st).sectorCount = n := (status_foldl_mark st ss n n le_rfl 0).1

lemma status_ofStatus (ss n : ℕ) (st : ℕ → SectorStatus) (j : ℕ) :
    (ofStatus ss n st).status j = if j < n then st j else .good :=
  (status_foldl_mark st ss n n le_rfl j).2

end ReadResult

/-- A source described sector by sector: contents, the status each read of a sector gets in a
state of the source, and how a read moves that state on. -/
structure SectorTable (σ : Type) where
  id : String
  len : ℕ
  sectorSize : ℕ
  content : ℕ → UInt8
  status : σ → ℕ → SectorStatus
  next : σ → σ
  vanished : σ → Bool
  len_le : len ≤ u64Max
  sectorSize_le : sectorSize ≤ u32Max
  sectorSize_pos : 0 < sectorSize

namespace SectorTable

variable (t : SectorTable σ)

/-- How a read at `off` finds its sector `i`: a sector past the end, like every sector of an
unaligned request, is bad. -/
def sectorAt (s : σ) (off i : ℕ) : SectorStatus :=
  if ¬ t.sectorSize ∣ off ∨ t.len ≤ off + i * t.sectorSize then .bad
  else t.status s (off / t.sectorSize + i)

/-- The byte that a read at `off` puts at `k`. -/
def byteFor (s : σ) (off k : ℕ) : UInt8 :=
  if t.sectorAt s off (k / t.sectorSize) = .good then t.content (off + k) else 0

/-- The answer to a read. -/
def answer (s : σ) (off n : ℕ) : ReadOutcome where
  buf := (List.range n).map (t.byteFor s off)
  result := ReadResult.ofStatus t.sectorSize (divCeil n t.sectorSize) (t.sectorAt s off)

lemma max_sectorSize : max t.sectorSize 1 = t.sectorSize := max_eq_left t.sectorSize_pos

lemma byteAt_answer {s : σ} {off n k : ℕ} (hk : k < n) :
    byteAt (t.answer s off n).buf k = t.byteFor s off k := by
  simp [byteAt, answer, List.getD_eq_getElem?_getD, hk]

lemma status_answer {s : σ} {off n i : ℕ} (hi : i < divCeil n t.sectorSize) :
    (t.answer s off n).result.status i = t.sectorAt s off i := by
  rw [answer, ReadResult.status_ofStatus, if_pos hi]

/-- No read reports a sector unread that the table does not list so. -/
lemma status_ne_unread (h : ∀ s i, t.status s i ≠ .unread) (s : σ) (off n i : ℕ) :
    (t.answer s off n).result.status i ≠ .unread := by
  rw [answer, ReadResult.status_ofStatus]
  split
  · rw [sectorAt]
    split
    · decide
    · exact h s _
  · decide

/-- The block source of a table. -/
def source : BlockSource σ where
  id := t.id
  len := t.len
  sectorSize := t.sectorSize
  readAt s off n := (t.answer s off n, t.next s)
  vanished := t.vanished
  len_le := t.len_le
  sectorSize_le := t.sectorSize_le
  filled s off n := by simp [answer]
  sectorCount_eq s off n := by rw [max_sectorSize]; simp [answer]
  zeroFilled s off n _ i hi k hk := by
    rw [max_sectorSize] at hk
    by_cases hkn : k < n
    · have hin : i < divCeil n t.sectorSize := hk ▸ div_lt_divCeil t.sectorSize_pos hkn
      rw [status_answer t hin] at hi
      rw [byteAt_answer t hkn, byteFor, hk, if_neg hi]
    · exact byteAt_of_length_le (by simpa [answer] using hkn)
  unaligned s off n hoff i hi := by
    rw [max_sectorSize] at hoff hi
    rw [status_answer t hi, sectorAt, if_pos (.inl hoff)]

@[simp] lemma sector_source : t.source.sector = t.sectorSize := max_sectorSize t

/-- A table whose statuses do not depend on the state answers alike in every state. -/
lemma answer_congr {st : ℕ → SectorStatus} (h : ∀ s, t.status s = st) (s s₀ : σ) (off n : ℕ) :
    t.answer s off n = t.answer s₀ off n := by
  have hsect : t.sectorAt s off = t.sectorAt s₀ off := by
    funext i
    rw [sectorAt, sectorAt, h, h]
  have hbyte : t.byteFor s off = t.byteFor s₀ off := by
    funext k
    rw [byteFor, byteFor, hsect]
  rw [answer, answer, hsect, hbyte]

/-- What a read shows of a position, if the sectors have these statuses. -/
def fixedByte (status : ℕ → SectorStatus) (x : ℕ) : UInt8 :=
  if status (x / t.sectorSize) = .good then t.content x else 0

/-- A read finds each sector that begins in the source as it is. -/
lemma answer_fixed {status : ℕ → SectorStatus} (hst : ∀ s, t.status s = status) (s : σ)
    {off n k : ℕ}
    (hoff : t.sectorSize ∣ off) (hk : k < n) (hin : off + k / t.sectorSize * t.sectorSize < t.len) :
    (t.answer s off n).result.status (k / t.sectorSize) = status ((off + k) / t.sectorSize) ∧
      byteAt (t.answer s off n).buf k = t.fixedByte status (off + k) := by
  have hss := t.sectorSize_pos
  have hsect : t.sectorAt s off (k / t.sectorSize) = status ((off + k) / t.sectorSize) := by
    rw [sectorAt, if_neg (by rw [not_or, not_not]; exact ⟨hoff, by omega⟩), hst]
    obtain ⟨q, rfl⟩ := hoff
    rw [Nat.mul_div_cancel_left _ hss, Nat.mul_add_div hss]
  constructor
  · rw [status_answer t (div_lt_divCeil hss hk), hsect]
  · rw [byteAt_answer t hk, byteFor, hsect, fixedByte]

/-- A table whose statuses do not depend on the state and list no unread sector is a stable
source. -/
def stable (st : ℕ → SectorStatus) (h : ∀ s, t.status s = st) (hread : ∀ i, st i ≠ .unread)
    (s₀ : σ) : t.source.Stable where
  answer := t.answer s₀
  content := t.content
  answers s off n := t.answer_congr h s s₀ off n
  faithful off n hal k hk hbad := by
    have hss : t.source.sector = t.sectorSize := sector_source t
    rw [hss] at hbad
    have hin : k / t.sectorSize < divCeil n t.sectorSize := div_lt_divCeil t.sectorSize_pos hk
    rw [status_answer t hin] at hbad
    rw [byteAt_answer t hk, byteFor]
    apply if_pos
    unfold sectorAt at hbad ⊢
    split at hbad
    · exact absurd rfl hbad
    · rename_i hin'
      rw [if_neg hin', h]
      rw [h] at hbad
      cases hst : st (off / t.sectorSize + k / t.sectorSize) with
      | good => rfl
      | bad => exact absurd hst hbad
      | unread => exact absurd hst (hread _)

lemma good_ne_unread (_ : ℕ) : SectorStatus.good ≠ .unread := by simp

/-- A source of `len` equal bytes in sectors that all read good. -/
def solid (len sectorSize : ℕ) (b : UInt8) (hlen : len ≤ u64Max) (hss : sectorSize ≤ u32Max)
    (hpos : 0 < sectorSize) : SectorTable Unit where
  id := "solid"
  len := len
  sectorSize := sectorSize
  content _ := b
  status _ _ := .good
  next s := s
  vanished _ := false
  len_le := hlen
  sectorSize_le := hss
  sectorSize_pos := hpos

end SectorTable

/-- A source of one byte, `1`. -/
def oneByte : BlockSource Unit :=
  (SectorTable.solid 1 1 1 byte_le_u64Max byte_le_u32Max Nat.one_pos).source

end Reclaim
