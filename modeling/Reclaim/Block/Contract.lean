import Reclaim.Block.LbaRange
import Reclaim.Block.Source

/-!
# What a read promises

Whoever reads a block source combines the statuses of its sectors on the strength of four promises:
the buffer is filled, a good sector holds the backing bytes, any other sector holds zeros, and no
sector with a requested byte behind the end is good.  `Honours` says that a read kept them.

A read that stops in the middle of a sector is where they come apart: the sector is reported bad,
and what was read of it stays in the buffer.  `ZeroTail` says that nothing is lost by that.
-/

namespace Reclaim

open FileBytes

/-- A read of `n` bytes at `off` kept its promises, over a backing store of `len` bytes which are
`content`. -/
structure Honours (ss len off n : ℕ) (content : ℕ → Option UInt8) (out : ReadOutcome) : Prop where
  filled : out.buf.length = n
  exact : ∀ k < n, out.result.status (k / ss) = .good →
    content (off + k) = some (byteAt out.buf k)
  zeroFilled : ∀ k < n, out.result.status (k / ss) ≠ .good → byteAt out.buf k = 0
  pastEnd : ∀ k < n, len ≤ off + k → out.result.status (k / ss) ≠ .good

/-- A request that crosses `e` in the middle of a sector finds only zeros before `e` in there. -/
def ZeroTail (c : ℕ → UInt8) (ss off n e : ℕ) : Prop :=
  off < e → e < off + n → ∀ x, e / ss * ss ≤ x → x < e → c x = 0

section Honours

variable {ss len off n : ℕ} {content : ℕ → Option UInt8} {c : ℕ → UInt8} {out : ReadOutcome}

/-- Nothing is asked of an end at a sector boundary. -/
lemma zeroTail_of_dvd {e : ℕ} (h : ss ∣ e) : ZeroTail c ss off n e := by
  intro _ _ x hx hlt
  rw [Nat.div_mul_cancel h] at hx
  omega

/-- The bytes a zero tail is about are those of the sector that is cut at `done`. -/
lemma zeroTail_iff (hss : 0 < ss) (hal : ss ∣ off) {done : ℕ} :
    ZeroTail c ss off n (off + done) ↔
      ∀ k < done, done < min ((k / ss + 1) * ss) n → c (off + k) = 0 := by
  obtain ⟨q, rfl⟩ := hal
  have hdiv : (ss * q + done) / ss * ss = ss * q + done / ss * ss := by
    rw [Nat.mul_add_div hss, Nat.add_mul, Nat.mul_comm q ss]
  constructor
  · intro h k hk hcut
    have hlt : done / ss < k / ss + 1 := (Nat.div_lt_iff_lt_mul hss).2 (by omega)
    have hmul := Nat.mul_le_mul_right ss (Nat.lt_succ_iff.1 hlt)
    have hk' := Nat.div_mul_le_self k ss
    exact h (by omega) (by omega) (ss * q + k) (by omega) (by omega)
  · intro h hoff hn x hx hlt
    obtain ⟨k, rfl⟩ := Nat.exists_eq_add_of_le (show ss * q ≤ x by omega)
    have hk : done / ss ≤ k / ss := (Nat.le_div_iff_mul_le hss).2 (by omega)
    have hnext := Nat.lt_div_mul_add (a := done) hss
    have hmul := Nat.mul_le_mul_right ss hk
    refine h k (by omega) (lt_min ?_ (by omega))
    rw [Nat.add_mul]
    omega

/-- A read that reports a sector good only where it holds the content keeps its promises exactly if
whatever it holds of any other sector is zero. -/
theorem honours_iff_zero {p : ℕ → Prop} (hfill : out.buf.length = n)
    (hheld : ∀ k < n, p k → byteAt out.buf k = c (off + k) ∧
      content (off + k) = some (c (off + k)))
    (hfree : ∀ k < n, ¬ p k → byteAt out.buf k = 0)
    (hgood : ∀ k < n, out.result.status (k / ss) = .good → p k ∧ off + k < len) :
    Honours ss len off n content out ↔
      ∀ k < n, p k → out.result.status (k / ss) ≠ .good → c (off + k) = 0 := by
  constructor
  · intro h k hk hh hbad
    rw [← (hheld k hk hh).1]
    exact h.zeroFilled k hk hbad
  · intro h
    refine ⟨hfill, fun k hk hst => ?_, fun k hk hst => ?_, fun k hk hle hst => ?_⟩
    · obtain ⟨hbyte, hcontent⟩ := hheld k hk (hgood k hk hst).1
      rw [hcontent, hbyte]
    · by_cases hh : p k
      · rw [(hheld k hk hh).1]
        exact h k hk hh hst
      · exact hfree k hk hh
    · have := (hgood k hk hst).2
      omega

/-- A read that puts out zeros and reports no sector good keeps its promises. -/
lemma honours_of_allBad {count : ℕ} (hss : 0 < ss) (hcount : count = divCeil n ss) :
    Honours ss len off n content ⟨List.replicate n 0, ReadResult.allBad ss count⟩ := by
  have hbad : ∀ k < n, (ReadResult.allBad ss count).status (k / ss) = .bad := fun k hk =>
    ReadResult.status_allBad (hcount ▸ div_lt_divCeil hss hk)
  refine ⟨by simp, fun k hk h => ?_, fun k hk _ => by simp, fun k hk _ h => ?_⟩
  · exact absurd ((hbad k hk).symm.trans h) (by decide)
  · exact absurd ((hbad k hk).symm.trans h) (by decide)

end Honours

/-! ## Bytes in memory -/

/-- A `MemorySource`. -/
structure MemorySource where
  data : Bytes
  sectorSize : ℕ
  sectorSize_pos : 0 < sectorSize
  length_le : data.length ≤ u64Max

namespace MemorySource

/-- The byte at a position of the source. -/
def content (m : MemorySource) (x : ℕ) : Option UInt8 := m.data[x]?

/-- One sector's part of `read_at`: its bytes, and whether there is such a sector. -/
def sector (m : MemorySource) (off n i : ℕ) : Bytes × Bool :=
  let want := min (n - i * m.sectorSize) m.sectorSize
  let sectOff := saturatingAdd off (i * m.sectorSize)
  if m.data.length ≤ sectOff then (List.replicate want 0, false)
  else
    let got := (m.data.drop sectOff).take want
    (got ++ List.replicate (want - got.length) 0, true)

/-- `MemorySource::read_at`. -/
def readAt (m : MemorySource) (off n : ℕ) : ReadOutcome :=
  let count := divCeil n m.sectorSize
  if ¬ m.sectorSize ∣ off then ⟨List.replicate n 0, ReadResult.allBad m.sectorSize count⟩
  else
    ⟨(List.range count).flatMap fun i => (m.sector off n i).1,
      ((List.range count).filter fun i => !(m.sector off n i).2).foldl ReadResult.markBad
        (ReadResult.good m.sectorSize count)⟩

variable {m : MemorySource} {off n i : ℕ}

lemma length_sector : (m.sector off n i).1.length = min (n - i * m.sectorSize) m.sectorSize := by
  unfold sector
  dsimp only
  split
  · simp
  · simp only [List.length_append, List.length_replicate, List.length_take, List.length_drop]
    omega

/-- There is a sector where the data does not end before it. -/
lemma sector_there : (m.sector off n i).2 = true ↔ off + i * m.sectorSize < m.data.length := by
  have hlen := m.length_le
  unfold sector saturatingAdd
  dsimp only
  split
  · simp only [Bool.false_eq_true, false_iff]
    omega
  · simp only [true_iff]
    omega

lemma byteAt_sector {j : ℕ} (hj : j < min (n - i * m.sectorSize) m.sectorSize) :
    byteAt (m.sector off n i).1 j = byteAt m.data (off + i * m.sectorSize + j) := by
  have hlen := m.length_le
  unfold sector saturatingAdd
  dsimp only
  split
  · rw [byteAt_replicate_zero, byteAt_of_length_le (by omega)]
  · have hsat : min (off + i * m.sectorSize) u64Max = off + i * m.sectorSize := by omega
    rw [hsat, byteAt_append]
    split
    · rw [byteAt_take, if_pos hj, byteAt_drop]
    · rename_i hge
      simp only [List.length_take, List.length_drop] at hge
      rw [byteAt_replicate_zero, byteAt_of_length_le (by omega)]

/-- An aligned read fills the buffer, from the data as far as they go. -/
lemma byteAt_readAt (hal : m.sectorSize ∣ off) : (m.readAt off n).buf.length = n ∧
    ∀ k < n, byteAt (m.readAt off n).buf k = byteAt m.data (off + k) := by
  have hss := m.sectorSize_pos
  have hcount := le_divCeil_mul hss n
  obtain ⟨hlength, hbytes⟩ := byteAt_flatMap_blocks (N := n) hss (fun i => (m.sector off n i).1)
    (divCeil n m.sectorSize) fun i _ => length_sector
  rw [min_eq_left hcount] at hlength hbytes
  rw [readAt, if_neg (not_not.2 hal)]
  refine ⟨hlength, fun k hk => (hbytes k hk).trans ?_⟩
  have hm := Nat.mod_lt k hss
  have hd := Nat.div_add_mod' k m.sectorSize
  rw [byteAt_sector (by omega)]
  congr 1
  omega

/-- A sector is good if it begins in the data. -/
lemma status_readAt_iff (hal : m.sectorSize ∣ off) {k : ℕ} (hk : k < n) :
    (m.readAt off n).result.status (k / m.sectorSize) = .good ↔
      off + k / m.sectorSize * m.sectorSize < m.data.length := by
  have hin : k / m.sectorSize < divCeil n m.sectorSize := div_lt_divCeil m.sectorSize_pos hk
  rw [readAt, if_neg (not_not.2 hal), ← sector_there (n := n), ReadResult.status_foldl_markBad]
  simp only [List.mem_filter, List.mem_range, hin, true_and, ReadResult.sectorCount_good,
    and_true, ReadResult.status_good]
  cases (m.sector off n (k / m.sectorSize)).2 <;> simp

/-- **What a `MemorySource` promises.**  A read keeps its promises exactly if it does not reach
behind data that end in the middle of a sector: that sector it reports good. -/
theorem honours_iff_end (hal : m.sectorSize ∣ off) :
    Honours m.sectorSize m.data.length off n m.content (m.readAt off n) ↔
      m.sectorSize ∣ m.data.length ∨ off + n ≤ m.data.length ∨ m.data.length ≤ off := by
  have hss := m.sectorSize_pos
  obtain ⟨hlength, hbyte⟩ := byteAt_readAt (m := m) (n := n) hal
  have hstatus : ∀ k < n, ((m.readAt off n).result.status (k / m.sectorSize) = .good ↔
      off + k / m.sectorSize * m.sectorSize < m.data.length) := fun _ hk => status_readAt_iff hal hk
  have hmod : ∀ k, k % m.sectorSize < m.sectorSize := fun k => Nat.mod_lt k hss
  have hdm : ∀ k, k / m.sectorSize * m.sectorSize + k % m.sectorSize = k :=
    fun k => Nat.div_add_mod' k m.sectorSize
  constructor
  · intro h
    by_contra hnot
    push Not at hnot
    obtain ⟨hnd, hend, hoff⟩ := hnot
    -- the first byte behind the data
    refine h.pastEnd (m.data.length - off) (by omega) (by omega) ((hstatus _ (by omega)).2 ?_)
    obtain ⟨q, rfl⟩ := hal
    have hlt : m.data.length / m.sectorSize * m.sectorSize < m.data.length := by
      exact lt_of_le_of_ne (Nat.div_mul_le_self _ _) fun heq => hnd (Dvd.intro_left _ heq)
    have hsub : (m.data.length - m.sectorSize * q) / m.sectorSize =
        m.data.length / m.sectorSize - q := Nat.sub_mul_div _ _ _
    have hq : q ≤ m.data.length / m.sectorSize := by
      rw [Nat.le_div_iff_mul_le hss, Nat.mul_comm]
      exact hoff.le
    rw [hsub, Nat.sub_mul, Nat.mul_comm m.sectorSize q]
    have := Nat.mul_le_mul_right m.sectorSize hq
    omega
  · intro h
    have hin : ∀ k < n, off + k / m.sectorSize * m.sectorSize < m.data.length →
        off + k < m.data.length := by
      intro k hk hlt
      rcases h with ⟨q, hq⟩ | h | h
      · obtain ⟨p, rfl⟩ := hal
        rw [hq] at hlt ⊢
        have hpk : p + k / m.sectorSize < q := by
          apply Nat.lt_of_mul_lt_mul_left (a := m.sectorSize)
          rw [Nat.mul_add, Nat.mul_comm m.sectorSize (k / m.sectorSize)]
          exact hlt
        have hmul := Nat.mul_le_mul_left m.sectorSize (show p + k / m.sectorSize + 1 ≤ q from hpk)
        have hm := hmod k
        have hd := hdm k
        rw [Nat.mul_add, Nat.mul_add, Nat.mul_comm m.sectorSize (k / m.sectorSize)] at hmul
        omega
      · omega
      · omega
    refine ⟨?_, fun k hk hst => ?_, fun k hk hst => ?_, fun k hk hle hst => ?_⟩
    · exact hlength
    · have hlt := hin k hk ((hstatus k hk).1 hst)
      rw [hbyte k hk]
      simp [content, byteAt, List.getD_eq_getElem?_getD, hlt]
    · rw [ne_eq, hstatus k hk, not_lt] at hst
      have hd := hdm k
      rw [hbyte k hk, byteAt_of_length_le (by omega)]
    · have := hin k hk ((hstatus k hk).1 hst)
      omega

end MemorySource

end Reclaim
