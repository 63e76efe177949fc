import Reclaim.Block.MappedRead
import Reclaim.Block.SectorTable

/-!
# What a mapped image returns

`given` is what the pushes of an opener say of each byte of a request, one by one.  A read is right
if it shows these bytes, and reports bad exactly the sectors with a byte that cannot be had.

A part of a request that lies in one segment is filled as a whole or not at all, and joined pushes
are one segment.  `readsRight_iff` says what that leaves: a byte that can be had is lost if another
one of its segment cannot.
-/

namespace Reclaim

open FileBytes

variable {σ : Type}

/-- The sectors that are marked are those with a byte of the range. -/
lemma mem_touched {ss start len j : ℕ} (hss : 0 < ss) (hlen : 0 < len) :
    j ∈ List.range' (start / ss) ((start + len - 1) / ss + 1 - start / ss) ↔
      ∃ k, start ≤ k ∧ k < start + len ∧ k / ss = j := by
  have hle : start / ss ≤ (start + len - 1) / ss := Nat.div_le_div_right (by omega)
  rw [List.mem_range'_1]
  constructor
  · rintro ⟨hlow, hhigh⟩
    rcases hlow.eq_or_lt with rfl | hlt
    · exact ⟨start, le_rfl, by omega, rfl⟩
    · have hbegin := (Nat.div_lt_iff_lt_mul hss).1 hlt
      have hend := (Nat.le_div_iff_mul_le hss).1 (show j ≤ (start + len - 1) / ss by omega)
      exact ⟨j * ss, hbegin.le, by omega, Nat.mul_div_cancel _ hss⟩
  · rintro ⟨k, hk, hk', rfl⟩
    have h1 : start / ss ≤ k / ss := Nat.div_le_div_right hk
    have h2 : k / ss ≤ (start + len - 1) / ss := Nat.div_le_div_right (by omega)
    omega

lemma status_markBadRange {res : ReadResult} {ss start len j : ℕ} (hss : 0 < ss)
    (hj : j < res.sectorCount) : ((markBadRange res ss start len).status j = .bad ↔
      res.status j = .bad ∨ ∃ k, start ≤ k ∧ k < start + len ∧ k / ss = j) ∧
    (res.status j ≠ .unread → (markBadRange res ss start len).status j ≠ .unread) := by
  unfold markBadRange
  by_cases hlen : len = 0
  · subst hlen
    rw [if_pos rfl]
    refine ⟨(or_iff_left ?_).symm, id⟩
    rintro ⟨k, h1, h2, -⟩
    omega
  · rw [if_neg hlen]
    dsimp only
    have hmem : (j ∈ (List.range' (start / ss) ((start + len - 1) / ss + 1 - start / ss)).filter
        (fun i => decide (i < res.sectorCount)) ∧ j < res.sectorCount) ↔
          ∃ k, start ≤ k ∧ k < start + len ∧ k / ss = j := by
      rw [List.mem_filter, mem_touched hss (by omega)]
      simp only [hj, decide_true, and_true]
    rw [ReadResult.status_foldl_markBad]
    split
    · rename_i h
      exact ⟨iff_of_true rfl (.inr (hmem.1 h)), fun _ => by decide⟩
    · rename_i h
      exact ⟨(or_iff_left (hmem.not.1 h)).symm, id⟩

@[simp] lemma sectorCount_markBadRange (res : ReadResult) (ss start len : ℕ) :
    (markBadRange res ss start len).sectorCount = res.sectorCount := by
  unfold markBadRange
  split
  · rfl
  · simp

section Read

variable (inflate : Codec → Bytes → ℕ → Option Bytes) (m : MappedSource σ)
  (h : Sectorwise m.backing)

/-- Byte `k` of a request is had from the segment `s`: the read comes to the segment, and every byte
of the request in it can be had. -/
structure HadFrom (off n : ℕ) (s : Segment) (k : ℕ) : Prop where
  aligned : m.sectorSize ∣ off
  mem : s ∈ m.segs
  covers : s.Covers (off + k)
  entered : max off s.outStart < m.outLen
  whole : ∀ k' < n, s.Covers (off + k') → (m.segByte inflate h s (off + k')).isSome = true

/-- Byte `k` of a request is had from some segment. -/
def Had (off n k : ℕ) : Prop := ∃ s, HadFrom inflate m h off n s k

/-- A request was read from byte `done` on. -/
structure ReadOn (off n done : ℕ) (acc out : Bytes × ReadResult) : Prop where
  length : out.1.length ≤ n
  count : out.2.sectorCount = acc.2.sectorCount
  old : ∀ k < done, byteAt out.1 k = byteAt acc.1 k
  had : ∀ k, done ≤ k → k < n → ∀ s, HadFrom inflate m h off n s k →
    byteAt out.1 k = (m.segByte inflate h s (off + k)).getD 0
  lost : ∀ k, done ≤ k → k < n → ¬ Had inflate m h off n k → byteAt out.1 k = 0
  bad : ∀ j < acc.2.sectorCount, out.2.status j = .bad ↔ acc.2.status j = .bad ∨
    ∃ k, done ≤ k ∧ k < n ∧ k / m.sectorSize = j ∧ ¬ Had inflate m h off n k
  known : ∀ j < acc.2.sectorCount, acc.2.status j ≠ .unread → out.2.status j ≠ .unread

variable {inflate m h}

/-- A read that stops at byte `done` has lost all that follows. -/
lemma ReadOn.stops {off n done : ℕ} {acc : Bytes × ReadResult} (hlen : acc.1.length = done)
    (hdone : done ≤ n) (hlost : ∀ k, done ≤ k → k < n → ¬ Had inflate m h off n k) :
    ReadOn inflate m h off n done acc
      (acc.1, markBadRange acc.2 m.sectorSize done (n - done)) where
  length := by rw [hlen]; exact hdone
  count := sectorCount_markBadRange _ _ _ _
  old k _ := rfl
  had k hk hn s hs := absurd ⟨s, hs⟩ (hlost k hk hn)
  lost k hk _ _ := byteAt_of_length_le (by rw [hlen]; exact hk)
  bad j hj := by
    rw [(status_markBadRange m.sectorSize_pos hj).1]
    refine or_congr_right (exists_congr fun k => ?_)
    constructor
    · rintro ⟨h1, h2, h3⟩
      exact ⟨h1, by omega, h3, hlost k h1 (by omega)⟩
    · rintro ⟨h1, h2, h3, -⟩
      exact ⟨h1, by omega, h3⟩
  known j hj := (status_markBadRange m.sectorSize_pos hj).2

/-- A request is read in two parts. -/
lemma ReadOn.trans {off n done next : ℕ} {acc out : Bytes × ReadResult} (mid : Bytes × ReadResult)
    (hle : done ≤ next) (hn : next ≤ n) (hcount : mid.2.sectorCount = acc.2.sectorCount)
    (hold : ∀ k < done, byteAt mid.1 k = byteAt acc.1 k)
    (hhad : ∀ k, done ≤ k → k < next → ∀ s, HadFrom inflate m h off n s k →
      byteAt mid.1 k = (m.segByte inflate h s (off + k)).getD 0)
    (hlost : ∀ k, done ≤ k → k < next → ¬ Had inflate m h off n k → byteAt mid.1 k = 0)
    (hbad : ∀ j < acc.2.sectorCount, mid.2.status j = .bad ↔ acc.2.status j = .bad ∨
      ∃ k, done ≤ k ∧ k < next ∧ k / m.sectorSize = j ∧ ¬ Had inflate m h off n k)
    (hknown : ∀ j < acc.2.sectorCount, acc.2.status j ≠ .unread → mid.2.status j ≠ .unread)
    (hrest : ReadOn inflate m h off n next mid out) : ReadOn inflate m h off n done acc out where
  length := hrest.length
  count := hrest.count.trans hcount
  old k hk := (hrest.old k (by omega)).trans (hold k hk)
  had k hk hkn s hs := by
    by_cases hlow : k < next
    · exact (hrest.old k hlow).trans (hhad k hk hlow s hs)
    · exact hrest.had k (not_lt.1 hlow) hkn s hs
  lost k hk hkn hnot := by
    by_cases hlow : k < next
    · exact (hrest.old k hlow).trans (hlost k hk hlow hnot)
    · exact hrest.lost k (not_lt.1 hlow) hkn hnot
  bad j hj := by
    rw [hrest.bad j (by rw [hcount]; exact hj), hbad j hj, or_assoc, ← exists_or]
    refine or_congr_right (exists_congr fun k => ?_)
    constructor
    · rintro (⟨h1, h2, h3, h4⟩ | ⟨h1, h2, h3, h4⟩)
      · exact ⟨h1, by omega, h3, h4⟩
      · exact ⟨by omega, h2, h3, h4⟩
    · rintro ⟨h1, h2, h3, h4⟩
      by_cases hlow : k < next
      · exact .inl ⟨h1, hlow, h3, h4⟩
      · exact .inr ⟨not_lt.1 hlow, h2, h3, h4⟩
  known j hj hun := hrest.known j (by rw [hcount]; exact hj) (hknown j hj hun)

/-- **What the loop of a read comes to.** -/
lemma readLoop_readOn {b : ℕ} (ht : Tiles 0 m.segs b) {off n : ℕ} (hal : m.sectorSize ∣ off)
    (fuel : ℕ) : ∀ (done : ℕ) (acc : Bytes × ReadResult) (s : σ × DecodeCache), done ≤ n →
      n - done ≤ fuel → acc.1.length = done →
      (done < n → ∀ r ∈ m.segs, r.Covers (off + done) → max off r.outStart < m.outLen →
        off + done = max off r.outStart) → FreshBlocks inflate m h s.2 →
      FreshBlocks inflate m h (m.readLoop inflate off n fuel done acc s).2.2 ∧
        ReadOn inflate m h off n done acc (m.readLoop inflate off n fuel done acc s).1 := by
  have hmax := m.outLen_le
  have hb : b ≤ u64Max := (ht.le (Nat.zero_le _)).2
  have hfull : ∀ (acc : Bytes × ReadResult), acc.1.length = n →
      ReadOn inflate m h off n n acc acc := by
    intro acc hlen
    refine ⟨hlen.le, rfl, fun k _ => rfl, fun k hk hkn => by omega, fun k hk hkn => by omega,
      fun j _ => (or_iff_left ?_).symm, fun j _ => id⟩
    rintro ⟨k, h1, h2, -⟩
    omega
  induction fuel with
  | zero =>
    intro done acc s hdone hfuel hlen _ hs
    obtain rfl : done = n := by omega
    exact ⟨hs, hfull acc hlen⟩
  | succ fuel ih =>
    intro done acc s hdone hfuel hlen hbound hs
    rw [MappedSource.readLoop]
    by_cases hlt : done < n
    · rw [if_pos hlt]
      dsimp only
      by_cases hend : m.outLen ≤ saturatingAdd off done
      · -- behind the end nothing is had
        rw [if_pos hend]
        refine ⟨hs, ReadOn.stops hlen hdone fun k hk hkn ⟨r, hr⟩ => ?_⟩
        have hle : m.outLen ≤ off + done := by
          unfold saturatingAdd at hend
          omega
        have hcov := hr.covers
        have hent := hr.entered
        have hhere := hbound hlt r hr.mem ⟨by omega, by have := hcov.2; omega⟩ hent
        omega
      · rw [if_neg hend]
        have hcur : saturatingAdd off done = off + done := by
          unfold saturatingAdd at hend ⊢
          omega
        rw [hcur] at hend ⊢
        by_cases hin : off + done < b
        · obtain ⟨i, seg, hfor, hseg, hcov⟩ := segFor_eq_some ht hin
          have hmem := List.mem_of_getElem? hseg
          rw [hfor]
          dsimp only
          rw [hseg]
          dsimp only
          obtain ⟨hstart, hstop⟩ := hcov
          set want := min (seg.outLen - (off + done - seg.outStart)) (n - done) with hwant
          have hhere := hbound hlt seg hmem ⟨hstart, hstop⟩ (by omega)
          have hpart : off + done - seg.outStart + want ≤ seg.outLen := by omega
          obtain ⟨hfill, hfresh⟩ := fillFromSegment_spec hseg (by omega) hpart hs
          rw [show seg.outStart + (off + done - seg.outStart) = off + done by omega] at hfill
          have hcovers : ∀ k < n, seg.Covers (off + k) ↔ done ≤ k ∧ k < done + want := by
            intro k hk
            unfold Segment.Covers
            omega
          -- in this part only this segment can be the one
          have honly : ∀ k, done ≤ k → k < done + want → ∀ r, HadFrom inflate m h off n r k →
              r = seg := by
            intro k h1 h2 r hr
            have hent := hr.entered
            exact covers_unique ht hr.mem hmem (by omega) (by omega) hr.covers
              ((hcovers k (by omega)).2 ⟨h1, h2⟩)
          have hnext : done + want < n → ∀ r ∈ m.segs, r.Covers (off + (done + want)) →
              max off r.outStart < m.outLen → off + (done + want) = max off r.outStart := by
            intro hmore r hr hc hent
            have hstop' : off + (done + want) = seg.outStart + seg.outLen := by omega
            rw [hstop'] at hc ⊢
            have hbegin := outStart_of_covers ht hmem hr (by omega) (by omega) hc
            omega
          cases hgather : gather (m.segByte inflate h seg) (off + done) want with
          | some bytes =>
            obtain ⟨hall, hbytes, hbyte⟩ := gather_eq_some hgather
            rw [hgather] at hfill
            rw [hfill]
            dsimp only
            have hwhole : ∀ k, done ≤ k → k < done + want →
                HadFrom inflate m h off n seg k := fun k h1 h2 =>
              ⟨hal, hmem, (hcovers k (by omega)).2 ⟨h1, h2⟩, by omega, fun k' hk' hc => by
                obtain ⟨h3, h4⟩ := (hcovers k' hk').1 hc
                have hsome := hall (k' - done) (by omega)
                rwa [show off + done + (k' - done) = off + k' by omega] at hsome⟩
            obtain ⟨hfresh', hrest⟩ := ih (done + want) (acc.1 ++ bytes, acc.2) _ (by omega)
              (by omega) (by rw [List.length_append]; omega) hnext hfresh
            refine ⟨hfresh', ReadOn.trans (acc.1 ++ bytes, acc.2) (by omega) (by omega) rfl
              (fun k hk => ?_) (fun k h1 h2 r hr => ?_)
              (fun k h1 h2 hnot => absurd ⟨seg, hwhole k h1 h2⟩ hnot)
              (fun j _ => (or_iff_left ?_).symm) (fun j _ => id) hrest⟩
            · rw [byteAt_append, if_pos (by omega)]
            · rw [honly k h1 h2 r hr, byteAt_append, if_neg (by omega), hbyte _ (by omega)]
              congr 2
              omega
            · rintro ⟨k, h1, h2, -, hnot⟩
              exact hnot ⟨seg, hwhole k h1 h2⟩
          | none =>
            obtain ⟨j₀, hj₀, hnone⟩ := gather_eq_none hgather
            rw [hgather] at hfill
            rw [hfill]
            dsimp only
            have hlost : ∀ k, done ≤ k → k < done + want → ¬ Had inflate m h off n k := by
              rintro k h1 h2 ⟨r, hr⟩
              obtain rfl := honly k h1 h2 r hr
              have hsome := hr.whole (done + j₀) (by omega)
                ((hcovers _ (by omega)).2 ⟨by omega, by omega⟩)
              rw [show off + (done + j₀) = off + done + j₀ by omega, hnone] at hsome
              exact absurd hsome (by simp)
            obtain ⟨hfresh', hrest⟩ := ih (done + want)
              (acc.1 ++ List.replicate want 0, markBadRange acc.2 m.sectorSize done want) _
              (by omega) (by omega) (by rw [List.length_append, List.length_replicate, hlen])
              hnext hfresh
            refine ⟨hfresh', ReadOn.trans
              (acc.1 ++ List.replicate want 0, markBadRange acc.2 m.sectorSize done want)
              (by omega) (by omega) (sectorCount_markBadRange _ _ _ _) (fun k hk => ?_)
              (fun k h1 h2 r hr => absurd ⟨r, hr⟩ (hlost k h1 h2)) (fun k h1 h2 _ => ?_)
              (fun j hj => ?_) (fun j hj => (status_markBadRange m.sectorSize_pos hj).2) hrest⟩
            · rw [byteAt_append, if_pos (by omega)]
            · rw [byteAt_append, if_neg (by omega), byteAt_replicate_zero]
            · rw [(status_markBadRange m.sectorSize_pos hj).1]
              refine or_congr_right (exists_congr fun k => ?_)
              constructor
              · rintro ⟨h1, h2, h3⟩
                exact ⟨h1, h2, h3, hlost k h1 h2⟩
              · rintro ⟨h1, h2, h3, -⟩
                exact ⟨h1, h2, h3⟩
        · rw [segFor_eq_none ht (not_lt.1 hin)]
          refine ⟨hs, ReadOn.stops hlen hdone fun k hk hkn ⟨r, hr⟩ => ?_⟩
          have hstop := ht.stop_le hr.mem
          have hcov := hr.covers.2
          have hent := hr.entered
          unfold Segment.stop saturatingAdd at hstop
          omega
    · rw [if_neg hlt]
      obtain rfl : done = n := by omega
      exact ⟨hs, hfull acc hlen⟩

/-- **What a read comes to**, whatever is kept. -/
lemma readAt_spec {b : ℕ} (ht : Tiles 0 m.segs b) {s : σ × DecodeCache}
    (hs : FreshBlocks inflate m h s.2) (off n : ℕ) :
    FreshBlocks inflate m h (m.readAt inflate s off n).2.2 ∧
      (m.readAt inflate s off n).1.buf.length = n ∧
      (∀ k < n, ∀ r, HadFrom inflate m h off n r k → byteAt (m.readAt inflate s off n).1.buf k =
        (m.segByte inflate h r (off + k)).getD 0) ∧
      (∀ k < n, ¬ Had inflate m h off n k → byteAt (m.readAt inflate s off n).1.buf k = 0) ∧
      ∀ j < divCeil n m.sectorSize, ((m.readAt inflate s off n).1.result.status j = .bad ↔
          ∃ k < n, k / m.sectorSize = j ∧ ¬ Had inflate m h off n k) ∧
        (m.readAt inflate s off n).1.result.status j ≠ .unread := by
  have hss := m.sectorSize_pos
  unfold MappedSource.readAt
  dsimp only
  by_cases hn : n = 0
  · subst hn
    have hnone : divCeil 0 m.sectorSize = 0 := Nat.div_eq_of_lt (by omega)
    rw [if_pos rfl]
    exact ⟨hs, rfl, fun k hk => by omega, fun k hk => by omega, fun j hj => by omega⟩
  rw [if_neg hn]
  by_cases href : ¬ m.sectorSize ∣ off ∨ m.outLen ≤ off
  · -- a request that is refused has nothing
    rw [if_pos href]
    have hlost : ∀ k, ¬ Had inflate m h off n k := by
      rintro k ⟨r, hr⟩
      have hal := hr.aligned
      have hent := hr.entered
      rcases href with hnot | hle
      · exact hnot hal
      · omega
    refine ⟨hs, by simp, fun k _ r hr => absurd ⟨r, hr⟩ (hlost k), fun k _ _ => by simp,
      fun j hj => ?_⟩
    have hbad : (ReadResult.allBad m.sectorSize (divCeil n m.sectorSize)).status j = .bad :=
      ReadResult.status_allBad hj
    refine ⟨iff_of_true hbad ⟨j * m.sectorSize, (lt_divCeil_iff hss).1 hj,
      Nat.mul_div_cancel _ hss, hlost _⟩, ?_⟩
    rw [hbad]
    decide
  · rw [if_neg href]
    rw [not_or, not_not, not_le] at href
    obtain ⟨hal, hlt⟩ := href
    obtain ⟨hfresh, hread⟩ := readLoop_readOn (h := h) ht hal n 0
      ([], ReadResult.good m.sectorSize (divCeil n m.sectorSize)) s (Nat.zero_le n) (by omega) rfl
      (fun _ r _ hc _ => by have := hc.1; omega) hs
    have hpad : ∀ (buf : Bytes) k, byteAt (buf ++ List.replicate (n - buf.length) 0) k =
        byteAt buf k := by
      intro buf k
      rw [byteAt_append]
      split
      · rfl
      · rename_i hge
        rw [byteAt_replicate_zero, byteAt_of_length_le (not_lt.1 hge)]
    have hcount : (ReadResult.good m.sectorSize (divCeil n m.sectorSize)).sectorCount =
        divCeil n m.sectorSize := rfl
    refine ⟨hfresh, ?_, fun k hk r hr => ?_, fun k hk hnot => ?_, fun j hj => ⟨?_, ?_⟩⟩
    · have hle := hread.length
      rw [List.length_append, List.length_replicate]
      omega
    · rw [hpad]
      exact hread.had k (Nat.zero_le k) hk r hr
    · rw [hpad]
      exact hread.lost k (Nat.zero_le k) hk hnot
    · refine (hread.bad j (by rwa [hcount])).trans ?_
      rw [or_iff_right (by rw [ReadResult.status_good]; decide)]
      apply exists_congr
      intro k
      exact and_iff_right (Nat.zero_le k)
    · apply hread.known j (by rwa [hcount])
      rw [ReadResult.status_good]
      decide

end Read

/-! ## Reads that are right -/

/-- An image as an opener puts it together: a backing file, the pushes, and the length it is
given. -/
structure PushedImage (σ : Type) where
  backing : BlockSource σ
  sectors : Sectorwise backing
  inflate : Codec → Bytes → ℕ → Option Bytes
  pushes : List (ℕ × Piece)
  outLen : ℕ
  sectorSize : ℕ
  id : String
  outLen_le : outLen ≤ u64Max

namespace PushedImage

variable (p : PushedImage σ)

/-- The source that the image is read through. -/
def source : MappedSource σ :=
  (SegmentMap.ofPushes p.pushes).build p.backing p.outLen p.sectorSize p.id p.outLen_le

/-- The source after some reads, each an offset and a length. -/
def after (s : σ) (history : List (ℕ × ℕ)) : σ × DecodeCache :=
  history.foldl (fun t r => (p.source.readAt p.inflate t r.1 r.2).2) (s, ⟨[], []⟩)

/-- Byte `k` of a request at `off`, as the pushes give it, if it can be had. -/
def given (off k : ℕ) : Option UInt8 :=
  if p.source.sectorSize ∣ off ∧ off + k < p.outLen then
    pushed p.sectors.byte (p.source.decoded p.inflate p.sectors) p.pushes (off + k)
  else none

/-- A read of `n` bytes at `off` shows what the pushes give, and reports bad the sectors with a byte
that cannot be had. -/
structure ReadsRight (off n : ℕ) (out : ReadOutcome) : Prop where
  filled : out.buf.length = n
  bytes : ∀ k < n, byteAt out.buf k = (p.given off k).getD 0
  bad : ∀ j < divCeil n p.source.sectorSize, out.result.status j = .bad ↔
    ∃ k < n, k / p.source.sectorSize = j ∧ p.given off k = none
  known : ∀ j < divCeil n p.source.sectorSize, out.result.status j ≠ .unread

/-- Byte `k` of a request lies in a segment that the request comes to, and with it all the bytes of
the request in there can be had. -/
abbrev HadWith (off n k : ℕ) : Prop := Had p.inflate p.source p.sectors off n k

/-- What is filled in or left out with the rest of its segment makes no difference: a byte that the
pushes give and the segment has not is zero, and so is one behind the declared end that the
segment has, each in a sector that is bad both ways. -/
structure NoneMixed (off n : ℕ) : Prop where
  lost : ∀ k < n, ¬ p.HadWith off n k → ∀ b, p.given off k = some b →
    b = 0 ∧ ∃ k' < n, k' / p.source.sectorSize = k / p.source.sectorSize ∧ p.given off k' = none
  excess : ∀ k < n, p.given off k = none →
    ∀ s, HadFrom p.inflate p.source p.sectors off n s k →
      (p.source.segByte p.inflate p.sectors s (off + k)).getD 0 = 0 ∧
        ∃ k' < n, k' / p.source.sectorSize = k / p.source.sectorSize ∧ ¬ p.HadWith off n k'

variable {p}

lemma sectors_byte_none (y : ℕ) (hy : u64Max ≤ y) : p.sectors.byte y = none := by
  have hmax := p.backing.len_le
  exact if_neg fun h => by have := h.1; omega

/-- The segments stand for the pushes. -/
lemma denotes (p : PushedImage σ) : Denotes p.sectors.byte (p.source.decoded p.inflate p.sectors)
    (SegmentMap.ofPushes p.pushes) p.pushes :=
  SegmentMap.denotes_ofPushes sectors_byte_none p.pushes

/-- A byte in the image that is had is the one that the pushes give. -/
lemma given_of_hadFrom {off n k : ℕ} {s : Segment}
    (hs : HadFrom p.inflate p.source p.sectors off n s k) (hin : off + k < p.outLen) :
    p.given off k = p.source.segByte p.inflate p.sectors s (off + k) := by
  have hmax := p.outLen_le
  rw [given, if_pos ⟨hs.aligned, hin⟩]
  exact (p.denotes.byte s hs.mem (off + k) (by omega) hs.covers).symm

lemma isSome_of_hadFrom {off n k : ℕ} {s : Segment} (hk : k < n)
    (hs : HadFrom p.inflate p.source p.sectors off n s k) :
    (p.source.segByte p.inflate p.sectors s (off + k)).isSome = true := hs.whole k hk hs.covers

/-- **One read of an image**, when every block that is kept is right. -/
lemma readsRight_of_fresh {s : σ × DecodeCache}
    (hs : FreshBlocks p.inflate p.source p.sectors s.2) (off n : ℕ) :
    p.ReadsRight off n (p.source.readAt p.inflate s off n).1 ↔ p.NoneMixed off n := by
  obtain ⟨-, hlen, hhad, hlost, hstatus⟩ := readAt_spec p.denotes.tiles hs off n
  have hss := p.source.sectorSize_pos
  have hsect : ∀ k < n, k / p.source.sectorSize < divCeil n p.source.sectorSize := fun k hk =>
    div_lt_divCeil hss hk
  constructor
  · intro hr
    refine ⟨fun k hk hnot b hb => ⟨?_, ?_⟩, fun k hk hnone r hfrom => ⟨?_, ?_⟩⟩
    · rw [← hlost k hk hnot, hr.bytes k hk, hb, Option.getD_some]
    · exact (hr.bad _ (hsect k hk)).1 ((hstatus _ (hsect k hk)).1.2 ⟨k, hk, rfl, hnot⟩)
    · rw [← hhad k hk r hfrom, hr.bytes k hk, hnone, Option.getD_none]
    · exact (hstatus _ (hsect k hk)).1.1 ((hr.bad _ (hsect k hk)).2 ⟨k, hk, rfl, hnone⟩)
  · intro hm
    refine ⟨hlen, fun k hk => ?_, fun j hj => ?_, fun j hj => (hstatus j hj).2⟩
    · by_cases hk' : p.HadWith off n k
      · obtain ⟨r, hr⟩ := hk'
        rw [hhad k hk r hr]
        by_cases hin : off + k < p.outLen
        · rw [given_of_hadFrom hr hin]
        · have hnone : p.given off k = none := if_neg fun h => hin h.2
          rw [(hm.excess k hk hnone r hr).1, hnone, Option.getD_none]
      · rw [hlost k hk hk']
        cases hg : p.given off k with
        | none => rfl
        | some b => exact ((hm.lost k hk hk' b hg).1).symm
    · rw [(hstatus j hj).1]
      constructor
      · rintro ⟨k, hk, rfl, hnot⟩
        cases hg : p.given off k with
        | none => exact ⟨k, hk, rfl, hg⟩
        | some b => exact (hm.lost k hk hnot b hg).2
      · rintro ⟨k, hk, rfl, hnone⟩
        by_cases hk' : p.HadWith off n k
        · obtain ⟨r, hr⟩ := hk'
          exact (hm.excess k hk hnone r hr).2
        · exact ⟨k, hk, rfl, hk'⟩

/-- Whatever has been read, every block that is kept is right. -/
lemma fresh_after (p : PushedImage σ) (s : σ) (history : List (ℕ × ℕ)) :
    FreshBlocks p.inflate p.source p.sectors (p.after s history).2 := by
  induction history using List.reverseRecOn with
  | nil => exact fun e he => absurd he List.not_mem_nil
  | append_singleton history r ih =>
    unfold after at ih ⊢
    rw [List.foldl_append, List.foldl_cons, List.foldl_nil]
    exact (readAt_spec p.denotes.tiles ih r.1 r.2).1

/-- Every position that is put out is in one segment. -/
lemma exists_unique_segment (p : PushedImage σ) {x : ℕ}
    (hx : x < (SegmentMap.ofPushes p.pushes).nextOut) :
    ∃! i : ℕ, ∃ s : Segment, p.source.segs[i]? = some s ∧ s.Covers x := by
  have ht := p.denotes.tiles
  have hmax := (ht.le (Nat.zero_le _)).2
  obtain ⟨i, s, hs, hcov, hbefore, hbehind⟩ := ht.exists_index hmax (Nat.zero_le x) hx
  refine ⟨i, ⟨s, hs, hcov⟩, ?_⟩
  rintro j ⟨r, hr, hrx⟩
  rcases lt_trichotomy j i with hlt | heq | hgt
  · have hstop := hbefore j r hlt hr
    have h2 := hrx.2
    unfold Segment.stop saturatingAdd at hstop
    omega
  · exact heq
  · have hstart := hbehind j r hgt hr
    have h1 := hrx.1
    omega

/-- **Which reads of an image are right**, whatever was read before: those of which no segment has
bytes that can be had beside bytes that cannot.  The segments cover what is put out, each position
once. -/
theorem readsRight_iff (p : PushedImage σ) (s : σ) (history : List (ℕ × ℕ)) (off n : ℕ) :
    (p.ReadsRight off n (p.source.readAt p.inflate (p.after s history) off n).1 ↔
      p.NoneMixed off n) ∧
    ∀ x < (SegmentMap.ofPushes p.pushes).nextOut,
      ∃! i : ℕ, ∃ r : Segment, p.source.segs[i]? = some r ∧ r.Covers x :=
  ⟨readsRight_of_fresh (p.fresh_after s history) off n, fun _ => p.exists_unique_segment⟩

/-- Nothing is mixed in a request that can be had as a whole. -/
lemma noneMixed_of_given {off n : ℕ} (h : ∀ k < n, (p.given off k).isSome = true) :
    p.NoneMixed off n := by
  have hmax := p.outLen_le
  have ht := p.denotes.tiles
  have hall : ∀ k < n, p.source.sectorSize ∣ off ∧ off + k < p.outLen ∧
      (pushed p.sectors.byte (p.source.decoded p.inflate p.sectors) p.pushes (off + k)).isSome =
        true := by
    intro k hk
    have hsome := h k hk
    unfold given at hsome
    split at hsome
    · rename_i hin
      exact ⟨hin.1, hin.2, hsome⟩
    · exact absurd hsome (by simp)
  have hhad : ∀ k < n, p.HadWith off n k := by
    intro k hk
    obtain ⟨hal, hin, hsome⟩ := hall k hk
    have hput : off + k < (SegmentMap.ofPushes p.pushes).nextOut := by
      by_contra hge
      have hnext := p.denotes.next
      rw [pushed_eq_none p.pushes (by omega)] at hsome
      exact absurd hsome (by simp)
    obtain ⟨i, ⟨s, hs, hcov⟩, -⟩ := p.exists_unique_segment hput
    have hmem := List.mem_of_getElem? hs
    refine ⟨s, hal, hmem, hcov, ?_, fun k' hk' hc => ?_⟩
    · have h1 := hcov.1
      show max off s.outStart < p.outLen
      omega
    · obtain ⟨-, hin', hsome'⟩ := hall k' hk'
      have hbyte := p.denotes.byte s hmem (off + k') (by omega) hc
      show (s.byte p.sectors.byte (p.source.decoded p.inflate p.sectors) (off + k')).isSome = true
      rw [hbyte]
      exact hsome'
  refine ⟨fun k hk hnot => absurd (hhad k hk) hnot, fun k hk hnone => ?_⟩
  have hsome := h k hk
  rw [hnone] at hsome
  exact absurd hsome (by simp)

end PushedImage

/-! ## A truncated image -/

/-- The sectors of a table whose statuses stay the same. -/
def SectorTable.sectorwise (t : SectorTable σ) (status : ℕ → SectorStatus)
    (hst : ∀ s, t.status s = status) : Sectorwise t.source where
  readable i := decide (status i = .good)
  content := t.content
  status s off n hoff hin k hk := by
    rw [sector_source] at hoff ⊢
    have hd := Nat.div_mul_le_self k t.sectorSize
    have hin' : off + n ≤ t.len := hin
    rw [decide_eq_true_eq, ← (t.answer_fixed hst s hoff hk (by omega)).1]
    rfl
  bytes s off n hoff hin k hk hgood := by
    rw [sector_source] at hoff hgood
    have hd := Nat.div_mul_le_self k t.sectorSize
    have hin' : off + n ≤ t.len := hin
    refine (t.answer_fixed hst s hoff hk (by omega)).2.trans ?_
    exact if_pos (of_decide_eq_true hgood)

lemma SectorTable.status_solid (s : Unit) :
    (solid 512 512 1 sector512_le_u64Max sector512_le_u32Max sector512_pos).status s =
      fun _ => .good := rfl

/-- An image of two sectors of which the backing file has only the first. -/
def truncatedImage : PushedImage Unit where
  backing :=
    (SectorTable.solid 512 512 1 sector512_le_u64Max sector512_le_u32Max sector512_pos).source
  sectors := SectorTable.sectorwise _ _ SectorTable.status_solid
  inflate _ _ _ := none
  pushes := [(512, .raw 0), (512, .raw 512)]
  outLen := 1024
  sectorSize := 512
  id := "vdi"
  outLen_le := by decide

/-- Both sectors read as zeros, although the first push gives its bytes. -/
theorem truncatedImage_counterexample : ¬ ∀ (σ : Type) (p : PushedImage σ) (s : σ)
    (history : List (ℕ × ℕ)) (off n : ℕ),
    p.ReadsRight off n (p.source.readAt p.inflate (p.after s history) off n).1 := by
  intro h
  have hbyte := (h Unit truncatedImage () [] 0 1024).bytes 0 (by omega)
  have hread : byteAt (truncatedImage.source.readAt truncatedImage.inflate
      (truncatedImage.after () []) 0 1024).1.buf 0 = 0 := by decide
  have hgiven : truncatedImage.given 0 0 = some 1 := by decide
  rw [hread, hgiven] at hbyte
  exact absurd hbyte (by decide)

end Reclaim
