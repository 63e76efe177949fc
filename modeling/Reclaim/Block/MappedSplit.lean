import Reclaim.Block.MappedRight

/-!
# Requests cut into sectors

Whoever finds a sector bad in a large read asks for it again on its own, to see what of the area can
be read after all.  With a `MappedSource` that may come out differently: the part of a request in
one segment is had together or not at all.

`splitsAlike_iff` says when it does not: no sector has, on its own, bytes that it has not in the
request, or the other way round.
-/

namespace Reclaim

open FileBytes

namespace PushedImage

variable {σ : Type} (p : PushedImage σ)

/-- The bytes of a request in its sector `j`. -/
def span (n j : ℕ) : ℕ := min p.source.sectorSize (n - j * p.source.sectorSize)

/-- A read of `n` bytes gives every sector the status and the bytes that the reads of the sectors
alone give it. -/
structure SplitsAlike (n : ℕ) (out : ReadOutcome) (alone : ℕ → ReadOutcome) : Prop where
  status : ∀ j < divCeil n p.source.sectorSize,
    out.result.status j = (alone j).result.status 0
  bytes : ∀ j < divCeil n p.source.sectorSize, ∀ k < p.span n j,
    byteAt out.buf (j * p.source.sectorSize + k) = byteAt (alone j).buf k

/-- A byte of sector `j` that the sector has alone. -/
abbrev HadAlone (off n j k : ℕ) : Prop :=
  p.HadWith (off + j * p.source.sectorSize) (p.span n j) k

/-- What a sector has alone and not in the request, with the rest of its segment, is zero, and so is
what it has in the request and not alone, behind the declared end; and the sector is bad both
ways. -/
structure NoneSpoilt (off n : ℕ) : Prop where
  lost : ∀ j < divCeil n p.source.sectorSize, ∀ k < p.span n j, ∀ s,
    HadFrom p.inflate p.source p.sectors (off + j * p.source.sectorSize) (p.span n j) s k →
      ¬ p.HadWith off n (j * p.source.sectorSize + k) →
        (p.source.segByte p.inflate p.sectors s (off + j * p.source.sectorSize + k)).getD 0 = 0 ∧
          ∃ k' < p.span n j, ¬ p.HadAlone off n j k'
  excess : ∀ j < divCeil n p.source.sectorSize, ∀ k < p.span n j, ∀ s,
    HadFrom p.inflate p.source p.sectors off n s (j * p.source.sectorSize + k) →
      ¬ p.HadAlone off n j k →
        (p.source.segByte p.inflate p.sectors s
            (off + (j * p.source.sectorSize + k))).getD 0 = 0 ∧
          ∃ k' < p.span n j, ¬ p.HadWith off n (j * p.source.sectorSize + k')

variable {p} {off n : ℕ}

/-- A segment that a request comes to begins before the last `u64`. -/
lemma outStart_lt_of_hadFrom {s : Segment} {k : ℕ}
    (hs : HadFrom p.inflate p.source p.sectors off n s k) : s.outStart < u64Max := by
  have hlt : max off s.outStart < p.outLen := hs.entered
  have hmax := p.outLen_le
  omega

/-- Two reads that have a byte have it from the same segment. -/
lemma hadFrom_unique {off' n' k k' : ℕ} {r s : Segment}
    (hr : HadFrom p.inflate p.source p.sectors off n r k)
    (hs : HadFrom p.inflate p.source p.sectors off' n' s k')
    (heq : off + k = off' + k') : r = s := by
  have hcov := hr.covers
  rw [heq] at hcov
  exact covers_unique p.denotes.tiles hr.mem hs.mem (outStart_lt_of_hadFrom hr)
    (outStart_lt_of_hadFrom hs) hcov hs.covers

/-- The bytes of a sector are those of the request in it. -/
lemma exists_in_sector_iff {j : ℕ} (P : ℕ → Prop) :
    (∃ k < n, k / p.source.sectorSize = j ∧ P k) ↔
      ∃ k < p.span n j, P (j * p.source.sectorSize + k) := by
  have hss := p.source.sectorSize_pos
  constructor
  · rintro ⟨k, hk, rfl, hP⟩
    have hd := Nat.div_add_mod' k p.source.sectorSize
    have hm := Nat.mod_lt k hss
    refine ⟨k % p.source.sectorSize, lt_min hm (by omega), ?_⟩
    rw [hd]
    exact hP
  · rintro ⟨k, hk, hP⟩
    obtain ⟨hlt, hin⟩ := lt_min_iff.1 hk
    refine ⟨j * p.source.sectorSize + k, by omega, ?_, hP⟩
    rw [Nat.mul_comm, Nat.mul_add_div hss, Nat.div_eq_of_lt hlt, Nat.add_zero]

lemma span_pos {j : ℕ} (hj : j < divCeil n p.source.sectorSize) : 0 < p.span n j := by
  have hss := p.source.sectorSize_pos
  have hlt := (lt_divCeil_iff hss).1 hj
  exact lt_min hss (by omega)

lemma status_eq_of_bad {a b : SectorStatus} (ha : a ≠ .unread) (hb : b ≠ .unread)
    (h : a = .bad ↔ b = .bad) : a = b := by
  cases a <;> cases b <;> simp_all

/-- What a read gives its sectors, when every block that is kept is right. -/
structure Shows (p : PushedImage σ) (off n : ℕ) (out : ReadOutcome) : Prop where
  had : ∀ k < n, ∀ s, HadFrom p.inflate p.source p.sectors off n s k →
    byteAt out.buf k = (p.source.segByte p.inflate p.sectors s (off + k)).getD 0
  lost : ∀ k < n, ¬ p.HadWith off n k → byteAt out.buf k = 0
  bad : ∀ j < divCeil n p.source.sectorSize, out.result.status j = .bad ↔
    ∃ k < n, k / p.source.sectorSize = j ∧ ¬ p.HadWith off n k
  known : ∀ j < divCeil n p.source.sectorSize, out.result.status j ≠ .unread

lemma shows_readAt (p : PushedImage σ) (s : σ) (history : List (ℕ × ℕ)) (off n : ℕ) :
    p.Shows off n (p.source.readAt p.inflate (p.after s history) off n).1 := by
  obtain ⟨-, -, hhad, hlost, hstatus⟩ :=
    readAt_spec p.denotes.tiles (p.fresh_after s history) off n
  exact ⟨hhad, hlost, fun j hj => (hstatus j hj).1, fun j hj => (hstatus j hj).2⟩

/-- The status of a sector that is read alone. -/
lemma Shows.bad_alone {j : ℕ} {out : ReadOutcome} (hj : j < divCeil n p.source.sectorSize)
    (h : p.Shows (off + j * p.source.sectorSize) (p.span n j) out) :
    (out.result.status 0 = .bad ↔ ∃ k < p.span n j, ¬ p.HadAlone off n j k) ∧
      out.result.status 0 ≠ .unread := by
  have hss := p.source.sectorSize_pos
  have hpos := span_pos hj
  have hone : 0 < divCeil (p.span n j) p.source.sectorSize := (lt_divCeil_iff hss).2 (by omega)
  refine ⟨(h.bad 0 hone).trans ?_, h.known 0 hone⟩
  refine exists_congr fun k => and_congr_right fun hk => and_iff_right ?_
  exact Nat.div_eq_of_lt (lt_min_iff.1 hk).1

lemma Shows.bad_within {j : ℕ} {out : ReadOutcome} (hj : j < divCeil n p.source.sectorSize)
    (h : p.Shows off n out) : out.result.status j = .bad ↔
      ∃ k < p.span n j, ¬ p.HadWith off n (j * p.source.sectorSize + k) :=
  (h.bad j hj).trans (exists_in_sector_iff fun k => ¬ p.HadWith off n k)

lemma lt_of_lt_span {j k : ℕ} (hk : k < p.span n j) : j * p.source.sectorSize + k < n := by
  have := (lt_min_iff.1 hk).2
  omega

/-- Reads that show what can be had split alike exactly if nothing is spoilt. -/
lemma splitsAlike_of_shows {out : ReadOutcome} {alone : ℕ → ReadOutcome} (h : p.Shows off n out)
    (ha : ∀ j, p.Shows (off + j * p.source.sectorSize) (p.span n j) (alone j)) :
    p.SplitsAlike n out alone ↔ p.NoneSpoilt off n := by
  have hplace : ∀ j k, off + (j * p.source.sectorSize + k) = off + j * p.source.sectorSize + k :=
    fun j k => (Nat.add_assoc ..).symm
  constructor
  · intro hs
    have hbad : ∀ j (hj : j < divCeil n p.source.sectorSize),
        (∃ k < p.span n j, ¬ p.HadWith off n (j * p.source.sectorSize + k)) ↔
          ∃ k < p.span n j, ¬ p.HadAlone off n j k := by
      intro j hj
      rw [← h.bad_within hj, hs.status j hj]
      exact ((ha j).bad_alone hj).1
    refine ⟨fun j hj k hk s hfrom hnot => ⟨?_, ?_⟩, fun j hj k hk s hfrom hnot => ⟨?_, ?_⟩⟩
    · rw [← (ha j).had k hk s hfrom, ← hs.bytes j hj k hk]
      exact h.lost _ (lt_of_lt_span hk) hnot
    · exact (hbad j hj).1 ⟨k, hk, hnot⟩
    · rw [← h.had _ (lt_of_lt_span hk) s hfrom, hs.bytes j hj k hk]
      exact (ha j).lost k hk hnot
    · exact (hbad j hj).2 ⟨k, hk, hnot⟩
  · intro hn
    refine ⟨fun j hj => ?_, fun j hj k hk => ?_⟩
    · obtain ⟨hbad, hknown⟩ := (ha j).bad_alone hj
      refine status_eq_of_bad (h.known j hj) hknown
        ((h.bad_within hj).trans (Iff.trans ?_ hbad.symm))
      constructor
      · rintro ⟨k, hk, hnot⟩
        by_cases hal : p.HadAlone off n j k
        · obtain ⟨s, hs⟩ := hal
          exact (hn.lost j hj k hk s hs hnot).2
        · exact ⟨k, hk, hal⟩
      · rintro ⟨k, hk, hnot⟩
        by_cases hin : p.HadWith off n (j * p.source.sectorSize + k)
        · obtain ⟨s, hs⟩ := hin
          exact (hn.excess j hj k hk s hs hnot).2
        · exact ⟨k, hk, hin⟩
    · by_cases hin : p.HadWith off n (j * p.source.sectorSize + k)
      · obtain ⟨s, hs⟩ := hin
        rw [h.had _ (lt_of_lt_span hk) s hs]
        by_cases hal : p.HadAlone off n j k
        · obtain ⟨r, hr⟩ := hal
          rw [(ha j).had k hk r hr, hadFrom_unique hs hr (hplace j k), hplace]
        · rw [(ha j).lost k hk hal]
          exact (hn.excess j hj k hk s hs hal).1
      · rw [h.lost _ (lt_of_lt_span hk) hin]
        by_cases hal : p.HadAlone off n j k
        · obtain ⟨r, hr⟩ := hal
          rw [(ha j).had k hk r hr]
          exact (hn.lost j hj k hk r hr hin).1.symm
        · rw [(ha j).lost k hk hal]

/-- **When a request may be cut into sectors**, whatever was read before it and before each of
them. -/
theorem splitsAlike_iff (p : PushedImage σ) (off n : ℕ) (before : σ × List (ℕ × ℕ))
    (before' : ℕ → σ × List (ℕ × ℕ)) :
    p.SplitsAlike n (p.source.readAt p.inflate (p.after before.1 before.2) off n).1
        (fun j => (p.source.readAt p.inflate (p.after (before' j).1 (before' j).2)
          (off + j * p.source.sectorSize) (p.span n j)).1) ↔
      p.NoneSpoilt off n :=
  splitsAlike_of_shows (p.shows_readAt _ _ off n) fun _ => p.shows_readAt _ _ _ _

/-- A sector that is there is bad in a request for two sectors, and good alone. -/
theorem splitsAlike_counterexample : ¬ ∀ (σ : Type) (p : PushedImage σ) (s : σ) (off n : ℕ),
    p.SplitsAlike n (p.source.readAt p.inflate (p.after s []) off n).1
      (fun j => (p.source.readAt p.inflate (p.after s [])
        (off + j * p.source.sectorSize) (p.span n j)).1) := by
  intro h
  have hstatus := (h Unit truncatedImage () 0 1024).status 0 (by decide)
  have hbad : (truncatedImage.source.readAt truncatedImage.inflate
      (truncatedImage.after () []) 0 1024).1.result.status 0 = .bad := by decide
  have hgood : (truncatedImage.source.readAt truncatedImage.inflate (truncatedImage.after () [])
      (0 + 0 * truncatedImage.source.sectorSize) (truncatedImage.span 1024 0)).1.result.status 0 =
        .good := by decide
  rw [hbad, hgood] at hstatus
  exact absurd hstatus (by decide)

end PushedImage

end Reclaim
