import Reclaim.Block.ReadResult

/-!
# Block sources

A `BlockSource σ` is a source whose backing store is in one of the states `σ`: a read answers and
moves it on, so a device that fails, recovers or disappears between two reads is a source like any
other.  The fields behind the operations are what the `BlockSource` trait promises its callers: a
read fills the whole buffer, reports one status a sector, answers an unaligned request with an
all-bad result, and zero-fills what it does not report good.  Of the last only reads that stay
inside the source are held to it; what the leaf sources do at their end is a result of its own.

`Device σ` is a source in use: its state and the reads made of it so far, in order.  `Stable`
says what it means for the reads of a source not to depend on when they are made.
-/

namespace Reclaim

open FileBytes

variable {σ : Type}

/-! ## Sizes that fit -/

lemma byte_le_u64Max : 1 ≤ u64Max := by decide

lemma byte_le_u32Max : 1 ≤ u32Max := by decide

lemma sector512_le_u64Max : 512 ≤ u64Max := by decide

lemma sector512_le_u32Max : 512 ≤ u32Max := by decide

lemma sector512_pos : 0 < 512 := by omega

lemma sectors8_le_u64Max : 4096 ≤ u64Max := by decide

lemma sector4096_le_u32Max : 4096 ≤ u32Max := by decide

lemma sector4096_pos : 0 < 4096 := by omega

/-- What a read fills in and what it reports. -/
structure ReadOutcome where
  buf : Bytes
  result : ReadResult

/-- A read-only, random-access block source. -/
structure BlockSource (σ : Type) where
  /-- Stable identity across sessions. -/
  id : String
  /-- Length in bytes. -/
  len : ℕ
  /-- Logical sector size in bytes. -/
  sectorSize : ℕ
  /-- Read `n` bytes at an offset. -/
  readAt : σ → ℕ → ℕ → ReadOutcome × σ
  /-- True once a read has observed the backing device disappear. -/
  vanished : σ → Bool
  len_le : len ≤ u64Max
  sectorSize_le : sectorSize ≤ u32Max
  filled : ∀ s off n, (readAt s off n).1.buf.length = n
  sectorCount_eq : ∀ s off n,
    (readAt s off n).1.result.sectorCount = divCeil n (max sectorSize 1)
  zeroFilled : ∀ s off n, off + n ≤ len → ∀ i, (readAt s off n).1.result.status i ≠ .good →
    ∀ k, k / max sectorSize 1 = i → byteAt (readAt s off n).1.buf k = 0
  unaligned : ∀ s off n, ¬ max sectorSize 1 ∣ off →
    ∀ i < divCeil n (max sectorSize 1), (readAt s off n).1.result.status i = .bad

namespace BlockSource

/-- The sector size that the imager works with. -/
def sector (src : BlockSource σ) : ℕ := max src.sectorSize 1

lemma sector_pos (src : BlockSource σ) : 0 < src.sector := by unfold sector; omega

lemma sector_le (src : BlockSource σ) : src.sector ≤ u32Max := by
  have := src.sectorSize_le
  unfold sector u32Max at *
  omega

/-- Reads do not depend on when they are made, and every sector that is not bad has the one
content there is. -/
structure Stable (src : BlockSource σ) where
  answer : ℕ → ℕ → ReadOutcome
  content : ℕ → UInt8
  answers : ∀ s off n, (src.readAt s off n).1 = answer off n
  faithful : ∀ off n, src.sector ∣ off → ∀ k < n,
    (answer off n).result.status (k / src.sector) ≠ .bad →
      byteAt (answer off n).buf k = content (off + k)

end BlockSource

/-! ## A source in use -/

/-- Why a read of the imager is made. -/
inductive Pass where
  /-- Pass 1: the whole chunk. -/
  | first
  /-- Pass 2 or 3: one bad sector again. -/
  | retry
  deriving DecidableEq, Repr

/-- One read: where, what came back, and whether the device was already known to be gone. -/
structure ReadEvent where
  pass : Pass
  offset : ℕ
  outcome : ReadOutcome
  afterVanish : Bool

/-- The event is a read of `n` bytes at `off`, made for `pass`. -/
structure ReadEvent.IsRead (src : BlockSource σ) (pass : Pass) (off n : ℕ) (e : ReadEvent) :
    Prop where
  pass : e.pass = pass
  offset : e.offset = off
  answered : ∃ s, e.outcome = (src.readAt s off n).1 ∧ e.afterVanish = src.vanished s

namespace ReadEvent.IsRead

variable {src : BlockSource σ} {pass : Pass} {off n : ℕ} {e : ReadEvent}

lemma sectorCount (h : e.IsRead src pass off n) :
    e.outcome.result.sectorCount = divCeil n src.sector := by
  obtain ⟨s, hs, -⟩ := h.answered
  rw [hs]
  exact src.sectorCount_eq s off n

lemma length_buf (h : e.IsRead src pass off n) : e.outcome.buf.length = n := by
  obtain ⟨s, hs, -⟩ := h.answered
  rw [hs]
  exact src.filled s off n

lemma eq_answer (h : e.IsRead src pass off n) (st : src.Stable) : e.outcome = st.answer off n := by
  obtain ⟨s, hs, -⟩ := h.answered
  rw [hs, st.answers]

end ReadEvent.IsRead

/-- A source's state and the reads made of it. -/
structure Device (σ : Type) where
  state : σ
  reads : List ReadEvent

/-- Read `n` bytes at `off`. -/
def readSource (src : BlockSource σ) (pass : Pass) (off n : ℕ) (d : Device σ) :
    ReadOutcome × Device σ :=
  let r := src.readAt d.state off n
  (r.1, ⟨r.2, d.reads ++ [⟨pass, off, r.1, src.vanished d.state⟩]⟩)

end Reclaim
