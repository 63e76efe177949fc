import Reclaim.Block.ReadAhead
import Reclaim.Block.SectorTable

/-!
# Reading through the cache and past it

A read through the cache should return what a read of the source returns, with the same status for
every sector, whatever was read before.  `Transparent` says so of one read.

The cache keeps one bit for each sector of a chunk, and a sector that was never read has it clear:
through the cache it is good.  `transparent_iff` says for which reads that is all there is to see:
those that the source answers in one piece as it answers them chunk by chunk, with no sector unread.
-/

namespace Reclaim

open FileBytes

variable {σ : Type}

/-- Every read of the source has one answer, whenever it is made. -/
structure Steady (src : BlockSource σ) where
  answer : ℕ → ℕ → ReadOutcome
  answers : ∀ s off n, (src.readAt s off n).1 = answer off n

/-- Two reads of `n` bytes in sectors of `ss` show the same bytes and report the same statuses. -/
structure SameRead (ss n : ℕ) (a b : ReadOutcome) : Prop where
  buf : a.buf = b.buf
  status : ∀ i < divCeil n ss, a.result.status i = b.result.status i

/-- A source refuses reads that begin in the middle of a sector, or behind its end. -/
def BlockSource.Refuses (src : BlockSource σ) (off : ℕ) : Prop :=
  ¬ src.sector ∣ off ∨ src.len ≤ off

instance (src : BlockSource σ) (off : ℕ) : Decidable (src.Refuses off) := instDecidableOr

namespace ReadAheadCache

variable {c : ReadAheadCache σ}

variable (c) in
/-- The cache after some reads, each an offset and a length. -/
def after (s : σ) (history : List (ℕ × ℕ)) : σ × c.CacheState :=
  history.foldl (fun t r => (c.readAt t r.1 r.2).2) (s, CacheState.empty c)

/-- A read through the cache is as one of the source. -/
def Transparent (st : Steady c.inner) (s : σ × c.CacheState) (off n : ℕ) : Prop :=
  SameRead c.inner.sector n (c.readAt s off n).1 (st.answer off n)

section Alike

variable (c) (st : Steady c.inner)

/-- What the source answers to the read of chunk `idx`. -/
def chunkAnswer (idx : ℕ) : ReadOutcome :=
  st.answer (saturatingMul idx c.chunkSize) (c.chunkLen idx)

/-- The status of the sector of a position, in the read of its chunk. -/
def chunkStatus (x : ℕ) : SectorStatus :=
  (c.chunkAnswer st (x / c.chunkSize)).result.status (x % c.chunkSize / c.inner.sector)

/-- The byte at a position, in the read of its chunk. -/
def chunkByte (x : ℕ) : UInt8 :=
  byteAt (c.chunkAnswer st (x / c.chunkSize)).buf (x % c.chunkSize)

/-- Where a request ends that the source can read to its end, or up to its own. -/
def readableEnd (off n : ℕ) : ℕ := min ((off + n) % 2 ^ 64) c.inner.len

/-- Sector `i` of a request has a byte of the request behind the end of the source. -/
def PastEnd (off n i : ℕ) : Prop :=
  c.inner.len < (off + n) % 2 ^ 64 ∧ c.inner.len - off < min ((i + 1) * c.inner.sector) n

instance (off n i : ℕ) : Decidable (c.PastEnd off n i) := instDecidableAnd

/-- The source answers a request as it answers the reads of its chunks: every sector is good or bad,
those are bad that are so in their chunks or have bytes behind the end, and there are zeros where
nothing can be read. -/
structure Alike (off n : ℕ) : Prop where
  known : ∀ i < divCeil n c.inner.sector, (st.answer off n).result.status i ≠ .unread
  bad : ∀ i < divCeil n c.inner.sector, (st.answer off n).result.status i = .bad ↔
    c.inner.Refuses off ∨ c.PastEnd off n i ∨
      off + i * c.inner.sector < c.readableEnd off n ∧
        c.chunkStatus st (off + i * c.inner.sector) = .bad
  bytes : ∀ k < n, byteAt (st.answer off n).buf k =
    if ¬ c.inner.Refuses off ∧ off + k < c.readableEnd off n then
      c.chunkByte st (off + k) else 0

end Alike

section Transparent

variable {st : Steady c.inner}

/-- The entry holds what the source answers to the read of its chunk. -/
structure Faithful (st : Steady c.inner) (e : c.CacheEntry) : Prop where
  data : e.data = (c.chunkAnswer st e.idx).buf
  bad : ∀ j, e.bad.get j = true ↔ (c.chunkAnswer st e.idx).result.status j = .bad

lemma faithful_fetch (idx : ℕ) (s : σ) (t : ℕ) : Faithful st ((c.fetch idx s).1.used t) := by
  unfold fetch
  split
  · rename_i hzero
    have hanswer : c.chunkAnswer st idx =
      (c.inner.readAt s (saturatingMul idx c.chunkSize) 0).1 := by
      rw [chunkAnswer, hzero, st.answers]
    refine ⟨?_, fun j => ?_⟩
    · have hfilled := c.inner.filled s (saturatingMul idx c.chunkSize) 0
      show [] = (c.chunkAnswer st idx).buf
      rw [hanswer]
      exact (List.eq_nil_of_length_eq_zero hfilled).symm
    · have hcount := c.inner.sectorCount_eq s (saturatingMul idx c.chunkSize) 0
      have hnone : divCeil 0 (max c.inner.sectorSize 1) = 0 := Nat.div_eq_of_lt (by omega)
      show (Bitset.new 0).get j = true ↔ (c.chunkAnswer st idx).result.status j = .bad
      rw [Bitset.get_new, hanswer]
      apply iff_of_false Bool.false_ne_true
      intro hbad
      have hlt := ReadResult.lt_of_status_ne_good (hbad.trans_ne (by decide))
      rw [hcount, hnone] at hlt
      exact absurd hlt (Nat.not_lt_zero j)
  · refine ⟨?_, fun j => ?_⟩
    · exact congrArg ReadOutcome.buf (st.answers _ _ _)
    · show (List.foldl Bitset.set _ _).get j = true ↔ (c.chunkAnswer st idx).result.status j = .bad
      rw [Bitset.get_foldl_set, Bitset.get_new, Bitset.len_new, Bool.false_or, Bool.and_eq_true,
        decide_eq_true_eq, decide_eq_true_eq, ReadResult.mem_badSectors, st.answers]
      apply and_iff_left_of_imp
      intro hbad
      rw [← st.answers s] at hbad ⊢
      exact ReadResult.lt_of_status_ne_good (hbad.trans_ne (by decide))

lemma faithful_used (e : c.CacheEntry) (t : ℕ) (h : Faithful st e) : Faithful st (e.used t) :=
  ⟨h.data, h.bad⟩

/-- The chunks of a read that are faithful have what the source answers to their reads. -/
lemma chunks_faithful {E : Chunks c} {x : ℕ} (hidx : (E (x / c.chunkSize)).idx = x / c.chunkSize)
    (h : Faithful st (E (x / c.chunkSize))) (s : σ) (hx : x < c.inner.len) :
    (E.isBad x = true ↔ c.chunkStatus st x = .bad) ∧ E.byte x = c.chunkByte st x := by
  have hbad : E.isBad x = true ↔ c.chunkStatus st x = .bad := by
    unfold Chunks.isBad chunkStatus
    rw [h.bad, hidx]
  refine ⟨hbad, ?_⟩
  unfold Chunks.byte
  split
  · rename_i hb
    have hmax := c.inner.len_le
    have hle := Nat.div_mul_le_self x c.chunkSize
    have hstart := saturatingMul_chunk (c := c) (x := x) (by omega)
    have hz := c.inner.zeroFilled s (saturatingMul (x / c.chunkSize) c.chunkSize)
      (c.chunkLen (x / c.chunkSize)) (by
        unfold chunkLen
        omega) (x % c.chunkSize / c.inner.sector)
    rw [st.answers] at hz
    exact (hz ((hbad.1 hb).trans_ne (by decide)) _ rfl).symm
  · rw [h.data, hidx]
    rfl

/-- A status that is bad or good is one that is known. -/
lemma ite_bad_eq_iff {p : Prop} [Decidable p] {status : SectorStatus} :
    (if p then SectorStatus.bad else .good) = status ↔
      status ≠ .unread ∧ (status = .bad ↔ p) := by
  cases status <;> by_cases h : p <;> simp [h]

/-- **One read through the cache**, when everything resident is faithful. -/
lemma transparent_of_faithful {s : σ × c.CacheState} (hs : ∀ e ∈ s.2.map, Faithful st e)
    (off n : ℕ) : Transparent st s off n ↔ c.Alike st off n := by
  have hdirect : (st.answer off n).buf.length = n := by
    rw [← st.answers s.1]
    exact c.inner.filled _ _ _
  by_cases hn : n = 0
  · subst hn
    have hnone : divCeil 0 c.inner.sector = 0 :=
      Nat.div_eq_of_lt (by have := c.inner.sector_pos; omega)
    refine iff_of_true ⟨?_, fun i hi => by omega⟩
      ⟨fun i hi => by omega, fun i hi => by omega, fun k hk => by omega⟩
    rw [readAt_refused (.inl rfl), List.eq_nil_of_length_eq_zero hdirect]
    rfl
  by_cases href : c.inner.Refuses off
  · -- both are zeros, and bad
    have hread := readAt_refused (n := n) (.inr href) s
    rw [if_neg hn] at hread
    unfold Transparent
    rw [hread]
    constructor
    · rintro ⟨hbuf, hstatus⟩
      have hbad : ∀ i < divCeil n c.inner.sector, (st.answer off n).result.status i = .bad :=
        fun i hi => (hstatus i hi).symm.trans (ReadResult.status_allBad hi)
      refine ⟨fun i hi => (hbad i hi).trans_ne (by decide), fun i hi => ?_, fun k hk => ?_⟩
      · exact iff_of_true (hbad i hi) (.inl href)
      · rw [if_neg (fun h => h.1 href), ← hbuf]
        exact byteAt_replicate_zero n k
    · intro h
      refine ⟨?_, fun i hi => ?_⟩
      · apply ext_byteAt (by rw [List.length_replicate, hdirect])
        intro k hk
        rw [List.length_replicate] at hk
        rw [byteAt_replicate_zero, h.bytes k hk, if_neg (fun h => h.1 href)]
      · exact (ReadResult.status_allBad hi).trans ((h.bad i hi).2 (.inl href)).symm
  · have href' := href
    unfold BlockSource.Refuses at href'
    push Not at href'
    obtain ⟨hoff, hlen⟩ := href'
    obtain ⟨-, E, hE, hput⟩ := readAt_spec faithful_fetch faithful_used hn hoff hlen hs
    have hchunk : ∀ x, off ≤ x → x < c.readableEnd off n →
        (E.isBad x = true ↔ c.chunkStatus st x = .bad) ∧ E.byte x = c.chunkByte st x := by
      intro x hx hlt
      obtain ⟨hidx, hf⟩ := hE x hx hlt
      exact chunks_faithful hidx hf s.1 (lt_of_lt_of_le hlt (min_le_right _ _))
    have hbytes : ∀ k, byteAt (c.readAt s off n).1.buf k =
        if ¬ c.inner.Refuses off ∧ off + k < c.readableEnd off n then
          c.chunkByte st (off + k) else 0 := by
      intro k
      rw [hput.bytes k]
      refine ite_congr ?_ (fun hk => (hchunk _ (by omega) hk.2).2) fun _ => rfl
      exact propext (and_iff_right href).symm
    have hstatus : ∀ i < divCeil n c.inner.sector, (c.readAt s off n).1.result.status i =
        if c.PastEnd off n i ∨ off + i * c.inner.sector < c.readableEnd off n ∧
          E.isBad (off + i * c.inner.sector) = true then .bad else .good := fun i hi =>
      (hput.status i hi).trans (if_congr Iff.rfl rfl rfl)
    have hbad : ∀ i, (c.PastEnd off n i ∨ off + i * c.inner.sector < c.readableEnd off n ∧
        E.isBad (off + i * c.inner.sector) = true) ↔
          c.inner.Refuses off ∨ c.PastEnd off n i ∨
            off + i * c.inner.sector < c.readableEnd off n ∧
              c.chunkStatus st (off + i * c.inner.sector) = .bad := by
      intro i
      rw [or_iff_right (a := c.inner.Refuses off) href]
      exact or_congr_right (and_congr_right fun hin => (hchunk _ (by omega) hin).1)
    constructor
    · rintro ⟨hbuf, hst⟩
      have hall := fun i hi => ite_bad_eq_iff.1 ((hstatus i hi).symm.trans (hst i hi))
      refine ⟨fun i hi => (hall i hi).1, fun i hi => (hall i hi).2.trans (hbad i), fun k _ => ?_⟩
      rw [← hbuf, hbytes]
    · intro h
      refine ⟨?_, fun i hi => (hstatus i hi).trans ?_⟩
      · apply ext_byteAt (by rw [hput.length, hdirect])
        intro k hk
        rw [hput.length] at hk
        rw [hbytes, h.bytes k hk]
      · exact ite_bad_eq_iff.2 ⟨h.known i hi, (h.bad i hi).trans (hbad i).symm⟩

/-- A read leaves only faithful chunks behind. -/
lemma faithful_readAt {s : σ × c.CacheState} (hs : ∀ e ∈ s.2.map, Faithful st e) (off n : ℕ) :
    ∀ e ∈ (c.readAt s off n).2.2.map, Faithful st e := by
  by_cases h : n = 0 ∨ ¬ c.inner.sector ∣ off ∨ c.inner.len ≤ off
  · rw [readAt_refused h]
    exact hs
  · push Not at h
    exact (readAt_spec faithful_fetch faithful_used h.1 h.2.1 h.2.2 hs).1

/-- Every history leaves faithful chunks, and no more of them than there is room for. -/
lemma after_spec (st : Steady c.inner) (s : σ) (history : List (ℕ × ℕ)) :
    (∀ e ∈ (c.after s history).2.map, Faithful st e) ∧
      (c.after s history).2.map.length ≤ c.capacityChunks := by
  induction history using List.reverseRecOn with
  | nil => simp [after, CacheState.empty]
  | append_singleton history r ih =>
    unfold after at ih ⊢
    rw [List.foldl_append, List.foldl_cons, List.foldl_nil]
    exact ⟨faithful_readAt ih.1 _ _, resident_readAt ih.2 _ _⟩

/-- **Which reads the cache is transparent for**, whatever was read before: those whose answer is
the same in one piece and chunk by chunk, with no sector unread.  Never more chunks stay resident
than there is room for. -/
theorem transparent_iff (st : Steady c.inner) (s : σ) (history : List (ℕ × ℕ)) (off n : ℕ) :
    (Transparent st (c.after s history) off n ↔ c.Alike st off n) ∧
      (c.after s history).2.map.length ≤ c.capacityChunks :=
  ⟨transparent_of_faithful (after_spec st s history).1 off n, (after_spec st s history).2⟩

end Transparent

/-! ## Sources given sector by sector -/

section Table

variable (t : SectorTable σ) {status : ℕ → SectorStatus} (hst : ∀ s, t.status s = status)
  {capacityChunks : ℕ}

/-- A table whose statuses stay the same is a steady source. -/
def steadyTable (s₀ : σ) : Steady (withCapacity t.source capacityChunks).inner where
  answer := t.answer s₀
  answers s off n := t.answer_congr hst s s₀ off n

/-- Whether a sector begins in a source of whole sectors shows at each of its bytes. -/
lemma begins_iff {ss len off k : ℕ} (hss : 0 < ss) (hlen : ss ∣ len) (hoff : ss ∣ off) :
    off + k / ss * ss < len ↔ off + k < len := by
  obtain ⟨q, rfl⟩ := hlen
  obtain ⟨p, rfl⟩ := hoff
  have hd := Nat.div_mul_le_self k ss
  constructor
  · intro h
    have hlt : p + k / ss < q := by
      apply Nat.lt_of_mul_lt_mul_left (a := ss)
      rw [Nat.mul_add, Nat.mul_comm ss (k / ss)]
      exact h
    have hmul := Nat.mul_le_mul_left ss (show p + k / ss + 1 ≤ q from hlt)
    have hl := Nat.lt_div_mul_add (a := k) hss
    rw [Nat.mul_add, Nat.mul_add, Nat.mul_comm ss (k / ss)] at hmul
    omega
  · omega

/-- A source of whole sectors that answers each on its own is read alike in one piece and chunk by
chunk: all that matters is which of its sectors are unread. -/
lemma alike_table_iff (hlen : t.sectorSize ∣ t.len) (s₀ : σ) {off n : ℕ} (hmax : off + n < 2 ^ 64) :
    (withCapacity t.source capacityChunks).Alike (steadyTable t hst s₀) off n ↔
      (t.sectorSize ∣ off → ∀ i < divCeil n t.sectorSize, off + i * t.sectorSize < t.len →
        status ((off + i * t.sectorSize) / t.sectorSize) ≠ .unread) := by
  set c := withCapacity t.source capacityChunks with hc
  set st : Steady c.inner := steadyTable t hst s₀ with hsteady
  have hss := t.sectorSize_pos
  have hsector : c.inner.sector = t.sectorSize := SectorTable.sector_source t
  have hinner : c.inner.len = t.len := rfl
  have hanswer : ∀ off n, st.answer off n = t.answer s₀ off n := fun _ _ => rfl
  have hmod : (off + n) % 2 ^ 64 = off + n := Nat.mod_eq_of_lt hmax
  have hcp := c.chunk_pos
  have hdvd := c.sector_dvd
  rw [hsector] at hdvd
  -- what the chunk of a position says of it
  have hchunk : ∀ x, x < t.len → c.chunkStatus st x = status (x / t.sectorSize) ∧
      c.chunkByte st x = t.fixedByte status x := by
    intro x hx
    have hmax' := t.len_le
    have hdm := Nat.div_add_mod' x c.chunkSize
    have hlt := Nat.mod_lt x hcp
    have hstart := saturatingMul_chunk (c := c) (show x ≤ u64Max by omega)
    have hfloor := Nat.div_mul_le_self (x % c.chunkSize) t.sectorSize
    obtain ⟨hs, hb⟩ := t.answer_fixed hst s₀ (k := x % c.chunkSize)
      (n := c.chunkLen (x / c.chunkSize)) (hdvd.mul_left (x / c.chunkSize))
      (by unfold chunkLen; omega) (by omega)
    rw [hdm] at hs hb
    unfold chunkStatus chunkByte chunkAnswer
    rw [hsector, hstart]
    exact ⟨hs, hb⟩
  by_cases hoff : t.sectorSize ∣ off
  · have hrefuses : c.inner.Refuses off ↔ t.len ≤ off := by
      unfold BlockSource.Refuses
      rw [hsector, hinner]
      exact or_iff_right fun h => h hoff
    have hdirect : ∀ i < divCeil n t.sectorSize, (st.answer off n).result.status i =
        if t.len ≤ off + i * t.sectorSize then .bad
        else status ((off + i * t.sectorSize) / t.sectorSize) := by
      intro i hi
      have hin := (lt_divCeil_iff hss).1 hi
      by_cases hbehind : t.len ≤ off + i * t.sectorSize
      · rw [if_pos hbehind, hanswer, SectorTable.status_answer t hi, SectorTable.sectorAt,
          if_pos (.inr hbehind)]
      · have hread := (t.answer_fixed hst s₀ hoff hin (by
          rw [Nat.mul_div_cancel _ hss]
          omega)).1
        rw [Nat.mul_div_cancel _ hss] at hread
        rw [if_neg hbehind, hanswer, hread]
    have hbad : ∀ i < divCeil n t.sectorSize, ((st.answer off n).result.status i = .bad ↔
        c.inner.Refuses off ∨ c.PastEnd off n i ∨ off + i * c.inner.sector < c.readableEnd off n ∧
          c.chunkStatus st (off + i * c.inner.sector) = .bad) := by
      intro i hi
      have hin := (lt_divCeil_iff hss).1 hi
      have hmul : (i + 1) * t.sectorSize = i * t.sectorSize + t.sectorSize := by
        rw [Nat.add_mul, Nat.one_mul]
      rw [hdirect i hi, hrefuses]
      unfold PastEnd readableEnd
      rw [hsector, hinner, hmod, hmul]
      by_cases hbehind : t.len ≤ off + i * t.sectorSize
      · rw [if_pos hbehind]
        apply iff_of_true rfl
        by_cases hle : t.len ≤ off
        · exact .inl hle
        · exact .inr (.inl ⟨by omega, by omega⟩)
      · rw [if_neg hbehind, (hchunk _ (not_le.1 hbehind)).1, or_iff_right (by omega), or_iff_right,
          and_iff_right (by omega)]
        -- the last byte of the sector is in the source
        have hlast := (begins_iff (k := i * t.sectorSize + (t.sectorSize - 1)) hss hlen hoff).1 (by
          rw [Nat.add_div_of_dvd_right ⟨i, Nat.mul_comm _ _⟩, Nat.mul_div_cancel _ hss,
            Nat.div_eq_of_lt (by omega), Nat.add_zero]
          omega)
        rintro ⟨-, hcut⟩
        omega
    constructor
    · intro h _ i hi hbegins
      have hknown := h.known i (by rwa [hsector])
      rwa [hdirect i hi, if_neg (not_le.2 hbegins)] at hknown
    · intro h
      refine ⟨fun i hi => ?_, fun i hi => hbad i (by rwa [hsector] at hi), fun k hk => ?_⟩
      · rw [hsector] at hi
        rw [hdirect i hi]
        split
        · decide
        · rename_i hbegins
          exact h hoff i hi (not_le.1 hbegins)
      · have hend : c.readableEnd off n = min (off + n) t.len := by
          rw [readableEnd, hinner, hmod]
        show byteAt (st.answer off n).buf k = if ¬ c.inner.Refuses off ∧
          off + k < c.readableEnd off n then c.chunkByte st (off + k) else 0
        by_cases hin : off + k < t.len
        · have haccepts : ¬ c.inner.Refuses off := fun h => by
            have := hrefuses.1 h
            omega
          rw [if_pos ⟨haccepts, by omega⟩, (hchunk _ hin).2]
          exact (t.answer_fixed hst s₀ hoff hk ((begins_iff hss hlen hoff).2 hin)).2
        · rw [if_neg fun h => by have := h.2; omega, hanswer, SectorTable.byteAt_answer t hk,
            SectorTable.byteFor, if_neg]
          have hbehind := (begins_iff (k := k) hss hlen hoff).not.2 hin
          rw [SectorTable.sectorAt, if_pos (.inr (not_lt.1 hbehind))]
          decide
  · have href : c.inner.Refuses off := .inl (by rwa [hsector])
    have hall : ∀ i < divCeil n t.sectorSize, (st.answer off n).result.status i = .bad := by
      intro i hi
      rw [hanswer, SectorTable.status_answer t hi, SectorTable.sectorAt, if_pos (.inl hoff)]
    refine iff_of_true ⟨fun i hi => ?_, fun i hi => ?_, fun k hk => ?_⟩ fun h => absurd h hoff
    · rw [hall i (by rwa [hsector] at hi)]
      decide
    · exact iff_of_true (hall i (by rwa [hsector] at hi)) (.inl href)
    · rw [if_neg fun h => h.1 href, hanswer, SectorTable.byteAt_answer t hk, SectorTable.byteFor,
        if_neg]
      rw [SectorTable.sectorAt, if_pos (.inl hoff)]
      decide

end Table

end ReadAheadCache

/-- A sector that was never read. -/
def neverRead : SectorTable Unit where
  id := "image"
  len := 512
  sectorSize := 512
  content _ := 0
  status _ _ := .unread
  next s := s
  vanished _ := false
  len_le := sector512_le_u64Max
  sectorSize_le := sector512_le_u32Max
  sectorSize_pos := sector512_pos

lemma status_neverRead (s : Unit) : neverRead.status s = fun _ => .unread := rfl

namespace ReadAheadCache

/-- The source reports the sector unread, the cache reports it good. -/
theorem neverRead_counterexample : ¬ ∀ (σ : Type) (c : ReadAheadCache σ) (st : Steady c.inner)
    (s : σ) (history : List (ℕ × ℕ)) (off n : ℕ), Transparent st (c.after s history) off n := by
  intro h
  have hsame :=
    (h Unit (withCapacity neverRead.source 64) (steadyTable neverRead status_neverRead ())
    () [] 0 512).status 0 (by decide)
  exact absurd hsame (by decide +kernel)

end ReadAheadCache

end Reclaim
