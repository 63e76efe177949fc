import Reclaim.Block.FileImage
import Reclaim.Carve.Reader

/-!
# What a flagged read says

`SourceReader::read_flags` is meant to return a source's bytes, zeros for what there is none of or
what cannot be read, and to say whether the range has any such byte.  The bytes are always right.
The flag is that of the sectors that the widened read reports: an image file reports the sector
that it ends in bad whenever a request goes past the end, and a range at or behind the end is not
looked at.
-/

namespace Reclaim

open FileBytes

variable {σ : Type}

/-- A source sector by sector.  A request shows each byte of a sector that can be read, and zeros
for the others and behind the end; its sectors are reported good as far as they can be read and
end, as far as the request goes, at or before `reach`. -/
structure Sectored (src : BlockSource σ) where
  content : ℕ → UInt8
  /-- The sectors that are unreadable or unread. -/
  status : ℕ → SectorStatus
  /-- How far a request may go before its last sector is reported bad. -/
  reach : ℕ
  bytes : ∀ s off n, src.sector ∣ off → ∀ k < n, byteAt (src.readAt s off n).1.buf k =
    if off + k < src.len ∧ status ((off + k) / src.sector) = .good then content (off + k) else 0
  reports : ∀ s off n, src.sector ∣ off → ∀ k < n,
    ((src.readAt s off n).1.result.status (k / src.sector) = .good ↔
      (off + k / src.sector * src.sector < src.len →
          status ((off + k) / src.sector) = .good) ∧
        off + min ((k / src.sector + 1) * src.sector) n ≤ reach)

/-! ## Sources sector by sector -/

/-- An image file: no request may go past the end of it. -/
def imageSectored (id : String) (file : Bytes) (h : file.length ≤ u64Max) :
    Sectored (imageSource id file h) where
  content := byteAt file
  status _ := .good
  reach := file.length
  bytes _ off n hal k hk := by
    refine (byteAt_readFileAt_eq hal hk).trans (if_congr ?_ rfl rfl)
    rw [min_self, and_iff_left rfl]
    exact Iff.rfl
  reports _ off n hal k hk := by
    have hst : (readFileAt file file.length 512 off n).2.status (k / 512) = _ :=
      status_readFileAt sector512_pos hal hk
    rw [min_self] at hst
    rw [and_iff_right fun _ => rfl]
    by_cases h : off + min ((k / 512 + 1) * 512) n ≤ file.length
    · exact iff_of_true (hst.trans (if_pos h)) h
    · exact iff_of_false (fun hgood => absurd ((hst.trans (if_neg h)).symm.trans hgood) (by simp)) h

namespace MemorySource

section Source

variable (m : MemorySource) (off n : ℕ)

lemma length_buf_readAt : (m.readAt off n).buf.length = n := by
  by_cases hal : m.sectorSize ∣ off
  · exact (byteAt_readAt hal).1
  · simp [readAt, if_pos hal]

lemma sectorCount_readAt :
    (m.readAt off n).result.sectorCount = divCeil n (max m.sectorSize 1) := by
  rw [max_eq_left m.sectorSize_pos]
  unfold readAt
  dsimp only
  split <;> simp

/-- A sector that is not good shows zeros. -/
lemma byteAt_readAt_eq_zero (hin : off + n ≤ m.data.length) {i k : ℕ}
    (hbad : (m.readAt off n).result.status i ≠ .good) (hk : k / max m.sectorSize 1 = i) :
    byteAt (m.readAt off n).buf k = 0 := by
  rw [max_eq_left m.sectorSize_pos] at hk
  subst hk
  by_cases hal : m.sectorSize ∣ off
  · by_cases hkn : k < n
    · have hle := Nat.div_mul_le_self k m.sectorSize
      exact absurd ((status_readAt_iff hal hkn).2 (by omega)) hbad
    · exact byteAt_of_length_le (by rw [(byteAt_readAt hal).1]; exact not_lt.1 hkn)
  · rw [readAt, if_pos hal]
    exact byteAt_replicate_zero n k

lemma status_readAt_unaligned (hal : ¬ max m.sectorSize 1 ∣ off) {i : ℕ}
    (hi : i < divCeil n (max m.sectorSize 1)) : (m.readAt off n).result.status i = .bad := by
  rw [max_eq_left m.sectorSize_pos] at hal hi
  rw [readAt, if_pos hal]
  exact ReadResult.status_allBad hi

end Source

/-- Bytes in memory, as a source. -/
def source (m : MemorySource) (id : String) (h : m.sectorSize ≤ u32Max) : BlockSource Unit where
  id := id
  len := m.data.length
  sectorSize := m.sectorSize
  readAt _ off n := (m.readAt off n, ())
  vanished _ := false
  len_le := m.length_le
  sectorSize_le := h
  filled _ off n := m.length_buf_readAt off n
  sectorCount_eq _ off n := m.sectorCount_readAt off n
  zeroFilled _ off n hin _ hbad _ hk := m.byteAt_readAt_eq_zero off n hin hbad hk
  unaligned _ off n hal _ hi := m.status_readAt_unaligned off n hal hi

/-- The sector that the bytes end in is good. -/
def sectored (m : MemorySource) (id : String) (h : m.sectorSize ≤ u32Max) :
    Sectored (m.source id h) where
  content := byteAt m.data
  status _ := .good
  reach := divCeil m.data.length m.sectorSize * m.sectorSize
  bytes _ off n hal k hk := by
    have hsector : (m.source id h).sector = m.sectorSize := max_eq_left m.sectorSize_pos
    rw [hsector] at hal
    refine ((byteAt_readAt hal).2 k hk).trans ?_
    by_cases hin : off + k < m.data.length
    · exact (if_pos ⟨hin, rfl⟩).symm
    · rw [if_neg fun hlt => hin hlt.1]
      exact byteAt_of_length_le (not_lt.1 hin)
  reports _ off n hal k hk := by
    have hss := m.sectorSize_pos
    have hsector : (m.source id h).sector = m.sectorSize := max_eq_left hss
    rw [hsector] at hal ⊢
    rw [and_iff_right fun _ => rfl]
    refine (status_readAt_iff hal hk).trans ?_
    obtain ⟨q, rfl⟩ := hal
    rw [Nat.mul_comm m.sectorSize q, ← Nat.add_mul, ← lt_divCeil_iff hss]
    have hle := Nat.div_mul_le_self k m.sectorSize
    constructor
    · intro hlt
      have hmul := Nat.mul_le_mul_right m.sectorSize (show q + k / m.sectorSize + 1 ≤ _ from hlt)
      rw [Nat.add_assoc, Nat.add_mul] at hmul
      omega
    · intro hreach
      apply Nat.lt_of_mul_lt_mul_right (a := m.sectorSize)
      rw [Nat.add_mul]
      refine lt_of_lt_of_le ?_ hreach
      rw [Nat.add_mul, Nat.one_mul]
      omega

end MemorySource

/-- A raw image whose file holds all of it, and zeros where its map records a sector as bad or as
not read. -/
structure RawMapped where
  image : MappedImage
  raw : image.map.compression = .none
  size_le : image.map.size ≤ u64Max
  sectorSize_le : image.sectorSize ≤ u32Max
  whole : image.map.size ≤ image.file.length
  zeros : ∀ x < image.map.size, image.recorded (x / image.sectorSize) ≠ .good →
    byteAt image.file x = 0

namespace RawMapped

variable {B : Backend} {m : RawMapped} {off n k : ℕ}

/-- A sector that begins in the image is recorded as its number is. -/
lemma recordedAt_eq (hal : m.image.sectorSize ∣ off)
    (hin : off + k / m.image.sectorSize * m.image.sectorSize < m.image.map.size) :
    m.image.recordedAt off (k / m.image.sectorSize) =
      m.image.recorded ((off + k) / m.image.sectorSize) := by
  have hss : 0 < m.image.sectorSize := MappedImage.sectorSize_pos
  have hsize := m.size_le
  obtain ⟨q, rfl⟩ := hal
  have hq : q + k / m.image.sectorSize ≤ (q + k / m.image.sectorSize) * m.image.sectorSize :=
    Nat.le_mul_of_pos_right _ hss
  rw [Nat.add_mul, Nat.mul_comm q] at hq
  rw [MappedImage.recordedAt, Nat.mul_div_cancel_left _ hss, Nat.mul_add_div hss, saturatingAdd,
    min_eq_left (by omega)]

/-- What a request shows. -/
lemma byteAt_read (hal : m.image.sectorSize ∣ off) (hk : k < n) :
    byteAt (m.image.readOutcome B off n).buf k =
      if off + k < m.image.map.size ∧
        m.image.recorded ((off + k) / m.image.sectorSize) = .good
      then byteAt m.image.file (off + k) else 0 := by
  have hwhole := m.whole
  rw [MappedImage.byteAt_raw m.raw hal hk, min_eq_left hwhole]
  by_cases hin : off + k < m.image.map.size
  · rw [if_pos hin]
    split
    · rfl
    · rename_i hbad
      exact m.zeros _ hin fun hgood => hbad ⟨hin, hgood⟩
  · rw [if_neg hin, if_neg fun h => hin h.1]

/-- What it reports. -/
lemma status_read_iff (hal : m.image.sectorSize ∣ off) (hk : k < n) :
    (m.image.readOutcome B off n).result.status (k / m.image.sectorSize) = .good ↔
      (off + k / m.image.sectorSize * m.image.sectorSize < m.image.map.size →
          m.image.recorded ((off + k) / m.image.sectorSize) = .good) ∧
        off + min ((k / m.image.sectorSize + 1) * m.image.sectorSize) n ≤ m.image.map.size := by
  have hle := Nat.div_mul_le_self k m.image.sectorSize
  have hss : 0 < m.image.sectorSize := MappedImage.sectorSize_pos
  rw [MappedImage.status_raw_iff m.raw hal hk, min_eq_left m.whole]
  constructor
  · rintro ⟨hend, hgood⟩
    exact ⟨fun hin => (recordedAt_eq hal hin).symm.trans hgood, hend⟩
  · rintro ⟨hgood, hend⟩
    have hin : off + k / m.image.sectorSize * m.image.sectorSize < m.image.map.size := by
      rw [Nat.add_mul] at hend
      omega
    exact ⟨hend, (recordedAt_eq hal hin).trans (hgood hin)⟩

lemma sectorCount_read (m : RawMapped) (B : Backend) (off n : ℕ) :
    (m.image.readOutcome B off n).result.sectorCount = divCeil n m.image.sectorSize := by
  by_cases hal : m.image.sectorSize ∣ off
  · rw [MappedImage.readOutcome, MappedImage.readAt_raw m.raw hal, MappedImage.overlayStatus_eq,
      (ReadResult.status_foldl_mark_good_iff _ _ 0 le_rfl).1, ReadResult.sectorCount_foldl_markBad,
      ReadResult.sectorCount_good]
  · rw [MappedImage.readOutcome, MappedImage.readAt, if_pos hal, ReadResult.sectorCount_allBad]

/-- A sector that is not good shows zeros. -/
lemma byteAt_read_eq_zero (hin : off + n ≤ m.image.map.size) {i : ℕ}
    (hbad : (m.image.readOutcome B off n).result.status i ≠ .good)
    (hk : k / max m.image.sectorSize 1 = i) : byteAt (m.image.readOutcome B off n).buf k = 0 := by
  rw [max_eq_left MappedImage.sectorSize_pos] at hk
  subst hk
  by_cases hal : m.image.sectorSize ∣ off
  · by_cases hkn : k < n
    · refine (byteAt_read hal hkn).trans (if_neg fun hgood => hbad ?_)
      exact (status_read_iff hal hkn).2 ⟨fun _ => hgood.2, by omega⟩
    · exact byteAt_of_length_le (by rw [MappedImage.readOutcome, length_readAt]; omega)
  · rw [MappedImage.readOutcome, readAt_unaligned B hal]
    exact byteAt_replicate_zero n k

lemma status_read_unaligned (hal : ¬ max m.image.sectorSize 1 ∣ off) {i : ℕ}
    (hi : i < divCeil n (max m.image.sectorSize 1)) :
    (m.image.readOutcome B off n).result.status i = .bad := by
  rw [max_eq_left MappedImage.sectorSize_pos] at hal hi
  rw [MappedImage.readOutcome, MappedImage.readAt, if_pos hal]
  exact ReadResult.status_allBad hi

lemma sectorCount_read_max (m : RawMapped) (B : Backend) (off n : ℕ) :
    (m.image.readOutcome B off n).result.sectorCount = divCeil n (max m.image.sectorSize 1) := by
  rw [max_eq_left MappedImage.sectorSize_pos]
  exact sectorCount_read m B off n

/-- The image, as a source. -/
def source (m : RawMapped) (B : Backend) : BlockSource Unit where
  id := m.image.map.sourceId
  len := m.image.map.size
  sectorSize := m.image.sectorSize
  readAt _ off n := (m.image.readOutcome B off n, ())
  vanished _ := false
  len_le := m.size_le
  sectorSize_le := m.sectorSize_le
  filled _ off n := length_readAt B m.image off n
  sectorCount_eq _ off n := sectorCount_read_max m B off n
  zeroFilled _ _ _ hin _ hbad _ hk := byteAt_read_eq_zero hin hbad hk
  unaligned _ _ _ hal _ hi := status_read_unaligned hal hi

/-- Its sectors are as the map records them. -/
def sectored (m : RawMapped) (B : Backend) : Sectored (m.source B) where
  content := byteAt m.image.file
  status := m.image.recorded
  reach := m.image.map.size
  bytes _ off n hal k hk := by
    have hsector : (m.source B).sector = m.image.sectorSize :=
      max_eq_left MappedImage.sectorSize_pos
    rw [hsector] at hal ⊢
    exact byteAt_read hal hk
  reports _ off n hal k hk := by
    have hsector : (m.source B).sector = m.image.sectorSize :=
      max_eq_left MappedImage.sectorSize_pos
    rw [hsector] at hal ⊢
    exact status_read_iff hal hk

end RawMapped

namespace SourceReader

/-! ## The answer of a read -/

/-- Where the sectors of a range end. -/
def widenedEnd (src : BlockSource σ) (offset len : ℕ) : ℕ :=
  min (divCeil (saturatingAdd offset len) src.sector * src.sector) u64Max

variable {src : BlockSource σ} {offset len : ℕ} {s : σ}

/-- Some byte of the range is in a sector of the source that cannot be read. -/
def Missing (sec : Sectored src) (offset len : ℕ) : Prop :=
  ∃ k < len, offset + k < src.len ∧ sec.status ((offset + k) / src.sector) ≠ .good

/-- What a flagged read is to return: the bytes, with zeros where there are none or they cannot be
read, and whether there is such a byte. -/
structure Answers (sec : Sectored src) (offset len : ℕ) (out : Bytes × Bool) : Prop where
  length : out.1.length = len
  bytes : ∀ k < len, byteAt out.1 k =
    if offset + k < src.len ∧ sec.status ((offset + k) / src.sector) = .good
    then sec.content (offset + k) else 0
  flag : out.2 = true ↔ ∃ k < len, src.len ≤ offset + k ∨
    sec.status ((offset + k) / src.sector) ≠ .good

/-- The ranges whose flag is right. -/
def FlagRight (sec : Sectored src) (offset len : ℕ) : Prop :=
  if len = 0 then src.len ≤ offset
  else offset < src.len ∧
    (Missing sec offset len ∨ (offset + len ≤ src.len ↔ widenedEnd src offset len ≤ sec.reach))

/-- The sectors of a range hold it, as far as there are offsets. -/
lemma le_widenedEnd (src : BlockSource σ) (offset len : ℕ) :
    min (offset + len) u64Max ≤ widenedEnd src offset len :=
  le_min (le_divCeil_mul src.sector_pos _) (min_le_right _ _)

/-- **The bytes are right.** -/
lemma bytes_readFlags (sec : Sectored src) {k : ℕ} (hk : k < len) :
    byteAt (readFlags src offset len s).1.1 k =
      if offset + k < src.len ∧ sec.status ((offset + k) / src.sector) = .good
      then sec.content (offset + k) else 0 := by
  have hu64 := src.len_le
  have hmod : offset % src.sector ≤ offset := Nat.mod_le _ _
  simp only [readFlags, readInner]
  split
  · rw [byteAt_replicate_zero, if_neg (by omega)]
  · have hend := le_widenedEnd src offset len
    unfold widenedEnd at hend
    set start := offset - offset % src.sector with hstart
    set stop := min (divCeil (saturatingAdd offset len) src.sector * src.sector) u64Max with hstop
    have hal : src.sector ∣ start := Nat.dvd_sub_mod offset
    rw [byteAt_append, List.length_take, List.length_drop, src.filled]
    by_cases hread : k < stop - offset
    · have hpos : start + (offset - start + k) = offset + k := by omega
      rw [if_pos (by omega), byteAt_take, if_pos (by omega), byteAt_drop,
        sec.bytes s start _ hal _ (by omega), hpos]
    · -- only behind the last offset there is nothing to read
      rw [if_neg (by omega), byteAt_replicate_zero, if_neg (by omega)]

/-- A sector of a range that begins in the source, by its number in the widened read. -/
lemma div_of_start (src : BlockSource σ) (offset k : ℕ) :
    (offset - offset % src.sector + (offset % src.sector + k)) / src.sector =
      (offset + k) / src.sector := by
  have hmod : offset % src.sector ≤ offset := Nat.mod_le _ _
  congr 1
  omega

/-- No multiple from `n` on lies before `n` rounded up. -/
lemma divCeil_mul_le {n m e : ℕ} (hm : 0 < m) (he : m ∣ e) (h : n ≤ e) : divCeil n m * m ≤ e := by
  obtain ⟨c, rfl⟩ := he
  rw [Nat.mul_comm m c] at h ⊢
  refine Nat.mul_le_mul_right m (not_lt.1 fun hlt => ?_)
  have := (lt_divCeil_iff hm).1 hlt
  omega

/-- In the sector of `skip + k`, the first position from `skip` on. -/
lemma exists_first_in_sector {ss : ℕ} (hss : 0 < ss) (skip k : ℕ) :
    ∃ k' ≤ k, (skip + k') / ss = (skip + k) / ss ∧
      (k' = 0 ∨ skip + k' = (skip + k) / ss * ss) := by
  have hle := Nat.div_mul_le_self (skip + k) ss
  rcases Nat.le_total ((skip + k) / ss * ss) skip with h | h
  · refine ⟨0, Nat.zero_le k, ?_, .inl rfl⟩
    apply le_antisymm (Nat.div_le_div_right (by omega))
    rw [Nat.le_div_iff_mul_le hss]
    omega
  · refine ⟨(skip + k) / ss * ss - skip, by omega, ?_, .inr (Nat.add_sub_cancel' h)⟩
    rw [Nat.add_sub_cancel' h, Nat.mul_div_cancel _ hss]

/-- What the flag says, in terms of the sectors of the source. -/
lemma unreadable_iff (sec : Sectored src) (hlen : 0 < len) (hin : offset < src.len) :
    Unreadable src offset len s ↔
      Missing sec offset len ∨ sec.reach < widenedEnd src offset len := by
  have hss := src.sector_pos
  have hu64 := src.len_le
  have hmod : offset % src.sector ≤ offset := Nat.mod_le _ _
  have hend := le_widenedEnd src offset len
  have hal : src.sector ∣ offset - offset % src.sector := Nat.dvd_sub_mod offset
  rw [Unreadable, and_iff_right hin]
  unfold widenedEnd at hend ⊢
  set start := offset - offset % src.sector with hstart
  set stop := min (divCeil (saturatingAdd offset len) src.sector * src.sector) u64Max with hstop
  have hreports : ∀ k, offset % src.sector + k < stop - start →
      ((src.readAt s start (stop - start)).1.result.status
          ((offset % src.sector + k) / src.sector) = .good ↔
        (start + (offset % src.sector + k) / src.sector * src.sector < src.len →
            sec.status ((offset + k) / src.sector) = .good) ∧
          start + min (((offset % src.sector + k) / src.sector + 1) * src.sector) (stop - start) ≤
            sec.reach) := by
    intro k hk
    rw [sec.reports s start _ hal _ hk, div_of_start]
  have hbegin : ∀ k, start + (offset % src.sector + k) / src.sector * src.sector =
      (offset + k) / src.sector * src.sector := by
    intro k
    rw [← div_of_start src offset k, ← hstart]
    obtain ⟨q, hq⟩ := hal
    rw [hq, Nat.mul_add_div hss, Nat.add_mul, Nat.mul_comm q]
  constructor
  · rintro ⟨k, hk, hbad⟩
    by_contra hnot
    obtain ⟨hmissing, hreach⟩ := not_or.1 hnot
    have hlt := ReadResult.lt_of_status_ne_good hbad
    rw [src.sectorCount_eq, ← BlockSource.sector, lt_divCeil_iff hss] at hlt
    -- the first byte of that sector in the range
    obtain ⟨k', hk', hsame, hfirst⟩ := exists_first_in_sector hss (offset % src.sector) k
    rw [← hsame] at hbad hlt
    have hread : offset % src.sector + k' < stop - start := by
      rw [hsame] at hlt
      omega
    rw [ne_eq, hreports k' hread, not_and_or] at hbad
    rcases hbad with hbad | hbad
    · obtain ⟨hbegins, hstatus⟩ := Classical.not_imp.1 hbad
      have hbegin' := hbegin k'
      rw [hsame] at hbegins hbegin'
      exact hmissing ⟨k', by omega, by omega, hstatus⟩
    · omega
  · rintro (⟨k, hk, hkin, hbad⟩ | hreach)
    · refine ⟨k, hk, fun hgood => hbad ?_⟩
      have hle := Nat.div_mul_le_self (offset % src.sector + k) src.sector
      exact ((hreports k (by omega)).1 hgood).1 (by omega)
    · -- the last byte that is read
      obtain ⟨k, hk⟩ : ∃ k, k + 1 = min len (stop - offset) :=
        ⟨min len (stop - offset) - 1, by omega⟩
      refine ⟨k, by omega, fun hgood => ?_⟩
      have hends := ((hreports k (by omega)).1 hgood).2
      have hpos : offset % src.sector + k <
          ((offset % src.sector + k) / src.sector + 1) * src.sector := by
        rw [Nat.add_mul, Nat.one_mul]
        exact Nat.lt_div_mul_add hss
      have hstop : stop ≤ start + ((offset % src.sector + k) / src.sector + 1) * src.sector := by
        by_cases hall : len ≤ stop - offset
        · refine (min_le_left _ _).trans (divCeil_mul_le hss ?_ ?_)
          · exact hal.add (Dvd.intro_left _ rfl)
          · exact (min_le_left _ _).trans (by omega)
        · omega
      omega

/-- **When a flagged read answers right**: exactly for the ranges whose flag is right. -/
theorem readFlags_answers_iff (sec : Sectored src) (s : σ) (offset len : ℕ) :
    Answers sec offset len (readFlags src offset len s).1 ↔ FlagRight sec offset len := by
  have hflag : Answers sec offset len (readFlags src offset len s).1 ↔
      ((readFlags src offset len s).1.2 = true ↔ ∃ k < len, src.len ≤ offset + k ∨
        sec.status ((offset + k) / src.sector) ≠ .good) :=
    ⟨fun h => h.flag, fun h => ⟨length_readFlags, fun k hk => bytes_readFlags sec hk, h⟩⟩
  have hend := le_widenedEnd src offset len
  rw [hflag, FlagRight]
  by_cases hlen : len = 0
  · subst hlen
    rw [if_pos rfl]
    simp [readFlags, readInner]
  rw [if_neg hlen]
  by_cases hin : offset < src.len
  · -- some byte is missing, or lies behind the end
    have hclaim : (∃ k < len, src.len ≤ offset + k ∨
        sec.status ((offset + k) / src.sector) ≠ .good) ↔
          Missing sec offset len ∨ src.len < offset + len := by
      constructor
      · rintro ⟨k, hk, h | h⟩
        · exact .inr (by omega)
        · by_cases hkin : offset + k < src.len
          · exact .inl ⟨k, hk, hkin, h⟩
          · exact .inr (by omega)
      · rintro (⟨k, hk, -, h⟩ | h)
        · exact ⟨k, hk, .inr h⟩
        · exact ⟨len - 1, by omega, .inl (by omega)⟩
    rw [readFlags_flag_iff (by omega), unreadable_iff sec (by omega) hin, hclaim,
      and_iff_right hin]
    by_cases hmissing : Missing sec offset len
    · exact iff_of_true (iff_of_true (.inl hmissing) (.inl hmissing)) (.inl hmissing)
    · rw [or_iff_right hmissing, or_iff_right hmissing, or_iff_right hmissing, ← not_le, ← not_le,
        not_iff_not]
      exact Iff.comm
  · rw [readFlags_pastEnd (by omega)]
    refine iff_of_false (fun h => ?_) fun h => hin h.1
    exact absurd (h.2 ⟨0, by omega, .inl (by omega)⟩) Bool.false_ne_true

/-- An image file of a sector and a part of one. -/
def raggedFile : Bytes := List.replicate 700 7

lemma raggedFile_le : raggedFile.length ≤ u64Max := by decide +kernel

/-- A range before the end of that file is said to lack something. -/
theorem readFlags_answers_counterexample : ¬ ∀ (src : BlockSource Unit) (sec : Sectored src)
    (s : Unit) (offset len : ℕ), Answers sec offset len (readFlags src offset len s).1 := by
  intro h
  have hflag : (readFlags (imageSource "ragged" raggedFile raggedFile_le) 512 100 ()).1.2 =
    true := by
    decide +kernel
  obtain ⟨k, hk, hend | hbad⟩ :=
    (h _ (imageSectored "ragged" raggedFile raggedFile_le) () 512 100).flag.1 hflag
  · have hlen : raggedFile.length = 700 := List.length_replicate
    have hend' : raggedFile.length ≤ 512 + k := hend
    omega
  · exact hbad rfl

end SourceReader

end Reclaim
