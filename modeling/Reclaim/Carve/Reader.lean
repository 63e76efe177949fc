import Reclaim.Block.LbaRange
import Reclaim.Block.Source

/-!
# Byte-granular reads

A `SourceReader` turns the sector-aligned reads of a block source into reads of any bytes.  What
cannot be read comes back as zeros, and `readFlags` says whether the range touched a sector that
was not good; of a range that begins at the end of the source or behind it, it says no such thing.
-/

namespace Reclaim

open FileBytes

variable {σ : Type}

namespace ReadResult

/-- Some sector from `first` to `last` is not good, as far as the result reports sectors. -/
def tainted (r : ReadResult) (first last : ℕ) : Bool :=
  (r.anyBad || r.anyUnread) && (List.range' first (min last (r.sectorCount - 1) + 1 - first)).any
    fun i => decide (r.status i ≠ .good)

/-- An untainted range of sectors is good. -/
lemma status_of_not_tainted {r : ReadResult} {first last i : ℕ}
    (h : r.tainted first last = false) (hi : first ≤ i) (hi' : i ≤ last) :
    r.status i = .good := by
  by_contra hbad
  have hlt := lt_of_status_ne_good hbad
  unfold tainted at h
  rw [any_of_status_ne_good hbad, Bool.true_and, List.any_eq_false] at h
  refine h i ?_ (by simpa using hbad)
  rw [List.mem_range'_1]
  omega

/-- A range of sectors is tainted exactly when one of them is not good. -/
lemma tainted_iff {r : ReadResult} {first last : ℕ} :
    r.tainted first last = true ↔ ∃ i, first ≤ i ∧ i ≤ last ∧ r.status i ≠ .good := by
  constructor
  · intro h
    obtain ⟨-, h⟩ := Bool.and_eq_true_iff.1 h
    obtain ⟨i, hi, hbad⟩ := List.any_eq_true.1 h
    rw [List.mem_range'_1] at hi
    exact ⟨i, hi.1, by omega, by simpa using hbad⟩
  · rintro ⟨i, hfirst, hlast, hbad⟩
    by_contra h
    exact hbad (status_of_not_tainted (Bool.eq_false_iff.2 h) hfirst hlast)

end ReadResult

namespace SourceReader

/-- `SourceReader::read_inner`: the bytes, whether the range is tainted, and the source behind the
read. -/
def readInner (src : BlockSource σ) (offset len : ℕ) (wantFlags : Bool) (s : σ) :
    (Bytes × Bool) × σ :=
  if len = 0 ∨ src.len ≤ offset then
    ((List.replicate len 0, wantFlags && decide (offset < src.len)), s)
  else
    let ss := src.sector
    let start := offset - offset % ss
    -- the end rounded up to a sector boundary
    let stop := min (divCeil (saturatingAdd offset len) ss * ss) u64Max
    let span := stop - start
    let r := src.readAt s start span
    let skip := offset - start
    let copy := min len (span - skip)
    let out := (r.1.buf.drop skip).take copy ++ List.replicate (len - copy) 0
    ((out, wantFlags && r.1.result.tainted (skip / ss) ((skip + copy - 1) / ss)), r.2)

/-- `read`: the bytes alone. -/
def read (src : BlockSource σ) (offset len : ℕ) (s : σ) : Bytes × σ :=
  ((readInner src offset len false s).1.1, (readInner src offset len false s).2)

/-- `read_flags`: the bytes, and whether any of them came from a sector that was not good. -/
def readFlags (src : BlockSource σ) (offset len : ℕ) (s : σ) : (Bytes × Bool) × σ :=
  readInner src offset len true s

/-- Some byte of the range is in a sector of the source that a read of the range does not report
good. -/
def Unreadable (src : BlockSource σ) (offset len : ℕ) (s : σ) : Prop :=
  offset < src.len ∧ ∃ k < len,
    (src.readAt s (offset - offset % src.sector)
      (min (divCeil (saturatingAdd offset len) src.sector * src.sector) u64Max -
        (offset - offset % src.sector))).1.result.status ((offset % src.sector + k) / src.sector) ≠
      .good

variable {src : BlockSource σ} {offset len : ℕ} {s : σ}

/-- Both reads return the same bytes and leave the same source. -/
lemma read_eq_readFlags (src : BlockSource σ) (offset len : ℕ) (s : σ) :
    read src offset len s = ((readFlags src offset len s).1.1, (readFlags src offset len s).2) := by
  simp only [read, readFlags, readInner]
  split <;> rfl

/-- A range behind the end reads as zeros, and nothing is flagged. -/
lemma readFlags_pastEnd (h : src.len ≤ offset) :
    readFlags src offset len s = ((List.replicate len 0, false), s) := by
  unfold readFlags readInner
  rw [if_pos (.inr h), decide_eq_false (not_lt.2 h), Bool.and_false]

/-- **What the flag says**: some byte of the range is in a sector that is not good. -/
lemma readFlags_flag_iff (hlen : 0 < len) :
    (readFlags src offset len s).1.2 = true ↔ Unreadable src offset len s := by
  have hss := src.sector_pos
  have hu64 := src.len_le
  have hmod : offset % src.sector ≤ offset := Nat.mod_le _ _
  simp only [readFlags, readInner, Unreadable]
  split
  · rename_i h
    exact iff_of_false (by simp; omega) fun hin => by omega
  · rename_i h
    simp only [Bool.true_and]
    set start := offset - offset % src.sector with hstart
    set stop := min (divCeil (saturatingAdd offset len) src.sector * src.sector) u64Max with hstop
    have hend : min (offset + len) u64Max ≤ stop := le_min (le_divCeil_mul hss _) (min_le_right _ _)
    rw [show offset - start = offset % src.sector by omega, ReadResult.tainted_iff]
    set skip := offset % src.sector with hskip
    set copy := min len (stop - start - skip) with hcopy
    have hcopied : 0 < copy := by omega
    constructor
    · rintro ⟨i, hfirst, hlast, hbad⟩
      refine ⟨by omega, max skip (i * src.sector) - skip, ?_, ?_⟩
      · have := (Nat.le_div_iff_mul_le hss).1 hlast
        omega
      · -- the first byte of sector `i` in the range
        have hsector : max skip (i * src.sector) / src.sector = i := by
          apply le_antisymm
          · rcases max_choice skip (i * src.sector) with h | h
            · rwa [h]
            · rw [h, Nat.mul_div_cancel _ hss]
          · rw [Nat.le_div_iff_mul_le hss]
            exact le_max_right _ _
        rwa [Nat.add_sub_cancel' (le_max_left _ _), hsector]
    · rintro ⟨-, k, hk, hbad⟩
      refine ⟨_, Nat.div_le_div_right (Nat.le_add_right skip k), ?_, hbad⟩
      have hlt := ReadResult.lt_of_status_ne_good hbad
      rw [src.sectorCount_eq, ← BlockSource.sector, lt_divCeil_iff hss] at hlt
      -- a read that ends early ends with its last sector
      rw [Nat.le_div_iff_mul_le hss]
      have hle := Nat.div_mul_le_self (skip + k) src.sector
      omega

lemma length_readFlags : (readFlags src offset len s).1.1.length = len := by
  simp only [readFlags, readInner]
  split
  · exact List.length_replicate
  · simp only [List.length_append, List.length_take, List.length_drop, List.length_replicate]
    have hfill := src.filled s (offset - offset % src.sector)
      (min (divCeil (saturatingAdd offset len) src.sector * src.sector) u64Max -
        (offset - offset % src.sector))
    omega

/-- **An unflagged read inside the source returns its content.** -/
lemma byteAt_readFlags (st : src.Stable) (hin : offset + len ≤ src.len)
    (hflag : (readFlags src offset len s).1.2 = false) {k : ℕ} (hk : k < len) :
    byteAt (readFlags src offset len s).1.1 k = st.content (offset + k) := by
  have hss := src.sector_pos
  have hu64 := src.len_le
  simp only [readFlags, readInner] at hflag ⊢
  rw [if_neg (by omega)] at hflag ⊢
  simp only [Bool.true_and] at hflag ⊢
  set start := offset - offset % src.sector with hstart
  set stop := min (divCeil (saturatingAdd offset len) src.sector * src.sector) u64Max with hstop
  have hmod : offset % src.sector ≤ offset := Nat.mod_le _ _
  have hsat : saturatingAdd offset len = offset + len := min_eq_left (by omega)
  have hend : offset + len ≤ stop := by
    rw [hstop, hsat]
    exact le_min (le_divCeil_mul hss _) (by omega)
  have hcopy : min len (stop - start - (offset - start)) = len := by omega
  rw [hcopy] at hflag ⊢
  have hal : src.sector ∣ start := by
    rw [hstart]
    exact Nat.dvd_sub_mod offset
  -- the byte lies in a sector from the first to the last of the window
  have hgood := ReadResult.status_of_not_tainted hflag
    (Nat.div_le_div_right (show offset - start ≤ offset - start + k by omega))
    (Nat.div_le_div_right (show offset - start + k ≤ offset - start + len - 1 by omega))
  have hread := st.faithful start (stop - start) hal (offset - start + k) (by omega)
  rw [← st.answers s, hgood] at hread
  rw [byteAt_append, List.length_take, List.length_drop, src.filled, if_pos (by omega),
    byteAt_take, if_pos hk, byteAt_drop, hread (by simp)]
  congr 1
  omega

end SourceReader

end Reclaim
