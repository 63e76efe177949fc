import Reclaim.Foundation.FileBytes

/-!
# Per-sector read results

`read_at` fills a caller's buffer and says of each sector of the request whether its bytes are
trustworthy.  A `ReadResult` carries two bitsets, one for bad and one for unread sectors, each
exactly as long as the request has sectors; `status` reads them with bad taking precedence.
-/

namespace Reclaim

open FileBytes

/-- Largest `u32`. -/
def u32Max : ℕ := 2 ^ 32 - 1

/-- Largest `u64`. -/
def u64Max : ℕ := 2 ^ 64 - 1

/-- `n.div_ceil(m)`. -/
def divCeil (n m : ℕ) : ℕ := (n + m - 1) / m

/-- Index `i` is below `n.div_ceil(m)` exactly when block `i` begins below `n`. -/
lemma lt_divCeil_iff {n m i : ℕ} (hm : 0 < m) : i < divCeil n m ↔ i * m < n := by
  rw [divCeil, Nat.lt_div_iff_mul_lt hm]
  omega

lemma div_lt_divCeil {n m x : ℕ} (hm : 0 < m) (hx : x < n) : x / m < divCeil n m := by
  rw [lt_divCeil_iff hm]
  exact lt_of_le_of_lt (Nat.div_mul_le_self x m) hx

lemma le_divCeil_mul {m : ℕ} (hm : 0 < m) (n : ℕ) : n ≤ divCeil n m * m := by
  by_contra h
  exact lt_irrefl _ ((lt_divCeil_iff hm).2 (not_le.1 h))

/-- Per-sector outcome of a read. -/
inductive SectorStatus where
  /-- Bytes are the real device or image contents. -/
  | good
  /-- The sector could not be read; its bytes are zero-filled. -/
  | bad
  /-- The sector was never read (an unimaged region of a mapped image). -/
  | unread
  deriving DecidableEq, Repr

/-! ## Bitsets -/

/-- A fixed-length set of bits.  The source packs them into `u64` words. -/
structure Bitset where
  bits : List Bool
  deriving DecidableEq, Repr

namespace Bitset

/-- A bitset of `n` bits, all clear. -/
def new (n : ℕ) : Bitset := ⟨List.replicate n false⟩

/-- Number of bits. -/
def len (b : Bitset) : ℕ := b.bits.length

/-- Set bit `i`; nothing happens out of range. -/
def set (b : Bitset) (i : ℕ) : Bitset := ⟨b.bits.set i true⟩

/-- Bit `i`, false out of range. -/
def get (b : Bitset) (i : ℕ) : Bool := b.bits.getD i false

/-- True if any bit is set. -/
def any (b : Bitset) : Bool := b.bits.any id

/-- Indices of the set bits, ascending. -/
def iterSet (b : Bitset) : List ℕ := (List.range b.len).filter b.get

@[simp] lemma len_new (n : ℕ) : (new n).len = n := by simp [new, len]

@[simp] lemma len_set (b : Bitset) (i : ℕ) : (b.set i).len = b.len := by simp [set, len]

@[simp] lemma get_new (n i : ℕ) : (new n).get i = false := by
  by_cases h : i < n
  · exact List.getD_replicate false h
  · exact List.getD_eq_default _ _ (by simpa [new] using h)

lemma get_set (b : Bitset) (i j : ℕ) :
    (b.set i).get j = (b.get j || (decide (i = j) && decide (j < b.len))) := by
  simp only [set, get, len, List.getD_eq_getElem?_getD, List.getElem?_set]
  by_cases hij : i = j
  · subst hij
    by_cases hj : i < b.bits.length <;> simp [hj]
  · simp [hij]

lemma get_foldl_set (l : List ℕ) (b : Bitset) (j : ℕ) :
    (l.foldl set b).get j = (b.get j || (decide (j ∈ l) && decide (j < b.len))) := by
  induction l generalizing b with
  | nil => simp
  | cons i l ih =>
    rw [List.foldl_cons, ih, get_set, len_set]
    by_cases hj : j < b.len
    · by_cases hl : j ∈ l
      · simp [hj, hl]
      · by_cases hij : i = j
        · simp [hj, hij]
        · simp [hj, hl, hij, Ne.symm hij]
    · simp [hj]

lemma get_of_len_le {b : Bitset} {i : ℕ} (h : b.len ≤ i) : b.get i = false :=
  List.getD_eq_default _ _ h

@[simp] lemma mem_iterSet {b : Bitset} {i : ℕ} : i ∈ b.iterSet ↔ b.get i = true := by
  simp only [iterSet, List.mem_filter, List.mem_range, and_iff_right_iff_imp]
  intro h
  by_contra hle
  simp [get_of_len_le (not_lt.1 hle)] at h

lemma any_eq_true_iff {b : Bitset} : b.any = true ↔ ∃ i, b.get i = true := by
  simp only [any, List.any_eq_true, id, get, List.getD_eq_getElem?_getD]
  constructor
  · rintro ⟨_, hmem, rfl⟩
    obtain ⟨i, hi, hb⟩ := List.getElem_of_mem hmem
    exact ⟨i, by simp [hi, hb]⟩
  · rintro ⟨i, hi⟩
    by_cases hlt : i < b.bits.length
    · rw [List.getElem?_eq_getElem hlt, Option.getD_some] at hi
      exact ⟨true, hi ▸ List.getElem_mem hlt, rfl⟩
    · simp [not_lt.1 hlt] at hi

lemma nodup_iterSet (b : Bitset) : b.iterSet.Nodup := List.nodup_range.filter _

end Bitset

/-! ## Read results -/

/-- Which sectors of a request are trustworthy.  Both bitmaps have one bit a sector. -/
structure ReadResult where
  sectorSize : ℕ
  sectorCount : ℕ
  bad : Bitset
  unread : Bitset
  bad_len : bad.len = sectorCount
  unread_len : unread.len = sectorCount

namespace ReadResult

/-- A result where every sector is good. -/
def good (sectorSize sectorCount : ℕ) : ReadResult where
  sectorSize := sectorSize
  sectorCount := sectorCount
  bad := Bitset.new sectorCount
  unread := Bitset.new sectorCount
  bad_len := Bitset.len_new _
  unread_len := Bitset.len_new _

/-- Mark sector `i` bad. -/
def markBad (r : ReadResult) (i : ℕ) : ReadResult :=
  { r with bad := r.bad.set i, bad_len := by simpa using r.bad_len }

/-- Mark sector `i` unread. -/
def markUnread (r : ReadResult) (i : ℕ) : ReadResult :=
  { r with unread := r.unread.set i, unread_len := by simpa using r.unread_len }

/-- Status of sector `i`; bad takes precedence over unread. -/
def status (r : ReadResult) (i : ℕ) : SectorStatus :=
  if r.bad.get i then .bad else if r.unread.get i then .unread else .good

/-- True if any sector is bad. -/
def anyBad (r : ReadResult) : Bool := r.bad.any

/-- True if any sector is unread. -/
def anyUnread (r : ReadResult) : Bool := r.unread.any

/-- Indices of the bad sectors, ascending. -/
def badSectors (r : ReadResult) : List ℕ := r.bad.iterSet

/-- Indices of the unread sectors, ascending. -/
def unreadSectors (r : ReadResult) : List ℕ := r.unread.iterSet

/-- Mark every sector bad. -/
def allBad (sectorSize sectorCount : ℕ) : ReadResult :=
  (List.range sectorCount).foldl markBad (good sectorSize sectorCount)

lemma status_eq_bad_iff {r : ReadResult} {i : ℕ} : r.status i = .bad ↔ r.bad.get i = true := by
  unfold status
  cases r.bad.get i <;> cases r.unread.get i <;> simp

@[simp] lemma mem_badSectors {r : ReadResult} {i : ℕ} :
    i ∈ r.badSectors ↔ r.status i = .bad := by
  rw [status_eq_bad_iff, badSectors, Bitset.mem_iterSet]

lemma nodup_badSectors (r : ReadResult) : r.badSectors.Nodup := r.bad.nodup_iterSet

lemma badSectors_lt {r : ReadResult} {i : ℕ} (h : i ∈ r.badSectors) : i < r.sectorCount := by
  by_contra hle
  have hb := status_eq_bad_iff.1 (mem_badSectors.1 h)
  rw [Bitset.get_of_len_le (by rw [r.bad_len]; omega)] at hb
  exact Bool.false_ne_true hb

/-- A sector that is not reported is good. -/
lemma lt_of_status_ne_good {r : ReadResult} {i : ℕ} (h : r.status i ≠ .good) :
    i < r.sectorCount := by
  by_contra hle
  apply h
  rw [status, Bitset.get_of_len_le (by rw [r.bad_len]; omega),
    Bitset.get_of_len_le (by rw [r.unread_len]; omega)]
  rfl

lemma anyBad_iff {r : ReadResult} : r.anyBad = true ↔ ∃ i, i ∈ r.badSectors := by
  simp only [anyBad, Bitset.any_eq_true_iff, mem_badSectors, status_eq_bad_iff]

lemma anyUnread_iff {r : ReadResult} : r.anyUnread = true ↔ ∃ i, r.unread.get i = true := by
  rw [anyUnread, Bitset.any_eq_true_iff]

/-- A result with a sector that is not good says so. -/
lemma any_of_status_ne_good {r : ReadResult} {i : ℕ} (h : r.status i ≠ .good) :
    (r.anyBad || r.anyUnread) = true := by
  rw [Bool.or_eq_true, anyBad_iff, anyUnread_iff]
  unfold status at h
  cases hb : r.bad.get i with
  | true => exact .inl ⟨i, mem_badSectors.2 (status_eq_bad_iff.2 hb)⟩
  | false =>
    cases hu : r.unread.get i with
    | true => exact .inr ⟨i, hu⟩
    | false => exact absurd (by simp [hb, hu]) h

lemma badSectors_eq_nil {r : ReadResult} (h : r.anyBad = false) : r.badSectors = [] := by
  apply List.eq_nil_iff_forall_not_mem.2
  intro i hi
  simp [anyBad_iff.2 ⟨i, hi⟩] at h

@[simp] lemma sectorCount_good (ss n : ℕ) : (good ss n).sectorCount = n := rfl

@[simp] lemma sectorCount_markBad (r : ReadResult) (i : ℕ) :
    (r.markBad i).sectorCount = r.sectorCount := rfl

@[simp] lemma sectorCount_markUnread (r : ReadResult) (i : ℕ) :
    (r.markUnread i).sectorCount = r.sectorCount := rfl

@[simp] lemma status_good (ss n i : ℕ) : (good ss n).status i = .good := by
  simp [status, good]

lemma status_markBad (r : ReadResult) (i j : ℕ) :
    (r.markBad i).status j = if i = j ∧ j < r.sectorCount then .bad else r.status j := by
  have hlen := r.bad_len
  by_cases h : i = j ∧ j < r.sectorCount
  · rw [if_pos h, status_eq_bad_iff]
    simp [markBad, Bitset.get_set, h.1, hlen, h.2]
  · rw [if_neg h]
    have hget : (r.markBad i).bad.get j = r.bad.get j := by
      simp only [markBad, Bitset.get_set, hlen]
      have : (decide (i = j) && decide (j < r.sectorCount)) = false := by
        simpa using fun hij => not_lt.1 fun hj => h ⟨hij, hj⟩
      rw [this, Bool.or_false]
    simp only [status, hget]
    rfl

/-- Marking the sectors of a list bad. -/
lemma status_foldl_markBad (l : List ℕ) (r : ReadResult) (j : ℕ) :
    (l.foldl markBad r).status j = if j ∈ l ∧ j < r.sectorCount then .bad else r.status j := by
  induction l generalizing r with
  | nil => simp
  | cons i l ih =>
    rw [List.foldl_cons, ih, sectorCount_markBad, status_markBad]
    by_cases hj : j < r.sectorCount
    · by_cases hl : j ∈ l
      · simp [hj, hl]
      · by_cases hij : i = j
        · simp [hj, hij]
        · simp [hj, hl, hij, Ne.symm hij]
    · simp [hj]

@[simp] lemma sectorCount_foldl_markBad (l : List ℕ) (r : ReadResult) :
    (l.foldl markBad r).sectorCount = r.sectorCount := by
  induction l generalizing r with
  | nil => rfl
  | cons i l ih => rw [List.foldl_cons, ih, sectorCount_markBad]

@[simp] lemma sectorCount_allBad (ss n : ℕ) : (allBad ss n).sectorCount = n := by
  simp [allBad]

lemma status_allBad {ss n i : ℕ} (h : i < n) : (allBad ss n).status i = .bad := by
  rw [allBad, status_foldl_markBad, if_pos ⟨List.mem_range.2 h, by simpa using h⟩]

/-- Mark bad every sector with a byte of the buffer at or past `startByte`; the last sector of a
request that is not a sector multiple counts only its bytes inside the buffer. -/
def markBadFromByte (r : ReadResult) (sectorSize bufLen startByte : ℕ) : ReadResult :=
  if bufLen ≤ startByte then r
  else ((List.range r.sectorCount).filter fun i =>
    decide (startByte < min ((i + 1) * sectorSize) bufLen)).foldl markBad r

@[simp] lemma sectorCount_markBadFromByte (r : ReadResult) (ss n k : ℕ) :
    (r.markBadFromByte ss n k).sectorCount = r.sectorCount := by
  unfold markBadFromByte
  split <;> simp

lemma status_markBadFromByte (r : ReadResult) (ss n k j : ℕ) :
    (r.markBadFromByte ss n k).status j =
      if j < r.sectorCount ∧ k < min ((j + 1) * ss) n then .bad else r.status j := by
  unfold markBadFromByte
  by_cases hk : n ≤ k
  · rw [if_pos hk, if_neg (by omega)]
  · rw [if_neg hk, status_foldl_markBad]
    refine if_congr ?_ rfl rfl
    simp only [List.mem_filter, List.mem_range, decide_eq_true_eq]
    tauto

end ReadResult

end Reclaim
