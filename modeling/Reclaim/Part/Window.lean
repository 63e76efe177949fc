import Reclaim.Part.Scan
import Reclaim.Block.SectorTable

/-!
# Reading through a window

What the scan reports is read through an `OffsetView`, whose parent holds the neighbouring
partitions too.  `OffsetView::read_at` asks the parent for the part of a request that lies in the
window, and fills up the rest with zeros in sectors that are bad.

`ReadsWithin` says what this comes to.  Its last field compares two parents that agree inside the
window and differ anywhere else: a view cannot tell them apart.
-/

namespace Reclaim

open FileBytes

variable {σ : Type}

/-- `align_down`. -/
def alignDown (value align : ℕ) : ℕ := value - value % align

lemma alignDown_of_dvd {value align : ℕ} (h : align ∣ value) : alignDown value align = value := by
  rw [alignDown, Nat.mod_eq_zero_of_dvd h, Nat.sub_zero]

namespace ReadResult

/-- The bad and the unread sectors of one result, marked in another. -/
def marked (res r : ReadResult) : ReadResult :=
  r.unreadSectors.foldl markUnread (r.badSectors.foldl markBad res)

lemma mem_unreadSectors {r : ReadResult} {i : ℕ} :
    i ∈ r.unreadSectors ↔ r.unread.get i = true := by
  rw [unreadSectors, Bitset.mem_iterSet]

/-- Marking the sectors of a list unread. -/
lemma status_foldl_markUnread (l : List ℕ) (r : ReadResult) (j : ℕ) :
    (l.foldl markUnread r).status j =
      if j ∈ l ∧ j < r.sectorCount ∧ r.status j = .good then .unread else r.status j := by
  induction l generalizing r with
  | nil => simp
  | cons i l ih =>
    rw [List.foldl_cons, ih, sectorCount_markUnread, status_markUnread]
    by_cases hj : j < r.sectorCount ∧ r.status j = .good
    · by_cases hij : i = j
      · simp [hj.1, hj.2, hij]
      · simp [hj.1, hj.2, hij, Ne.symm hij]
    · have hnot : ∀ P : Prop, ¬ (P ∧ j < r.sectorCount ∧ r.status j = .good) := fun P h => hj h.2
      have hkept : (if i = j ∧ j < r.sectorCount ∧ r.status j = .good then .unread
          else r.status j) = r.status j := if_neg (hnot _)
      rw [hkept, if_neg (hnot _), if_neg (hnot _)]

@[simp] lemma sectorCount_foldl_markUnread (l : List ℕ) (r : ReadResult) :
    (l.foldl markUnread r).sectorCount = r.sectorCount := by
  induction l generalizing r with
  | nil => rfl
  | cons i l ih => rw [List.foldl_cons, ih, sectorCount_markUnread]

@[simp] lemma sectorCount_marked (res r : ReadResult) :
    (res.marked r).sectorCount = res.sectorCount := by
  rw [marked, sectorCount_foldl_markUnread, sectorCount_foldl_markBad]

/-- A sector that was good takes over its status. -/
lemma status_marked {res r : ReadResult} {j : ℕ} (hj : j < res.sectorCount)
    (hgood : res.status j = .good) : (res.marked r).status j = r.status j := by
  rw [marked, status_foldl_markUnread, sectorCount_foldl_markBad, status_foldl_markBad, hgood]
  simp only [mem_unreadSectors, mem_badSectors, status_eq_bad_iff]
  unfold status
  cases r.bad.get j with
  | true => simp [hj]
  | false => cases r.unread.get j <;> simp [hj]

end ReadResult

namespace OffsetView

variable {src : BlockSource σ} {v : OffsetView} {start len : ℕ}

/-- `OffsetView::read_at`. -/
def readAt (inner : BlockSource σ) (v : OffsetView) (s : σ) (offset n : ℕ) : ReadOutcome × σ :=
  let ss := max inner.sectorSize 1
  let sectorCount := divCeil n ss
  if v.len ≤ offset ∨ offset % ss ≠ 0 then
    (⟨List.replicate n 0, ReadResult.allBad inner.sectorSize sectorCount⟩, s)
  else
    let parentOff := alignDown v.start ss + offset
    let avail := min (v.len - offset) n
    if avail = n then inner.readAt s parentOff n
    else
      let r := inner.readAt s parentOff avail
      let res := (ReadResult.good inner.sectorSize sectorCount).marked r.1.result
      (⟨r.1.buf ++ List.replicate (n - avail) 0,
        res.markBadFromByte inner.sectorSize n avail⟩, r.2)

/-- What `OffsetView::new` makes sure of. -/
lemma of_new (h : OffsetView.new src start len = .ok v) :
    v.start = start ∧ v.len = len ∧ src.sector ∣ start ∧ start + len ≤ src.len := by
  unfold OffsetView.new at h
  dsimp only at h
  split at h
  · exact absurd h (by simp)
  rename_i haligned
  split at h
  · exact absurd h (by simp)
  rename_i hfits
  obtain rfl := Except.ok.inj h
  refine ⟨rfl, rfl, ?_, by omega⟩
  by_cases hss : src.sectorSize = 0
  · rw [BlockSource.sector, hss]
    exact one_dvd start
  · rw [BlockSource.sector, max_eq_left (by omega), Nat.dvd_iff_mod_eq_zero]
    by_contra hmod
    exact haligned ⟨hss, hmod⟩

/-- The three ways in which a request is answered. -/
lemma readAt_cases (hstart : src.sector ∣ v.start) {off : ℕ} (hoff : src.sector ∣ off) (s : σ)
    (n : ℕ) :
    (v.len ≤ off ∧ v.readAt src s off n =
      (⟨List.replicate n 0, ReadResult.allBad src.sectorSize (divCeil n src.sector)⟩, s)) ∨
    (off < v.len ∧ n ≤ v.len - off ∧ v.readAt src s off n = src.readAt s (v.start + off) n) ∨
    (off < v.len ∧ v.len - off < n ∧ v.readAt src s off n =
      let r := src.readAt s (v.start + off) (v.len - off)
      (⟨r.1.buf ++ List.replicate (n - (v.len - off)) 0,
        ((ReadResult.good src.sectorSize (divCeil n src.sector)).marked r.1.result).markBadFromByte
          src.sectorSize n (v.len - off)⟩, r.2)) := by
  have hmod : off % max src.sectorSize 1 = 0 := Nat.mod_eq_zero_of_dvd hoff
  have hbase : alignDown v.start (max src.sectorSize 1) = v.start := alignDown_of_dvd hstart
  rcases Nat.lt_or_ge off v.len with hlt | hge
  · right
    unfold readAt
    dsimp only
    rw [if_neg (by omega), hbase]
    rcases Nat.lt_or_ge (v.len - off) n with hcut | hall
    · right
      refine ⟨hlt, hcut, ?_⟩
      rw [min_eq_left hcut.le, if_neg hcut.ne]
      rfl
    · left
      refine ⟨hlt, hall, ?_⟩
      rw [min_eq_right hall, if_pos rfl]
  · left
    refine ⟨hge, ?_⟩
    unfold readAt
    dsimp only
    rw [if_pos (.inl hge)]
    rfl

/-! ## What a view shows -/

/-- Two parents answer alike inside a window. -/
def AgreeWithin (v : OffsetView) (src src' : BlockSource σ) : Prop :=
  ∀ s off n, v.start ≤ off → off + n ≤ v.start + v.len → src.readAt s off n = src'.readAt s off n

/-- A view shows its window and nothing else: what the parent has for the part of a request that
lies in the window, zeros in bad sectors behind it, and the same whatever the parent has outside. -/
structure ReadsWithin (src : BlockSource σ) (v : OffsetView) : Prop where
  length : ∀ s off n, src.sector ∣ off → (v.readAt src s off n).1.buf.length = n
  count : ∀ s off n, src.sector ∣ off →
    (v.readAt src s off n).1.result.sectorCount = divCeil n src.sector
  bytes : ∀ s off n, src.sector ∣ off → ∀ k < n, off + k < v.len →
    byteAt (v.readAt src s off n).1.buf k =
      byteAt (src.readAt s (v.start + off) (min (v.len - off) n)).1.buf k
  status : ∀ s off n, src.sector ∣ off → ∀ i < divCeil n src.sector,
    off + min ((i + 1) * src.sector) n ≤ v.len →
    (v.readAt src s off n).1.result.status i =
      (src.readAt s (v.start + off) (min (v.len - off) n)).1.result.status i
  zero : ∀ s off n, src.sector ∣ off → ∀ k < n, v.len ≤ off + k →
    byteAt (v.readAt src s off n).1.buf k = 0
  notGood : ∀ s off n, src.sector ∣ off → ∀ i < divCeil n src.sector,
    v.len < off + min ((i + 1) * src.sector) n →
    (v.readAt src s off n).1.result.status i ≠ .good
  content : ∀ (st : src.Stable) s off n, src.sector ∣ off → ∀ k < n, off + k < v.len →
    (v.readAt src s off n).1.result.status (k / src.sector) ≠ .bad →
    byteAt (v.readAt src s off n).1.buf k = st.content (v.start + off + k)
  confined : ∀ src' : BlockSource σ, src'.sectorSize = src.sectorSize → v.AgreeWithin src src' →
    ∀ s off n, src.sector ∣ off → v.readAt src s off n = v.readAt src' s off n

section Reads

variable {off n : ℕ} {s : σ}

lemma length_readAt (hstart : src.sector ∣ v.start) (hoff : src.sector ∣ off) :
    (v.readAt src s off n).1.buf.length = n := by
  rcases readAt_cases hstart hoff s n with ⟨-, h⟩ | ⟨-, -, h⟩ | ⟨-, hcut, h⟩
  · rw [h, List.length_replicate]
  · rw [h, src.filled]
  · rw [h]
    dsimp only
    rw [List.length_append, src.filled, List.length_replicate]
    omega

lemma sectorCount_readAt (hstart : src.sector ∣ v.start) (hoff : src.sector ∣ off) :
    (v.readAt src s off n).1.result.sectorCount = divCeil n src.sector := by
  rcases readAt_cases hstart hoff s n with ⟨-, h⟩ | ⟨-, -, h⟩ | ⟨-, -, h⟩
  · rw [h, ReadResult.sectorCount_allBad]
  · rw [h, src.sectorCount_eq]
    rfl
  · rw [h]
    dsimp only
    rw [ReadResult.sectorCount_markBadFromByte, ReadResult.sectorCount_marked,
      ReadResult.sectorCount_good]

lemma byteAt_readAt (hstart : src.sector ∣ v.start) (hoff : src.sector ∣ off) {k : ℕ}
    (hin : off + k < v.len) : byteAt (v.readAt src s off n).1.buf k =
      byteAt (src.readAt s (v.start + off) (min (v.len - off) n)).1.buf k := by
  rcases readAt_cases hstart hoff s n with ⟨hpast, -⟩ | ⟨-, hall, h⟩ | ⟨-, hcut, h⟩
  · omega
  · rw [h, min_eq_right hall]
  · rw [h, min_eq_left hcut.le]
    dsimp only
    rw [byteAt_append, src.filled, if_pos (by omega)]

lemma byteAt_readAt_past (hstart : src.sector ∣ v.start) (hoff : src.sector ∣ off) {k : ℕ}
    (hk : k < n) (hpast : v.len ≤ off + k) : byteAt (v.readAt src s off n).1.buf k = 0 := by
  rcases readAt_cases hstart hoff s n with ⟨-, h⟩ | ⟨hlt, hall, -⟩ | ⟨-, hcut, h⟩
  · rw [h, byteAt_replicate_zero]
  · omega
  · rw [h]
    dsimp only
    rw [byteAt_append, src.filled, if_neg (by omega), byteAt_replicate_zero]

/-- A sector that lies in the window has the status that the parent reports. -/
lemma status_readAt (hss : 0 < src.sectorSize) (hstart : src.sector ∣ v.start)
    (hoff : src.sector ∣ off) {i : ℕ} (hi : i < divCeil n src.sector)
    (hin : off + min ((i + 1) * src.sector) n ≤ v.len) :
    (v.readAt src s off n).1.result.status i =
      (src.readAt s (v.start + off) (min (v.len - off) n)).1.result.status i := by
  have hpos : 0 < min ((i + 1) * src.sector) n := by
    have hn := (lt_divCeil_iff src.sector_pos).1 hi
    have hsector : 0 < (i + 1) * src.sector := Nat.mul_pos i.succ_pos src.sector_pos
    omega
  rcases readAt_cases hstart hoff s n with ⟨hpast, -⟩ | ⟨-, hall, h⟩ | ⟨-, hcut, h⟩
  · omega
  · rw [h, min_eq_right hall]
  · rw [h, min_eq_left hcut.le]
    dsimp only
    have hsize : src.sectorSize = src.sector := (max_eq_left hss).symm
    rw [ReadResult.status_markBadFromByte, if_neg, ReadResult.status_marked]
    · simpa using hi
    · simp
    · rw [hsize]
      omega

/-- A sector that reaches past the window is bad. -/
lemma status_readAt_past (hss : 0 < src.sectorSize) (hstart : src.sector ∣ v.start)
    (hoff : src.sector ∣ off) {i : ℕ} (hi : i < divCeil n src.sector)
    (hpast : v.len < off + min ((i + 1) * src.sector) n) :
    (v.readAt src s off n).1.result.status i = .bad := by
  rcases readAt_cases hstart hoff s n with ⟨-, h⟩ | ⟨hlt, hall, -⟩ | ⟨hlt, hcut, h⟩
  · rw [h]
    exact ReadResult.status_allBad hi
  · omega
  · have hsize : src.sectorSize = src.sector := (max_eq_left hss).symm
    rw [h]
    dsimp only
    rw [ReadResult.status_markBadFromByte, if_pos]
    rw [hsize]
    exact ⟨by simpa using hi, by omega⟩

/-- A view asks its parent for nothing outside the window. -/
lemma readAt_congr {src' : BlockSource σ} (hsize : src'.sectorSize = src.sectorSize)
    (hagree : v.AgreeWithin src src') (hstart : src.sector ∣ v.start) (hoff : src.sector ∣ off) :
    v.readAt src s off n = v.readAt src' s off n := by
  have hsector : src'.sector = src.sector := by rw [BlockSource.sector, hsize, BlockSource.sector]
  have hstart' : src'.sector ∣ v.start := hsector ▸ hstart
  have hoff' : src'.sector ∣ off := hsector ▸ hoff
  have hcases := readAt_cases hstart' hoff' s n
  rw [hsize, hsector] at hcases
  rcases readAt_cases hstart hoff s n with ⟨hpast, h⟩ | ⟨hlt, hall, h⟩ | ⟨hlt, hcut, h⟩ <;>
    rcases hcases with ⟨hpast', h'⟩ | ⟨hlt', hall', h'⟩ | ⟨hlt', hcut', h'⟩ <;> try omega
  · rw [h, h']
  · rw [h, h', hagree s (v.start + off) n (by omega) (by omega)]
  · rw [h, h', hagree s (v.start + off) (v.len - off) (by omega) (by omega)]

end Reads

/-- **A view shows its window and nothing else.**  Every source refuses a sector size of zero, or
takes one instead. -/
theorem readsWithin (hss : 0 < src.sectorSize) (h : OffsetView.new src start len = .ok v) :
    ReadsWithin src v := by
  obtain ⟨rfl, rfl, hstart, -⟩ := of_new h
  refine ⟨fun s off n hoff => length_readAt hstart hoff,
    fun s off n hoff => sectorCount_readAt hstart hoff,
    fun s off n hoff k _ hin => byteAt_readAt hstart hoff hin,
    fun s off n hoff i hi hin => status_readAt hss hstart hoff hi hin,
    fun s off n hoff k hk hpast => byteAt_readAt_past hstart hoff hk hpast,
    fun s off n hoff i hi hpast => ?_, fun st s off n hoff k hk hin hbad => ?_,
    fun src' hsize hagree s off n hoff => readAt_congr hsize hagree hstart hoff⟩
  · rw [status_readAt_past hss hstart hoff hi hpast]
    simp
  · have hcount : k / src.sector < divCeil n src.sector := div_lt_divCeil src.sector_pos hk
    -- a sector that is not bad lies in the window
    have hsector : off + min ((k / src.sector + 1) * src.sector) n ≤ v.len := by
      by_contra hpast
      exact hbad (status_readAt_past hss hstart hoff hcount (not_le.1 hpast))
    rw [status_readAt hss hstart hoff hcount hsector, st.answers] at hbad
    rw [byteAt_readAt hstart hoff hin, st.answers,
      st.faithful _ _ (hstart.add hoff) k (by omega) hbad]

/-- A disk of four sectors, numbered in their first bytes. -/
def numbered : Medium Unit :=
  Medium.ofSectors 2048 512 (fun i => [UInt8.ofNat i]) (by decide) sector512_le_u32Max sector512_pos

/-- A window that ends inside a sector of its parent. -/
theorem readsWithin_of_ragged :
    ReadsWithin numbered.src ⟨512, 700, "view:disk:512+700"⟩ := by
  have hnew : OffsetView.new numbered.src 512 700 = .ok ⟨512, 700, "view:disk:512+700"⟩ := rfl
  exact readsWithin (by decide) hnew

end OffsetView

end Reclaim
