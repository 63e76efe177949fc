import Reclaim.Block.LbaRange
import Reclaim.Block.Source
import Mathlib.Data.List.MinMax

/-!
# The read-ahead cache

`ReadAheadCache` keeps the chunks of a source that were used last: for each its bytes, and which of
its sectors were bad.  A read is put together from the chunks it touches, which are fetched from the
source if they are not there; what a sector is beside good or bad is not kept.

`readLoop_spec` says what a read makes of the chunks that it finds or fetches.  With it the cache is
a block source, whose state is that of the source below and of the cache.
-/

namespace Reclaim

open FileBytes

variable {σ : Type}

/-- A cache over a source.  Its chunks are whole sectors. -/
structure ReadAheadCache (σ : Type) where
  inner : BlockSource σ
  chunkSize : ℕ
  capacityChunks : ℕ
  capacity_pos : 0 < capacityChunks
  chunk_pos : 0 < chunkSize
  sector_dvd : inner.sector ∣ chunkSize

/-- `CHUNK_SIZE`. -/
def readAheadChunk : ℕ := 1024 * 1024

lemma alignUp_pos {v a : ℕ} (hv : 0 < v) : 0 < alignUp v a := by
  unfold alignUp saturatingAdd u64Max
  split <;> omega

lemma dvd_alignUp {v a : ℕ} (ha : 0 < a) (h : v + a ≤ u64Max) : a ∣ alignUp v a := by
  unfold alignUp saturatingAdd
  split
  · exact Nat.dvd_of_mod_eq_zero ‹_›
  · have hlt := Nat.mod_lt v ha
    have hdm := Nat.div_add_mod v a
    rw [min_eq_left (by omega)]
    exact ⟨v / a + 1, by rw [Nat.mul_add, Nat.mul_one]; omega⟩

namespace ReadAheadCache

/-- `with_capacity`. -/
def withCapacity (inner : BlockSource σ) (capacityChunks : ℕ) : ReadAheadCache σ where
  inner
  chunkSize := alignUp readAheadChunk inner.sector
  capacityChunks := max capacityChunks 1
  capacity_pos := by omega
  chunk_pos := alignUp_pos (by decide)
  sector_dvd := by
    apply dvd_alignUp inner.sector_pos
    have hss := inner.sector_le
    have hsmall : readAheadChunk + u32Max ≤ u64Max := by decide
    omega

variable (c : ReadAheadCache σ)

/-- How many bytes chunk `idx` has. -/
def chunkLen (idx : ℕ) : ℕ := min c.chunkSize (c.inner.len - saturatingMul idx c.chunkSize)

/-- A chunk that is resident. -/
structure CacheEntry where
  idx : ℕ
  data : Bytes
  bad : Bitset
  lastUsed : ℕ
  length_data : data.length = c.chunkLen idx

/-- The chunks that are resident, each once. -/
structure CacheState where
  map : List c.CacheEntry
  tick : ℕ
  nodup : (map.map (·.idx)).Nodup

/-- A cache with nothing in it. -/
def CacheState.empty : c.CacheState := ⟨[], 0, List.nodup_nil⟩

variable {c}

/-- The entry was used just now. -/
def CacheEntry.used (e : c.CacheEntry) (tick : ℕ) : c.CacheEntry := { e with lastUsed := tick }

@[simp] lemma CacheEntry.idx_used (e : c.CacheEntry) (tick : ℕ) : (e.used tick).idx = e.idx := rfl

/-! ## Reading through the cache -/

variable (c)

/-- `fetch`. -/
def fetch (idx : ℕ) (s : σ) : c.CacheEntry × σ :=
  if h : c.chunkLen idx = 0 then (⟨idx, [], Bitset.new 0, 0, by simp [h]⟩, s)
  else
    let r := c.inner.readAt s (saturatingMul idx c.chunkSize) (c.chunkLen idx)
    (⟨idx, r.1.buf,
      r.1.result.badSectors.foldl Bitset.set (Bitset.new r.1.result.sectorCount), 0,
      c.inner.filled _ _ _⟩, r.2)

@[simp] lemma idx_fetch (idx : ℕ) (s : σ) : (c.fetch idx s).1.idx = idx := by
  unfold fetch
  split <;> rfl

/-- The chunk `idx`, fetched if it is not resident, and used. -/
def ensure (idx : ℕ) (s : σ × c.CacheState) : c.CacheEntry × (σ × c.CacheState) :=
  let tick := saturatingAdd s.2.tick 1
  match h : s.2.map.find? (·.idx = idx) with
  | some e =>
    (e.used tick, (s.1, ⟨s.2.map.map fun x => if x.idx = idx then e.used tick else x, tick, by
      have hidx : e.idx = idx := by simpa using List.find?_some h
      have hsame : ((fun x : c.CacheEntry => x.idx) ∘ fun x =>
          if x.idx = idx then e.used tick else x) = fun x => x.idx := by
        funext x
        by_cases hx : x.idx = idx <;> simp [hx, hidx]
      rw [List.map_map, hsame]
      exact s.2.nodup⟩))
  | none =>
    let r := c.fetch idx s.1
    (r.1.used tick, (r.2, ⟨r.1.used tick :: s.2.map, tick, by
      rw [List.map_cons, List.nodup_cons]
      refine ⟨?_, s.2.nodup⟩
      rw [CacheEntry.idx_used, idx_fetch]
      rintro hmem
      obtain ⟨x, hx, hidx⟩ := List.mem_map.1 hmem
      exact absurd hidx (by simpa using List.find?_eq_none.1 h x hx)⟩))

/-- Carry over whether sector `r` of a request is bad. -/
def sweep (e : c.CacheEntry) (off start n : ℕ) (acc : Bytes × ReadResult) (r : ℕ) :
    Bytes × ReadResult :=
  let ss := c.inner.sector
  if e.bad.get ((off + r * ss - start) / ss) then
    (writeAt acc.1 (r * ss) (List.replicate (min (r * ss + ss) n - r * ss) 0), acc.2.markBad r)
  else acc

/-- Take `span` bytes of a request from a chunk, from position `pos` of the source on. -/
def readSpan (e : c.CacheEntry) (off n pos span : ℕ) (acc : Bytes × ReadResult) :
    Bytes × ReadResult :=
  let ss := c.inner.sector
  let start := saturatingMul (pos / c.chunkSize) c.chunkSize
  let bufOff := pos - off
  let buf := writeAt acc.1 bufOff ((e.data.drop (pos - start)).take span)
  (List.range' (bufOff / ss) ((bufOff + span - 1) / ss + 1 - bufOff / ss)).foldl
    (c.sweep e off start n) (buf, acc.2)

/-- The loop of `read_at` over the chunks of a request. -/
def readLoop (off stop n : ℕ) : ℕ → ℕ → Bytes × ReadResult → σ × c.CacheState →
    (Bytes × ReadResult) × (σ × c.CacheState)
  | 0, _, acc, s => (acc, s)
  | fuel + 1, pos, acc, s =>
    if pos < stop then
      let r := c.ensure (pos / c.chunkSize) s
      let within := pos - saturatingMul (pos / c.chunkSize) c.chunkSize
      if r.1.data.length ≤ within then (acc, r.2)
      else
        let span := min (r.1.data.length - within) (stop - pos)
        readLoop off stop n fuel (pos + span) (c.readSpan r.1 off n pos span acc) r.2
    else (acc, s)

/-- The loop of `evict`. -/
def evictLoop : ℕ → List c.CacheEntry → List c.CacheEntry
  | 0, m => m
  | fuel + 1, m =>
    if c.capacityChunks < m.length then
      match m.argmin (·.lastUsed) with
      | some v => evictLoop fuel (m.filter fun e => decide (e.idx ≠ v.idx))
      | none => m
    else m

lemma evictLoop_sublist (fuel : ℕ) (m : List c.CacheEntry) : (c.evictLoop fuel m).Sublist m := by
  induction fuel generalizing m with
  | zero => exact List.Sublist.refl m
  | succ fuel ih =>
    unfold evictLoop
    split
    · split
      · exact (ih _).trans List.filter_sublist
      · exact List.Sublist.refl m
    · exact List.Sublist.refl m

/-- `evict`. -/
def evict (st : c.CacheState) : c.CacheState where
  map := c.evictLoop st.map.length st.map
  tick := st.tick
  nodup := ((c.evictLoop_sublist _ _).map _).nodup st.nodup

/-- `read_at`. -/
def readAt (s : σ × c.CacheState) (off n : ℕ) : ReadOutcome × (σ × c.CacheState) :=
  let ss := c.inner.sector
  let count := divCeil n ss
  if n = 0 then (⟨[], ReadResult.good ss count⟩, s)
  else if ¬ ss ∣ off ∨ c.inner.len ≤ off then
    (⟨List.replicate n 0, ReadResult.allBad ss count⟩, s)
  else
    -- the sum is one of `u64`s
    let stop := (off + n) % 2 ^ 64
    let readableEnd := min stop c.inner.len
    let r := c.readLoop off readableEnd n n off (List.replicate n 0, ReadResult.good ss count) s
    let result := if readableEnd < stop then
      r.1.2.markBadFromByte ss n (readableEnd - off) else r.1.2
    (⟨r.1.1, result⟩, (r.2.1, c.evict r.2.2))

/-! ## What a read is made of -/

variable {c}

/-- Chunks of the source, as a read finds or fetches them. -/
abbrev Chunks (c : ReadAheadCache σ) : Type := ℕ → c.CacheEntry

/-- The byte at a position of the source is in a sector that the chunks report bad. -/
def Chunks.isBad (E : Chunks c) (x : ℕ) : Bool :=
  (E (x / c.chunkSize)).bad.get (x % c.chunkSize / c.inner.sector)

/-- The byte that the chunks have for a position of the source. -/
def Chunks.byte (E : Chunks c) (x : ℕ) : UInt8 :=
  if E.isBad x then 0 else byteAt (E (x / c.chunkSize)).data (x % c.chunkSize)

lemma saturatingMul_chunk {x : ℕ} (hx : x ≤ u64Max) :
    saturatingMul (x / c.chunkSize) c.chunkSize = x / c.chunkSize * c.chunkSize :=
  min_eq_left ((Nat.div_mul_le_self _ _).trans hx)

/-- Positions of one sector are in one chunk, and in one sector of it. -/
lemma same_sector {x y : ℕ} (h : x / c.inner.sector = y / c.inner.sector) :
    x / c.chunkSize = y / c.chunkSize ∧
      x % c.chunkSize / c.inner.sector = y % c.chunkSize / c.inner.sector := by
  obtain ⟨q, hq⟩ := c.sector_dvd
  rw [hq, ← Nat.div_div_eq_div_mul, ← Nat.div_div_eq_div_mul, Nat.mod_mul_right_div_self,
    Nat.mod_mul_right_div_self, h]
  exact ⟨rfl, rfl⟩

lemma sweep_foldl (e : c.CacheEntry) (off start n : ℕ) (rs : List ℕ) (acc : Bytes × ReadResult)
    (hlen : acc.1.length = n) :
    (rs.foldl (c.sweep e off start n) acc).1.length = n ∧
    (rs.foldl (c.sweep e off start n) acc).2.sectorCount = acc.2.sectorCount ∧
    (∀ k, byteAt (rs.foldl (c.sweep e off start n) acc).1 k =
      if k / c.inner.sector ∈ rs ∧
        e.bad.get ((off + k / c.inner.sector * c.inner.sector - start) / c.inner.sector) =
          true then 0
      else byteAt acc.1 k) ∧
    ∀ i < acc.2.sectorCount, (rs.foldl (c.sweep e off start n) acc).2.status i =
      if i ∈ rs ∧ e.bad.get ((off + i * c.inner.sector - start) / c.inner.sector) = true then .bad
      else acc.2.status i := by
  have hss := c.inner.sector_pos
  induction rs generalizing acc with
  | nil => simp [hlen]
  | cons r rs ih =>
    rw [List.foldl_cons]
    by_cases hbad : e.bad.get ((off + r * c.inner.sector - start) / c.inner.sector) = true
    · have hstep : c.sweep e off start n acc r = (writeAt acc.1 (r * c.inner.sector)
          (List.replicate (min (r * c.inner.sector + c.inner.sector) n - r * c.inner.sector) 0),
          acc.2.markBad r) := by
        unfold sweep
        dsimp only
        rw [if_pos hbad]
      have hlen' : (c.sweep e off start n acc r).1.length = n := by
        rw [hstep]
        dsimp only
        by_cases hnil : List.replicate
            (min (r * c.inner.sector + c.inner.sector) n - r * c.inner.sector) (0 : UInt8) = []
        · rw [hnil, writeAt_nil, hlen]
        · have hpos : min (r * c.inner.sector + c.inner.sector) n - r * c.inner.sector ≠ 0 := by
            simpa using hnil
          rw [length_writeAt _ _ _ hnil, List.length_replicate, hlen]
          omega
      obtain ⟨h1, h2, h3, h4⟩ := ih _ hlen'
      refine ⟨h1, h2.trans (by rw [hstep]; rfl), fun k => ?_, fun i hi => ?_⟩
      · rw [h3 k, hstep, byteAt_writeAt, List.length_replicate]
        by_cases hk : k / c.inner.sector = r
        · subst hk
          by_cases hkn : k < n
          · have hd := Nat.div_mul_le_self k c.inner.sector
            have hl := Nat.lt_div_mul_add (a := k) hss
            rw [if_pos (show k / c.inner.sector * c.inner.sector ≤ k ∧ k < k / c.inner.sector *
              c.inner.sector + (min (k / c.inner.sector * c.inner.sector + c.inner.sector) n -
              k / c.inner.sector * c.inner.sector) by omega)]
            simp [hbad]
          · have hzero : byteAt acc.1 k = 0 := byteAt_of_length_le (by omega)
            simp [hbad, hzero]
        · have hout : ¬ (r * c.inner.sector ≤ k ∧ k < r * c.inner.sector +
              (min (r * c.inner.sector + c.inner.sector) n - r * c.inner.sector)) := by
            rintro ⟨hle, hlt⟩
            apply hk
            rw [Nat.div_eq_iff hss]
            omega
          rw [if_neg hout]
          simp [hk]
      · have hcount : (c.sweep e off start n acc r).2.sectorCount = acc.2.sectorCount := by
          rw [hstep]
          rfl
        rw [h4 i (by rw [hcount]; exact hi), hstep, ReadResult.status_markBad]
        by_cases hir : r = i
        · subst hir
          simp [hbad, hi]
        · simp [hir, Ne.symm hir]
    · have hstep : c.sweep e off start n acc r = acc := by
        unfold sweep
        dsimp only
        rw [if_neg hbad]
      obtain ⟨h1, h2, h3, h4⟩ := ih _ hlen
      rw [hstep]
      refine ⟨h1, h2, fun k => ?_, fun i hi => ?_⟩
      · rw [h3 k]
        by_cases hk : k / c.inner.sector = r
        · subst hk
          simp [hbad]
        · simp [hk]
      · rw [h4 i hi]
        by_cases hir : i = r
        · subst hir
          simp [hbad]
        · simp [hir]

/-- Positions `pos` to `stop` of the source have been put into a request at `off`, from `E`. -/
structure Filled (E : Chunks c) (off n pos stop : ℕ) (acc out : Bytes × ReadResult) : Prop where
  length : out.1.length = n
  count : out.2.sectorCount = acc.2.sectorCount
  bytes : ∀ k, byteAt out.1 k =
    if pos ≤ off + k ∧ off + k < stop then E.byte (off + k) else byteAt acc.1 k
  status : ∀ i < acc.2.sectorCount, out.2.status i =
    if (pos ≤ off + i * c.inner.sector ∧ off + i * c.inner.sector < stop) ∧
      E.isBad (off + i * c.inner.sector) = true then .bad else acc.2.status i

/-- The sectors of a request that a span from a sector on touches. -/
lemma mem_sectors {ss a span i : ℕ} (hss : 0 < ss) (ha : ss ∣ a) (hspan : 0 < span) :
    i ∈ List.range' (a / ss) ((a + span - 1) / ss + 1 - a / ss) ↔
      a ≤ i * ss ∧ i * ss < a + span := by
  have hfirst : a / ss ≤ i ↔ a ≤ i * ss := by
    rw [Nat.div_le_iff_le_mul_add_pred hss]
    obtain ⟨q, rfl⟩ := ha
    constructor
    · intro h
      rw [Nat.mul_comm i]
      apply Nat.mul_le_mul_left ss
      by_contra hlt
      have hmul := Nat.mul_le_mul_left ss (not_le.1 hlt)
      rw [Nat.succ_eq_add_one, Nat.mul_add] at hmul
      omega
    · intro h
      rw [Nat.mul_comm ss i]
      omega
  have hlast : i ≤ (a + span - 1) / ss ↔ i * ss < a + span := by
    rw [Nat.le_div_iff_mul_le hss]
    omega
  rw [List.mem_range'_1, ← hfirst, ← hlast]
  have hle : a / ss ≤ (a + span - 1) / ss := Nat.div_le_div_right (by omega)
  omega

/-- **One chunk's part of a read.** -/
lemma filled_readSpan {E : Chunks c} {e : c.CacheEntry} {off n pos span : ℕ}
    {acc : Bytes × ReadResult} (hE : E (pos / c.chunkSize) = e) (hoff : c.inner.sector ∣ off)
    (hpos : c.inner.sector ∣ pos) (hle : off ≤ pos) (hmax : pos ≤ u64Max) (hspan : 0 < span)
    (hfit : pos % c.chunkSize + span ≤ e.data.length) (hchunk : e.data.length ≤ c.chunkSize)
    (hn : pos - off + span ≤ n) (hlen : acc.1.length = n)
    (hzero : ∀ k, pos - off + span ≤ k → byteAt acc.1 k = 0) :
    Filled E off n pos (pos + span) acc (c.readSpan e off n pos span acc) := by
  have hss := c.inner.sector_pos
  have hdm := Nat.div_add_mod' pos c.chunkSize
  have hstart := saturatingMul_chunk (c := c) hmax
  set start := pos / c.chunkSize * c.chunkSize with hstart'
  have hwithin : pos - start = pos % c.chunkSize := by omega
  -- a position of the span is in the chunk
  have hin : ∀ x, pos ≤ x → x < pos + span → x / c.chunkSize = pos / c.chunkSize ∧
      x % c.chunkSize = x - start := by
    intro x hx hlt
    have hdiv : x / c.chunkSize = pos / c.chunkSize := by
      rw [Nat.div_eq_iff c.chunk_pos]
      omega
    have hdmx := Nat.div_add_mod' x c.chunkSize
    rw [hdiv, ← hstart'] at hdmx
    exact ⟨hdiv, by omega⟩
  have hsect : ∀ k, (off + k / c.inner.sector * c.inner.sector) / c.inner.sector =
      (off + k) / c.inner.sector := by
    intro k
    obtain ⟨q, rfl⟩ := hoff
    rw [Nat.mul_add_div hss, Nat.mul_add_div hss, Nat.mul_div_cancel _ hss]
  have hbufOff : c.inner.sector ∣ pos - off := Nat.dvd_sub hpos hoff
  have hfloor : ∀ k, pos - off ≤ k → pos - off ≤ k / c.inner.sector * c.inner.sector := by
    intro k hk
    rw [Nat.mul_comm, ← Nat.mul_div_cancel' hbufOff]
    exact Nat.mul_le_mul_left _ (Nat.div_le_div_right hk)
  have hbad : ∀ k, pos - off ≤ k → k < pos - off + span →
      (e.bad.get ((off + k / c.inner.sector * c.inner.sector - start) / c.inner.sector) = true ↔
        E.isBad (off + k) = true) := by
    intro k hk hlt
    have hf := hfloor k hk
    have hd := Nat.div_mul_le_self k c.inner.sector
    obtain ⟨hdiv, hmod⟩ := hin (off + k / c.inner.sector * c.inner.sector) (by omega) (by omega)
    obtain ⟨hsame, hsame'⟩ := same_sector (hsect k)
    unfold Chunks.isBad
    rw [← hsame, hdiv, hE, ← hsame', hmod]
  obtain ⟨h1, h2, h3, h4⟩ := sweep_foldl e off start n
    (List.range' ((pos - off) / c.inner.sector)
      ((pos - off + span - 1) / c.inner.sector + 1 - (pos - off) / c.inner.sector))
    (writeAt acc.1 (pos - off) ((e.data.drop (pos - start)).take span), acc.2) (by
      have htake : ((e.data.drop (pos - start)).take span).length = span := by
        rw [List.length_take, List.length_drop]
        omega
      have hne : (e.data.drop (pos - start)).take span ≠ [] := by
        rw [← List.length_pos_iff]
        omega
      dsimp only
      rw [length_writeAt _ _ _ hne, htake]
      omega)
  have hwrite : ∀ k, byteAt (writeAt acc.1 (pos - off) ((e.data.drop (pos - start)).take span)) k =
      if pos - off ≤ k ∧ k < pos - off + span then
        byteAt e.data (off + k - start) else byteAt acc.1 k := by
    intro k
    rw [byteAt_writeAt, List.length_take, List.length_drop, min_eq_left (by omega)]
    by_cases hk : pos - off ≤ k ∧ k < pos - off + span
    · rw [if_pos hk, if_pos hk, byteAt_take, if_pos (by omega), byteAt_drop]
      congr 1
      omega
    · rw [if_neg hk, if_neg hk]
  unfold readSpan
  dsimp only
  rw [hstart]
  refine ⟨h1, h2, fun k => ?_, fun i hi => ?_⟩
  · rw [h3 k, hwrite k]
    by_cases hk : pos - off ≤ k ∧ k < pos - off + span
    · have hf := hfloor k hk.1
      have hd := Nat.div_mul_le_self k c.inner.sector
      obtain ⟨hdiv, hmod⟩ := hin (off + k) (by omega) (by omega)
      have hmem := (mem_sectors (i := k / c.inner.sector) hss hbufOff hspan).2
        ⟨hf, by omega⟩
      rw [if_pos hk, if_pos (show pos ≤ off + k ∧ off + k < pos + span by omega), Chunks.byte]
      refine if_congr ?_ rfl ?_
      · rw [and_iff_right hmem]
        exact hbad k hk.1 hk.2
      · rw [hdiv, hE, hmod]
    · rw [if_neg hk, if_neg (show ¬ (pos ≤ off + k ∧ off + k < pos + span) by omega)]
      split
      · rename_i hsw
        have hmem := (mem_sectors hss hbufOff hspan).1 hsw.1
        have hd := Nat.div_mul_le_self k c.inner.sector
        exact (hzero k (by omega)).symm
      · rfl
  · rw [h4 i hi]
    refine if_congr ?_ rfl rfl
    rw [mem_sectors hss hbufOff hspan]
    have hrange : (pos - off ≤ i * c.inner.sector ∧ i * c.inner.sector < pos - off + span) ↔
        pos ≤ off + i * c.inner.sector ∧ off + i * c.inner.sector < pos + span := by omega
    rw [hrange]
    apply and_congr_right
    intro h
    have hb := hbad (i * c.inner.sector) (by omega) (by omega)
    rwa [Nat.mul_div_cancel _ hss] at hb

namespace Filled

variable {E E' : Chunks c} {off n pos mid stop : ℕ} {acc a out : Bytes × ReadResult}

lemma congr (h : Filled E off n pos stop acc out)
    (hE : ∀ x, pos ≤ x → x < stop → E (x / c.chunkSize) = E' (x / c.chunkSize)) :
    Filled E' off n pos stop acc out where
  length := h.length
  count := h.count
  bytes k := by
    rw [h.bytes k]
    refine ite_congr rfl (fun hk => ?_) fun _ => rfl
    unfold Chunks.byte Chunks.isBad
    rw [hE _ hk.1 hk.2]
  status i hi := by
    rw [h.status i hi]
    refine if_congr (and_congr_right fun hin => ?_) rfl rfl
    unfold Chunks.isBad
    rw [hE _ hin.1 hin.2]

lemma trans (h : Filled E off n pos mid acc a) (h' : Filled E off n mid stop a out)
    (hle : pos ≤ mid) (hle' : mid ≤ stop) : Filled E off n pos stop acc out where
  length := h'.length
  count := h'.count.trans h.count
  bytes k := by
    rw [h'.bytes k, h.bytes k]
    by_cases hlow : off + k < mid
    · rw [if_neg (by omega)]
      refine if_congr ?_ rfl rfl
      omega
    · by_cases hhigh : off + k < stop
      · rw [if_pos (by omega), if_pos (by omega)]
      · rw [if_neg (by omega), if_neg (by omega), if_neg (by omega)]
  status i hi := by
    rw [h'.status i (by rw [h.count]; exact hi), h.status i hi]
    by_cases hbad : E.isBad (off + i * c.inner.sector) = true
    · simp only [hbad, and_true]
      by_cases hlow : off + i * c.inner.sector < mid
      · rw [if_neg (by omega)]
        refine if_congr ?_ rfl rfl
        omega
      · by_cases hhigh : off + i * c.inner.sector < stop
        · rw [if_pos (by omega), if_pos (by omega)]
        · rw [if_neg (by omega), if_neg (by omega), if_neg (by omega)]
    · simp [hbad]

lemma refl (hlen : acc.1.length = n) (h : stop ≤ pos) : Filled E off n pos stop acc acc where
  length := hlen
  count := rfl
  bytes k := by rw [if_neg (by omega)]
  status i hi := by rw [if_neg (by omega)]

end Filled

section Loop

variable {P : c.CacheEntry → Prop}

/-- What is true of every chunk that is fetched or resident is true of those that a read uses. -/
lemma ensure_spec (hfetch : ∀ idx s t, P ((c.fetch idx s).1.used t))
    (hused : ∀ e t, P e → P (e.used t)) (idx : ℕ) {s : σ × c.CacheState}
    (hs : ∀ e ∈ s.2.map, P e) :
    (c.ensure idx s).1.idx = idx ∧ P (c.ensure idx s).1 ∧ ∀ e ∈ (c.ensure idx s).2.2.map, P e := by
  unfold ensure
  dsimp only
  split
  · rename_i e h
    have hP := hs e (List.mem_of_find?_eq_some h)
    refine ⟨by simpa using List.find?_some h, hused _ _ hP, fun x hx => ?_⟩
    obtain ⟨y, hy, rfl⟩ := List.mem_map.1 hx
    split
    · exact hused _ _ hP
    · exact hs y hy
  · refine ⟨by simp, hfetch _ _ _, fun x hx => ?_⟩
    rcases List.mem_cons.1 hx with rfl | hx
    · exact hfetch _ _ _
    · exact hs x hx

/-- **What the loop of a read comes to**: the request is filled from chunks that it finds or
fetches. -/
lemma readLoop_spec (hfetch : ∀ idx s t, P ((c.fetch idx s).1.used t))
    (hused : ∀ e t, P e → P (e.used t)) {off stop n : ℕ} (hoff : c.inner.sector ∣ off)
    (hstop : stop ≤ c.inner.len) (hn : stop - off ≤ n) (fuel : ℕ) :
    ∀ (pos : ℕ) (acc : Bytes × ReadResult) (s : σ × c.CacheState), off ≤ pos →
      (c.inner.sector ∣ pos ∨ stop ≤ pos) → stop - pos ≤ fuel → acc.1.length = n →
      (∀ k, pos - off ≤ k → byteAt acc.1 k = 0) → (∀ e ∈ s.2.map, P e) →
      (∀ e ∈ (c.readLoop off stop n fuel pos acc s).2.2.map, P e) ∧
      ∃ E : Chunks c, (∀ x, pos ≤ x → x < stop →
          (E (x / c.chunkSize)).idx = x / c.chunkSize ∧ P (E (x / c.chunkSize))) ∧
        Filled E off n pos stop acc (c.readLoop off stop n fuel pos acc s).1 := by
  have hmax := c.inner.len_le
  have hcp := c.chunk_pos
  induction fuel with
  | zero =>
    intro pos acc s hle _ hfuel hlen _ hs
    refine ⟨hs, fun idx => ((c.fetch idx s.1).1.used 0), fun x hx hlt => by omega, ?_⟩
    exact .refl hlen (by omega)
  | succ fuel ih =>
    intro pos acc s hle hal hfuel hlen hzero hs
    rw [readLoop]
    by_cases hpos : pos < stop
    · have hal' : c.inner.sector ∣ pos := hal.resolve_right (by omega)
      obtain ⟨hidx, hP, hs'⟩ := ensure_spec hfetch hused (pos / c.chunkSize) hs
      rw [if_pos hpos]
      dsimp only
      set r := c.ensure (pos / c.chunkSize) s with hr
      have hstart := saturatingMul_chunk (c := c) (show pos ≤ u64Max by omega)
      have hdm := Nat.div_add_mod' pos c.chunkSize
      have hlt := Nat.mod_lt pos hcp
      have hdata : r.1.data.length =
          min c.chunkSize (c.inner.len - pos / c.chunkSize * c.chunkSize) := by
        rw [r.1.length_data, hidx, chunkLen, hstart]
      rw [hstart, if_neg (by omega)]
      have hwithin : pos - pos / c.chunkSize * c.chunkSize = pos % c.chunkSize := by omega
      rw [hwithin]
      set span := min (r.1.data.length - pos % c.chunkSize) (stop - pos) with hspan
      have hfill : ∀ E : Chunks c, E (pos / c.chunkSize) = r.1 →
          Filled E off n pos (pos + span) acc (c.readSpan r.1 off n pos span acc) := fun E hE =>
        filled_readSpan hE hoff hal' hle (by omega) (by omega) (by omega) (by omega) (by omega)
          hlen fun k hk => hzero k (by omega)
      have hmid := hfill (fun _ => r.1) rfl
      have hnext : c.inner.sector ∣ pos + span ∨ stop ≤ pos + span := by
        by_cases hend : stop ≤ pos + span
        · exact .inr hend
        · refine .inl ?_
          have hnew : pos + span = (pos / c.chunkSize + 1) * c.chunkSize := by
            rw [Nat.add_mul, Nat.one_mul]
            omega
          rw [hnew]
          exact c.sector_dvd.mul_left _
      obtain ⟨hkept, E, hE, hrest⟩ := ih (pos + span) (c.readSpan r.1 off n pos span acc) r.2
        (by omega) hnext (by omega) hmid.length (fun k hk => by
          rw [hmid.bytes k, if_neg (by omega)]
          exact hzero k (by omega)) hs'
      -- the chunk of `pos` comes from here, all the others from the rest of the loop
      refine ⟨hkept, fun idx => if idx = pos / c.chunkSize then r.1 else E idx, ?_, ?_⟩
      · intro x hx hxs
        dsimp only
        by_cases hsame : x / c.chunkSize = pos / c.chunkSize
        · rw [if_pos hsame, hsame]
          exact ⟨hidx, hP⟩
        · rw [if_neg hsame]
          refine hE x (not_lt.1 fun hlow => hsame ?_) hxs
          rw [Nat.div_eq_iff hcp]
          omega
      · refine (hfill _ (if_pos rfl)).trans (hrest.congr fun x hx hxs => ?_) (by omega) (by omega)
        have hother : x / c.chunkSize ≠ pos / c.chunkSize := by
          intro hsame
          have hdmx := Nat.div_add_mod' x c.chunkSize
          have hltx := Nat.mod_lt x hcp
          rw [hsame] at hdmx
          omega
        rw [if_neg hother]
    · rw [if_neg hpos]
      refine ⟨hs, fun idx => ((c.fetch idx s.1).1.used 0), fun x hx hlt => by omega, ?_⟩
      exact .refl hlen (by omega)

end Loop

/-- A read of `n` bytes at `off` was put together from the chunks `E`; `stop` is where the source
takes the request to end. -/
structure PutTogether (E : Chunks c) (off n stop : ℕ) (out : ReadOutcome) : Prop where
  length : out.buf.length = n
  count : out.result.sectorCount = divCeil n c.inner.sector
  bytes : ∀ k, byteAt out.buf k =
    if off + k < min stop c.inner.len then E.byte (off + k) else 0
  status : ∀ i < divCeil n c.inner.sector, out.result.status i =
    if c.inner.len < stop ∧ c.inner.len - off < min ((i + 1) * c.inner.sector) n ∨
      off + i * c.inner.sector < min stop c.inner.len ∧
        E.isBad (off + i * c.inner.sector) = true then .bad else .good

/-- **What a read through the cache is made of.** -/
lemma readAt_spec {P : c.CacheEntry → Prop} (hfetch : ∀ idx s t, P ((c.fetch idx s).1.used t))
    (hused : ∀ e t, P e → P (e.used t)) {off n : ℕ} (hn : n ≠ 0) (hoff : c.inner.sector ∣ off)
    (hlen : off < c.inner.len) {s : σ × c.CacheState} (hs : ∀ e ∈ s.2.map, P e) :
    (∀ e ∈ (c.readAt s off n).2.2.map, P e) ∧
      ∃ E : Chunks c, (∀ x, off ≤ x → x < min ((off + n) % 2 ^ 64) c.inner.len →
          (E (x / c.chunkSize)).idx = x / c.chunkSize ∧ P (E (x / c.chunkSize))) ∧
        PutTogether E off n ((off + n) % 2 ^ 64) (c.readAt s off n).1 := by
  have hmod := Nat.mod_le (off + n) (2 ^ 64)
  unfold readAt
  dsimp only
  rw [if_neg hn, if_neg (by rw [not_or, not_not]; exact ⟨hoff, by omega⟩)]
  dsimp only
  set stop := (off + n) % 2 ^ 64 with hstop
  obtain ⟨hkept, E, hE, hfill⟩ := readLoop_spec hfetch hused hoff (min_le_right stop c.inner.len)
    (show min stop c.inner.len - off ≤ n by omega) n off
    (List.replicate n 0, ReadResult.good c.inner.sector (divCeil n c.inner.sector)) s le_rfl
    (.inl hoff) (by omega) (by simp) (fun k _ => by simp) hs
  have hcount := hfill.count
  rw [ReadResult.sectorCount_good] at hcount
  refine ⟨fun e he => hkept e ((c.evictLoop_sublist _ _).subset he), E, hE, hfill.length, ?_,
    fun k => ?_, fun i hi => ?_⟩
  · dsimp only
    split
    · rw [ReadResult.sectorCount_markBadFromByte, hcount]
    · exact hcount
  · dsimp only
    rw [hfill.bytes k, byteAt_replicate_zero]
    refine if_congr ?_ rfl rfl
    omega
  · have hst := hfill.status i (by rw [ReadResult.sectorCount_good]; exact hi)
    rw [ReadResult.status_good] at hst
    have hsame : (if min stop c.inner.len < stop then
        ReadResult.markBadFromByte
          (c.readLoop off (min stop c.inner.len) n n off (List.replicate n 0,
          ReadResult.good c.inner.sector (divCeil n c.inner.sector)) s).1.2 c.inner.sector n
          (min stop c.inner.len - off)
        else (c.readLoop off (min stop c.inner.len) n n off (List.replicate n 0,
          ReadResult.good c.inner.sector (divCeil n c.inner.sector)) s).1.2).status i =
        if c.inner.len < stop ∧ c.inner.len - off < min ((i + 1) * c.inner.sector) n then .bad
        else (c.readLoop off (min stop c.inner.len) n n off (List.replicate n 0,
          ReadResult.good c.inner.sector (divCeil n c.inner.sector)) s).1.2.status i := by
      by_cases hcut : c.inner.len < stop
      · rw [if_pos (by omega), ReadResult.status_markBadFromByte, hcount]
        refine if_congr ?_ rfl rfl
        rw [min_eq_right hcut.le]
        exact and_congr_left' ⟨fun _ => hcut, fun _ => hi⟩
      · rw [if_neg (by omega), if_neg (fun h => hcut h.1)]
    dsimp only
    rw [hsame, hst]
    have hle : off ≤ off + i * c.inner.sector := Nat.le_add_right _ _
    simp only [hle, true_and]
    by_cases h : c.inner.len < stop ∧ c.inner.len - off < min ((i + 1) * c.inner.sector) n
    · rw [if_pos h, if_pos (.inl h)]
    · rw [if_neg h]
      refine if_congr ?_ rfl rfl
      exact (or_iff_right h).symm

/-- A read that there is nothing to, or that the cache refuses, leaves it as it is. -/
lemma readAt_refused {off n : ℕ} (h : n = 0 ∨ ¬ c.inner.sector ∣ off ∨ c.inner.len ≤ off)
    (s : σ × c.CacheState) : c.readAt s off n = (⟨List.replicate n 0, if n = 0 then
      ReadResult.good c.inner.sector 0 else
      ReadResult.allBad c.inner.sector (divCeil n c.inner.sector)⟩, s) := by
  unfold readAt
  dsimp only
  by_cases hn : n = 0
  · subst hn
    have hss := c.inner.sector_pos
    have hzero : divCeil 0 c.inner.sector = 0 := Nat.div_eq_of_lt (by omega)
    rw [if_pos rfl, if_pos rfl, hzero]
    rfl
  · rw [if_neg hn, if_neg hn, if_pos (h.resolve_left hn)]

lemma Chunks.isBad_sector {E : Chunks c} {off : ℕ} (hoff : c.inner.sector ∣ off) (k : ℕ) :
    E.isBad (off + k / c.inner.sector * c.inner.sector) = E.isBad (off + k) := by
  obtain ⟨q, rfl⟩ := hoff
  have hss := c.inner.sector_pos
  have hsect : (c.inner.sector * q + k / c.inner.sector * c.inner.sector) / c.inner.sector =
      (c.inner.sector * q + k) / c.inner.sector := by
    rw [Nat.mul_add_div hss, Nat.mul_add_div hss, Nat.mul_div_cancel _ hss]
  obtain ⟨h, h'⟩ := same_sector hsect
  unfold Chunks.isBad
  rw [h, h']

/-- A read is refused, or it is put together from chunks. -/
lemma readAt_cases (s : σ × c.CacheState) (off n : ℕ) :
    (n = 0 ∨ ¬ c.inner.sector ∣ off ∨ c.inner.len ≤ off) ∨
      n ≠ 0 ∧ c.inner.sector ∣ off ∧ off < c.inner.len ∧
        ∃ E : Chunks c, PutTogether E off n ((off + n) % 2 ^ 64) (c.readAt s off n).1 := by
  by_cases h : n = 0 ∨ ¬ c.inner.sector ∣ off ∨ c.inner.len ≤ off
  · exact .inl h
  · push Not at h
    obtain ⟨hn, hoff, hlen⟩ := h
    obtain ⟨-, E, -, hE⟩ := readAt_spec (P := fun _ => True) (fun _ _ _ => trivial)
      (fun _ _ _ => trivial) hn hoff hlen (s := s) fun _ _ => trivial
    exact .inr ⟨hn, hoff, hlen, E, hE⟩

variable (c)

/-- The cache as a block source: its state is that of the source below, and what is resident. -/
def source : BlockSource (σ × c.CacheState) where
  id := "cache:" ++ c.inner.id
  len := c.inner.len
  sectorSize := c.inner.sector
  readAt := c.readAt
  vanished _ := false
  len_le := c.inner.len_le
  sectorSize_le := c.inner.sector_le
  filled s off n := by
    rcases c.readAt_cases s off n with h | ⟨-, -, -, E, hE⟩
    · rw [readAt_refused h, List.length_replicate]
    · exact hE.length
  sectorCount_eq s off n := by
    rw [max_eq_left c.inner.sector_pos]
    rcases c.readAt_cases s off n with h | ⟨-, -, -, E, hE⟩
    · rw [readAt_refused h]
      dsimp only
      split
      · rename_i hn
        subst hn
        exact (Nat.div_eq_of_lt (by have := c.inner.sector_pos; omega)).symm
      · exact ReadResult.sectorCount_allBad _ _
    · exact hE.count
  zeroFilled s off n hin i hi k hk := by
    rw [max_eq_left c.inner.sector_pos] at hk
    subst hk
    rcases c.readAt_cases s off n with h | ⟨hn, hoff, hlen, E, hE⟩
    · rw [readAt_refused h, byteAt_replicate_zero]
    · have hcount := ReadResult.lt_of_status_ne_good hi
      rw [hE.count] at hcount
      rw [hE.status _ hcount, E.isBad_sector hoff] at hi
      rw [hE.bytes]
      have hmax := c.inner.len_le
      have hstop : (off + n) % 2 ^ 64 = off + n :=
        Nat.mod_eq_of_lt (by unfold u64Max at hmax; omega)
      rw [hstop] at hi ⊢
      split
      · rw [Chunks.byte, if_pos]
        by_contra hgood
        simp [hgood] at hi
        omega
      · rfl
  unaligned s off n hal i hi := by
    rw [max_eq_left c.inner.sector_pos] at hal hi
    rw [readAt_refused (.inr (.inl hal))]
    dsimp only
    rw [if_neg]
    · exact ReadResult.status_allBad hi
    · rintro rfl
      have hzero : divCeil 0 c.inner.sector = 0 :=
        Nat.div_eq_of_lt (by have := c.inner.sector_pos; omega)
      omega

/-! ## What stays resident -/

variable {c}

lemma length_evictLoop (fuel : ℕ) (m : List c.CacheEntry) (h : m.length ≤ c.capacityChunks + fuel) :
    (c.evictLoop fuel m).length ≤ c.capacityChunks := by
  induction fuel generalizing m with
  | zero => exact h
  | succ fuel ih =>
    unfold evictLoop
    split
    · rename_i hlt
      split
      · rename_i v hv
        have hmem : v ∈ m := List.argmin_mem hv
        have hless : (m.filter fun e => decide (e.idx ≠ v.idx)).length < m.length :=
          List.length_filter_lt_length_iff_exists.2 ⟨v, hmem, by simp⟩
        exact ih _ (by omega)
      · rename_i hnone
        rw [List.argmin_eq_none.1 hnone] at hlt
        exact absurd hlt (by simp)
    · omega

/-- **A read leaves no more chunks resident than the cache has room for.** -/
lemma resident_readAt {s : σ × c.CacheState} (h : s.2.map.length ≤ c.capacityChunks)
    (off n : ℕ) : (c.readAt s off n).2.2.map.length ≤ c.capacityChunks := by
  unfold readAt
  dsimp only
  split
  · exact h
  split
  · exact h
  · exact length_evictLoop _ _ (by omega)

end ReadAheadCache

end Reclaim
