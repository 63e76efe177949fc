import Reclaim.Imaging.MissingOutput

/-!
# An image of a stable source

The reads of a stable source do not depend on when they are made, so every run obtains the same
bytes for a chunk (`BlockSource.Stable.readChunk_buf`), and a run that goes on with another's
output completes it.  `Keeps` is what holds of the output and the map on disk between two runs:
chunks that are done are stored, hashed and their lost sectors recorded; the other chunks of raw
output hold zeros, or bytes that a cut run wrote there and that the next run would write again.
The second half is what sparse output needs: it leaves a chunk of zeros out whatever is there.

The invariant survives a cut at any point of a run that goes on where the last one ended.  It does
not survive a run from scratch that is cut before its first save, for the map of the run before is
still there when the output is truncated: `Careful` is the condition on a step of the history.

Two more things can go wrong in a single run.  A frame of zstd output may be longer than its index
entry says, and a chunk size that was rounded up beyond the largest `u32` is no multiple of the
sector size: reads at unaligned chunks are refused and recorded sector by sector from the start of
the chunk, so the sector in which the image ends may be missing from the record
(`TailCovered` says when it is not).
-/

namespace Reclaim

open FileBytes CrashLogic

variable {σ : Type} {B : Backend} {src : BlockSource σ}

/-! ## What is on disk between two runs -/

/-- What every run obtains for chunk `i` of a map. -/
def BlockSource.Stable.chunkOf (st : src.Stable) (m : ImageMap) (i : ℕ) : Bytes :=
  st.chunk (i * m.chunkSize) (m.chunkLen i)

/-- The output `f` holds what the map `m` says, and nothing that a further run would not write. -/
structure Keeps (st : src.Stable) (B : Backend) (f : Bytes) (m : ImageMap) : Prop where
  stored : ∀ i, m.isChunkDone i = true → Stores B f m i (st.chunkOf m i)
  hashes : ∀ i, m.isChunkDone i = true →
    m.chunkHashes[i]? = some (some (B.hash m.hashAlgo (st.chunkOf m i)))
  lost : ∀ i, m.isChunkDone i = true → ∀ s, st.Lost (i * m.chunkSize) (m.chunkLen i) s →
    InRanges m.bad (i * m.chunkSize / src.sector + s)
  rest : m.compression = .none → ∀ i < m.numChunks, m.isChunkDone i = false →
    ∀ k < m.chunkLen i, byteAt f (i * m.chunkSize + k) = 0 ∨
      byteAt f (i * m.chunkSize + k) = byteAt (st.chunkOf m i) k

/-- An output without bytes keeps a map that records nothing. -/
lemma keeps_nil (st : src.Stable) {m : ImageMap} (h : ∀ i, m.isChunkDone i = false) :
    Keeps st B [] m where
  stored i hi := absurd ((h i).symm.trans hi) (by simp)
  hashes i hi := absurd ((h i).symm.trans hi) (by simp)
  lost i hi := absurd ((h i).symm.trans hi) (by simp)
  rest _ _ _ _ _ _ := .inl (byteAt_nil _)

namespace ImageRun

variable {r : ImageRun σ}

lemma record_of_stable (st : r.src.Stable) (hwf : r.map.WellFormed r.src) (i : ℕ) :
    (r.record i).buf = st.chunkOf r.map i := by
  rw [BlockSource.Stable.chunkOf, chunkLen_eq hwf]
  apply st.readChunk_buf
  intro hlen
  unfold len at *
  unfold offset
  omega

/-- What the output holds for a pending chunk is what every run obtains, also where sparse output
leaves the chunk out. -/
lemma expected_of_stable {st : r.src.Stable} (hwf : r.map.WellFormed r.src) (hfit : r.FramesFit)
    (hstart : Keeps st r.B r.file r.opened) {i : ℕ} (hp : r.Pending i) :
    r.expected i = st.chunkOf r.map i := by
  unfold expected
  by_cases hleft : r.LeftOut i
  · rw [if_neg fun h => h.2 hleft]
    have hco : r.opened.compression = .none := hleft.1
    have hlen : r.opened.chunkLen i = r.map.chunkLen i := rfl
    unfold storedChunk
    rw [hco]
    refine ext_byteAt ?_ fun k hk => ?_
    · rw [length_slice, BlockSource.Stable.chunkOf, st.length_chunk, hlen]
    · rw [length_slice] at hk
      -- the chunk is all zeros, so what lies there is zero, either way
      have hzero : byteAt (st.chunkOf r.map i) k = 0 := by
        rw [← record_of_stable st hwf]
        have hall := List.all_eq_true.1 hleft.2.2
        by_cases hkb : k < (r.record i).buf.length
        · have hmem := hall _ (List.getElem_mem hkb)
          simpa [byteAt, List.getD_eq_getElem?_getD, hkb] using hmem
        · exact byteAt_of_length_le (not_lt.1 hkb)
      have hrest := hstart.rest hco i hp.1 hp.2 k hk
      rw [byteAt_slice, if_pos hk, hzero]
      rcases hrest with h | h
      · exact h
      · exact h.trans hzero
  · rw [if_pos ⟨hp, hleft⟩, written_eq_record hwf hfit hp, record_of_stable st hwf]

/-- **The step of the invariant.**  A cut at any point of a run leaves an output that keeps every
map the run has saved by then. -/
lemma MapAt.keeps {st : r.src.Stable} (hwf : r.map.WellFormed r.src) (hk : r.FramesKept)
    (hfit : r.FramesFit) (hstart : Keeps st r.B r.file r.opened) {n : ℕ} {f : Bytes}
    {m : ImageMap} (hm : r.MapAt n m) (hf : r.FileAt n f) (hmix : r.Mixed f) :
    Keeps st r.B f m := by
  have hcs : m.chunkSize = r.map.chunkSize := hm.header.chunkSize
  have hchunk : ∀ i, st.chunkOf m i = st.chunkOf r.map i := fun i => by
    rw [BlockSource.Stable.chunkOf, BlockSource.Stable.chunkOf, hm.chunkLen, hcs]
  refine ⟨fun i hi => ?_, fun i hi => ?_, fun i hi s hs => ?_, fun hc i hi hdone k hk => ?_⟩
  · rw [hchunk]
    rcases hm.isChunkDone.1 hi with hdone | ⟨hlt, hp⟩
    · exact stores_of_done hwf hk hm hf hdone (hstart.stored i hdone)
    · rw [← expected_of_stable hwf hfit hstart hp]
      exact stores_of_pending hwf hk hfit hm hf hp hlt
  · rw [hchunk, hm.hashes, hm.header.hashAlgo]
    rcases hm.isChunkDone.1 hi with hdone | ⟨hlt, hp⟩
    · rw [hashAt, if_neg fun h => not_pending_of_done hdone h.2]
      exact hstart.hashes i hdone
    · rw [hashAt, if_pos ⟨hlt, hp⟩, record_of_stable st hwf]
  · rw [hcs, hm.chunkLen] at hs
    rw [hcs, hm.bad]
    rcases hm.isChunkDone.1 hi with hdone | ⟨hlt, hp⟩
    · exact .inl (hstart.lost i hdone s hs)
    · refine .inr ⟨i, hlt, hp, s, ?_, rfl⟩
      rw [chunkLen_eq hwf] at hs
      exact st.mem_stillBad.2 hs
  · have hnot : ¬ r.map.isChunkDone i = true := fun h =>
      absurd (hdone.symm.trans (hm.isChunkDone.2 (.inl h))) (by simp)
    rw [hm.numChunks] at hi
    have hp : r.Pending i := (r.pending_or_done hi).resolve_right hnot
    have hcr : r.map.compression = .none := hm.header.compression.symm.trans hc
    rw [hm.chunkLen] at hk
    rw [hchunk, hcs]
    have hkr : k < r.len i := by rwa [chunkLen_eq hwf] at hk
    rcases hmix hcr i hp k hkr with hold | hnew
    · have hrest := hstart.rest hcr i hp.1 hp.2 k hk
      rw [show i * r.map.chunkSize = r.offset i from rfl, hold]
      exact hrest
    · right
      rw [← record_of_stable st hwf]
      exact hnew

end ImageRun

/-! ## Histories of careful runs -/

/-- No map of `src` that marks a chunk done is on disk. -/
def NothingDone (src : BlockSource σ) (file : MapFile) : Prop :=
  ∀ m, file = .saved m → m.sourceId = src.id → m.size = src.len → ∀ i, m.isChunkDone i = false

/-- The output keeps the map on disk, if it is one of this source that records something. -/
def DiskKeeps (st : src.Stable) (B : Backend) (disk : Disk) : Prop :=
  ∀ m, disk.map = .saved m → m.sourceId = src.id → m.size = src.len →
    ∀ i, m.isChunkDone i = true → ∃ f, disk.out = .regular f ∧ Keeps st B f m

/-- The condition on a run from `w` that leaves `v`: its frames fit, and it goes on with the map
on disk, if that marks a chunk done; a run that starts over is not cut between the truncation of
the output and its first save. -/
def Careful (B : Backend) (src : BlockSource σ) (c : ImageCall) (w v : World σ) : Prop :=
  (∀ r, Opens B src c.1 w r → r.FramesFit) ∧
    (c.1.resume = true ∨ NothingDone src w.disk.map ∨ v.disk = w.disk ∨
      w.saves.length < v.saves.length)

/-- The worlds that a history of careful runs can leave behind, beginning where no map of `src`
exists.  The device may be replaced between two runs, the two files are left alone. -/
def Resumed (B : Backend) (src : BlockSource σ) (outPath mapPath : String) : World σ → Prop :=
  Recovers (fun c : ImageCall => image B src outPath mapPath c.1 c.2)
    (fun w => ∀ m, w.disk.map = .saved m → ¬ (m.sourceId = src.id ∧ m.size = src.len))
    (Careful B src) fun w v => v.disk = w.disk

section Resumed

variable {st : src.Stable} {outPath mapPath : String} {opts : ImageOptions} {w v : World σ}
  {r : ImageRun σ}

/-- A run that does not append finds a map that records nothing, or no output. -/
lemma not_done_of_not_resuming {m : ImageMap} (hres : opts.resume = true)
    (h : isResuming opts m = false) (i : ℕ) : m.isChunkDone i = false := by
  rw [Bool.eq_false_iff]
  intro hdone
  obtain ⟨x, hx⟩ := ImageMap.isChunkDone_iff.1 hdone
  have hany : m.chunkHashes.any (·.isSome) = true :=
    List.any_eq_true.2 ⟨some x, List.mem_of_getElem? hx, rfl⟩
  simp [isResuming, hres, hany] at h

/-- A run that appends finds a map that records something. -/
lemma done_of_resuming {m : ImageMap} (hwf : m.WellFormed src) (h : isResuming opts m = true) :
    ∃ i, m.isChunkDone i = true := by
  simp only [isResuming, Bool.and_eq_true, Bool.or_eq_true, Bool.not_eq_true'] at h
  rcases h.2 with hfr | hany
  · cases hf : m.frames with
    | nil =>
      rw [hf] at hfr
      exact absurd hfr (by simp)
    | cons fr rest =>
      obtain ⟨-, i, hdone, -⟩ := hwf.frames fr (hf ▸ List.mem_cons_self)
      exact ⟨i, hdone⟩
  · obtain ⟨x, hx, hsome⟩ := List.any_eq_true.1 hany
    obtain ⟨i, hi, rfl⟩ := List.getElem_of_mem hx
    obtain ⟨y, hy⟩ := Option.isSome_iff_exists.1 hsome
    exact ⟨i, ImageMap.isChunkDone_iff.2 ⟨y, by rw [List.getElem?_eq_getElem hi, hy]⟩⟩

/-- What a run opens is kept. -/
lemma Opens.keeps (ho : Opens B src opts w r) (hmap : w.disk.map.Sound src)
    (hdisk : DiskKeeps st B w.disk) : Keeps st r.B r.file r.opened := by
  have hwf := ho.wellFormed hmap
  rw [ho.backend]
  rw [ho.src_eq] at hwf
  rcases ho.dest with ⟨hres, hout, hfr⟩ | ⟨hor, -, hfile, hfr⟩
  · -- appending: the map is the one on disk
    have hsame : r.opened = r.map := by rw [ImageRun.opened, hfr]
    have hresume : opts.resume = true := by
      simp only [isResuming, Bool.and_eq_true] at hres
      exact hres.1
    obtain ⟨i, hdone⟩ := done_of_resuming hwf hres
    rcases ho.map with ⟨-, hsaved, hid, hsize, -⟩ | ⟨-, hfresh⟩
    · obtain ⟨f, hf, hkeeps⟩ := hdisk _ hsaved hid hsize i hdone
      obtain rfl := OutNode.regular.inj (hf.symm.trans hout)
      rwa [hsame]
    · rw [hfresh, freshMap] at hdone
      exact absurd hdone (by simp)
  · rw [hfile]
    apply keeps_nil st
    intro i
    show r.map.isChunkDone i = false
    rcases ho.map with ⟨hresume, hsaved, hid, hsize, -⟩ | ⟨-, hfresh⟩
    · rcases hor with hnot | habs
      · exact not_done_of_not_resuming hresume hnot i
      · rw [Bool.eq_false_iff]
        intro hdone
        obtain ⟨f, hf, -⟩ := hdisk _ hsaved hid hsize i hdone
        exact absurd (habs.symm.trans hf) (by simp)
    · rw [hfresh, freshMap, ImageMap.not_isChunkDone_new]

/-- A cut of a careful run leaves files that go together. -/
lemma Cut.diskKeeps (h : Cut B src opts w v) (hmap : w.disk.map.Sound src)
    (hdisk : DiskKeeps st B w.disk) {env : Env} (hcare : Careful B src (opts, env) w v) :
    DiskKeeps st B v.disk := by
  rcases h with rfl | ⟨r, ho, n, j, f, -, hout, hfile, hmix, hsaved, -⟩
  · exact hdisk
  have hfit := hcare.1 r ho
  have hstart := ho.keeps hmap hdisk
  have hwf := ho.wellFormed hmap
  have hk := ho.framesKept
  obtain rfl := ho.src_eq
  obtain rfl := ho.backend
  intro m hm hid hsize i hdone
  rcases hsaved with ⟨hsaves, hdm⟩ | ⟨k, hk', m', l, hmap', hat, -⟩
  · -- nothing saved yet: the map is the one the run found
    rw [ho.diskMap] at hdm
    rw [hm] at hdm
    have hnot : opts.resume = true ∨ v.disk = w.disk := by
      rcases hcare.2 with h | h | h | h
      · exact .inl h
      · exact absurd ((h m hdm.symm hid hsize i).symm.trans hdone) (by simp)
      · exact .inr h
      · rw [hsaves, ho.saves] at h
        exact absurd h (lt_irrefl _)
    rcases hnot with hresume | hsame
    · have hrm : r.map = m := by
        rcases ho.map with ⟨-, hsv, -⟩ | ⟨hor, -⟩
        · exact MapFile.saved.inj (hsv.symm.trans hdm.symm)
        · rcases hor with hno | habs
          · exact absurd (hresume.symm.trans hno) (by simp)
          · exact absurd (hdm.trans habs) (by simp)
      -- with a chunk done the run appends, so it keeps the frames of the map
      have hfr : r.frames = r.map.frames := by
        rcases ho.dest with ⟨-, -, hfr⟩ | ⟨hor, -, -, -⟩
        · exact hfr
        · rcases hor with hnot | habs
          · have := not_done_of_not_resuming hresume hnot i
            rw [hrm] at this
            exact absurd (this.symm.trans hdone) (by simp)
          · obtain ⟨f', hf', -⟩ := hdisk m hdm.symm hid hsize i hdone
            exact absurd (habs.symm.trans hf') (by simp)
      have hat : r.MapAt 0 m := ImageRun.mapAt_zero (by rw [hfr, hrm])
      exact ⟨f, hout, hat.keeps hwf hk hfit hstart (hfile.mono (Nat.zero_le n)) hmix⟩
    · obtain ⟨f', hf', hkeeps⟩ := hdisk m hdm.symm hid hsize i hdone
      exact ⟨f', by rw [hsame]; exact hf', hkeeps⟩
  · obtain rfl := MapFile.saved.inj (hm.symm.trans hmap')
    exact ⟨f, hout, hat.keeps hwf hk hfit hstart (hfile.mono hk') hmix⟩

/-- **The invariant of careful histories.** -/
theorem Resumed.keeps (st : src.Stable) (h : Resumed B src outPath mapPath w) :
    w.disk.map.Sound src ∧ DiskKeeps st B w.disk := by
  refine Recovers.induction (C := fun w => w.disk.map.Sound src ∧ DiskKeeps st B w.disk)
    (fun w hw => ⟨fun m hm hid hsize => ?_, fun m hm hid hsize => ?_⟩)
    (fun c w hw v hv hcare => ?_) (fun w v hw hd => ?_) h
  · exact absurd ⟨hid, hsize⟩ (hw m hm)
  · exact absurd ⟨hid, hsize⟩ (hw m hm)
  · have hcut := cut_of_leaves hw.1 hv
    exact ⟨hcut.mapSound hw.1, hcut.diskKeeps hw.1 hw.2 hcare⟩
  · rw [hd]
    exact hw

end Resumed

/-! ## What a complete image reads as -/

/-- The record of an unaligned last chunk reaches the end of the source. -/
def TailCovered (src : BlockSource σ) (chunkSize : ℕ) : Prop :=
  let last := (divCeil src.len chunkSize - 1) * chunkSize
  last % src.sector + (src.len - last) ≤ divCeil (src.len - last) src.sector * src.sector

/-- Sector-aligned chunks cover their tail. -/
lemma tailCovered_of_dvd {chunkSize : ℕ} (h : src.sector ∣ chunkSize) :
    TailCovered src chunkSize := by
  have hss := src.sector_pos
  unfold TailCovered
  dsimp only
  have hal : src.sector ∣ (divCeil src.len chunkSize - 1) * chunkSize := h.mul_left _
  rw [Nat.mod_eq_zero_of_dvd hal, Nat.zero_add]
  exact le_divCeil_mul hss _

/-- The output and the map on disk read as the source: an aligned read returns the source's byte,
unless the sector is recorded bad, and each recorded hash is that of the stored chunk. -/
def ReadsAs (st : src.Stable) (B : Backend) (disk : Disk) : Prop :=
  ∃ f m, disk.out = .regular f ∧ disk.map = .saved m ∧
    (∀ off n k, src.sector ∣ off → k < n → off + k < src.len →
      byteAt ((MappedImage.ofFile f m).readAt B off n).1 k = st.content (off + k) ∨
        InRanges m.bad ((off + k) / src.sector)) ∧
    ∀ i < m.numChunks,
      m.chunkHashes[i]? = some (some (B.hash m.hashAlgo (storedChunk B f m i)))

/-- The sector of a byte, counted from the sector in which its chunk begins. -/
lemma div_add_eq {ss : ℕ} (hss : 0 < ss) (o k : ℕ) :
    (o + k) / ss = o / ss + (o % ss + k) / ss := by
  have h1 := Nat.div_add_mod' o ss
  have h2 := Nat.div_add_mod' (o % ss + k) ss
  have h3 := Nat.mod_lt (o % ss + k) hss
  rw [sector_bounds hss, Nat.add_mul]
  omega

/-- A byte behind the `D` sectors that cover as many bytes as its chunk has lies in the sector
where the next chunk begins, and begins inside it. -/
lemma straddles {ss o cs k D : ℕ} (hss : 0 < ss) (hcover : cs ≤ D * ss) (hk : k < cs)
    (hin : D * ss ≤ o % ss + k) :
    (o + k) / ss = o / ss + D ∧ (o + cs) / ss = o / ss + D ∧ ¬ ss ∣ o + cs := by
  have h1 := Nat.div_add_mod' o ss
  have h2 := Nat.mod_lt o hss
  have hmul : (o / ss + D) * ss = o / ss * ss + D * ss := Nat.add_mul _ _ _
  have hnext : (o + cs) / ss = o / ss + D := by
    rw [sector_bounds hss]
    omega
  refine ⟨by rw [sector_bounds hss]; omega, hnext, fun hdvd => ?_⟩
  have := Nat.div_mul_cancel hdvd
  rw [hnext, hmul] at this
  omega

/-- In an unaligned image every sector is recorded bad, but for the one in which it ends. -/
lemma Keeps.bad_of_unaligned {st : src.Stable} {f : Bytes} {m : ImageMap} (h : Keeps st B f m)
    (hwf : m.WellFormed src) (s₀ : σ) (hall : ∀ i < m.numChunks, m.isChunkDone i = true)
    (htail : TailCovered src m.chunkSize) {i k : ℕ} (hi : i < m.numChunks)
    (hk : k < m.chunkLen i) (hal : ¬ src.sector ∣ i * m.chunkSize) :
    InRanges m.bad ((i * m.chunkSize + k) / src.sector) := by
  have hss := src.sector_pos
  have hcs := hwf.chunkSize_pos
  have hlt := hwf.offset_lt hi
  rw [hwf.size] at hlt
  have hcover := le_divCeil_mul hss (m.chunkLen i)
  by_cases hin : i * m.chunkSize % src.sector + k < divCeil (m.chunkLen i) src.sector * src.sector
  · -- one of the sectors recorded from the start of the chunk
    have hs := (Nat.div_lt_iff_lt_mul hss).2 hin
    rw [div_add_eq hss]
    exact h.lost i (hall i hi) _ (st.lost_of_unaligned s₀ hal hs)
  · by_cases hnext : i + 1 < m.numChunks
    · -- the sector behind them is the first of the next chunk
      have hlt' := hwf.offset_lt hnext
      rw [Nat.add_mul, Nat.one_mul, hwf.size] at hlt'
      have hlen : m.chunkLen i = m.chunkSize := by
        rw [ImageMap.chunkLen, hwf.size]
        omega
      rw [hlen] at hin hk hcover
      obtain ⟨hx, ho, hunal⟩ := straddles hss hcover hk (not_lt.1 hin)
      have hpos : 0 < divCeil (m.chunkLen (i + 1)) src.sector := by
        rw [lt_divCeil_iff hss, ImageMap.chunkLen, hwf.size, Nat.add_mul]
        omega
      have hoff : (i + 1) * m.chunkSize = i * m.chunkSize + m.chunkSize := by
        rw [Nat.add_mul, Nat.one_mul]
      have hbad := h.lost (i + 1) (hall _ hnext) 0
        (st.lost_of_unaligned s₀ (by rw [hoff]; exact hunal) hpos)
      rwa [hoff, ho, Nat.add_zero, ← hx] at hbad
    · -- the last chunk is covered
      have hnum := hwf.numChunks
      have hlast : divCeil src.len m.chunkSize - 1 = i := by omega
      have hlen : m.chunkLen i = src.len - i * m.chunkSize := by
        rw [hnum, lt_divCeil_iff hcs, Nat.add_mul, Nat.one_mul] at hnext
        rw [ImageMap.chunkLen, hwf.size]
        omega
      unfold TailCovered at htail
      simp only [hlast, ← hlen] at htail
      omega

/-- Where every chunk is done, each byte is the source's or lies in a recorded sector. -/
lemma Keeps.content_or_bad {st : src.Stable} {f : Bytes} {m : ImageMap} (h : Keeps st B f m)
    (hwf : m.WellFormed src) (s₀ : σ) (hall : ∀ i < m.numChunks, m.isChunkDone i = true)
    (htail : TailCovered src m.chunkSize) {x : ℕ} (hx : x < src.len) :
    byteAt (st.chunkOf m (x / m.chunkSize)) (x % m.chunkSize) = st.content x ∨
      InRanges m.bad (x / src.sector) := by
  obtain ⟨hi, hk⟩ := hwf.chunk_of (hwf.size ▸ hx)
  have hxi : x / m.chunkSize * m.chunkSize + x % m.chunkSize = x := Nat.div_add_mod' x _
  by_cases hal : src.sector ∣ x / m.chunkSize * m.chunkSize
  · rw [BlockSource.Stable.chunkOf, st.byteAt_chunk hk, hxi]
    split
    · rename_i hl
      have hbad := h.lost _ (hall _ hi) _ hl
      rw [← Nat.add_div_of_dvd_right hal, hxi] at hbad
      exact .inr hbad
    · exact .inl rfl
  · have hbad := h.bad_of_unaligned hwf s₀ hall htail hi hk hal
    rw [hxi] at hbad
    exact .inr hbad

/-- Reading back what is kept: a byte is what every run obtains there. -/
lemma Keeps.byteAt_readAt {st : src.Stable} {f : Bytes} {m : ImageMap} (h : Keeps st B f m)
    (hwf : m.WellFormed src) (hall : ∀ i < m.numChunks, m.isChunkDone i = true) {off n k : ℕ}
    (hal : src.sector ∣ off) (hk : k < n) (hx : off + k < src.len) :
    byteAt ((MappedImage.ofFile f m).readAt B off n).1 k =
      byteAt (st.chunkOf m ((off + k) / m.chunkSize)) ((off + k) % m.chunkSize) := by
  have hsect := hwf.sectorSize_ofFile f
  apply Reclaim.byteAt_readAt hwf (fun i hi => h.stored i (hall i hi)) (hsect ▸ hal) hk
  rw [hwf.size]
  exact hx

/-- A chunk that does not begin at a sector reads as zeros. -/
lemma Keeps.byteAt_readAt_unaligned {st : src.Stable} {f : Bytes} {m : ImageMap}
    (h : Keeps st B f m) (hwf : m.WellFormed src) (s₀ : σ)
    (hall : ∀ i < m.numChunks, m.isChunkDone i = true) {off n k : ℕ} (hal : src.sector ∣ off)
    (hk : k < n) (hx : off + k < src.len)
    (hun : ¬ src.sector ∣ (off + k) / m.chunkSize * m.chunkSize) :
    byteAt ((MappedImage.ofFile f m).readAt B off n).1 k = 0 := by
  obtain ⟨hi, hmod⟩ := hwf.chunk_of (hwf.size ▸ hx)
  have hlost := st.lost_of_unaligned s₀ hun (div_lt_divCeil src.sector_pos hmod)
  rw [h.byteAt_readAt hwf hall hal hk hx, BlockSource.Stable.chunkOf, st.byteAt_chunk hmod,
    if_pos hlost]

/-- A kept map whose chunks are all done reads as the source. -/
lemma Keeps.readsAs {st : src.Stable} {f : Bytes} {m : ImageMap} (h : Keeps st B f m)
    (hwf : m.WellFormed src) (s₀ : σ) (hall : ∀ i < m.numChunks, m.isChunkDone i = true)
    (htail : TailCovered src m.chunkSize) {disk : Disk} (hout : disk.out = .regular f)
    (hmap : disk.map = .saved m) : ReadsAs st B disk := by
  refine ⟨f, m, hout, hmap, fun off n k hal hk hx => ?_, fun i hi => ?_⟩
  · rw [h.byteAt_readAt hwf hall hal hk hx]
    exact h.content_or_bad hwf s₀ hall htail hx
  · rw [h.hashes i (hall i hi), (h.stored i (hall i hi)).storedChunk_eq]

section Complete

variable {outPath mapPath : String} {opts : ImageOptions} {env : Env} {w : World σ}
  {r : ImageRun σ} {out : ImageOutcome}

/-- What a run that returns complete leaves is kept, and every chunk is done. -/
lemma Resumed.finished_keeps (st : src.Stable) (hhist : Resumed B src outPath mapPath w)
    (ho : Opens B src opts w r) (hfit : r.FramesFit)
    (hrun : (image B src outPath mapPath opts env w).result = .ok out)
    (hcomplete : out.complete = true) :
    ∃ f m, r.Finished out (image B src outPath mapPath opts env w).final f m ∧ Keeps st B f m ∧
      m.WellFormed src ∧ ∀ i < m.numChunks, m.isChunkDone i = true := by
  obtain ⟨hmap, hdisk⟩ := hhist.keeps st
  obtain ⟨r', ho', hret⟩ := wp_returned (image_spec outPath mapPath opts env hmap) hrun
  obtain rfl := ho.unique ho'
  obtain ⟨f, m, hfin⟩ : ∃ f m, r.Finished out
      (image B src outPath mapPath opts env w).final f m := by
    rcases hret with h | ⟨hno, -⟩
    · exact h
    · exact absurd (hno.symm.trans hcomplete) (by simp)
  have hstart := ho.keeps hmap hdisk
  have hwf := ho.wellFormed hmap
  have hk := ho.framesKept
  obtain rfl := ho.src_eq
  obtain rfl := ho.backend
  have hmix : r.Mixed f := hfin.file.mixed fun _ i hi hp => absurd hp.1 (not_lt.2 hi)
  refine ⟨f, m, hfin, hfin.map.keeps hwf hk hfit hstart hfin.file hmix,
    hfin.map.wellFormed hwf hk, fun i hi => ?_⟩
  rw [hfin.map.numChunks] at hi
  exact hfin.map.isChunkDone.2 ((r.pending_or_done hi).symm.imp_right fun hp => ⟨hi, hp⟩)

/-- **A complete image is the source's.**  For every stable source and every history of careful
runs, each cut anywhere: if the last run returns complete, the output reads as the source but for
the sectors recorded bad, and every recorded hash is that of the chunk stored. -/
theorem complete_readsAs (st : src.Stable) (hhist : Resumed B src outPath mapPath w)
    (ho : Opens B src opts w r) (hfit : r.FramesFit) (htail : TailCovered src r.map.chunkSize)
    (hrun : (image B src outPath mapPath opts env w).result = .ok out)
    (hcomplete : out.complete = true) :
    ReadsAs st B (image B src outPath mapPath opts env w).final.disk := by
  obtain ⟨f, m, hfin, hkeeps, hwf, hall⟩ := hhist.finished_keeps st ho hfit hrun hcomplete
  rw [← hfin.map.header.chunkSize] at htail
  exact hkeeps.readsAs hwf w.device.state hall htail hfin.out_eq hfin.map_eq

end Complete

/-- The first run belongs to a careful history. -/
lemma resumed_empty (B : Backend) (src : BlockSource σ) (s : σ) (outPath mapPath : String) :
    Resumed B src outPath mapPath (World.empty s) :=
  .begin fun m h => absurd h (by simp [World.empty])

/-- Raw output has no frames that could be too long. -/
lemma ImageRun.framesFit_of_raw {r : ImageRun σ} (h : r.map.compression = .none) :
    r.FramesFit := fun hz => absurd (h.symm.trans hz) (by simp)

/-! ## An image in one piece -/

/-- `oneByte` is stable. -/
def oneByteStable : oneByte.Stable :=
  (SectorTable.solid 1 1 1 byte_le_u64Max byte_le_u32Max Nat.one_pos).stable (fun _ => .good)
    (fun _ => rfl) SectorTable.good_ne_unread ()

/-- The first run over `oneByte` reads as its source. -/
theorem imagedOnce_readsAs : ReadsAs oneByteStable .plain imagedOnce.disk := by
  obtain ⟨out, f, m, hrun, hcomplete, -⟩ :=
    firstRun_completes .plain oneByte (byteByByte false) () "out" "map"
  have htail : TailCovered oneByte (freshMap oneByte (byteByByte false)).chunkSize := by
    apply tailCovered_of_dvd
    decide
  exact complete_readsAs oneByteStable (resumed_empty .plain oneByte () "out" "map")
    (opens_firstRun .plain oneByte (byteByByte false) ()) (ImageRun.framesFit_of_raw rfl) htail
    hrun hcomplete

/-! ## An image whose last sector is lost -/

/-- Two chunks of the largest `u32` in sectors of 512 bytes. -/
def raggedTable : SectorTable Unit :=
  .solid 8589934590 512 255 (by decide) sector512_le_u32Max sector512_pos

/-- Every sector reads good. -/
def raggedStable : raggedTable.source.Stable :=
  raggedTable.stable (fun _ => .good) (fun _ => rfl) SectorTable.good_ne_unread ()

/-- Plain raw imaging in chunks as large as can be asked for. -/
def largestChunks : ImageOptions := { byteByByte false with chunkSize := 4294967295 }

/-- The first run over `raggedTable`; rounding the chunk size up to a multiple of 512 leaves it as
it is. -/
def raggedRun : ImageRun Unit := firstRun .plain raggedTable.source largestChunks ()

lemma raggedRun_chunkSize : raggedRun.map.chunkSize = 4294967295 := by decide

lemma raggedRun_numChunks : raggedRun.map.numChunks = 2 := by
  show (List.replicate _ _).length = 2
  rw [List.length_replicate]
  decide

/-- No sector beyond the first 16777215 is recorded. -/
lemma raggedRun_leftBad {n lba : ℕ} (h : raggedRun.LeftBad n lba) : lba < 16777215 := by
  obtain ⟨i, -, hp, s, hs, rfl⟩ := h
  have hlt := ImageRun.stillBad_lt hs
  have hi : i < 2 := raggedRun_numChunks ▸ hp.1
  have hss : raggedRun.src.sector = 512 := SectorTable.sector_source _
  have hlen : raggedRun.src.len = 8589934590 := rfl
  rw [hss, lt_divCeil_iff (by omega), ImageRun.len, hlen, raggedRun_chunkSize] at hlt
  rw [hss, ImageRun.offset, raggedRun_chunkSize]
  omega

/-- **The last sector of the image reads as zeros and is not recorded.** -/
theorem raggedRun_counterexample :
    Resumed .plain raggedTable.source "out" "map" (World.empty ()) ∧
      ∃ out, (image .plain raggedTable.source "out" "map" largestChunks .quiet
          (World.empty ())).result = .ok out ∧ out.complete = true ∧
        ¬ ReadsAs raggedStable .plain (image .plain raggedTable.source "out" "map" largestChunks
          .quiet (World.empty ())).final.disk := by
  have hhist := resumed_empty .plain raggedTable.source () "out" "map"
  obtain ⟨out, -, -, hrun, hcomplete, -⟩ :=
    firstRun_completes .plain raggedTable.source largestChunks () "out" "map"
  refine ⟨hhist, out, hrun, hcomplete, ?_⟩
  rintro ⟨f', m', hf', hm', hread, -⟩
  obtain ⟨f, m, hfin, hkeeps, hwf, hall⟩ := hhist.finished_keeps raggedStable
    (opens_firstRun .plain raggedTable.source largestChunks ()) (ImageRun.framesFit_of_raw rfl)
    hrun hcomplete
  obtain rfl := OutNode.regular.inj (hfin.out_eq.symm.trans hf')
  obtain rfl := MapFile.saved.inj (hfin.map_eq.symm.trans hm')
  have hss : raggedTable.source.sector = 512 := SectorTable.sector_source _
  have hcs : m.chunkSize = 4294967295 := hfin.map.header.chunkSize.trans raggedRun_chunkSize
  have hlen : raggedTable.source.len = 8589934590 := rfl
  -- the second chunk begins inside a sector, so nothing of it is read
  have hzero : byteAt ((MappedImage.ofFile f m).readAt .plain 8589934080 1).1 0 = 0 :=
    hkeeps.byteAt_readAt_unaligned hwf () hall (by rw [hss]; decide) (by omega)
      (by rw [hlen]; decide) (by rw [hss, hcs]; decide)
  rcases hread 8589934080 1 0 (by rw [hss]; decide) (by omega) (by rw [hlen]; decide) with h | h
  · have hcontent : raggedStable.content (8589934080 + 0) = 255 := rfl
    rw [hzero, hcontent] at h
    exact absurd h (by decide)
  · rw [hss] at h
    rcases (hfin.map.bad _).1 h with hold | hnew
    · exact inRanges_nil _ hold
    · have := raggedRun_leftBad hnew
      omega

end Reclaim
