import Reclaim.Imaging.MissingOutput

/-!
# A device that disappears while it is imaged

`vanished` of a source turns true once a read has found the device gone; from then on reads return
zeros and report every sector bad.  No chunk that was read so should be marked done in the map on
disk, or a resume over the reattached device will pass it over.

The imager never asks `vanished`: it records what it reads until its last chunk.  So what decides
is when it saved its map last.  `savedReads` are the reads that a run had made by then, and
`unplugged_iff` says that the map on disk is free of chunks read after the device disappeared
exactly when none of these reads is one.  Before its first save a run leaves the map that it found;
that can be wrong only if the run started over while the map of an earlier image was there.
-/

namespace Reclaim

open FileBytes CrashLogic

variable {σ : Type}

/-- The reads made since `w`. -/
def newReads (w v : World σ) : List ReadEvent := v.device.reads.drop w.device.reads.length

/-- The reads made since `w` and before the last save since `w`. -/
def savedReads (w v : World σ) : List ReadEvent :=
  match (v.saves.drop w.saves.length).getLast? with
  | some n => (v.device.reads.take n).drop w.device.reads.length
  | none => []

/-- The map file marks no chunk done that one of the reads in `log` after the device disappeared
was made for. -/
def MapFile.FreeOf (src : BlockSource σ) (log : List ReadEvent) (file : MapFile) : Prop :=
  ∀ m, file = .saved m → m.sourceId = src.id → m.size = src.len →
    ∀ e ∈ log, e.afterVanish = true → m.isChunkDone (e.offset / m.chunkSize) = false

namespace ImageRun

variable {r : ImageRun σ}

/-- The reads of a run only grow. -/
lemma readsTo_prefix {k j : ℕ} (h : k ≤ j) : ∃ l, r.readsTo j = r.readsTo k ++ l := by
  induction j, h using Nat.le_induction with
  | base => exact ⟨[], by simp⟩
  | succ j _ ih =>
    obtain ⟨l, hl⟩ := ih
    rw [readsTo]
    split
    · exact ⟨l ++ r.logOf j, by rw [hl, List.append_assoc]⟩
    · exact ⟨l, hl⟩

/-- A read made for chunk `i` begins in chunk `i`. -/
lemma chunk_of_mem_logOf (hs : r.Sound) {i : ℕ} (hi : i < r.map.numChunks) {e : ReadEvent}
    (he : e ∈ r.logOf i) : e.offset / r.map.chunkSize = i := by
  have hpos := hs.chunkSize_pos
  have hss := r.src.sector_pos
  have hlen := hs.len_pos hi
  have hle := r.len_le i
  rcases isRead_of_mem_logOf he with hfirst | ⟨s, hlt, hretry⟩
  · rw [hfirst.offset, offset, Nat.mul_div_cancel _ hpos]
  · rw [lt_divCeil_iff hss] at hlt
    rw [hretry.offset, offset, Nat.div_eq_iff hpos]
    omega

/-- What the reads of a run say of a map it has saved: the chunks that it marks done and were
pending are those whose reads it had made. -/
lemma MapAt.freeOf_iff (hs : r.Sound) {k j : ℕ} (hkj : k ≤ j) {m : ImageMap} (hm : r.MapAt k m) :
    (∀ e ∈ r.readsTo j, e.afterVanish = true → m.isChunkDone (e.offset / m.chunkSize) = false) ↔
      ∀ e ∈ r.readsTo k, e.afterVanish = false := by
  rw [hm.header.chunkSize]
  constructor
  · intro h e he
    obtain ⟨i, hi, hp, hei⟩ := mem_readsTo.1 he
    have hdone : m.isChunkDone i = true := hm.isChunkDone.2 (.inr ⟨hi, hp⟩)
    by_contra hgone
    have hnot := h e (mem_readsTo.2 ⟨i, lt_of_lt_of_le hi hkj, hp, hei⟩)
      (by simpa using hgone)
    rw [chunk_of_mem_logOf hs hp.1 hei, hdone] at hnot
    exact absurd hnot (by simp)
  · intro h e he hgone
    obtain ⟨i, hi, hp, hei⟩ := mem_readsTo.1 he
    rw [chunk_of_mem_logOf hs hp.1 hei, Bool.eq_false_iff]
    intro hdone
    rcases hm.isChunkDone.1 hdone with hold | ⟨hlt, -⟩
    · exact not_pending_of_done hold hp
    · have := h e (mem_readsTo.2 ⟨i, hlt, hp, hei⟩)
      rw [hgone] at this
      exact absurd this (by simp)

end ImageRun

section Cut

variable {B : Backend} {src : BlockSource σ} {opts : ImageOptions} {w v : World σ}

/-- **The condition at a cut.** -/
lemma Cut.freeOf_iff (h : Cut B src opts w v) (hmap : w.disk.map.Sound src) :
    v.disk.map.FreeOf src (newReads w v) ↔
      (∀ e ∈ savedReads w v, e.afterVanish = false) ∧
        (v.saves = w.saves → w.disk.map.FreeOf src (newReads w v)) := by
  rcases h with rfl | ⟨r, ho, n, j, f, hnj, -, -, -, hsaved, hdev⟩
  · simp [savedReads]
  have hwf := ho.wellFormed hmap
  have hk := ho.framesKept
  have hs := ImageRun.sound_of_wellFormed hwf
  have hnew : newReads w v = r.readsTo j := by
    rw [newReads, hdev, ImageRun.reads_deviceAt, ho.device, List.drop_left]
  rcases hsaved with ⟨hsaves, hdm⟩ | ⟨k, hkn, m, l, hm, hat, hsaves⟩
  · -- nothing saved: the map is the one that was there
    have hnone : savedReads w v = [] := by
      rw [savedReads, hsaves, ho.saves, List.drop_length]
      rfl
    rw [hdm, ho.diskMap, hnone]
    simp [hsaves, ho.saves]
  · have hlast : savedReads w v = r.readsTo k := by
      obtain ⟨l', hl'⟩ := r.readsTo_prefix (hkn.trans hnj)
      have hdrop : v.saves.drop w.saves.length = l ++ [(r.deviceAt k).reads.length] := by
        rw [hsaves, ho.saves, List.append_assoc, List.drop_left]
      have htake : v.device.reads.take (r.deviceAt k).reads.length = (r.deviceAt k).reads := by
        rw [hdev, ImageRun.reads_deviceAt, ImageRun.reads_deviceAt, hl', ← List.append_assoc,
          List.take_left]
      rw [savedReads, hdrop, List.getLast?_concat]
      dsimp only
      rw [htake, ImageRun.reads_deviceAt, ho.device, List.drop_left]
    have hne : v.saves ≠ w.saves := by
      intro heq
      have := congrArg List.length heq
      rw [hsaves, ho.saves] at this
      simp at this
    have hcore := hat.freeOf_iff hs (hkn.trans hnj)
    obtain rfl := ho.src_eq
    rw [hnew, hlast]
    constructor
    · intro h
      have hfree := h m hm (hat.header.sourceId.trans hwf.sourceId)
        (hat.header.size.trans hwf.size)
      exact ⟨hcore.1 hfree, fun heq => absurd heq hne⟩
    · rintro ⟨h, -⟩ m' hm' - -
      obtain rfl := MapFile.saved.inj (hm.symm.trans hm')
      exact hcore.2 h

/-- **When no chunk read from a vanished device is marked done.**  Whatever the history, whenever
the device disappears and wherever the run is cut or ends: the map on disk is free of the chunks
that the run read after the device disappeared if and only if none of the reads before its last
save was one, and, before its first save, the map it found was free of them. -/
theorem unplugged_iff {outPath mapPath : String} {env : Env}
    (hreach : Reached B src outPath mapPath w)
    (hv : v ∈ (image B src outPath mapPath opts env).leaves w) :
    v.disk.map.FreeOf src (newReads w v) ↔
      (∀ e ∈ savedReads w v, e.afterVanish = false) ∧
        (v.saves = w.saves → w.disk.map.FreeOf src (newReads w v)) :=
  (cut_of_leaves hreach.sound hv).freeOf_iff hreach.sound

/-- A run that resumes, or that starts over where nothing is marked done, has nothing to fear
before its first save: the reads it makes are of chunks the map does not mark. -/
lemma freeOf_of_resume {outPath mapPath : String} {env : Env}
    (hreach : Reached B src outPath mapPath w)
    (hv : v ∈ (image B src outPath mapPath opts env).leaves w) (hresume : opts.resume = true) :
    w.disk.map.FreeOf src (newReads w v) := by
  intro m hm hid hsize e he _
  rcases cut_of_leaves hreach.sound hv with rfl | ⟨r, ho, n, j, f, -, -, -, -, -, hdev⟩
  · simp [newReads] at he
  have hs := ho.sound hreach.sound
  have hmap : r.map = m := by
    rcases ho.map with ⟨-, hsaved, -⟩ | ⟨hno | habs, -⟩
    · exact MapFile.saved.inj (hsaved.symm.trans hm)
    · exact absurd (hresume.symm.trans hno) (by simp)
    · exact absurd (habs.symm.trans hm) (by simp)
  rw [newReads, hdev, ImageRun.reads_deviceAt, ho.device, List.drop_left] at he
  obtain ⟨i, -, hp, hei⟩ := ImageRun.mem_readsTo.1 he
  rw [← hmap, ImageRun.chunk_of_mem_logOf hs hp.1 hei]
  exact hp.2

end Cut

/-- The reads before the last save are among the reads. -/
lemma savedReads_subset {w v : World σ} : savedReads w v ⊆ newReads w v := by
  intro e he
  unfold savedReads at he
  split at he
  · rw [newReads]
    exact ((List.take_sublist _ _).drop _).subset he
  · exact absurd he List.not_mem_nil

/-- No read of a source that never disappears comes after. -/
lemma afterVanish_of_present {B : Backend} {src : BlockSource σ} {opts : ImageOptions}
    {w v : World σ} (h : Cut B src opts w v) (hpresent : ∀ s, src.vanished s = false) :
    ∀ e ∈ newReads w v, e.afterVanish = false := by
  rcases h with rfl | ⟨r, ho, n, j, f, -, -, -, -, -, hdev⟩
  · simp [newReads]
  intro e he
  rw [newReads, hdev, ImageRun.reads_deviceAt, ho.device, List.drop_left] at he
  obtain ⟨i, -, -, hei⟩ := ImageRun.mem_readsTo.1 he
  rw [← ho.src_eq] at hpresent
  rcases ImageRun.isRead_of_mem_logOf hei with hread | ⟨s, -, hread⟩
  · obtain ⟨s, -, hs⟩ := hread.answered
    rw [hs, hpresent]
  · obtain ⟨s, -, hs⟩ := hread.answered
    rw [hs, hpresent]

/-- The first run over `oneByte`, which stays where it is. -/
theorem imagedOnce_freeOf :
    imagedOnce.disk.map.FreeOf oneByte (newReads (World.empty ()) imagedOnce) := by
  have hreach := reached_empty .plain oneByte () "out" "map"
  have hv : imagedOnce ∈
      (image .plain oneByte "out" "map" (byteByByte false) .quiet).leaves (World.empty ()) :=
    List.mem_append_right _ (List.mem_singleton_self _)
  have hnone := afterVanish_of_present (cut_of_leaves hreach.sound hv) fun _ => rfl
  refine (unplugged_iff hreach hv).2 ⟨fun e he => hnone e (savedReads_subset he), ?_⟩
  intro _ m hm
  exact absurd hm (by simp [World.empty])

/-! ## A device that disappears at the first read -/

/-- One byte on a device that the first read finds gone: that read fails and `vanished` turns
true. -/
def unplugged : SectorTable Bool where
  id := "unplugged"
  len := 1
  sectorSize := 1
  content _ := 1
  status _ _ := .bad
  next _ := true
  vanished gone := gone
  len_le := byte_le_u64Max
  sectorSize_le := byte_le_u32Max
  sectorSize_pos := Nat.one_pos

/-- The world after the byte was imaged from the device that is gone. -/
def imagedUnplugged : World Bool :=
  (image .plain unplugged.source "out" "map" (byteByByte false) .quiet (World.empty false)).final

/-- **A chunk whose retry found the device gone is done**: the run goes on to the end and saves the
map. -/
theorem unplugged_counterexample :
    Reached .plain unplugged.source "out" "map" (World.empty false) ∧
      imagedUnplugged ∈ (image .plain unplugged.source "out" "map" (byteByByte false)
        .quiet).leaves (World.empty false) ∧
      ¬ imagedUnplugged.disk.map.FreeOf unplugged.source
        (newReads (World.empty false) imagedUnplugged) := by
  refine ⟨reached_empty .plain unplugged.source false "out" "map",
    List.mem_append_right _ (List.mem_singleton_self _), fun hfree => ?_⟩
  set r := firstRun .plain unplugged.source (byteByByte false) false with hr
  obtain ⟨out, f, m, -, -, hfin⟩ :=
    firstRun_completes .plain unplugged.source (byteByByte false) false "out" "map"
  have hwf : r.map.WellFormed r.src := wellFormed_freshMap _ _
  have hnew : newReads (World.empty false) imagedUnplugged = r.readsTo r.map.numChunks := by
    rw [newReads, imagedUnplugged, hfin.device, ImageRun.reads_deviceAt]
    exact List.nil_append _
  rw [hnew] at hfree
  have hall := (hfin.map.freeOf_iff (ImageRun.sound_of_wellFormed hwf) le_rfl).1
    (hfree m hfin.map_eq (hfin.map.header.sourceId.trans hwf.sourceId)
      (hfin.map.header.size.trans hwf.size))
  exact absurd hall (by decide)

end Reclaim
