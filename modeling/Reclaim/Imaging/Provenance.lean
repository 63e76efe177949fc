import Reclaim.Imaging.MissingOutput

/-!
# Where the bytes of an image come from

A sector that neither the bad nor the unread runs of a map list should have been read: some read
reported it good, and its bytes in the chunk that went to the destination are those of that read.
`Provenance` says this of a run that has returned, for the chunks it imaged; for the chunks that
were done before, it says that the map lists what it listed.

The imager asks of the first read of a chunk whether any sector is bad, and retries the bad ones.
A sector that reads unread is not bad: it is not retried, and it is listed nowhere, since the
imager never fills the unread runs.  `provenance_iff` is the exact condition.
-/

namespace Reclaim

open FileBytes CrashLogic

variable {σ : Type}

/-- The event is a read that covers the sector at byte `off` and reports it good. -/
structure ReadEvent.GoodAt (src : BlockSource σ) (e : ReadEvent) (off : ℕ) : Prop where
  le : e.offset ≤ off
  dvd : src.sector ∣ off - e.offset
  lt : (off - e.offset) / src.sector < e.outcome.result.sectorCount
  good : e.outcome.result.status ((off - e.offset) / src.sector) = .good

/-- No read of a whole chunk reports a sector unread. -/
def NoneUnread (log : List ReadEvent) : Prop :=
  ∀ e ∈ log, e.pass = .first → ∀ s, e.outcome.result.status s ≠ .unread

namespace ImageRun

variable (r : ImageRun σ)

/-- The number of sector `s` of chunk `i`. -/
def lba (i s : ℕ) : ℕ := r.offset i / r.src.sector + s

/-- Sector `s` of chunk `i` was read good among `log`, and its bytes in the buffer that went to the
destination are those of that read. -/
def ReadGood (log : List ReadEvent) (i s : ℕ) : Prop :=
  ∃ e ∈ log, e.GoodAt r.src (r.offset i + s * r.src.sector) ∧
    ∀ k < r.src.sector, s * r.src.sector + k < r.len i →
      byteAt (r.record i).buf (s * r.src.sector + k) =
        byteAt e.outcome.buf (r.offset i + s * r.src.sector - e.offset + k)

/-- What the map `m` of a finished run says of the sectors it does not list. -/
structure Provenance (log : List ReadEvent) (m : ImageMap) : Prop where
  imaged : ∀ i, r.Pending i → ∀ s < divCeil (r.len i) r.src.sector,
    ¬ InRanges m.bad (r.lba i s) → ¬ InRanges m.unread (r.lba i s) → r.ReadGood log i s
  kept : ∀ i, r.map.isChunkDone i = true → ∀ s < divCeil (r.len i) r.src.sector,
    (InRanges m.bad (r.lba i s) ↔ InRanges r.map.bad (r.lba i s)) ∧
      (InRanges m.unread (r.lba i s) ↔ InRanges r.map.unread (r.lba i s))

variable {r}

/-! ## The reads of one chunk -/

/-- A sector of a chunk that did not stay bad was read good, unless the first read found it
unread. -/
lemma readGood_of_not_stillBad {i s : ℕ} (hs : s < divCeil (r.len i) r.src.sector)
    (hstill : s ∉ (r.record i).stillBad)
    (hread : NoneUnread (r.logOf i)) : r.ReadGood (r.logOf i) i s := by
  have hss := r.src.sector_pos
  have hob := (r.obtained i).2
  obtain ⟨first, retries, hlog, hfirst, -, -, hkept, hpatched⟩ := hob.reads
  have hmem : first ∈ r.logOf i := hlog ▸ List.mem_cons_self
  have hdiv : s * r.src.sector / r.src.sector = s := Nat.mul_div_cancel _ hss
  have hsector : ∀ k < r.src.sector, (s * r.src.sector + k) / r.src.sector = s := fun k hk => by
    rw [sector_bounds hss]
    omega
  cases hst : first.outcome.result.status s with
  | good =>
    have hoff : r.offset i + s * r.src.sector - first.offset = s * r.src.sector := by
      rw [hfirst.offset, Nat.add_sub_cancel_left]
    refine ⟨first, hmem, ⟨by rw [hfirst.offset]; exact Nat.le_add_right _ _, ?_, ?_, ?_⟩, ?_⟩
    · rw [hoff]
      exact Nat.dvd_mul_left _ _
    · rw [hoff, hdiv, hfirst.sectorCount]
      exact hs
    · rw [hoff, hdiv, hst]
    · intro k hk _
      rw [hoff]
      apply hkept s fun hbad => ?_
      · exact hsector k hk
      · exact absurd (hst.symm.trans (ReadResult.mem_badSectors.1 hbad)) (by simp)
  | unread => exact absurd hst (hread first hmem hfirst.pass s)
  | bad =>
    obtain ⟨e, he, hretry, hgood, hbytes⟩ :=
      hpatched s (ReadResult.mem_badSectors.2 hst) hstill
    have hoff : r.offset i + s * r.src.sector - e.offset = 0 := by
      rw [hretry.offset, Nat.sub_self]
    refine ⟨e, hlog ▸ List.mem_cons_of_mem _ he,
      ⟨hretry.offset.le, ?_, ?_, ?_⟩, fun k hk hin => ?_⟩
    · rw [hoff]
      exact Nat.dvd_zero _
    · rw [hoff, Nat.zero_div, hretry.sectorCount, lt_divCeil_iff hss]
      omega
    · rw [hoff, Nat.zero_div, hgood]
    · rw [hoff, Nat.zero_add, hbytes _ (by rw [hob.length_buf]; exact hin) (hsector k hk)]
      congr 1
      omega

/-- A read that reports a sector of chunk `i` good was made for that chunk: it is the first read,
which found the sector good, or a retry after the first read found it bad. -/
lemma chunk_of_goodAt {i j s : ℕ}
    (hs : s < divCeil (r.len i) r.src.sector) {e : ReadEvent} (he : e ∈ r.logOf j)
    (hgood : e.GoodAt r.src (r.offset i + s * r.src.sector)) :
    j = i ∧ (e.IsRead r.src .first (r.offset i) (r.len i) ∧
        e.outcome.result.status s = .good ∨
      ∃ first ∈ r.logOf i, first.pass = .first ∧ first.outcome.result.status s = .bad) := by
  have hss := r.src.sector_pos
  obtain ⟨first, retries, hlog, hfirst, hretries, -⟩ := (r.obtained j).2.reads
  have hin : s * r.src.sector < r.len i := (lt_divCeil_iff hss).1 hs
  -- the sector lies in chunk `j`
  have hchunk : r.offset j ≤ r.offset i + s * r.src.sector →
      r.offset i + s * r.src.sector < r.offset j + r.len j → j = i := by
    intro hlo hhi
    by_contra hne
    rcases Nat.lt_or_gt_of_ne hne with hlt | hgt
    · have := disjoint_chunks (r := r) hlt
      omega
    · have := disjoint_chunks (r := r) hgt
      omega
  have hback : (r.offset i + s * r.src.sector - e.offset) / r.src.sector * r.src.sector =
      r.offset i + s * r.src.sector - e.offset := Nat.div_mul_cancel hgood.dvd
  have hcount := hgood.lt
  have hstatus := hgood.good
  have hle := hgood.le
  rw [hlog] at he
  rcases List.mem_cons.1 he with rfl | he
  · rw [hfirst.sectorCount, lt_divCeil_iff hss, hback] at hcount
    have hlo := hfirst.offset ▸ hle
    rw [hfirst.offset] at hcount
    obtain rfl := hchunk hlo (by omega)
    refine ⟨rfl, .inl ⟨hfirst, ?_⟩⟩
    rw [hfirst.offset, Nat.add_sub_cancel_left, Nat.mul_div_cancel _ hss] at hstatus
    exact hstatus
  · obtain ⟨t, ht, hread⟩ := hretries e he
    have htlen := ReadResult.badSectors_lt ht
    rw [hfirst.sectorCount, lt_divCeil_iff hss] at htlen
    rw [hread.sectorCount, lt_divCeil_iff hss, hback] at hcount
    -- a retry covers one sector, so it begins where this one does
    have hoff : r.offset i + s * r.src.sector = r.offset j + t * r.src.sector := by
      have hz := Nat.eq_zero_of_dvd_of_lt hgood.dvd hcount
      have := hread.offset
      omega
    obtain rfl := hchunk (by omega) (by omega)
    have hts : t = s := Nat.eq_of_mul_eq_mul_right hss (by omega)
    subst hts
    exact ⟨rfl, .inr ⟨first, hlog ▸ List.mem_cons_self, hfirst.pass,
      ReadResult.mem_badSectors.1 ht⟩⟩

/-! ## What is listed -/

/-- In an aligned run the map lists a sector of chunk `i` by what chunk `i` has. -/
lemma MapAt.inRanges_lba {n : ℕ} {m : ImageMap} (h : r.MapAt n m) (hsound : r.Sound)
    (hal : r.src.sector ∣ r.map.chunkSize) {i s : ℕ}
    (hs : s < divCeil (r.len i) r.src.sector) :
    InRanges m.bad (r.lba i s) ↔ r.map.isChunkDone i = true ∧ InRanges r.map.bad (r.lba i s) ∨
      i < n ∧ r.Pending i ∧ s ∈ (r.record i).stillBad := by
  have hi := lba_chunk hal hsound.chunkSize_pos hs
  rw [h.bad]
  constructor
  · rintro (hold | ⟨j, hj, hp, t, ht, heq⟩)
    · obtain ⟨j, hdone, t, ht, heq⟩ := hsound.bad _ hold
      have hj := lba_chunk hal hsound.chunkSize_pos ht
      rw [← heq, lba, hi] at hj
      exact .inl ⟨hj ▸ hdone, hold⟩
    · have hij := lba_chunk hal hsound.chunkSize_pos (stillBad_lt ht)
      rw [← heq, lba, hi] at hij
      subst hij
      have hst : s = t := Nat.add_left_cancel heq
      exact .inr ⟨hj, hp, hst ▸ ht⟩
  · rintro (⟨-, hold⟩ | ⟨hlt, hp, hstill⟩)
    · exact .inl hold
    · exact .inr ⟨i, hlt, hp, s, hstill, rfl⟩

/-- **When an image has a provenance**: in an aligned run, exactly when no chunk's first read
reports an unread sector. -/
lemma Finished.provenance_iff {out : ImageOutcome} {v : World σ} {f : Bytes} {m : ImageMap}
    (h : r.Finished out v f m) (hwf : r.map.WellFormed r.src)
    (hal : r.src.sector ∣ r.map.chunkSize) :
    r.Provenance (r.readsTo r.map.numChunks) m ↔ NoneUnread (r.readsTo r.map.numChunks) := by
  have hsound := sound_of_wellFormed hwf
  have hunread : m.unread = [] := h.map.header.unread.trans hwf.unread
  have hlisted := fun {i s} (hs : s < divCeil (r.len i) r.src.sector) =>
    h.map.inRanges_lba hsound hal hs
  constructor
  · intro hprov e he hpass s hst
    obtain ⟨i, hi, hp, hei⟩ := mem_readsTo.1 he
    obtain ⟨first, retries, hlog, hfirst, hretries, hsub, -⟩ := (r.obtained i).2.reads
    -- the first read of chunk `i` is the one that reports `s` unread
    obtain rfl : e = first := by
      rw [hlog] at hei
      rcases List.mem_cons.1 hei with heq | hei
      · exact heq
      · obtain ⟨t, -, hread⟩ := hretries e hei
        exact absurd (hpass.symm.trans hread.pass) (by simp)
    have hs : s < divCeil (r.len i) r.src.sector := by
      rw [← hfirst.sectorCount]
      exact ReadResult.lt_of_status_ne_good (by rw [hst]; decide)
    have hnot : ¬ InRanges m.bad (r.lba i s) := by
      rw [hlisted hs]
      rintro (⟨hdone, -⟩ | ⟨-, -, hstill⟩)
      · exact not_pending_of_done hdone hp
      · exact absurd (hst.symm.trans (ReadResult.mem_badSectors.1 (hsub s hstill))) (by decide)
    obtain ⟨e', he', hgood, -⟩ :=
      hprov.imaged i hp s hs hnot (by rw [hunread]; exact inRanges_nil _)
    obtain ⟨j, -, -, hej⟩ := mem_readsTo.1 he'
    -- there is only one first read of the chunk
    have hone : ∀ e' ∈ r.logOf i, e'.pass = .first → e' = e := by
      intro e' he' hpass'
      rw [hlog] at he'
      rcases List.mem_cons.1 he' with heq | he'
      · exact heq
      · obtain ⟨t, -, hread⟩ := hretries e' he'
        exact absurd (hpass'.symm.trans hread.pass) (by simp)
    obtain ⟨rfl, ⟨hread, hst'⟩ | ⟨e'', he'', hpass'', hst''⟩⟩ := chunk_of_goodAt hs hej hgood
    · obtain rfl := hone e' hej hread.pass
      exact absurd (hst.symm.trans hst') (by decide)
    · obtain rfl := hone e'' he'' hpass''
      exact absurd (hst.symm.trans hst'') (by decide)
  · intro hread
    refine ⟨fun i hp s hs hbad _ => ?_, fun i hdone s hs => ⟨?_, ?_⟩⟩
    · have hstill : s ∉ (r.record i).stillBad := fun hmem =>
        hbad ((hlisted hs).2 (.inr ⟨hp.1, hp, hmem⟩))
      have hsub : r.logOf i ⊆ r.readsTo r.map.numChunks := fun e he =>
        mem_readsTo.2 ⟨i, hp.1, hp, he⟩
      obtain ⟨e, he, hgood, hbytes⟩ :=
        readGood_of_not_stillBad hs hstill fun e he => hread e (hsub he)
      exact ⟨e, hsub he, hgood, hbytes⟩
    · rw [hlisted hs]
      constructor
      · rintro (⟨-, hold⟩ | ⟨-, hp, -⟩)
        · exact hold
        · exact absurd hp (not_pending_of_done hdone)
      · exact fun hold => .inl ⟨hdone, hold⟩
    · rw [hunread, hwf.unread]

/-- The reads that a finished run has added to the source's log. -/
lemma Finished.drop_reads {out : ImageOutcome} {v : World σ} {f : Bytes} {m : ImageMap}
    (h : r.Finished out v f m) :
    v.device.reads.drop r.device.reads.length = r.readsTo r.map.numChunks := by
  rw [h.device, reads_deviceAt, List.drop_left]

/-- A source that never reports a sector unread. -/
lemma noneUnread_of_source (n : ℕ)
    (h : ∀ s off len i, (r.src.readAt s off len).1.result.status i ≠ .unread) :
    NoneUnread (r.readsTo n) := by
  intro e he hpass
  obtain ⟨i, -, -, hei⟩ := mem_readsTo.1 he
  rcases isRead_of_mem_logOf hei with hfirst | ⟨t, -, hretry⟩
  · obtain ⟨s, hs, -⟩ := hfirst.answered
    rw [hs]
    exact h s _ _
  · exact absurd (hpass.symm.trans hretry.pass) (by simp)

/-- What a run that returned complete should leave: an output that holds what went to the
destination, a map with a provenance, and a report that counts each listed sector once. -/
def Sourced (r : ImageRun σ) (log : List ReadEvent) (out : ImageOutcome) (disk : Disk) : Prop :=
  ∃ f m, disk.out = .regular f ∧ disk.map = .saved m ∧ r.FileAt r.map.numChunks f ∧
    r.Provenance log m ∧ out.badSectors = (memberSectors m.bad).card

/-- A finished run is sourced exactly when no first read reported a sector unread. -/
lemma Finished.sourced_iff {out : ImageOutcome} {v : World σ} {f : Bytes} {m : ImageMap}
    (h : r.Finished out v f m) (hwf : r.map.WellFormed r.src)
    (hal : r.src.sector ∣ r.map.chunkSize) :
    r.Sourced (r.readsTo r.map.numChunks) out v.disk ↔ NoneUnread (r.readsTo r.map.numChunks) := by
  rw [← h.provenance_iff hwf hal]
  constructor
  · rintro ⟨f', m', hf', hm', -, hprov, -⟩
    obtain rfl := MapFile.saved.inj (h.map_eq.symm.trans hm')
    exact hprov
  · intro hprov
    have hcount : r.Counted := ⟨hal, hwf.exact hal⟩
    exact ⟨f, m, h.out_eq, h.map_eq, h.file, hprov, h.counted hcount⟩

end ImageRun

/-- **When the unlisted sectors of an image were read good.**  Whatever the history of the map, and
whatever each read of the source reports: a run in sector-aligned chunks that returns complete has
read every sector of its chunks good that its map does not list, and reports the number of listed
sectors, if and only if no first read of a chunk reported a sector unread. -/
theorem complete_sourced_iff {B : Backend} {src : BlockSource σ} {outPath mapPath : String}
    {opts : ImageOptions} {env : Env} {w : World σ} {r : ImageRun σ}
    (hreach : Reached B src outPath mapPath w) (ho : Opens B src opts w r)
    (hal : src.sector ∣ r.map.chunkSize) {out : ImageOutcome}
    (hrun : (image B src outPath mapPath opts env w).result = .ok out)
    (hcomplete : out.complete = true) {log : List ReadEvent}
    (hlog : (image B src outPath mapPath opts env w).final.device.reads = w.device.reads ++ log) :
    r.Sourced log out (image B src outPath mapPath opts env w).final.disk ↔ NoneUnread log := by
  obtain ⟨r', f, m, ho', hfin⟩ := hreach.finished hrun hcomplete
  obtain rfl := ho.unique ho'
  have hreads : log = r.readsTo r.map.numChunks := by
    rw [← hfin.drop_reads, hlog, ho.device, List.drop_left]
  obtain rfl := ho.src_eq
  rw [hreads]
  exact hfin.sourced_iff (ho.wellFormed hreach.sound) hal

/-- The first run over `oneByte` is sourced. -/
theorem imagedOnce_sourced : ∃ out log,
    (image .plain oneByte "out" "map" (byteByByte false) .quiet (World.empty ())).result =
      .ok out ∧
    (firstRun .plain oneByte (byteByByte false) ()).Sourced log out imagedOnce.disk := by
  obtain ⟨out, f, m, hrun, hcomplete, hfin⟩ :=
    firstRun_completes .plain oneByte (byteByByte false) () "out" "map"
  refine ⟨out, (firstRun .plain oneByte (byteByByte false) ()).readsTo 1, hrun, ?_⟩
  refine (complete_sourced_iff (reached_empty .plain oneByte () "out" "map")
    (opens_firstRun .plain oneByte (byteByByte false) ()) (by decide) hrun hcomplete ?_).2 ?_
  · rw [hfin.device, ImageRun.reads_deviceAt]
    exact List.nil_append _
  · apply ImageRun.noneUnread_of_source
    intro s off len i
    exact SectorTable.status_ne_unread _ (fun _ _ => by simp [SectorTable.solid]) s off len i

/-! ## An unread sector recorded as read -/

/-- A source of one byte that has never been read itself. -/
def oneUnread : SectorTable Unit :=
  { SectorTable.solid 1 1 0 byte_le_u64Max byte_le_u32Max Nat.one_pos with status := fun _ _ =>
    .unread }

/-- **An image of an unread sector lists nothing**: it completes, with the sector neither bad nor
unread in the map, and no read of it was good. -/
theorem oneUnread_counterexample :
    Reached .plain oneUnread.source "out" "map" (World.empty ()) ∧ ∃ out log,
      (image .plain oneUnread.source "out" "map" (byteByByte false) .quiet
        (World.empty ())).result = .ok out ∧ out.complete = true ∧
      (image .plain oneUnread.source "out" "map" (byteByByte false) .quiet
        (World.empty ())).final.device.reads = log ∧
      ¬ (firstRun .plain oneUnread.source (byteByByte false) ()).Sourced log out
        (image .plain oneUnread.source "out" "map" (byteByByte false) .quiet
          (World.empty ())).final.disk := by
  refine ⟨reached_empty .plain oneUnread.source () "out" "map", ?_⟩
  set r := firstRun .plain oneUnread.source (byteByByte false) () with hr
  obtain ⟨out, f, m, hrun, hcomplete, hfin⟩ :=
    firstRun_completes .plain oneUnread.source (byteByByte false) () "out" "map"
  have hwf : r.map.WellFormed r.src := wellFormed_freshMap _ _
  refine ⟨out, r.readsTo r.map.numChunks, hrun, hcomplete, ?_, fun hsourced => ?_⟩
  · rw [hfin.device, ImageRun.reads_deviceAt]
    exact List.nil_append _
  · have hnone := (hfin.sourced_iff hwf (by decide)).1 hsourced
    obtain ⟨first, retries, hlog, hfirst, -⟩ := (r.obtained 0).2.reads
    have hp : r.Pending 0 := by decide
    have hmem : first ∈ r.readsTo r.map.numChunks :=
      ImageRun.mem_readsTo.2 ⟨0, hp.1, hp, hlog ▸ List.mem_cons_self⟩
    apply hnone first hmem hfirst.pass 0
    obtain ⟨⟨⟩, hs, -⟩ := hfirst.answered
    rw [hs]
    exact (oneUnread.status_answer (by decide)).trans (by decide)

end Reclaim
