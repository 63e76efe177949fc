import Reclaim.Block.Source
import Mathlib.Data.List.Nodup

/-!
# Reading one chunk

Pass 1 reads the chunk in one request.  If any sector of it is bad, pass 2 retries the bad sectors
one by one and, with `reverse_pass`, pass 3 goes over those that are left once more in reverse; a
retry that comes back good is patched into the buffer.  What is left is `stillBad`.

`Obtained` is the specification: every sector of the buffer is the first read's, unless a good
retry of that very sector replaced it, and exactly the sectors that stayed bad are listed.
Unread sectors are not bad, so they are never retried and never listed.
-/

namespace Reclaim

open FileBytes

variable {σ : Type}

/-- A chunk as it goes to the destination, with the sectors that stayed bad. -/
structure ChunkRead where
  buf : Bytes
  stillBad : List ℕ

/-- The attempts of `retry_sector`: read the sector until one read of it is good. -/
def retryLoop (src : BlockSource σ) (subOff : ℕ) : ℕ → Device σ → Option ReadOutcome × Device σ
  | 0, d => (none, d)
  | k + 1, d =>
    let r := readSource src .retry subOff src.sector d
    if r.1.result.status 0 = .good then (some r.1, r.2) else retryLoop src subOff k r.2

/-- Copy a sector into the buffer, up to the buffer's end. -/
def patchSector (ss sectorIdx : ℕ) (sub buf : Bytes) : Bytes :=
  let start := sectorIdx * ss
  let stop := min (start + ss) buf.length
  writeAt buf start (sub.take (stop - start))

/-- Retry one sector up to `retries` times, at least once; on success the buffer is patched. -/
def retrySector (src : BlockSource σ) (chunkOffset sectorIdx retries : ℕ) (buf : Bytes)
    (d : Device σ) : Option Bytes × Device σ :=
  let r := retryLoop src (chunkOffset + sectorIdx * src.sector) (max retries 1) d
  (r.1.map fun o => patchSector src.sector sectorIdx o.buf buf, r.2)

/-- Retry the sectors of a list in turn; those that stay bad are collected. -/
def retryAll (src : BlockSource σ) (chunkOffset retries : ℕ) :
    List ℕ → Bytes → Device σ → ChunkRead × Device σ
  | [], buf, d => (⟨buf, []⟩, d)
  | s :: rest, buf, d =>
    match retrySector src chunkOffset s retries buf d with
    | (some buf', d') => retryAll src chunkOffset retries rest buf' d'
    | (none, d') =>
      let r := retryAll src chunkOffset retries rest buf d'
      ({ r.1 with stillBad := s :: r.1.stillBad }, r.2)

/-- All passes over the chunk of `len` bytes at `offset`. -/
def readChunk (src : BlockSource σ) (retries : ℕ) (reversePass : Bool) (offset len : ℕ)
    (d : Device σ) : ChunkRead × Device σ :=
  let rr := readSource src .first offset len d
  if rr.1.result.anyBad then
    let pass2 := retryAll src offset retries rr.1.result.badSectors rr.1.buf rr.2
    if reversePass then
      retryAll src offset 1 pass2.1.stillBad.reverse pass2.1.buf pass2.2
    else pass2
  else (⟨rr.1.buf, []⟩, rr.2)

/-! ## What the retries do -/

/-- Sector `s` of the buffer is what a good retry among `log` read there. -/
def PatchedFrom (src : BlockSource σ) (chunkOffset : ℕ) (log : List ReadEvent) (buf : Bytes)
    (s : ℕ) : Prop :=
  ∃ e ∈ log, e.IsRead src .retry (chunkOffset + s * src.sector) src.sector ∧
    e.outcome.result.status 0 = .good ∧
    ∀ k < buf.length, k / src.sector = s →
      byteAt buf k = byteAt e.outcome.buf (k - s * src.sector)

/-- Two buffers agree on sector `s`. -/
def SameSector (ss : ℕ) (buf buf' : Bytes) (s : ℕ) : Prop :=
  ∀ k, k / ss = s → byteAt buf' k = byteAt buf k

lemma PatchedFrom.mono {src : BlockSource σ} {off s : ℕ} {log log' : List ReadEvent}
    {buf : Bytes} (h : PatchedFrom src off log buf s) (hsub : log ⊆ log') :
    PatchedFrom src off log' buf s := by
  obtain ⟨e, he, hrest⟩ := h
  exact ⟨e, hsub he, hrest⟩

lemma PatchedFrom.congr {src : BlockSource σ} {off s : ℕ} {log : List ReadEvent}
    {buf buf' : Bytes} (h : PatchedFrom src off log buf s) (hlen : buf'.length = buf.length)
    (hsame : SameSector src.sector buf buf' s) : PatchedFrom src off log buf' s := by
  obtain ⟨e, he, hread, hgood, hbytes⟩ := h
  refine ⟨e, he, hread, hgood, fun k hk hks => ?_⟩
  rw [hsame k hks, hbytes k (hlen ▸ hk) hks]

lemma SameSector.trans {ss s : ℕ} {a b c : Bytes} (h : SameSector ss a b s)
    (h' : SameSector ss b c s) : SameSector ss a c s :=
  fun k hk => (h' k hk).trans (h k hk)

lemma sector_bounds {ss k s : ℕ} (hss : 0 < ss) : k / ss = s ↔ s * ss ≤ k ∧ k < s * ss + ss := by
  rw [Nat.div_eq_iff hss]
  omega

/-- The events of a retry loop, and its last one when it succeeds. -/
lemma retryLoop_spec (src : BlockSource σ) (subOff k : ℕ) (d : Device σ) :
    ∃ log, (retryLoop src subOff k d).2.reads = d.reads ++ log ∧
      (∀ e ∈ log, e.IsRead src .retry subOff src.sector) ∧
      ∀ o, (retryLoop src subOff k d).1 = some o →
        o.result.status 0 = .good ∧ o.buf.length = src.sector ∧ ∃ e ∈ log, e.outcome = o := by
  induction k generalizing d with
  | zero => exact ⟨[], by simp [retryLoop], by simp, by simp [retryLoop]⟩
  | succ k ih =>
    rw [retryLoop]
    set r := readSource src .retry subOff src.sector d with hr
    have hreads : r.2.reads = d.reads ++ [⟨.retry, subOff, r.1, src.vanished d.state⟩] := rfl
    have hread : (⟨.retry, subOff, r.1, src.vanished d.state⟩ : ReadEvent).IsRead src .retry
        subOff src.sector := ⟨rfl, rfl, d.state, rfl, rfl⟩
    by_cases hgood : r.1.result.status 0 = .good
    · rw [if_pos hgood]
      refine ⟨_, hreads, fun e he => ?_, fun o ho => ?_⟩
      · obtain rfl := List.mem_singleton.1 he
        exact hread
      obtain rfl := Option.some_injective _ ho
      exact ⟨hgood, src.filled _ _ _, _, List.mem_singleton_self _, rfl⟩
    · rw [if_neg hgood]
      obtain ⟨log, hlog, hevents, hsome⟩ := ih r.2
      refine ⟨_ :: log, by rw [hlog, hreads, List.append_assoc, List.singleton_append], ?_, ?_⟩
      · intro e he
        rcases List.mem_cons.1 he with rfl | he
        · exact hread
        · exact hevents e he
      · intro o ho
        obtain ⟨hg, hlen, e, he, heq⟩ := hsome o ho
        exact ⟨hg, hlen, e, List.mem_cons_of_mem _ he, heq⟩

/-- Patching a sector writes that sector and nothing else. -/
lemma byteAt_patchSector {ss s : ℕ} {sub buf : Bytes} (hss : 0 < ss) (hsub : sub.length = ss)
    {k : ℕ} : byteAt (patchSector ss s sub buf) k =
      if k / ss = s ∧ k < buf.length then byteAt sub (k - s * ss) else byteAt buf k := by
  have hbounds := sector_bounds hss (k := k) (s := s)
  rw [patchSector, byteAt_writeAt, List.length_take, hsub]
  by_cases hk : k / ss = s ∧ k < buf.length
  · rw [if_pos (by omega), if_pos hk, byteAt_take, if_pos (by omega)]
  · rw [if_neg (by omega), if_neg hk]

lemma length_patchSector {ss s : ℕ} {sub buf : Bytes} :
    (patchSector ss s sub buf).length = buf.length := by
  rw [patchSector]
  by_cases hd : sub.take (min (s * ss + ss) buf.length - s * ss) = []
  · rw [hd, writeAt_nil]
  · rw [length_writeAt _ _ _ hd, List.length_take]
    have : 0 < (sub.take (min (s * ss + ss) buf.length - s * ss)).length :=
      List.length_pos_iff.2 hd
    rw [List.length_take] at this
    omega

/-- A retried sector: either it is patched, or nothing but the log changes. -/
lemma retrySector_spec (src : BlockSource σ) (off s retries : ℕ) (buf : Bytes) (d : Device σ) :
    ∃ log, (retrySector src off s retries buf d).2.reads = d.reads ++ log ∧
      (∀ e ∈ log, e.IsRead src .retry (off + s * src.sector) src.sector) ∧
      ∀ buf', (retrySector src off s retries buf d).1 = some buf' →
        buf'.length = buf.length ∧ PatchedFrom src off log buf' s ∧
        ∀ t, t ≠ s → SameSector src.sector buf buf' t := by
  obtain ⟨log, hlog, hevents, hsome⟩ :=
    retryLoop_spec src (off + s * src.sector) (max retries 1) d
  refine ⟨log, hlog, hevents, fun buf' hbuf => ?_⟩
  obtain ⟨o, ho, rfl⟩ := Option.map_eq_some_iff.1 hbuf
  obtain ⟨hgood, hlen, e, he, rfl⟩ := hsome o ho
  refine ⟨length_patchSector, ⟨e, he, hevents e he, hgood, ?_⟩, ?_⟩
  · intro k hk hks
    rw [length_patchSector] at hk
    rw [byteAt_patchSector src.sector_pos hlen, if_pos ⟨hks, hk⟩]
  · intro t ht k hk
    rw [byteAt_patchSector src.sector_pos hlen, if_neg fun h => ht (hk.symm.trans h.1)]

/-- Retrying a list of sectors: those that stay bad are left alone, the others are patched. -/
lemma retryAll_spec (src : BlockSource σ) (off retries : ℕ) (sectors : List ℕ)
    (hnodup : sectors.Nodup) (buf : Bytes) (d : Device σ) :
    ∃ log, (retryAll src off retries sectors buf d).2.reads = d.reads ++ log ∧
      (∀ e ∈ log, ∃ s ∈ sectors, e.IsRead src .retry (off + s * src.sector) src.sector) ∧
      (retryAll src off retries sectors buf d).1.buf.length = buf.length ∧
      (retryAll src off retries sectors buf d).1.stillBad.Sublist sectors ∧
      (∀ s ∈ sectors, s ∉ (retryAll src off retries sectors buf d).1.stillBad →
        PatchedFrom src off log (retryAll src off retries sectors buf d).1.buf s) ∧
      ∀ s, (s ∈ sectors → s ∈ (retryAll src off retries sectors buf d).1.stillBad) →
        SameSector src.sector buf (retryAll src off retries sectors buf d).1.buf s := by
  induction sectors generalizing buf d with
  | nil => exact ⟨[], by simp [retryAll, SameSector]⟩
  | cons s rest ih =>
    obtain ⟨hs, hrest⟩ := List.nodup_cons.1 hnodup
    obtain ⟨log, hlog, hevents, hsome⟩ := retrySector_spec src off s retries buf d
    rw [retryAll]
    cases hr : retrySector src off s retries buf d with
    | mk patched d' =>
    rw [hr] at hlog hsome
    cases patched with
    | some buf' =>
      obtain ⟨hlen, hpatched, hother⟩ := hsome buf' rfl
      obtain ⟨log', hlog', hevents', hlen', hsub, hgot, hkept⟩ := ih hrest buf' d'
      refine ⟨log ++ log', by rw [hlog', hlog, List.append_assoc], ?_, hlen'.trans hlen,
        hsub.trans (List.sublist_cons_self _ _), ?_, ?_⟩
      · intro e he
        rcases List.mem_append.1 he with he | he
        · exact ⟨s, List.mem_cons_self, hevents e he⟩
        · obtain ⟨t, ht, hread⟩ := hevents' e he
          exact ⟨t, List.mem_cons_of_mem _ ht, hread⟩
      · intro t ht hstill
        rcases List.mem_cons.1 ht with rfl | ht
        · -- patched now; the later retries are of other sectors
          exact (hpatched.congr hlen' (hkept t fun h => absurd h hs)).mono
            (List.subset_append_left _ _)
        · exact (hgot t ht hstill).mono (List.subset_append_right _ _)
      · intro t ht
        have hts : t ≠ s := fun h => hs (hsub.subset (h ▸ ht (h ▸ List.mem_cons_self)))
        exact (hother t hts).trans (hkept t fun h => ht (List.mem_cons_of_mem _ h))
    | none =>
      obtain ⟨log', hlog', hevents', hlen', hsub, hgot, hkept⟩ := ih hrest buf d'
      refine ⟨log ++ log', by rw [hlog', hlog, List.append_assoc], ?_, hlen',
        hsub.cons_cons _, ?_, ?_⟩
      · intro e he
        rcases List.mem_append.1 he with he | he
        · exact ⟨s, List.mem_cons_self, hevents e he⟩
        · obtain ⟨t, ht, hread⟩ := hevents' e he
          exact ⟨t, List.mem_cons_of_mem _ ht, hread⟩
      · intro t ht hstill
        rw [List.mem_cons, not_or] at hstill
        rcases List.mem_cons.1 ht with rfl | ht
        · exact absurd rfl hstill.1
        · exact (hgot t ht hstill.2).mono (List.subset_append_right _ _)
      · intro t ht
        apply hkept t
        intro h
        rcases List.mem_cons.1 (ht (List.mem_cons_of_mem _ h)) with rfl | h'
        · exact absurd h hs
        · exact h'

/-! ## The specification of a chunk read -/

/-- What the passes over a chunk obtained, in terms of the reads they made. -/
structure Obtained (src : BlockSource σ) (offset len : ℕ) (log : List ReadEvent)
    (r : ChunkRead) : Prop where
  length_buf : r.buf.length = len
  nodup_stillBad : r.stillBad.Nodup
  /-- The first read, of the whole chunk, followed by retries of its bad sectors. -/
  reads : ∃ first retries, log = first :: retries ∧
    first.IsRead src .first offset len ∧
    (∀ e ∈ retries, ∃ s ∈ first.outcome.result.badSectors,
      e.IsRead src .retry (offset + s * src.sector) src.sector) ∧
    (∀ s ∈ r.stillBad, s ∈ first.outcome.result.badSectors) ∧
    (∀ s, (s ∈ first.outcome.result.badSectors → s ∈ r.stillBad) →
      SameSector src.sector first.outcome.buf r.buf s) ∧
    (∀ s ∈ first.outcome.result.badSectors, s ∉ r.stillBad →
      PatchedFrom src offset retries r.buf s)

/-- **A chunk read meets its specification**, and the reads it makes are the ones it appends to
the device's log. -/
theorem readChunk_obtained (src : BlockSource σ) (retries : ℕ) (reversePass : Bool)
    (offset len : ℕ) (d : Device σ) :
    ∃ log, (readChunk src retries reversePass offset len d).2.reads = d.reads ++ log ∧
      Obtained src offset len log (readChunk src retries reversePass offset len d).1 := by
  unfold readChunk
  set rr := readSource src .first offset len d with hrr
  set first : ReadEvent := ⟨.first, offset, rr.1, src.vanished d.state⟩ with hfirst
  have hreads : rr.2.reads = d.reads ++ [first] := rfl
  have hfirstOk : first.IsRead src .first offset len := ⟨rfl, rfl, d.state, rfl, rfl⟩
  by_cases hbad : rr.1.result.anyBad = true
  · have hnodup := rr.1.result.nodup_badSectors
    obtain ⟨log2, hlog2, hevents2, hlen2, hsub2, hgot2, hkept2⟩ :=
      retryAll_spec src offset retries rr.1.result.badSectors hnodup rr.1.buf rr.2
    simp only [hbad, if_true]
    set p2 := retryAll src offset retries rr.1.result.badSectors rr.1.buf rr.2
    cases reversePass with
    | false =>
      simp only [Bool.false_eq_true, if_false]
      exact ⟨first :: log2, by rw [hlog2, hreads, List.append_assoc, List.singleton_append],
        hlen2.trans hfirstOk.length_buf, hnodup.sublist hsub2, first, log2, rfl, hfirstOk, hevents2,
        fun s hs => hsub2.subset hs, hkept2, hgot2⟩
    | true =>
      simp only [if_true]
      have hnodup2 : p2.1.stillBad.reverse.Nodup :=
        List.nodup_reverse.2 (hnodup.sublist hsub2)
      obtain ⟨log3, hlog3, hevents3, hlen3, hsub3, hgot3, hkept3⟩ :=
        retryAll_spec src offset 1 p2.1.stillBad.reverse hnodup2 p2.1.buf p2.2
      set p3 := retryAll src offset 1 p2.1.stillBad.reverse p2.1.buf p2.2
      have hmem3 : ∀ s ∈ p3.1.stillBad, s ∈ p2.1.stillBad := fun s hs =>
        List.mem_reverse.1 (hsub3.subset hs)
      refine ⟨first :: (log2 ++ log3), ?_, (hlen3.trans hlen2).trans hfirstOk.length_buf,
        hnodup2.sublist hsub3, first, log2 ++ log3, rfl, hfirstOk, ?_,
        fun s hs => hsub2.subset (hmem3 s hs), ?_, ?_⟩
      · rw [hlog3, hlog2, hreads, List.append_assoc, List.append_assoc, List.singleton_append]
      · intro e he
        rcases List.mem_append.1 he with he | he
        · exact hevents2 e he
        · obtain ⟨s, hs, hread⟩ := hevents3 e he
          exact ⟨s, hsub2.subset (List.mem_reverse.1 hs), hread⟩
      · intro s hs
        exact (hkept2 s fun h => hmem3 s (hs h)).trans
          (hkept3 s fun h => hs (hsub2.subset (List.mem_reverse.1 h)))
      · intro s hs hstill
        by_cases h2 : s ∈ p2.1.stillBad
        · exact (hgot3 s (List.mem_reverse.2 h2) hstill).mono (List.subset_append_right _ _)
        · refine ((hgot2 s hs h2).congr hlen3 (hkept3 s fun h => ?_)).mono
            (List.subset_append_left _ _)
          exact absurd (List.mem_reverse.1 h) h2
  · rw [if_neg hbad]
    have hnone : rr.1.result.badSectors = [] :=
      ReadResult.badSectors_eq_nil (Bool.not_eq_true _ ▸ hbad)
    refine ⟨[first], hreads, hfirstOk.length_buf, List.nodup_nil, first, [], rfl, hfirstOk, by simp,
      by simp, fun s _ k _ => rfl, fun s hs => ?_⟩
    rw [show first.outcome.result.badSectors = [] from hnone] at hs
    exact absurd hs (by simp)

/-! ## Sources that read alike at any time -/

namespace BlockSource.Stable

variable {src : BlockSource σ} (st : src.Stable)

/-- Sector `s` of a chunk reads bad with the chunk, and does not read good by itself. -/
def Lost (offset len s : ℕ) : Prop :=
  (st.answer offset len).result.status s = .bad ∧
    (st.answer (offset + s * src.sector) src.sector).result.status 0 ≠ .good

instance (offset len s : ℕ) : Decidable (st.Lost offset len s) := instDecidableAnd

/-- What every run obtains for the chunk of `len` bytes at `offset`. -/
def chunk (offset len : ℕ) : Bytes :=
  (List.range len).map fun k =>
    if st.Lost offset len (k / src.sector) then 0 else st.content (offset + k)

lemma length_chunk (offset len : ℕ) : (st.chunk offset len).length = len := by simp [chunk]

lemma byteAt_chunk {offset len k : ℕ} (hk : k < len) : byteAt (st.chunk offset len) k =
    if st.Lost offset len (k / src.sector) then 0 else st.content (offset + k) := by
  simp [byteAt, chunk, List.getD_eq_getElem?_getD, hk]

/-- A request that does not begin at a sector obtains nothing. -/
lemma lost_of_unaligned (s₀ : σ) {offset len s : ℕ} (h : ¬ src.sector ∣ offset)
    (hs : s < divCeil len src.sector) : st.Lost offset len s := by
  have hss := src.sector_pos
  have hbad : (st.answer offset len).result.status s = .bad := by
    rw [← st.answers s₀]
    exact src.unaligned s₀ offset len h s hs
  have hsub : ¬ src.sector ∣ offset + s * src.sector := by
    rw [Nat.dvd_add_left (Nat.dvd_mul_left _ _)]
    exact h
  have hretry : (st.answer (offset + s * src.sector) src.sector).result.status 0 = .bad := by
    rw [← st.answers s₀]
    apply src.unaligned s₀ _ _ hsub 0
    exact (lt_divCeil_iff hss).2 (by omega)
  exact ⟨hbad, by rw [hretry]; decide⟩

/-- A retry that may be made fails only if the sector does not read good. -/
lemma retryLoop_eq_none {subOff k : ℕ} {d : Device σ} (hk : 0 < k)
    (h : (retryLoop src subOff k d).1 = none) :
    (st.answer subOff src.sector).result.status 0 ≠ .good := by
  intro hgood
  obtain ⟨k, rfl⟩ := Nat.exists_eq_succ_of_ne_zero hk.ne'
  have hread : (readSource src .retry subOff src.sector d).1 = st.answer subOff src.sector :=
    st.answers _ _ _
  rw [retryLoop] at h
  simp [hread, hgood] at h

/-- The sectors that stay bad are those that do not read good by themselves. -/
lemma not_good_of_stillBad {off retries : ℕ} {sectors : List ℕ} {buf : Bytes} {d : Device σ}
    {s : ℕ} (h : s ∈ (retryAll src off retries sectors buf d).1.stillBad) :
    (st.answer (off + s * src.sector) src.sector).result.status 0 ≠ .good := by
  induction sectors generalizing buf d with
  | nil => exact absurd h List.not_mem_nil
  | cons t rest ih =>
    rw [retryAll] at h
    cases hr : retrySector src off t retries buf d with
    | mk patched d' =>
    rw [hr] at h
    cases patched with
    | some buf' => exact ih h
    | none =>
      rcases List.mem_cons.1 h with rfl | h
      · have hnone : (retryLoop src (off + s * src.sector) (max retries 1) d).1 = none := by
          have hmap : (retrySector src off s retries buf d).1 = none := by rw [hr]
          simpa [retrySector] using hmap
        exact st.retryLoop_eq_none (by omega) hnone
      · exact ih h

variable {retries offset len : ℕ} {rev : Bool} {d : Device σ}

/-- Which sectors stay bad does not depend on the run. -/
lemma mem_stillBad {s : ℕ} :
    s ∈ (readChunk src retries rev offset len d).1.stillBad ↔ st.Lost offset len s := by
  obtain ⟨log, -, hob⟩ := readChunk_obtained src retries rev offset len d
  obtain ⟨first, rs, -, hfirst, -, hsub, -, hpatched⟩ := hob.reads
  have hans := hfirst.eq_answer st
  constructor
  · intro h
    have hbad := ReadResult.mem_badSectors.1 (hsub s h)
    rw [hans] at hbad
    refine ⟨hbad, ?_⟩
    unfold readChunk at h
    dsimp only at h
    split at h
    · split at h
      · exact st.not_good_of_stillBad h
      · exact st.not_good_of_stillBad h
    · exact absurd h List.not_mem_nil
  · rintro ⟨hbad, hretry⟩
    by_contra hstill
    have hmem : s ∈ first.outcome.result.badSectors := by
      rw [ReadResult.mem_badSectors, hans]
      exact hbad
    obtain ⟨e, -, hread, hgood, -⟩ := hpatched s hmem hstill
    rw [hread.eq_answer st] at hgood
    exact hretry hgood

/-- **Every run obtains the same** for a chunk of a stable source: the contents, and zeros for the
sectors that stay bad. -/
theorem readChunk_buf (hin : 0 < len → offset + len ≤ src.len) :
    (readChunk src retries rev offset len d).1.buf = st.chunk offset len := by
  have hss := src.sector_pos
  obtain ⟨log, -, hob⟩ := readChunk_obtained src retries rev offset len d
  apply ext_byteAt (hob.length_buf.trans (st.length_chunk offset len).symm)
  intro k hk
  rw [hob.length_buf] at hk
  rw [st.byteAt_chunk hk]
  have hstill : k / src.sector ∈ (readChunk src retries rev offset len d).1.stillBad ↔
      st.Lost offset len (k / src.sector) := st.mem_stillBad
  obtain ⟨first, rs, -, hfirst, -, hsub, hkept, hpatched⟩ := hob.reads
  have hans := hfirst.eq_answer st
  split
  · -- a lost sector is as the first read left it: zeros
    rename_i hlost
    rw [hkept _ (fun _ => hstill.2 hlost) k rfl, hans, ← st.answers d.state]
    refine src.zeroFilled d.state offset len (hin (by omega)) (k / src.sector) ?_ k rfl
    rw [st.answers, hlost.1]
    decide
  · rename_i hlost
    have hal : src.sector ∣ offset := by
      by_contra h
      exact hlost (st.lost_of_unaligned d.state h (div_lt_divCeil hss hk))
    by_cases hbad : k / src.sector ∈ first.outcome.result.badSectors
    · -- patched by a retry of this sector
      obtain ⟨e, -, hread, hgood, hbytes⟩ := hpatched _ hbad fun h => hlost (hstill.1 h)
      obtain ⟨hlow, hhigh⟩ := (sector_bounds hss (k := k) (s := k / src.sector)).1 rfl
      have hmod : k - k / src.sector * src.sector < src.sector := by omega
      have hzero : (k - k / src.sector * src.sector) / src.sector = 0 :=
        Nat.div_eq_of_lt hmod
      rw [hread.eq_answer st] at hgood
      rw [hbytes k (by rw [hob.length_buf]; exact hk) rfl, hread.eq_answer st,
        st.faithful _ _ (hal.add (Nat.dvd_mul_left _ _)) _ hmod (by rw [hzero, hgood]; decide)]
      congr 1
      omega
    · rw [hkept _ (fun h => absurd h hbad) k rfl, hans]
      refine st.faithful offset len hal k hk fun h => hbad ?_
      rw [ReadResult.mem_badSectors, hans]
      exact h

end BlockSource.Stable

end Reclaim
