import Reclaim.Imaging.Fidelity

/-!
# Verifying an image

`verify_image` reads the image back chunk by chunk, compares each chunk with its recorded hash and
the concatenation with the whole-image hash.  The imager has computed that hash in steps of 4 MiB,
and `MappedImage` refuses a read that does not begin at a sector: it returns zeros.  Chunks begin
at sectors; steps do only if the sector size divides 4 MiB, as powers of two up to that size do.
So a clean image verifies exactly when the steps that begin inside a sector hold only zeros.

The other half holds for every image: a stored chunk that is changed outside the recorded sectors
no longer has its recorded hash.
-/

namespace Reclaim

open FileBytes CrashLogic

variable {σ : Type} {B : Backend} {src : BlockSource σ} {f : Bytes} {m : ImageMap}

/-! ## What is hashed -/

/-- What is read of window `k` when an image is read in windows of `size` bytes. -/
def windowRead (B : Backend) (f : Bytes) (m : ImageMap) (size k : ℕ) : Bytes :=
  ((MappedImage.ofFile f m).readAt B (k * size) (min (m.size - k * size) size)).1

/-- What verification reads of chunk `i`. -/
def chunkRead (B : Backend) (f : Bytes) (m : ImageMap) (i : ℕ) : Bytes :=
  windowRead B f m m.chunkSize i

/-- The first component of a read, in windows of a size that stays a variable. -/
lemma readAt_window (B : Backend) (f : Bytes) (m : ImageMap) (size k : ℕ) :
    ((MappedImage.ofFile f m).readAt B (k * size) (min (m.size - k * size) size)).1 =
      windowRead B f m size k := rfl

lemma length_windowRead (B : Backend) (f : Bytes) (m : ImageMap) (size k : ℕ) :
    (windowRead B f m size k).length = min (m.size - k * size) size := length_readAt _ _ _ _

/-- Chunk `i` does not have its recorded hash. -/
def mismatch (B : Backend) (f : Bytes) (m : ImageMap) (i : ℕ) : Bool :=
  match m.chunkHashes[i]? with
  | some (some exp) => decide (B.hash m.hashAlgo (chunkRead B f m i) ≠ exp)
  | _ => false

/-- The verification loop over the chunks from `i` on. -/
lemma verifyChunks_spec (hpos : 0 < m.chunkSize) (i : ℕ) (l : List (Option String))
    (s : VerifyState) (hl : ∀ j, l[j]? = m.chunkHashes[i + j]?)
    (hin : ∀ j < l.length, (i + j) * m.chunkSize < m.size) :
    (verifyChunks B (MappedImage.ofFile f m) m i l s).mismatches =
        s.mismatches + ((List.range' i l.length).filter (mismatch B f m)).length ∧
      (verifyChunks B (MappedImage.ofFile f m) m i l s).whole =
        ⟨s.whole.algo, s.whole.fed ++ (List.range' i l.length).flatMap (chunkRead B f m)⟩ := by
  have hmax : max m.chunkSize 1 = m.chunkSize := max_eq_left hpos
  induction l generalizing i s with
  | nil => simp [verifyChunks]
  | cons expect rest ih =>
    have hi : i * m.chunkSize < m.size := hin 0 (Nat.succ_pos _)
    have hread : ((MappedImage.ofFile f m).readAt B (i * m.chunkSize)
        (min (m.size - i * m.chunkSize) m.chunkSize)).1 = chunkRead B f m i := rfl
    have hhash : m.chunkHashes[i]? = some expect := (hl 0).symm
    obtain ⟨hmis, hwhole⟩ := ih (i + 1)
      (verifyChunk B (MappedImage.ofFile f m) m i expect s)
      (fun j => by rw [show i + 1 + j = i + (j + 1) by omega, ← hl (j + 1)]; rfl)
      (fun j hj => by
        have := hin (j + 1) (Nat.succ_lt_succ hj)
        rwa [show i + (j + 1) = i + 1 + j by omega] at this)
    rw [verifyChunks, hmax, if_neg (not_le.2 hi), hmis, hwhole, List.length_cons,
      List.range'_succ, List.filter_cons, List.flatMap_cons]
    cases expect with
    | none => simp [verifyChunk, mismatch, hhash, hmax, hread, Digest.update]
    | some exp =>
      by_cases heq : B.hash m.hashAlgo (chunkRead B f m i) = exp
      · simp [verifyChunk, mismatch, hhash, hmax, hread, heq, Digest.update]
      · simp [verifyChunk, mismatch, hhash, hmax, hread, heq, Digest.update]
        omega

/-- What `verify_image` reports on a well-formed map, whatever the image file holds. -/
lemma verifyImage_spec (hwf : m.WellFormed src) (f : Bytes) :
    (verifyImage B f m).chunkMismatches =
        ((List.range m.numChunks).filter (mismatch B f m)).length ∧
      ((verifyImage B f m).wholeOk = true ↔ m.wholeHash =
        some (B.hash m.hashAlgo ((List.range m.numChunks).flatMap (chunkRead B f m)))) := by
  obtain ⟨hmis, hwhole⟩ := verifyChunks_spec (B := B) (f := f) hwf.chunkSize_pos 0 m.chunkHashes
    ⟨0, 0, Digest.new m.hashAlgo⟩ (fun j => by rw [Nat.zero_add])
    (fun j hj => by rw [Nat.zero_add]; exact hwf.offset_lt hj)
  rw [← List.range_eq_range'] at hmis hwhole
  refine ⟨by rw [verifyImage, hmis, Nat.zero_add]; rfl, ?_⟩
  rw [verifyImage]
  dsimp only
  rw [hwhole]
  cases m.wholeHash with
  | none => simp
  | some h => simp [Digest.finalizeHex, Digest.new, ImageMap.numChunks, eq_comm]

/-- The steps of the imager's hash, in windows of a size that stays a variable. -/
lemma foldl_identityStep (B : Backend) (f : Bytes) (m : ImageMap) (step n : ℕ) :
    ((List.range n).foldl (identityStep B (MappedImage.ofFile f m) m.size step)
      (Digest.new m.hashAlgo, [])).1 =
        ⟨m.hashAlgo, (List.range n).flatMap (windowRead B f m step)⟩ := by
  induction n with
  | zero => rfl
  | succ n ih =>
    rw [List.range_succ, List.foldl_append, List.flatMap_append, List.flatMap_singleton]
    simp only [List.foldl_cons, List.foldl_nil, identityStep, Digest.update, ih, readAt_window]

/-- The hash that the imager computes is that of its steps. -/
lemma computeIdentity_whole (B : Backend) (f : Bytes) (m : ImageMap) :
    (computeIdentity B f m).1 = B.hash m.hashAlgo
      ((List.range (divCeil m.size (4 * mib))).flatMap (windowRead B f m (4 * mib))) := by
  have hfold := foldl_identityStep B f m (4 * mib) (divCeil m.size (4 * mib))
  have hwhole : (computeIdentity B f m).1 = ((List.range (divCeil m.size (4 * mib))).foldl
      (identityStep B (MappedImage.ofFile f m) m.size (4 * mib))
        (Digest.new m.hashAlgo, [])).1.finalizeHex B := rfl
  rw [hwhole, hfold, Digest.finalizeHex]

/-! ## Images that are kept -/

/-- The steps of 4 MiB that begin inside a sector hold only zeros. -/
def ZeroSteps (st : src.Stable) (m : ImageMap) : Prop :=
  ∀ x < src.len, ¬ src.sector ∣ x / (4 * mib) * (4 * mib) →
    byteAt (st.chunkOf m (x / m.chunkSize)) (x % m.chunkSize) = 0

/-- Verification finds an image clean, and finds a mismatch in every chunk that is changed outside
the recorded sectors. -/
structure Verifies (B : Backend) (src : BlockSource σ) (f : Bytes) (m : ImageMap) : Prop where
  whole : (verifyImage B f m).wholeOk = true
  clean : (verifyImage B f m).chunkMismatches = 0
  counts : ∀ g, (verifyImage B g m).chunkMismatches =
    ((List.range m.numChunks).filter (mismatch B g m)).length
  detects : ∀ g, ∀ i < m.numChunks, ∀ k < m.chunkLen i,
    ¬ InRanges m.bad ((i * m.chunkSize + k) / src.sector) →
      byteAt (storedChunk B g m i) k ≠ byteAt (storedChunk B f m i) k → mismatch B g m i = true

section Keeps

variable {st : src.Stable} (h : Keeps st B f m) (hwf : m.WellFormed src) (s₀ : σ)
  (hall : ∀ i < m.numChunks, m.isChunkDone i = true)

include h hwf s₀ hall

/-- Verification reads of a chunk what every run obtains for it. -/
lemma Keeps.chunkRead_eq {i : ℕ} (hi : i < m.numChunks) : chunkRead B f m i = st.chunkOf m i := by
  have hoff := hwf.offset_lt hi
  have hlen : m.chunkLen i ≤ m.size - i * m.chunkSize := min_le_left _ _
  have hss : (MappedImage.ofFile f m).sectorSize = src.sector := hwf.sectorSize_ofFile f
  refine ext_byteAt ?_ fun k hk => ?_
  · rw [chunkRead, length_windowRead, BlockSource.Stable.chunkOf, st.length_chunk]
    rfl
  have hk : k < m.chunkLen i := by rwa [chunkRead, length_windowRead] at hk
  have hread : chunkRead B f m i =
      ((MappedImage.ofFile f m).readAt B (i * m.chunkSize) (m.chunkLen i)).1 := rfl
  rw [hread]
  have hx : i * m.chunkSize + k < src.len := by
    rw [← hwf.size]
    omega
  by_cases hal : src.sector ∣ i * m.chunkSize
  · have hcov := (ImageMap.chunk_covers_iff hwf.chunkSize_pos (hwf.size.symm ▸ hx)).1
      ⟨Nat.le_add_right _ _, Nat.add_lt_add_left hk _⟩
    have hmod : (i * m.chunkSize + k) % m.chunkSize = k := by
      have := Nat.div_add_mod' (i * m.chunkSize + k) m.chunkSize
      rw [hcov] at this
      omega
    rw [h.byteAt_readAt hwf hall hal hk hx, hcov, hmod]
  · rw [readAt_unaligned B (by rw [hss]; exact hal), byteAt_replicate_zero,
      BlockSource.Stable.chunkOf, st.byteAt_chunk hk,
      if_pos (st.lost_of_unaligned s₀ hal (div_lt_divCeil src.sector_pos hk))]

omit s₀ in
/-- What is read in windows, byte by byte: what every run obtains there, but zeros for a window that
begins inside a sector. -/
lemma Keeps.byteAt_windowRead {size x : ℕ} (hsize : 0 < size) (hx : x < src.len) :
    byteAt (windowRead B f m size (x / size)) (x % size) =
      if src.sector ∣ x / size * size then
        byteAt (st.chunkOf m (x / m.chunkSize)) (x % m.chunkSize)
      else 0 := by
  have hxs := Nat.div_add_mod' x size
  have hmod := Nat.mod_lt x hsize
  have hss : (MappedImage.ofFile f m).sectorSize = src.sector := hwf.sectorSize_ofFile f
  split
  · rename_i hal
    rw [windowRead, h.byteAt_readAt hwf hall hal (by rw [hwf.size]; omega) (by omega), hxs]
  · rename_i hal
    rw [windowRead, readAt_unaligned B (by rw [hss]; exact hal), byteAt_replicate_zero]

/-- Reading the image in windows and reading it in chunks agree exactly when the windows that begin
inside a sector hold zeros. -/
lemma Keeps.readings_eq_iff {size : ℕ} (hsize : 0 < size) :
    (List.range (divCeil m.size size)).flatMap (windowRead B f m size) =
      (List.range m.numChunks).flatMap (chunkRead B f m) ↔
    ∀ x < src.len, ¬ src.sector ∣ x / size * size →
      byteAt (st.chunkOf m (x / m.chunkSize)) (x % m.chunkSize) = 0 := by
  have hcs := hwf.chunkSize_pos
  have hnum : m.numChunks = divCeil m.size m.chunkSize := by rw [hwf.numChunks, hwf.size]
  obtain ⟨hlen1, hbytes1⟩ := byteAt_flatMap_blocks (N := m.size) hsize (windowRead B f m size)
    (divCeil m.size size) fun i _ => length_windowRead _ _ _ _ _
  obtain ⟨hlen2, hbytes2⟩ := byteAt_flatMap_blocks (N := m.size) hcs (chunkRead B f m)
    m.numChunks fun i _ => length_windowRead _ _ _ _ _
  have hcover1 : min m.size (divCeil m.size size * size) = m.size :=
    min_eq_left (le_divCeil_mul hsize _)
  have hcover2 : min m.size (m.numChunks * m.chunkSize) = m.size := by
    rw [hnum]
    exact min_eq_left (le_divCeil_mul hcs _)
  rw [hcover1] at hlen1 hbytes1
  rw [hcover2] at hlen2 hbytes2
  have hchunk : ∀ x < m.size, byteAt ((List.range m.numChunks).flatMap (chunkRead B f m)) x =
      byteAt (st.chunkOf m (x / m.chunkSize)) (x % m.chunkSize) := fun x hx => by
    rw [hbytes2 x hx, h.chunkRead_eq hwf s₀ hall (hwf.chunk_of hx).1]
  constructor
  · intro heq x hx hal
    have hx' : x < m.size := hwf.size.symm ▸ hx
    rw [← hchunk x hx', ← heq, hbytes1 x hx', h.byteAt_windowRead hwf hall hsize hx, if_neg hal]
  · intro hzero
    apply ext_byteAt (hlen1.trans hlen2.symm)
    intro x hx
    rw [hlen1] at hx
    have hx' : x < src.len := hwf.size ▸ hx
    rw [hbytes1 x hx, hchunk x hx, h.byteAt_windowRead hwf hall hsize hx']
    split
    · rfl
    · rename_i hal
      exact (hzero x hx' hal).symm

/-- The whole-image hash matches exactly when the steps that begin inside a sector hold zeros. -/
lemma Keeps.wholeOk_iff (hinj : ∀ algo, Function.Injective (B.hash algo))
    (hwhole : m.wholeHash = some (computeIdentity B f m).1) :
    (verifyImage B f m).wholeOk = true ↔ ZeroSteps st m := by
  have hmib : 0 < 4 * mib := by decide
  rw [(verifyImage_spec hwf f).2, hwhole, computeIdentity_whole, Option.some.injEq,
    (hinj _).eq_iff, h.readings_eq_iff hwf s₀ hall hmib, ZeroSteps]

/-- **When a kept image verifies.** -/
lemma Keeps.verifies_iff (hinj : ∀ algo, Function.Injective (B.hash algo))
    (htail : TailCovered src m.chunkSize)
    (hwhole : m.wholeHash = some (computeIdentity B f m).1) :
    Verifies B src f m ↔ ZeroSteps st m := by
  have hok := h.wholeOk_iff hwf s₀ hall hinj hwhole
  have hclean : ∀ i < m.numChunks, mismatch B f m i = false := by
    intro i hi
    rw [mismatch, h.hashes i (hall i hi), h.chunkRead_eq hwf s₀ hall hi]
    simp
  refine ⟨fun hv => hok.1 hv.whole, fun hzero => ⟨hok.2 hzero, ?_, fun g => ?_, ?_⟩⟩
  · rw [(verifyImage_spec hwf f).1, List.length_eq_zero_iff, List.filter_eq_nil_iff]
    intro i hi
    rw [hclean i (List.mem_range.1 hi)]
    simp
  · exact (verifyImage_spec hwf g).1
  · intro g i hi k hk hbad hne
    -- a chunk that does not begin at a sector lies in recorded sectors
    have hal : src.sector ∣ i * m.chunkSize := by
      by_contra hun
      exact hbad (h.bad_of_unaligned hwf s₀ hall htail hi hk hun)
    have hread : chunkRead B g m i = storedChunk B g m i :=
      readAt_chunk hwf hi (by rw [hwf.sectorSize_ofFile]; exact hal)
    rw [mismatch, h.hashes i (hall i hi), hread]
    rw [(h.stored i (hall i hi)).storedChunk_eq] at hne
    simp only [ne_eq, decide_not, Bool.not_eq_eq_eq_not, Bool.not_true, decide_eq_false_iff_not]
    intro heq
    rw [hinj _ heq] at hne
    exact hne rfl

end Keeps

/-- **When a complete image verifies.**  For every stable source and every history of careful runs:
the image of a run that returns complete is found clean, and every change of a stored byte outside
the recorded sectors is found, if and only if the steps of 4 MiB that begin inside a sector hold
only zeros. -/
theorem complete_verifies_iff (st : src.Stable)
    (hinj : ∀ algo, Function.Injective (B.hash algo)) {outPath mapPath : String}
    {opts : ImageOptions} {env : Env} {w : World σ} {r : ImageRun σ}
    (hhist : Resumed B src outPath mapPath w) (ho : Opens B src opts w r) (hfit : r.FramesFit)
    (htail : TailCovered src r.map.chunkSize) {out : ImageOutcome}
    (hrun : (image B src outPath mapPath opts env w).result = .ok out)
    (hcomplete : out.complete = true) :
    (∃ f m, (image B src outPath mapPath opts env w).final.disk.out = .regular f ∧
      (image B src outPath mapPath opts env w).final.disk.map = .saved m ∧
        Verifies B src f m) ↔ ZeroSteps st r.map := by
  obtain ⟨f, m, hfin, hkeeps, hwf, hall⟩ := hhist.finished_keeps st ho hfit hrun hcomplete
  have hwhole := hfin.whole
  rw [ho.backend] at hwhole
  have hsame : ZeroSteps st m ↔ ZeroSteps st r.map := by
    unfold ZeroSteps BlockSource.Stable.chunkOf ImageMap.chunkLen
    rw [hfin.map.header.chunkSize, hfin.map.header.size]
  rw [← hfin.map.header.chunkSize] at htail
  rw [← hsame, ← hkeeps.verifies_iff hwf w.device.state hall hinj htail hwhole]
  constructor
  · rintro ⟨f', m', hf', hm', hv⟩
    obtain rfl := OutNode.regular.inj (hfin.out_eq.symm.trans hf')
    obtain rfl := MapFile.saved.inj (hfin.map_eq.symm.trans hm')
    exact hv
  · exact fun hv => ⟨f, m, hfin.out_eq, hfin.map_eq, hv⟩

/-- The first run over `oneByte` verifies. -/
theorem imagedOnce_verifies : ∃ f m, imagedOnce.disk.out = .regular f ∧
    imagedOnce.disk.map = .saved m ∧ Verifies .plain oneByte f m := by
  obtain ⟨out, -, -, hrun, hcomplete, -⟩ :=
    firstRun_completes .plain oneByte (byteByByte false) () "out" "map"
  refine (complete_verifies_iff oneByteStable Backend.hash_plain_injective
    (resumed_empty .plain oneByte () "out" "map")
    (opens_firstRun .plain oneByte (byteByByte false) ()) (ImageRun.framesFit_of_raw rfl)
    (tailCovered_of_dvd (by decide)) hrun hcomplete).2 fun x _ hal => ?_
  exact absurd (one_dvd _) hal

/-! ## A sector size that does not divide 4 MiB -/

/-- A little more than 4 MiB in sectors of 520 bytes. -/
def table520 : SectorTable Unit := .solid 4195360 520 255 (by decide) (by decide) (by decide)

/-- Every sector reads good. -/
def stable520 : table520.source.Stable :=
  table520.stable (fun _ => .good) (fun _ => rfl) SectorTable.good_ne_unread ()

/-- Plain raw imaging in chunks of 1 MiB, which become 2017 sectors. -/
def mibChunks : ImageOptions := { byteByByte false with chunkSize := 1048576 }

/-- **A good image in sectors of 520 bytes does not verify**: its second step begins inside a
sector. -/
theorem table520_counterexample :
    Resumed .plain table520.source "out" "map" (World.empty ()) ∧ ∃ out f m,
      (image .plain table520.source "out" "map" mibChunks .quiet (World.empty ())).result =
        .ok out ∧ out.complete = true ∧
      (image .plain table520.source "out" "map" mibChunks .quiet (World.empty ())).final.disk.out =
        .regular f ∧
      (image .plain table520.source "out" "map" mibChunks .quiet (World.empty ())).final.disk.map =
        .saved m ∧ (verifyImage .plain f m).wholeOk = false := by
  have hhist := resumed_empty .plain table520.source () "out" "map"
  obtain ⟨out, -, -, hrun, hcomplete, -⟩ :=
    firstRun_completes .plain table520.source mibChunks () "out" "map"
  obtain ⟨f, m, hfin, hkeeps, hwf, hall⟩ := hhist.finished_keeps stable520
    (opens_firstRun .plain table520.source mibChunks ()) (ImageRun.framesFit_of_raw rfl)
    hrun hcomplete
  refine ⟨hhist, out, f, m, hrun, hcomplete, hfin.out_eq, hfin.map_eq, ?_⟩
  have hss : table520.source.sector = 520 := SectorTable.sector_source _
  have hcs : m.chunkSize = 1048840 := hfin.map.header.chunkSize.trans (by decide)
  have hsize : m.size = 4195360 := hfin.map.header.size
  rw [Bool.eq_false_iff]
  intro hok
  have hzero := (hkeeps.wholeOk_iff hwf () hall Backend.hash_plain_injective hfin.whole).1 hok
  have hlen : m.chunkLen 3 = 1048840 := by
    rw [ImageMap.chunkLen, hcs, hsize]
    decide
  have hlost : ¬ stable520.Lost (3 * m.chunkSize) (m.chunkLen 3)
      (4194304 % m.chunkSize / table520.source.sector) := by
    rw [hcs, hlen, hss]
    rintro ⟨hbad, -⟩
    have hgood : (table520.answer () (3 * 1048840) 1048840).result.status
        (4194304 % 1048840 / 520) = table520.sectorAt () (3 * 1048840)
          (4194304 % 1048840 / 520) := table520.status_answer (by decide)
    have hsector : table520.sectorAt () (3 * 1048840) (4194304 % 1048840 / 520) = .good := by
      rw [SectorTable.sectorAt, if_neg (by decide)]
      rfl
    exact absurd (hbad.symm.trans (hgood.trans hsector)) (by decide)
  have hbyte := hzero 4194304 (by decide) (by rw [hss]; decide)
  have hchunk : 4194304 / m.chunkSize = 3 := by rw [hcs]
  have hk : 4194304 % m.chunkSize < m.chunkLen 3 := by
    rw [hcs, hlen]
    decide
  rw [hchunk, BlockSource.Stable.chunkOf, stable520.byteAt_chunk hk, if_neg hlost] at hbyte
  exact absurd hbyte (show (255 : UInt8) ≠ 0 by decide)

end Reclaim
