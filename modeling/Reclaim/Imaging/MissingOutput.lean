import Reclaim.Imaging.History
import Reclaim.Block.SectorTable

/-!
# Resuming over an output that changed

The done marks of an image are in its map and the bytes are in another file, which the resume path
opens if it is there and creates if it is not.  Either way the marks are kept: nothing compares
the file with them.

`ChunksWritten` is what a complete image should guarantee: the output holds, for every chunk the
map marks done, bytes with the recorded hash.  `complete_chunksWritten_iff` says exactly when a
complete run guarantees it, for every history and every state of the output path: when the output
the run found already held every chunk the map marked done (`OutputKept.done`), no chunk that sparse
raw output leaves out lay over other bytes (`OutputKept.holes`), and every zstd frame is read back
as it was written (`OutputKept.frames`).

A missing output holds no data, so a resume over a finished map whose output was removed returns
complete with an image of zeros.
-/

namespace Reclaim

open FileBytes CrashLogic

variable {σ : Type}

/-- The output holds, for every chunk its map marks done, bytes with the recorded hash. -/
def ChunksWritten (B : Backend) (disk : Disk) : Prop :=
  ∃ f m, disk.out = .regular f ∧ disk.map = .saved m ∧ ∀ i, m.isChunkDone i = true →
    m.chunkHashes[i]? = some (some (B.hash m.hashAlgo (storedChunk B f m i)))

/-- What a run needs of the output it finds: the chunks that its map marks done are in it, and
where sparse output leaves a chunk of zeros out, zeros are there already.  What it writes itself
must be read back: a frame of zstd output may be longer than its index entry says. -/
structure ImageRun.OutputKept (r : ImageRun σ) : Prop where
  done : ∀ i, r.map.isChunkDone i = true → r.map.chunkHashes[i]? =
    some (some (r.B.hash r.map.hashAlgo (storedChunk r.B r.file r.opened i)))
  holes : ∀ i, r.Pending i → r.LeftOut i →
    r.B.hash r.map.hashAlgo (storedChunk r.B r.file r.opened i) =
      r.B.hash r.map.hashAlgo (r.record i).buf
  frames : ∀ i, r.Pending i → r.map.compression = .zstd →
    r.B.hash r.map.hashAlgo (r.written i) = r.B.hash r.map.hashAlgo (r.record i).buf

namespace ImageRun

variable {r : ImageRun σ} {out : ImageOutcome} {v : World σ} {f : Bytes} {m : ImageMap}

/-- What a finished run holds for a chunk has the recorded hash exactly when the run found or
obtained it so. -/
lemma Finished.hash_iff (h : r.Finished out v f m) (hwf : r.map.WellFormed r.src)
    (hk : r.FramesKept) {i : ℕ} (hi : m.isChunkDone i = true) :
    m.chunkHashes[i]? = some (some (r.B.hash m.hashAlgo (storedChunk r.B f m i))) ↔
      r.hashAt r.map.numChunks i = some (some (r.B.hash r.map.hashAlgo (r.expected i))) := by
  rw [h.map.hashes, h.map.header.hashAlgo, storedChunk_of_progress hwf hk h.map h.file hi]

/-- A chunk that was done keeps its hash and its bytes. -/
lemma expected_of_done {i : ℕ} (hi : r.map.isChunkDone i = true) :
    r.hashAt r.map.numChunks i = r.map.chunkHashes[i]? ∧
      r.expected i = storedChunk r.B r.file r.opened i :=
  ⟨if_neg fun h => not_pending_of_done hi h.2, if_neg fun h => not_pending_of_done hi h.1⟩

/-- A pending chunk gets the hash of what its passes obtained. -/
lemma hashAt_of_pending {i : ℕ} (hp : r.Pending i) :
    r.hashAt r.map.numChunks i = some (some (r.B.hash r.map.hashAlgo (r.record i).buf)) :=
  if_pos ⟨hp.1, hp⟩

/-- A finished run leaves every done chunk in the output exactly when the output was kept. -/
lemma Finished.chunksWritten_iff (h : r.Finished out v f m) (hwf : r.map.WellFormed r.src)
    (hk : r.FramesKept) : ChunksWritten r.B v.disk ↔ r.OutputKept := by
  have hiff := fun i hi => h.hash_iff hwf hk (i := i) hi
  have hdone : ∀ i, r.map.isChunkDone i = true → m.isChunkDone i = true := fun i hi =>
    h.map.isChunkDone.2 (.inl hi)
  have hnew : ∀ i, r.Pending i → m.isChunkDone i = true := fun i hp =>
    h.map.isChunkDone.2 (.inr ⟨hp.1, hp⟩)
  constructor
  · rintro ⟨f', m', hf', hm', hall⟩
    obtain rfl := OutNode.regular.inj (h.out_eq.symm.trans hf')
    obtain rfl := MapFile.saved.inj (h.map_eq.symm.trans hm')
    refine ⟨fun i hi => ?_, fun i hp hleft => ?_, fun i hp hz => ?_⟩
    · have hhash := (hiff i (hdone i hi)).1 (hall i (hdone i hi))
      rwa [(expected_of_done hi).1, (expected_of_done hi).2] at hhash
    · have hhash := (hiff i (hnew i hp)).1 (hall i (hnew i hp))
      rw [hashAt_of_pending hp, expected, if_neg fun h => h.2 hleft] at hhash
      exact (Option.some_injective _ (Option.some_injective _ hhash)).symm
    · have hhash := (hiff i (hnew i hp)).1 (hall i (hnew i hp))
      rw [hashAt_of_pending hp, expected, if_pos ⟨hp, not_leftOut_of_zstd hz⟩] at hhash
      exact (Option.some_injective _ (Option.some_injective _ hhash)).symm
  · intro hkept
    refine ⟨f, m, h.out_eq, h.map_eq, fun i hi => (hiff i hi).2 ?_⟩
    rcases h.map.isChunkDone.1 hi with hi0 | ⟨-, hp⟩
    · rw [(expected_of_done hi0).1, (expected_of_done hi0).2]
      exact hkept.done i hi0
    · rw [hashAt_of_pending hp, expected]
      by_cases hleft : r.LeftOut i
      · rw [if_neg fun h => h.2 hleft, hkept.holes i hp hleft]
      · rw [if_pos ⟨hp, hleft⟩]
        cases hc : r.map.compression with
        | none => rw [written, hc]
        | zstd => rw [hkept.frames i hp hc]

end ImageRun

/-- **When a complete image is one.**  Whatever the history of the map and the state of the output
path, a run that returns complete leaves every done chunk in the output if and only if the output
it opened already held the chunks that were done, held zeros where sparse output leaves zeros
out, and the frames it takes are read back as they were written. -/
theorem complete_chunksWritten_iff {B : Backend} {src : BlockSource σ}
    {outPath mapPath : String} {opts : ImageOptions} {env : Env} {w : World σ} {r : ImageRun σ}
    (hreach : Reached B src outPath mapPath w) (ho : Opens B src opts w r)
    {out : ImageOutcome} (hrun : (image B src outPath mapPath opts env w).result = .ok out)
    (hcomplete : out.complete = true) :
    ChunksWritten B (image B src outPath mapPath opts env w).final.disk ↔ r.OutputKept := by
  obtain ⟨r', f, m, ho', hfin⟩ := hreach.finished hrun hcomplete
  obtain rfl := ho.unique ho'
  have hB : r.B = B := ho.backend
  subst hB
  exact hfin.chunksWritten_iff (ho.wellFormed hreach.sound) ho.framesKept

/-! ## A finished image whose output is removed -/

/-- Plain raw imaging in chunks of one byte. -/
def byteByByte (resume : Bool) : ImageOptions where
  chunkSize := 1
  retries := 0
  reversePass := false
  sparse := false
  compression := .none
  hashAlgo := .blake3
  resume := resume

/-- The world after the one byte was imaged. -/
def imagedOnce : World Unit :=
  (image .plain oneByte "out" "map" (byteByByte false) .quiet (World.empty ())).final

/-- The same with the output removed. -/
def removedOutput : World Unit := imagedOnce.withOut .absent

lemma reached_removedOutput : Reached .plain oneByte "out" "map" removedOutput :=
  .drifted (reached_empty .plain oneByte () "out" "map").image (.inl rfl)

/-- The rule at the first run: nothing is done before it, so its complete image is one. -/
theorem imagedOnce_chunksWritten : ChunksWritten .plain imagedOnce.disk := by
  obtain ⟨out, f, m, hrun, hcomplete, -⟩ :=
    firstRun_completes .plain oneByte (byteByByte false) () "out" "map"
  refine (complete_chunksWritten_iff (reached_empty .plain oneByte () "out" "map")
    (opens_firstRun .plain oneByte (byteByByte false) ()) hrun hcomplete).2
    ⟨fun i hi => ?_, fun i _ hleft => ?_, fun i _ hz => ?_⟩
  · exact absurd hi (by simp [firstRun, freshMap])
  · exact absurd hleft.2.1 (by decide)
  · exact absurd hz (by decide)

/-- **A resume over a removed output reports a complete image that is not there.** -/
theorem resume_removedOutput_counterexample :
    Reached .plain oneByte "out" "map" removedOutput ∧
      ∃ out, (image .plain oneByte "out" "map" (byteByByte true) .quiet removedOutput).result =
          .ok out ∧ out.complete = true ∧
        ¬ ChunksWritten .plain
          (image .plain oneByte "out" "map" (byteByByte true) .quiet removedOutput).final.disk := by
  refine ⟨reached_removedOutput, ?_⟩
  have ho0 := opens_firstRun .plain oneByte (byteByByte false) ()
  obtain ⟨out0, f, m, -, -, hfin⟩ :=
    firstRun_completes .plain oneByte (byteByByte false) () "out" "map"
  have hwf : m.WellFormed oneByte :=
    hfin.map.wellFormed (wellFormed_freshMap oneByte (byteByByte false)) ho0.framesKept
  -- the resumed run goes by the finished map, over an empty file
  set r : ImageRun Unit := ⟨.plain, oneByte, byteByByte true, m, [], [], removedOutput.device,
    removedOutput.disk.map, removedOutput.saves⟩ with hr
  have hsaved : removedOutput.disk.map = .saved m := hfin.map_eq
  have ho : Opens .plain oneByte (byteByByte true) removedOutput r :=
    ⟨rfl, rfl, rfl, .inl ⟨rfl, hsaved, hwf.sourceId, hwf.size, hwf.chunkSize_pos.ne'⟩, rfl, rfl,
      rfl, .inr ⟨.inr rfl, by simp [removedOutput], rfl, rfl⟩⟩
  obtain ⟨out, f', m', hrun, hcomplete, hfin'⟩ : ∃ out f m,
      (image .plain oneByte "out" "map" (byteByByte true) .quiet removedOutput).result = .ok out ∧
        out.complete = true ∧ r.Finished out
          (image .plain oneByte "out" "map" (byteByByte true) .quiet removedOutput).final f m :=
    image_completes "out" "map" reached_removedOutput.sound ho (fun _ => rfl) (fun _ => rfl)
  refine ⟨out, hrun, hcomplete, fun hwritten => ?_⟩
  have hkept := (hfin'.chunksWritten_iff (ho.wellFormed reached_removedOutput.sound)
    ho.framesKept).1 hwritten
  have hp := firstRun_pending .plain oneByte (byteByByte false) () (show 0 < _ by decide)
  have hdone : m.isChunkDone 0 = true := hfin.map.isChunkDone.2 (.inr ⟨hp.1, hp⟩)
  have hhash : some (some (Backend.plain.hash m.hashAlgo
        ((firstRun .plain oneByte (byteByByte false) ()).record 0).buf)) =
      some (some (Backend.plain.hash m.hashAlgo (storedChunk .plain [] r.opened 0))) := by
    rw [← hkept.done 0 hdone, show r.map = m from rfl, hfin.map.hashes, ImageRun.hashAt,
      if_pos ⟨hp.1, hp⟩, hfin.map.header.hashAlgo]
    rfl
  have hbytes := Backend.hash_plain_injective _
    (Option.some_injective _ (Option.some_injective _ hhash))
  have hzero : byteAt (storedChunk .plain [] r.opened 0) 0 = 0 := by
    have hc : r.opened.compression = .none := hfin.map.header.compression
    unfold storedChunk
    rw [hc]
    simp [byteAt_slice]
  rw [← hbytes] at hzero
  exact absurd hzero (by decide)

end Reclaim
