import Reclaim.Imaging.Dest
import Reclaim.Imaging.Mapped
import Reclaim.Imaging.ReadChunk

/-!
# The imager

`image` reads a source chunk by chunk, writes each finished chunk to the destination, records its
hash and its unreadable sectors in the map, and saves the map every 64 chunks, when it is
cancelled, and at the end.  With `resume` it goes by the map on disk and skips the chunks the map
has a hash for.

`computeIdentity` hashes the finished image in steps of 4 MiB through `MappedImage`; `verifyImage`
hashes it chunk by chunk.
-/

namespace Reclaim

open FileBytes CrashLogic

variable {σ : Type}

/-- Imaging options. -/
structure ImageOptions where
  chunkSize : ℕ
  retries : ℕ
  reversePass : Bool
  sparse : Bool
  compression : Compression
  hashAlgo : HashAlgo
  resume : Bool
  deriving DecidableEq, Repr

/-- Outcome of an imaging run that returned. -/
structure ImageOutcome where
  complete : Bool
  hadBad : Bool
  badSectors : ℕ
  wholeHash : Option String
  deriving DecidableEq, Repr

/-- What the chunk loop carries: the map in memory, the destination, the bad total and the chunks
since the last checkpoint. -/
structure RunState where
  map : ImageMap
  dest : ImageDest
  badTotal : ℕ
  chunksSinceCkpt : ℕ
  deriving DecidableEq, Repr

/-- How the chunk loop ends before its last chunk. -/
inductive Exit where
  | returned (outcome : ImageOutcome)
  | broke (st : RunState)

def mib : ℕ := 1024 * 1024

/-! ## Whole-image hashes -/

/-- One step of `compute_identity`: feed the digest and gather the first MiB. -/
def identityStep (B : Backend) (mi : MappedImage) (size step : ℕ) (acc : Digest × Bytes)
    (k : ℕ) : Digest × Bytes :=
  let off := k * step
  let n := min (size - off) step
  let b := (mi.readAt B off n).1
  (acc.1.update b, if off < mib then acc.2 ++ b.take (min (mib - off) n) else acc.2)

/-- `compute_identity`: the hash of the whole image, of its first MiB and of its last. -/
def computeIdentity (B : Backend) (file : Bytes) (map : ImageMap) : String × String × String :=
  let mi := MappedImage.ofFile file map
  let size := map.size
  let step := 4 * mib
  -- every step but the last is a full one, so step `k` begins at `k * step`
  let acc := (List.range (divCeil size step)).foldl (identityStep B mi size step)
    (Digest.new map.hashAlgo, [])
  let ss := max map.sectorSize 1
  let lastStart := (size - mib) / ss * ss
  let n := size - lastStart
  let lastMib := if 0 < n then (mi.readAt B lastStart n).1 else []
  (acc.1.finalizeHex B, hashBytes B map.hashAlgo acc.2, hashBytes B map.hashAlgo lastMib)

/-- `compute_identity` on the output path. -/
def identityOf (B : Backend) (env : Env) (map : ImageMap) :
    ImageCmd σ (String × String × String) := do
  mayFail env .openImage
  let out ← Cmd.gets fun w : World σ => w.disk.out
  match out with
  | .regular f => pure (computeIdentity B f map)
  | _ => Cmd.fail (.os .openImage)

/-! ## Opening -/

/-- The map of a run that does not go by one on disk. -/
def freshMap (src : BlockSource σ) (opts : ImageOptions) : ImageMap :=
  ImageMap.new src.id src.len src.sector
    (roundUp (max opts.chunkSize src.sector) src.sector) opts.hashAlgo opts.compression

/-- Load or create the map.  On resume the map on disk decides: one that does not load, or that is
of another source, is an error. -/
def openMap (src : BlockSource σ) (mapPath : String) (opts : ImageOptions) :
    ImageCmd σ ImageMap := do
  let file ← Cmd.gets fun w : World σ => w.disk.map
  match opts.resume, file with
  | true, .saved m =>
    if m.sourceId ≠ src.id ∨ m.size ≠ src.len then
      let theirs := m.sourceId
      let theirSize := m.size
      let ours := src.id
      let ourSize := src.len
      Cmd.fail (.invalidData (s!"resume: map {mapPath} is for source {theirs} " ++
        s!"({theirSize} bytes), not {ours} ({ourSize} bytes)"))
    else if m.chunkSize = 0 then Cmd.fail (.invalidData "resume: map has zero chunk size")
    else pure m
  | true, .unreadable => Cmd.fail .badMap
  | _, _ => pure (freshMap src opts)

/-- Whether a run appends to what is there: only on resume, and only if the map records work. -/
def isResuming (opts : ImageOptions) (map : ImageMap) : Bool :=
  opts.resume && (!map.frames.isEmpty || map.chunkHashes.any (·.isSome))

/-- Open the destination: append to an existing one when resuming, else create it. -/
def openDest (env : Env) (outPath : String) (opts : ImageOptions) (map : ImageMap) :
    ImageCmd σ ImageDest := do
  let out ← Cmd.gets fun w : World σ => w.disk.out
  if isResuming opts map && decide (out ≠ .absent) then
    ImageDest.openAppend env outPath map.compression opts.sparse map.frames
  else ImageDest.create env outPath map.compression opts.sparse

/-! ## The chunk loop -/

namespace ImageMap

/-- Record the sectors of a chunk at `offset` that stayed bad. -/
def recordBad (m : ImageMap) (offset sector : ℕ) (stillBad : List ℕ) : ImageMap :=
  { m with bad := m.bad ++ stillBad.map fun s => ⟨offset / sector + s, 1⟩ }

/-- Record the hash of chunk `i`. -/
def recordHash (m : ImageMap) (i : ℕ) (h : String) : ImageMap :=
  { m with chunkHashes := m.chunkHashes.set i (some h) }

end ImageMap

namespace RunState

/-- The map as a save writes it: with the destination's frame index. -/
def snapshot (st : RunState) : ImageMap := { st.map with frames := st.dest.frames }

/-- The same with its bad runs coalesced. -/
def coalesced (st : RunState) : ImageMap :=
  { st.snapshot with bad := coalesce st.map.bad }

end RunState

/-- After every 64th chunk, save the map; a failing save is ignored. -/
def checkpoint (env : Env) (i : ℕ) (st : RunState) : ImageCmd σ RunState := do
  let since := st.chunksSinceCkpt + 1
  if 64 ≤ since then
    let st' : RunState := { st with map := st.coalesced, chunksSinceCkpt := 0 }
    (saveMap env (.checkpoint i) st'.map).attempt
    pure st'
  else pure { st with chunksSinceCkpt := since }

/-- Read, record and write chunk `i`. -/
def imageChunk (B : Backend) (src : BlockSource σ) (opts : ImageOptions) (env : Env) (i : ℕ)
    (st : RunState) : ImageCmd σ RunState := do
  let offset := i * st.map.chunkSize
  let len := min (src.len - offset) st.map.chunkSize
  let chunk ← onDevice (readChunk src opts.retries opts.reversePass offset len)
  let map := (st.map.recordBad offset src.sector chunk.stillBad).recordHash i
    (hashBytes B st.map.hashAlgo chunk.buf)
  let dest ← st.dest.writeChunk B env i offset chunk.buf
  checkpoint env i
    { st with map := map, dest := dest, badTotal := st.badTotal + chunk.stillBad.length }

/-- Save what there is and give up. -/
def cancelRun (env : Env) (st : RunState) : ImageCmd σ ImageOutcome := do
  (saveMap env .saveOnCancel st.snapshot).attempt
  (ImageDest.sync env .syncOnCancel).attempt
  pure ⟨false, decide (0 < st.badTotal), st.badTotal, none⟩

/-- One turn of the chunk loop. -/
def imageStep (B : Backend) (src : BlockSource σ) (opts : ImageOptions) (env : Env) (i : ℕ)
    (st : RunState) : ImageCmd σ (Exit ⊕ RunState) :=
  if env.cancel i then do
    let outcome ← cancelRun env st
    pure (.inl (.returned outcome))
  else if st.map.isChunkDone i then pure (.inr st)
  else if min (src.len - i * st.map.chunkSize) st.map.chunkSize = 0 then pure (.inl (.broke st))
  else do
    let st' ← imageChunk B src opts env i st
    pure (.inr st')

/-! ## The run -/

/-- Hash the finished output if every chunk is done, and save the map. -/
def sealImage (B : Backend) (env : Env) (st : RunState) : ImageCmd σ ImageOutcome :=
  let map := st.coalesced
  if map.chunkHashes.all (·.isSome) then do
    let (whole, firstMib, lastMib) ← identityOf B env { map with complete := true }
    saveMap env .saveMap { map with
      complete := true, wholeHash := some whole, firstMibHash := some firstMib,
      lastMibHash := some lastMib }
    pure ⟨true, decide (0 < st.badTotal), st.badTotal, some whole⟩
  else do
    saveMap env .saveMap { map with complete := false }
    pure ⟨false, decide (0 < st.badTotal), st.badTotal, none⟩

/-- The end of a run: complete the output, hash it and save the map. -/
def finalize (B : Backend) (src : BlockSource σ) (env : Env) (st : RunState) :
    ImageCmd σ ImageOutcome := do
  st.dest.setLogicalLen env src.len
  ImageDest.sync env .sync
  sealImage B env st

/-- The chunk loop and the end of a run. -/
def imageFrom (B : Backend) (src : BlockSource σ) (opts : ImageOptions) (env : Env)
    (map : ImageMap) (dest : ImageDest) : ImageCmd σ ImageOutcome := do
  let ended ← Cmd.forEach (List.range map.numChunks) (imageStep B src opts env)
    ⟨map, dest, map.badSectors, 0⟩
  match ended with
  | .inl (.returned outcome) => pure outcome
  | .inl (.broke st) => finalize B src env st
  | .inr st => finalize B src env st

/-- `image`: image `src` to the output path, with its map beside it. -/
def image (B : Backend) (src : BlockSource σ) (outPath mapPath : String) (opts : ImageOptions)
    (env : Env) : ImageCmd σ ImageOutcome := do
  let map ← openMap src mapPath opts
  let dest ← openDest env outPath opts map
  imageFrom B src opts env map dest

/-! ## Verification -/

/-- The result of `verify-image`. -/
structure VerifyReport where
  wholeOk : Bool
  chunkMismatches : ℕ
  chunksChecked : ℕ
  badSectors : ℕ
  deriving DecidableEq, Repr

/-- What the verification loop has counted and hashed so far. -/
structure VerifyState where
  mismatches : ℕ
  checked : ℕ
  whole : Digest

/-- Chunk `i` of the verification loop. -/
def verifyChunk (B : Backend) (mi : MappedImage) (map : ImageMap) (i : ℕ)
    (expect : Option String) (s : VerifyState) : VerifyState :=
  let cs := max map.chunkSize 1
  let off := i * cs
  let b := (mi.readAt B off (min (map.size - off) cs)).1
  match expect with
  | none => { s with whole := s.whole.update b }
  | some exp =>
    { mismatches := if hashBytes B map.hashAlgo b = exp then s.mismatches else s.mismatches + 1
      checked := s.checked + 1
      whole := s.whole.update b }

/-- The verification loop from chunk `i` on. -/
def verifyChunks (B : Backend) (mi : MappedImage) (map : ImageMap) :
    ℕ → List (Option String) → VerifyState → VerifyState
  | _, [], s => s
  | i, expect :: rest, s =>
    if map.size ≤ i * max map.chunkSize 1 then s
    else verifyChunks B mi map (i + 1) rest (verifyChunk B mi map i expect s)

/-- `verify_image` on an image file and its map. -/
def verifyImage (B : Backend) (file : Bytes) (map : ImageMap) : VerifyReport :=
  let mi := MappedImage.ofFile file map
  let s := verifyChunks B mi map 0 map.chunkHashes ⟨0, 0, Digest.new map.hashAlgo⟩
  { wholeOk := match map.wholeHash with
      | some h => decide (s.whole.finalizeHex B = h)
      | none => false
    chunkMismatches := s.mismatches
    chunksChecked := s.checked
    badSectors := map.badSectors }

end Reclaim
