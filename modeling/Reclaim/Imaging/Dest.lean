import Reclaim.Foundation.CrashLogic
import Reclaim.Block.Source
import Reclaim.Imaging.Map

/-!
# The world of an imaging run, and the image destination

A run of the imager touches two files and one source.  `World σ` holds them: the output node and
the map file on `disk`, and the source in use.  `saves` counts, for every map that reached the
disk, how many reads had been made by then; nothing in the program reads it.

`Env` is what a run does not control: whether the cancel flag is up before a chunk, which file
operations fail, and how much of a failing write still reaches the file.  A write passes through
every prefix of its data, so a crash can cut it anywhere; a map is written beside and renamed into
place, so a crash leaves the old map or the new one.
-/

namespace Reclaim

open FileBytes CrashLogic

variable {σ : Type}

/-- What is at the output path: nothing, a regular file, or a node that is not a regular file. -/
inductive OutNode where
  | absent
  | regular (bytes : Bytes)
  | special
  deriving DecidableEq

/-- What is at the map path: nothing, a file that does not parse as a map, or a map. -/
inductive MapFile where
  | absent
  | unreadable
  | saved (m : ImageMap)
  deriving DecidableEq

/-- The two files of an image; `synced` is the output as of its last completed sync. -/
structure Disk where
  out : OutNode
  map : MapFile
  synced : OutNode
  deriving DecidableEq

/-- The two files, the source in use, and how many reads each saved map came after. -/
structure World (σ : Type) where
  disk : Disk
  device : Device σ
  saves : List ℕ

/-- The file operations of a run that may fail. -/
inductive FileOp where
  | openOutput
  | writeChunk (i : ℕ)
  | checkpoint (i : ℕ)
  | saveOnCancel
  | syncOnCancel
  | setLen
  | sync
  | openImage
  | saveMap
  deriving DecidableEq, Repr

/-- What a run does not control. -/
structure Env where
  cancel : ℕ → Bool
  fault : FileOp → Bool
  written : ℕ → ℕ

/-- A run that nothing disturbs. -/
def Env.quiet : Env where
  cancel := fun _ => false
  fault := fun _ => false
  written := fun _ => 0

/-- Errors of the imager: the operating system's, and its own with their texts. -/
inductive ImageError where
  | os (op : FileOp)
  | badMap
  | permissionDenied (message : String)
  | invalidData (message : String)
  deriving DecidableEq, Repr

/-- A command of the imager. -/
abbrev ImageCmd (σ α : Type) : Type := Cmd (World σ) ImageError α

namespace World

/-- The world with another output node. -/
def withOut (w : World σ) (o : OutNode) : World σ := { w with disk := { w.disk with out := o } }

/-- The world with another device. -/
def withDevice (w : World σ) (d : Device σ) : World σ := { w with device := d }

/-- The world after a map was renamed into place. -/
def saveMap (w : World σ) (m : ImageMap) : World σ :=
  { w with disk := { w.disk with map := .saved m }, saves := w.saves ++ [w.device.reads.length] }

/-- The world after the output was flushed to disk. -/
def syncOut (w : World σ) : World σ := { w with disk := { w.disk with synced := w.disk.out } }

@[simp] lemma disk_out_withOut (w : World σ) (o : OutNode) : (w.withOut o).disk.out = o := rfl
@[simp] lemma disk_map_withOut (w : World σ) (o : OutNode) :
    (w.withOut o).disk.map = w.disk.map := rfl
@[simp] lemma device_withOut (w : World σ) (o : OutNode) : (w.withOut o).device = w.device := rfl
@[simp] lemma saves_withOut (w : World σ) (o : OutNode) : (w.withOut o).saves = w.saves := rfl
@[simp] lemma disk_withDevice (w : World σ) (d : Device σ) : (w.withDevice d).disk = w.disk := rfl
@[simp] lemma device_withDevice (w : World σ) (d : Device σ) : (w.withDevice d).device = d := rfl
@[simp] lemma saves_withDevice (w : World σ) (d : Device σ) :
    (w.withDevice d).saves = w.saves := rfl
@[simp] lemma disk_out_saveMap (w : World σ) (m : ImageMap) :
    (w.saveMap m).disk.out = w.disk.out := rfl
@[simp] lemma disk_map_saveMap (w : World σ) (m : ImageMap) :
    (w.saveMap m).disk.map = .saved m := rfl
@[simp] lemma device_saveMap (w : World σ) (m : ImageMap) : (w.saveMap m).device = w.device := rfl
@[simp] lemma saves_saveMap (w : World σ) (m : ImageMap) :
    (w.saveMap m).saves = w.saves ++ [w.device.reads.length] := rfl
@[simp] lemma disk_out_syncOut (w : World σ) : w.syncOut.disk.out = w.disk.out := rfl
@[simp] lemma disk_map_syncOut (w : World σ) : w.syncOut.disk.map = w.disk.map := rfl
@[simp] lemma device_syncOut (w : World σ) : w.syncOut.device = w.device := rfl
@[simp] lemma disk_synced_withOut (w : World σ) (o : OutNode) :
    (w.withOut o).disk.synced = w.disk.synced := rfl
@[simp] lemma disk_synced_saveMap (w : World σ) (m : ImageMap) :
    (w.saveMap m).disk.synced = w.disk.synced := rfl
@[simp] lemma disk_synced_syncOut (w : World σ) : w.syncOut.disk.synced = w.disk.out := rfl
@[simp] lemma saves_syncOut (w : World σ) : w.syncOut.saves = w.saves := rfl

end World

/-! ## Primitive commands -/

/-- Fail if the environment says so. -/
def mayFail (env : Env) (op : FileOp) : ImageCmd σ Unit :=
  if env.fault op then Cmd.fail (.os op) else Cmd.ret ()

/-- Read the source; the disk does not change. -/
def onDevice {α : Type} (f : Device σ → α × Device σ) : ImageCmd σ α :=
  Cmd.update fun w => ((f w.device).1, w.withDevice (f w.device).2)

/-- Change the output node in one indivisible step. -/
def setOut (o : OutNode) : ImageCmd σ Unit := Cmd.update fun w => ((), w.withOut o)

/-- `ImageMap::save`: write a temporary file and rename it into place. -/
def saveMap (env : Env) (op : FileOp) (m : ImageMap) : ImageCmd σ Unit :=
  mayFail env op >>= fun _ => Cmd.update fun w => ((), w.saveMap m)

/-- The output file after a write to it. -/
def OutNode.write (o : OutNode) (off : ℕ) (d : Bytes) : OutNode :=
  match o with
  | .regular f => .regular (writeAt f off d)
  | o => o

/-- `write_all` at an offset, for chunk `i`: every prefix may be what a crash leaves, and a
failing write leaves one. -/
def writeAll (env : Env) (i off : ℕ) (d : Bytes) : ImageCmd σ Unit := fun w =>
  let reach := if env.fault (.writeChunk i) then min (env.written i) d.length else d.length
  { passed := (List.range (reach + 1)).map fun k => w.withOut (w.disk.out.write off (d.take k))
    final := w.withOut (w.disk.out.write off (d.take reach))
    result := if env.fault (.writeChunk i) then .error (.os (.writeChunk i)) else .ok () }

variable {α : Type} {C : World σ → Prop} {E : ImageError → World σ → Prop}

@[simp] lemma wp_mayFail {Q : Unit → World σ → Prop} {env : Env} {op : FileOp} {w : World σ} :
    wp C E Q (mayFail env op) w ↔ if env.fault op then E (.os op) w else Q () w := by
  unfold mayFail
  split <;> simp

@[simp] lemma wp_onDevice {Q : α → World σ → Prop} {f : Device σ → α × Device σ} {w : World σ} :
    wp C E Q (onDevice f) w ↔ C w ∧ Q (f w.device).1 (w.withDevice (f w.device).2) := by
  simp [onDevice]

@[simp] lemma wp_setOut {Q : Unit → World σ → Prop} {o : OutNode} {w : World σ} :
    wp C E Q (setOut o) w ↔ C w ∧ Q () (w.withOut o) := by
  simp [setOut]

lemma wp_saveMap {Q : Unit → World σ → Prop} {env : Env} {op : FileOp} {m : ImageMap}
    {w : World σ} : wp C E Q (saveMap env op m) w ↔
      if env.fault op then E (.os op) w else C w ∧ Q () (w.saveMap m) := by
  simp [saveMap]

/-- A write leaves some prefix of its data, and all of it when it returns. -/
lemma wp_writeAll {Q : Unit → World σ → Prop} {env : Env} {i off : ℕ} {d : Bytes} {w : World σ}
    (crash : ∀ k, C (w.withOut (w.disk.out.write off (d.take k))))
    (error : ∀ k, env.fault (.writeChunk i) = true →
      E (.os (.writeChunk i)) (w.withOut (w.disk.out.write off (d.take k))))
    (ok : env.fault (.writeChunk i) = false → Q () (w.withOut (w.disk.out.write off d))) :
    wp C E Q (writeAll env i off d) w := by
  refine ⟨fun v hv => ?_, ?_⟩
  · obtain ⟨k, -, rfl⟩ := List.mem_map.1 hv
    exact crash k
  · unfold writeAll
    by_cases h : env.fault (.writeChunk i) = true
    · simpa [h] using error _ h
    · simpa [h] using ok (Bool.eq_false_iff.2 h)

/-! ## The image destination -/

/-- The image output file as the imager holds it. -/
structure ImageDest where
  compression : Compression
  sparse : Bool
  appendCursor : ℕ
  frames : List FrameEntry
  deriving DecidableEq, Repr

namespace ImageDest

/-- `refuse_non_regular`: never write to a node that is not a regular file. -/
def refuseNonRegular (path : String) : ImageCmd σ Unit := do
  let out ← Cmd.gets fun w : World σ => w.disk.out
  if out = .special then
    Cmd.fail (.permissionDenied s!"refusing image destination {path}: not a regular file")
  else pure ()

/-- Create (truncating) a new destination. -/
def create (env : Env) (path : String) (compression : Compression) (sparse : Bool) :
    ImageCmd σ ImageDest := do
  refuseNonRegular path
  mayFail env .openOutput
  setOut (.regular [])
  pure ⟨compression, sparse, 0, []⟩

/-- Where appending starts: behind the last frame of the index. -/
def appendCursorOf (compression : Compression) (frames : List FrameEntry) : ℕ :=
  match compression with
  | .zstd => (frames.map fun f => f.fileOffset + f.compressed).foldl max 0
  | .none => 0

/-- Open an existing destination for resume, without truncation. -/
def openAppend (env : Env) (path : String) (compression : Compression) (sparse : Bool)
    (frames : List FrameEntry) : ImageCmd σ ImageDest := do
  refuseNonRegular path
  mayFail env .openOutput
  pure ⟨compression, sparse, appendCursorOf compression frames, frames⟩

/-- Write chunk `i`, whose place in the image is `imageOffset`. -/
def writeChunk (B : Backend) (env : Env) (i : ℕ) (dest : ImageDest) (imageOffset : ℕ)
    (data : Bytes) : ImageCmd σ ImageDest :=
  match dest.compression with
  | .none =>
    -- sparse: skip an all-zero chunk, leaving a hole
    if dest.sparse && data.all (· == 0) then pure dest
    else do
      writeAll env i imageOffset data
      pure dest
  | .zstd => do
    let compressed := B.compress data
    writeAll env i dest.appendCursor compressed
    pure { dest with
      appendCursor := dest.appendCursor + compressed.length
      frames := dest.frames ++ [⟨imageOffset, dest.appendCursor, min data.length u32Max,
        min compressed.length u32Max⟩] }

/-- For raw output, set the file's length so that trailing holes are right. -/
def setLogicalLen (env : Env) (dest : ImageDest) (size : ℕ) : ImageCmd σ Unit :=
  match dest.compression with
  | .none => do
    mayFail env .setLen
    let out ← Cmd.gets fun w : World σ => w.disk.out
    match out with
    | .regular f => setOut (.regular (setLen f size))
    | _ => pure ()
  | .zstd => pure ()

/-- Flush to disk. -/
def sync (env : Env) (op : FileOp) : ImageCmd σ Unit := do
  mayFail env op
  Cmd.update fun w => ((), w.syncOut)

end ImageDest

end Reclaim
