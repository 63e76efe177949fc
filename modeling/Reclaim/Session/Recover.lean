import Reclaim.Carve.Reader
import Reclaim.Foundation.FileTree
import Reclaim.Session.RecoveryPath

/-!
# Recovery

`recoverRecords` copies the extents of each selected record to a file below the destination, under
a collision policy, hashes what it writes, reads it back on request, and lists the files in
`manifest.json`.  A record whose file cannot be written is skipped.

`RecoverEnv` is what a run does not control: which file operations fail, how far a failing one
gets, and what a path of the destination resolves to.
-/

namespace Reclaim

open FileBytes FileTree Paths

variable {σ : Type}

/-- Name-collision policy. -/
inductive Collision where
  /-- Append `-1`, `-2`, … to avoid clobbering. -/
  | rename
  /-- Skip if the destination exists. -/
  | skip
  | overwrite
  deriving DecidableEq, Repr

/-- Recovery options. -/
structure RecoverOpts where
  preservePaths : Bool
  flat : Bool
  collision : Collision
  verify : Bool
  deriving DecidableEq, Repr

/-- Per-file recovery outcome; `path` is relative to the destination. -/
structure RecoveredFile where
  id : String
  path : List String
  len : ℕ
  validity : Validity
  blake3 : String
  verified : Option Bool
  deriving DecidableEq

/-- Summary of a recover run. -/
structure RecoverSummary where
  recovered : ℕ
  skipped : ℕ
  partialCount : ℕ
  verifyFailed : ℕ
  bytes : ℕ
  files : List RecoveredFile
  deriving DecidableEq

/-- What the manifest says. -/
structure Manifest where
  sourceId : String
  dest : FilePath
  count : ℕ
  partialCount : ℕ
  verifyFailed : ℕ
  files : List RecoveredFile

/-- What a run does not control.  Operations are numbered by the record they are for; `dirsMade`
and `room` say how many directories, or bytes of the file, are made before one fails. -/
structure RecoverEnv where
  resolve : FilePath → FilePath
  createDest : Bool
  createDir : ℕ → Bool
  dirsMade : ℕ → ℕ
  openFile : ℕ → Bool
  room : ℕ → Option ℕ
  flush : ℕ → Bool
  readBack : ℕ → Bool
  openManifest : Bool
  manifestRoom : Option ℕ
  /-- `serde_json::to_string_pretty` on the manifest. -/
  manifestText : Manifest → Bytes

/-- The files at the destination, and the source. -/
structure RecoverWorld (σ : Type) where
  tree : Files FilePath
  src : σ

/-! ## Choosing a path -/

/-- `file_stem` and `extension` of a file name. -/
def stemAndExt (name : String) : String × Option String :=
  match Text.rsplitOnce '.' name.toList with
  | some (before, after) =>
    if before = [] ∨ name = ".." then (name, none)
    else (String.ofList before, some (String.ofList after))
  | none => (name, none)

/-- The name tried in place of a taken one. -/
def numbered (name : String) (n : ℕ) : String :=
  let (stem, ext) := stemAndExt name
  match ext with
  | some e => stem ++ "-" ++ toString n ++ "." ++ e
  | none => stem ++ "-" ++ toString n

/-- Candidates for a path below the destination, in the order they are tried. -/
def candidates (rel : List String) : List (List String) :=
  (List.range' 1 99999).map fun n => rel.dropLast ++ [numbered (rel.getLast?.getD "") n]

/-- Where a record goes: the path if nothing is there, or what the policy says. -/
def resolveCollision (env : RecoverEnv) (dest : FilePath) (rel : List String) (policy : Collision)
    (t : Files FilePath) : Option (List String) :=
  if t.occupied env.resolve (dest.join rel) then
    match policy with
    | .overwrite => some rel
    | .skip => none
    | .rename => (candidates rel).find? fun c => !t.occupied env.resolve (dest.join c)
  else some rel

/-! ## Copying -/

def copyChunk : ℕ := 4 * 1024 * 1024

/-- The reads that copy an extent; the offset is a `u64` that wraps. -/
def Extent.windows (e : Extent) : List (ℕ × ℕ) :=
  (List.range (divCeil e.len copyChunk)).map fun k =>
    ((e.offset + k * copyChunk) % 2 ^ 64, min (e.len - k * copyChunk) copyChunk)

/-- What a copy has written, hashed and flagged so far. -/
structure Copy where
  written : Bytes
  digest : Digest
  suspect : Bool

/-- Copy the windows one by one; `none` as the room is no limit.  On a failing write the bytes
that still fit are written, and nothing more is read. -/
def copyWindows (src : BlockSource σ) (room : Option ℕ) :
    List (ℕ × ℕ) → Copy → σ → (Bool × Copy) × σ
  | [], c, s => ((true, c), s)
  | (off, n) :: rest, c, s =>
    let r := SourceReader.readFlags src off n s
    let suspect := c.suspect || r.1.2
    if (room.any fun k => decide (k < c.written.length + r.1.1.length)) = true then
      ((false, { c with
        written := c.written ++ r.1.1.take (room.getD 0 - c.written.length), suspect := suspect }),
        r.2)
    else copyWindows src room rest
      ⟨c.written ++ r.1.1, c.digest.update r.1.1, suspect⟩ r.2

/-- `write_extent`: the hash of the bytes written and whether any came from a sector that was not
good. -/
def writeExtent (B : Backend) (src : BlockSource σ) (env : RecoverEnv) (i : ℕ)
    (rec : CarvedRecord) (path : FilePath) (w : RecoverWorld σ) :
    Option (String × Bool) × RecoverWorld σ :=
  if env.openFile i then (none, w)
  else
    let c := copyWindows src (env.room i) (rec.extents.flatMap Extent.windows)
      ⟨[], Digest.new .blake3, false⟩ w.src
    match w.tree.write env.resolve path c.1.2.written with
    | none => (none, w)
    | some tree =>
      (if c.1.1 && !env.flush i then some (c.1.2.digest.finalizeHex B, c.1.2.suspect) else none,
        ⟨tree, c.2⟩)

/-- `verify_file`: read a written file back and compare its hash; `none` is an error. -/
def verifyFile (B : Backend) (env : RecoverEnv) (i : ℕ) (path : FilePath) (expected : String)
    (t : Files FilePath) : Option Bool :=
  if env.readBack i then none
  else match t (env.resolve path) with
    | some (.file d _) => some (decide (hashBytes B .blake3 d = expected))
    | _ => none

/-! ## The run -/

/-- Make the directory a record goes to; a failure may leave some of it. -/
def createParent (env : RecoverEnv) (i : ℕ) (path : FilePath) (t : Files FilePath) :
    Option Unit × Files FilePath :=
  match path.parent with
  | none => (some (), t)
  | some parent =>
    if env.createDir i then
      (none, t.mkdirs env.resolve (parent.ancestors.reverse.take (env.dirsMade i)))
    else match t.createDirAll env.resolve parent.ancestors with
      | some t' => (some (), t')
      | none => (none, t)

/-- What the loop carries. -/
structure RecoverState (σ : Type) where
  summary : RecoverSummary
  world : RecoverWorld σ

/-- Count a record that is skipped. -/
def RecoverSummary.skip (s : RecoverSummary) : RecoverSummary := { s with skipped := s.skipped + 1 }

/-- Count and list a recovered file. -/
def RecoverSummary.add (s : RecoverSummary) (f : RecoveredFile) : RecoverSummary where
  recovered := s.recovered + 1
  skipped := s.skipped
  partialCount := if f.validity = .full then s.partialCount else s.partialCount + 1
  verifyFailed := if f.verified = some false then s.verifyFailed + 1 else s.verifyFailed
  bytes := saturatingAdd s.bytes f.len
  files := s.files ++ [f]

/-- The path that record `i` is written to, and the tree once its directory is made: `none` when
the record is skipped before its file is opened. -/
def chooseTarget (env : RecoverEnv) (dest : FilePath) (opts : RecoverOpts) (i : ℕ)
    (rec : CarvedRecord) (t : Files FilePath) : Option (List String) × Files FilePath :=
  let rel := outRelPath rec opts.preservePaths opts.flat
  -- `out_path.starts_with(dest)` holds of every path below it
  if ¬ dest.comps <+: (dest.join rel).comps then (none, t)
  else
    let made := createParent env i (dest.join rel) t
    match made.1 with
    | none => (none, made.2)
    | some () => (resolveCollision env dest rel opts.collision made.2, made.2)

/-- One record. -/
def recoverOne (B : Backend) (src : BlockSource σ) (env : RecoverEnv) (dest : FilePath)
    (opts : RecoverOpts) (st : RecoverState σ) (rec : CarvedRecord × ℕ) : RecoverState σ :=
  let (rec, i) := rec
  let target := chooseTarget env dest opts i rec st.world.tree
  match target.1 with
  | none => ⟨st.summary.skip, { st.world with tree := target.2 }⟩
  | some rel =>
    let copied := writeExtent B src env i rec (dest.join rel) { st.world with tree := target.2 }
    match copied.1 with
    | none => ⟨st.summary.skip, copied.2⟩
    | some (hash, suspect) =>
      let validity := if suspect = true ∧ rec.validity = .full then .suspect else rec.validity
      let verified := if opts.verify then
        some ((verifyFile B env i (dest.join rel) hash copied.2.tree).getD false) else none
      ⟨st.summary.add ⟨rec.id, rel, rec.len, validity, hash, verified⟩, copied.2⟩

/-- The records one after the other. -/
def recoverLoop (B : Backend) (src : BlockSource σ) (env : RecoverEnv) (dest : FilePath)
    (opts : RecoverOpts) (records : List CarvedRecord) (w : RecoverWorld σ) : RecoverState σ :=
  records.zipIdx.foldl (recoverOne B src env dest opts) ⟨⟨0, 0, 0, 0, 0, []⟩, w⟩

/-- Where the manifest goes. -/
def manifestPath (dest : FilePath) : FilePath := dest.join ["manifest.json"]

/-- Write the manifest; an error leaves what fits of it. -/
def writeManifest (env : RecoverEnv) (dest : FilePath) (text : Bytes) (t : Files FilePath) :
    Bool × Files FilePath :=
  if env.openManifest then (false, t)
  else
    let fits := !(env.manifestRoom.any fun k => decide (k < text.length))
    match t.write env.resolve (manifestPath dest)
      (if fits then text else text.take (env.manifestRoom.getD 0)) with
    | none => (false, t)
    | some t' => (fits, t')

/-- `recover_records`: copy each record's extents to `dest` and write `dest/manifest.json`. -/
def recoverRecords (B : Backend) (src : BlockSource σ) (env : RecoverEnv) (dest : FilePath)
    (sourceId : String) (records : List CarvedRecord) (opts : RecoverOpts) (w : RecoverWorld σ) :
    Option RecoverSummary × RecoverWorld σ :=
  if env.createDest then (none, w)
  else match w.tree.createDirAll env.resolve dest.ancestors with
    | none => (none, w)
    | some tree =>
      let st := recoverLoop B src env dest opts records { w with tree := tree }
      let text := env.manifestText ⟨sourceId, dest, st.summary.recovered, st.summary.partialCount,
        st.summary.verifyFailed, st.summary.files⟩
      let manifest := writeManifest env dest text st.world.tree
      (if manifest.1 then some st.summary else none, { st.world with tree := manifest.2 })

end Reclaim
