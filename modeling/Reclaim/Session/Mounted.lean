import Reclaim.Foundation.DirTree
import Reclaim.Session.FrontEnds
import Reclaim.Session.RecoveryPath

/-!
# Mounted volumes

A mounted volume is walked through its file names.  Each file becomes a row whose path is the
decoded text of its names, with backslashes turned into slashes; recovery joins that text to the
root and reads what it finds there.  The text leads back to the file when the names are texts
without a backslash, as `Session/MountedPaths` shows.

The walk and the recovery see one tree: nothing changes on the volume between them, and the
destination is not on it.
-/

namespace Reclaim

open DirTree FileBytes FileTree Paths

/-! ## The walk -/

/-- What can be read of a volume: directories, entries with their types, and sizes. -/
structure WalkEnv where
  opens : List Name → Bool
  lists : List Name → Bool
  sizes : List Name → Bool

/-- The text a path is stored under. -/
def relText (path : List Name) : String :=
  String.ofList ((Text.utf8Decode 0 0 0 0 ([slash].intercalate path)).map fun c =>
    if c = '\\' then '/' else c)

/-- A file below a Trash directory. -/
def inTrash (path : List Name) : Bool :=
  path.any fun name => [".Trash", ".Trashes", "Trash"].contains (Text.fromUtf8Lossy name)

/-- The row of a file. -/
def mountedRow (sigs : List SigDef) (path : List Name) (len : ℕ) : EntryRow :=
  let rel := relText path
  let ext := extOf rel
  let family := familyForExt sigs ext
  { path := rel
    name := Text.fromUtf8Lossy (path.getLast?.getD [])
    state := if inTrash path then "deleted" else "live"
    family := family
    ext := ext
    format := if ext = "" then "file" else family ++ "." ++ ext
    offset := pseudoOffset rel
    len := len
    extents := []
    date := none
    contiguousAssumed := false }

/-- What the walk carries; paths are relative to the root. -/
structure WalkState where
  stack : List (List Name)
  budget : ℕ
  /-- The files found, with their rows. -/
  rows : List (List Name × EntryRow)

/-- One entry of a directory. -/
def walkEntry (sigs : List SigDef) (env : WalkEnv) (dir : List Name) (st : WalkState)
    (e : Name × DirTree.Node) : WalkState :=
  let path := dir ++ [e.1]
  if env.lists path then
    match e.2 with
    -- never follow symlinks
    | .symlink _ => st
    | .dir _ => { st with stack := path :: st.stack }
    | .other => st
    | .file data => { st with
        budget := st.budget - 1
        rows := st.rows ++
          [(path, mountedRow sigs path (if env.sizes path then data.length else 0))] }
  else st

/-- The entries of a directory, if it can be read. -/
def readDir (v : DirTree.Volume) (env : WalkEnv) (base dir : List Name) :
    List (Name × DirTree.Node) :=
  if env.opens dir then
    match v.root.locate (base ++ dir) with
    | some (.dir entries) => entries
    | _ => []
  else []

/-- The directories on the stack, as far as the budget goes; `fuel` of them at most. -/
def walkLoop (sigs : List SigDef) (v : DirTree.Volume) (env : WalkEnv) (base : List Name) :
    ℕ → WalkState → WalkState
  | 0, st => st
  | fuel + 1, st =>
    match st.stack with
    | [] => st
    | dir :: stack =>
      if st.budget = 0 then { st with stack := stack }
      else walkLoop sigs v env base fuel
        ((readDir v env base dir).foldl (walkEntry sigs env dir) { st with stack := stack })

/-- The files that a walk looks at, at most. -/
def walkBudget : ℕ := 5000000

/-- How many directories there are at a place and below it. -/
def dirsAt (v : DirTree.Volume) (place : List Name) : ℕ :=
  ((v.root.locate place).map Node.dirCount).getD 0

/-- The walk from its beginning; there is fuel for every directory. -/
def mountedWalk (sigs : List SigDef) (v : DirTree.Volume) (env : WalkEnv) (base : List Name) :
    WalkState :=
  walkLoop sigs v env base (dirsAt v base + 1) ⟨[[]], walkBudget, []⟩

/-- `run_mounted`: walk the volume at `base` and store the rows. -/
def runMounted (B : Backend) (sigs : List SigDef) (v : DirTree.Volume) (env : WalkEnv)
    (base : List Name) (sourceId : String) (t : Rows) : Rows :=
  insertEntries B sourceId "mounted" t ((mountedWalk sigs v env base).rows.map Prod.snd)

/-! ## The recovery -/

/-- What the manifest lists of a file. -/
structure MountedFile where
  id : String
  path : List String
  sourcePath : String
  len : ℕ
  state : Option String
  blake3 : String
  verified : Bool
  deriving DecidableEq

/-- The place that a row's path leads to. -/
def sourcePlace (v : DirTree.Volume) (links : ℕ) (base : List Name) (rec : CarvedRecord) :
    Option (List Name) := resolvePath v.root links base (utf8 rec.synthPath)

/-- Read the file that a row's path leads to. -/
def readSource? (v : DirTree.Volume) (links : ℕ) (base : List Name) (rec : CarvedRecord) :
    Option Bytes :=
  (sourcePlace v links base rec).bind v.root.dataAt

/-- `fs::write`: whether it succeeds, and what it leaves. -/
def writeWhole (env : RecoverEnv) (i : ℕ) (path : FilePath) (d : Bytes) (t : Files FilePath) :
    Bool × Files FilePath :=
  if env.openFile i then (false, t)
  else
    let fits := !((env.room i).any fun k => decide (k < d.length))
    match t.write env.resolve path (if fits then d else d.take ((env.room i).getD 0)) with
    | none => (false, t)
    | some t' => (fits, t')

/-- What the loop carries. -/
structure MountedState where
  files : List MountedFile
  missing : ℕ
  tree : Files FilePath

/-- Where the volume is mounted, as text. -/
def rootText (base : List Name) : List Char :=
  '/' :: ['/'].intercalate (base.map fun name => (Text.fromUtf8Lossy name).toList)

/-- One record: whether the run goes on, and its state. -/
def recoverMountedOne (B : Backend) (v : DirTree.Volume) (links : ℕ) (base : List Name)
    (env : RecoverEnv) (dest : FilePath) (opts : RecoverOpts) (st : MountedState)
    (rec : CarvedRecord × ℕ) : Bool × MountedState :=
  let (rec, i) := rec
  let rel := outRelPath rec opts.preservePaths opts.flat
  let made := createParent env i (dest.join rel) st.tree
  let st := { st with tree := made.2 }
  match made.1 with
  | none => (false, st)
  | some () =>
    match resolveCollision env dest rel opts.collision st.tree with
    | none => (true, st)
    | some rel =>
      match readSource? v links base rec with
      -- the live file is gone
      | none => (true, { st with missing := st.missing + 1 })
      | some bytes =>
        let digest := (Digest.new .blake3).update bytes
        let written := writeWhole env i (dest.join rel) bytes st.tree
        let st := { st with tree := written.2 }
        if written.1 then (true, { st with
          files := st.files ++ [{
            id := rec.id
            path := rel
            sourcePath := String.ofList (PathText.push (rootText base) rec.synthPath.toList)
            len := bytes.length
            state := rec.state
            blake3 := digest.finalizeHex B
            verified := opts.verify }] })
        else (false, st)

/-- The records one after the other, up to the first failure. -/
def recoverMountedLoop (B : Backend) (v : DirTree.Volume) (links : ℕ) (base : List Name)
    (env : RecoverEnv) (dest : FilePath) (opts : RecoverOpts) :
    List (CarvedRecord × ℕ) → MountedState → Bool × MountedState
  | [], st => (true, st)
  | rec :: rest, st =>
    let one := recoverMountedOne B v links base env dest opts st rec
    if one.1 then recoverMountedLoop B v links base env dest opts rest one.2 else one

/-- What the manifest says. -/
structure MountedDoc where
  sourceId : String
  session : String
  count : ℕ
  files : List MountedFile

/-- `recover_mounted`: select, copy by path, and write `dest/manifest.json`; what is listed, if the
run returns, and the files at the destination. -/
def recoverMounted (S : Sqlite) (B : Backend) (v : DirTree.Volume) (links : ℕ) (base : List Name)
    (env : RecoverEnv) (text : MountedDoc → Bytes) (session sourceId : String) (t : Rows)
    (args : Cli.RecoverArgs) (tree : Files FilePath) :
    Option (List MountedFile) × Files FilePath :=
  match args.selection with
  | none => (none, tree)
  | some filter =>
    let records := query S t filter
    if env.createDest then (none, tree)
    else match tree.createDirAll env.resolve args.dest.ancestors with
      | none => (none, tree)
      | some tree =>
        let loop := recoverMountedLoop B v links base env args.dest args.opts records.zipIdx
          ⟨[], 0, tree⟩
        if loop.1 then
          let st := loop.2
          let manifest := writeManifest env args.dest
            (text ⟨sourceId, session, st.files.length, st.files⟩) st.tree
          (if manifest.1 then some st.files else none, manifest.2)
        else (none, loop.2.tree)

end Reclaim
