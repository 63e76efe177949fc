import Reclaim.Session.Pages
import Reclaim.Session.Recover

/-!
# The two front ends of a recovery

The app selects rows by id and hands them to `recoverRecords`.  The CLI has a loop, an extent
writer and a manifest of its own: it reads without the sector flags, and an operation that fails
ends the run.  Choosing a path and reading a file back is the same code in both.

Both are modelled behind their guards: the source is open and the destination is not on its disk.
-/

namespace Reclaim

open FileBytes FileTree Paths

variable {σ : Type}

namespace Cli

/-- What the CLI lists of a recovered file. -/
structure ManifestFile where
  id : String
  path : List String
  sourceOffset : ℕ
  len : ℕ
  format : String
  validity : Validity
  blake3 : String
  verified : Bool
  deriving DecidableEq

/-- What the CLI's manifest says. -/
structure ManifestDoc where
  sourceId : String
  session : String
  count : ℕ
  files : List ManifestFile

/-- How a run that returns exits. -/
inductive Exit where
  | success
  | warnings
  deriving DecidableEq, Repr

/-- Flags for `recover`. -/
structure RecoverArgs where
  dest : FilePath
  ids : Option (List String)
  all : Bool
  filter : QueryFilter
  opts : RecoverOpts

/-- `is_empty_filter`; neither ids nor merged rows count. -/
def isEmptyFilter (f : QueryFilter) : Bool :=
  f.family.isNone && f.exts.isEmpty && f.minSize.isNone && !f.fullOnly

/-- What to select; `none` is a usage error. -/
def RecoverArgs.selection (args : RecoverArgs) : Option QueryFilter :=
  match args.ids with
  | some ids => some { args.filter with ids := some ids }
  | none =>
    if !args.all && args.filter.ids.isNone && isEmptyFilter args.filter then none
    else some args.filter

/-! ## Copying -/

/-- Copy the windows one by one; `none` as the room is no limit. -/
def copyWindows (src : BlockSource σ) (room : Option ℕ) :
    List (ℕ × ℕ) → Bytes × Digest → σ → (Bool × Bytes × Digest) × σ
  | [], c, s => ((true, c), s)
  | (off, n) :: rest, (written, digest), s =>
    let r := SourceReader.read src off n s
    if (room.any fun k => decide (k < written.length + r.1.length)) = true then
      ((false, written ++ r.1.take (room.getD 0 - written.length), digest), r.2)
    else copyWindows src room rest (written ++ r.1, digest.update r.1) r.2

/-- The CLI's `write_extent`: the hash of the bytes written. -/
def writeExtent (B : Backend) (src : BlockSource σ) (env : RecoverEnv) (i : ℕ)
    (rec : CarvedRecord) (path : FilePath) (w : RecoverWorld σ) : Option String × RecoverWorld σ :=
  if env.openFile i then (none, w)
  else
    let c := copyWindows src (env.room i) (rec.extents.flatMap Extent.windows)
      ([], Digest.new .blake3) w.src
    match w.tree.write env.resolve path c.1.2.1 with
    | none => (none, w)
    | some tree =>
      (if c.1.1 && !env.flush i then some (c.1.2.2.finalizeHex B) else none, ⟨tree, c.2⟩)

/-! ## The run -/

/-- What the loop carries. -/
structure State (σ : Type) where
  files : List ManifestFile
  partialCount : ℕ
  recovered : ℕ
  world : RecoverWorld σ

/-- Count a recovered file. -/
def State.count (st : State σ) (rec : CarvedRecord) : State σ :=
  { st with
    recovered := st.recovered + 1
    partialCount := if rec.validity = .full then st.partialCount else st.partialCount + 1 }

/-- One record: whether the run goes on, and its state. -/
def recoverOne (B : Backend) (src : BlockSource σ) (env : RecoverEnv) (dest : FilePath)
    (opts : RecoverOpts) (st : State σ) (rec : CarvedRecord × ℕ) : Bool × State σ :=
  let (rec, i) := rec
  let rel := outRelPath rec opts.preservePaths opts.flat
  if ¬ dest.comps <+: (dest.join rel).comps then (true, st)
  else
    let made := createParent env i (dest.join rel) st.world.tree
    let st := { st with world := { st.world with tree := made.2 } }
    match made.1 with
    | none => (false, st)
    | some () =>
      match resolveCollision env dest rel opts.collision made.2 with
      | none => (true, st)
      | some rel =>
        let copied := writeExtent B src env i rec (dest.join rel) st.world
        match copied.1 with
        | none => (false, { st with world := copied.2 })
        | some hash =>
          let st := { st with world := copied.2 }.count rec
          match if opts.verify then verifyFile B env i (dest.join rel) hash copied.2.tree
            else some false with
          | none => (false, st)
          | some verified => (true, { st with
              files := st.files ++ [⟨rec.id, rel, rec.offset, rec.len, rec.format, rec.validity,
                hash, verified⟩] })

/-- The records one after the other, up to the first failure. -/
def recoverLoop (B : Backend) (src : BlockSource σ) (env : RecoverEnv) (dest : FilePath)
    (opts : RecoverOpts) : List (CarvedRecord × ℕ) → State σ → Bool × State σ
  | [], st => (true, st)
  | rec :: rest, st =>
    let one := recoverOne B src env dest opts st rec
    if one.1 then recoverLoop B src env dest opts rest one.2 else one

/-- What a run that returns reports. -/
structure Report where
  exit : Exit
  recovered : ℕ
  partialCount : ℕ
  files : List ManifestFile
  deriving DecidableEq

/-- `recover`: select, copy, and write `dest/manifest.json`; `text` spells the manifest. -/
def recover (S : Sqlite) (B : Backend) (src : BlockSource σ) (env : RecoverEnv)
    (text : ManifestDoc → Bytes) (session sourceId : String) (t : Rows) (args : RecoverArgs)
    (w : RecoverWorld σ) : Option Report × RecoverWorld σ :=
  match args.selection with
  | none => (none, w)
  | some filter =>
    let records := query S t filter
    if env.createDest then (none, w)
    else match w.tree.createDirAll env.resolve args.dest.ancestors with
      | none => (none, w)
      | some tree =>
        let loop := recoverLoop B src env args.dest args.opts records.zipIdx
          ⟨[], 0, 0, { w with tree := tree }⟩
        if loop.1 then
          let st := loop.2
          let manifest := writeManifest env args.dest
            (text ⟨sourceId, session, st.files.length, st.files⟩) st.world.tree
          (if manifest.1 then
              some ⟨if 0 < st.partialCount then .warnings else .success, st.recovered,
                st.partialCount, st.files⟩
            else none, { st.world with tree := manifest.2 })
        else (none, loop.2.world)

end Cli

/-- The app's `recover`: select by id, merged rows too, and call `recoverRecords`; selecting nothing
is an error. -/
def appRecover (S : Sqlite) (B : Backend) (src : BlockSource σ) (env : RecoverEnv)
    (dest : FilePath) (sourceId : String) (t : Rows) (ids : List String) (opts : RecoverOpts)
    (w : RecoverWorld σ) : Option RecoverSummary × RecoverWorld σ :=
  if ids = [] then (none, w)
  else
    let records := query S t (.byIds ids true)
    if records = [] then (none, w)
    else recoverRecords B src env dest sourceId records opts w

end Reclaim
