import Reclaim.Foundation.Unicode
import Reclaim.Fs.Walk

/-!
# ISO 9660 and Joliet

The directory records of a tree, sector by sector.  Optical media have no deletion, so every entry
is live; a walk without live entries does not begin.
-/

namespace Reclaim

open FileBytes

/-- An opened ISO 9660 or Joliet volume. -/
structure Iso where
  vol : Volume
  blockSize : ℕ
  rootLba : ℕ
  rootLen : ℕ
  joliet : Bool
  blockSize_ge : 2048 ≤ blockSize

namespace Iso

/-- `MAX_ENTRIES`: cap on directory records. -/
def maxEntries : ℕ := 5000000

/-- `MAX_DEPTH`. -/
def maxDepth : ℕ := 64

/-- `MAX_DIR_BYTES`: cap on a single directory extent read. -/
def maxDirBytes : ℕ := 16 * 1024 * 1024

/-- `strip_version`: a file's name without `;version`, and without a dot at its end. -/
def stripVersion (name : String) (isDir : Bool) : String :=
  if isDir then name
  else
    let base := name.toList.takeWhile (· ≠ ';')
    String.ofList (if base.getLast? = some '.' then base.dropLast else base)

/-- The units of a big-endian UTF-16 name. -/
def bigEndianUnits : Bytes → List ℕ
  | hi :: lo :: bs => (hi.toNat * 256 + lo.toNat) :: bigEndianUnits bs
  | _ => []

/-- `decode_name`. -/
def decodeName (iso : Iso) (raw : Bytes) (isDir : Bool) : String :=
  if iso.joliet then stripVersion (Text.fromUtf16Lossy (bigEndianUnits raw)) isDir
  else stripVersion (Text.fromUtf8Lossy raw) isDir

/-- A directory to descend into: extent, data length and path. -/
structure SubDir where
  lba : ℕ
  len : ℕ
  path : String

/-- The path of a name in a directory. -/
def childPath (path name : String) : String := if path = "" then name else path ++ "/" ++ name

/-- The entry of a file's record. -/
def fileEntry (iso : Iso) (name path : String) (extLba extLen : ℕ) : Entry :=
  { Entry.newFile name extLen .live with
    path := some path
    extents := if extLba ≠ 0 ∧ extLen ≠ 0 then [⟨saturatingMul extLba iso.blockSize, extLen⟩]
      else [] }

/-- What a record adds to the walk: a file is emitted, a directory is not. -/
def emitRecord (iso : Iso) (isDir : Bool) (name path : String) (extLba extLen : ℕ) (w : Walked) :
    Walked :=
  if isDir then w else w.emit (iso.fileEntry name path extLba extLen)

/-- The records of a directory from `pos` on, with the subdirectories found; none of these are
descended into where the source leaves the directory at the cap. -/
def scanDir (iso : Iso) (opts : WalkOpts) (data : Bytes) (path : String) :
    ℕ → ℕ → List SubDir → Walked → Walked × List SubDir
  | 0, _, subdirs, w => (w, subdirs)
  | guard + 1, pos, subdirs, w =>
    if pos < data.length then
      let reclen := (byteAt data pos).toNat
      if reclen = 0 then
        -- padding to the next logical sector
        iso.scanDir opts data path guard ((pos / iso.blockSize + 1) * iso.blockSize) subdirs w
      else if data.length < pos + reclen then (w, subdirs)
      else
        let record := (data.drop pos).take reclen
        let extLba := leU32 record 2
        let extLen := leU32 record 10
        let nameLen := (byteAt record 32).toNat
        let nameBytes := (getRange record 33 nameLen).getD []
        if nameLen = 1 ∧ (nameBytes = [0] ∨ nameBytes = [1]) then
          iso.scanDir opts data path guard (pos + reclen) subdirs w
        else
          let isDir := (byteAt record 25).toNat.testBit 1
          let name := iso.decodeName nameBytes isDir
          if name = "" then iso.scanDir opts data path guard (pos + reclen) subdirs w
          else
            let subdirs' :=
              if isDir = true ∧ extLba ≠ 0 ∧ extLen ≠ 0 then
                subdirs ++ [⟨extLba, extLen, childPath path name⟩]
              else subdirs
            let w' := iso.emitRecord isDir name (childPath path name) extLba extLen w
            if min opts.maxEntries maxEntries ≤ w'.stats.emitted then (w', [])
            else iso.scanDir opts data path guard (pos + reclen) subdirs' w'
    else (w, subdirs)

/-- `walk_dir`, with `depth` levels left; the directories visited are kept beside the walk. -/
def walkDir (iso : Iso) (opts : WalkOpts) : ℕ → SubDir → List ℕ × Walked → List ℕ × Walked
  | 0, _, s => s
  | depth + 1, d, s =>
    if min opts.maxEntries maxEntries ≤ s.2.stats.emitted then s
    else if d.lba ∈ s.1 then s
    else
      let data := iso.vol.read (saturatingMul d.lba iso.blockSize) (min d.len maxDirBytes)
      let r := iso.scanDir opts data d.path maxEntries 0 [] s.2
      r.2.foldl (fun s d => iso.walkDir opts depth d s) (d.lba :: s.1, r.1)

/-- `walk`. -/
def walk (iso : Iso) (opts : WalkOpts) : Walked :=
  if opts.includeLive = false ∨ iso.rootLba = 0 then Walked.start
  else (iso.walkDir opts (maxDepth + 1) ⟨iso.rootLba, iso.rootLen, ""⟩ ([], Walked.start)).2

variable {opts : WalkOpts}

lemma emits_scanDir (iso : Iso) (hlive : opts.includeLive = true) (data : Bytes) (path : String)
    (guard : ℕ) :
    ∀ (pos : ℕ) (subdirs : List SubDir) (w : Walked),
      w.stats.emitted < min opts.maxEntries maxEntries →
        Emits (MayEmit opts) w (iso.scanDir opts data path guard pos subdirs w).1 := by
  induction guard with
  | zero => exact fun _ _ w _ => Emits.refl w
  | succ guard ih =>
    intro pos subdirs w hroom
    have hrecord : ∀ isDir name path extLba extLen,
        Emits (MayEmit opts) w (iso.emitRecord isDir name path extLba extLen w) := by
      intro isDir name path extLba extLen
      cases isDir with
      | true => exact Emits.refl w
      | false => exact Emits.emit ⟨hroom.trans_le (min_le_left _ _), hlive⟩
    rw [scanDir]
    dsimp only
    split
    · split
      · exact ih _ _ w hroom
      · split
        · exact Emits.refl w
        · split
          · exact ih _ _ w hroom
          · split
            · exact ih _ _ w hroom
            · split
              · exact hrecord _ _ _ _ _
              · rename_i hcap
                exact (hrecord _ _ _ _ _).trans (ih _ _ _ (not_le.1 hcap))
    · exact Emits.refl w

lemma emits_walkDir (iso : Iso) (hlive : opts.includeLive = true) (depth : ℕ) :
    ∀ (d : SubDir) (s : List ℕ × Walked),
      Emits (MayEmit opts) s.2 (iso.walkDir opts depth d s).2 := by
  induction depth with
  | zero => exact fun _ s => Emits.refl s.2
  | succ depth ih =>
    intro d s
    rw [walkDir]
    split
    · exact Emits.refl s.2
    · rename_i hcap
      split
      · exact Emits.refl s.2
      · have hscan := emits_scanDir iso hlive
          (iso.vol.read (saturatingMul d.lba iso.blockSize) (min d.len maxDirBytes)) d.path
          maxEntries 0 [] s.2 (not_le.1 hcap)
        apply hscan.trans
        exact Emits.foldl (·.2) _ (fun t d' _ => ih d' t) (d.lba :: s.1, _)

/-- A walk of an ISO volume emits what it may. -/
lemma emits_walk (iso : Iso) (opts : WalkOpts) :
    Emits (MayEmit opts) Walked.start (iso.walk opts) := by
  unfold walk
  split
  · exact Emits.refl _
  · rename_i h
    rw [not_or, Bool.not_eq_false] at h
    exact emits_walkDir iso h.1 (maxDepth + 1) ⟨iso.rootLba, iso.rootLen, ""⟩ ([], Walked.start)

end Iso

end Reclaim
