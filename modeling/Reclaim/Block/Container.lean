import Reclaim.Block.SourceId
import Reclaim.Session.RecoveryPath

/-!
# Opening images

`openImageAuto` sniffs a file and opens it as the container it is, or as a raw image.  What is
modelled of a container is which files it is made of, how it is put together from its extents,
pieces or segments, and what id it gets; what a file of a format decodes to is `Decoders`.

`openImageAuto_cases` says what ids can come out: the canonical path for a raw image, the path of
the sparse extent for a hosted sparse VMDK, whichever path that was found under, and else the path
as it was given, or an id that names no such path.
-/

namespace Reclaim

open FileBytes Paths Text

/-- What a decoded file or a device presents. -/
structure Guest where
  sectorSize : ℕ
  bytes : Bytes
  deriving DecidableEq

/-- A source that is open. -/
structure OpenedSource where
  id : SourceId
  sectorSize : ℕ
  bytes : Bytes
  deriving DecidableEq

/-- Length in bytes. -/
def OpenedSource.len (o : OpenedSource) : ℕ := o.bytes.length

/-- What a stored session says of its source and of the volumes found on it. -/
structure StoredSession where
  sourceId : String
  /-- Start and length of each proposed volume. -/
  proposals : List (ℕ × ℕ)

/-- What the files, devices and sessions of a host answer; paths are as given. -/
structure SourceHost where
  /-- A regular file that can be read. -/
  file : String → Option Bytes
  /-- `canonicalize`, or the path itself if that fails, as text. -/
  canonical : String → String
  device : String → Option Guest
  /-- A file descriptor that is open for reading only. -/
  fd : ℤ → Option Guest
  session : String → Option StoredSession

/-- What the containers decode to. -/
structure Decoders where
  guest : Format → Bytes → Option Guest
  /-- For each segment what its chunk tables present, if anything, and the media size. -/
  ewf : List Bytes → Option (List (Option Guest) × ℕ)
  /-- `String::from_utf8_lossy`. -/
  lossy : Bytes → String

def SourceHost.isFile (host : SourceHost) (path : String) : Bool := (host.file path).isSome

/-! ## Numbers and paths in names -/

/-- A number of digits alone, up to a maximum. -/
def parseDigits (max : ℕ) (s : List Char) : Option ℕ :=
  if s = [] ∨ ¬ s.all Char.isDigit then none
  else
    let n := Nat.ofDigitChars 10 s 0
    if n ≤ max then some n else none

/-- `str::parse` of an unsigned integer. -/
def parseUnsigned (max : ℕ) : List Char → Option ℕ
  | '+' :: rest => parseDigits max rest
  | s => parseDigits max s

/-- `str::parse::<i32>`. -/
def parseI32 : List Char → Option ℤ
  | '-' :: rest => (parseDigits (2 ^ 31) rest).map fun n => -(n : ℤ)
  | s => (parseUnsigned (2 ^ 31 - 1) s).map fun n => (n : ℤ)

/-- `{n:0width$}`. -/
def padded (width n : ℕ) : String :=
  String.ofList (List.replicate (width - (toString n).length) '0') ++ toString n

/-- `Path::extension`. -/
def extension (path : String) : Option String :=
  match (FilePath.ofString path).comps.getLast? with
  | some name =>
    if name = ".." then none
    else match rsplitOnce '.' name.toList with
      | some (_ :: _, ext) => some (String.ofList ext)
      | _ => none
  | none => none

/-- Drop what follows the last component of a path, which is given backwards. -/
def trimBack : List Char → List Char
  | '/' :: rest => trimBack rest
  | '.' :: '/' :: rest => trimBack rest
  | s => s

/-- `Path::parent` of the path of a file. -/
def parentDir (path : String) : String :=
  match rsplitOnce '/' path.toList with
  | none => ""
  | some (before, _) =>
    let dir := (trimBack before.reverse).reverse
    if dir = [] then "/" else String.ofList dir

/-- `Path::join` of a relative name. -/
def joinName (dir name : String) : String :=
  if dir = "" ∨ dir.toList.getLast? = some '/' then dir ++ name else dir ++ "/" ++ name

/-! ## Sniffing -/

/-- A recognized container format. -/
inductive Container where
  | raw
  | dmg
  | sparseImage
  | vmdk
  | vdi
  | vhd
  | vhdx
  | qcow2
  | ewf
  | split
  deriving DecidableEq, Repr

/-- A path with the part after its last dot replaced by a number. -/
def numberedSibling (path : String) (n : ℕ) : Option String :=
  (rsplitOnce '.' path.toList).map fun s => String.ofList s.1 ++ "." ++ padded 3 n

/-- `*.001` with a sibling `.002`. -/
def looksLikeSplit (host : SourceHost) (path : String) : Bool :=
  ((extension path).any fun e => parseUnsigned u32Max e.toList == some 1 && e.toList.length == 3) &&
    (numberedSibling path 2).any host.isFile

/-- `detect_source`: the format of a file with the given bytes under the given path. -/
def detectSource (host : SourceHost) (d : Bytes) (path : String) : Container :=
  let head := d.take 2048 ++ List.replicate (2048 - d.length) 0
  let trailer := d.drop (d.length - 512)
  let ewfTail := [0x09, 0x0d, 0x0a, 0xff, 0x00]
  if [0x51, 0x46, 0x49, 0xFB].isPrefixOf head then .qcow2
  else if (utf8 "KDMV").isPrefixOf head then .vmdk
  -- the longer pattern the source looks for first does not fit its window
  else if (utf8 "# Disk DescriptorFile").isPrefixOf head ∨
      (head.tails.any fun w => (utf8 "createType=").isPrefixOf w) then .vmdk
  else if (utf8 "vhdxfile").isPrefixOf head then .vhdx
  else if (utf8 "EVF" ++ ewfTail).isPrefixOf head ∨
    (utf8 "LVF" ++ ewfTail).isPrefixOf head then .ewf
  else if (utf8 "sprs").isPrefixOf head then .sparseImage
  else if [0x7F, 0x10, 0xDA, 0xBE].isPrefixOf (head.drop 0x40) then .vdi
  else if 512 ≤ d.length ∧ (utf8 "koly").isPrefixOf trailer then .dmg
  else if 512 ≤ d.length ∧ (utf8 "conectix").isPrefixOf trailer then .vhd
  else if looksLikeSplit host path then .split
  else .raw

/-- `detect`; a file that cannot be opened is raw. -/
def detect (host : SourceHost) (path : String) : Container :=
  match host.file path with
  | some d => detectSource host d path
  | none => .raw

/-! ## Openers -/

/-- `ImageFile::open`. -/
def imageFile (host : SourceHost) (path : String) : Option OpenedSource :=
  (host.file path).map fun d => ⟨.image (host.canonical path) d.length, 512, d⟩

/-- A container of one file. -/
def decoded (D : Decoders) (host : SourceHost) (f : Format) (path : String) : Option OpenedSource :=
  ((host.file path).bind (D.guest f)).map fun g =>
    ⟨.container f path g.bytes.length, g.sectorSize, g.bytes⟩

/-- `OffsetView::new`. -/
def offsetView (inner : OpenedSource) (start len : ℕ) : Option OpenedSource :=
  if inner.sectorSize ≠ 0 ∧ ¬ inner.sectorSize ∣ start ∨ inner.len < start + len then none
  else some ⟨.view inner.id start len, inner.sectorSize, (inner.bytes.drop start).take len⟩

/-- `ConcatSource::new`: parts end to end, each cut to whole sectors. -/
def concatSource (parts : List OpenedSource) (id : SourceId) : OpenedSource :=
  let ss := (parts.head?.map fun p => max p.sectorSize 1).getD 512
  ⟨id, ss, parts.flatMap fun p => p.bytes.take (p.len - p.len % ss)⟩

/-- Whether a VHD is fixed or dynamic. -/
def vhdFormat (d : Bytes) : Option Format :=
  let footer := d.drop (d.length - 512)
  if d.length < 512 ∨ ¬ (utf8 "conectix").isPrefixOf footer then none
  else
    let diskType := ((footer.drop 60).take 4).foldl (fun (n : ℕ) b => n * 256 + b.toNat) 0
    if diskType = 2 then some .vhdFixed
    else if diskType = 3 ∨ diskType = 4 then some .vhdDyn
    else none

/-- An extent of a VMDK descriptor. -/
inductive VmdkExtent where
  | zero (bytes : ℕ)
  | flat (name : String) (start bytes : ℕ)
  | sparse (name : String)
  deriving DecidableEq

/-- The extent that a line of a descriptor describes, if it does. -/
def vmdkExtent (line : List Char) : Option VmdkExtent :=
  let line := trim line
  if ["RW ", "RDONLY ", "NOACCESS "].any fun p => p.toList.isPrefixOf line then
    let toks := (line.splitOnP isWhitespace).filter (· ≠ [])
    let name := String.ofList ((((toks[3]?.getD []).dropWhile (· == '"')).reverse.dropWhile
      (· == '"')).reverse)
    match toks[1]?.bind (parseUnsigned u64Max) with
    | none => none
    | some sectors =>
      let bytes := min (sectors * 512) u64Max
      let kind := String.ofList (toks[2]?.getD [])
      if kind = "ZERO" then some (.zero bytes)
      else if kind = "FLAT" ∨ kind = "VMFS" ∨ kind = "VMFSRAW" then
        let off := (toks[4]?.bind (parseUnsigned u64Max)).getD 0
        if name = "" then none else some (.flat name (min (off * 512) u64Max) bytes)
      else if kind = "SPARSE" then if name = "" then none else some (.sparse name)
      else none
  else none

/-- The extents of a descriptor. -/
def vmdkExtents (text : String) : List VmdkExtent :=
  (text.toList.splitOn '\n').filterMap vmdkExtent

/-- `safe_extent_name`: a plain relative name. -/
def safeExtentName (name : String) : Bool :=
  let path := FilePath.ofString name
  !path.absolute && path.comps.all fun c => c ≠ "." && c ≠ ".."

/-- Open an extent of the descriptor in a directory. -/
def openExtent (D : Decoders) (host : SourceHost) (dir : String) : VmdkExtent → Option OpenedSource
  | .zero bytes => some ⟨.zero bytes, 512, List.replicate bytes 0⟩
  | .flat name start bytes =>
    if safeExtentName name then
      (imageFile host (joinName dir name)).bind fun img => offsetView img start bytes
    else none
  | .sparse name =>
    if safeExtentName name then decoded D host .vmdk (joinName dir name) else none

/-- The file is a hosted sparse extent. -/
def vmdkSparse (d : Bytes) : Bool := 512 ≤ d.length && (utf8 "KDMV").isPrefixOf d

/-- `open_descriptor`; a single extent is returned as it is. -/
def openDescriptor (D : Decoders) (host : SourceHost) (path : String) (d : Bytes) :
    Option OpenedSource :=
  match (vmdkExtents (D.lossy (d.take (64 * 1024)))).mapM (openExtent D host (parentDir path)) with
  | none | some [] => none
  | some [single] => some single
  | some parts => some (concatSource parts (.container .vmdkFlat path parts.length))

/-- `vmdk::open`. -/
def openVmdk (D : Decoders) (host : SourceHost) (path : String) : Option OpenedSource :=
  (host.file path).bind fun d =>
    if vmdkSparse d then decoded D host .vmdk path else openDescriptor D host path d

/-- The numbered siblings from `n` on, up to the first that is missing. -/
def splitPieces (host : SourceHost) (path : String) : ℕ → ℕ → List String
  | 0, _ => []
  | fuel + 1, n =>
    match numberedSibling path n with
    | some q => if host.isFile q then q :: splitPieces host path fuel (n + 1) else []
    | none => []

/-- `split::open`. -/
def openSplit (host : SourceHost) (path : String) : Option OpenedSource :=
  ((path :: splitPieces host path 99999 2).mapM (imageFile host)).map fun parts =>
    concatSource parts (.container .split path parts.length)

/-- The segments behind the `n`-th, up to the first that is missing. -/
def segmentsFrom (host : SourceHost) (pre : String) (width : ℕ) : ℕ → ℕ → List String
  | 0, _ => []
  | fuel + 1, n =>
    let q := pre ++ padded width (n + 1)
    if host.isFile q then q :: segmentsFrom host pre width fuel (n + 1) else []

/-- `segment_paths`: the file and the segments that follow it. -/
def segmentPaths (host : SourceHost) (path : String) : List String :=
  match rsplitOnce '.' path.toList with
  | none => [path]
  | some (stem, ext) =>
    let digits := (ext.reverse.takeWhile Char.isDigit).reverse
    let letters := ext.take (ext.length - digits.length)
    match parseUnsigned u32Max digits with
    | none => [path]
    | some n =>
      path :: segmentsFrom host (String.ofList (stem ++ '.' :: letters)) digits.length 100000 n

/-- `e01::open`; a single segment with data is returned as it is. -/
def openEwf (D : Decoders) (host : SourceHost) (path : String) : Option OpenedSource :=
  let paths := segmentPaths host path
  ((paths.mapM host.file).bind D.ewf).bind fun (guests, media) =>
    let segments := (paths.zip guests).filterMap fun (seg, g) =>
      g.map fun g => OpenedSource.mk (.container .ewfSeg seg g.bytes.length) g.sectorSize g.bytes
    match segments with
    | [] => none
    | [single] => some single
    | parts => some (concatSource parts (.container .ewf path media))

/-- `open_image_auto`. -/
def openImageAuto (D : Decoders) (host : SourceHost) (path : String) : Option OpenedSource :=
  match detect host path with
  | .raw => imageFile host path
  | .dmg => decoded D host .dmg path
  | .sparseImage => decoded D host .sparseimage path
  | .vmdk => openVmdk D host path
  | .vdi => decoded D host .vdi path
  | .vhd => ((host.file path).bind vhdFormat).bind fun f => decoded D host f path
  | .vhdx => decoded D host .vhdx path
  | .qcow2 => decoded D host .qcow2 path
  | .ewf => openEwf D host path
  | .split => openSplit host path

/-! ## What comes out -/

section Presents

variable {D : Decoders} {host : SourceHost} {path q : String} {o : OpenedSource} {f : Format}

/-- The file is opened as the hosted sparse extent `q`: it is one, or a descriptor with that single
extent. -/
def SparseAt (D : Decoders) (host : SourceHost) (path q : String) : Prop :=
  detect host path = .vmdk ∧ ∃ d, host.file path = some d ∧
    ((vmdkSparse d = true ∧ q = path) ∨ vmdkSparse d = false ∧ ∃ name,
      vmdkExtents (D.lossy (d.take (64 * 1024))) = [.sparse name] ∧ safeExtentName name = true ∧
        q = joinName (parentDir path) name)

/-- What an image is opened as. -/
inductive Presents (D : Decoders) (host : SourceHost) (path : String) (o : OpenedSource) : Prop
  | raw (d : Bytes) (sniffed : detect host path = .raw) (file : host.file path = some d)
      (opened : o = ⟨.image (host.canonical path) d.length, 512, d⟩)
  | sparse (q : String) (found : SparseAt D host path q) (opened : decoded D host .vmdk q = some o)
  | ownPath (f : Format) (n : ℕ) (vmdk : f ≠ .vmdk) (ewfSeg : f ≠ .ewfSeg)
      (id : o.id = .container f path n)
  | segment (seg : String) (n : ℕ) (id : o.id = .container .ewfSeg seg n)
  | zero (n : ℕ) (id : o.id = .zero n)
  | window (inner : SourceId) (start len : ℕ) (id : o.id = .view inner start len)

lemma id_of_decoded (h : decoded D host f path = some o) : ∃ n, o.id = .container f path n := by
  obtain ⟨g, -, rfl⟩ := Option.map_eq_some_iff.1 h
  exact ⟨_, rfl⟩

lemma Presents.of_decoded (hv : f ≠ .vmdk) (he : f ≠ .ewfSeg) (h : decoded D host f path = some o) :
    Presents D host path o := by
  obtain ⟨n, hid⟩ := id_of_decoded h
  exact .ownPath f n hv he hid

lemma vhdFormat_cases {d : Bytes} (h : vhdFormat d = some f) : f = .vhdFixed ∨ f = .vhdDyn := by
  simp only [vhdFormat] at h
  split at h
  · cases h
  · split at h
    · exact .inl (Option.some.inj h).symm
    · split at h
      · exact .inr (Option.some.inj h).symm
      · cases h

lemma mapM_eq_singleton {α β : Type} {f : α → Option β} {l : List α} {b : β}
    (h : l.mapM f = some [b]) : ∃ a, l = [a] ∧ f a = some b := by
  match l with
  | [] => simp at h
  | [a] =>
    refine ⟨a, rfl, ?_⟩
    cases hfa : f a with
    | none => simp [hfa] at h
    | some b' => simpa [hfa] using h
  | a :: a' :: rest =>
    simp only [List.mapM_cons, Option.bind_eq_bind, Option.pure_def] at h
    obtain ⟨x, -, h⟩ := Option.bind_eq_some_iff.1 h
    obtain ⟨xs, hxs, h⟩ := Option.bind_eq_some_iff.1 h
    obtain ⟨y, -, hxs⟩ := Option.bind_eq_some_iff.1 hxs
    obtain ⟨ys, -, hxs⟩ := Option.bind_eq_some_iff.1 hxs
    obtain rfl := Option.some.inj hxs
    simp at h

lemma Presents.of_descriptor {d : Bytes} (hsniffed : detect host path = .vmdk)
    (hfile : host.file path = some d) (hsparse : vmdkSparse d = false)
    (h : openDescriptor D host path d = some o) : Presents D host path o := by
  unfold openDescriptor at h
  split at h
  · cases h
  · cases h
  · rename_i single hparts
    obtain rfl := Option.some.inj h
    obtain ⟨e, hextents, hopen⟩ := mapM_eq_singleton hparts
    cases e with
    | zero bytes =>
      obtain rfl := Option.some.inj hopen
      exact .zero bytes rfl
    | flat name start bytes =>
      simp only [openExtent] at hopen
      split at hopen
      · obtain ⟨img, -, hview⟩ := Option.bind_eq_some_iff.1 hopen
        unfold offsetView at hview
        split at hview
        · cases hview
        · obtain rfl := Option.some.inj hview
          exact .window img.id start bytes rfl
      · cases hopen
    | sparse name =>
      simp only [openExtent] at hopen
      split at hopen
      · rename_i hsafe
        exact .sparse _ ⟨hsniffed, d, hfile, .inr ⟨hsparse, name, hextents, hsafe, rfl⟩⟩ hopen
      · cases hopen
  · obtain rfl := Option.some.inj h
    exact .ownPath .vmdkFlat _ (by decide) (by decide) rfl

lemma Presents.of_ewf (h : openEwf D host path = some o) : Presents D host path o := by
  obtain ⟨⟨guests, media⟩, -, h⟩ := Option.bind_eq_some_iff.1 h
  dsimp only at h
  split at h
  · cases h
  · rename_i single hone
    have hmem : single ∈ [single] := List.mem_singleton_self single
    rw [← hone, Option.some.inj h] at hmem
    obtain ⟨⟨seg, g⟩, -, hg⟩ := List.mem_filterMap.1 hmem
    obtain ⟨g, -, rfl⟩ := Option.map_eq_some_iff.1 hg
    exact .segment seg _ rfl
  · obtain rfl := Option.some.inj h
    exact .ownPath .ewf media (by decide) (by decide) rfl

/-- **What an image can be opened as.** -/
theorem openImageAuto_presents (h : openImageAuto D host path = some o) :
    Presents D host path o := by
  unfold openImageAuto at h
  split at h
  · rename_i hsniffed
    obtain ⟨d, hfile, rfl⟩ := Option.map_eq_some_iff.1 h
    exact .raw d hsniffed hfile rfl
  · exact .of_decoded (by decide) (by decide) h
  · exact .of_decoded (by decide) (by decide) h
  · rename_i hsniffed
    obtain ⟨d, hfile, h⟩ := Option.bind_eq_some_iff.1 h
    split at h
    · rename_i hsparse
      exact .sparse path ⟨hsniffed, d, hfile, .inl ⟨hsparse, rfl⟩⟩ h
    · rename_i hsparse
      exact .of_descriptor hsniffed hfile (Bool.eq_false_iff.2 hsparse) h
  · exact .of_decoded (by decide) (by decide) h
  · obtain ⟨f, hf, h⟩ := Option.bind_eq_some_iff.1 h
    obtain ⟨d, -, hvhd⟩ := Option.bind_eq_some_iff.1 hf
    rcases vhdFormat_cases hvhd with rfl | rfl
    · exact .of_decoded (by decide) (by decide) h
    · exact .of_decoded (by decide) (by decide) h
  · exact .of_decoded (by decide) (by decide) h
  · exact .of_decoded (by decide) (by decide) h
  · exact .of_ewf h
  · obtain ⟨parts, -, rfl⟩ := Option.map_eq_some_iff.1 h
    exact .ownPath .split _ (by decide) (by decide) rfl

/-- A raw image is opened as its bytes. -/
lemma openImageAuto_of_raw {d : Bytes} (hsniffed : detect host path = .raw)
    (hfile : host.file path = some d) :
    openImageAuto D host path = some ⟨.image (host.canonical path) d.length, 512, d⟩ := by
  unfold openImageAuto
  rw [hsniffed]
  simp only [imageFile, hfile, Option.map_some]

/-- Whatever stands for a sparse extent is opened as it. -/
lemma openImageAuto_of_sparseAt (h : SparseAt D host path q) :
    openImageAuto D host path = decoded D host .vmdk q := by
  obtain ⟨hsniffed, d, hfile, hkind⟩ := h
  unfold openImageAuto
  rw [hsniffed]
  simp only [openVmdk, hfile, Option.bind_some]
  rcases hkind with ⟨hsparse, rfl⟩ | ⟨hsparse, name, hextents, hsafe, rfl⟩
  · rw [if_pos hsparse]
  · rw [if_neg (by rw [hsparse]; decide), openDescriptor, hextents]
    simp only [List.mapM_cons, List.mapM_nil, openExtent, hsafe, if_true, Option.bind_eq_bind,
      Option.pure_def, Option.bind_some]
    cases decoded D host .vmdk (joinName (parentDir path) name) with
    | none => rfl
    | some o => rfl

end Presents

end Reclaim
