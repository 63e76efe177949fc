import Reclaim.Block.Concat
import Reclaim.Block.Vmdk
import Reclaim.Block.VmdkDescriptor
import Reclaim.Foundation.PathText
import Reclaim.Part.Scan

/-!
# VMDK images of several extents

`open_descriptor` opens what the lines of a descriptor name, and puts it end to end.  What it cannot
make anything of it skips, so that what comes later moves down, and a name is read only up to its
first white space.

`opens_iff` says for which descriptors and files the disk that is opened is the one declared.  No
file is looked for that does not lie below the descriptor's directory.
-/

namespace Reclaim

open FileBytes Text

namespace Vmdk

/-! ## What is where -/

/-- Where the bytes of an extent are. -/
inductive Place where
  | hole
  /-- From a byte of a file on. -/
  | file (path : String) (start : ℕ)
  /-- On the disk that a sparse extent holds. -/
  | sparse (path : String)
  /-- In a file of some other kind. -/
  | other (kind path : String)
  deriving DecidableEq, Repr

/-- So many bytes of some place. -/
structure Region where
  place : Place
  len : ℕ
  deriving DecidableEq, Repr

/-- A disk: what begins where on it, and how long it is. -/
structure Layout where
  runs : List (ℕ × Region)
  total : ℕ
  deriving DecidableEq, Repr

/-- Regions one behind the other, from a position on. -/
def endToEnd : ℕ → List Region → List (ℕ × Region)
  | _, [] => []
  | cur, r :: rest =>
    if r.len = 0 then endToEnd cur rest else (cur, r) :: endToEnd (cur + r.len) rest

/-- The disk of some regions. -/
def Layout.of (rs : List Region) : Layout := ⟨endToEnd 0 rs, (rs.map Region.len).sum⟩

/-- A region alone. -/
def Layout.single (r : Region) : Layout := ⟨if r.len = 0 then [] else [(0, r)], r.len⟩

/-- The whole sectors of a region. -/
def Region.clamped (r : Region) : Region := ⟨r.place, r.len - r.len % 512⟩

/-- A region goes behind the others, if anything counts of it. -/
def addRegion (acc : List (ℕ × Region) × ℕ) (r : Region) : List (ℕ × Region) × ℕ :=
  if r.clamped.len = 0 then acc
  else (acc.1 ++ [(acc.2, r.clamped)], saturatingAdd acc.2 r.clamped.len)

/-- `ConcatSource::new`, as to what is where; all parts have sectors of 512 bytes. -/
def concat (rs : List Region) : Layout :=
  let list := rs.foldl addRegion ([], 0)
  ⟨list.1, list.2⟩

/-! ## Opening -/

/-- `ImageFile::open`. -/
def openFile (files : String → Option Bytes) (path : String) : Option (BlockSource Unit) :=
  (files path).bind fun file =>
    if h : file.length ≤ u64Max then some (imageSource path file h) else none

/-- What is opened for an extent. -/
def openExtent (files : String → Option Bytes) (dir : String) : VmdkExtent → Option Region
  | .zero bytes => some ⟨.hole, bytes⟩
  | .flat name start bytes => do
    guard (safeExtentName name)
    let src ← openFile files (joinName dir name)
    let view ← (OffsetView.new src start bytes).toOption
    some ⟨.file (joinName dir name) view.start, view.len⟩
  | .sparse name => do
    guard (safeExtentName name)
    let file ← files (joinName dir name)
    let hd ← openSparse file
    let _ ← hd.pushes file
    some ⟨.sparse (joinName dir name), hd.outLen⟩

/-- A part alone is the disk; several are put end to end. -/
def assemble : List Region → Option Layout
  | [] => none
  | [single] => some (.single single)
  | parts => some (concat parts)

/-- `open_descriptor`, as to what is where on the disk. -/
def openDescriptor (files : String → Option Bytes) (path : String) (d : Bytes) : Option Layout :=
  ((vmdkExtents (fromUtf8Lossy (d.take (64 * 1024)))).mapM (openExtent files (parentDir path))).bind
    assemble

/-! ## What a descriptor declares -/

namespace Extent

variable (e : Extent) (files : String → Option Bytes) (dir : String)

/-- Where the line says that the extent is. -/
def place : Place :=
  if e.kind = "ZERO" then .hole
  else if e.kind = "FLAT" ∨ e.kind = "VMFS" ∨ e.kind = "VMFSRAW" then
    .file (joinName dir e.name) (e.offset.getD 0 * 512)
  else if e.kind = "SPARSE" then .sparse (joinName dir e.name)
  else .other e.kind (joinName dir e.name)

def region : Region := ⟨e.place dir, e.sectors * 512⟩

/-- The line is understood: it has no sectors, or it is of a kind that is known and its name is
plain. The offset fits, and a sparse extent, which is opened whatever the count is, has as many
sectors as the line says. -/
def Understood : Prop :=
  if e.kind = "ZERO" then True
  else if e.kind = "FLAT" ∨ e.kind = "VMFS" ∨ e.kind = "VMFSRAW" then
    0 < e.sectors → PlainName e.name ∧ e.offset.getD 0 ≤ u64Max
  else if e.kind = "SPARSE" then
    (0 < e.sectors → PlainName e.name) ∧ (e.wordName ≠ "" → ∀ file hd,
      files (joinName dir e.wordName) = some file → openSparse file = some hd →
        hd.capacity = e.sectors)
  else e.sectors = 0

end Extent

/-- What is to be opened is there: a file below the directory, as long as is asked of it or a sparse
extent. -/
def Openable (files : String → Option Bytes) (dir : String) : VmdkExtent → Prop
  | .zero _ => True
  | .flat name start bytes => safeExtentName name = true ∧ ∃ file,
      files (joinName dir name) = some file ∧ file.length ≤ u64Max ∧ 512 ∣ start ∧
        start + bytes ≤ file.length
  | .sparse name => safeExtentName name = true ∧ ∃ file hd,
      files (joinName dir name) = some file ∧ openSparse file = some hd ∧
        (hd.pushes file).isSome = true

/-- A path that leads below a directory. -/
def Below (dir path : String) : Prop :=
  ∃ names : List String, names ≠ [] ∧
    PathText.components path.toList = PathText.components dir.toList ++ names.map .normal

namespace Descriptor

variable (D : Descriptor) (files : String → Option Bytes) (path : String)

/-- The disk that is declared. -/
def declared : Layout := .of (D.extents.map (Extent.region · (parentDir path)))

/-- How long it is. -/
def length : ℕ := (D.extents.map fun e => e.sectors * 512).sum

/-- Either nothing is opened or the disk that is declared; and no file counts but those below the
descriptor's directory. -/
structure Opens : Prop where
  layout : ∀ l, openDescriptor files path D.bytes = some l → l = D.declared path
  confined : ∀ files' : String → Option Bytes,
    (∀ p, Below (parentDir path) p → files' p = files p) →
      openDescriptor files' path D.bytes = openDescriptor files path D.bytes

/-- No line gives anything to open, or one gives something that is not there. -/
def Unopenable : Prop :=
  D.extents.filterMap Extent.read = [] ∨
    ∃ x ∈ D.extents.filterMap Extent.read, ¬ Openable files (parentDir path) x

end Descriptor

/-! ## Names stay below the directory -/

/-- What stands between the separators of a path, unless it is nothing. -/
lemma comps_ofString_relative {s : String} (hrel : ¬ PathText.IsAbsolute s.toList) :
    (Paths.FilePath.ofString s).comps =
      match (s.toList.splitOn '/').filter (fun c => !c.isEmpty) with
      | [] => []
      | c :: rest => (c :: rest.filter (· != ['.'])).map String.ofList := by
  have habs : (s.toList.head? == some '/') = false := beq_false_of_ne hrel
  unfold Paths.FilePath.ofString
  dsimp only
  rw [habs]
  cases (s.toList.splitOn '/').filter (fun c => !c.isEmpty) with
  | nil => rfl
  | cons c rest =>
    by_cases hdot : c = ['.']
    · subst hdot
      rfl
    · split <;> simp_all

lemma absolute_ofString (s : String) :
    (Paths.FilePath.ofString s).absolute = (s.toList.head? == some '/') := by
  unfold Paths.FilePath.ofString
  dsimp only
  split <;> rfl

/-- A safe name is relative, and nothing that stands between its separators leads up. -/
lemma safe_parts {name : String} (h : safeExtentName name = true) :
    ¬ PathText.IsAbsolute name.toList ∧ (name.toList.splitOn '/').head? ≠ some ['.'] ∧
      ['.', '.'] ∉ name.toList.splitOn '/' := by
  unfold safeExtentName at h
  dsimp only at h
  rw [Bool.and_eq_true, Bool.not_eq_true', List.all_eq_true, absolute_ofString,
    beq_eq_false_iff_ne] at h
  obtain ⟨hrel, hcomps⟩ := h
  rw [comps_ofString_relative hrel] at hcomps
  refine ⟨hrel, fun hhead => ?_, fun hup => ?_⟩
  · obtain ⟨rest, hsplit⟩ : ∃ rest, name.toList.splitOn '/' = ['.'] :: rest :=
      ⟨_, (List.cons_head?_tail hhead).symm⟩
    rw [hsplit, List.filter_cons_of_pos rfl] at hcomps
    exact absurd (hcomps _ List.mem_cons_self) (by decide)
  · have hmem : ['.', '.'] ∈ (name.toList.splitOn '/').filter fun c => !c.isEmpty :=
      List.mem_filter.2 ⟨hup, rfl⟩
    cases hparts : (name.toList.splitOn '/').filter fun c => !c.isEmpty with
    | nil =>
      rw [hparts] at hmem
      exact absurd hmem List.not_mem_nil
    | cons c rest =>
      rw [hparts] at hmem hcomps
      have hkept : ['.', '.'] ∈ c :: rest.filter (· != ['.']) := by
        rcases List.mem_cons.1 hmem with rfl | hmem
        · exact List.mem_cons_self
        · exact List.mem_cons_of_mem _ (List.mem_filter.2 ⟨hmem, rfl⟩)
      exact absurd (hcomps _ (List.mem_map_of_mem hkept)) (by decide)

/-- A relative name is joined to a directory as a path is pushed. -/
lemma toList_joinName (dir : String) {name : String} (hrel : ¬ PathText.IsAbsolute name.toList) :
    (joinName dir name).toList = PathText.push dir.toList name.toList := by
  have hnil : dir = "" ↔ dir.toList = [] := String.toList_eq_nil_iff.symm
  unfold joinName PathText.push
  rw [if_neg hrel]
  by_cases hend : dir = "" ∨ dir.toList.getLast? = some '/'
  · rw [if_pos hend, if_pos (by rwa [← hnil]), String.toList_append]
  · rw [if_neg hend, if_neg (by rwa [← hnil]), String.toList_append, String.toList_append,
      List.append_assoc]
    rfl

/-- **A safe name leads below the directory that it is joined to.** -/
lemma below_joinName {name : String} (h : safeExtentName name = true) (hne : name ≠ "")
    (dir : String) : Below dir (joinName dir name) := by
  obtain ⟨hrel, hdot, hup⟩ := safe_parts h
  obtain ⟨names, hnames, hmem⟩ := PathText.filterMap_component hup
  obtain ⟨part, hpart, hpartne⟩ :=
    PathText.exists_head_splitOn (fun hnil => hne (String.toList_eq_nil_iff.1 hnil)) hrel
  refine ⟨names, List.ne_nil_of_mem (hmem part (List.mem_of_mem_head? hpart) hpartne
    fun heq => hdot (heq ▸ hpart)), ?_⟩
  rw [toList_joinName dir hrel, PathText.components_push_relative hrel hdot,
    PathText.components_relative hrel hdot, hnames]
/-! ## What is opened -/

section Opening

variable {files : String → Option Bytes} {dir : String}

/-- A window into a file is had exactly if it begins at a sector and lies in the file. -/
lemma view_of_file {id : String} {file : Bytes} (h : file.length ≤ u64Max) (start len : ℕ) :
    (512 ∣ start ∧ start + len ≤ file.length → ∃ view,
      (OffsetView.new (imageSource id file h) start len).toOption = some view ∧
        view.start = start ∧ view.len = len) ∧
    (¬ (512 ∣ start ∧ start + len ≤ file.length) →
      (OffsetView.new (imageSource id file h) start len).toOption = none) := by
  have hss : (imageSource id file h).sectorSize = 512 := rfl
  have hlen : (imageSource id file h).len = file.length := rfl
  unfold OffsetView.new
  dsimp only
  rw [hss, hlen]
  constructor
  · rintro ⟨hdvd, hin⟩
    rw [if_neg (by omega), if_neg (by omega)]
    exact ⟨_, rfl, rfl, rfl⟩
  · intro hnot
    by_cases hdvd : 512 ∣ start
    · rw [if_neg (by omega), if_pos (by omega)]
      rfl
    · rw [if_pos (by omega)]
      rfl

/-- A window into a file is opened exactly if it is there. -/
lemma openExtent_flat {name : String} {start len : ℕ} {r : Region} :
    openExtent files dir (.flat name start len) = some r ↔
      Openable files dir (.flat name start len) ∧ r = ⟨.file (joinName dir name) start, len⟩ := by
  unfold openExtent
  simp only [Option.bind_eq_bind, Option.bind_eq_some_iff, Option.guard_eq_some']
  constructor
  · rintro ⟨-, hsafe, src, hsrc, view, hview, hr⟩
    obtain ⟨file, hfile, hopen⟩ := Option.bind_eq_some_iff.1 hsrc
    split at hopen
    · rename_i hle
      obtain rfl := Option.some.inj hopen
      by_cases hin : 512 ∣ start ∧ start + len ≤ file.length
      · obtain ⟨view', hview', hstart, hlen⟩ := (view_of_file hle start len).1 hin
        rw [hview'] at hview
        rw [← Option.some.inj hview, hstart, hlen] at hr
        exact ⟨⟨hsafe, file, hfile, hle, hin⟩, (Option.some.inj hr).symm⟩
      · rw [(view_of_file hle start len).2 hin] at hview
        cases hview
    · cases hopen
  · rintro ⟨⟨hsafe, file, hfile, hle, hin⟩, rfl⟩
    obtain ⟨view, hview, hstart, hlen⟩ := (view_of_file hle start len).1 hin
    refine ⟨(), hsafe, _, ?_, view, hview, by rw [hstart, hlen]⟩
    rw [openFile, hfile, Option.bind_some, dif_pos hle]

/-- So is a sparse extent. -/
lemma openExtent_sparse {name : String} {r : Region} :
    openExtent files dir (.sparse name) = some r ↔ safeExtentName name = true ∧
      ∃ file hd, files (joinName dir name) = some file ∧ openSparse file = some hd ∧
        (hd.pushes file).isSome = true ∧ r = ⟨.sparse (joinName dir name), hd.capacity * 512⟩ := by
  unfold openExtent
  simp only [Option.bind_eq_bind, Option.bind_eq_some_iff, Option.guard_eq_some']
  constructor
  · rintro ⟨-, hsafe, file, hfile, hd, hhd, pushes, hpushes, hr⟩
    obtain ⟨hpos, hgrain, -, htotal, -⟩ := openSparse_checks hhd
    rw [(SparseHeader.sizes hpos hgrain htotal).2.1] at hr
    exact ⟨hsafe, file, hd, hfile, hhd, Option.isSome_iff_exists.2 ⟨pushes, hpushes⟩,
      (Option.some.inj hr).symm⟩
  · rintro ⟨hsafe, file, hd, hfile, hhd, hsome, rfl⟩
    obtain ⟨pushes, hpushes⟩ := Option.isSome_iff_exists.1 hsome
    obtain ⟨hpos, hgrain, -, htotal, -⟩ := openSparse_checks hhd
    refine ⟨(), hsafe, file, hfile, hd, hhd, pushes, hpushes, ?_⟩
    rw [(SparseHeader.sizes hpos hgrain htotal).2.1]

lemma isSome_openExtent (x : VmdkExtent) :
    (openExtent files dir x).isSome = true ↔ Openable files dir x := by
  rw [Option.isSome_iff_exists]
  cases x with
  | zero bytes => exact iff_of_true ⟨_, rfl⟩ trivial
  | flat name start len =>
    constructor
    · rintro ⟨r, hr⟩
      exact (openExtent_flat.1 hr).1
    · exact fun h => ⟨_, openExtent_flat.2 ⟨h, rfl⟩⟩
  | sparse name =>
    constructor
    · rintro ⟨r, hr⟩
      obtain ⟨hsafe, file, hd, hfile, hhd, hsome, -⟩ := openExtent_sparse.1 hr
      exact ⟨hsafe, file, hd, hfile, hhd, hsome⟩
    · rintro ⟨hsafe, file, hd, hfile, hhd, hsome⟩
      exact ⟨_, openExtent_sparse.2 ⟨hsafe, file, hd, hfile, hhd, hsome, rfl⟩⟩

/-- What is opened for a line, if anything. -/
def Extent.opened (files : String → Option Bytes) (dir : String) (e : Extent) :
    Option Region :=
  e.read.bind (openExtent files dir)

/-- What is opened for a line of which something is made. -/
lemma opened_cases {e : Extent} {r : Region} (h : e.opened files dir = some r)
    (hfits : e.sectors * 512 ≤ u64Max) :
    (e.kind = "ZERO" ∧ r = ⟨.hole, e.sectors * 512⟩) ∨
    ((e.kind = "FLAT" ∨ e.kind = "VMFS" ∨ e.kind = "VMFSRAW") ∧ e.wordName ≠ "" ∧
      e.wordOffset * 512 ≤ u64Max ∧
      r = ⟨.file (joinName dir e.wordName) (e.wordOffset * 512), e.sectors * 512⟩) ∨
    (e.kind = "SPARSE" ∧ e.wordName ≠ "" ∧ ∃ file hd, files (joinName dir e.wordName) = some file ∧
      openSparse file = some hd ∧
      r = ⟨.sparse (joinName dir e.wordName), hd.capacity * 512⟩) := by
  obtain ⟨x, hx, hr⟩ := Option.bind_eq_some_iff.1 h
  rcases e.read_cases hx with ⟨hkind, rfl⟩ | ⟨hkind, hne, rfl⟩ | ⟨hkind, hne, rfl⟩
  · rw [min_eq_left hfits] at hr
    exact .inl ⟨hkind, (Option.some.inj hr).symm⟩
  · rw [min_eq_left hfits] at hr
    obtain ⟨⟨-, -, -, -, hdvd, -⟩, rfl⟩ := openExtent_flat.1 hr
    -- an offset that is cut off is not one of a sector
    have hoff : e.wordOffset * 512 ≤ u64Max := by
      have hu : u64Max = 2 ^ 64 - 1 := rfl
      by_contra hlt
      rw [min_eq_right (by omega)] at hdvd
      omega
    rw [min_eq_left hoff]
    exact .inr (.inl ⟨hkind, hne, hoff, rfl⟩)
  · obtain ⟨-, file, hd, hfile, hhd, -, rfl⟩ := openExtent_sparse.1 hr
    exact .inr (.inr ⟨hkind, hne, file, hd, hfile, hhd, rfl⟩)

/-- **No file counts but those below the directory.** -/
lemma openExtent_congr {files' : String → Option Bytes}
    (h : ∀ p, Below dir p → files' p = files p) {e : Extent} {x : VmdkExtent}
    (hx : e.read = some x) : openExtent files' dir x = openExtent files dir x := by
  have hfile : safeExtentName e.wordName = true → e.wordName ≠ "" →
      files' (joinName dir e.wordName) = files (joinName dir e.wordName) := fun hsafe hne =>
    h _ (below_joinName hsafe hne dir)
  rcases e.read_cases hx with ⟨-, rfl⟩ | ⟨-, hne, rfl⟩ | ⟨-, hne, rfl⟩
  · rfl
  · by_cases hsafe : safeExtentName e.wordName = true
    · simp only [openExtent, openFile, hfile hsafe hne]
    · simp only [openExtent, guard, if_neg hsafe]
      rfl
  · by_cases hsafe : safeExtentName e.wordName = true
    · simp only [openExtent, hfile hsafe hne]
    · simp only [openExtent, guard, if_neg hsafe]
      rfl

/-- Nothing that is opened is longer than a `u64` says. -/
lemma len_opened_le {e : Extent} {r : Region} (h : e.opened files dir = some r) :
    r.len ≤ u64Max := by
  obtain ⟨x, hx, hr⟩ := Option.bind_eq_some_iff.1 h
  rcases e.read_cases hx with ⟨-, rfl⟩ | ⟨-, -, rfl⟩ | ⟨-, -, rfl⟩
  · rw [← Option.some.inj hr]
    exact min_le_right _ _
  · rw [(openExtent_flat.1 hr).2]
    exact min_le_right _ _
  · obtain ⟨-, file, hd, -, hhd, -, rfl⟩ := openExtent_sparse.1 hr
    obtain ⟨hpos, hgrain, -, htotal, -⟩ := openSparse_checks hhd
    dsimp only
    rw [← (SparseHeader.sizes hpos hgrain htotal).2.1]
    exact min_le_right _ _

end Opening

/-! ## Regions end to end -/

section Regions

/-- The regions that have a byte. -/
def nonempty (rs : List Region) : List Region := rs.filter fun r => r.len ≠ 0

lemma nonempty_cons (r : Region) (rs : List Region) :
    nonempty (r :: rs) = if r.len = 0 then nonempty rs else r :: nonempty rs := by
  unfold nonempty
  by_cases hr : r.len = 0
  · rw [if_pos hr, List.filter_cons_of_neg (by simpa using hr)]
  · rw [if_neg hr, List.filter_cons_of_pos (by simpa using hr)]

lemma map_endToEnd (rs : List Region) : ∀ cur, (endToEnd cur rs).map (·.2) = nonempty rs := by
  induction rs with
  | nil => exact fun cur => rfl
  | cons r rs ih =>
    intro cur
    rw [endToEnd, nonempty_cons]
    split
    · exact ih cur
    · rw [List.map_cons, ih]

/-- Only the regions that have a byte count. -/
lemma endToEnd_nonempty (rs : List Region) :
    ∀ cur, endToEnd cur (nonempty rs) = endToEnd cur rs := by
  induction rs with
  | nil => exact fun cur => rfl
  | cons r rs ih =>
    intro cur
    rw [nonempty_cons, endToEnd]
    split
    · exact ih cur
    · rename_i hr
      rw [endToEnd, if_neg hr, ih]

lemma sum_nonempty (rs : List Region) :
    ((nonempty rs).map Region.len).sum = (rs.map Region.len).sum := by
  induction rs with
  | nil => rfl
  | cons r rs ih =>
    rw [nonempty_cons, List.map_cons, List.sum_cons]
    split
    · rename_i hr
      rw [hr, ih, Nat.zero_add]
    · rw [List.map_cons, List.sum_cons, ih]

/-- Disks of the same regions, but for those without a byte, are the same. -/
lemma Layout.of_congr {rs rs' : List Region} (h : nonempty rs = nonempty rs') :
    Layout.of rs = Layout.of rs' := by
  unfold Layout.of
  rw [← endToEnd_nonempty rs, ← endToEnd_nonempty rs', ← sum_nonempty rs, ← sum_nonempty rs', h]

lemma clamped_eq {r : Region} (h : 512 ∣ r.len) : r.clamped = r := by
  unfold Region.clamped
  rw [Nat.mod_eq_zero_of_dvd h, Nat.sub_zero]

/-- The loop of `ConcatSource::new`, while the sum of the lengths is a `u64`. -/
lemma foldl_addRegion {rs : List Region} (hlen : ∀ r ∈ rs, 512 ∣ r.len) :
    ∀ acc : List (ℕ × Region) × ℕ, acc.2 + (rs.map Region.len).sum ≤ u64Max →
      rs.foldl addRegion acc =
        (acc.1 ++ endToEnd acc.2 rs, acc.2 + (rs.map Region.len).sum) := by
  induction rs with
  | nil =>
    intro acc _
    rw [endToEnd, List.append_nil]
    rfl
  | cons r rs ih =>
    intro acc hsum
    have hrest := ih fun q hq => hlen q (List.mem_cons_of_mem _ hq)
    rw [List.map_cons, List.sum_cons] at hsum
    rw [List.foldl_cons, addRegion, clamped_eq (hlen r List.mem_cons_self), endToEnd, List.map_cons,
      List.sum_cons]
    by_cases hr : r.len = 0
    · rw [if_pos hr, if_pos hr, hr, Nat.zero_add]
      exact hrest acc (by omega)
    · have hsat : saturatingAdd acc.2 r.len = acc.2 + r.len := min_eq_left (by omega)
      rw [if_neg hr, if_neg hr, hsat, hrest _ (by dsimp only; omega), Nat.add_assoc,
        List.append_assoc]
      rfl

/-- Whatever the sum of the lengths is, the parts are those that have a byte. -/
lemma map_foldl_addRegion {rs : List Region} (hlen : ∀ r ∈ rs, 512 ∣ r.len) :
    ∀ acc : List (ℕ × Region) × ℕ, (rs.foldl addRegion acc).1.map (·.2) =
      acc.1.map (·.2) ++ nonempty rs := by
  induction rs with
  | nil => exact fun acc => (List.append_nil _).symm
  | cons r rs ih =>
    intro acc
    have hrest := ih fun q hq => hlen q (List.mem_cons_of_mem _ hq)
    rw [List.foldl_cons, hrest, addRegion, clamped_eq (hlen r List.mem_cons_self), nonempty_cons]
    by_cases hr : r.len = 0
    · rw [if_pos hr, if_pos hr]
    · rw [if_neg hr, if_neg hr, List.map_append, List.append_assoc]
      rfl

lemma total_foldl_addRegion (rs : List Region) : ∀ acc : List (ℕ × Region) × ℕ, acc.2 ≤ u64Max →
    (rs.foldl addRegion acc).2 ≤ u64Max := by
  induction rs with
  | nil => exact fun acc h => h
  | cons r rs ih =>
    intro acc h
    apply ih _
    unfold addRegion
    split
    · exact h
    · exact min_le_right _ _

variable {rs : List Region} {l : Layout}

/-- **Parts that fit are put end to end.** -/
lemma assemble_eq (h : assemble rs = some l) (hlen : ∀ r ∈ rs, 512 ∣ r.len)
    (hsum : (rs.map Region.len).sum ≤ u64Max) : l = .of rs := by
  unfold assemble at h
  split at h
  · cases h
  · rename_i r
    rw [← Option.some.inj h]
    simp [Layout.single, Layout.of, endToEnd]
  · rw [← Option.some.inj h]
    have hfold := foldl_addRegion hlen ([], 0) (by dsimp only; omega)
    simp only [List.nil_append, Nat.zero_add] at hfold
    unfold concat
    rw [hfold]
    rfl

/-- The parts of a disk, whether or not they fit. -/
lemma assemble_regions (h : assemble rs = some l) (hlen : ∀ r ∈ rs, 512 ∣ r.len) :
    l.runs.map (·.2) = nonempty rs := by
  unfold assemble at h
  split at h
  · cases h
  · rename_i r
    rw [← Option.some.inj h, Layout.single, nonempty_cons]
    split <;> rfl
  · rw [← Option.some.inj h]
    exact map_foldl_addRegion hlen ([], 0)

lemma assemble_total_le (h : assemble rs = some l) (hle : ∀ r ∈ rs, r.len ≤ u64Max) :
    l.total ≤ u64Max := by
  unfold assemble at h
  split at h
  · cases h
  · rename_i r
    rw [← Option.some.inj h]
    exact hle r List.mem_cons_self
  · rw [← Option.some.inj h]
    exact total_foldl_addRegion rs ([], 0) (Nat.zero_le _)

/-- The parts and the regions that are put together so far begin at the same positions. -/
lemma foldl_addPart_addRegion {σ : Type} {srcs : List (BlockSource σ)} {rs : List Region}
    (h : List.Forall₂ (fun src r => src.sector = 512 ∧ src.len = r.len) srcs rs) :
    ∀ (acc : List (ConcatPart σ) × ℕ) (acc' : List (ℕ × Region) × ℕ),
      acc.1.map (fun p => (p.start, p.len)) = acc'.1.map (fun run => (run.1, run.2.len)) →
      acc.2 = acc'.2 →
        (srcs.foldl (ConcatSource.addPart 512) acc).1.map (fun p => (p.start, p.len)) =
            (rs.foldl addRegion acc').1.map (fun run => (run.1, run.2.len)) ∧
          (srcs.foldl (ConcatSource.addPart 512) acc).2 = (rs.foldl addRegion acc').2 := by
  induction h with
  | nil => exact fun acc acc' hruns htotal => ⟨hruns, htotal⟩
  | @cons src r srcs rs hfirst _ ih =>
    intro acc acc' hruns htotal
    have hlen : ConcatSource.clamped 512 src = r.clamped.len := by
      rw [ConcatSource.clamped, hfirst.2]
      rfl
    rw [List.foldl_cons, List.foldl_cons, ConcatSource.addPart, addRegion, hlen]
    split
    · exact ih acc acc' hruns htotal
    · refine ih _ _ ?_ (by rw [htotal])
      rw [List.map_append, List.map_append, hruns, htotal]
      rfl

/-- **The parts are placed as `ConcatSource::new` places them**, whatever sources they are. -/
lemma new_concat {σ : Type} {srcs : List (BlockSource σ)} {rs : List Region}
    (h : List.Forall₂ (fun src r => src.sector = 512 ∧ src.len = r.len) srcs rs) (id : String) :
    (ConcatSource.new srcs id).parts.map (fun p => (p.start, p.len)) =
        (concat rs).runs.map (fun run => (run.1, run.2.len)) ∧
      (ConcatSource.new srcs id).total = (concat rs).total := by
  have hss : ConcatSource.sectorOf srcs = 512 := by
    cases h with
    | nil => rfl
    | cons hfirst _ => exact hfirst.1
  unfold ConcatSource.new concat
  rw [hss]
  exact foldl_addPart_addRegion h ([], 0) ([], 0) rfl rfl

end Regions

/-! ## Lines that are understood -/

section Lines

variable {files : String → Option Bytes} {dir : String} {e : Extent}

lemma joinName_injective (dir : String) : Function.Injective (joinName dir) := by
  intro a b h
  unfold joinName at h
  split at h
  · exact String.append_right_inj dir |>.1 h
  · exact String.append_right_inj (dir ++ "/") |>.1 h

/-- **A line is understood if what it declares is opened**, for whichever line. -/
lemma understood_of_opened {e' : Extent} (h : e'.opened files dir = some (e.region dir))
    (hfits : e'.sectors * 512 ≤ u64Max) : e.Understood files dir := by
  have hcases := opened_cases h hfits
  unfold Extent.region Extent.place at hcases
  simp only [Region.mk.injEq] at hcases
  unfold Extent.Understood
  by_cases hzero : e.kind = "ZERO"
  · rw [if_pos hzero]
    trivial
  rw [if_neg hzero] at hcases ⊢
  by_cases hflat : e.kind = "FLAT" ∨ e.kind = "VMFS" ∨ e.kind = "VMFSRAW"
  · rw [if_pos hflat] at hcases ⊢
    rcases hcases with ⟨-, hr, -⟩ | ⟨-, hne, hoff, hr, -⟩ | ⟨-, -, -, -, -, -, hr, -⟩
    · cases hr
    · obtain ⟨hjoin, hstart⟩ := Place.file.inj hr
      rw [joinName_injective dir hjoin]
      exact fun _ => ⟨Extent.wordName_plain hne, by omega⟩
    · cases hr
  rw [if_neg hflat] at hcases ⊢
  by_cases hsparse : e.kind = "SPARSE"
  · rw [if_pos hsparse] at hcases ⊢
    rcases hcases with ⟨-, hr, -⟩ | ⟨-, -, -, hr, -⟩ | ⟨-, hne, file, hd, hfile, hhd, hr, hlen⟩
    · cases hr
    · cases hr
    · have hname : e.name = e'.wordName := joinName_injective dir (Place.sparse.inj hr)
      have hplain : PlainName e.name := hname ▸ Extent.wordName_plain hne
      refine ⟨fun _ => hplain, fun _ file' hd' hfile' hhd' => ?_⟩
      rw [Extent.wordName_eq hplain, hname, hfile] at hfile'
      rw [← Option.some.inj hfile', hhd] at hhd'
      rw [← Option.some.inj hhd']
      omega
  · -- nothing of another kind is opened
    rw [if_neg hsparse] at hcases
    rcases hcases with ⟨-, hr, -⟩ | ⟨-, -, -, hr, -⟩ | ⟨-, -, -, -, -, -, hr, -⟩ <;> cases hr

/-- What a line adds to the disk that is opened. -/
def added (files : String → Option Bytes) (dir : String) (e : Extent) : List Region :=
  nonempty (e.opened files dir).toList

/-- What is opened for a line that is understood has the sectors that it declares. -/
lemma Extent.Understood.len_eq (h : e.Understood files dir) (hfits : e.sectors * 512 ≤ u64Max)
    {r : Region} (hr : e.opened files dir = some r) : r.len = e.sectors * 512 := by
  rcases opened_cases hr hfits with ⟨-, rfl⟩ | ⟨-, -, -, rfl⟩ |
    ⟨hkind, hne, file, hd, hfile, hhd, rfl⟩
  · rfl
  · rfl
  · unfold Extent.Understood at h
    rw [hkind] at h
    have hcap := h.2 hne file hd hfile hhd
    dsimp only
    rw [hcap]

/-- Something is made of a line that is understood, if it declares any. -/
lemma Extent.Understood.exists_read (h : e.Understood files dir) (hcount : e.sectors ≤ u64Max)
    (hpos : 0 < e.sectors) : ∃ x, e.read = some x := by
  have hname : PlainName e.name → e.wordName ≠ "" := fun hplain hnil => hplain.ne_nil (by
    rw [← Extent.wordName_eq hplain, hnil]
    rfl)
  unfold Extent.Understood at h
  rw [e.read_eq, if_pos hcount]
  dsimp only
  split
  · exact ⟨_, rfl⟩
  rw [if_neg ‹_›] at h
  split
  · rw [if_pos ‹_›] at h
    rw [if_neg (hname (h hpos).1)]
    exact ⟨_, rfl⟩
  rw [if_neg ‹_›] at h
  split
  · rw [if_pos ‹_›] at h
    rw [if_neg (hname (h.1 hpos))]
    exact ⟨_, rfl⟩
  · rw [if_neg ‹_›] at h
    omega

/-- If it declares any, then it is what the line declares that is opened. -/
lemma Extent.Understood.opened_eq (h : e.Understood files dir) (hfits : e.sectors * 512 ≤ u64Max)
    (hopen : ∀ x, e.read = some x → Openable files dir x) (hpos : 0 < e.sectors) :
    e.opened files dir = some (e.region dir) := by
  have hcount : e.sectors ≤ u64Max := by omega
  obtain ⟨x, hx⟩ := h.exists_read hcount hpos
  obtain ⟨r, hr⟩ := Option.isSome_iff_exists.1 ((isSome_openExtent x).2 (hopen x hx))
  replace hr : e.opened files dir = some r := by rw [Extent.opened, hx, Option.bind_some, hr]
  rw [hr, Extent.region, ← h.len_eq hfits hr]
  unfold Extent.Understood at h
  unfold Extent.place
  rcases opened_cases hr hfits with ⟨hkind, rfl⟩ | ⟨hkind, hne, hoff, rfl⟩ |
    ⟨hkind, hne, file, hd, hfile, hhd, rfl⟩
  · rw [if_pos hkind]
  · have hzero : e.kind ≠ "ZERO" := by rcases hkind with hk | hk | hk <;> rw [hk] <;> decide
    rw [if_neg hzero, if_pos hkind] at h ⊢
    obtain ⟨hplain, hfit⟩ := h hpos
    rw [e.wordName_eq hplain, e.wordOffset_eq hplain, if_pos hfit]
  · rw [hkind] at h ⊢
    rw [e.wordName_eq (h.1 hpos)]
    rfl

/-- **What a line that is understood adds** is what it declares. -/
lemma added_eq (h : e.Understood files dir) (hfits : e.sectors * 512 ≤ u64Max)
    (hopen : ∀ x, e.read = some x → Openable files dir x) :
    added files dir e = nonempty [e.region dir] := by
  rcases Nat.eq_zero_or_pos e.sectors with hzero | hpos
  · have hnone : nonempty [e.region dir] = [] := by
      rw [nonempty_cons, if_pos (by rw [Extent.region, hzero, Nat.zero_mul])]
      rfl
    rw [hnone, added]
    cases hr : e.opened files dir with
    | none => rfl
    | some r =>
      rw [Option.toList_some, nonempty_cons,
        if_pos (by rw [h.len_eq hfits hr, hzero, Nat.zero_mul])]
      rfl
  · rw [added, h.opened_eq hfits hopen hpos, Option.toList_some]

/-- A line without sectors is understood, if it adds nothing. -/
lemma understood_of_added (hzero : e.sectors = 0)
    (hopen : ∀ x, e.read = some x → Openable files dir x) (hadded : added files dir e = []) :
    e.Understood files dir := by
  unfold Extent.Understood
  split
  · trivial
  split
  · exact fun hpos => absurd hzero hpos.ne'
  split
  · rename_i hkind hflat hsparse
    refine ⟨fun hpos => absurd hzero hpos.ne', fun hne file hd hfile hhd => ?_⟩
    have hread : e.read = some (.sparse e.wordName) := by
      rw [e.read_eq, if_pos (by omega)]
      dsimp only
      rw [if_neg hkind, if_neg hflat, if_pos hsparse, if_neg hne]
    obtain ⟨r, hr⟩ := Option.isSome_iff_exists.1 ((isSome_openExtent _).2 (hopen _ hread))
    obtain ⟨-, file', hd', hfile', hhd', -, rfl⟩ := openExtent_sparse.1 hr
    rw [hfile'] at hfile
    rw [← Option.some.inj hfile, hhd'] at hhd
    rw [added, Extent.opened, hread, Option.bind_some, hr, Option.toList_some,
      nonempty_cons] at hadded
    split at hadded
    · rename_i hlen
      rw [← Option.some.inj hhd, hzero]
      dsimp only at hlen
      omega
    · exact absurd hadded (List.cons_ne_nil _ _)
  · exact hzero

end Lines

/-! ## The whole descriptor -/

/-- All of several things can be had. -/
lemma mapM_eq_some_of_forall {α β : Type} {f : α → Option β} {l : List α}
    (h : ∀ x ∈ l, (f x).isSome = true) : l.mapM f = some (l.filterMap f) := by
  induction l with
  | nil => rfl
  | cons x l ih =>
    obtain ⟨y, hy⟩ := Option.isSome_iff_exists.1 (h x List.mem_cons_self)
    rw [List.mapM_cons, hy, ih fun z hz => h z (List.mem_cons_of_mem _ hz),
      List.filterMap_cons_some hy]
    rfl

/-- One of several things cannot be had. -/
lemma mapM_eq_none_of_mem {α β : Type} {f : α → Option β} {l : List α} {x : α} (hx : x ∈ l)
    (h : f x = none) : l.mapM f = none := by
  induction l with
  | nil => exact absurd hx List.not_mem_nil
  | cons y l ih =>
    rw [List.mapM_cons]
    rcases List.mem_cons.1 hx with rfl | hx
    · rw [h]
      rfl
    · rw [ih hx]
      cases f y <;> rfl

lemma mapM_congr_mem {α β : Type} {f g : α → Option β} {l : List α} (h : ∀ x ∈ l, f x = g x) :
    l.mapM f = l.mapM g := by
  induction l with
  | nil => rfl
  | cons x l ih =>
    rw [List.mapM_cons, List.mapM_cons, h x List.mem_cons_self,
      ih fun y hy => h y (List.mem_cons_of_mem _ hy)]

/-- What is opened for some lines, as far as it has a byte. -/
lemma nonempty_filterMap (files : String → Option Bytes) (dir : String) (es : List Extent) :
    nonempty (es.filterMap (Extent.opened files dir)) = es.flatMap (added files dir) := by
  induction es with
  | nil => rfl
  | cons e es ih =>
    rw [List.flatMap_cons, added, ← ih]
    cases hr : e.opened files dir with
    | none =>
      rw [List.filterMap_cons_none hr]
      rfl
    | some r =>
      rw [List.filterMap_cons_some hr, Option.toList_some, nonempty_cons, nonempty_cons]
      split <;> rfl

/-- What some lines declare, as far as it has a byte. -/
lemma nonempty_map_region (dir : String) (es : List Extent) :
    nonempty (es.map (Extent.region · dir)) = es.flatMap fun e => nonempty [e.region dir] := by
  induction es with
  | nil => rfl
  | cons e es ih =>
    rw [List.map_cons, List.flatMap_cons, nonempty_cons, nonempty_cons, ih]
    split <;> rfl

/-- Two lists put together of parts, of which no first one is longer than the second: if the lists
are as long, then so are the parts. -/
lemma length_eq_of_flatMap {α β : Type} {f g : α → List β} {l : List α}
    (hle : ∀ a ∈ l, (g a).length ≤ (f a).length)
    (h : (l.flatMap f).length = (l.flatMap g).length) : ∀ a ∈ l, (f a).length = (g a).length := by
  induction l with
  | nil => exact fun a ha => absurd ha List.not_mem_nil
  | cons b l ih =>
    rw [List.flatMap_cons, List.flatMap_cons, List.length_append, List.length_append] at h
    have hb := hle b List.mem_cons_self
    have hrest : ∀ a ∈ l, (g a).length ≤ (f a).length :=
      fun a ha => hle a (List.mem_cons_of_mem _ ha)
    have hsum : (l.flatMap g).length ≤ (l.flatMap f).length := by
      rw [List.length_flatMap, List.length_flatMap]
      exact List.sum_le_sum hrest
    intro a ha
    rcases List.mem_cons.1 ha with rfl | ha
    · omega
    · exact ih hrest (by omega) a ha

namespace Descriptor

variable {D : Descriptor} {files : String → Option Bytes} {path : String}

lemma openDescriptor_eq (D : Descriptor) (files : String → Option Bytes) (path : String) :
    openDescriptor files path D.bytes =
      ((D.extents.filterMap Extent.read).mapM (openExtent files (parentDir path))).bind
        assemble := by
  rw [openDescriptor, D.vmdkExtents_bytes]

/-- Nothing is opened of a descriptor of which something cannot be. -/
lemma Unopenable.eq_none (h : D.Unopenable files path) :
    openDescriptor files path D.bytes = none := by
  rw [openDescriptor_eq]
  rcases h with hnil | ⟨x, hx, hnot⟩
  · rw [hnil]
    rfl
  · have hnone : openExtent files (parentDir path) x = none := by
      rwa [← isSome_openExtent, Bool.not_eq_true, Option.isSome_eq_false_iff,
        Option.isNone_iff_eq_none] at hnot
    rw [mapM_eq_none_of_mem hx hnone]
    rfl

/-- Otherwise what is opened for the lines is put together. -/
lemma openDescriptor_of_openable (h : ¬ D.Unopenable files path) : ∃ l,
    openDescriptor files path D.bytes = some l ∧
      assemble (D.extents.filterMap (Extent.opened files (parentDir path))) = some l ∧
      ∀ e ∈ D.extents, ∀ x, e.read = some x → Openable files (parentDir path) x := by
  rw [Unopenable, not_or] at h
  obtain ⟨hne, hall⟩ := h
  have hopen : ∀ x ∈ D.extents.filterMap Extent.read, Openable files (parentDir path) x :=
    fun x hx => by_contra fun hnot => hall ⟨x, hx, hnot⟩
  have hparts := mapM_eq_some_of_forall fun x hx => (isSome_openExtent x).2 (hopen x hx)
  rw [List.filterMap_filterMap] at hparts
  have hread : ∀ e ∈ D.extents, ∀ x, e.read = some x → Openable files (parentDir path) x :=
    fun e he x hx => hopen x (List.mem_filterMap.2 ⟨e, he, hx⟩)
  -- the first of them is there
  obtain ⟨x, hx⟩ := List.exists_mem_of_ne_nil _ hne
  obtain ⟨e, he, hex⟩ := List.mem_filterMap.1 hx
  obtain ⟨r, hr⟩ := Option.isSome_iff_exists.1 ((isSome_openExtent x).2 (hopen x hx))
  have hmem : r ∈ D.extents.filterMap (Extent.opened files (parentDir path)) :=
    List.mem_filterMap.2 ⟨e, he, by rw [Extent.opened, hex, Option.bind_some, hr]⟩
  obtain ⟨l, hl⟩ : ∃ l, assemble (D.extents.filterMap (Extent.opened files (parentDir path))) =
      some l := by
    unfold assemble
    split
    · rename_i hnil
      rw [hnil] at hmem
      exact absurd hmem List.not_mem_nil
    · exact ⟨_, rfl⟩
    · exact ⟨_, rfl⟩
  refine ⟨l, ?_, hl, hread⟩
  rw [openDescriptor_eq, hparts]
  exact hl

/-- No file counts but those below the descriptor's directory. -/
lemma confined (D : Descriptor) (files : String → Option Bytes) (path : String)
    (files' : String → Option Bytes) (h : ∀ p, Below (parentDir path) p → files' p = files p) :
    openDescriptor files' path D.bytes = openDescriptor files path D.bytes := by
  rw [openDescriptor_eq, openDescriptor_eq]
  refine congrArg (·.bind assemble) (mapM_congr_mem fun x hx => ?_)
  obtain ⟨e, -, he⟩ := List.mem_filterMap.1 hx
  exact openExtent_congr h he

/-- While the disk that is declared is no longer than a `u64` says, no extent is. -/
lemma sectors_le (h : D.length ≤ u64Max) {e : Extent} (he : e ∈ D.extents) :
    e.sectors * 512 ≤ u64Max :=
  (List.single_le_sum (fun _ _ => Nat.zero_le _) _
    (List.mem_map_of_mem (f := fun e : Extent => e.sectors * 512) he)).trans h

lemma dvd_len (h : D.length ≤ u64Max) :
    ∀ r ∈ D.extents.filterMap (Extent.opened files (parentDir path)), 512 ∣ r.len := by
  intro r hr
  obtain ⟨e, he, her⟩ := List.mem_filterMap.1 hr
  rcases opened_cases her (D.sectors_le h he) with ⟨-, rfl⟩ | ⟨-, -, -, rfl⟩ |
    ⟨-, -, file, hd, -, -, rfl⟩
  · exact Dvd.intro_left _ rfl
  · exact Dvd.intro_left _ rfl
  · exact Dvd.intro_left _ rfl

lemma length_eq (D : Descriptor) (dir : String) :
    ((D.extents.map (Extent.region · dir)).map Region.len).sum = D.length := by
  rw [List.map_map]
  rfl

/-- **A descriptor of which every line is understood**, and all of which can be opened, opens as the
disk that it declares. -/
lemma opens_of_understood (hsum : D.length ≤ u64Max)
    (hall : ∀ e ∈ D.extents, e.Understood files (parentDir path)) {l : Layout}
    (hassemble : assemble (D.extents.filterMap (Extent.opened files (parentDir path))) = some l)
    (hopen : ∀ e ∈ D.extents, ∀ x, e.read = some x → Openable files (parentDir path) x) :
    l = D.declared path := by
  have hregions : nonempty (D.extents.filterMap (Extent.opened files (parentDir path))) =
      nonempty (D.extents.map (Extent.region · (parentDir path))) := by
    rw [nonempty_filterMap, nonempty_map_region]
    apply List.flatMap_congr
    intro e he
    exact added_eq (hall e he) (D.sectors_le hsum he) (hopen e he)
  have hfits : ((D.extents.filterMap (Extent.opened files (parentDir path))).map Region.len).sum ≤
      u64Max := by
    rw [← sum_nonempty, hregions, sum_nonempty, length_eq]
    exact hsum
  rw [assemble_eq hassemble (D.dvd_len hsum) hfits]
  exact Layout.of_congr hregions

/-- **Every line of a descriptor is understood**, if it opens as the disk that it declares. -/
lemma understood_of_opens {l : Layout}
    (hassemble : assemble (D.extents.filterMap (Extent.opened files (parentDir path))) = some l)
    (hopen : ∀ e ∈ D.extents, ∀ x, e.read = some x → Openable files (parentDir path) x)
    (hl : l = D.declared path) :
    D.length ≤ u64Max ∧ ∀ e ∈ D.extents, e.Understood files (parentDir path) := by
  have hsum : D.length ≤ u64Max := by
    have hle := assemble_total_le hassemble fun r hr => by
      obtain ⟨e, -, her⟩ := List.mem_filterMap.1 hr
      exact len_opened_le her
    rw [hl] at hle
    exact (D.length_eq _).symm.trans_le hle
  have hregions : D.extents.flatMap (added files (parentDir path)) =
      D.extents.flatMap fun e => nonempty [e.region (parentDir path)] := by
    rw [← nonempty_filterMap, ← nonempty_map_region, ← assemble_regions hassemble (D.dvd_len hsum),
      hl]
    exact map_endToEnd _ 0
  -- what an extent with sectors declares is opened for some line
  have hpos : ∀ e ∈ D.extents, 0 < e.sectors → e.Understood files (parentDir path) := by
    intro e he hsectors
    have hmem : e.region (parentDir path) ∈ D.extents.flatMap (added files (parentDir path)) := by
      rw [hregions]
      refine List.mem_flatMap.2 ⟨e, he, ?_⟩
      rw [nonempty_cons, if_neg (by rw [Extent.region]; dsimp only; omega)]
      exact List.mem_cons_self
    obtain ⟨e', he', hadded⟩ := List.mem_flatMap.1 hmem
    have hopened := Option.mem_toList.1 (List.mem_filter.1 hadded).1
    exact understood_of_opened hopened (D.sectors_le hsum he')
  have hdeclared : ∀ e ∈ D.extents, e.sectors = 0 → nonempty [e.region (parentDir path)] = [] := by
    intro e _ hzero
    rw [nonempty_cons, if_pos (by rw [Extent.region, hzero, Nat.zero_mul])]
    rfl
  -- and so nothing is left for one without
  have hnone : ∀ e ∈ D.extents, e.sectors = 0 → added files (parentDir path) e = [] := by
    intro e he hzero
    have hlen := length_eq_of_flatMap (fun a ha => ?_) (congrArg List.length hregions) e he
    · rw [hdeclared e he hzero] at hlen
      exact List.eq_nil_of_length_eq_zero hlen
    · rcases Nat.eq_zero_or_pos a.sectors with hz | hp
      · rw [hdeclared a ha hz]
        exact Nat.zero_le _
      · rw [added_eq (hpos a ha hp) (D.sectors_le hsum ha) (hopen a ha)]
  refine ⟨hsum, fun e he => ?_⟩
  rcases Nat.eq_zero_or_pos e.sectors with hzero | hsectors
  · exact understood_of_added hzero (hopen e he) (hnone e he hzero)
  · exact hpos e he hsectors

/-- **When a descriptor opens as the disk that it declares**: exactly when something in it cannot be
opened at all, or no more is declared than a `u64` counts and every line is understood. -/
theorem opens_iff (D : Descriptor) (files : String → Option Bytes) (path : String) :
    D.Opens files path ↔ D.Unopenable files path ∨
      D.length ≤ u64Max ∧ ∀ e ∈ D.extents, e.Understood files (parentDir path) := by
  by_cases hun : D.Unopenable files path
  · refine iff_of_true ⟨fun l hl => ?_, D.confined files path⟩ (.inl hun)
    rw [hun.eq_none] at hl
    cases hl
  obtain ⟨l, hl, hassemble, hopen⟩ := openDescriptor_of_openable hun
  rw [or_iff_right hun]
  constructor
  · exact fun h => understood_of_opens hassemble hopen (h.layout l hl)
  · rintro ⟨hsum, hall⟩
    refine ⟨fun l' hl' => ?_, D.confined files path⟩
    rw [← Option.some.inj (hl.symm.trans hl')]
    exact opens_of_understood hsum hall hassemble hopen

end Descriptor

/-! ## A name that begins with a blank -/

/-- A descriptor of two extents, of which the name of the first begins with a blank. -/
def spaced : Descriptor where
  lines :=
    let first : Extent :=
      ⟨.rw, 1, "FLAT", " b", some 0, ⟨by decide, isWhitespace_of_all (by decide)⟩, by decide⟩
    let second : Extent :=
      ⟨.rw, 1, "ZERO", "", none, ⟨by decide, isWhitespace_of_all (by decide)⟩, by decide⟩
    [([] ++ (first.text ++ []), some first), ([] ++ (second.text ++ []), some second)]
  declares l hl := by
    have hnil : Blank [] := fun _ h => absurd h List.not_mem_nil
    rcases List.mem_cons.1 hl with rfl | hl
    · exact .extent hnil hnil _
    · rw [List.mem_singleton.1 hl]
      exact .extent hnil hnil _
  small := by decide +kernel

/-- The first extent is dropped, and the hole behind it takes its place. -/
theorem spaced_counterexample : ¬ spaced.Opens (fun _ => none) "disk.vmdk" := by
  intro h
  have hopen : openDescriptor (fun _ => none) "disk.vmdk" spaced.bytes =
      some ⟨[(0, ⟨.hole, 512⟩)], 512⟩ := by decide +kernel
  exact absurd (h.layout _ hopen) (by decide)

end Vmdk

end Reclaim
