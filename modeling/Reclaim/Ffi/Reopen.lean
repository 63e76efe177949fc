import Reclaim.Block.Container
import Reclaim.Ffi.DestCheck

/-!
# Coming back to a source

A scan stores the id of its source, and everything later starts from it: a recovery and a preview
through `fromSourceId`, a resumed scan on a reopened session through `parse`, which takes the id
for a source string.

`comesBack_iff` says for which sources both lead back: an image whose canonical path opens the same
way, and only where a file is named like the id itself.
-/

namespace Reclaim

open FileBytes Paths Text

/-! ## From a string to an open source -/

namespace Resolved

/-- Resolve a source string. -/
def parse (host : SourceHost) (spec : String) : Option Resolved :=
  match stripPrefix "session:".toList spec.toList with
  | some rest => (rsplitOnceAt "/volume/".toList rest).bind fun (dir, n) =>
      (parseUnsigned u64Max n).map fun index => .volume (String.ofList dir) index
  | none =>
    match stripPrefix "fd:".toList spec.toList with
    | some rest =>
      let (num, label) := (splitOnce ':' rest).getD (rest, "fd".toList)
      (parseI32 num).map fun fd => .fd fd (String.ofList label)
    | none =>
      let stripped := (stripPrefix "/dev/".toList spec.toList).getD spec.toList
      let bsd := (stripPrefix "r".toList stripped).getD stripped
      if ((stripPrefix "disk".toList bsd).bind List.head?).any Char.isDigit then
        some (.device (String.ofList bsd) ("/dev/r" ++ String.ofList bsd))
      else if host.isFile spec then some (.image spec)
      else none

/-- The last component of the path of a device node, or all of it. -/
def nodeName (node : String) : String :=
  match (FilePath.ofString node).comps.getLast? with
  | some name => if name = ".." then node else name
  | none => node

/-- Open a source that is not an adopted volume. -/
def openPlain (D : Decoders) (host : SourceHost) : Resolved → Option OpenedSource
  | .device _ node => (host.device node).map fun g =>
      ⟨.device (nodeName node) g.bytes.length, g.sectorSize, g.bytes⟩
  | .image path => openImageAuto D host path
  | .fd n label => (host.fd n).map fun g =>
      ⟨.device label g.bytes.length, g.sectorSize, g.bytes⟩
  | .volume _ _ => none

/-- `open_adopted`: a window of the source behind a session, whose id never names a volume. -/
def openAdopted (D : Decoders) (host : SourceHost) (dir : String) (index : ℕ) :
    Option OpenedSource :=
  (host.session dir).bind fun s =>
    if index = 0 ∨ s.proposals.length < index then none
    else
      let (start, len) := s.proposals.getD (index - 1) (0, 0)
      if len = 0 then none
      else ((fromSourceId s.sourceId).bind fun r => r.openPlain D host).bind fun base =>
        offsetView base start len

/-- Open the source read-only. -/
def «open» (D : Decoders) (host : SourceHost) : Resolved → Option OpenedSource
  | .volume dir index => openAdopted D host dir index
  | r => r.openPlain D host

end Resolved

/-- `open_source`. -/
def openSource (D : Decoders) (host : SourceHost) (spec : String) :
    Option (Resolved × OpenedSource) :=
  (Resolved.parse host spec).bind fun r => (r.open D host).map fun o => (r, o)

/-- The source that `resume_scan` opens: that of the handle, which `open_session` leaves empty, or
the stored id. -/
def resumeScan (D : Decoders) (host : SourceHost) (sourceSpec stored : Option String) :
    Option OpenedSource :=
  ((sourceSpec.or stored).bind (openSource D host)).map Prod.snd

/-! ## What an id is taken for -/

/-- The source that `fromSourceId` makes of an id. -/
def SourceId.named : SourceId → Option Resolved
  | .image path _ => some (.image path)
  | .device bsd _ => some (.device bsd ("/dev/r" ++ bsd))
  | .container .ewfSeg _ _ => none
  | .container _ path _ => some (.image path)
  | .zero _ => none
  | .view _ _ _ => none

/-- The formats that `fromSourceId` knows. -/
def knownFormats : List Format :=
  [.dmg, .vmdk, .vmdkFlat, .vdi, .vhdFixed, .vhdDyn, .vhdx, .qcow2, .ewf, .sparseimage, .split]

lemma containerPrefixes_eq : containerPrefixes = knownFormats.map fun f => f.name ++ ":" := rfl

lemma beforeLastColon_append (a : String) {b : List Char} (hb : ':' ∉ b) :
    beforeLastColon (a.toList ++ ':' :: b) = a := by
  rw [beforeLastColon, rsplitOnce_append _ hb]
  simp

namespace SourceId

/-- A spelling up to its first colon. -/
lemma exists_rest (id : SourceId) : ∃ rest, id.text.toList = id.tag.name.toList ++ ':' :: rest ∧
    ((∀ n, id ≠ .zero n) → rest = id.middle ++ ':' :: id.tail) := by
  by_cases hz : ∃ n, id = .zero n
  · obtain ⟨n, rfl⟩ := hz
    exact ⟨(toString n).toList, by simp [text, tag, SourceTag.name], fun h => absurd rfl (h n)⟩
  · exact ⟨id.middle ++ ':' :: id.tail, by simp [toList_text id fun n h => hz ⟨n, h⟩], fun _ => rfl⟩

/-- Taking the name of a kind off a spelling. -/
lemma stripPrefix_name (id : SourceId) (t : SourceTag) :
    stripPrefix (t.name.toList ++ [':']) id.text.toList =
      if t = id.tag then stripPrefix (id.tag.name.toList ++ [':']) id.text.toList else none := by
  obtain ⟨rest, hrest, -⟩ := id.exists_rest
  rw [hrest, stripPrefix_upTo _ t.colon_notMem_name id.tag.colon_notMem_name,
    stripPrefix_upTo _ id.tag.colon_notMem_name id.tag.colon_notMem_name, if_pos rfl]
  refine if_congr ?_ rfl rfl
  rw [String.toList_inj]
  exact SourceTag.name_injective.eq_iff

/-- Behind its own name a spelling goes on with its middle. -/
lemma stripPrefix_self (id : SourceId) (hz : ∀ n, id ≠ .zero n) :
    stripPrefix (id.tag.name.toList ++ [':']) id.text.toList =
      some (id.middle ++ ':' :: id.tail) := by
  obtain ⟨rest, hrest, hparts⟩ := id.exists_rest
  rw [hrest, stripPrefix_upTo _ id.tag.colon_notMem_name id.tag.colon_notMem_name, if_pos rfl,
    hparts hz]

/-- **What `fromSourceId` makes of the id of a source.** -/
lemma fromSourceId_text (id : SourceId) : Resolved.fromSourceId id.text = id.named := by
  have hprefix : ∀ t : SourceTag, stripPrefix (t.name ++ ":").toList id.text.toList =
      if t = id.tag then stripPrefix (id.tag.name.toList ++ [':']) id.text.toList else none := by
    intro t
    rw [String.toList_append]
    exact id.stripPrefix_name t
  have hcontainer : ∀ f : Format, stripPrefix (f.name ++ ":").toList id.text.toList = _ := fun f =>
    hprefix (.container f)
  unfold Resolved.fromSourceId
  rw [show "image:" = SourceTag.image.name ++ ":" from rfl,
    show "device:" = SourceTag.device.name ++ ":" from rfl, hprefix, hprefix, containerPrefixes_eq,
    List.findSome?_map]
  simp only [Function.comp_def, hcontainer]
  cases id with
  | image path n =>
    rw [if_pos (show SourceTag.image = (image path n).tag from rfl), stripPrefix_self _ (by simp)]
    simp only [middle, beforeLastColon_append path (colon_notMem_tail _), named]
  | device bsd n =>
    rw [if_neg (by simp [tag]), if_pos (show SourceTag.device = (device bsd n).tag from rfl),
      stripPrefix_self _ (by simp)]
    simp only [middle, beforeLastColon_append bsd (colon_notMem_tail _), named]
  | container f path n =>
    rw [if_neg (by simp [tag]), if_neg (by simp [tag]), stripPrefix_self _ (by simp)]
    simp only [middle, tag, SourceTag.container.injEq]
    have hbefore := beforeLastColon_append path (colon_notMem_tail (.container f path n))
    cases f <;> simp [knownFormats, named, hbefore]
  | zero n =>
    rw [if_neg (by simp [tag]), if_neg (by simp [tag])]
    simp [knownFormats, named, tag]
  | view inner start len =>
    rw [if_neg (by simp [tag]), if_neg (by simp [tag])]
    simp [knownFormats, named, tag]

/-- No id looks like another kind of source string than a path. -/
lemma stripPrefix_spec (t : SourceTag) (rest : List Char) :
    let s := t.name.toList ++ ':' :: rest
    stripPrefix "session:".toList s = none ∧ stripPrefix "fd:".toList s = none ∧
      stripPrefix "/dev/".toList s = none ∧ stripPrefix "r".toList s = none ∧
      stripPrefix "disk".toList s = none := by
  cases t with
  | container f => cases f <;> simp [stripPrefix, SourceTag.name, Format.name]
  | _ => simp [stripPrefix, SourceTag.name]

/-- **What `parse` makes of the id of a source**: the path of a file called like it. -/
lemma parse_text (host : SourceHost) (id : SourceId) : Resolved.parse host id.text =
    if host.isFile id.text = true then some (.image id.text) else none := by
  obtain ⟨rest, hrest, -⟩ := id.exists_rest
  obtain ⟨hsession, hfd, hdev, hr, hdisk⟩ := stripPrefix_spec id.tag rest
  unfold Resolved.parse
  rw [hrest, hsession, hfd]
  simp only [hdev, hr, hdisk, Option.getD_none, Option.bind_none, Option.any_none,
    Bool.false_eq_true, if_false]

end SourceId

/-! ## Device nodes -/

/-- The components of a path are parts of it. -/
lemma exists_part {s c : String} (h : c ∈ (FilePath.ofString s).comps) :
    ∃ part ∈ s.toList.splitOn '/', c = String.ofList part := by
  simp only [FilePath.ofString] at h
  have hmem : ∀ part ∈ (s.toList.splitOn '/').filter fun c => !c.isEmpty,
      part ∈ s.toList.splitOn '/' := fun part hp => (List.mem_filter.1 hp).1
  generalize (s.toList.splitOn '/').filter (fun c => !c.isEmpty) = parts at h hmem
  split at h
  · exact absurd h List.not_mem_nil
  · rename_i first rest hcomps
    have hsub : ∀ part ∈ first :: rest, part ∈ parts := by
      rw [← hcomps]
      intro part hp
      split at hp
      · split at hp
        · exact List.mem_cons_of_mem _ hp
        · exact hp
      · exact hp
    obtain ⟨part, hpart, rfl⟩ := List.mem_map.1 h
    refine ⟨part, hmem _ (hsub _ ?_), rfl⟩
    rcases List.mem_cons.1 hpart with rfl | hpart
    · exact List.mem_cons_self
    · exact List.mem_cons_of_mem _ (List.mem_filter.1 hpart).1

/-- The name of the raw node of a device is not the name of the device. -/
lemma nodeName_ne (b : String) : Resolved.nodeName ("/dev/r" ++ b) ≠ b := by
  have hlong : "/dev/r" ++ b ≠ b := by
    intro h
    have := congrArg String.length h
    simp at this
  intro h
  unfold Resolved.nodeName at h
  split at h
  · rename_i name hlast
    split at h
    · exact hlong h
    · subst h
      -- the name holds no slash, so the node has the two components `dev` and `r`, name
      obtain ⟨part, hpart, rfl⟩ := exists_part (List.mem_of_getLast? hlast)
      have hslash : '/' ∉ part := fun hmem =>
        absurd (eq_false_of_mem_splitOnP _ _ part hpart '/' hmem) (by simp)
      have hsplit : ("/dev/r" ++ String.ofList part).toList.splitOn '/' =
          [[], ['d', 'e', 'v'], 'r' :: part] := by
        have hrest : part.splitOnP (· == '/') = [part] := by
          apply List.splitOnP_eq_singleton
          intro x hx
          rw [beq_eq_false_iff_ne]
          rintro rfl
          exact hslash hx
        have hlist : ("/dev/r" ++ String.ofList part).toList =
            '/' :: 'd' :: 'e' :: 'v' :: '/' :: 'r' :: part := by simp
        rw [hlist, List.splitOn]
        simp [List.splitOnP_cons_eq_if_modifyHead, hrest]
      rw [FilePath.ofString, hsplit] at hlast
      simp at hlast
  · exact hlong h

/-! ## Coming back -/

/-- The same source as far as anything later can tell. -/
structure OpenedSource.SameAs (o o' : OpenedSource) : Prop where
  id : o.id.text = o'.id.text
  len : o.len = o'.len
  bytes : o.bytes = o'.bytes

/-- What should lead back to a source whose id was stored. -/
structure ComesBack (D : Decoders) (host : SourceHost) (o : OpenedSource) : Prop where
  reopens : ∃ r o', Resolved.fromSourceId o.id.text = some r ∧ r.open D host = some o' ∧ o'.SameAs o
  /-- The command line's copy of `fromSourceId`. -/
  cliReopens : ∃ r o', Cli.Resolved.fromSourceId o.id.text = some r ∧
    r.toFfi.open D host = some o' ∧ o'.SameAs o
  /-- On a handle made by `open_session`. -/
  resumes : ∃ o', resumeScan D host none (some o.id.text) = some o' ∧ o'.SameAs o

/-- The file at a path is raw, with the given bytes and canonical path. -/
structure IsRawAs (host : SourceHost) (path canonical : String) (d : Bytes) : Prop where
  sniffed : detect host path = .raw
  file : host.file path = some d
  canonical : host.canonical path = canonical

/-- The image at a path opens the same way under the path in its id, and under its id. -/
inductive OpensUnderId (D : Decoders) (host : SourceHost) (path : String) : Prop
  | raw (d : Bytes) (here : IsRawAs host path (host.canonical path) d)
      (canonical : IsRawAs host (host.canonical path) (host.canonical path) d)
      (id : IsRawAs host (SourceId.image (host.canonical path) d.length).text
        (host.canonical path) d)
  | sparse (q : String) (d : Bytes) (g : Guest) (here : SparseAt D host path q)
      (file : host.file q = some d) (guest : D.guest .vmdk d = some g)
      (extent : SparseAt D host q q)
      (id : SparseAt D host (SourceId.container .vmdk q g.bytes.length).text q)

section ComesBack

variable {D : Decoders} {host : SourceHost} {path spec : String} {o : OpenedSource} {r : Resolved}

/-- The command line's copy leads back exactly when the library's does. -/
lemma cliReopens_iff {P : OpenedSource → Prop} {id : String} :
    (∃ r o', Cli.Resolved.fromSourceId id = some r ∧ r.toFfi.open D host = some o' ∧ P o') ↔
      ∃ r o', Resolved.fromSourceId id = some r ∧ r.open D host = some o' ∧ P o' := by
  rw [← Cli.Resolved.fromSourceId_toFfi]
  constructor
  · rintro ⟨r, o', hr, hopen, hP⟩
    exact ⟨r.toFfi, o', by rw [hr, Option.map_some], hopen, hP⟩
  · rintro ⟨r, o', hr, hopen, hP⟩
    obtain ⟨c, hc, rfl⟩ := Option.map_eq_some_iff.1 hr
    exact ⟨c, o', hc, hopen, hP⟩

/-- Resuming opens a file that is called like the id. -/
lemma resumeScan_text (id : SourceId) : resumeScan D host none (some id.text) =
    if host.isFile id.text = true then openImageAuto D host id.text else none := by
  have hor : (none : Option String).or (some id.text) = some id.text := rfl
  rw [resumeScan, hor, Option.bind_some, openSource, id.parse_text]
  split
  · simp only [Option.bind_some, Resolved.open, Resolved.openPlain, Option.map_map]
    cases openImageAuto D host id.text with
    | none => rfl
    | some o => rfl
  · rfl

/-- What comes back from an image: the two openings of files. -/
lemma comesBack_of_named {p : String} (hnamed : o.id.named = some (.image p)) :
    ComesBack D host o ↔ (∃ o', openImageAuto D host p = some o' ∧ o'.SameAs o) ∧
      ∃ o', host.isFile o.id.text = true ∧ openImageAuto D host o.id.text = some o' ∧
        o'.SameAs o := by
  have hreopens : (∃ r o', Resolved.fromSourceId o.id.text = some r ∧ r.open D host = some o' ∧
      o'.SameAs o) ↔ ∃ o', openImageAuto D host p = some o' ∧ o'.SameAs o := by
    rw [o.id.fromSourceId_text, hnamed]
    constructor
    · rintro ⟨r, o', hr, hopen, hsame⟩
      obtain rfl := Option.some.inj hr
      exact ⟨o', hopen, hsame⟩
    · rintro ⟨o', hopen, hsame⟩
      exact ⟨_, o', rfl, hopen, hsame⟩
  have hresumes : (∃ o', resumeScan D host none (some o.id.text) = some o' ∧ o'.SameAs o) ↔
      ∃ o', host.isFile o.id.text = true ∧ openImageAuto D host o.id.text = some o' ∧
        o'.SameAs o := by
    rw [resumeScan_text]
    split
    · rename_i hfile
      simp only [hfile, true_and]
    · rename_i hfile
      simp [hfile]
  constructor
  · rintro ⟨h, -, h'⟩
    exact ⟨hreopens.1 h, hresumes.1 h'⟩
  · rintro ⟨h, h'⟩
    exact ⟨hreopens.2 h, cliReopens_iff.2 (hreopens.2 h), hresumes.2 h'⟩

/-- An id that names no source does not lead back. -/
lemma not_comesBack_of_named (hnamed : o.id.named = none) : ¬ ComesBack D host o := by
  rintro ⟨⟨r, o', hr, -⟩, -⟩
  rw [o.id.fromSourceId_text, hnamed] at hr
  exact absurd hr (by simp)

/-- The id of a device names a node under which no device has that id. -/
lemma not_comesBack_of_device {b : String} {n : ℕ} (hid : o.id = .device b n) :
    ¬ ComesBack D host o := by
  rintro ⟨⟨r, o', hr, hopen, hsame⟩, -⟩
  rw [o.id.fromSourceId_text, hid] at hr
  obtain rfl := Option.some.inj hr
  obtain ⟨g, -, rfl⟩ := Option.map_eq_some_iff.1 hopen
  have hids := SourceId.text_injective hsame.id
  rw [hid, SourceId.device.injEq] at hids
  exact nodeName_ne b hids.1

lemma OpenedSource.SameAs.refl (o : OpenedSource) : o.SameAs o := ⟨rfl, rfl, rfl⟩

/-- A file opens as a raw image exactly when it is one, has its bytes and its canonical path. -/
lemma opens_raw_iff {c : String} {d : Bytes} :
    (∃ o', openImageAuto D host path = some o' ∧ o'.SameAs ⟨.image c d.length, 512, d⟩) ↔
      IsRawAs host path c d := by
  constructor
  · rintro ⟨o', hopen, hid, -, hbytes⟩
    have hid := SourceId.text_injective hid
    cases openImageAuto_presents hopen with
    | raw d' hsniffed hfile hopened =>
      subst hopened
      obtain rfl : d' = d := hbytes
      exact ⟨hsniffed, hfile, (SourceId.image.inj hid).1⟩
    | sparse q _ hopened =>
      obtain ⟨n, hn⟩ := id_of_decoded hopened
      exact absurd (hn.symm.trans hid) (by simp)
    | ownPath f n _ _ hn => exact absurd (hn.symm.trans hid) (by simp)
    | segment seg n hn => exact absurd (hn.symm.trans hid) (by simp)
    | zero n hn => exact absurd (hn.symm.trans hid) (by simp)
    | window i st l hn => exact absurd (hn.symm.trans hid) (by simp)
  · rintro ⟨hsniffed, hfile, hcanonical⟩
    refine ⟨_, openImageAuto_of_raw hsniffed hfile, ?_⟩
    rw [hcanonical]
    exact .refl _

/-- A file opens as a hosted sparse extent exactly when it stands for it. -/
lemma opens_sparse_iff {q : String} (h : decoded D host .vmdk q = some o) :
    (∃ o', openImageAuto D host path = some o' ∧ o'.SameAs o) ↔ SparseAt D host path q := by
  obtain ⟨n, hn⟩ := id_of_decoded h
  constructor
  · rintro ⟨o', hopen, hid, -⟩
    have hid := (SourceId.text_injective hid).trans hn
    cases openImageAuto_presents hopen with
    | raw d' _ _ hopened => exact absurd hid (by simp [hopened])
    | sparse q' hfound hopened =>
      obtain ⟨n', hn'⟩ := id_of_decoded hopened
      obtain rfl : q' = q := (SourceId.container.inj (hn'.symm.trans hid)).2.1
      exact hfound
    | ownPath f n' hv _ hn' => exact absurd (SourceId.container.inj (hn'.symm.trans hid)).1 hv
    | segment seg n' hn' => exact absurd (hn'.symm.trans hid) (by simp)
    | zero n' hn' => exact absurd (hn'.symm.trans hid) (by simp)
    | window i st l hn' => exact absurd (hn'.symm.trans hid) (by simp)
  · intro hfound
    exact ⟨o, (openImageAuto_of_sparseAt hfound).trans h, .refl o⟩

/-- A container that is opened under its own path is not opened under its id. -/
lemma not_opens_ownPath {f : Format} {n : ℕ} (hv : f ≠ .vmdk) (he : f ≠ .ewfSeg)
    (hid : o.id = .container f path n) :
    ¬ ∃ o', openImageAuto D host o.id.text = some o' ∧ o'.SameAs o := by
  rintro ⟨o', hopen, hsame, -⟩
  have hsame := (SourceId.text_injective hsame).trans hid
  have hlong : o.id.text ≠ path := by
    intro hpath
    have hlt := o.id.length_middle_lt (by simp [hid])
    rw [hpath, hid] at hlt
    exact absurd hlt (lt_irrefl _)
  cases openImageAuto_presents hopen with
  | raw d' _ _ hopened => exact absurd hsame (by simp [hopened])
  | sparse q' _ hopened =>
    obtain ⟨n', hn'⟩ := id_of_decoded hopened
    exact hv (SourceId.container.inj (hn'.symm.trans hsame)).1.symm
  | ownPath f' n' _ _ hn' => exact hlong (SourceId.container.inj (hn'.symm.trans hsame)).2.1
  | segment seg n' hn' => exact he (SourceId.container.inj (hn'.symm.trans hsame)).1.symm
  | zero n' hn' => exact absurd (hn'.symm.trans hsame) (by simp)
  | window i st l hn' => exact absurd (hn'.symm.trans hsame) (by simp)

/-- Every format but one is reopened by path. -/
lemma named_container {f : Format} (he : f ≠ .ewfSeg) (p : String) (n : ℕ) :
    (SourceId.container f p n).named = some (.image p) := by
  cases f <;> first | rfl | exact absurd rfl he

/-- Adding that there is a file says nothing where the file is opened. -/
lemma and_isFile {p : String} {P : Prop} (h : P → ∃ d, host.file p = some d) :
    host.isFile p = true ∧ P ↔ P := by
  apply and_iff_right_of_imp
  intro hP
  obtain ⟨d, hd⟩ := h hP
  simp [SourceHost.isFile, hd]

lemma SparseAt.exists_file {p q : String} (h : SparseAt D host p q) :
    ∃ d, host.file p = some d := by
  obtain ⟨-, d, hd, -⟩ := h
  exact ⟨d, hd⟩

/-- An image that opens under its id is a raw image or a hosted sparse extent. -/
lemma OpensUnderId.id_cases (hu : OpensUnderId D host path)
    (h : openImageAuto D host path = some o) :
    (∃ c n, o.id = .image c n) ∨ ∃ q n, o.id = .container .vmdk q n := by
  rcases hu with ⟨d, hhere, -⟩ | ⟨q, d, g, hhere, -⟩
  · have hraw := (openImageAuto_of_raw hhere.sniffed hhere.file).symm.trans h
    obtain rfl := Option.some.inj hraw
    exact .inl ⟨_, _, rfl⟩
  · exact .inr ⟨q, id_of_decoded ((openImageAuto_of_sparseAt hhere).symm.trans h)⟩

/-- When an image leads back. -/
lemma image_comesBack_iff (h : openImageAuto D host path = some o) :
    ComesBack D host o ↔ OpensUnderId D host path := by
  cases openImageAuto_presents h with
  | raw d hsniffed hfile hopened =>
    subst hopened
    rw [comesBack_of_named (p := host.canonical path) rfl, exists_and_left, opens_raw_iff,
      opens_raw_iff, and_isFile fun hr => ⟨d, hr.file⟩]
    constructor
    · rintro ⟨hcanonical, hid⟩
      exact .raw d ⟨hsniffed, hfile, rfl⟩ hcanonical hid
    · rintro (⟨d', hhere, hcanonical, hid⟩ | ⟨q, d', g, hhere, -⟩)
      · obtain rfl := Option.some.inj (hhere.file.symm.trans hfile)
        exact ⟨hcanonical, hid⟩
      · exact absurd (hhere.1.symm.trans hsniffed) (by simp)
  | sparse q hfound hopened =>
    obtain ⟨g, hguest, rfl⟩ := Option.map_eq_some_iff.1 hopened
    obtain ⟨d, hfile, hguest⟩ := Option.bind_eq_some_iff.1 hguest
    rw [comesBack_of_named (p := q) rfl, exists_and_left, opens_sparse_iff hopened,
      opens_sparse_iff hopened, and_isFile SparseAt.exists_file]
    constructor
    · rintro ⟨hextent, hid⟩
      exact .sparse q d g hfound hfile hguest hextent hid
    · rintro (⟨d', hhere, -⟩ | ⟨q', d', g', hhere, hfile', hguest', hextent, hid⟩)
      · exact absurd (hfound.1.symm.trans hhere.sniffed) (by simp)
      · -- a file stands for one extent only
        have hboth := (openImageAuto_of_sparseAt hhere).symm.trans h
        obtain ⟨n, hn⟩ := id_of_decoded hboth
        obtain rfl : q = q' := (SourceId.container.inj hn).2.1
        obtain rfl := Option.some.inj (hfile'.symm.trans hfile)
        obtain rfl := Option.some.inj (hguest'.symm.trans hguest)
        exact ⟨hextent, hid⟩
  | ownPath f n hv he hid =>
    refine iff_of_false (fun hback => ?_) ?_
    · rw [comesBack_of_named (p := path) (hid ▸ named_container he path n)] at hback
      obtain ⟨-, o', -, hopens⟩ := hback
      exact not_opens_ownPath hv he hid ⟨o', hopens⟩
    · intro hu
      rcases hu.id_cases h with ⟨c, n', hid'⟩ | ⟨q, n', hid'⟩
      · exact absurd (hid.symm.trans hid') (by simp)
      · exact hv (SourceId.container.inj (hid.symm.trans hid')).1
  | segment seg n hid =>
    apply iff_of_false (not_comesBack_of_named (by rw [hid]; rfl))
    intro hu
    rcases hu.id_cases h with ⟨c, n', hid'⟩ | ⟨q, n', hid'⟩
    · exact absurd (hid.symm.trans hid') (by simp)
    · exact absurd (hid.symm.trans hid') (by simp)
  | zero n hid =>
    apply iff_of_false (not_comesBack_of_named (by rw [hid]; rfl))
    intro hu
    rcases hu.id_cases h with ⟨c, n', hid'⟩ | ⟨q, n', hid'⟩
    · exact absurd (hid.symm.trans hid') (by simp)
    · exact absurd (hid.symm.trans hid') (by simp)
  | window i st l hid =>
    apply iff_of_false (not_comesBack_of_named (by rw [hid]; rfl))
    intro hu
    rcases hu.id_cases h with ⟨c, n', hid'⟩ | ⟨q, n', hid'⟩
    · exact absurd (hid.symm.trans hid') (by simp)
    · exact absurd (hid.symm.trans hid') (by simp)

/-- **When a stored session leads back to its source.**  Of every source that a scan can be started
on, the id leads back to it, and a scan resumed on the reopened session reaches it, exactly when
the source is an image that opens the same way under the path in its id, and a file called like
the id itself opens the same way too. -/
theorem comesBack_iff (h : openSource D host spec = some (r, o)) :
    ComesBack D host o ↔ ∃ path, r = .image path ∧ OpensUnderId D host path := by
  obtain ⟨r', hparse, hmap⟩ := Option.bind_eq_some_iff.1 h
  obtain ⟨o', hopen, hpair⟩ := Option.map_eq_some_iff.1 hmap
  obtain ⟨rfl, rfl⟩ := Prod.mk.inj hpair
  clear h hmap hpair
  cases r' with
  | image path =>
    rw [image_comesBack_iff hopen]
    constructor
    · exact fun hu => ⟨path, rfl, hu⟩
    · rintro ⟨path', hsame, hu⟩
      obtain rfl := Resolved.image.inj hsame
      exact hu
  | device bsd node =>
    refine iff_of_false ?_ (by simp)
    obtain ⟨g, -, rfl⟩ := Option.map_eq_some_iff.1 hopen
    exact not_comesBack_of_device rfl
  | fd n label =>
    refine iff_of_false ?_ (by simp)
    obtain ⟨g, -, rfl⟩ := Option.map_eq_some_iff.1 hopen
    exact not_comesBack_of_device rfl
  | volume dir index =>
    refine iff_of_false ?_ (by simp)
    have hadopted : Resolved.openAdopted D host dir index = some o' := hopen
    obtain ⟨s, -, hview⟩ := Option.bind_eq_some_iff.1 hadopted
    split at hview
    · cases hview
    · dsimp only at hview
      split at hview
      · cases hview
      · obtain ⟨base, -, hview⟩ := Option.bind_eq_some_iff.1 hview
        unfold offsetView at hview
        split at hview
        · cases hview
        · obtain rfl := Option.some.inj hview
          exact not_comesBack_of_named rfl

end ComesBack

/-! ## A linked image and a device -/

/-- Nothing can be decoded. -/
def noDecoders : Decoders := ⟨fun _ _ => none, fun _ => none, fun _ => ""⟩

/-- A host with an image of one byte, a link to it that is called like its id, and a disk. -/
def linkedHost : SourceHost where
  file path := if path = "/x" ∨ path = "image:/x:1" then some [1] else none
  canonical _ := "/x"
  device node := if node = "/dev/rdisk4" then some ⟨512, [1]⟩ else none
  fd _ := none
  session _ := none

/-- The image of the linked host leads back. -/
theorem linkedImage_comesBack :
    openSource noDecoders linkedHost "/x" = some (.image "/x", ⟨.image "/x" 1, 512, [1]⟩) ∧
      ComesBack noDecoders linkedHost ⟨.image "/x" 1, 512, [1]⟩ := by
  have hraw : detect linkedHost "/x" = .raw := by decide +kernel
  have hlink : detect linkedHost "image:/x:1" = .raw := by decide +kernel
  have hopen : openSource noDecoders linkedHost "/x" =
      some (.image "/x", ⟨.image "/x" 1, 512, [1]⟩) := by
    have hparse : Resolved.parse linkedHost "/x" = some (.image "/x") := by decide
    have hfile : linkedHost.file "/x" = some [1] := rfl
    simp only [openSource, hparse, Option.bind_some, Resolved.open, Resolved.openPlain,
      openImageAuto_of_raw hraw hfile, Option.map_some]
    rfl
  refine ⟨hopen, (comesBack_iff hopen).2 ⟨"/x", rfl, ?_⟩⟩
  exact .raw [1] ⟨hraw, rfl, rfl⟩ ⟨hraw, rfl, rfl⟩ ⟨hlink, rfl, rfl⟩

/-- **A disk does not lead back**: its id names the raw node, which is taken for the disk. -/
theorem disk_counterexample :
    openSource noDecoders linkedHost "disk4" =
        some (.device "disk4" "/dev/rdisk4", ⟨.device "rdisk4" 1, 512, [1]⟩) ∧
      Resolved.fromSourceId "device:rdisk4:1" = some (.device "rdisk4" "/dev/rrdisk4") ∧
      Resolved.parse linkedHost "device:rdisk4:1" = none ∧
      ¬ ComesBack noDecoders linkedHost ⟨.device "rdisk4" 1, 512, [1]⟩ := by
  refine ⟨by decide, by decide, by decide, ?_⟩
  exact not_comesBack_of_device rfl

end Reclaim
