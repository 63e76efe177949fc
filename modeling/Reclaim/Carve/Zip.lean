import Reclaim.Carve.FileView
import Reclaim.Carve.Text

/-!
# ZIP archives

An archive is its members, each behind a local header, then a central header for each member, and an
end record with a comment.  The validator walks the local headers and then the central ones, and
ends behind the comment; an archive that begins with the end record is taken for one without
comment.
-/

namespace Reclaim

open FileBytes

namespace Zip

/-- `LFH`: a local header. -/
def lfh : Bytes := [0x50, 0x4B, 0x03, 0x04]

/-- `CDH`: a central header. -/
def cdh : Bytes := [0x50, 0x4B, 0x01, 0x02]

/-- `EOCD`: the end record. -/
def eocd : Bytes := [0x50, 0x4B, 0x05, 0x06]

/-- `MAX`. -/
def maxSize : ℕ := 4 * 1024 * 1024 * 1024

/-- `MAX_ENTRIES`. -/
def maxEntries : ℕ := 200000

/-- `FALLBACK_CAP`. -/
def fallbackCap : ℕ := 64 * 1024 * 1024

/-- What the local headers say about the kind of the archive: the first names, and the data of a
first member with the name `mimetype`.  A character of a name is a byte. -/
structure Found where
  names : List Bytes
  mimetype : Option Bytes

/-- The data of a first member with the name `mimetype`. -/
def readMimetype (ctx : Ctx) (first : Bool) (name : Bytes) (dataOff compSize : ℕ)
    (found : Found) : ReadProg Found :=
  if first = true ∧ name = PlainText.ascii "mimetype" then do
    let mt ← ctx.read dataOff (min compSize 128)
    pure { found with mimetype := some mt }
  else pure found

/-- The local headers from `pos` on, `fuel` at most: where they end, what they say, and whether the
walk was blocked. -/
def walkLocal (ctx : Ctx) (cap : ℕ) : (fuel pos : ℕ) → Bool × Found → ReadProg (ℕ × Found × Bool)
  | 0, pos, s => pure (pos, s.2, false)
  | fuel + 1, pos, s => do
    let h ← ctx.read pos 30
    if h.take 4 ≠ lfh then pure (pos, s.2, false)
    else do
      let compSize := leU32 h 18
      let nameLen := leU16 h 26
      let extraLen := leU16 h 28
      let name ← ctx.read (pos + 30) (min nameLen 1024)
      let found ← readMimetype ctx s.1 name (pos + 30 + nameLen + extraLen) compSize s.2
      let found :=
        if found.names.length < 64 then { found with names := found.names ++ [name] } else found
      -- the size of the data is behind the data
      if leU16 h 6 / 8 % 2 = 1 then pure (pos, found, true)
      else
        let pos := pos + 30 + nameLen + extraLen + compSize
        if cap < pos + 4 then pure (pos, found, true)
        else walkLocal ctx cap fuel pos (false, found)

/-- `size_from_central_dir`: the end of the archive, by the central headers from `pos` on. -/
def sizeFromCentralDir (ctx : Ctx) (cap : ℕ) : (fuel pos : ℕ) → ReadProg (Option ℕ)
  | 0, _ => pure none
  | fuel + 1, pos => do
    let h ← ctx.read pos 46
    if h.take 4 = cdh then
      let pos := pos + 46 + leU16 h 28 + leU16 h 30 + leU16 h 32
      if cap < pos then pure none else sizeFromCentralDir ctx cap fuel pos
    else if h.take 4 = eocd then do
      let e ← ctx.read pos 22
      pure (some (pos + 22 + leU16 e 20))
    else pure none

/-- `refine`: the kind of the archive. -/
def refine (found : Found) : String :=
  let mt := fun needle => found.mimetype.any fun m => (findBytes (PlainText.ascii needle) m).isSome
  let has := fun needle => found.names.any fun n => (findBytes (PlainText.ascii needle) n).isSome
  let starts := fun start => found.names.any fun n => (PlainText.ascii start).isPrefixOf n
  if mt "epub" then "doc.epub"
  else if mt "vnd.oasis.opendocument" then "doc.odf"
  else if has "Index/Document.iwa" || starts "Index/" then "doc.iwork"
  else if has "3D/3dmodel.model" then "model.3mf"
  -- whatever directory the parts are in
  else if has "[Content_Types].xml" then "doc.ooxml"
  else "archive.zip"

/-- The size of an archive, unless the local headers blocked the walk. -/
def archiveEnd (ctx : Ctx) (cap pos : ℕ) (blocked : Bool) : ReadProg (Option ℕ) :=
  if blocked then pure none else sizeFromCentralDir ctx cap maxEntries pos

/-- `validate`. -/
def validate (ctx : Ctx) : ReadProg Verdict := do
  let head ← ctx.read 0 4
  if head = eocd then
    -- an empty archive
    pure { Verdict.accepted 22 .full 60 with format := some "archive.zip" }
  else if head ≠ lfh then pure .rejected
  else do
    let cap := min ctx.available maxSize
    let r ← walkLocal ctx cap maxEntries 0 (true, ⟨[], none⟩)
    let total ← archiveEnd ctx cap r.1 r.2.2
    let verdict : Verdict :=
      match total with
      | some total =>
        if total ≤ cap then .accepted (min total cap) .full 90
        else .accepted (min total cap) .truncated 55
      | none => .accepted (min cap fallbackCap) .suspect 45
    pure { verdict with format := some (refine r.2.1) }

/-! ## The format -/

/-- A member, with what its two headers say.  Its size is known before its data, and 32 bits. -/
structure Member where
  version : Bytes
  flags : ℕ
  /-- Method, time, date and checksum. -/
  stamp : Bytes
  /-- The size of the data once it is uncompressed. -/
  fullSize : Bytes
  name : Bytes
  extra : Bytes
  data : Bytes
  /-- The central header up to the length of the name. -/
  centralHead : Bytes
  centralExtra : Bytes
  comment : Bytes
  /-- Disk, attributes and place of the local header. -/
  centralTail : Bytes
  version_length : version.length = 2
  flags_lt : flags < 256 ^ 2
  /-- No data descriptor. -/
  flags_bit : flags / 8 % 2 = 0
  stamp_length : stamp.length = 10
  fullSize_length : fullSize.length = 4
  name_lt : name.length < 256 ^ 2
  extra_lt : extra.length < 256 ^ 2
  data_lt : data.length < 256 ^ 4
  centralHead_length : centralHead.length = 24
  centralExtra_lt : centralExtra.length < 256 ^ 2
  comment_lt : comment.length < 256 ^ 2
  centralTail_length : centralTail.length = 12

namespace Member

/-- The local header and the data, part by part. -/
def localParts (m : Member) : List Bytes :=
  [lfh, m.version, leBytes 2 m.flags, m.stamp, leBytes 4 m.data.length, m.fullSize,
    leBytes 2 m.name.length, leBytes 2 m.extra.length, m.name, m.extra, m.data]

/-- The central header, part by part. -/
def centralParts (m : Member) : List Bytes :=
  [cdh, m.centralHead, leBytes 2 m.name.length, leBytes 2 m.centralExtra.length,
    leBytes 2 m.comment.length, m.centralTail, m.name, m.centralExtra, m.comment]

/-- The local header and the data. -/
def localBytes (m : Member) : Bytes := m.localParts.flatten

/-- The central header. -/
def centralBytes (m : Member) : Bytes := m.centralParts.flatten

lemma length_localBytes (m : Member) :
    m.localBytes.length = 30 + m.name.length + m.extra.length + m.data.length := by
  simp [localBytes, localParts, m.version_length, m.stamp_length, m.fullSize_length, lfh]
  omega

lemma length_centralBytes (m : Member) :
    m.centralBytes.length = 46 + m.name.length + m.centralExtra.length + m.comment.length := by
  simp [centralBytes, centralParts, m.centralHead_length, m.centralTail_length, cdh]
  omega

lemma take_localBytes (m : Member) {len : ℕ} (h : 4 ≤ len) (x : Bytes) :
    (slice (m.localBytes ++ x) 0 len).take 4 = lfh := by
  rw [localBytes, localParts, List.flatten_cons, List.append_assoc]
  exact take_slice_append (a := lfh) h

lemma take_centralBytes (m : Member) {len : ℕ} (h : 4 ≤ len) (x : Bytes) :
    (slice (m.centralBytes ++ x) 0 len).take 4 = cdh := by
  rw [centralBytes, centralParts, List.flatten_cons, List.append_assoc]
  exact take_slice_append (a := cdh) h

/-- The fields of a local header, read with whatever follows. -/
lemma read_localBytes (m : Member) (x : Bytes) :
    let h := slice (m.localBytes ++ x) 0 30
    h.take 4 = lfh ∧ leU16 h 6 = m.flags ∧ leU32 h 18 = m.data.length ∧
      leU16 h 26 = m.name.length ∧ leU16 h 28 = m.extra.length := by
  refine ⟨m.take_localBytes (by omega) x, leField_flatten 2 rfl ?_ m.flags_lt (by omega) x,
    leField_flatten 4 rfl ?_ m.data_lt (by omega) x,
    leField_flatten 6 rfl ?_ m.name_lt (by omega) x,
    leField_flatten 7 rfl ?_ m.extra_lt (by omega) x⟩
  all_goals simp [localParts, m.version_length, m.stamp_length, m.fullSize_length, lfh]

/-- The fields of a central header. -/
lemma read_centralBytes (m : Member) (x : Bytes) :
    let h := slice (m.centralBytes ++ x) 0 46
    h.take 4 = cdh ∧ leU16 h 28 = m.name.length ∧ leU16 h 30 = m.centralExtra.length ∧
      leU16 h 32 = m.comment.length := by
  refine ⟨m.take_centralBytes (by omega) x, leField_flatten 2 rfl ?_ m.name_lt (by omega) x,
    leField_flatten 3 rfl ?_ m.centralExtra_lt (by omega) x,
    leField_flatten 4 rfl ?_ m.comment_lt (by omega) x⟩
  all_goals simp [centralParts, m.centralHead_length, cdh]

end Member

/-- An archive: members, as many as 16 bits count, and a comment. -/
structure Archive where
  members : List Member
  /-- The end record between its magic and the length of the comment. -/
  endFields : Bytes
  comment : Bytes
  members_le : members.length ≤ 65535
  endFields_length : endFields.length = 16
  comment_lt : comment.length < 256 ^ 2

namespace Archive

/-- The local headers with the data. -/
def locals (a : Archive) : Bytes := a.members.flatMap Member.localBytes

/-- The central headers. -/
def centrals (a : Archive) : Bytes := a.members.flatMap Member.centralBytes

/-- The end record, part by part. -/
def endParts (a : Archive) : List Bytes :=
  [eocd, a.endFields, leBytes 2 a.comment.length, a.comment]

/-- The bytes of an archive. -/
def bytes (a : Archive) : Bytes := a.locals ++ (a.centrals ++ a.endParts.flatten)

lemma length_end (a : Archive) : a.endParts.flatten.length = 22 + a.comment.length := by
  simp [endParts, a.endFields_length, eocd]
  omega

lemma length_bytes (a : Archive) :
    a.bytes.length = a.locals.length + a.centrals.length + 22 + a.comment.length := by
  rw [bytes, List.length_append, List.length_append, length_end]
  omega

lemma take_end (a : Archive) {len : ℕ} (h : 4 ≤ len) (x : Bytes) :
    (slice (a.endParts.flatten ++ x) 0 len).take 4 = eocd := by
  rw [endParts, List.flatten_cons, List.append_assoc]
  exact take_slice_append (a := eocd) h

lemma read_end (a : Archive) (x : Bytes) :
    leU16 (slice (a.endParts.flatten ++ x) 0 22) 20 = a.comment.length := by
  refine leField_flatten 2 rfl ?_ a.comment_lt (by omega) x
  simp [endParts, a.endFields_length, eocd]

end Archive

/-! ## The walks -/

section Walks

variable {R : Reader} {ctx : Ctx} {g T : Bytes} {cap fuel pos n : ℕ} {m : Member} {a : Archive}

/-- **One local header.** -/
lemma run_walkLocal_member (h : ctx.Sees R g) (hg : g.drop pos = m.localBytes ++ T)
    (hcap : pos + m.localBytes.length + 4 ≤ cap) (s : Bool × Found) :
    ∃ s', (walkLocal ctx cap (fuel + 1) pos s).run R =
      (walkLocal ctx cap fuel (pos + m.localBytes.length) s').run R := by
  obtain ⟨hmagic, hflags, hdata, hname, hextra⟩ := m.read_localBytes T
  have hlen := m.length_localBytes
  have hnext : pos + 30 + m.name.length + m.extra.length + m.data.length =
      pos + m.localBytes.length := by omega
  rw [walkLocal]
  simp only [ReadProg.run_bind, ReadProg.run_ite, h.read]
  rw [slice_eq_slice_drop g pos 30, hg, hmagic, hflags, hdata, hname, hextra, hnext,
    if_neg (not_not.2 rfl), if_neg (by rw [m.flags_bit]; decide), if_neg (by omega)]
  exact ⟨_, rfl⟩

/-- A local walk stops before what is no local header. -/
lemma run_walkLocal_stop (h : ctx.Sees R g) (hg : (slice g pos 30).take 4 ≠ lfh)
    (s : Bool × Found) : (walkLocal ctx cap fuel pos s).run R = (pos, s.2, false) := by
  cases fuel with
  | zero => rfl
  | succ fuel =>
    rw [walkLocal]
    simp only [ReadProg.run_bind, ReadProg.run_ite, h.read]
    rw [if_pos hg]
    rfl

/-- **One central header.** -/
lemma run_centralDir_member (h : ctx.Sees R g) (hg : g.drop pos = m.centralBytes ++ T)
    (hcap : pos + m.centralBytes.length ≤ cap) :
    (sizeFromCentralDir ctx cap (fuel + 1) pos).run R =
      (sizeFromCentralDir ctx cap fuel (pos + m.centralBytes.length)).run R := by
  obtain ⟨hmagic, hname, hextra, hcomment⟩ := m.read_centralBytes T
  have hlen := m.length_centralBytes
  have hnext : pos + 46 + m.name.length + m.centralExtra.length + m.comment.length =
      pos + m.centralBytes.length := by omega
  rw [sizeFromCentralDir]
  simp only [ReadProg.run_bind, ReadProg.run_ite, h.read]
  rw [slice_eq_slice_drop g pos 46, hg, hmagic, hname, hextra, hcomment, hnext, if_pos rfl,
    if_neg (by omega)]

/-- The end record. -/
lemma run_centralDir_end (h : ctx.Sees R g) (hg : g.drop pos = a.endParts.flatten ++ T) :
    (sizeFromCentralDir ctx cap (fuel + 1) pos).run R = some (pos + 22 + a.comment.length) := by
  rw [sizeFromCentralDir]
  simp only [ReadProg.run_bind, ReadProg.run_ite, h.read]
  rw [slice_eq_slice_drop g pos 46, slice_eq_slice_drop g pos 22, hg, a.take_end (by omega),
    a.read_end, if_neg (by decide), if_pos rfl]
  rfl

/-- **The central walk finds the end of an archive.** -/
lemma run_centralDir (h : ctx.Sees R (a.bytes ++ T)) (hcap : a.bytes.length ≤ cap) :
    (sizeFromCentralDir ctx cap maxEntries a.locals.length).run R = some a.bytes.length := by
  have hlen := a.length_bytes
  have hcount := a.members_le
  have hmax : maxEntries = 134465 + 65535 := rfl
  obtain ⟨fuel, hfuel⟩ : ∃ fuel, maxEntries = fuel + 1 + a.members.length :=
    ⟨maxEntries - 1 - a.members.length, by omega⟩
  have hg : (a.bytes ++ T).drop a.locals.length = a.centrals ++ (a.endParts.flatten ++ T) := by
    rw [Archive.bytes, List.append_assoc, List.append_assoc, List.drop_left]
  have hend : (a.bytes ++ T).drop (a.locals.length + a.centrals.length) =
      a.endParts.flatten ++ T := by
    rw [← List.drop_drop, hg, List.drop_left]
  have hfit : a.locals.length + a.centrals.length ≤ cap := by omega
  obtain ⟨-, hwalk⟩ := exists_walk_records (fun fuel pos (_ : Unit) =>
    (sizeFromCentralDir ctx cap fuel pos).run R)
    (fun m _ fuel pos _ x hx hle => ⟨(), run_centralDir_member h hx hle⟩) (fuel + 1) () hg hfit
  rw [hfuel]
  refine hwalk.trans ((run_centralDir_end h hend).trans (congrArg some ?_))
  rw [hlen]

/-- **The local walk ends where the central headers begin.** -/
lemma run_walkLocal (h : ctx.Sees R (a.bytes ++ T)) (hcap : a.bytes.length ≤ cap)
    (s : Bool × Found) : ∃ found,
      (walkLocal ctx cap maxEntries 0 s).run R = (a.locals.length, found, false) := by
  have hlen := a.length_bytes
  have hcount := a.members_le
  have hmax : maxEntries = 134465 + 65535 := rfl
  obtain ⟨fuel, hfuel⟩ : ∃ fuel, maxEntries = fuel + a.members.length :=
    ⟨maxEntries - a.members.length, by omega⟩
  have hg : (a.bytes ++ T).drop 0 = a.locals ++ (a.centrals ++ (a.endParts.flatten ++ T)) := by
    rw [List.drop_zero, Archive.bytes, List.append_assoc, List.append_assoc]
  have hfit : 0 + a.locals.length ≤ cap - 4 := by omega
  obtain ⟨s', hwalk⟩ := exists_walk_records (fun fuel pos s =>
    (walkLocal ctx cap fuel pos s).run R)
    (fun m _ fuel pos s x hx hle => run_walkLocal_member h hx (by omega) s) fuel s hg hfit
  rw [hfuel]
  refine ⟨s'.2, hwalk.trans ?_⟩
  -- behind the members is a central header, or the end record
  have hstop : (slice (a.bytes ++ T) a.locals.length 30).take 4 ≠ lfh := by
    rw [slice_eq_slice_drop, ← Nat.zero_add a.locals.length, ← List.drop_drop, hg, List.drop_left,
      Archive.centrals]
    cases a.members with
    | nil =>
      rw [List.flatMap_nil, List.nil_append, a.take_end (by omega)]
      decide
    | cons m rest =>
      rw [List.flatMap_cons, List.append_assoc, m.take_centralBytes (by omega)]
      decide
  have hstart : 0 + (a.members.flatMap Member.localBytes).length = a.locals.length := Nat.zero_add _
  rw [hstart]
  exact run_walkLocal_stop h hstop s'

end Walks

/-! ## An archive and what follows it -/

section Exact

variable {R : Reader} {ctx : Ctx} {a : Archive} {T : Bytes}

/-- What the first four bytes are. -/
lemma take_bytes (a : Archive) (T : Bytes) :
    slice (a.bytes ++ T) 0 4 = if a.members = [] then eocd else lfh := by
  rw [← take_slice _ _ (show 4 ≤ 30 by omega), Archive.bytes, Archive.locals, Archive.centrals]
  cases a.members with
  | nil =>
    rw [List.flatMap_nil, List.nil_append, List.flatMap_nil, List.nil_append, a.take_end (by omega)]
    rfl
  | cons m rest =>
    rw [List.flatMap_cons, List.append_assoc, List.append_assoc, m.take_localBytes (by omega)]
    rfl

/-- **When the length is right**: an archive without members has no comment, and one with members
lies within the cap. -/
theorem archive_exact_iff (h : ctx.Sees R (a.bytes ++ T)) :
    ((validate ctx).run R).IsFull a.bytes.length ↔
      (a.members = [] ∧ a.comment = []) ∨
        (a.members ≠ [] ∧ a.bytes.length ≤ min ctx.available maxSize) := by
  have hlen := a.length_bytes
  unfold validate
  simp only [ReadProg.run_bind, ReadProg.run_ite, h.read, take_bytes]
  by_cases hempty : a.members = []
  · have hbare : a.bytes.length = 22 + a.comment.length := by
      rw [hlen, Archive.locals, Archive.centrals, hempty]
      simp
    rw [if_pos hempty, if_pos rfl, hbare, and_iff_right hempty,
      or_iff_left (fun hx => hx.1 hempty), ← List.length_eq_zero_iff]
    constructor
    · intro hf
      have : 22 = 22 + a.comment.length := hf.2.2
      omega
    · intro hc
      rw [hc]
      exact ⟨rfl, rfl, rfl⟩
  · rw [if_neg hempty, if_neg (by decide), if_neg (not_not.2 rfl),
      or_iff_right (fun hx => hempty hx.1), and_iff_right hempty]
    set cap := min ctx.available maxSize with hcap
    constructor
    · -- a full length is one within the cap
      intro hf
      generalize (walkLocal ctx cap maxEntries 0 (true, ⟨[], none⟩)).run R = r at hf
      generalize (archiveEnd ctx cap r.1 r.2.2).run R = total at hf
      cases total with
      | none => exact absurd hf.2.1 (by decide : Validity.suspect ≠ .full)
      | some total =>
        by_cases hfit : total ≤ cap
        · simp only [if_pos hfit] at hf
          have hn : min total cap = a.bytes.length := hf.2.2
          omega
        · simp only [if_neg hfit] at hf
          exact absurd hf.2.1 (by decide : Validity.truncated ≠ .full)
    · intro hfit
      obtain ⟨found, hlocal⟩ := run_walkLocal h hfit (true, ⟨[], none⟩)
      have hcentral := run_centralDir h hfit
      rw [hlocal]
      dsimp only [archiveEnd]
      rw [if_neg Bool.false_ne_true, hcentral]
      simp only [if_pos hfit, min_eq_left hfit]
      exact ⟨rfl, rfl, rfl⟩

/-- `archive.zip` of the catalog. -/
def sig : SigDef where
  id := "archive.zip"
  family := "archive"
  extensions := ["zip", "jar", "apk", "ipa", "xpi"]
  headers := [.exact 0 lfh, .exact 0 eocd, .exact 0 [0x50, 0x4B, 0x07, 0x08]]
  footer := none
  minSize := 22
  strategy := .structural
  validator := some "zip"
  blockAligned := true
  footerAnchored := false

/-- A small number fits in any field. -/
lemma fits_field {n : ℕ} (k : ℕ) (h : n.ble 255 = true) : n < 256 ^ (k + 1) :=
  calc n < 256 ^ 1 := Nat.lt_succ_of_le (Nat.le_of_ble_eq_true h)
    _ ≤ 256 ^ (k + 1) := Nat.pow_le_pow_right (by omega) (by omega)

/-- A member `a` with two bytes of data, which are the beginning of a signature. -/
def smallMember : Member where
  version := [20, 0]
  flags := 0
  stamp := List.replicate 10 0
  fullSize := [2, 0, 0, 0]
  name := [0x61]
  extra := []
  data := [0x50, 0x4B]
  centralHead := List.replicate 24 0
  centralExtra := []
  comment := []
  centralTail := List.replicate 12 0
  version_length := rfl
  flags_lt := fits_field 1 rfl
  flags_bit := rfl
  stamp_length := rfl
  fullSize_length := rfl
  name_lt := fits_field 1 rfl
  extra_lt := fits_field 1 rfl
  data_lt := fits_field 3 rfl
  centralHead_length := rfl
  centralExtra_lt := fits_field 1 rfl
  comment_lt := fits_field 1 rfl
  centralTail_length := rfl

lemma length_endFields : (List.replicate 16 (0 : UInt8)).length = 16 := List.length_replicate

/-- An archive of so many such members, with a comment of one byte. -/
def smallArchive (n : ℕ) (hn : n ≤ 65535) : Archive where
  members := List.replicate n smallMember
  endFields := List.replicate 16 0
  comment := [0x78]
  members_le := by rwa [List.length_replicate]
  endFields_length := length_endFields
  comment_lt := fits_field 1 rfl

lemma length_smallArchive (n : ℕ) (hn : n ≤ 65535) (T : Bytes) :
    ((smallArchive n hn).bytes ++ T).length = 80 * n + 23 + T.length := by
  have hlocal : smallMember.localBytes.length = 33 := smallMember.length_localBytes
  have hcentral : smallMember.centralBytes.length = 47 := smallMember.length_centralBytes
  have hcomment : (smallArchive n hn).comment.length = 1 := rfl
  rw [List.length_append, Archive.length_bytes, hcomment, Archive.locals, Archive.centrals,
    List.length_flatMap, List.length_flatMap]
  simp only [smallArchive, List.map_replicate, List.sum_replicate, hlocal, hcentral, smul_eq_mul]
  omega

lemma smallArchive_sees (n : ℕ) (hn : n ≤ 65535) (T : Bytes) (hT : T.length ≤ 1000) :
    Ctx.Sees ⟨80 * n + 23 + T.length, 0, 1000, sig⟩ (memReader ((smallArchive n hn).bytes ++ T))
      ((smallArchive n hn).bytes ++ T) := by
  have hlen := length_smallArchive n hn T
  have hu64 : u64Max = 2 ^ 64 - 1 := rfl
  exact Ctx.sees (memReader_reads _) hlen.symm (by omega)

/-- An archive with one member, and a signature behind it. -/
theorem archive_exact_small : ((validate ⟨107, 0, 1000, sig⟩).run
    (memReader ((smallArchive 1 (Nat.le_of_ble_eq_true rfl)).bytes ++ cdh))).IsFull 103 := by
  have hlen := length_smallArchive 1 (Nat.le_of_ble_eq_true rfl) []
  rw [List.append_nil] at hlen
  have hcap : min (Ctx.available ⟨107, 0, 1000, sig⟩) maxSize = 107 := by decide
  have hexact := (archive_exact_iff (smallArchive_sees 1 (Nat.le_of_ble_eq_true rfl) cdh
    (by decide))).2 (.inr ⟨List.cons_ne_nil _ _, by rw [hlen]; exact hcap ▸ by decide⟩)
  rw [hlen] at hexact
  exact hexact

/-- The comment of an archive without members is left out. -/
theorem emptyArchive_counterexample : ((validate ⟨23, 0, 1000, sig⟩).run
    (memReader ((smallArchive 0 (Nat.zero_le _)).bytes ++ []))).IsFull 22 ∧
      (smallArchive 0 (Nat.zero_le _)).bytes.length = 23 := by
  refine ⟨⟨?_, ?_, ?_⟩, ?_⟩
  all_goals decide

end Exact

end Zip
end Reclaim
