import Reclaim.Imaging.Map
import Reclaim.Foundation.KeyedTable
import Reclaim.Foundation.Text
import Reclaim.Sigs.Catalog

/-!
# Results and their identities

A result is a carved file or a named filesystem entry; both are rows of one table under an id that
is a hash of source, engine, offset and length.  For an entry the offset is that of its first
extent, and for an entry without extents a hash of its path.
-/

namespace Reclaim

open FileBytes

/-- How complete and trustworthy a result is. -/
inductive Validity where
  /-- The validator reached a clean logical end of file. -/
  | full
  /-- The structure was valid but ran out of data. -/
  | truncated
  /-- Accepted on weak evidence, or touched a bad or unread sector. -/
  | suspect
  deriving DecidableEq, Repr

/-- Lifecycle state of a filesystem entry. -/
inductive EntryState where
  | live
  | deleted
  | orphaned
  | historical
  deriving DecidableEq, Repr

/-- Lowercase label for storage. -/
def EntryState.label : EntryState → String
  | .live => "live"
  | .deleted => "deleted"
  | .orphaned => "orphaned"
  | .historical => "historical"

lemma EntryState.label_injective : Function.Injective EntryState.label := by
  intro a b h
  cases a <;> cases b <;> first | rfl | exact absurd h (by decide)

/-- What an entry is. -/
inductive EntryKind where
  | file
  | dir
  | other
  deriving DecidableEq, Repr

/-- A contiguous byte run of a file. -/
structure Extent where
  offset : ℕ
  len : ℕ
  deriving DecidableEq, Repr

/-- A stored result: a carved file or a named filesystem entry. -/
structure CarvedRecord where
  id : String
  sourceId : String
  engine : String
  /-- Absolute byte offset (first extent, for named entries). -/
  offset : ℕ
  /-- Length in bytes (file size). -/
  len : ℕ
  format : String
  family : String
  ext : String
  validity : Validity
  name : Option String
  date : Option String
  model : Option String
  /-- Real filesystem path (named entries). -/
  path : Option String
  /-- Lifecycle state; for a carve result its allocation label, if any. -/
  state : Option String
  /-- What the `extents` column spells; `none` stands for the one run `(offset, len)`. -/
  extentsJson : Option (List Extent)
  /-- Merged into a named entry, hidden from default results. -/
  merged : Bool
  deriving DecidableEq

namespace CarvedRecord

/-- The extents of a result: those stored, or the one run `(offset, len)` when none are. -/
def extents (r : CarvedRecord) : List Extent :=
  match r.extentsJson with
  | some (e :: es) => e :: es
  | _ => if 0 < r.len then [⟨r.offset, r.len⟩] else []

end CarvedRecord

/-! ## Identities -/

/-- The `n` low bytes of `v`, least significant first. -/
def toLeBytes (v n : ℕ) : Bytes := (List.range n).map fun i => UInt8.ofNat (v / 256 ^ i)

/-- The UTF-8 bytes of a string. -/
def utf8 (s : String) : Bytes := s.toUTF8.toList

/-- Stable id of a result: a prefix of the hash of source, engine, offset and length. -/
def resultId (B : Backend) (sourceId engine : String) (offset len : ℕ) : String :=
  String.ofList ((B.hash .blake3 (utf8 sourceId ++ utf8 "|" ++ utf8 engine ++ utf8 "|" ++
    toLeBytes offset 8 ++ utf8 "|" ++ toLeBytes len 8)).toList.take 32)

end Reclaim

/-!
## Storing the entries of a metadata walk

A filesystem engine emits entries; the sink turns each into a row, with extents shifted to absolute
offsets, and the rows are inserted under the hash of source, engine, offset and length, where a row
whose id is taken is ignored.

Storing a walk twice is storing it once.  But the id does not cover path and state: the rows of a
walk are all stored exactly when no two entries with one id differ in path or state, and no row
stored before has one of the ids under another path or state.
-/

namespace Reclaim

open FileBytes KeyedTable

/-! ## From entry to row -/

/-- What an engine says of one file or directory. -/
structure Entry where
  name : String
  kind : EntryKind
  /-- Logical size in bytes. -/
  size : ℕ
  /-- Full path relative to the volume root, if the parent chain is known. -/
  path : Option String
  created : Option String
  modified : Option String
  /-- Data extents, relative to the volume. -/
  extents : List Extent
  state : EntryState
  /-- The chain was lost and the extents were assumed contiguous. -/
  contiguousAssumed : Bool

/-- A named filesystem entry to store. -/
structure EntryRow where
  path : String
  name : String
  state : String
  family : String
  ext : String
  format : String
  /-- First extent, or a pseudo offset for an entry without extents. -/
  offset : ℕ
  len : ℕ
  /-- Absolute extents. -/
  extents : List Extent
  date : Option String
  contiguousAssumed : Bool

/-- FNV-1a of the path, high bit set to avoid data ranges. -/
def pseudoOffset (s : String) : ℕ :=
  let h := (utf8 s).foldl (fun (h : UInt64) b => (h ^^^ b.toUInt64) * 0x100000001b3)
    0xcbf29ce484222325
  (0x8000000000000000 ||| (h &&& 0x7FFFFFFFFFFFFFFF)).toNat

/-- The final component of a path, separated by either slash. -/
def lastComponent (path : List Char) : List Char :=
  (path.reverse.takeWhile fun c => c != '/' && c != '\\').reverse

/-- Lower-cased extension of the final path component, empty if there is none. -/
def extOf (path : String) : String :=
  match Text.rsplitOnce '.' (lastComponent path.toList) with
  | some (_ :: _, e) => String.ofList (e.map Char.toLower)
  | _ => ""

/-- Family of an extension: the catalog's, or one of a few common ones. -/
def familyForExt (sigs : List SigDef) (ext : String) : String :=
  if ext = "" then "file"
  else
    match sigs.find? fun s => s.extensions.any fun e => e.toLower == ext.toLower with
    | some s => s.family
    | none =>
      if ext ∈ ["jpg", "jpeg", "png", "gif", "bmp", "tif", "tiff", "heic", "webp"] then "image"
      else if ext ∈ ["mp4", "mov", "avi", "mkv", "m4v"] then "video"
      else if ext ∈ ["mp3", "flac", "wav", "aac", "m4a"] then "audio"
      else if ext ∈ ["txt", "pdf", "doc", "docx", "rtf"] then "doc"
      else if ext ∈ ["zip", "rar", "7z", "gz", "tar"] then "archive"
      else "file"

/-- The path an entry is stored under. -/
def Entry.storedPath (e : Entry) : String := e.path.getD e.name

/-- `CollectSink::emit`: the row of an entry of the volume at `base`; directories have none. -/
def emit (sigs : List SigDef) (base : ℕ) (e : Entry) : Option EntryRow :=
  if e.kind = .dir then none
  else
    let extents := e.extents.map fun x => ⟨saturatingAdd base x.offset, x.len⟩
    let ext := extOf e.storedPath
    let family := familyForExt sigs ext
    some {
      path := e.storedPath
      name := e.name
      state := e.state.label
      family := family
      ext := ext
      format := if ext = "" then "file" else family ++ "." ++ ext
      offset := (extents.head?.map (·.offset)).getD (pseudoOffset e.storedPath)
      len := e.size
      extents := extents
      date := e.modified.or e.created
      contiguousAssumed := e.contiguousAssumed }

/-! ## The table of results -/

/-- The rows of the store; the id is the primary key. -/
structure Rows where
  rows : List CarvedRecord
  unique : (keys CarvedRecord.id rows).Nodup

namespace Rows

/-- A new table. -/
def empty : Rows := ⟨[], List.nodup_nil⟩

/-- Insert records in one transaction, ignoring those whose id is taken. -/
def insertRecords (t : Rows) (batch : List CarvedRecord) : Rows :=
  ⟨insertAll CarvedRecord.id t.rows batch, nodup_insertAll t.unique batch⟩

@[ext] lemma ext {t t' : Rows} (h : t.rows = t'.rows) : t = t' := by
  cases t
  cases t'
  congr

end Rows

/-- The record that an entry row becomes. -/
def EntryRow.record (B : Backend) (sourceId engine : String) (e : EntryRow) : CarvedRecord where
  id := resultId B sourceId engine e.offset e.len
  sourceId := sourceId
  engine := engine
  offset := e.offset
  len := e.len
  format := e.format
  family := e.family
  ext := e.ext
  validity := if e.contiguousAssumed then .suspect else .full
  name := some e.name
  date := e.date
  model := none
  path := some e.path
  state := some e.state
  extentsJson := some e.extents
  merged := false

/-- Insert the rows of one engine. -/
def insertEntries (B : Backend) (sourceId engine : String) (t : Rows) (batch : List EntryRow) :
    Rows := t.insertRecords (batch.map (EntryRow.record B sourceId engine))

/-! ## Walks -/

/-- An entry together with the engine that emitted it and the start of its volume. -/
structure WalkedEntry where
  engine : String
  base : ℕ
  entry : Entry

namespace WalkedEntry

/-- The record an entry is stored as, if it is a file. -/
def record? (B : Backend) (sigs : List SigDef) (sourceId : String) (w : WalkedEntry) :
    Option CarvedRecord := (emit sigs w.base w.entry).map (EntryRow.record B sourceId w.engine)

/-- The id an entry is stored under. -/
def id (B : Backend) (sourceId : String) (w : WalkedEntry) : String :=
  resultId B sourceId w.engine
    (((w.entry.extents.head?).map fun x => saturatingAdd w.base x.offset).getD
      (pseudoOffset w.entry.storedPath)) w.entry.size

variable {B : Backend} {sigs : List SigDef} {sourceId : String}

lemma record?_eq_none {w : WalkedEntry} :
    w.record? B sigs sourceId = none ↔ w.entry.kind = .dir := by
  unfold record? emit
  split <;> simp_all

/-- What matters of the record of an entry. -/
lemma record?_spec {w : WalkedEntry} {r : CarvedRecord} (h : w.record? B sigs sourceId = some r) :
    r.id = w.id B sourceId ∧ r.path = some w.entry.storedPath ∧
      r.state = some w.entry.state.label := by
  unfold record? emit at h
  split at h
  · exact absurd h (by simp)
  · rw [Option.map_some, Option.some.injEq] at h
    subst h
    refine ⟨?_, rfl, rfl⟩
    simp only [EntryRow.record, id, List.head?_map, Option.map_map]
    rfl

lemma exists_record {w : WalkedEntry} (h : w.entry.kind ≠ .dir) :
    ∃ r, w.record? B sigs sourceId = some r :=
  Option.ne_none_iff_exists'.1 fun hn => h (record?_eq_none.1 hn)

end WalkedEntry

/-- Store the entries of a walk, over any volumes and engines, in the order they come. -/
def storeWalk (B : Backend) (sigs : List SigDef) (sourceId : String) (t : Rows)
    (walk : List WalkedEntry) : Rows :=
  t.insertRecords (walk.filterMap (·.record? B sigs sourceId))

/-- Storing the rows of a volume is storing the walk of its entries. -/
lemma insertEntries_eq_storeWalk (B : Backend) (sigs : List SigDef) (sourceId engine : String)
    (t : Rows) (base : ℕ) (entries : List Entry) :
    insertEntries B sourceId engine t (entries.filterMap (emit sigs base)) =
      storeWalk B sigs sourceId t (entries.map fun e => ⟨engine, base, e⟩) := by
  unfold insertEntries storeWalk
  rw [List.map_filterMap, List.filterMap_map]
  rfl

/-! ## What is stored -/

/-- The row holds the entry: it stands under the entry's id with its path and state. -/
structure Holds (B : Backend) (sourceId : String) (w : WalkedEntry) (r : CarvedRecord) : Prop where
  id : r.id = w.id B sourceId
  path : r.path = some w.entry.storedPath
  state : r.state = some w.entry.state.label

/-- No file of the walk is lost: each has a row, two that differ in path or state have two, and
storing the walk again changes nothing. -/
structure Lossless (B : Backend) (sigs : List SigDef) (sourceId : String) (t : Rows)
    (walk : List WalkedEntry) : Prop where
  stored : ∀ w ∈ walk, w.entry.kind ≠ .dir →
    ∃ r ∈ (storeWalk B sigs sourceId t walk).rows, Holds B sourceId w r
  apart : ∀ v ∈ walk, ∀ w ∈ walk,
    v.entry.storedPath ≠ w.entry.storedPath ∨ v.entry.state ≠ w.entry.state →
    ∀ r r' : CarvedRecord, Holds B sourceId v r → Holds B sourceId w r' → r ≠ r'
  again : storeWalk B sigs sourceId (storeWalk B sigs sourceId t walk) walk =
    storeWalk B sigs sourceId t walk

/-- Two files of the walk with one id agree in path and state, and so does a row stored before
with that id. -/
structure IdsTell (B : Backend) (sourceId : String) (t : Rows) (walk : List WalkedEntry) :
    Prop where
  entries : ∀ v ∈ walk, ∀ w ∈ walk, v.entry.kind ≠ .dir → w.entry.kind ≠ .dir →
    v.id B sourceId = w.id B sourceId →
      v.entry.storedPath = w.entry.storedPath ∧ v.entry.state = w.entry.state
  before : ∀ r ∈ t.rows, ∀ w ∈ walk, w.entry.kind ≠ .dir → r.id = w.id B sourceId →
    Holds B sourceId w r

section Storing

variable {B : Backend} {sigs : List SigDef} {sourceId : String} {t : Rows}
  {walk : List WalkedEntry}

lemma mem_records {r : CarvedRecord} :
    r ∈ walk.filterMap (·.record? B sigs sourceId) ↔
      ∃ w ∈ walk, w.record? B sigs sourceId = some r := by
  rw [List.mem_filterMap]

lemma storeWalk_idem :
    storeWalk B sigs sourceId (storeWalk B sigs sourceId t walk) walk =
      storeWalk B sigs sourceId t walk :=
  Rows.ext (insertAll_idem _ _)

/-- Every file of a walk has a row under its id. -/
lemma exists_row_of_id (sigs : List SigDef) (t : Rows) {w : WalkedEntry} (hw : w ∈ walk)
    (hfile : w.entry.kind ≠ .dir) :
    ∃ r ∈ (storeWalk B sigs sourceId t walk).rows, r.id = w.id B sourceId := by
  obtain ⟨r, hr⟩ : ∃ r, w.record? B sigs sourceId = some r := w.exists_record hfile
  have hkey : r.id ∈ keys CarvedRecord.id (storeWalk B sigs sourceId t walk).rows :=
    mem_keys_insertAll.2 (.inr (mem_keys_of_mem (mem_records.2 ⟨w, hw, hr⟩)))
  obtain ⟨r', hr', hid⟩ := mem_keys.1 hkey
  exact ⟨r', hr', hid.trans (WalkedEntry.record?_spec hr).1⟩

/-- If ids tell files apart, the row under a file's id is the file's. -/
lemma IdsTell.holds (h : IdsTell B sourceId t walk) {w : WalkedEntry} (hw : w ∈ walk)
    (hfile : w.entry.kind ≠ .dir) {r : CarvedRecord}
    (hr : r ∈ (storeWalk B sigs sourceId t walk).rows) (hid : r.id = w.id B sourceId) :
    Holds B sourceId w r := by
  rcases mem_of_mem_insertAll hr with hr | hr
  · exact h.before r hr w hw hfile hid
  · obtain ⟨v, hv, hrec⟩ := mem_records.1 hr
    obtain ⟨hvid, hpath, hstate⟩ := WalkedEntry.record?_spec hrec
    have hvfile : v.entry.kind ≠ .dir := fun hd => by
      rw [WalkedEntry.record?_eq_none.2 hd] at hrec
      exact absurd hrec (by simp)
    obtain ⟨hp, hs⟩ := h.entries v hv w hw hvfile hfile (hvid.symm.trans hid)
    exact ⟨hid, by rw [hpath, hp], by rw [hstate, hs]⟩

/-- A row that holds two entries shows that they agree. -/
lemma Holds.agree {v w : WalkedEntry} {r : CarvedRecord} (hv : Holds B sourceId v r)
    (hw : Holds B sourceId w r) :
    v.entry.storedPath = w.entry.storedPath ∧ v.entry.state = w.entry.state := by
  refine ⟨Option.some.inj (hv.path.symm.trans hw.path), ?_⟩
  exact EntryState.label_injective (Option.some.inj (hv.state.symm.trans hw.state))

/-- If every file has its row, ids tell files apart. -/
lemma idsTell_of_stored (h : ∀ w ∈ walk, w.entry.kind ≠ .dir →
    ∃ r ∈ (storeWalk B sigs sourceId t walk).rows, Holds B sourceId w r) :
    IdsTell B sourceId t walk where
  entries v hv w hw hvf hwf hid := by
    obtain ⟨r, hr, hrv⟩ := h v hv hvf
    obtain ⟨r', hr', hrw⟩ := h w hw hwf
    have heq : r = r' := eq_of_key_eq (storeWalk B sigs sourceId t walk).unique hr hr'
      (by rw [hrv.id, hrw.id, hid])
    exact hrv.agree (heq ▸ hrw)
  before r hr w hw hwf hid := by
    obtain ⟨r', hr', hrw⟩ := h w hw hwf
    have heq : r = r' := eq_of_key_eq (storeWalk B sigs sourceId t walk).unique
      (mem_insertAll_of_mem hr) hr' (by rw [hid, hrw.id])
    exact heq ▸ hrw

end Storing

/-- **When no entry of a walk is lost.**  Whatever was stored before, the files of a walk all have
rows of their own, and storing the walk again changes nothing, exactly when no two of them with one
id differ in path or state and no earlier row stands under one of the ids with another path or
state. -/
theorem walk_lossless_iff (B : Backend) (sigs : List SigDef) (sourceId : String) (t : Rows)
    (walk : List WalkedEntry) :
    Lossless B sigs sourceId t walk ↔ IdsTell B sourceId t walk := by
  constructor
  · intro h
    exact idsTell_of_stored h.stored
  · intro h
    refine ⟨fun w hw hfile => ?_, fun v _ w _ hne r r' hv hw heq => ?_, storeWalk_idem⟩
    · obtain ⟨r, hr, hid⟩ := exists_row_of_id sigs t hw hfile
      exact ⟨r, hr, h.holds hw hfile hr hid⟩
    · obtain ⟨hp, hs⟩ := hv.agree (heq ▸ hw)
      exact hne.elim (absurd hp) (absurd hs)

/-- Two names of one inode: a file of ten bytes at offset 4096. -/
def hardLink (name : String) : WalkedEntry where
  engine := "ext4"
  base := 0
  entry := {
    name := name
    kind := .file
    size := 10
    path := some ("/" ++ name)
    created := none
    modified := none
    extents := [⟨4096, 10⟩]
    state := .live
    contiguousAssumed := false }

/-- Of two hard links only the one that comes first is stored. -/
theorem hardLinks_counterexample :
    ¬ Lossless Backend.plain [] "image:/disk.img:65536" Rows.empty
      [hardLink "a", hardLink "b"] := by
  intro h
  have hagree := (idsTell_of_stored h.stored).entries (hardLink "a") (by simp) (hardLink "b")
    (by simp) (by decide) (by decide) rfl
  exact absurd hagree.1 (by decide)

end Reclaim
