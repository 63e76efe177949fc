import Reclaim.Foundation.Fields
import Reclaim.Fs.IsoScan

/-!
# What a walk of ISO 9660 emits

A walk of a tree emits the files of a directory before those of its subdirectories, each once
(`walks`), and a file that is recorded in several sections once for each.  Whatever is on the
volume, no directory is visited twice.
-/

namespace Reclaim

open FileBytes
open PlainText (ascii)

namespace Iso

/-! ## The walk -/

/-- A directory whose records are all read. -/
structure Readable (d : DirRecord) : Prop where
  extent_ne : d.extent ≠ 0
  xarLength : d.xarLength = 0
  dataLength : d.dataLength ≤ maxDirBytes

section Walk

variable {iso : Iso} {opts : WalkOpts} {path : String} {d : DirRecord} {l : Listing}
  {visited : List ℕ} {w : Walked}

/-- Records are not so short, nor sectors so small, that the guard is reached. -/
lemma length_flatten_le {b : ℕ} (hb : sector ≤ b) {sectors : List (List DirRecord)}
    (hfits : ∀ rs ∈ sectors, (rs.flatMap DirRecord.bytes).length ≤ b)
    (hcap : (dirBytes b sectors).length ≤ maxDirBytes) :
    sectors.flatten.length + sectors.length ≤ maxEntries := by
  have hrecords : ∀ rs : List DirRecord, 33 * rs.length ≤ (rs.flatMap DirRecord.bytes).length := by
    intro rs
    induction rs with
    | nil => exact Nat.zero_le _
    | cons r rs ih =>
      have hpos := r.length_pos
      rw [List.flatMap_cons, List.length_append, List.length_cons]
      omega
  have hcount : 33 * sectors.flatten.length ≤ (dirBytes b sectors).length ∧
      2048 * sectors.length ≤ (dirBytes b sectors).length := by
    clear hcap
    induction sectors with
    | nil => exact ⟨Nat.zero_le _, Nat.zero_le _⟩
    | cons rs sectors ih =>
      obtain ⟨hfit, hfits⟩ := List.forall_mem_cons.1 hfits
      obtain ⟨hflat, hsectors⟩ := ih hfits
      have hlen := length_sectorBytes hfit
      have hrs := hrecords rs
      have hb' : 2048 ≤ b := hb
      rw [dirBytes] at hflat hsectors
      rw [dirBytes, List.flatMap_cons, List.length_append, hlen, List.flatten_cons,
        List.length_append, List.length_cons]
      omega
  have hmax : maxDirBytes = 16 * 1024 * 1024 := rfl
  have hentries : maxEntries = 5000000 := rfl
  omega

/-- **The scan of a listed directory.** -/
lemma scanDir_lists (hsize : iso.blockSize < 2 ^ 16) (hd : Readable d)
    (hlists : Lists iso.vol iso.blockSize d l.records)
    (hl : l.Recorded iso.vol iso.blockSize iso.joliet) (hdirs : ∀ d ∈ l.dirs, Readable d)
    (hroom : (w.emitAll ((l.here (base path)).map (FilePlace.entry iso.blockSize))).stats.emitted <
      min opts.maxEntries maxEntries) :
    iso.scanDir opts
        (iso.vol.read (saturatingMul d.extent iso.blockSize) (min d.dataLength maxDirBytes)) path
        maxEntries 0 [] w =
      (w.emitAll ((l.here (base path)).map (FilePlace.entry iso.blockSize)), l.subDirs path) := by
  obtain ⟨self, parent, sectors, hself, hparent, hflat, hfits, hdata⟩ := hlists
  have hcontent : iso.vol.read (saturatingMul d.extent iso.blockSize)
      (min d.dataLength maxDirBytes) = dirBytes iso.blockSize sectors := by
    rw [saturatingMul_extent hsize, min_eq_left hd.dataLength, ← hdata, DirRecord.content, hd.xarLength, Nat.add_zero]
  have hcap : (dirBytes iso.blockSize sectors).length ≤ maxDirBytes := by
    rw [← hdata, DirRecord.content, Volume.length_read]
    exact hd.dataLength
  have hvisit : sectors.flatten.foldl (iso.visitRecord path) (w, []) =
      (w.emitAll ((l.here (base path)).map (FilePlace.entry iso.blockSize)), l.subDirs path) := by
    have hskip : ∀ s, iso.visitRecord path (iso.visitRecord path s self) parent = s := by
      intro s
      rw [visitRecord, if_pos (.inr hparent), visitRecord, if_pos (.inl hself)]
    rw [hflat, List.foldl_cons, List.foldl_cons, hskip,
      foldl_visitRecord hsize hl fun d hd => (hdirs d hd).extent_ne, List.nil_append]
  rw [hcontent]
  refine (scanDir_eq (s := (w, [])) hfits List.drop_zero (dvd_zero _)
    (length_flatten_le iso.blockSize_ge hfits hcap) ?_).trans hvisit
  rwa [hvisit]

lemma emitAll_emitted (w : Walked) (es : List Entry) :
    (w.emitAll es).stats.emitted = w.stats.emitted + es.length := by
  induction es generalizing w with
  | nil => rfl
  | cons e es ih =>
    rw [Walked.emitAll_cons, ih, Walked.emit_emitted, List.length_cons]
    omega

lemma emitAll_append (w : Walked) (es es' : List Entry) :
    w.emitAll (es ++ es') = (w.emitAll es).emitAll es' := List.foldl_append

/-- What was visited before a walk, or is one of the directories. -/
def VisitedOnly (before : List ℕ) (ds : List DirRecord) (after : List ℕ) : Prop :=
  ∀ x ∈ after, x ∈ before ∨ x ∈ ds.map DirRecord.extent

/-- None of the directories was visited, and no two are one. -/
def Fresh (ds : List DirRecord) (visited : List ℕ) : Prop :=
  (ds.map DirRecord.extent).Nodup ∧ ∀ x ∈ ds.map DirRecord.extent, x ∉ visited

/-- A walk of a directory that emits its files, and visits no others than those below. -/
def Walks (iso : Iso) (opts : WalkOpts) (depth : ℕ) : Prop :=
  ∀ (d : DirRecord) (l : Listing) (path : String) (visited : List ℕ) (w : Walked),
    l.depth < depth → Readable d → Lists iso.vol iso.blockSize d l.records →
    l.Recorded iso.vol iso.blockSize iso.joliet → (∀ d ∈ l.dirs, Readable d) →
    Fresh (d :: l.dirs) visited →
    w.stats.emitted + (l.places (base path)).length < min opts.maxEntries maxEntries →
    ∃ visited', VisitedOnly visited (d :: l.dirs) visited' ∧
      iso.walkDir opts depth ⟨d.extent, d.dataLength, path⟩ (visited, w) =
        (visited', w.emitAll ((l.places (base path)).map (FilePlace.entry iso.blockSize)))

/-- The subdirectories of a listing, one after the other. -/
lemma Walks.foldl {depth : ℕ} (h : Walks iso opts depth) (hdepth : l.depth ≤ depth)
    (hl : l.Recorded iso.vol iso.blockSize iso.joliet) (hdirs : ∀ d ∈ l.dirs, Readable d)
    (hfresh : Fresh l.dirs visited)
    (hroom : w.stats.emitted + (l.deeper (base path)).length < min opts.maxEntries maxEntries) :
    ∃ visited', VisitedOnly visited l.dirs visited' ∧
      (l.subDirs path).foldl (fun s d => iso.walkDir opts depth d s) (visited, w) =
        (visited', w.emitAll ((l.deeper (base path)).map (FilePlace.entry iso.blockSize))) := by
  induction l generalizing visited w with
  | nil => exact ⟨visited, fun x hx => .inl hx, rfl⟩
  | file r name rest ih => exact ih hdepth hl.2.2.2 hdirs hfresh hroom
  | dir r name content rest _ ih =>
    obtain ⟨hname, -, hlists, hcontent, hrest⟩ := hl
    rw [Listing.depth, Nat.max_le] at hdepth
    rw [Listing.dirs] at hdirs hfresh
    rw [Listing.deeper, ← base_childPath path hname.name_ne, ← Listing.places,
      List.length_append] at hroom
    obtain ⟨hnodup, hnew⟩ := hfresh
    rw [List.map_append, List.nodup_append'] at hnodup
    rw [List.map_append] at hnew
    obtain ⟨after, hafter, heq⟩ := h r content (childPath path name) visited w (by omega)
      (hdirs r List.mem_cons_self) hlists hcontent
      (fun d hd => hdirs d (List.mem_append_left _ (List.mem_cons_of_mem r hd)))
      ⟨hnodup.1, fun x hx => hnew x (List.mem_append_left _ hx)⟩ (by omega)
    have hemitted := emitAll_emitted w
      ((content.places (base (childPath path name))).map (FilePlace.entry iso.blockSize))
    rw [List.length_map] at hemitted
    have hlater : Fresh rest.dirs after := by
      refine ⟨hnodup.2.1, fun x hx hmem => ?_⟩
      rcases hafter x hmem with hold | hin
      · exact hnew x (List.mem_append_right _ hx) hold
      · exact hnodup.2.2 hin hx
    obtain ⟨last, hlast, hfold⟩ := ih hdepth.2 hrest
      (fun d hd => hdirs d (List.mem_append_right _ hd)) hlater (by rw [hemitted]; omega)
    refine ⟨last, fun x hx => ?_, ?_⟩
    · rw [Listing.dirs, List.map_append]
      rcases hlast x hx with hmid | hin
      · exact (hafter x hmid).imp_right (List.mem_append_left _)
      · exact .inr (List.mem_append_right _ hin)
    · rw [Listing.subDirs, List.foldl_cons, heq, hfold, Listing.deeper,
        ← base_childPath path hname.name_ne, ← Listing.places, List.map_append, emitAll_append]

/-- **The walk of a tree** emits its files. -/
lemma walks (hsize : iso.blockSize < 2 ^ 16) (depth : ℕ) : Walks iso opts depth := by
  induction depth with
  | zero => exact fun d l path visited w h => absurd h (Nat.not_lt_zero _)
  | succ depth ih =>
    intro d l path visited w hdepth hd hlists hl hdirs hfresh hroom
    obtain ⟨hnodup, hnew⟩ := hfresh
    rw [List.map_cons, List.nodup_cons] at hnodup
    rw [List.map_cons] at hnew
    rw [Listing.places, List.length_append] at hroom
    have hemitted := emitAll_emitted w ((l.here (base path)).map (FilePlace.entry iso.blockSize))
    rw [List.length_map] at hemitted
    have hleft : (w.emitAll ((l.here (base path)).map
        (FilePlace.entry iso.blockSize))).stats.emitted + (l.deeper (base path)).length <
        min opts.maxEntries maxEntries := by
      rw [hemitted]
      omega
    have hscan := scanDir_lists hsize hd hlists hl hdirs ((Nat.le_add_right _ _).trans_lt hleft)
    have hlater : Fresh l.dirs (d.extent :: visited) := by
      refine ⟨hnodup.2, fun x hx hmem => ?_⟩
      rcases List.mem_cons.1 hmem with rfl | hmem
      · exact hnodup.1 hx
      · exact hnew x (List.mem_cons_of_mem _ hx) hmem
    obtain ⟨after, hafter, hfold⟩ := ih.foldl (Nat.lt_succ_iff.1 hdepth) hl hdirs hlater hleft
    refine ⟨after, fun x hx => ?_, ?_⟩
    · rw [List.map_cons]
      rcases hafter x hx with hmem | hin
      · rcases List.mem_cons.1 hmem with rfl | hold
        · exact .inr List.mem_cons_self
        · exact .inl hold
      · exact .inr (List.mem_cons_of_mem _ hin)
    · rw [walkDir, if_neg (by dsimp only; omega), if_neg (hnew d.extent List.mem_cons_self)]
      simp only [hscan]
      rw [hfold, Listing.places, List.map_append, emitAll_append]

end Walk

/-- Whatever is on the volume, a directory is visited once. -/
lemma nodup_walkDir (iso : Iso) (opts : WalkOpts) (depth : ℕ) (d : SubDir) (s : List ℕ × Walked)
    (h : s.1.Nodup) : (iso.walkDir opts depth d s).1.Nodup := by
  induction depth generalizing d s with
  | zero => exact h
  | succ depth ih =>
    have hfold : ∀ (ds : List SubDir) (s : List ℕ × Walked), s.1.Nodup →
        (ds.foldl (fun s d => iso.walkDir opts depth d s) s).1.Nodup := by
      intro ds
      induction ds with
      | nil => exact fun s hs => hs
      | cons d ds ihds => exact fun s hs => ihds _ (ih d s hs)
    rw [walkDir]
    split
    · exact h
    · split
      · exact h
      · rename_i hnew
        exact hfold _ _ (List.nodup_cons.2 ⟨hnew, h⟩)

lemma nodup_visited (iso : Iso) (opts : WalkOpts) : (iso.visited opts).Nodup := by
  rw [visited]
  split
  · exact List.nodup_nil
  · exact nodup_walkDir iso opts _ _ _ List.nodup_nil

/-- **A well-formed image is walked**: what is emitted are the records of its files. -/
lemma Image.WellFormed.walk {img : Image} {e : ℕ} {opts : WalkOpts} (h : img.WellFormed e)
    (hs : img.Supported e opts) :
    ∃ iso, openVolume img.vol = .ok iso ∧
      (iso.walk opts).sink = img.places.map (FilePlace.entry img.blockSize) := by
  have hroot : img.root.extent ≠ 0 := h.extent_ne _ List.mem_cons_self
  have hsize : img.blockSize < 2 ^ 16 := by
    obtain ⟨i, hi, hone⟩ := h.described.primary
    rw [← h.described.blockSize i hi hone]
    exact leU16_lt _ _
  have hread : ∀ d ∈ img.dirs, Readable d := fun d hd =>
    ⟨h.extent_ne d hd, hs.xarLength d hd, hs.dataLength d hd⟩
  let iso : Iso :=
    ⟨img.vol, img.blockSize, img.root.extent, img.root.dataLength, img.joliet, hs.blockSize⟩
  have hwalks : Walks iso opts (maxDepth + 1) := walks hsize _
  obtain ⟨visited, -, hwalk⟩ := hwalks img.root img.content "" [] Walked.start
    (Nat.lt_succ_iff.2 hs.depth) (hread _ List.mem_cons_self) h.root h.content
    (fun d hd => hread d (List.mem_cons_of_mem _ hd))
    ⟨h.extents_nodup, fun x _ => List.not_mem_nil⟩ ((Nat.zero_add _).trans_lt hs.files)
  refine ⟨iso, h.described.openVolume hs.descriptors hs.blockSize hroot, ?_⟩
  rw [Iso.walk, if_neg (not_or.2 ⟨by simp [hs.live], hroot⟩)]
  exact (congrArg (fun s => s.2.sink) hwalk).trans (Walked.emitAll_sink ..)

/-- The bytes of an entry are those of the file, if it has no extended attribute record. -/
lemma FilePlace.bytes_entry (v : Volume) (blockSize : ℕ) {p : FilePlace}
    (h : p.record.xarLength = 0) :
    (p.entry blockSize).bytes v.byte = p.record.content v blockSize := by
  rw [DirRecord.content, h, Nat.add_zero, Volume.read, Entry.bytes, FilePlace.entry]
  dsimp only [Entry.newFile]
  split
  · rename_i hzero
    rw [hzero]
    rfl
  · rw [extentAddresses_cons, extentAddresses_nil, List.append_nil, List.take_of_length_le
      (by rw [List.length_range']), List.range'_eq_map_range, List.map_map]
    rfl

/-- **What a walk emits.**  Whatever is on the volume, no directory is visited twice.  A well-formed
image that the engine supports is opened, and each record of a file in its tree gives one entry,
with the path and the extent of the file, whose bytes are what was recorded if there is no extended
attribute record. -/
theorem walk_exact (iso : Iso) (img : Image) (e : ℕ) (opts : WalkOpts) :
    (iso.visited opts).Nodup ∧
    (img.WellFormed e → img.Supported e opts →
      (∃ iso, openVolume img.vol = .ok iso ∧
        (iso.walk opts).sink = img.places.map (FilePlace.entry img.blockSize)) ∧
      ∀ p ∈ img.places, p.record.xarLength = 0 →
        (p.entry img.blockSize).bytes img.vol.byte = p.record.content img.vol img.blockSize) := by
  refine ⟨nodup_visited iso opts, fun hwf hs => ⟨hwf.walk hs, fun p _ hxar => ?_⟩⟩
  exact FilePlace.bytes_entry img.vol img.blockSize hxar

/-! ## A file in two sections -/

/-- The root directory, which is also its own parent. -/
def sampleRoot : DirRecord := writeRecord 2 18 2048 [0] (by decide)

def sampleParent : DirRecord := writeRecord 2 18 2048 [1] (by decide)

/-- The first section of a file, with the flag that another one follows. -/
def sampleFirst : DirRecord := writeRecord 0x80 19 2048 (ascii "A;1") (by decide)

def sampleLast : DirRecord := writeRecord 0 20 100 (ascii "A;1") (by decide)

lemma sampleRoot_fields :
    sampleRoot.extent = 18 ∧ sampleRoot.xarLength = 0 ∧ sampleRoot.dataLength = 2048 :=
  ⟨extent_writeRecord _ (by decide), xarLength_writeRecord _, dataLength_writeRecord _ (by decide)⟩

lemma sampleFirst_fields :
    sampleFirst.name = ascii "A;1" ∧ sampleFirst.extent = 19 ∧ sampleFirst.dataLength = 2048 :=
  ⟨name_writeRecord _, extent_writeRecord _ (by decide), dataLength_writeRecord _ (by decide)⟩

lemma sampleLast_fields :
    sampleLast.name = ascii "A;1" ∧ sampleLast.extent = 20 ∧ sampleLast.dataLength = 100 :=
  ⟨name_writeRecord _, extent_writeRecord _ (by decide), dataLength_writeRecord _ (by decide)⟩

def samplePrimary : Bytes :=
  [1] ++ ascii "CD001" ++ List.replicate 122 0 ++ leBytes 2 2048 ++ beBytes 2 2048 ++
    List.replicate 24 0 ++ sampleRoot.bytes

/-- A primary descriptor, the terminator, and the root directory. -/
def sampleSector : ℕ → Bytes
  | 16 => samplePrimary
  | 17 => [255] ++ ascii "CD001" ++ [1]
  | 18 => sectorBytes 2048 [sampleRoot, sampleParent, sampleFirst, sampleLast]
  | _ => []

def sampleVolume : Volume where
  len := 43008
  content x := byteAt (sampleSector (x / 2048)) (x % 2048)

def sample : Image where
  vol := sampleVolume
  blockSize := 2048
  joliet := false
  root := sampleRoot
  content := .file sampleFirst "A" (.file sampleLast "A" .nil)

def sampleOpts : WalkOpts where
  includeLive := true
  includeDeleted := true
  maxEntries := 100
  includeSystemVolume := false

lemma sample_read {i k n : ℕ} (hi : i < 21) (hfit : k + n ≤ 2048) :
    sampleVolume.read (i * 2048 + k) n = slice (sampleSector i) k n := by
  apply ext_byteAt (by rw [Volume.length_read, length_slice])
  intro x hx
  rw [Volume.length_read] at hx
  have hsector : (i * 2048 + k + x) / 2048 = i ∧ (i * 2048 + k + x) % 2048 = k + x := by omega
  rw [Volume.byteAt_read _ _ hx, byteAt_slice, if_pos hx, Volume.byte,
    if_pos (by simp only [sampleVolume]; omega)]
  simp only [sampleVolume, hsector]

lemma sample_getRange {i k n : ℕ} (hi : i ≤ 1) (hfit : k + n ≤ 2048) :
    getRange (descriptor sample.vol i) k n = some (slice (sampleSector (16 + i)) k n) := by
  have hread : getRange (sampleVolume.read ((16 + i) * 2048) 2048) k n =
      some (sampleVolume.read ((16 + i) * 2048 + k) n) := Volume.getRange_read _ hfit
  rw [sample_read (by omega) hfit] at hread
  exact hread

lemma sample_byteAt {i : ℕ} (hi : i ≤ 1) :
    byteAt (descriptor sample.vol i) 0 = byteAt (sampleSector (16 + i)) 0 := by
  have hlt : (16 + i) * 2048 + 0 < 43008 := by omega
  refine (Volume.byteAt_read _ _ (by decide)).trans ?_
  refine (if_pos hlt).trans ?_
  have hsector : ((16 + i) * 2048 + 0) / 2048 = 16 + i ∧ ((16 + i) * 2048 + 0) % 2048 = 0 := by
    omega
  exact congrArg₂ (fun a b => byteAt (sampleSector a) b) hsector.1 hsector.2

lemma sample_described : sample.Described 1 where
  standard := by
    intro i hi
    rw [sample_getRange hi (by decide)]
    rcases Nat.le_one_iff_eq_zero_or_eq_one.1 hi with rfl | rfl
    · decide +kernel
    · decide +kernel
  before := by
    intro i hi
    rw [sample_byteAt hi.le, Nat.lt_one_iff.1 hi]
    decide +kernel
  terminator := by
    rw [sample_byteAt le_rfl]
    decide +kernel
  primary := by
    refine ⟨0, Nat.one_pos, ?_⟩
    rw [sample_byteAt (Nat.zero_le 1)]
    decide +kernel
  blockSize := by
    intro i hi _
    have hread : leField 2 (sampleVolume.read ((16 + i) * 2048) 2048) 128 =
        leValue (sampleVolume.read ((16 + i) * 2048 + 128) 2) := Volume.leField_read _ (by decide)
    rw [sample_read (by omega) (by decide), Nat.lt_one_iff.1 hi] at hread
    rw [Nat.lt_one_iff.1 hi]
    refine hread.trans ?_
    decide +kernel
  joliet := by
    refine iff_of_false Bool.false_ne_true ?_
    rintro ⟨i, hi, htwo, -⟩
    rw [sample_byteAt hi.le, Nat.lt_one_iff.1 hi] at htwo
    revert htwo
    decide +kernel
  root := by
    intro i hi _
    rw [sample_getRange hi.le (by decide), Nat.lt_one_iff.1 hi]
    decide +kernel

lemma sample_root : Lists sample.vol sample.blockSize sample.root sample.content.records := by
  obtain ⟨hextent, hxar, hlen⟩ := sampleRoot_fields
  have hfits : ([sampleRoot, sampleParent, sampleFirst, sampleLast].flatMap
      DirRecord.bytes).length ≤ 2048 := by
    simp only [List.flatMap_cons, List.flatMap_nil, List.length_append, sampleRoot, sampleParent,
      sampleFirst, sampleLast, length_writeRecord]
    decide
  refine ⟨sampleRoot, sampleParent, [[sampleRoot, sampleParent, sampleFirst, sampleLast]],
    name_writeRecord _, name_writeRecord _, rfl, List.forall_mem_singleton.2 hfits, ?_⟩
  have hslice := slice_append_length (a := sampleSector 18) (b := [])
  have hsector : (sampleSector 18).length = 2048 := length_sectorBytes hfits
  rw [List.append_nil, hsector] at hslice
  have hread : sample.root.content sample.vol sample.blockSize =
      sampleVolume.read (18 * 2048 + 0) 2048 := by
    rw [DirRecord.content]
    change sampleVolume.read ((sampleRoot.extent + sampleRoot.xarLength) * 2048)
      sampleRoot.dataLength = _
    rw [hextent, hxar, hlen]
  rw [hread, sample_read (by decide) le_rfl, hslice, dirBytes, List.flatMap_singleton]
  rfl

lemma sample_identifies {r : DirRecord} (h : r.name = ascii "A;1") :
    Identifies false false r.name "A" where
  name_ne := by decide
  not_self := by
    rw [h]
    decide
  not_parent := by
    rw [h]
    decide
  dir := fun h => absurd h Bool.false_ne_true
  file := fun _ => by
    refine ⟨by decide, by decide, "", ";1", .inl rfl, .inr ⟨"1", rfl⟩, ?_⟩
    rw [h, encodeName, if_neg Bool.false_ne_true, Text.toList_toUTF8]
    decide

lemma sample_wellFormed : sample.WellFormed 1 where
  described := sample_described
  root := sample_root
  content := by
    refine ⟨sample_identifies sampleFirst_fields.1, isDir_writeRecord _, fun _ => ?_,
      sample_identifies sampleLast_fields.1, isDir_writeRecord _, fun _ => ?_, trivial⟩
    · rw [sampleFirst_fields.2.1]
      decide
    · rw [sampleLast_fields.2.1]
      decide
  extent_ne := by
    refine List.forall_mem_singleton.2 ?_
    rw [sample, sampleRoot_fields.1]
    decide
  extents_nodup := List.nodup_singleton _

lemma sector_le_sample : sector ≤ 2048 := le_rfl

def sampleIso : Iso := ⟨sampleVolume, 2048, 18, 2048, false, sector_le_sample⟩

lemma sample_supported : sample.Supported 1 sampleOpts where
  descriptors := by decide
  blockSize := le_rfl
  xarLength := List.forall_mem_singleton.2 sampleRoot_fields.2.1
  dataLength := by
    refine List.forall_mem_singleton.2 ?_
    rw [sample, sampleRoot_fields.2.2]
    decide
  depth := by decide
  files := by decide
  live := rfl

/-- The image is supported, and walked. -/
theorem walk_exact_sample : sample.WellFormed 1 ∧ sample.Supported 1 sampleOpts ∧
    ∃ iso, openVolume sample.vol = .ok iso ∧
      (iso.walk sampleOpts).sink = sample.places.map (FilePlace.entry sample.blockSize) :=
  ⟨sample_wellFormed, sample_supported,
    ((walk_exact sampleIso sample 1 sampleOpts).2 sample_wellFormed sample_supported).1⟩

/-- **A file in two sections** is emitted twice, each time with one of its extents. -/
theorem walk_counterexample : sample.WellFormed 1 ∧
    (sampleFirst.multiExtent = true ∧ sampleLast.name = sampleFirst.name) ∧
    ∃ iso, openVolume sample.vol = .ok iso ∧
      (iso.walk sampleOpts).sink.map (fun e => (e.path, e.extents)) =
        [(some "A", [⟨38912, 2048⟩]), (some "A", [⟨40960, 100⟩])] := by
  obtain ⟨iso, hopen, hsink⟩ := sample_wellFormed.walk sample_supported
  obtain ⟨hfirst, hextent, hlen⟩ := sampleFirst_fields
  obtain ⟨hlast, hextent', hlen'⟩ := sampleLast_fields
  have hplaces : sample.places = [⟨"A", "A", sampleFirst⟩, ⟨"A", "A", sampleLast⟩] := rfl
  refine ⟨sample_wellFormed, ⟨multiExtent_writeRecord _, hlast.trans hfirst.symm⟩, iso, hopen, ?_⟩
  rw [hsink, hplaces]
  simp [FilePlace.entry, hextent, hlen, hextent', hlen', sample]

end Iso

end Reclaim
