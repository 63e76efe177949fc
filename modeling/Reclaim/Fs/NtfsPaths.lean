import Reclaim.Foundation.Versions
import Reclaim.Fs.NtfsResident

/-!
# Paths of NTFS files

A record names its parent by a reference: the number of the parent's record, and the sequence number
that the record had then.  A record that is used again has another sequence number.

`resolve_path` follows the numbers alone, and what it comes to when they lead nowhere is a path like
any other.  A path is the true one exactly if the references lead through directories to the root,
and there are not too many (`paths_exact`).
-/

namespace Reclaim
namespace Ntfs

open FileBytes

/-! ## The passes of the walk -/

/-- `ROOT_REF`: the record of the root directory. -/
def rootRef : ℕ := 5

/-- What the first pass notes of a record. -/
structure DirName where
  name : String
  parent : ℕ
  isDir : Bool

/-- The names above a file, the nearest first, from record `cur` on. -/
def parentNames (dirs : ℕ → Option DirName) (recNo : ℕ) : (guard cur : ℕ) → List String
  | 0, _ => []
  | guard + 1, cur =>
    if cur = rootRef ∨ cur = recNo then []
    else
      match dirs cur with
      | some d => if d.name = "" then [] else d.name :: parentNames dirs recNo guard d.parent
      | none => []

/-- `resolve_path`: at most 256 names above the file. -/
def resolvePath (recNo parent : ℕ) (name : String) (dirs : ℕ → Option DirName) : String :=
  "/".intercalate (name :: parentNames dirs recNo 256 parent).reverse

variable (fs : Ntfs) (opts : WalkOpts)

/-- `record_count`. -/
def recordCount : ℕ := (fs.mftExtents.map (·.len)).sum / max fs.mftRecordSize 1

/-- The numbers of the records that the first pass reads. -/
def recordNumbers : List ℕ :=
  (List.range (min fs.recordCount (opts.maxEntries + 64))).takeWhile
    fun n => (fs.recordOffset n).isSome

/-- The bytes of record `n`, if it is one. -/
def readRecord (n : ℕ) : Option Bytes := (fs.recordOffset n).bind fs.readRecordAt

/-- What the first pass keeps of record `n`. -/
def readFile (n : ℕ) : Option FileRecord :=
  (fs.readRecord n).bind fun buf => (MftRecord.parse buf).bind (fs.fileRecord n)

/-- The records of the first pass. -/
def firstPass : List FileRecord := (fs.recordNumbers opts).filterMap fs.readFile

/-- `dir_names`: the names of all records. -/
def dirNames (n : ℕ) : Option DirName :=
  (Versions.table (·.recNo) (fs.firstPass opts) n).map fun f => ⟨f.raw.name, f.parent, f.raw.isDir⟩

/-- The entry of a record. -/
def fileEntry (file : FileRecord) : Entry :=
  file.raw.entry (resolvePath file.recNo file.parent file.raw.name (fs.dirNames opts))

/-- The second pass passes over a record: it is not asked for, or a live metafile. -/
def isSkipped (file : FileRecord) : Bool :=
  !(if file.raw.inUse then opts.includeLive else opts.includeDeleted) ||
    file.raw.inUse && file.raw.name.toList.head? == some '$' && decide (file.recNo < 16)

/-- A round of the second pass. -/
def emitFile (w : Walked) (file : FileRecord) : Walked :=
  if opts.maxEntries ≤ w.stats.emitted then w
  else if isSkipped opts file then w
  else w.emit (fs.fileEntry opts file)

/-- The second pass. -/
def secondPass : Walked := (fs.firstPass opts).foldl (fs.emitFile opts) .start

/-! ## What references mean -/

/-- A reference to a record: its number, and the sequence number that it had. -/
structure Reference where
  recNo : ℕ
  sequence : ℕ
  deriving DecidableEq

/-- A record with a name, as the format has it. -/
structure NamedRecord where
  name : String
  isDir : Bool
  /-- The sequence number of the record itself. -/
  sequence : ℕ
  parent : Reference

/-- The parent of a `$FILE_NAME`, with both its numbers. -/
def parentReference (c : Bytes) : Reference := ⟨leU64 c 0 % 2 ^ 48, leU64 c 0 / 2 ^ 48⟩

/-- The names of a record, each with its reference. -/
def nameReferences (buf : Bytes) : List (FileName × Reference) :=
  let b := applyFixup buf
  ((readAttrs b 1024 (leU16 b 20)).filter
    fun a => a.typeId == attrFileName && a.resident).filterMap fun a =>
      (getRange b a.contentOff a.contentLen).bind fun c =>
        (parseFileName c).map fun f => (f, parentReference c)

/-- The first name of the least rank, with its reference. -/
def bestReference (names : List (FileName × Reference)) : Option (FileName × Reference) :=
  names.foldl
    (fun best f => match best with
      | some g =>
        if MftRecord.rank f.1.nameType < MftRecord.rank g.1.nameType then some f else some g
      | none => some f) none

/-- The record that some bytes are. -/
def namedRecord (buf : Bytes) : Option NamedRecord :=
  (MftRecord.parse buf).bind fun p =>
    (bestReference (nameReferences buf)).map fun f =>
      ⟨f.1.name, p.isDirectory, leU16 (applyFixup buf) 16, f.2⟩

/-- The named records that the walk reads. -/
def records (n : ℕ) : Option NamedRecord :=
  if n ∈ fs.recordNumbers opts then (fs.readRecord n).bind namedRecord else none

section Chains

variable (records : ℕ → Option NamedRecord)

/-- The directories that a reference leads to, up to the root: each has the sequence number with
which it is referred to. -/
inductive Chain : Reference → List NamedRecord → Prop
  | root {r : Reference} (hroot : r.recNo = rootRef) : Chain r []
  | dir {r : Reference} {d : NamedRecord} {ds : List NamedRecord} (hne : r.recNo ≠ rootRef)
      (hrecord : records r.recNo = some d) (hdir : d.isDir = true)
      (hsequence : d.sequence = r.sequence) (hchain : Chain d.parent ds) : Chain r (d :: ds)

/-- A path names the directories of a record from the root down, and the record itself. -/
def TruePath (record : NamedRecord) (path : String) : Prop :=
  ∃ ds, Chain records record.parent ds ∧
    path = "/".intercalate (record.name :: ds.map (·.name)).reverse

/-- An entry has the true path of a record, or none. -/
def Honest (record : NamedRecord) (e : Entry) : Prop :=
  ∀ path, e.path = some path → TruePath records record path

/-- A reference leads to the root, through at most so many directories. -/
def reachesRoot : (steps : ℕ) → Reference → Bool
  | 0, r => r.recNo == rootRef
  | steps + 1, r => r.recNo == rootRef ||
    (records r.recNo).any fun d =>
      d.isDir && d.sequence == r.sequence && reachesRoot steps d.parent

variable {records} {r : Reference} {ds ds' : List NamedRecord}

lemma reachesRoot_iff {steps : ℕ} :
    reachesRoot records steps r = true ↔ ∃ ds, Chain records r ds ∧ ds.length ≤ steps := by
  induction steps generalizing r with
  | zero =>
    rw [reachesRoot, beq_iff_eq]
    constructor
    · exact fun h => ⟨[], .root h, le_rfl⟩
    · rintro ⟨ds, h, hlen⟩
      cases h with
      | root hroot => exact hroot
      | dir => cases hlen
  | succ steps ih =>
    rw [reachesRoot, Bool.or_eq_true, beq_iff_eq, Option.any_eq_true]
    constructor
    · rintro (hroot | ⟨d, hrecord, h⟩)
      · exact ⟨[], .root hroot, Nat.zero_le _⟩
      · rw [Bool.and_eq_true, Bool.and_eq_true, beq_iff_eq] at h
        obtain ⟨ds, hchain, hlen⟩ := ih.1 h.2
        by_cases hroot : r.recNo = rootRef
        · exact ⟨[], .root hroot, Nat.zero_le _⟩
        · exact ⟨d :: ds, .dir hroot hrecord h.1.1 h.1.2 hchain, Nat.succ_le_succ hlen⟩
    · rintro ⟨ds, h, hlen⟩
      cases h with
      | root hroot => exact .inl hroot
      | dir hne hrecord hdir hsequence hchain =>
        refine .inr ⟨_, hrecord, ?_⟩
        rw [hdir, hsequence, beq_self_eq_true, Bool.true_and, Bool.true_and]
        exact ih.2 ⟨_, hchain, Nat.le_of_succ_le_succ hlen⟩

/-- A reference leads along one chain only. -/
lemma Chain.unique (h : Chain records r ds) (h' : Chain records r ds') : ds = ds' := by
  induction h generalizing ds' with
  | root hroot =>
    cases h' with
    | root => rfl
    | dir hne => exact absurd hroot hne
  | dir hne hrecord _ _ _ ih =>
    cases h' with
    | root hroot => exact absurd hroot hne
    | dir _ hrecord' _ _ hchain' =>
      obtain rfl := Option.some.inj (hrecord.symm.trans hrecord')
      rw [ih hchain']

/-- Whatever the records are, a path comes to an end. -/
lemma length_parentNames_le (dirs : ℕ → Option DirName) (recNo guard cur : ℕ) :
    (parentNames dirs recNo guard cur).length ≤ guard := by
  induction guard generalizing cur with
  | zero => exact le_rfl
  | succ guard ih =>
    rw [parentNames]
    split
    · exact Nat.zero_le _
    · split
      · split
        · exact Nat.zero_le _
        · exact Nat.succ_le_succ (ih _)
      · exact Nat.zero_le _

/-- The names above a file with a chain are those of the chain, as many as there may be. -/
lemma parentNames_of_chain {dirs : ℕ → Option DirName} {recNo : ℕ}
    (hdirs : ∀ n d, records n = some d → dirs n = some ⟨d.name, d.parent.recNo, d.isDir⟩)
    (hnamed : ∀ n d, records n = some d → d.name ≠ "") (h : Chain records r ds)
    (hown : ∀ d, records recNo = some d →
      ¬ ∃ ds', Chain records d.parent ds' ∧ ds'.length < ds.length)
    (guard : ℕ) :
    parentNames dirs recNo guard r.recNo = (ds.map (·.name)).take guard := by
  induction h generalizing guard with
  | root hroot =>
    cases guard with
    | zero => rfl
    | succ guard => rw [parentNames, if_pos (.inl hroot), List.map_nil, List.take_nil]
  | @dir r d ds hne hrecord hdir hsequence hchain ih =>
    cases guard with
    | zero => rfl
    | succ guard =>
      have hother : r.recNo ≠ recNo := by
        rintro rfl
        exact hown d hrecord ⟨ds, hchain, Nat.lt_succ_self _⟩
      have hrest :=
        ih (fun d' hd' ⟨ds', h', hlt⟩ => hown d' hd' ⟨ds', h', Nat.lt_succ_of_lt hlt⟩) guard
      rw [parentNames, if_neg (by simp [hne, hother]), hdirs _ _ hrecord]
      dsimp only
      rw [if_neg (hnamed _ _ hrecord), hrest, List.map_cons, List.take_succ_cons]

/-- Parts of a path take their own lengths and one character between two. -/
lemma length_intercalate_slash {l : List String} (h : l ≠ []) :
    ("/".intercalate l).length + 1 = (l.map fun s => s.length + 1).sum := by
  induction l with
  | nil => exact absurd rfl h
  | cons s l ih =>
    cases l with
    | nil => simp
    | cons t l =>
      have hrest := ih (List.cons_ne_nil t l)
      rw [String.intercalate_cons_cons, String.length_append, String.length_append, List.map_cons,
        List.sum_cons, ← hrest]
      change s.length + 1 + _ + 1 = _
      omega

/-- A path of fewer parts is a different path. -/
lemma intercalate_take_iff (name : String) (names : List String) (n : ℕ) :
    "/".intercalate (name :: names.take n).reverse = "/".intercalate (name :: names).reverse ↔
      names.length ≤ n := by
  constructor
  · intro h
    have hlen := congrArg (String.length · + 1) h
    rw [length_intercalate_slash (by simp), length_intercalate_slash (by simp), List.map_reverse,
      List.map_reverse, List.sum_reverse, List.sum_reverse, List.map_cons, List.map_cons,
      List.sum_cons, List.sum_cons] at hlen
    have hsplit : (names.map fun s => s.length + 1).sum =
        ((names.take n).map fun s => s.length + 1).sum +
          ((names.drop n).map fun s => s.length + 1).sum := by
      rw [← List.sum_append, ← List.map_append, List.take_append_drop]
    have hzero : ((names.drop n).map fun s => s.length + 1).sum = 0 := by omega
    apply not_lt.1
    intro hlt
    have hmem : names[n].length + 1 ∈ (names.drop n).map fun s => s.length + 1 :=
      List.mem_map_of_mem (List.mem_drop_iff_getElem.2 ⟨0, by omega, rfl⟩)
    have hle := List.le_sum_of_mem hmem
    omega
  · intro h
    rw [List.take_of_length_le h]

/-- The path that the walk finds is the true one exactly if the references lead to the root in
time. -/
lemma truePath_resolvePath_iff {dirs : ℕ → Option DirName} {record : NamedRecord} {recNo : ℕ}
    (hdirs : ∀ n d, records n = some d → dirs n = some ⟨d.name, d.parent.recNo, d.isDir⟩)
    (hnamed : ∀ n d, records n = some d → d.name ≠ "") (hrecord : records recNo = some record) :
    TruePath records record (resolvePath recNo record.parent.recNo record.name dirs) ↔
      reachesRoot records 256 record.parent = true := by
  rw [reachesRoot_iff]
  refine exists_congr fun ds => and_congr_right fun hchain => ?_
  -- a record on the way to itself has no chain
  have hown : ∀ d, records recNo = some d →
      ¬ ∃ ds', Chain records d.parent ds' ∧ ds'.length < ds.length := by
    rintro d hd ⟨ds', hchain', hlt⟩
    obtain rfl := Option.some.inj (hrecord.symm.trans hd)
    rw [hchain.unique hchain'] at hlt
    exact Nat.lt_irrefl _ hlt
  rw [resolvePath, parentNames_of_chain hdirs hnamed hchain hown, intercalate_take_iff,
    List.length_map]

end Chains

/-! ## What the first pass knows -/

lemma recNo_of_readFile {n : ℕ} {file : FileRecord} (h : fs.readFile n = some file) :
    file.recNo = n := by
  obtain ⟨buf, -, h⟩ := Option.bind_eq_some_iff.1 h
  obtain ⟨p, -, h⟩ := Option.bind_eq_some_iff.1 h
  obtain ⟨f, -, rfl⟩ := Option.map_eq_some_iff.1 h
  rfl

lemma nodup_recordNumbers : (fs.recordNumbers opts).Nodup :=
  List.Nodup.sublist (List.takeWhile_sublist _) List.nodup_range

lemma nodup_firstPass : ((fs.firstPass opts).map (·.recNo)).Nodup := by
  have hsub : ∀ l : List ℕ, ((l.filterMap fs.readFile).map (·.recNo)).Sublist l := by
    intro l
    induction l with
    | nil => exact List.Sublist.slnil
    | cons n l ih =>
      cases hn : fs.readFile n with
      | none =>
        rw [List.filterMap_cons_none hn]
        exact ih.cons n
      | some file =>
        rw [List.filterMap_cons_some hn, List.map_cons, recNo_of_readFile fs hn]
        exact ih.cons_cons n
  exact (fs.nodup_recordNumbers opts).sublist (hsub _)

/-- The references stand beside the names. -/
lemma map_fst_nameReferences {buf : Bytes} {p : MftRecord} (h : MftRecord.parse buf = some p) :
    (nameReferences buf).map Prod.fst = p.fileNames := by
  unfold MftRecord.parse at h
  split at h
  · rw [← Option.some.inj h]
    dsimp only
    rw [nameReferences, List.map_filterMap]
    apply List.filterMap_congr
    intro a _
    rw [Option.map_bind]
    apply Option.bind_congr
    intro c _
    rw [Function.comp_apply, Option.map_map]
    exact Option.map_id'
  · cases h

lemma map_fst_bestReference (names : List (FileName × Reference)) :
    (bestReference names).map Prod.fst = (names.map Prod.fst).foldl
      (fun best f => match best with
        | some g => if MftRecord.rank f.nameType < MftRecord.rank g.nameType then some f else some g
        | none => some f) none := by
  unfold bestReference
  induction names using List.reverseRecOn with
  | nil => rfl
  | append_singleton names f ih =>
    rw [List.foldl_append, List.foldl_cons, List.foldl_nil, List.map_append, List.foldl_append,
      ← ih]
    cases List.foldl _ none names with
    | none => rfl
    | some g =>
      exact apply_ite (Option.map Prod.fst) _ _ _

lemma mem_of_bestReference {names : List (FileName × Reference)} {f : FileName × Reference}
    (h : bestReference names = some f) : f ∈ names := by
  unfold bestReference at h
  induction names using List.reverseRecOn generalizing f with
  | nil => cases h
  | append_singleton names g ih =>
    rw [List.foldl_append, List.foldl_cons, List.foldl_nil] at h
    generalize List.foldl _ none names = best at h ih
    cases best with
    | none =>
      rw [← Option.some.inj h]
      exact List.mem_append_right _ (List.mem_singleton_self g)
    | some old =>
      dsimp only at h
      split at h
      · rw [← Option.some.inj h]
        exact List.mem_append_right _ (List.mem_singleton_self g)
      · exact List.mem_append_left _ (ih h)

/-- A name that is kept is not empty, and its parent is the number of its reference. -/
lemma of_mem_nameReferences {buf : Bytes} {f : FileName × Reference} (h : f ∈ nameReferences buf) :
    f.1.name ≠ "" ∧ f.1.parent = f.2.recNo := by
  obtain ⟨a, -, h⟩ := List.mem_filterMap.1 h
  obtain ⟨c, -, h⟩ := Option.bind_eq_some_iff.1 h
  obtain ⟨g, hg, rfl⟩ := Option.map_eq_some_iff.1 h
  unfold parseFileName at hg
  dsimp only at hg
  split at hg
  · cases hg
  · rename_i hname
    rw [← Option.some.inj hg]
    exact ⟨hname, rfl⟩

/-- What the first pass keeps of a record is what the format has in it, but for the sequence
numbers. -/
lemma namedRecord_of_readFile {n : ℕ} {file : FileRecord} (h : fs.readFile n = some file) :
    ∃ record, (fs.readRecord n).bind namedRecord = some record ∧ file.raw.name = record.name ∧
      file.parent = record.parent.recNo ∧ file.raw.isDir = record.isDir := by
  obtain ⟨buf, hbuf, h⟩ := Option.bind_eq_some_iff.1 h
  obtain ⟨p, hp, h⟩ := Option.bind_eq_some_iff.1 h
  obtain ⟨f, hf, rfl⟩ := Option.map_eq_some_iff.1 h
  have hbest : (bestReference (nameReferences buf)).map Prod.fst = some f := by
    rw [map_fst_bestReference, map_fst_nameReferences hp]
    exact hf
  obtain ⟨⟨g, r⟩, hg, rfl⟩ := Option.map_eq_some_iff.1 hbest
  refine ⟨⟨g.name, p.isDirectory, leU16 (applyFixup buf) 16, r⟩, ?_, rfl,
    (of_mem_nameReferences (mem_of_bestReference hg)).2, rfl⟩
  rw [hbuf, Option.bind_some, namedRecord, hp, Option.bind_some, hg, Option.map_some]

lemma readFile_of_namedRecord {n : ℕ} {record : NamedRecord}
    (h : (fs.readRecord n).bind namedRecord = some record) :
    record.name ≠ "" ∧ ∃ file, fs.readFile n = some file := by
  obtain ⟨buf, hbuf, h⟩ := Option.bind_eq_some_iff.1 h
  obtain ⟨p, hp, h⟩ := Option.bind_eq_some_iff.1 h
  obtain ⟨f, hf, rfl⟩ := Option.map_eq_some_iff.1 h
  refine ⟨(of_mem_nameReferences (mem_of_bestReference hf)).1, ?_⟩
  have hbest : p.bestFileName = some f.1 := by
    have hfst := map_fst_bestReference (nameReferences buf)
    rw [map_fst_nameReferences hp, hf] at hfst
    exact hfst.symm
  apply Option.isSome_iff_exists.1
  rw [readFile, hbuf, Option.bind_some, hp, Option.bind_some, fileRecord, hbest, Option.map_some]
  rfl

/-- A record of the first pass is one of the named records. -/
lemma exists_record_of_mem_firstPass {file : FileRecord} (h : file ∈ fs.firstPass opts) :
    ∃ record, fs.records opts file.recNo = some record ∧ file.raw.name = record.name ∧
      file.parent = record.parent.recNo ∧ file.raw.isDir = record.isDir := by
  obtain ⟨n, hn, hfile⟩ := List.mem_filterMap.1 h
  obtain ⟨record, hrecord, hsame⟩ := fs.namedRecord_of_readFile hfile
  rw [fs.recNo_of_readFile hfile]
  refine ⟨record, ?_, hsame⟩
  rw [records, if_pos hn]
  exact hrecord

lemma exists_mem_firstPass {n : ℕ} {record : NamedRecord} (h : fs.records opts n = some record) :
    ∃ file ∈ fs.firstPass opts, file.recNo = n := by
  unfold records at h
  split at h
  · rename_i hn
    obtain ⟨-, file, hfile⟩ := fs.readFile_of_namedRecord h
    exact ⟨file, List.mem_filterMap.2 ⟨n, hn, hfile⟩, fs.recNo_of_readFile hfile⟩
  · cases h

/-- The names that the walk follows are those of the named records. -/
lemma dirNames_eq {n : ℕ} {d : NamedRecord} (h : fs.records opts n = some d) :
    d.name ≠ "" ∧ fs.dirNames opts n = some ⟨d.name, d.parent.recNo, d.isDir⟩ := by
  unfold records at h
  split at h
  · rename_i hn
    obtain ⟨hname, file, hfile⟩ := fs.readFile_of_namedRecord h
    obtain ⟨record, hrecord, hsame⟩ := fs.namedRecord_of_readFile hfile
    obtain rfl := Option.some.inj (h.symm.trans hrecord)
    have hmem : file ∈ fs.firstPass opts := List.mem_filterMap.2 ⟨n, hn, hfile⟩
    have htable : Versions.table (·.recNo) (fs.firstPass opts) n = some file :=
      Versions.table_eq_some_iff.2
        ⟨Versions.isLast_of_nodup (fs.nodup_firstPass opts) hmem, fs.recNo_of_readFile hfile⟩
    refine ⟨hname, ?_⟩
    rw [dirNames, htable, Option.map_some, hsame.1, hsame.2.1, hsame.2.2]
  · cases h

/-! ## The paths -/

/-- The second pass emits the entries of the records that it does not pass over, so many as there
may be. -/
lemma secondPass_sink : (fs.secondPass opts).sink =
    (((fs.firstPass opts).filter fun file => !isSkipped opts file).map (fs.fileEntry opts)).take
      opts.maxEntries := by
  have hrun : ∀ (l : List FileRecord) (w : Walked), (l.foldl (fs.emitFile opts) w).sink =
      w.sink ++ ((l.filter fun file => !isSkipped opts file).map (fs.fileEntry opts)).take
        (opts.maxEntries - w.stats.emitted) := by
    intro l
    induction l with
    | nil => exact fun w => by simp
    | cons file l ih =>
      intro w
      rw [List.foldl_cons, ih, emitFile]
      by_cases hfull : opts.maxEntries ≤ w.stats.emitted
      · rw [if_pos hfull, Nat.sub_eq_zero_of_le hfull, List.take_zero, List.take_zero]
      rw [if_neg hfull]
      cases hskip : isSkipped opts file with
      | true =>
        rw [if_pos rfl, List.filter_cons_of_neg (by simp [hskip])]
      | false =>
        rw [if_neg Bool.false_ne_true, List.filter_cons_of_pos (by simp [hskip]), List.map_cons]
        exact w.emit_take _ _ (not_le.1 hfull)
  exact hrun (fs.firstPass opts) .start

/-- **When a path is the true one**: exactly when the references lead from the record through
directories to the root, each with the sequence number of the directory, in at most 256 steps.  Else
the entry has a path all the same. -/
theorem paths_exact (fs : Ntfs) (opts : WalkOpts) {file : FileRecord} {record : NamedRecord}
    (hfile : file ∈ fs.firstPass opts) (hrecord : fs.records opts file.recNo = some record) :
    Honest (fs.records opts) record (fs.fileEntry opts file) ↔
      reachesRoot (fs.records opts) 256 record.parent = true := by
  obtain ⟨record', hrecord', hname, hparent, -⟩ := fs.exists_record_of_mem_firstPass opts hfile
  obtain rfl := Option.some.inj (hrecord.symm.trans hrecord')
  refine Iff.trans ?_ (truePath_resolvePath_iff (fun n d hd => (fs.dirNames_eq opts hd).2)
    (fun n d hd => (fs.dirNames_eq opts hd).1) hrecord)
  rw [← hname, ← hparent]
  constructor
  · exact fun h => h _ rfl
  · rintro h path hpath
    obtain rfl := Option.some.inj hpath
    exact h

/-! ## A record that is used again -/

/-- A record of 256 bytes with a name of one letter. -/
def letterRecord (sequence flags parent parentSequence letter : UInt8) : Bytes :=
  fileMagic ++ List.replicate 12 0 ++ [sequence, 0, 1, 0, 24, 0, flags, 0] ++
    [0x30, 0, 0, 0, 96, 0, 0, 0] ++ List.replicate 8 0 ++ [68, 0, 0, 0, 24, 0, 0, 0] ++
    [parent, 0, 0, 0, 0, 0, parentSequence, 0] ++ List.replicate 56 0 ++ [1, 1, letter, 0] ++
    [0, 0, 0, 0] ++ [0xFF, 0xFF, 0xFF, 0xFF] ++ List.replicate 132 0

/-- The directory `d` in the root, with sequence number 4. -/
def reusedDir : Bytes := letterRecord 4 3 5 5 0x64

/-- The deleted file `a`; the directory that it was in had sequence number 3. -/
def deletedFile : Bytes := letterRecord 1 0 0 3 0x61

/-- A table of the two records. -/
def reusedTable : Ntfs where
  vol := .ofBytes (reusedDir ++ deletedFile)
  clusterSize := 512
  mftRecordSize := 256
  totalBytes := 512
  mftExtents := [⟨0, 512⟩]

/-- All entries of a walk. -/
def everything : WalkOpts := ⟨true, true, 1000, true⟩

set_option maxRecDepth 4000 in
lemma length_letterRecord (sequence flags parent parentSequence letter : UInt8) :
    (letterRecord sequence flags parent parentSequence letter).length = 256 := rfl

lemma readRecordAt_of_read {fs : Ntfs} {off : ℕ} {buf : Bytes}
    (h : fs.vol.read off fs.mftRecordSize = buf) (hmagic : buf.take 4 = fileMagic) :
    fs.readRecordAt off = some buf := by
  unfold readRecordAt
  rw [h]
  exact if_pos hmagic

lemma readRecord_reusedTable_zero : reusedTable.readRecord 0 = some reusedDir := by
  have hdir : reusedDir.length = 256 := length_letterRecord 4 3 5 5 0x64
  have hread := Volume.read_ofBytes_append [] reusedDir deletedFile
  rw [List.nil_append reusedDir, hdir] at hread
  have hoffset : reusedTable.recordOffset 0 = some 0 := rfl
  rw [readRecord, hoffset, Option.bind_some]
  exact readRecordAt_of_read hread rfl

lemma readRecord_reusedTable_one : reusedTable.readRecord 1 = some deletedFile := by
  have hdir : reusedDir.length = 256 := length_letterRecord 4 3 5 5 0x64
  have hfile : deletedFile.length = 256 := length_letterRecord 1 0 0 3 0x61
  have hread := Volume.read_ofBytes_append reusedDir deletedFile []
  rw [List.append_nil (reusedDir ++ deletedFile), hdir, hfile] at hread
  have hoffset : reusedTable.recordOffset 1 = some 256 := rfl
  rw [readRecord, hoffset, Option.bind_some]
  exact readRecordAt_of_read hread rfl

set_option maxRecDepth 4000 in
lemma records_reusedTable_zero :
    reusedTable.records everything 0 = some ⟨"d", true, 4, ⟨5, 5⟩⟩ := by
  rw [records, readRecord_reusedTable_zero]
  rfl

set_option maxRecDepth 4000 in
lemma records_reusedTable_one :
    reusedTable.records everything 1 = some ⟨"a", false, 1, ⟨0, 3⟩⟩ := by
  rw [records, readRecord_reusedTable_one]
  rfl

/-- The directory in the root has its true path. -/
theorem paths_exact_dir : ∃ file ∈ reusedTable.firstPass everything, file.recNo = 0 ∧
    Honest (reusedTable.records everything) ⟨"d", true, 4, ⟨5, 5⟩⟩
      (reusedTable.fileEntry everything file) := by
  obtain ⟨file, hfile, hzero⟩ :=
    reusedTable.exists_mem_firstPass everything records_reusedTable_zero
  have hrecord : reusedTable.records everything file.recNo = some ⟨"d", true, 4, ⟨5, 5⟩⟩ := by
    rw [hzero]
    exact records_reusedTable_zero
  exact ⟨file, hfile, hzero, (paths_exact reusedTable everything hfile hrecord).2 rfl⟩

/-- The deleted file is shown in the directory that has the record now. -/
theorem reusedDir_counterexample :
    ¬ ∀ (fs : Ntfs) (opts : WalkOpts) (file : FileRecord) (record : NamedRecord),
      file ∈ fs.firstPass opts → fs.records opts file.recNo = some record →
        Honest (fs.records opts) record (fs.fileEntry opts file) := by
  intro h
  obtain ⟨file, hfile, hone⟩ := reusedTable.exists_mem_firstPass everything records_reusedTable_one
  obtain ⟨ds, hchain, -⟩ := h reusedTable everything file _ hfile
    (by rw [hone]; exact records_reusedTable_one) _ rfl
  cases hchain with
  | root hroot => cases hroot
  | dir _ hrecord _ hsequence _ =>
    rw [records_reusedTable_zero] at hrecord
    obtain rfl := Option.some.inj hrecord
    cases hsequence

end Ntfs
end Reclaim
