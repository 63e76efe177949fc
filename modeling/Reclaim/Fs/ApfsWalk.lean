import Reclaim.Fs.ApfsViews

/-!
# The walk over an APFS container

For each volume the walk compares older views with the current one.  What an older checkpoint, a
snapshot or a swept leaf names under a parent and a name that the current view does not have, and
with an id that it does not have, is reported; once for each parent and name.

The sweep looks at the blocks of the whole container, in the order of their addresses, for each
volume anew.  A leaf does not say which volume it belongs to, and an old copy may lie behind a newer
one.  So the leaves of one volume are compared with the current view of another, and of the copies
of a record the one at the highest address is taken.

`reportsTruly_iff` says when all of that does no harm.
-/

namespace Reclaim
namespace Apfs

open FileBytes Versions

variable (fs : Apfs)

/-! ## The sweep -/

/-- Where a swept record lies: its block, and the transaction that wrote it. -/
structure Stamp where
  block : ℕ
  xid : ℕ
  deriving DecidableEq

/-- The records of a block that is a leaf of a file-system tree. -/
def leafRecords (hashed : Bool) (b : ℕ) : List (Stamp × FsRec) :=
  let block := fs.readBlock b
  match ObjPhys.parse block, Node.parse block with
  | some obj, some node =>
    if obj.subKind = 14 ∧ fletcher64Valid block = true ∧ node.isLeaf = true then
      ((walkLeaves node (fun _ => none) 0 0 1).1.filterMap (FsRec.parse hashed)).map
        fun r => (⟨b, obj.xid⟩, r)
    else []
  | _, _ => []

/-- The records that `orphan_scan` absorbs.  It reads a mebibyte at a time and takes that apart. -/
def sweep (hashed : Bool) (bitmap : Option Bitmap) : List (Stamp × FsRec) :=
  let srcBlocks := fs.src.len / max fs.blockSize 1
  let total := min (min fs.newest.blockCount (srcBlocks + 1)) 8388608
  if bitmap.isNone = true ∧ 1048576 < total then []
  else
    (List.range total).flatMap fun b =>
      if bitmap.any (·.isBlockAllocated b) then [] else fs.leafRecords hashed b

/-! ## What the walk collects of a volume -/

/-- The current view of a volume, and all that is compared with it. -/
structure Scan where
  fsOid : ℕ
  hashed : Bool
  cur : List FsRec
  /-- Older checkpoints, each with its transaction. -/
  olds : List (ℕ × List FsRec)
  snaps : List (List FsRec)
  swept : List (Stamp × FsRec)

/-- The views of the older checkpoints of a volume. -/
def oldViews (fsOid : ℕ) : StateM ℕ (List (ℕ × List FsRec)) := do
  let older := (fs.history.filter fun nx => decide (nx.xid < fs.newest.xid)).take 32
  let views ← older.mapM fun nx => do
    match ← fs.resolveVolume nx.omapOid fsOid nx.xid with
    | none => pure none
    | some oldVol => do
      let recs ← fs.walkFsTree oldVol nx.xid
      pure (some (nx.xid, recs))
  pure (views.filterMap id)

/-- The views of the snapshots of a volume. -/
def snapViews (vol : VolumeSb) : StateM ℕ (List (List FsRec)) := do
  let points ← fs.snapshotPoints vol
  let views ← points.mapM fun p =>
    match VolumeSb.parse (fs.readBlock p.2) with
    | none => pure none
    | some snapVol => do
      let recs ← fs.walkFsTree snapVol p.1
      pure (some recs)
  pure (views.filterMap id)

/-- What the walk collects of one volume. -/
def scanVolume (opts : WalkOpts) (target : ℕ × VolumeSb) : StateM ℕ Scan := do
  let cur ← fs.walkFsTree target.2 fs.newest.xid
  let hashed := target.2.hashedDrec
  if opts.includeDeleted then do
    let olds ← fs.oldViews target.1
    let snaps ← fs.snapViews target.2
    pure ⟨target.1, hashed, cur, olds, snaps, fs.sweep hashed (fs.liveBitmapFrom cur)⟩
  else pure ⟨target.1, hashed, cur, [], [], []⟩

/-- What the walk collects of all volumes, on one budget. -/
def scans (opts : WalkOpts) : List Scan :=
  ((fs.targetVolumes opts.includeSystemVolume >>= fun ts =>
    ts.mapM (fs.scanVolume opts)) totalWorkBudget).1

/-! ## What the walk reports -/

/-- A directory record that may be reported, and the view that it is in. -/
structure Candidate where
  drec : ChildRec
  state : EntryState
  /-- The records of its view. -/
  recs : List FsRec
  /-- What stands for a date of creation that is not known. -/
  undated : Option String
  /-- Where it was swept up. -/
  stamp : Option Stamp

namespace Scan

variable (s : Scan)

/-- The directory records of the current view. -/
def live : List Candidate := (drecs s.cur).map fun d => ⟨d, .live, s.cur, none, none⟩

/-- All records that the sweep has absorbed. -/
def sweptRecs : List FsRec := s.swept.map (·.2)

/-- The directory records of the older checkpoints. -/
def historical : List Candidate :=
  s.olds.flatMap fun v => (drecs v.2).map fun d =>
    ⟨d, .historical, v.2, some ("xid " ++ Nat.repr v.1), none⟩

/-- The directory records of the snapshots. -/
def snapped : List Candidate :=
  s.snaps.flatMap fun v => (drecs v).map fun d => ⟨d, .historical, v, none, none⟩

/-- The directory records that the sweep has absorbed, in the order of their blocks. -/
def orphaned : List Candidate :=
  s.swept.filterMap fun p => p.2.dirRec?.map fun d =>
    ⟨d, .orphaned, s.sweptRecs, none, some p.1⟩

/-- The records that are compared with the current view, in the order in which they are. -/
def candidates : List Candidate := s.historical ++ s.snapped ++ s.orphaned

/-- The current view has a record of this parent and name, or an object of this id. -/
def knows (d : ChildRec) : Bool := isPresent s.cur d.key || isLiveId s.cur d.fileId

end Scan

/-- The entry of a candidate. -/
def entryOf (c : Candidate) : Option Entry :=
  (buildEntry apfsDate fs.blockSize c.drec.toDirRec (contents c.recs)
    (pathOf c.recs c.drec.fileId) c.state).map fun e =>
      { e with created := e.created.or c.undated }

/-- The entries of a volume: those of the current view, then those it does not know, each parent and
name once. -/
def reports (opts : WalkOpts) (s : Scan) : List (Candidate × Entry) :=
  (if opts.includeLive then s.live.filterMap fun c => (fs.entryOf c).map fun e => (c, e) else []) ++
    takeNoting (fun c : Candidate => c.drec.key)
      (fun c => s.knows c.drec) fs.entryOf [] s.candidates

/-- `walk`. -/
def walk (opts : WalkOpts) : Walked :=
  Walked.start.emitAll (((fs.scans opts).flatMap (fs.reports opts)).map (·.2))

/-! ## What it ought to report -/

/-- The same container, with another budget for each tree. -/
def withBudget (n : ℕ) : Apfs := { fs with nodeBudget := n }

/-- The current view of a volume, if each tree may have `n` nodes. -/
def currentView (n fsOid : ℕ) : List FsRec :=
  let wide := fs.withBudget n
  ((wide.resolveVolume fs.newest.omapOid fsOid fs.newest.xid >>= fun vol =>
    match vol with
    | none => pure []
    | some v => wide.walkFsTree v fs.newest.xid) (3 * n)).1

/-- A file is live in a volume of the container: the current view of the volume has its id, however
many nodes the trees have. -/
def LiveIn (fsOid id : ℕ) : Prop :=
  fsOid ∈ fs.newest.fsOids ∧ ∃ n, ∀ m, n ≤ m → isLiveId (fs.currentView m fsOid) id = true

/-- The records that survive in the leaves of the container. -/
def surviving (hashed : Bool) : List (Stamp × FsRec) :=
  (List.range fs.newest.blockCount).flatMap (fs.leafRecords hashed)

/-- A record says what the newest surviving copy of it says, among those of a volume; `owner` is the
volume that a block was written for. -/
def IsNewest (owner : ℕ → ℕ) (hashed : Bool) (fsOid : ℕ) (r : FsRec) : Prop :=
  ∃ p ∈ fs.surviving hashed, p.2 = r ∧ owner p.1.block = fsOid ∧
    ∀ q ∈ fs.surviving hashed, q.2.key = r.key → owner q.1.block = fsOid → q.1.xid ≤ p.1.xid

namespace Candidate

variable (c : Candidate)

/-- The volume whose file a candidate is. -/
def volume (owner : ℕ → ℕ) (s : Scan) : ℕ :=
  match c.stamp with
  | none => s.fsOid
  | some st => owner st.block

/-- The records that the entry of a candidate is made of. -/
def used : List FsRec :=
  .dirRec c.drec ::
    (((contents c.recs).inodes c.drec.fileId).toList.map (.inode c.drec.fileId) ++
      (byLogical (((contents c.recs).extents c.drec.fileId).getD [])).map
        (.fileExtent c.drec.fileId))

end Candidate

/-- What is reported as deleted is live nowhere, an orphan is made of the newest copies of its
records, and no volume has a parent and a name twice in one state. -/
structure ReportsTruly (opts : WalkOpts) (owner : ℕ → ℕ) : Prop where
  notLive : ∀ s ∈ fs.scans opts, ∀ r ∈ fs.reports opts s, r.1.state ≠ .live →
    ¬ fs.LiveIn (r.1.volume owner s) r.1.drec.fileId
  newest : ∀ s ∈ fs.scans opts, ∀ r ∈ fs.reports opts s, r.1.state = .orphaned →
    ∀ rec ∈ r.1.used, fs.IsNewest owner s.hashed (r.1.volume owner s) rec
  once : ∀ s ∈ fs.scans opts, ∀ st,
    (((fs.reports opts s).filter fun r => decide (r.1.state = st)).map (·.1.drec.key)).Nodup

/-! ## When it does -/

/-- The files among the candidates that the current view does not know. -/
def Scan.unknown (s : Scan) : List Candidate :=
  s.candidates.filter fun c => !s.knows c.drec && !c.drec.isDir

/-- A candidate is the first of the unknown ones of its parent and name. -/
def Scan.TakesUp (s : Scan) (c : Candidate) : Prop :=
  IsFirst (fun c : Candidate => c.drec.key) s.unknown c

/-- A record is the inode or an extent of a file. -/
def FsRec.IsOf (id : ℕ) : FsRec → Prop
  | .inode id' _ => id' = id
  | .dirRec _ => False
  | .fileExtent id' _ => id' = id

/-- What is taken up is live nowhere; the copies at the highest addresses are the newest, as is the
directory record that an orphan is taken up with; and no current view has a file of one parent and
name twice. -/
structure Orderly (opts : WalkOpts) (owner : ℕ → ℕ) : Prop where
  gone : ∀ s ∈ fs.scans opts, ∀ c, s.TakesUp c → ¬ fs.LiveIn (c.volume owner s) c.drec.fileId
  named : ∀ s ∈ fs.scans opts, ∀ c, s.TakesUp c → c.state = .orphaned →
    fs.IsNewest owner s.hashed (c.volume owner s) (.dirRec c.drec)
  inOrder : ∀ s ∈ fs.scans opts, ∀ c, s.TakesUp c → c.state = .orphaned →
    ∀ rec : FsRec, rec.IsOf c.drec.fileId → IsLast FsRec.key s.sweptRecs rec →
      fs.IsNewest owner s.hashed (c.volume owner s) rec
  distinct : opts.includeLive = true → ∀ s ∈ fs.scans opts,
    (((drecs s.cur).filter fun d => !d.isDir).map ChildRec.key).Nodup

variable {fs}

/-! ## The records that an entry is made of -/

lemma mem_current_iff (exts : List FileExtent) (e : FileExtent) :
    e ∈ current exts ↔ IsLast FileExtent.logical exts e := by
  induction exts using List.reverseRecOn with
  | nil => exact iff_of_false List.not_mem_nil (not_isLast_nil e)
  | append_singleton exts x ih =>
    rw [current_concat, isLast_concat, List.mem_cons, List.mem_filter, ih]
    refine or_congr_right (and_congr_right fun _ => ?_)
    rw [decide_eq_true_eq]
    exact ne_comm

/-- The inode of a view is the last that came in. -/
lemma inodes_eq_some_iff (recs : List FsRec) (id : ℕ) (i : Inode) :
    (contents recs).inodes id = some i ↔ IsLast FsRec.key recs (.inode id i) := by
  have hlast : ∀ p : ℕ × Inode, IsLast (·.1) (recs.filterMap FsRec.inode?) p ↔
      ∃ r, FsRec.inode? r = some p ∧ IsLast FsRec.key recs r := fun p =>
    isLast_filterMap RecKey.inode (fun _ _ => RecKey.inode.inj)
      (fun r q hr => by
        cases r with
        | inode id i => exact congrArg _ (congrArg Prod.fst (Option.some.inj hr))
        | dirRec d => cases hr
        | fileExtent id e => cases hr)
      (fun r hr k heq => by
        cases r with
        | inode id i => cases hr
        | dirRec d => cases heq
        | fileExtent id e => cases heq)
  have htable : (contents recs).inodes id = some i ↔
      ∃ p, (Versions.table (·.1) (recs.filterMap FsRec.inode?)) id = some p ∧ p.2 = i :=
    Option.map_eq_some_iff
  rw [htable]
  constructor
  · rintro ⟨p, hp, rfl⟩
    obtain ⟨hfst, rfl⟩ := table_eq_some_iff.1 hp
    obtain ⟨r, hr, h⟩ := (hlast p).1 hfst
    cases r with
    | inode id i =>
      obtain rfl := Option.some.inj hr
      exact h
    | dirRec d => cases hr
    | fileExtent id e => cases hr
  · intro h
    exact ⟨(id, i), table_eq_some_iff.2 ⟨(hlast (id, i)).2 ⟨_, rfl, h⟩, rfl⟩, rfl⟩

/-- The extents of a file that are used are the last that came in at their addresses. -/
lemma mem_extents_iff (recs : List FsRec) (id : ℕ) (e : FileExtent) :
    e ∈ byLogical (((contents recs).extents id).getD []) ↔
      IsLast FsRec.key recs (.fileExtent id e) := by
  have hexts : ((contents recs).extents id).getD [] = recs.filterMap (FsRec.extentOf? id) := by
    unfold contents
    dsimp only
    split
    · rename_i h
      exact h.symm
    · rfl
  have hlast : IsLast FileExtent.logical (recs.filterMap (FsRec.extentOf? id)) e ↔
      ∃ r, FsRec.extentOf? id r = some e ∧ IsLast FsRec.key recs r := isLast_filterMap
    (RecKey.fileExtent id) (fun _ _ h => (RecKey.fileExtent.inj h).2)
    (fun r x hr => by
      cases r with
      | inode id i => cases hr
      | dirRec d => cases hr
      | fileExtent id' x' =>
        obtain ⟨rfl, hx⟩ := Option.ite_none_right_eq_some.1 hr
        obtain rfl := Option.some.inj hx
        rfl)
    (fun r hr k heq => by
      cases r with
      | inode id i => cases heq
      | dirRec d => cases heq
      | fileExtent id' x' =>
        obtain ⟨rfl, -⟩ := RecKey.fileExtent.inj heq
        exact absurd ((if_pos rfl).symm.trans hr) (by simp))
  rw [hexts, mem_byLogical, mem_current_iff, hlast]
  constructor
  · rintro ⟨r, hr, h⟩
    cases r with
    | inode id i => cases hr
    | dirRec d => cases hr
    | fileExtent id' x' =>
      obtain ⟨rfl, hx⟩ := Option.ite_none_right_eq_some.1 hr
      obtain rfl := Option.some.inj hx
      exact h
  · intro h
    exact ⟨.fileExtent id e, if_pos rfl, h⟩

/-- An entry is made of its directory record, and of the records of its file that came in last. -/
lemma mem_used_iff (c : Candidate) (r : FsRec) :
    r ∈ c.used ↔ r = .dirRec c.drec ∨ r.IsOf c.drec.fileId ∧ IsLast FsRec.key c.recs r := by
  unfold Candidate.used
  rw [List.mem_cons, List.mem_append, List.mem_map, List.mem_map]
  apply or_congr_right
  cases r with
  | inode id i =>
    constructor
    · rintro (⟨j, hj, heq⟩ | ⟨e, -, heq⟩)
      · obtain ⟨rfl, rfl⟩ := FsRec.inode.inj heq
        exact ⟨rfl, (inodes_eq_some_iff ..).1 (Option.mem_toList.1 hj)⟩
      · cases heq
    · rintro ⟨rfl, h⟩
      exact .inl ⟨i, Option.mem_toList.2 ((inodes_eq_some_iff ..).2 h), rfl⟩
  | dirRec d =>
    refine iff_of_false ?_ fun h => h.1
    rintro (⟨j, -, heq⟩ | ⟨e, -, heq⟩)
    · cases heq
    · cases heq
  | fileExtent id e =>
    constructor
    · rintro (⟨j, -, heq⟩ | ⟨x, hx, heq⟩)
      · cases heq
      · obtain ⟨rfl, rfl⟩ := FsRec.fileExtent.inj heq
        exact ⟨rfl, (mem_extents_iff ..).1 hx⟩
    · rintro ⟨rfl, h⟩
      exact .inr ⟨e, (mem_extents_iff ..).2 h, rfl⟩

/-- The inode and the extents among the records that an entry is made of. -/
lemma used_parts (c : Candidate) : c.used.filterMap FsRec.inode? =
      ((contents c.recs).inodes c.drec.fileId).toList.map (fun i => (c.drec.fileId, i)) ∧
    c.used.filterMap (FsRec.extentOf? c.drec.fileId) =
      byLogical (((contents c.recs).extents c.drec.fileId).getD []) := by
  unfold Candidate.used
  rw [List.filterMap_cons_none rfl, List.filterMap_cons_none rfl, List.filterMap_append,
    List.filterMap_append, List.filterMap_map, List.filterMap_map, List.filterMap_map,
    List.filterMap_map]
  constructor
  · have hnone : (byLogical (((contents c.recs).extents c.drec.fileId).getD [])).filterMap
        (FsRec.inode? ∘ FsRec.fileExtent c.drec.fileId) = [] :=
      List.filterMap_eq_nil_iff.2 fun _ _ => rfl
    rw [hnone, List.append_nil]
    rw [← List.filterMap_eq_map']
    rfl
  · have hnone : ((contents c.recs).inodes c.drec.fileId).toList.filterMap
        (FsRec.extentOf? c.drec.fileId ∘ FsRec.inode c.drec.fileId) = [] :=
      List.filterMap_eq_nil_iff.2 fun _ _ => rfl
    have hsome : FsRec.extentOf? c.drec.fileId ∘ FsRec.fileExtent c.drec.fileId = some :=
      funext fun _ => if_pos rfl
    rw [hnone, hsome, List.filterMap_some, List.nil_append]

/-- The entry says no more than the records that it is made of, but for its path. -/
lemma entryOf_congr {c c' : Candidate} (hused : c.used = c'.used) (hstate : c.state = c'.state)
    (hundated : c.undated = c'.undated)
    (hpath : pathOf c.recs c.drec.fileId = pathOf c'.recs c'.drec.fileId) :
    fs.entryOf c = fs.entryOf c' := by
  have hdrec : c.drec = c'.drec := FsRec.dirRec.inj (List.cons.inj hused).1
  have hparts := used_parts c
  rw [hused, hdrec] at hparts
  have hinode : (contents c.recs).inodes c'.drec.fileId =
      (contents c'.recs).inodes c'.drec.fileId := by
    have hlists := hparts.1.symm.trans (used_parts c').1
    have hmap := List.map_injective_iff.2 (fun i j h => (Prod.mk.inj h).2) hlists
    simpa only [Option.head?_toList] using congrArg List.head? hmap
  have hexts : byLogical (((contents c.recs).extents c'.drec.fileId).getD []) =
      byLogical (((contents c'.recs).extents c'.drec.fileId).getD []) :=
    hparts.2.symm.trans (used_parts c').2
  have hdata : ∀ vc : VolumeContents, ((vc.extents c'.drec.fileId).map
      (dataExtents fs.blockSize)).getD [] =
        dataExtents fs.blockSize ((vc.extents c'.drec.fileId).getD []) := fun vc => by
    cases vc.extents c'.drec.fileId with
    | none => rfl
    | some es => rfl
  have hsame : dataExtents fs.blockSize (((contents c.recs).extents c'.drec.fileId).getD []) =
      dataExtents fs.blockSize (((contents c'.recs).extents c'.drec.fileId).getD []) := by
    unfold dataExtents
    rw [hexts]
  unfold entryOf buildEntry
  rw [hdrec] at hpath ⊢
  rw [hdata, hdata, hinode, hsame, hpath, hstate, hundated]

/-! ## What is reported -/

lemma isSome_entryOf (fs : Apfs) (c : Candidate) : (fs.entryOf c).isSome = !c.drec.isDir := by
  unfold entryOf buildEntry
  cases c.drec.isDir with
  | true => rfl
  | false => rfl

/-- The loop would take the files that the current view does not know. -/
lemma takeable_candidates (s : Scan) :
    takeable (fun c => s.knows c.drec) fs.entryOf s.candidates = s.unknown := by
  unfold takeable Scan.unknown
  simp only [isSome_entryOf]

/-- Only the current view has live candidates. -/
lemma Scan.state_ne_live {s : Scan} {c : Candidate} (hc : c ∈ s.candidates) : c.state ≠ .live := by
  rcases List.mem_append.1 hc with hc | hc
  · rcases List.mem_append.1 hc with hc | hc
    · obtain ⟨v, -, hc⟩ := List.mem_flatMap.1 hc
      obtain ⟨d, -, rfl⟩ := List.mem_map.1 hc
      simp
    · obtain ⟨v, -, hc⟩ := List.mem_flatMap.1 hc
      obtain ⟨d, -, rfl⟩ := List.mem_map.1 hc
      simp
  · obtain ⟨p, -, hc⟩ := List.mem_filterMap.1 hc
    obtain ⟨d, -, rfl⟩ := Option.map_eq_some_iff.1 hc
    simp

/-- An orphan is looked up among all records of the sweep. -/
lemma Scan.recs_of_orphaned {s : Scan} {c : Candidate} (hc : c ∈ s.candidates)
    (hstate : c.state = .orphaned) : c.recs = s.sweptRecs := by
  rcases List.mem_append.1 hc with hc | hc
  · rcases List.mem_append.1 hc with hc | hc
    · obtain ⟨v, -, hc⟩ := List.mem_flatMap.1 hc
      obtain ⟨d, -, rfl⟩ := List.mem_map.1 hc
      cases hstate
    · obtain ⟨v, -, hc⟩ := List.mem_flatMap.1 hc
      obtain ⟨d, -, rfl⟩ := List.mem_map.1 hc
      cases hstate
  · obtain ⟨p, -, hc⟩ := List.mem_filterMap.1 hc
    obtain ⟨d, -, rfl⟩ := Option.map_eq_some_iff.1 hc
    rfl

lemma Scan.TakesUp.mem {s : Scan} {c : Candidate} (h : s.TakesUp c) : c ∈ s.candidates :=
  List.mem_of_mem_filter (IsFirst.mem h)

/-- What is reported and not live has been taken up. -/
lemma mem_reports_iff {opts : WalkOpts} {s : Scan} {c : Candidate} {e : Entry} :
    (c, e) ∈ fs.reports opts s ∧ c.state ≠ .live ↔ fs.entryOf c = some e ∧ s.TakesUp c := by
  unfold reports
  rw [List.mem_append, mem_takeNoting, takeable_candidates]
  constructor
  · rintro ⟨hc | hc, hstate⟩
    · split at hc
      · obtain ⟨b, hb, heq⟩ := List.mem_filterMap.1 hc
        obtain ⟨x, -, heq⟩ := Option.map_eq_some_iff.1 heq
        obtain ⟨rfl, -⟩ := Prod.mk.inj heq
        obtain ⟨d, -, rfl⟩ := List.mem_map.1 hb
        exact absurd rfl hstate
      · exact absurd hc List.not_mem_nil
    · exact ⟨hc.1, hc.2.2⟩
  · rintro ⟨he, hc⟩
    exact ⟨.inr ⟨he, List.not_mem_nil, hc⟩, Scan.state_ne_live hc.mem⟩

/-- What is said of all that is reported and not live is said of all that is taken up. -/
lemma forall_reports_iff (fs : Apfs) (opts : WalkOpts) {s : Scan} {P : Candidate → Prop} :
    (∀ r ∈ fs.reports opts s, r.1.state ≠ .live → P r.1) ↔ ∀ c, s.TakesUp c → P c := by
  constructor
  · intro h c hc
    have hfile : (fs.entryOf c).isSome = true := by
      have hmem := List.of_mem_filter (IsFirst.mem hc)
      rw [isSome_entryOf]
      exact (Bool.and_eq_true_iff.1 hmem).2
    obtain ⟨e, he⟩ := Option.isSome_iff_exists.1 hfile
    obtain ⟨hmem, hstate⟩ := mem_reports_iff.2 ⟨he, hc⟩
    exact h (c, e) hmem hstate
  · intro h r hr hstate
    exact h r.1 (mem_reports_iff.1 ⟨hr, hstate⟩).2

/-- What is reported of the current view. -/
def liveReports (fs : Apfs) (s : Scan) : List (Candidate × Entry) :=
  s.live.filterMap fun c => (fs.entryOf c).map fun e => (c, e)

lemma state_liveReports {s : Scan} {r : Candidate × Entry} (hr : r ∈ fs.liveReports s) :
    r.1.state = .live := by
  obtain ⟨b, hb, heq⟩ := List.mem_filterMap.1 hr
  obtain ⟨e, -, rfl⟩ := Option.map_eq_some_iff.1 heq
  obtain ⟨d, -, rfl⟩ := List.mem_map.1 hb
  rfl

/-- Of the current view every file is reported, under its own name. -/
lemma map_key_liveReports (fs : Apfs) (s : Scan) : (fs.liveReports s).map (·.1.drec.key) =
    ((drecs s.cur).filter fun d => !d.isDir).map ChildRec.key := by
  unfold liveReports Scan.live
  induction drecs s.cur with
  | nil => rfl
  | cons d ds ih =>
    have hfile : (fs.entryOf ⟨d, .live, s.cur, none, none⟩).isSome = !d.isDir := isSome_entryOf ..
    rw [List.map_cons, List.filterMap_cons, List.filter_cons]
    cases he : fs.entryOf ⟨d, .live, s.cur, none, none⟩ with
    | none =>
      rw [he] at hfile
      rw [if_neg (by rw [← hfile]; simp)]
      exact ih
    | some e =>
      rw [he] at hfile
      have hdir : (!d.isDir) = true := hfile.symm
      rw [if_pos hdir, List.map_cons, ← ih]
      rfl

/-- Only the current view can have a parent and a name that is reported twice in one state. -/
lemma once_iff {opts : WalkOpts} {s : Scan} :
    (∀ st, (((fs.reports opts s).filter fun r => decide (r.1.state = st)).map
        (·.1.drec.key)).Nodup) ↔
      (opts.includeLive = true → (((drecs s.cur).filter fun d => !d.isDir).map
        ChildRec.key).Nodup) := by
  set taken := takeNoting (fun c : Candidate => c.drec.key) (fun c => s.knows c.drec) fs.entryOf []
    s.candidates with htaken
  have hgone : ∀ r ∈ taken, r.1.state ≠ .live := fun r hr => by
    have hfirst := (mem_takeNoting.1 hr).2.2
    rw [takeable_candidates] at hfirst
    exact Scan.state_ne_live (Scan.TakesUp.mem hfirst)
  have hreports : fs.reports opts s =
      (if opts.includeLive then fs.liveReports s else []) ++ taken := rfl
  have hnodup : (taken.map (·.1.drec.key)).Nodup := 
    nodup_takeNoting (fun c : Candidate => c.drec.key) [] s.candidates
  rw [← map_key_liveReports fs, hreports]
  constructor
  · intro h hlive
    have hst := h .live
    rw [if_pos hlive, List.filter_append, List.map_append] at hst
    have hall : (fs.liveReports s).filter (fun r => decide (r.1.state = .live)) =
        fs.liveReports s :=
      List.filter_eq_self.2 fun r hr => decide_eq_true (state_liveReports hr)
    rw [hall] at hst
    exact (List.nodup_append.1 hst).1
  · intro h st
    rw [List.filter_append, List.map_append]
    by_cases hst : st = .live
    · subst hst
      have hnone : taken.filter (fun r => decide (r.1.state = .live)) = [] :=
        List.filter_eq_nil_iff.2 fun r hr => by simpa using hgone r hr
      rw [hnone, List.map_nil, List.append_nil]
      apply List.Nodup.sublist (List.Sublist.map _ List.filter_sublist)
      split
      · rename_i hlive
        exact h hlive
      · exact List.nodup_nil
    · have hnone : (if opts.includeLive then fs.liveReports s else []).filter
          (fun r => decide (r.1.state = st)) = [] := by
        apply List.filter_eq_nil_iff.2
        intro r hr
        split at hr
        · rw [state_liveReports hr]
          simpa using Ne.symm hst
        · exact absurd hr List.not_mem_nil
      rw [hnone, List.map_nil, List.nil_append]
      exact List.Nodup.sublist (List.Sublist.map _ List.filter_sublist) hnodup

/-- **The walk reports what it ought to exactly if the container is orderly for it**: what it takes
up is live nowhere, what the sweep comes to last is the newest, and no current view has a file of
one parent and name twice. -/
theorem reportsTruly_iff (fs : Apfs) (opts : WalkOpts) (owner : ℕ → ℕ) :
    fs.ReportsTruly opts owner ↔ fs.Orderly opts owner := by
  have hnewest : ∀ s, (∀ r ∈ fs.reports opts s, r.1.state = .orphaned → ∀ rec ∈ r.1.used,
      fs.IsNewest owner s.hashed (r.1.volume owner s) rec) ↔
      ∀ c, s.TakesUp c → c.state = .orphaned → ∀ rec ∈ c.used,
        fs.IsNewest owner s.hashed (c.volume owner s) rec := fun s => by
    rw [← forall_reports_iff fs opts]
    refine forall_congr' fun r => forall_congr' fun _ => ?_
    constructor
    · exact fun h _ => h
    · intro h hstate
      refine h ?_ hstate
      rw [hstate]
      simp
  constructor
  · intro h
    have hused := fun s hs => (hnewest s).1 (h.newest s hs)
    refine ⟨fun s hs => (forall_reports_iff fs opts).1 (h.notLive s hs), fun s hs c hc hstate => ?_,
      fun s hs c hc hstate rec hof hlast => ?_, fun hlive s hs => once_iff.1 (h.once s hs) hlive⟩
    · exact hused s hs c hc hstate _ ((mem_used_iff ..).2 (.inl rfl))
    · refine hused s hs c hc hstate _ ((mem_used_iff ..).2 (.inr ⟨hof, ?_⟩))
      rw [Scan.recs_of_orphaned hc.mem hstate]
      exact hlast
  · intro h
    refine ⟨fun s hs => (forall_reports_iff fs opts).2 (h.gone s hs), fun s hs => (hnewest s).2 ?_,
      fun s hs => once_iff.2 fun hlive => h.distinct hlive s hs⟩
    intro c hc hstate rec hrec
    rcases (mem_used_iff ..).1 hrec with rfl | ⟨hof, hlast⟩
    · exact h.named s hs c hc hstate
    · rw [Scan.recs_of_orphaned hc.mem hstate] at hlast
      exact h.inOrder s hs c hc hstate rec hof hlast

/-! ## Reading with enough of a budget -/

/-- A reading comes to the same whatever the budgets are, if they are large enough, and uses no more
than so much of them. -/
def Settles {α : Type} (f : Apfs → StateM ℕ α) (fs : Apfs) : Prop :=
  ∃ a n, ∀ m, n ≤ m → ∀ w, m + n ≤ w →
    (f (fs.withBudget m) w).1 = a ∧ w ≤ (f (fs.withBudget m) w).2 + n

lemma settles_pure {α : Type} (a : α) : Settles (fun _ => pure a) fs :=
  ⟨a, 0, fun _ _ _ _ => ⟨rfl, le_rfl⟩⟩

/-- Readings settle one after the other. -/
lemma Settles.bind {α β : Type} {f : Apfs → StateM ℕ α} {g : Apfs → α → StateM ℕ β}
    (hf : Settles f fs) (hg : ∀ a, Settles (fun fs => g fs a) fs) :
    Settles (fun fs => f fs >>= g fs) fs := by
  obtain ⟨a, n, hf⟩ := hf
  obtain ⟨b, k, hg⟩ := hg a
  refine ⟨b, n + k, fun m hm w hw => ?_⟩
  obtain ⟨hval, hleft⟩ := hf m (by omega) w (by omega)
  obtain ⟨hval', hleft'⟩ := hg m (by omega) _ (show m + k ≤ (f (fs.withBudget m) w).2 by omega)
  have hstep : (f (fs.withBudget m) >>= g (fs.withBudget m)) w =
      g (fs.withBudget m) a (f (fs.withBudget m) w).2 := by
    rw [← hval]
    rfl
  dsimp only at hval' hleft' ⊢
  rw [hstep]
  exact ⟨hval', by omega⟩

/-- A tree has a last node. -/
lemma settles_budgetedWalk (fs : Apfs) (root : Node) (fetch : ℕ → Option Bytes) (k v : ℕ) :
    Settles (fun fs => fs.budgetedWalk root fetch k v) fs := by
  have hrank : ∀ (n : Node) (p : ℕ) (c : Node), (bTree fetch k v).child n p = some c →
      c.level < n.level := fun n p c hc => of_decide_eq_true (Option.filter_eq_some_iff.1 hc).2
  obtain ⟨b, hb⟩ := NodeWalk.exists_walk_ne_zero hrank ([], [root])
  refine ⟨(walkLeaves root fetch k v b).1, b, fun m hm w hw => ?_⟩
  have hcap : min w (fs.withBudget m).nodeBudget = m := min_eq_right (by exact (by omega : m ≤ w))
  obtain ⟨d, rfl⟩ := Nat.exists_eq_add_of_le hm
  have hwalk : walkLeaves root fetch k v (b + d) =
      ((walkLeaves root fetch k v b).1, (walkLeaves root fetch k v b).2 + d) :=
    NodeWalk.walk_add hb d
  unfold budgetedWalk
  dsimp only
  rw [hcap, hwalk]
  exact ⟨rfl, by dsimp only; omega⟩

lemma Settles.congr {α : Type} {f g : Apfs → StateM ℕ α} (hg : Settles g fs)
    (h : ∀ m, f (fs.withBudget m) = g (fs.withBudget m)) : Settles f fs := by
  obtain ⟨a, n, hg⟩ := hg
  refine ⟨a, n, fun m hm w hw => ?_⟩
  rw [h]
  exact hg m hm w hw

lemma settles_omapIndex (fs : Apfs) (omapOid atXid : ℕ) :
    Settles (fun fs => fs.omapIndex omapOid atXid) fs := by
  by_cases hzero : leU64 (fs.readBlock omapOid) 48 = 0
  · refine (settles_pure fun _ => none).congr fun m => ?_
    exact if_pos hzero
  · cases hroot : Node.parse (fs.readBlock (leU64 (fs.readBlock omapOid) 48)) with
    | none =>
      refine (settles_pure fun _ => none).congr fun m => (if_neg hzero).trans ?_
      have hroot' : Node.parse ((fs.withBudget m).readBlock
          (leU64 ((fs.withBudget m).readBlock omapOid) 48)) = none := hroot
      rw [hroot']
    | some root =>
      refine ((settles_budgetedWalk fs root fs.readVerifiedBlock 16 16).bind fun kvs =>
        settles_pure fun oid => ((kvs.foldl (omapAdd atXid) fun _ => none) oid).map
          (·.2)).congr fun m => (if_neg hzero).trans ?_
      have hroot' : Node.parse ((fs.withBudget m).readBlock
          (leU64 ((fs.withBudget m).readBlock omapOid) 48)) = some root := hroot
      rw [hroot']
      rfl

lemma settles_resolveVolume (fs : Apfs) (omapOid fsOid atXid : ℕ) :
    Settles (fun fs => fs.resolveVolume omapOid fsOid atXid) fs := by
  refine (settles_omapIndex fs omapOid atXid).bind fun idx => ?_
  refine (settles_pure ((idx fsOid).bind fun paddr =>
    VolumeSb.parse (fs.readBlock paddr))).congr fun m => ?_
  rfl

lemma settles_walkFsTree (fs : Apfs) (vol : VolumeSb) (atXid : ℕ) :
    Settles (fun fs => fs.walkFsTree vol atXid) fs := by
  refine (settles_omapIndex fs vol.omapOid atXid).bind fun vidx => ?_
  cases hroot : (vidx vol.rootTreeOid).bind fun p => Node.parse (fs.readBlock p) with
  | none =>
    refine (settles_pure []).congr fun m => ?_
    have hroot' : ((vidx vol.rootTreeOid).bind fun p =>
        Node.parse ((fs.withBudget m).readBlock p)) = none := hroot
    rw [hroot']
  | some root =>
    refine ((settles_budgetedWalk fs root (fs.fetchObject vidx atXid) 0 0).bind fun kvs =>
      settles_pure (kvs.filterMap (FsRec.parse vol.hashedDrec))).congr fun m => ?_
    have hroot' : ((vidx vol.rootTreeOid).bind fun p =>
        Node.parse ((fs.withBudget m).readBlock p)) = some root := hroot
    rw [hroot']
    rfl

/-- **A volume has one current view**: read with enough of a budget it is always the same. -/
lemma currentView_settles (fs : Apfs) (fsOid : ℕ) :
    ∃ view n, ∀ m, n ≤ m → fs.currentView m fsOid = view := by
  have hread : Settles (fun wide => wide.resolveVolume fs.newest.omapOid fsOid fs.newest.xid >>=
      fun vol =>
        match vol with
        | none => pure []
        | some v => wide.walkFsTree v fs.newest.xid) fs := by
    refine (settles_resolveVolume fs _ fsOid _).bind fun vol => ?_
    cases vol with
    | none => exact settles_pure []
    | some v => exact settles_walkFsTree fs v _
  obtain ⟨view, n, h⟩ := hread
  exact ⟨view, n, fun m hm => (h m hm (3 * m) (by omega)).1⟩

/-- What an older view or a snapshot still has is live nowhere, if the current view of its volume
was read in full. -/
lemma Scan.TakesUp.not_liveIn {owner : ℕ → ℕ} {s : Scan} {c : Candidate} (hc : s.TakesUp c)
    (hold : c.stamp = none) (hfull : ∃ n, ∀ m, n ≤ m → fs.currentView m s.fsOid = s.cur) :
    ¬ fs.LiveIn (c.volume owner s) c.drec.fileId := by
  rintro ⟨-, n, hn⟩
  obtain ⟨k, hk⟩ := hfull
  have hlive := hn (max n k) (le_max_left ..)
  have hvolume : c.volume owner s = s.fsOid := by
    unfold Candidate.volume
    rw [hold]
  rw [hvolume, hk (max n k) (le_max_right ..)] at hlive
  have hunknown := List.of_mem_filter (IsFirst.mem hc)
  rw [Scan.knows, hlive, Bool.or_true] at hunknown
  cases hunknown

/-! ## Two copies of a leaf -/

instance (fs : Apfs) (owner : ℕ → ℕ) (hashed : Bool) (fsOid : ℕ) (r : FsRec) :
    Decidable (fs.IsNewest owner hashed fsOid r) :=
  inferInstanceAs (Decidable (∃ p ∈ fs.surviving hashed, _))

/-- A byte of a block of which fields are given, each by its place, its width and its value. -/
def fieldByte (fields : List (ℕ × ℕ × ℕ)) (x : ℕ) : UInt8 :=
  match fields.find? fun f => f.1 ≤ x && x < f.1 + f.2.1 with
  | some f => UInt8.ofNat (f.2.2 / 256 ^ (x - f.1))
  | none => 0

/-- The root of an object map with one mapping. -/
def oneMapping (cksum block oid paddr : ℕ) : List (ℕ × ℕ × ℕ) :=
  [(0, 8, cksum), (8, 8, block), (16, 8, 10), (24, 4, 2), (28, 4, 11), (32, 2, 7), (36, 4, 1),
    (42, 2, 4), (58, 2, 16), (60, 8, oid), (68, 8, 10), (464, 8, paddr)]

/-- A leaf with the name `a` of file 20, and with an extent of that file. -/
def leafCopy (cksum xid paddr : ℕ) : List (ℕ × ℕ × ℕ) :=
  [(0, 8, cksum), (8, 8, 1001), (16, 8, xid), (24, 4, 3), (28, 4, 14), (32, 2, 2), (36, 4, 2),
    (42, 2, 16), (58, 2, 12), (60, 2, 18), (62, 2, 18), (64, 2, 12), (66, 2, 16), (68, 2, 34),
    (70, 2, 16), (72, 8, 2 + 9 * 2 ^ 60), (80, 2, 2), (82, 1, 97), (84, 8, 20 + 8 * 2 ^ 60),
    (478, 8, 512), (486, 8, paddr), (494, 8, 20), (510, 2, 8)]

/-- A container with one volume that is empty.  Of a leaf that is no longer in its tree, the copy of
transaction 9 lies before that of transaction 8. -/
def olderCopyBehind : Volume where
  len := 11 * 512
  content x := fieldByte (
    [[(0, 8, 0x17127e44a69a26f0), (8, 8, 1), (16, 8, 10), (24, 4, 1), (32, 4, 0x4253584e),
        (36, 4, 512), (40, 8, 11), (160, 8, 1), (180, 4, 1), (184, 8, 100)],
      [(0, 8, 0xb7cfffff46b), (8, 8, 1), (16, 8, 10), (24, 4, 11), (48, 8, 2)],
      oneMapping 0x8f84058f6f3bf15 2 100 3,
      [(0, 8, 0x170f4b89a69d5fce), (8, 8, 100), (16, 8, 10), (24, 4, 13), (32, 4, 0x42535041),
        (128, 8, 4), (136, 8, 1000)],
      [(0, 8, 0xe52fffff18f), (8, 8, 4), (16, 8, 10), (24, 4, 11), (48, 8, 5)],
      oneMapping 0x8f9cf3af6f22ca9 5 1000 6,
      [(0, 8, 0x1fa02fffe01f8), (8, 8, 1000), (16, 8, 10), (24, 4, 2), (28, 4, 14), (32, 2, 3)],
      leafCopy 0xae3321663ef8da39 9 9, leafCopy 0xae3a20ea3ef0dab6 8 10].getD (x / 512) [])
        (x % 512)

/-- All that a walk may be asked for. -/
def everything : WalkOpts := ⟨true, true, 1000, true⟩

/-- The orphan has the extent of the older copy. -/
theorem reportsTruly_counterexample : ∃ fs ∈ ofVolume olderCopyBehind,
    ¬ fs.ReportsTruly everything fun _ => 100 := by
  have hrun : ((ofVolume olderCopyBehind).any fun fs =>
      decide (∃ s ∈ fs.scans everything, ∃ r ∈ fs.reports everything s, r.1.state = .orphaned ∧
        ∃ rec ∈ r.1.used,
          ¬ fs.IsNewest (fun _ => 100) s.hashed (r.1.volume (fun _ => 100) s) rec)) = true := by
    decide +kernel
  obtain ⟨fs, hfs, hrun⟩ := (Option.any_eq_true ..).1 hrun
  obtain ⟨s, hs, r, hr, hstate, rec, hrec, hold⟩ := of_decide_eq_true hrun
  exact ⟨fs, hfs, fun h => hold (h.newest s hs r hr hstate rec hrec)⟩

end Apfs
end Reclaim
