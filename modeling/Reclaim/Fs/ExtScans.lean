import Reclaim.Fs.ExtWalk

/-!
# Walking an ext volume

Behind the directories, the walk goes through the table of inodes, and in the end through the blocks
that are free.  Each part leaves out what an earlier one has recorded.

The result is the beginning of a complete one, which does not depend on how many entries are asked
for (`walk_prefix`).  Of the states that are asked for, only the two scans take notice.
-/

namespace Reclaim
namespace Ext

open FileBytes

variable (e : Ext)

/-! ## Inodes that no directory names -/

section Orphans

/-- The inodes that are scanned: no more than the groups have. -/
def orphanCount : ℕ :=
  min (min e.sb.inodesCount (saturatingMul e.sb.groups.length e.sb.inodesPerGroup)) 8000000

/-- The numbers of the inodes that are scanned, from the first one for files on. -/
def orphanInodes : List ℕ := List.range' 11 (e.orphanCount + 1 - 11)

/-- What the scan records of an inode: a regular file that was freed, with its size and extents. -/
def orphanOf (ino : ℕ) : Option Recorded :=
  (e.readInode ino).bind fun i =>
    if !i.isRegular || !i.looksDeleted || decide (i.size = 0) then none
    else
      let extents := e.extentsOf i.toInode
      if extents = [] then none
      else
        let name := "inode_" ++ Nat.repr ino
        some
          { id := ino
            parentId := none
            rawName := utf8 name
            confidence := 6 / 10
            entry := { Entry.newFile name i.size .orphaned with
              created := dateFromEpoch i.ctime
              modified := dateFromEpoch i.mtime
              extents := extents } }

/-- The inodes in turn, without those that were recorded or visited before. -/
def orphanScan (opts : WalkOpts) : List ℕ → WalkCtx → WalkCtx
  | [], ctx => ctx
  | ino :: inos, ctx =>
    if ctx.budgetLeft opts then
      if ino ∈ ctx.emittedInodes ∨ ino ∈ ctx.visitedDirs then orphanScan opts inos ctx
      else orphanScan opts inos (ctx.recordAll (e.orphanOf ino).toList)
    else ctx

/-- `orphan_inode_scan`. -/
def orphanInodeScan (opts : WalkOpts) (ctx : WalkCtx) : WalkCtx :=
  if opts.includeDeleted then e.orphanScan opts e.orphanInodes ctx else ctx

variable {e}

lemma id_orphanOf {ino : ℕ} {r : Recorded} (h : r ∈ e.orphanOf ino) : r.id = ino := by
  obtain ⟨i, -, hi⟩ := Option.bind_eq_some_iff.1 h
  dsimp only at hi
  split_ifs at hi
  rw [← Option.some.inj hi]

/-- **The scan** records what there is of each inode that was neither recorded nor visited. -/
lemma orphanScan_spec {opts : WalkOpts} (inos : List ℕ) (ctx : WalkCtx) (hnodup : inos.Nodup)
    (hsmall : ∀ ino ∈ inos, ino < 2 ^ 32) :
    e.orphanScan opts inos ctx = ctx.recordAll
      (((inos.filter fun ino => !decide (ino ∈ ctx.emittedInodes ∨ ino ∈ ctx.visitedDirs)).filterMap
        e.orphanOf).take (ctx.room opts)) := by
  induction inos generalizing ctx with
  | nil => rw [List.filter_nil, List.filterMap_nil, List.take_nil]; rfl
  | cons ino inos ih =>
    obtain ⟨hnew, hnodup⟩ := List.nodup_cons.1 hnodup
    obtain ⟨hino, hsmall⟩ := List.forall_mem_cons.1 hsmall
    rw [orphanScan]
    split
    · rename_i hleft
      have hroom := WalkCtx.budgetLeft_iff.1 hleft
      split
      · rename_i hknown
        rw [ih ctx hnodup hsmall, List.filter_cons, if_neg (by rw [decide_eq_true hknown]; simp)]
      · rename_i hunknown
        have hone := length_toList_le (e.orphanOf ino)
        have hsame : (inos.filter fun k => !decide
              (k ∈ (ctx.recordAll (e.orphanOf ino).toList).emittedInodes ∨
                k ∈ (ctx.recordAll (e.orphanOf ino).toList).visitedDirs)) =
            inos.filter fun k => !decide (k ∈ ctx.emittedInodes ∨ k ∈ ctx.visitedDirs) := by
          refine List.filter_congr fun k hk => ?_
          have hother : ¬ ∃ r ∈ (e.orphanOf ino).toList, r.id % 2 ^ 32 = k := by
            rintro ⟨r, hr, rfl⟩
            rw [id_orphanOf (Option.mem_toList.1 hr), Nat.mod_eq_of_lt hino] at hk
            exact hnew hk
          have hknown : (k ∈ (ctx.recordAll (e.orphanOf ino).toList).emittedInodes ∨
              k ∈ (ctx.recordAll (e.orphanOf ino).toList).visitedDirs) ↔
              k ∈ ctx.emittedInodes ∨ k ∈ ctx.visitedDirs := by
            rw [WalkCtx.mem_emittedInodes_recordAll, or_iff_left hother,
              WalkCtx.visitedDirs_recordAll]
          exact congrArg Bool.not (decide_eq_decide.2 hknown)
        rw [ih _ hnodup hsmall, hsame, WalkCtx.recordAll_take (by omega), List.filter_cons,
          if_pos (by rw [decide_eq_false hunknown]; rfl), filterMap_cons_toList]
    · rename_i hfull
      have hroom : ctx.room opts = 0 := by
        rw [WalkCtx.budgetLeft_iff] at hfull
        omega
      rw [hroom, List.take_zero, WalkCtx.recordAll_nil]

end Orphans

/-! ## Nodes of extent trees in free blocks -/

section Nodes

/-- `MAX_SCAN_BLOCKS`: bound on the blocks scanned for extent nodes. -/
def maxScanBlocks : ℕ := 1024 * 1024

/-- The extent of the `i`th entry of a leaf, if it lies on the volume. -/
def nodeExtent (node : Bytes) (i : ℕ) : Option Extent :=
  let base := 12 + i * 12
  let raw := leU16 node (base + 4)
  let len := if 32768 < raw then raw - 32768 else raw
  let phys := leU16 node (base + 6) * 2 ^ 32 + leU32 node (base + 8)
  if raw = 0 then none
  else if phys = 0 ∨ e.sb.blocksCount ≤ phys then none
  else some ⟨saturatingMul phys e.sb.blockSize, saturatingMul len e.sb.blockSize⟩

/-- The extents that a block lists, if it is a leaf. -/
def leafExtents (b : ℕ) : List Extent :=
  let node := e.src.read (saturatingMul b e.sb.blockSize) (min e.sb.blockSize 4096)
  if leU16 node 0 ≠ extentMagic then []
  else if leU16 node 6 ≠ 0 ∨ leU16 node 2 = 0 ∨ 340 < leU16 node 2 then []
  else (nodeEntries node).filterMap (e.nodeExtent node)

/-- The free blocks in turn, until there are lists enough. -/
def scanFrom (allocated : ℕ → Bool) : List ℕ → List (List Extent) → List (List Extent)
  | [], found => found
  | b :: bs, found =>
    if allocated b then scanFrom allocated bs found
    else
      let exts := e.leafExtents b
      let found := if exts ≠ [] ∧ 0 < totalLen exts then found ++ [exts] else found
      if 100000 < found.length then found else scanFrom allocated bs found

/-- The blocks that are scanned. -/
def scanBlocks : List ℕ :=
  let total := min (min e.sb.blocksCount (e.src.len / max e.sb.blockSize 1 + 1)) maxScanBlocks
  List.range' e.sb.firstDataBlock (total - e.sb.firstDataBlock)

/-- `scan_extent_nodes`. -/
def scanExtentNodes (allocated : ℕ → Bool) : List (List Extent) :=
  e.scanFrom allocated e.scanBlocks []

/-- What is recorded for the `idx`th list of extents. -/
def nodeOf (idx : ℕ) (exts : List Extent) : Recorded :=
  let name := "extentnode_" ++ Nat.repr idx
  { id := 0xF30A000000000000 ||| idx
    parentId := none
    rawName := utf8 name
    confidence := 4 / 10
    entry := { Entry.newFile name (totalLen exts) .orphaned with extents := exts } }

/-- The lists of extents in turn. -/
def nodeScan (opts : WalkOpts) : List (List Extent) → ℕ → WalkCtx → WalkCtx
  | [], _, ctx => ctx
  | exts :: runs, idx, ctx =>
    if ctx.budgetLeft opts then nodeScan opts runs (idx + 1) (ctx.record (nodeOf (idx + 1) exts))
    else ctx

/-- A block is free, for the scan: without a bitmap, none is. -/
def scanAllocated (b : ℕ) : Bool := (e.buildBitmap.map fun bm => bm.isBlockAllocated b).getD true

/-- `extent_node_scan`. -/
def extentNodeScan (opts : WalkOpts) (ctx : WalkCtx) : WalkCtx :=
  if opts.includeDeleted ∧ ctx.budgetLeft opts then
    nodeScan opts (e.scanExtentNodes e.scanAllocated) 0 ctx
  else ctx

/-- **The lists** are recorded under their numbers. -/
lemma nodeScan_spec {opts : WalkOpts} (runs : List (List Extent)) (idx : ℕ) (ctx : WalkCtx) :
    nodeScan opts runs idx ctx = ctx.recordAll
      (((runs.zipIdx (idx + 1)).map fun run => nodeOf run.2 run.1).take (ctx.room opts)) := by
  induction runs generalizing idx ctx with
  | nil => rw [List.zipIdx_nil, List.map_nil, List.take_nil]; rfl
  | cons exts runs ih =>
    rw [nodeScan]
    split
    · rename_i hleft
      have hroom := WalkCtx.budgetLeft_iff.1 hleft
      have hone : [nodeOf (idx + 1) exts].length ≤ ctx.room opts := hroom
      have hfirst : ctx.record (nodeOf (idx + 1) exts) =
          ctx.recordAll [nodeOf (idx + 1) exts] := rfl
      rw [ih, hfirst, WalkCtx.recordAll_take hone]
      rfl
    · rename_i hfull
      have hroom : ctx.room opts = 0 := by
        rw [WalkCtx.budgetLeft_iff] at hfull
        omega
      rw [hroom, List.take_zero, WalkCtx.recordAll_nil]

end Nodes

/-! ## The walk -/

/-- `walk`. -/
def walk (opts : WalkOpts) : WalkCtx :=
  e.extentNodeScan opts (e.orphanInodeScan opts
    (e.walkTree e.recoverFromJournal opts .start [(rootInode, "")]))

/-- The directories from the root on, in the order in which the walk visits them. -/
def directories : List (ℕ × String) :=
  Traversal.visit Prod.fst e.subdirs maxDirs [(rootInode, "")] []

/-- What there is to record in the tree. -/
def treeFound : List Recorded := e.directories.flatMap (e.foundBelow e.recoverFromJournal)

/-- What there is to record of the other inodes: those that the tree has not recorded and that were
not visited as directories. -/
def orphansFound : List Recorded :=
  (e.orphanInodes.filter fun ino => !decide ((∃ r ∈ e.treeFound, r.id % 2 ^ 32 = ino) ∨
    ino ∈ e.directories.map Prod.fst)).filterMap e.orphanOf

/-- What there is to record of free blocks. -/
def nodesFound : List Recorded :=
  ((e.scanExtentNodes e.scanAllocated).zipIdx 1).map fun run => nodeOf run.2 run.1

variable {e}

lemma nodup_orphanInodes : e.orphanInodes.Nodup := List.nodup_range'

lemma lt_of_mem_orphanInodes {ino : ℕ} (h : ino ∈ e.orphanInodes) : ino < 2 ^ 32 := by
  have hcount : e.orphanCount ≤ 8000000 := min_le_right ..
  obtain ⟨i, hi, rfl⟩ := List.mem_range'.1 h
  omega

/-- The scan behind a tree that is recorded as a whole. -/
lemma orphanScan_tree {opts : WalkOpts} {visited : List ℕ}
    (hvisited : ∀ ino, ino ∈ visited ↔ ino ∈ e.directories.map Prod.fst) :
    e.orphanScan opts e.orphanInodes ((WalkCtx.start.recordAll e.treeFound).withVisited visited) =
      ((WalkCtx.start.recordAll e.treeFound).recordAll (e.orphansFound.take
        ((WalkCtx.start.recordAll e.treeFound).room opts))).withVisited visited := by
  have hrest : (e.orphanInodes.filter fun ino => !decide
        (ino ∈ ((WalkCtx.start.recordAll e.treeFound).withVisited visited).emittedInodes ∨
          ino ∈ ((WalkCtx.start.recordAll e.treeFound).withVisited visited).visitedDirs)) =
      e.orphanInodes.filter fun ino => !decide ((∃ r ∈ e.treeFound, r.id % 2 ^ 32 = ino) ∨
        ino ∈ e.directories.map Prod.fst) := by
    refine List.filter_congr fun ino _ => congrArg Bool.not (decide_eq_decide.2 ?_)
    refine or_congr ?_ (hvisited ino)
    exact WalkCtx.mem_emittedInodes_recordAll.trans (or_iff_right List.not_mem_nil)
  rw [orphanScan_spec _ _ nodup_orphanInodes fun ino hino => lt_of_mem_orphanInodes hino, hrest,
    WalkCtx.recordAll_withVisited]
  rfl

lemma extentNodeScan_eq {opts : WalkOpts} (hdel : opts.includeDeleted = true) (ctx : WalkCtx) :
    e.extentNodeScan opts ctx = ctx.recordAll (e.nodesFound.take (ctx.room opts)) := by
  unfold extentNodeScan
  split
  · exact nodeScan_spec ..
  · rename_i hno
    have hroom : ctx.room opts = 0 := by
      rw [WalkCtx.budgetLeft_iff, not_and] at hno
      exact Nat.eq_zero_of_not_pos (hno hdel)
    rw [hroom, List.take_zero, WalkCtx.recordAll_nil]

variable (e)

/-- What a walk has come to in the end. -/
lemma walk_eq (opts : WalkOpts) :
    ∃ visited, e.walk opts = (WalkCtx.start.recordAll ((e.treeFound ++
      if opts.includeDeleted then e.orphansFound ++ e.nodesFound else []).take
        (WalkCtx.start.room opts))).withVisited visited := by
  obtain ⟨visited, htree, hvisited⟩ :=
    @walkTree_spec e e.recoverFromJournal opts .start [(rootInode, "")]
  change e.walkTree e.recoverFromJournal opts .start [(rootInode, "")] =
    (WalkCtx.start.recordAll (e.treeFound.take (WalkCtx.start.room opts))).withVisited visited
    at htree
  unfold walk orphanInodeScan
  rw [htree]
  by_cases hdel : opts.includeDeleted = true
  · have horphans : e.orphanScan opts e.orphanInodes
        ((WalkCtx.start.recordAll (e.treeFound.take (WalkCtx.start.room opts))).withVisited
          visited) =
        (WalkCtx.start.recordAll ((e.treeFound ++ e.orphansFound).take
          (WalkCtx.start.room opts))).withVisited visited := by
      rw [← WalkCtx.recordAll_both]
      by_cases hfit : e.treeFound.length < WalkCtx.start.room opts
      · rw [List.take_of_length_le hfit.le]
        exact orphanScan_tree fun ino => (hvisited hfit ino).trans (or_iff_right List.not_mem_nil)
      · have hfull : (WalkCtx.start.recordAll
            (e.treeFound.take (WalkCtx.start.room opts))).room opts = 0 := by
          rw [WalkCtx.room_recordAll, List.length_take, min_eq_left (not_lt.1 hfit), Nat.sub_self]
        rw [orphanScan_spec _ _ nodup_orphanInodes fun ino hino => lt_of_mem_orphanInodes hino,
          WalkCtx.room_withVisited, hfull, List.take_zero, List.take_zero, WalkCtx.recordAll_nil,
          WalkCtx.recordAll_nil]
    refine ⟨visited, ?_⟩
    rw [if_pos hdel, if_pos hdel, horphans, extentNodeScan_eq hdel, WalkCtx.recordAll_withVisited,
      WalkCtx.room_withVisited, WalkCtx.recordAll_both, List.append_assoc]
  · refine ⟨visited, ?_⟩
    rw [if_neg hdel, if_neg hdel, List.append_nil, extentNodeScan, if_neg fun h => hdel h.1]

/-- **The result of a walk** is the beginning of the complete one, and its statistics count it. -/
theorem walk_prefix (opts : WalkOpts) :
    (e.walk opts).sink =
        (e.treeFound ++ if opts.includeDeleted then e.orphansFound ++ e.nodesFound else []).take
          opts.maxEntries ∧
      (e.walk opts).Counted := by
  obtain ⟨visited, hwalk⟩ := e.walk_eq opts
  have hstart : WalkCtx.start.Counted := rfl
  rw [hwalk]
  exact ⟨WalkCtx.sink_recordAll.trans (List.nil_append _), hstart.recordAll _⟩

/-! ## What is visited, and what is recorded twice -/

/-- A directory has a live entry for another one. -/
def Leads (a b : ℕ) : Prop :=
  ∃ d ∈ e.listing a, d.passedOver = false ∧ d.deleted = false ∧ d.isDirEntry = true ∧ d.inode = b

/-- An inode that the scan of inodes is after: a regular file that was freed, with a size and with
extents. -/
def Freed (ino : ℕ) : Prop :=
  ∃ i ∈ e.readInode ino, i.isRegular = true ∧ i.looksDeleted = true ∧ i.size ≠ 0 ∧
    e.extentsOf i.toInode ≠ []

variable {e}

lemma subdir_eq_some {path : String} {d : DirEntry} {item : ℕ × String} :
    subdir path d = some item ↔ (d.passedOver = false ∧ d.deleted = false ∧ d.isDirEntry = true) ∧
      (d.inode, childPath path d.name) = item := by
  unfold subdir
  cases d.passedOver <;> cases d.deleted <;> cases d.isDirEntry <;> simp

lemma leads_iff (item : ℕ × String) (b : ℕ) :
    e.Leads item.1 b ↔ ∃ c ∈ e.subdirs item, c.1 = b := by
  unfold Leads subdirs
  constructor
  · rintro ⟨d, hd, hpass, hdel, hdir, rfl⟩
    exact ⟨_, List.mem_filterMap.2 ⟨d, hd, subdir_eq_some.2 ⟨⟨hpass, hdel, hdir⟩, rfl⟩⟩, rfl⟩
  · rintro ⟨c, hc, rfl⟩
    obtain ⟨d, hd, hsub⟩ := List.mem_filterMap.1 hc
    obtain ⟨⟨hpass, hdel, hdir⟩, rfl⟩ := subdir_eq_some.1 hsub
    exact ⟨d, hd, hpass, hdel, hdir, rfl⟩

/-- The inode number of an entry has 32 bits. -/
lemma inode_lt_of_mem_dirFrom {block : Bytes} (sb : Geometry) (guard : ℕ) :
    ∀ pos, ∀ d ∈ dirFrom sb block guard pos, d.inode < 2 ^ 32 := by
  have hslack : ∀ start stop, ∀ d ∈ scanSlack sb block start stop, d.inode < 2 ^ 32 := by
    intro start stop d hd
    obtain ⟨p, -, rfl⟩ := List.mem_map.1 hd
    exact leU32_lt block p
  induction guard with
  | zero => exact fun _ d hd => absurd hd List.not_mem_nil
  | succ guard ih =>
    intro pos d hd
    rw [dirFrom] at hd
    split at hd
    · split at hd
      · exact absurd hd List.not_mem_nil
      · obtain hd | hd := List.mem_append.1 hd
        · split at hd
          · obtain hd | hd := List.mem_append.1 hd
            · split at hd
              · rw [List.mem_singleton.1 hd]
                exact leU32_lt block pos
              · exact absurd hd List.not_mem_nil
            · exact hslack _ _ d hd
          · exact hslack _ _ d hd
        · exact ih _ d hd
    · exact absurd hd List.not_mem_nil

lemma inode_lt_of_mem_readDirFrom (offs : List ℕ) : ∀ out : List DirEntry,
    (∀ d ∈ out, d.inode < 2 ^ 32) → ∀ d ∈ e.readDirFrom offs out, d.inode < 2 ^ 32 := by
  induction offs with
  | nil => exact fun _ hout => hout
  | cons off offs ih =>
    intro out hout
    rw [readDirFrom]
    split
    · exact hout
    · refine ih _ fun d hd => ?_
      obtain hd | hd := List.mem_append.1 hd
      · exact hout d hd
      · exact inode_lt_of_mem_dirFrom e.sb 100000 0 d hd

lemma inode_lt_of_mem_listing {ino : ℕ} {d : DirEntry} (h : d ∈ e.listing ino) :
    d.inode < 2 ^ 32 := by
  unfold listing at h
  split at h
  · split at h
    · exact inode_lt_of_mem_readDirFrom _ _ (fun d hd => absurd hd List.not_mem_nil) d h
    · exact absurd h List.not_mem_nil
  · exact absurd h List.not_mem_nil

/-- An inode that the tree has recorded is recorded under its number. -/
lemma id_lt_of_mem_treeFound {r : Recorded} (h : r ∈ e.treeFound) : r.id < 2 ^ 32 := by
  obtain ⟨item, -, hr⟩ := List.mem_flatMap.1 h
  obtain ⟨d, hd, hfound⟩ := List.mem_filterMap.1 hr
  have hrecord : ∀ {parent path state}, r ∈ e.recordOf e.recoverFromJournal d parent path state →
      r.id = d.inode := by
    intro parent path state hmem
    obtain ⟨i, -, hi⟩ := Option.bind_eq_some_iff.1 hmem
    obtain ⟨en, -, rfl⟩ := Option.map_eq_some_iff.1 hi
    rfl
  have hid : r.id = d.inode := by
    unfold foundIn at hfound
    split_ifs at hfound
    · exact hrecord hfound
    · exact hrecord hfound
  exact hid ▸ inode_lt_of_mem_listing hd

lemma mem_orphansFound {r : Recorded} : r ∈ e.orphansFound ↔
    ∃ ino ∈ e.orphanInodes, (∀ s ∈ e.treeFound, s.id ≠ ino) ∧ ino ∉ e.directories.map Prod.fst ∧
      r ∈ e.orphanOf ino := by
  unfold orphansFound
  rw [List.mem_filterMap]
  refine exists_congr fun ino => ?_
  have hid : (∃ s ∈ e.treeFound, s.id % 2 ^ 32 = ino) ↔ ∃ s ∈ e.treeFound, s.id = ino :=
    exists_congr fun s => and_congr_right fun hs => by
      rw [Nat.mod_eq_of_lt (id_lt_of_mem_treeFound hs)]
  rw [List.mem_filter, Bool.not_eq_true', decide_eq_false_iff_not, not_or, hid, and_assoc,
    and_assoc]
  refine and_congr_right fun _ => and_congr_left fun _ => ?_
  push Not
  rfl

/-- The scan records exactly the inodes that it is after. -/
lemma isSome_orphanOf {ino : ℕ} : (∃ r, r ∈ e.orphanOf ino) ↔ e.Freed ino := by
  unfold orphanOf Freed
  cases e.readInode ino with
  | none => simp
  | some i =>
    by_cases hsize : i.size = 0
    · simp [hsize]
    · by_cases hext : e.extentsOf i.toInode = []
      · simp [hext]
      · cases hreg : i.isRegular <;> cases hdel : i.looksDeleted <;> simp [hsize, hext, hreg, hdel]

lemma nodup_orphansFound : (e.orphansFound.map Recorded.id).Nodup := by
  unfold orphansFound
  rw [List.map_filterMap]
  refine (nodup_orphanInodes.filter _).filterMap fun ino ino' id hid hid' => ?_
  obtain ⟨r, hr, rfl⟩ := Option.map_eq_some_iff.1 hid
  obtain ⟨r', hr', heq⟩ := Option.map_eq_some_iff.1 hid'
  rw [← id_orphanOf hr, ← id_orphanOf hr', heq]

lemma length_scanFrom_le (allocated : ℕ → Bool) (bs : List ℕ) (found : List (List Extent))
    (h : found.length ≤ 100000) : (e.scanFrom allocated bs found).length ≤ 100001 := by
  fun_induction scanFrom e allocated bs found with
  | case1 found => omega
  | case2 found b bs _ ih => exact ih h
  | case3 found b bs _ exts found' hfull =>
    dsimp only [found']
    split
    · rw [List.length_append, List.length_singleton]
      omega
    · omega
  | case4 found b bs _ exts found' hfull ih => exact ih (not_lt.1 hfull)

lemma id_nodeOf {idx : ℕ} (h : idx < 2 ^ 48) (exts : List Extent) :
    (nodeOf idx exts).id = 0xF30A * 2 ^ 48 + idx := by
  change 0xF30A000000000000 ||| idx = _
  rw [mul_comm, Nat.two_pow_add_eq_or_of_lt h]

/-- The numbers under which lists of extents are recorded. -/
lemma ids_nodesFound : e.nodesFound.map Recorded.id =
    (List.range' 1 (e.scanExtentNodes e.scanAllocated).length).map (0xF30A * 2 ^ 48 + ·) := by
  have hlen : (e.scanExtentNodes e.scanAllocated).length ≤ 100001 :=
    length_scanFrom_le _ _ _ (Nat.zero_le _)
  unfold nodesFound
  rw [List.map_map, ← List.zipIdx_map_snd 1, List.map_map]
  refine List.map_congr_left fun run hrun => ?_
  have hidx := List.snd_lt_of_mem_zipIdx hrun
  exact id_nodeOf (by omega) run.1

variable (e)

end Ext
end Reclaim
