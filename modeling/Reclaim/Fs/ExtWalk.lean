import Reclaim.Foundation.Traversal
import Reclaim.Fs.Dates
import Reclaim.Fs.ExtDir
import Reclaim.Fs.ExtRecover

/-!
# The directories of an ext volume

The walk takes directories from a stack.  It goes through the entries of one until there are as many
records as are asked for, puts the live directories among them on the stack, and records the others
with their inodes.

What it records are the first ones of all that there are, and these do not depend on how many are
asked for: it visits the directories that a traversal of the volume does (`walkTree_spec`).
-/

namespace Reclaim
namespace Ext

open FileBytes

/-- `ROOT_INODE`. -/
def rootInode : ℕ := 2

/-- `MAX_DIRS`: cap on directory inodes visited during the tree walk. -/
def maxDirs : ℕ := 2000000

/-- `MAX_DIR_ENTRIES`: cap on entries accumulated from one directory. -/
def maxDirEntries : ℕ := 2000000

/-- `Inode::looks_deleted`: a freed inode that still has a mode and a size. -/
def JournalInode.looksDeleted (i : JournalInode) : Bool := i.dtime ≠ 0 ∨ i.links = 0

/-- An entry with what else the engine says of it. -/
structure Recorded where
  id : ℕ
  parentId : Option ℕ
  rawName : Bytes
  confidence : ℚ
  entry : Entry

/-- `WalkCtx`: what the walk has come to. -/
structure WalkCtx where
  stats : WalkStats
  sink : List Recorded
  visitedDirs : List ℕ
  emittedInodes : List ℕ

namespace WalkCtx

/-- Nothing has been visited. -/
def start : WalkCtx := ⟨⟨0, 0, 0⟩, [], [], []⟩

/-- `budget_left`. -/
def budgetLeft (opts : WalkOpts) (ctx : WalkCtx) : Bool := ctx.stats.emitted < opts.maxEntries

/-- The directories that were visited. -/
def withVisited (ctx : WalkCtx) (visited : List ℕ) : WalkCtx := { ctx with visitedDirs := visited }

/-- `record`: the entry is counted and given to the sink. -/
def record (ctx : WalkCtx) (r : Recorded) : WalkCtx where
  stats := (Walked.emit ⟨ctx.stats, []⟩ r.entry).stats
  sink := ctx.sink ++ [r]
  visitedDirs := ctx.visitedDirs
  emittedInodes := r.id % 2 ^ 32 :: ctx.emittedInodes

/-- Entries in turn. -/
def recordAll (ctx : WalkCtx) (rs : List Recorded) : WalkCtx := rs.foldl record ctx

/-- How many more entries are asked for. -/
def room (opts : WalkOpts) (ctx : WalkCtx) : ℕ := opts.maxEntries - ctx.stats.emitted

variable {opts : WalkOpts} {ctx : WalkCtx} {r : Recorded} {rs : List Recorded}

@[simp] lemma recordAll_nil : ctx.recordAll [] = ctx := rfl

@[simp] lemma recordAll_cons : ctx.recordAll (r :: rs) = (ctx.record r).recordAll rs := rfl

lemma recordAll_append {more : List Recorded} :
    ctx.recordAll (rs ++ more) = (ctx.recordAll rs).recordAll more := List.foldl_append

@[simp] lemma emitted_recordAll :
    (ctx.recordAll rs).stats.emitted = ctx.stats.emitted + rs.length := by
  induction rs generalizing ctx with
  | nil => rfl
  | cons r rs ih =>
    rw [recordAll_cons, ih, List.length_cons]
    change ctx.stats.emitted + 1 + rs.length = _
    omega

@[simp] lemma sink_recordAll : (ctx.recordAll rs).sink = ctx.sink ++ rs := by
  induction rs generalizing ctx with
  | nil => exact (List.append_nil _).symm
  | cons r rs ih =>
    rw [recordAll_cons, ih]
    exact List.append_assoc ctx.sink [r] rs

@[simp] lemma visitedDirs_recordAll : (ctx.recordAll rs).visitedDirs = ctx.visitedDirs := by
  induction rs generalizing ctx with
  | nil => rfl
  | cons r rs ih => exact ih

/-- Which directories were visited makes no difference. -/
lemma recordAll_withVisited (visited : List ℕ) :
    (ctx.withVisited visited).recordAll rs = (ctx.recordAll rs).withVisited visited := by
  induction rs generalizing ctx with
  | nil => rfl
  | cons r rs ih => exact @ih (ctx.record r)

@[simp] lemma room_withVisited {opts : WalkOpts} (visited : List ℕ) :
    (ctx.withVisited visited).room opts = ctx.room opts := rfl

lemma mem_emittedInodes_recordAll {ino : ℕ} : ino ∈ (ctx.recordAll rs).emittedInodes ↔
    ino ∈ ctx.emittedInodes ∨ ∃ r ∈ rs, r.id % 2 ^ 32 = ino := by
  induction rs generalizing ctx with
  | nil => simp
  | cons r rs ih =>
    rw [recordAll_cons, ih]
    change ino ∈ r.id % 2 ^ 32 :: ctx.emittedInodes ∨ _ ↔ _
    rw [List.mem_cons, List.exists_mem_cons_iff, or_assoc, or_left_comm, eq_comm (a := ino)]

lemma room_recordAll : (ctx.recordAll rs).room opts = ctx.room opts - rs.length := by
  rw [room, room, emitted_recordAll, Nat.sub_add_eq]

lemma budgetLeft_iff : ctx.budgetLeft opts = true ↔ 0 < ctx.room opts := by
  rw [budgetLeft, room, decide_eq_true_iff]
  omega

/-- Entries for which there is room are recorded, and then of others as many as there is still room
for. -/
lemma recordAll_take {more : List Recorded} (h : rs.length ≤ ctx.room opts) :
    (ctx.recordAll rs).recordAll (more.take ((ctx.recordAll rs).room opts)) =
      ctx.recordAll ((rs ++ more).take (ctx.room opts)) := by
  rw [room_recordAll, List.take_append, List.take_of_length_le h, recordAll_append]

/-- Entries for which there is no room are not recorded, whatever follows. -/
lemma recordAll_full {more : List Recorded} (h : ctx.room opts ≤ rs.length) :
    (ctx.recordAll (rs.take (ctx.room opts))).recordAll
        (more.take ((ctx.recordAll (rs.take (ctx.room opts))).room opts)) =
      ctx.recordAll ((rs ++ more).take (ctx.room opts)) := by
  have hfull : (ctx.recordAll (rs.take (ctx.room opts))).room opts = 0 := by
    rw [room_recordAll, List.length_take, min_eq_left h, Nat.sub_self]
  rw [hfull, List.take_zero, recordAll_nil, List.take_append_of_le_length h]

/-- Of two lists as much is recorded as there is room for. -/
lemma recordAll_both {more : List Recorded} :
    (ctx.recordAll (rs.take (ctx.room opts))).recordAll
        (more.take ((ctx.recordAll (rs.take (ctx.room opts))).room opts)) =
      ctx.recordAll ((rs ++ more).take (ctx.room opts)) := by
  obtain h | h := le_total rs.length (ctx.room opts)
  · rw [List.take_of_length_le h, recordAll_take h]
  · exact recordAll_full h

/-- The statistics are those of the entries in the sink. -/
def Counted (ctx : WalkCtx) : Prop := ctx.stats = WalkStats.of (ctx.sink.map Recorded.entry)

lemma Counted.recordAll (h : ctx.Counted) (rs : List Recorded) : (ctx.recordAll rs).Counted := by
  induction rs generalizing ctx with
  | nil => exact h
  | cons r rs ih =>
    apply ih
    have hcount : (Walked.mk ctx.stats (ctx.sink.map Recorded.entry)).Counted := h
    have hemit := hcount.emit r.entry
    unfold Counted
    rw [record, List.map_append, List.map_singleton]
    exact hemit

end WalkCtx

variable (e : Ext)

/-! ## Directories -/

/-- Blocks parsed in turn, until there are entries enough. -/
def readDirFrom : List ℕ → List DirEntry → List DirEntry
  | [], out => out
  | off :: offs, out =>
    if maxDirEntries ≤ out.length then out
    else readDirFrom offs (out ++ parseDirBlock e.sb (e.src.read off e.sb.blockSize))

/-- `read_dir`. -/
def readDir (dir : Inode) : List DirEntry :=
  e.readDirFrom ((e.extentsOf dir).flatMap e.extentOffsets) []

/-- The entries of a directory; other inodes have none. -/
def listing (ino : ℕ) : List DirEntry :=
  match e.readInode ino with
  | some dir => if dir.isDir then e.readDir dir.toInode else []
  | none => []

/-- The names that are passed over. -/
def DirEntry.passedOver (d : DirEntry) : Bool :=
  d.name = "." ∨ d.name = ".." ∨ d.name = "lost+found"

/-- `is_dir_entry`: the entry says that it is a directory. -/
def DirEntry.isDirEntry (d : DirEntry) : Bool := d.fileType = 2

/-- The path of an entry. -/
def childPath (path name : String) : String := if path = "" then name else path ++ "/" ++ name

section Emit

variable (journal : List (ℕ × JournalInode))

/-- The inode of an entry.  Where that of a deleted one is gone or has no map, a copy from the
journal takes its place. -/
def resolveInode (d : DirEntry) (state : EntryState) : Option JournalInode :=
  let inode := e.readInode d.inode
  if state ≠ .live ∧ (inode.all fun i => i.mapEmpty) then (journal.lookup d.inode).or inode
  else inode

/-- What `emit_from_inode` records for an entry of the directory `parent`. -/
def recordOf (d : DirEntry) (parent : ℕ) (path : String) (state : EntryState) : Option Recorded :=
  (e.resolveInode journal d state).bind fun i =>
    (entry e.src.read e.superblock dateFromEpoch i.toInode d.name path state).map fun en =>
      { id := d.inode
        parentId := some parent
        rawName := d.rawName
        confidence :=
          if state = .live then 1 else if i.looksDeleted then 85 / 100 else 6 / 10
        entry := en }

/-- `emit_from_inode`. -/
def emitFromInode (opts : WalkOpts) (ctx : WalkCtx) (d : DirEntry) (parent : ℕ) (path : String)
    (state : EntryState) : WalkCtx :=
  if ctx.budgetLeft opts then ctx.recordAll (e.recordOf journal d parent path state).toList else ctx

/-- The entries of a directory in turn: live directories are put on the stack, and what else there
is is recorded. -/
def dirEntries (opts : WalkOpts) (dino : ℕ) (path : String) :
    List DirEntry → WalkCtx × List (ℕ × String) → WalkCtx × List (ℕ × String)
  | [], s => s
  | d :: ds, s =>
    if d.passedOver then dirEntries opts dino path ds s
    else
      let child := childPath path d.name
      let s :=
        if d.deleted then (e.emitFromInode journal opts s.1 d dino child .deleted, s.2)
        else if d.isDirEntry then (s.1, (d.inode, child) :: s.2)
        else (e.emitFromInode journal opts s.1 d dino child .live, s.2)
      if s.1.budgetLeft opts then dirEntries opts dino path ds s else s

/-- What is recorded for an entry of a directory. -/
def foundIn (dino : ℕ) (path : String) (d : DirEntry) : Option Recorded :=
  if d.passedOver then none
  else if d.deleted then e.recordOf journal d dino (childPath path d.name) .deleted
  else if d.isDirEntry then none
  else e.recordOf journal d dino (childPath path d.name) .live

end Emit

/-- The directory that an entry leads to. -/
def subdir (path : String) (d : DirEntry) : Option (ℕ × String) :=
  if !d.passedOver && !d.deleted && d.isDirEntry then some (d.inode, childPath path d.name)
  else none

/-! ## The tree -/

section Tree

variable (journal : List (ℕ × JournalInode)) (opts : WalkOpts)

/-- A directory from the stack: if it is one, its entries are gone through. -/
def visitDir (ctx : WalkCtx) (dino : ℕ) (path : String) (queue : List (ℕ × String)) :
    WalkCtx × List (ℕ × String) :=
  match e.readInode dino with
  | some dir =>
    if dir.isDir then e.dirEntries journal opts dino path (e.readDir dir.toInode) (ctx, queue)
    else (ctx, queue)
  | none => (ctx, queue)

variable {e journal opts} in
lemma visitedDirs_dirEntries {dino : ℕ} {path : String} (ds : List DirEntry)
    (s : WalkCtx × List (ℕ × String)) :
    (e.dirEntries journal opts dino path ds s).1.visitedDirs = s.1.visitedDirs := by
  have hemit : ∀ (ctx : WalkCtx) (d : DirEntry) (child : String) (state : EntryState),
      (e.emitFromInode journal opts ctx d dino child state).visitedDirs = ctx.visitedDirs := by
    intro ctx d child state
    unfold emitFromInode
    split
    · exact WalkCtx.visitedDirs_recordAll
    · rfl
  fun_induction dirEntries e journal opts dino path ds s with
  | case1 s => rfl
  | case2 s d ds _ ih => exact ih
  | case3 s d ds _ child s' _ ih =>
    rw [ih]
    dsimp only [s']
    split_ifs
    · exact hemit ..
    · rfl
    · exact hemit ..
  | case4 s d ds _ child s' _ =>
    dsimp only [s']
    split_ifs
    · exact hemit ..
    · rfl
    · exact hemit ..

variable {e journal opts} in
lemma visitedDirs_visitDir {ctx : WalkCtx} {dino : ℕ} {path : String}
    {queue : List (ℕ × String)} :
    (e.visitDir journal opts ctx dino path queue).1.visitedDirs = ctx.visitedDirs := by
  unfold visitDir
  split
  · split
    · exact visitedDirs_dirEntries _ _
    · rfl
  · rfl

/-- `walk_tree`, with the top of the stack first. -/
def walkTree (ctx : WalkCtx) (queue : List (ℕ × String)) : WalkCtx :=
  match queue with
  | [] => ctx
  | (dino, path) :: queue =>
    if !ctx.budgetLeft opts || decide (maxDirs < ctx.visitedDirs.length) then ctx
    else if dino ∈ ctx.visitedDirs then walkTree ctx queue
    else
      let s := e.visitDir journal opts (ctx.withVisited (dino :: ctx.visitedDirs)) dino path queue
      walkTree s.1 s.2
termination_by (maxDirs + 1 - ctx.visitedDirs.length, queue.length)
decreasing_by
  · exact Prod.Lex.right _ (Nat.lt_succ_self _)
  · rename_i hstop _
    rw [Bool.or_eq_true, decide_eq_true_iff, not_or, not_lt] at hstop
    refine Prod.Lex.left _ _ ?_
    rw [visitedDirs_visitDir, WalkCtx.withVisited, List.length_cons]
    omega

variable {e journal opts}

lemma emitFromInode_eq {ctx : WalkCtx} (h : 0 < ctx.room opts) {d : DirEntry} {parent : ℕ}
    {path : String} {state : EntryState} :
    e.emitFromInode journal opts ctx d parent path state =
      ctx.recordAll (e.recordOf journal d parent path state).toList :=
  if_pos (WalkCtx.budgetLeft_iff.2 h)

lemma filterMap_cons_toList {α β : Type} (f : α → Option β) (a : α) (as : List α) :
    (a :: as).filterMap f = (f a).toList ++ as.filterMap f := by
  cases h : f a with
  | none => rw [List.filterMap_cons_none h]; rfl
  | some b => rw [List.filterMap_cons_some h]; rfl

lemma length_toList_le {α : Type} (o : Option α) : o.toList.length ≤ 1 := by
  cases o <;> simp

/-- The entries of a directory, as many as there is room for; if that is all of them, the
directories among them are on the stack. -/
lemma dirEntries_spec {dino : ℕ} {path : String} (ds : List DirEntry)
    (s : WalkCtx × List (ℕ × String)) (hroom : 0 < s.1.room opts) :
    let rs := ds.filterMap (e.foundIn journal dino path)
    (e.dirEntries journal opts dino path ds s).1 = s.1.recordAll (rs.take (s.1.room opts)) ∧
      (rs.length < s.1.room opts → (e.dirEntries journal opts dino path ds s).2 =
        (ds.filterMap (subdir path)).reverse ++ s.2) := by
  induction ds generalizing s with
  | nil =>
    dsimp only
    rw [List.filterMap_nil, List.take_nil]
    exact ⟨rfl, fun _ => rfl⟩
  | cons d ds ih =>
    rw [dirEntries]
    by_cases hpass : d.passedOver = true
    · have hfound : e.foundIn journal dino path d = none := if_pos hpass
      have hsub : subdir path d = none := by simp [subdir, hpass]
      rw [if_pos hpass, List.filterMap_cons_none hfound, List.filterMap_cons_none hsub]
      exact ih s hroom
    · have hstep : (if d.deleted then
            (e.emitFromInode journal opts s.1 d dino (childPath path d.name) .deleted, s.2)
          else if d.isDirEntry then (s.1, (d.inode, childPath path d.name) :: s.2)
          else (e.emitFromInode journal opts s.1 d dino (childPath path d.name) .live, s.2)) =
          (s.1.recordAll (e.foundIn journal dino path d).toList,
            (subdir path d).toList ++ s.2) := by
        rw [emitFromInode_eq hroom, emitFromInode_eq hroom, foundIn, subdir, if_neg hpass]
        cases d.deleted <;> cases d.isDirEntry <;> simp [hpass]
      have hone := length_toList_le (e.foundIn journal dino path d)
      rw [if_neg hpass]
      dsimp only
      rw [hstep, filterMap_cons_toList (e.foundIn journal dino path),
        filterMap_cons_toList (subdir path)]
      split
      · rename_i hleft
        obtain ⟨hctx, hqueue⟩ := ih _ (WalkCtx.budgetLeft_iff.1 hleft)
        refine ⟨?_, fun hlt => ?_⟩
        · rw [hctx, WalkCtx.recordAll_take (by omega)]
        · rw [List.length_append] at hlt
          rw [hqueue (by rw [WalkCtx.room_recordAll]; omega), List.reverse_append,
            List.append_assoc]
          cases subdir path d <;> rfl
      · rename_i hfull
        rw [WalkCtx.budgetLeft_iff, WalkCtx.room_recordAll] at hfull
        refine ⟨?_, fun hlt => ?_⟩
        · rw [List.take_append_of_le_length (by omega), List.take_of_length_le (by omega)]
        · rw [List.length_append] at hlt
          omega

/-- The directories that an item of the stack leads to. -/
def subdirs (e : Ext) (item : ℕ × String) : List (ℕ × String) :=
  (e.listing item.1).filterMap (subdir item.2)

/-- What is recorded for the entries of an item of the stack. -/
def foundBelow (e : Ext) (journal : List (ℕ × JournalInode)) (item : ℕ × String) :
    List Recorded :=
  (e.listing item.1).filterMap (e.foundIn journal item.1 item.2)

lemma visitDir_eq {ctx : WalkCtx} {item : ℕ × String} {queue : List (ℕ × String)}
    (hroom : 0 < ctx.room opts) :
    (e.visitDir journal opts ctx item.1 item.2 queue).1 =
        ctx.recordAll ((e.foundBelow journal item).take (ctx.room opts)) ∧
      ((e.foundBelow journal item).length < ctx.room opts →
        (e.visitDir journal opts ctx item.1 item.2 queue).2 =
          (e.subdirs item).reverse ++ queue) := by
  have hnone : ctx = ctx.recordAll (([] : List Recorded).take (ctx.room opts)) := by
    rw [List.take_nil, WalkCtx.recordAll_nil]
  unfold visitDir foundBelow subdirs listing
  cases e.readInode item.1 with
  | none => exact ⟨hnone, fun _ => rfl⟩
  | some dir =>
    dsimp only
    cases dir.isDir with
    | false => exact ⟨hnone, fun _ => rfl⟩
    | true => exact dirEntries_spec _ _ hroom

/-- **The tree**: the walk visits directories like a traversal, and records what is below each. -/
lemma walkTree_spec (ctx : WalkCtx) (queue : List (ℕ × String)) :
    let dirs := Traversal.visit Prod.fst e.subdirs maxDirs queue ctx.visitedDirs
    let rs := dirs.flatMap (e.foundBelow journal)
    ∃ visited, e.walkTree journal opts ctx queue =
        (ctx.recordAll (rs.take (ctx.room opts))).withVisited visited ∧
      (rs.length < ctx.room opts → ∀ ino,
        ino ∈ visited ↔ ino ∈ ctx.visitedDirs ∨ ino ∈ dirs.map Prod.fst) := by
  fun_induction walkTree e journal opts ctx queue with
  | case1 ctx =>
    refine ⟨ctx.visitedDirs, ?_, fun _ ino => ?_⟩
    · rw [Traversal.visit_nil, List.flatMap_nil, List.take_nil]
      rfl
    · simp
  | case2 ctx dino path queue hstop =>
    rw [Bool.or_eq_true, Bool.not_eq_true', decide_eq_true_iff] at hstop
    refine ⟨ctx.visitedDirs, ?_, ?_⟩
    · obtain hfull | hlimit := hstop
      · have hroom : ctx.room opts = 0 := by
          have hno : ¬ 0 < ctx.room opts := fun h => by
            rw [WalkCtx.budgetLeft_iff.2 h] at hfull
            exact Bool.noConfusion hfull
          omega
        rw [hroom, List.take_zero]
        rfl
      · rw [Traversal.visit_of_limit hlimit, List.flatMap_nil, List.take_nil]
        rfl
    · intro hlt ino
      have hlimit : maxDirs < ctx.visitedDirs.length := hstop.resolve_left fun hfull => by
        have hroom := WalkCtx.budgetLeft_iff.2 (Nat.zero_lt_of_lt hlt)
        rw [hfull] at hroom
        exact Bool.noConfusion hroom
      rw [Traversal.visit_of_limit hlimit]
      simp
  | case3 ctx dino path queue hstop hseen ih =>
    rw [Bool.or_eq_true, decide_eq_true_iff, not_or, not_lt] at hstop
    rw [Traversal.visit_seen hstop.2 hseen]
    exact ih
  | case4 ctx dino path queue hstop hnew s ih =>
    rw [Bool.or_eq_true, Bool.not_eq_true', decide_eq_true_iff, not_or, not_lt,
      Bool.not_eq_false] at hstop
    have hroom : 0 < ctx.room opts := WalkCtx.budgetLeft_iff.1 hstop.1
    obtain ⟨hvisit, hqueue⟩ := @visitDir_eq e journal opts
      (ctx.withVisited (dino :: ctx.visitedDirs)) (dino, path) queue hroom
    have hctx : s.1 = (ctx.recordAll ((e.foundBelow journal (dino, path)).take
        (ctx.room opts))).withVisited (dino :: ctx.visitedDirs) :=
      hvisit.trans (WalkCtx.recordAll_withVisited _)
    have hseen : s.1.visitedDirs = dino :: ctx.visitedDirs := visitedDirs_visitDir
    obtain ⟨visited, hwalk, hvisited⟩ := ih
    rw [hseen, hctx, WalkCtx.recordAll_withVisited, WalkCtx.room_withVisited] at hwalk
    rw [hseen, hctx, WalkCtx.room_withVisited] at hvisited
    rw [Traversal.visit_new hstop.2 hnew]
    dsimp only
    rw [List.flatMap_cons]
    by_cases hfit : (e.foundBelow journal (dino, path)).length < ctx.room opts
    · have hstack : s.2 = (e.subdirs (dino, path)).reverse ++ queue := hqueue hfit
      rw [hstack, List.take_of_length_le hfit.le] at hwalk hvisited
      refine ⟨visited, ?_, fun hlt ino => ?_⟩
      · rw [hctx, hstack, List.take_of_length_le hfit.le, hwalk, WalkCtx.recordAll_take hfit.le]
        rfl
      · rw [List.length_append] at hlt
        rw [hvisited (by rw [WalkCtx.room_recordAll]; omega) ino, List.mem_cons, List.map_cons,
          List.mem_cons]
        tauto
    · refine ⟨visited, ?_, fun hlt => ?_⟩
      · rw [hctx, hwalk, WalkCtx.recordAll_full (not_lt.1 hfit),
          List.take_append_of_le_length (not_lt.1 hfit),
          List.take_append_of_le_length (not_lt.1 hfit)]
        rfl
      · rw [List.length_append] at hlt
        omega

end Tree

end Ext
end Reclaim
