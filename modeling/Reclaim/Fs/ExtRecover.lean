import Reclaim.Fs.ExtBitmap
import Reclaim.Fs.ExtJournal

/-!
# Inodes from the journal of an ext volume

The blocks of the journal are gone through in the order of its file.  A descriptor block names the
blocks of which those behind it are copies, and a copy of a block of an inode table is searched for
inodes that still have a map.

Of several copies of an inode the first one counts (`recoverFromJournal_exact`), which is the one
the journal's file has first and not the one that was written last.
-/

namespace Reclaim
namespace Ext

open FileBytes

variable (e : Ext)

/-- `Inode::read`. -/
def readInode (ino : ℕ) : Option JournalInode :=
  (e.sb.inodeLocation ino).bind fun off => parseInodeBytes (e.src.read off e.sb.inodeSize)

/-- The block size, as the block maps need it. -/
def superblock : Superblock := ⟨e.sb.blockSize, e.accepted.blockSize⟩

/-- `Inode::extents`, on the volume. -/
def extentsOf (i : Inode) : List Extent := i.extents e.src.read e.superblock

/-! ## The blocks of the journal -/

/-- `JBD2_MAGIC`. -/
def jbd2Magic : ℕ := 0xC03B3998

/-- `MAX_JOURNAL_BLOCKS`. -/
def maxJournalBlocks : ℕ := 262144

/-- `MAX_JOURNAL_INODES`. -/
def maxJournalInodes : ℕ := 1000000

/-- The offsets of an extent, block by block. -/
def extentOffsets (x : Extent) : List ℕ :=
  (List.range (divCeil (saturatingAdd x.offset x.len - x.offset) e.sb.blockSize)).map fun i =>
    x.offset + i * e.sb.blockSize

/-- The blocks of an extent. -/
def extentBlocks (x : Extent) : List ℕ := (e.extentOffsets x).map (· / max e.sb.blockSize 1)

/-- Blocks put to those that are listed, up to one with which there are too many. -/
def pushBlocks (listed : List ℕ) : List ℕ → List ℕ
  | [] => listed
  | b :: bs =>
    if maxJournalBlocks < (listed ++ [b]).length then listed ++ [b]
    else pushBlocks (listed ++ [b]) bs

/-- The blocks of the journal's file.  The bound ends an extent, not the list: each further extent
adds one block. -/
def journalBlocks (jinode : Inode) : List ℕ :=
  (e.extentsOf jinode).foldl (fun listed x => pushBlocks listed (e.extentBlocks x)) []

/-- The features that the journal's superblock has, if there is one. -/
def journalIncompat (first : ℕ) : ℕ :=
  let jsb := e.src.read (saturatingMul first e.sb.blockSize) 0x2C
  if beU32 jsb 0 = jbd2Magic then beU32 jsb 0x28 else 0

/-- A block as a whole. -/
def readBlock (b : ℕ) : Bytes := e.src.read (saturatingMul b e.sb.blockSize) e.sb.blockSize

/-- A block of the journal is a descriptor block. -/
def isDescriptor (jb : ℕ) : Bool :=
  let hdr := e.src.read (saturatingMul jb e.sb.blockSize) 12
  beU32 hdr 0 = jbd2Magic ∧ beU32 hdr 4 = 1

/-! ## The harvest of all blocks -/

/-- `in_inode_table`. -/
def Geometry.inInodeTable (sb : Geometry) (b : ℕ) : Bool := sb.groups.any (sb.inTable b)

/-- The inode at a place in a copy of a block, if it has a map. -/
def mappedInode (blk : Bytes) (slot : ℕ × ℕ) : Option (ℕ × JournalInode) :=
  ((getRange blk slot.1 e.sb.inodeSize).bind parseInodeBytes).bind fun inode =>
    if 0 < inode.size ∧ inode.mapEmpty = false then some (slot.2, inode) else none

/-- `entry(ino).or_insert(inode)`. -/
def orInsert (out : List (ℕ × JournalInode)) (found : ℕ × JournalInode) : List (ℕ × JournalInode) :=
  if (out.lookup found.1).isSome then out else out ++ [found]

/-- The inodes with a map in a copy `jb` of block `target`. -/
def copyInodes (copy : ℕ × ℕ) : List (ℕ × JournalInode) :=
  (e.sb.harvestSlots copy.1).filterMap (e.mappedInode (e.readBlock copy.2))

/-- The copies that a descriptor block announces, up to the end of the journal or to one with which
there are inodes enough.  The rest of the journal is returned, unless there are enough. -/
def takeCopies : (targets blocks : List ℕ) → List (ℕ × JournalInode) →
    List (ℕ × JournalInode) × Option (List ℕ)
  | [], blocks, out => (out, some blocks)
  | _ :: _, [], out => (out, some [])
  | target :: targets, jb :: blocks, out =>
    if e.sb.inInodeTable target then
      let out := (e.copyInodes (target, jb)).foldl orInsert out
      if maxJournalInodes ≤ out.length then (out, none) else takeCopies targets blocks out
    else takeCopies targets blocks out

lemma length_takeCopies (targets blocks : List ℕ) (out : List (ℕ × JournalInode)) :
    ∀ rest ∈ (e.takeCopies targets blocks out).2, rest.length ≤ blocks.length := by
  fun_induction takeCopies e targets blocks out with
  | case1 blocks out =>
    rintro rest hrest
    rw [Option.mem_some_iff.1 hrest]
  | case2 =>
    rintro rest hrest
    rw [← Option.mem_some_iff.1 hrest]
  | case3 => exact fun rest hrest => absurd hrest (Option.not_mem_none _)
  | case4 _ _ _ _ _ _ _ _ ih => exact fun rest hrest => (ih rest hrest).trans (Nat.le_succ _)
  | case5 _ _ _ _ _ _ ih => exact fun rest hrest => (ih rest hrest).trans (Nat.le_succ _)

/-- The journal from a block on. -/
def replay (jIncompat : ℕ) (blocks : List ℕ) (out : List (ℕ × JournalInode)) :
    List (ℕ × JournalInode) :=
  match blocks with
  | [] => out
  | jb :: blocks =>
    if e.isDescriptor jb then
      match _h : e.takeCopies (parseDescriptorTags jIncompat (e.readBlock jb)) blocks out with
      | (found, none) => found
      | (found, some rest) => replay jIncompat rest found
    else replay jIncompat blocks out
termination_by blocks.length
decreasing_by
  · have hrest := e.length_takeCopies (parseDescriptorTags jIncompat (e.readBlock jb)) blocks out
      rest (by rw [_h]; exact Option.mem_some_self rest)
    rw [List.length_cons]
    omega
  · exact Nat.lt_succ_self _

/-- The blocks of the journal, if the volume has one. -/
def journalFile : List ℕ :=
  if e.sb.journalInum = 0 ∨ e.sb.inodesCount < e.sb.journalInum then []
  else ((e.readInode e.sb.journalInum).map fun j => e.journalBlocks j.toInode).getD []

/-- `recover_from_journal`. -/
def recoverFromJournal : List (ℕ × JournalInode) :=
  match e.journalFile with
  | [] => []
  | first :: blocks => e.replay (e.journalIncompat first) (first :: blocks) []

/-! ## The first copy counts -/

/-- The copies that a journal announces: each target with the block that is said to be its copy. -/
def announced (jIncompat : ℕ) (blocks : List ℕ) : List (ℕ × ℕ) :=
  match blocks with
  | [] => []
  | jb :: blocks =>
    if e.isDescriptor jb then
      let targets := parseDescriptorTags jIncompat (e.readBlock jb)
      targets.zip blocks ++ announced jIncompat (blocks.drop targets.length)
    else announced jIncompat blocks
termination_by blocks.length
decreasing_by
  · rw [List.length_drop, List.length_cons]
    omega
  · exact Nat.lt_succ_self _

/-- The copies of blocks of inode tables. -/
def tableCopies (copies : List (ℕ × ℕ)) : List (ℕ × ℕ) :=
  copies.filter fun c => e.sb.inInodeTable c.1

/-- The copies on the volume, in the order of the journal. -/
def volumeCopies : List (ℕ × ℕ) :=
  match e.journalFile with
  | [] => []
  | first :: blocks => e.tableCopies (e.announced (e.journalIncompat first) (first :: blocks))

section Insert

variable {out found : List (ℕ × JournalInode)}

lemma lookup_foldl_orInsert (ino : ℕ) :
    (found.foldl orInsert out).lookup ino = (out ++ found).lookup ino := by
  induction found generalizing out with
  | nil => rw [List.foldl_nil, List.append_nil]
  | cons f found ih =>
    rw [List.foldl_cons, ih, orInsert]
    split
    · rename_i hknown
      rw [List.lookup_append, List.lookup_append, List.lookup_cons]
      by_cases hino : ino = f.1
      · obtain ⟨i, hi⟩ := Option.isSome_iff_exists.1 hknown
        rw [hino, hi]
        rfl
      · rw [beq_false_of_ne hino]
    · rw [List.append_assoc, List.singleton_append]

lemma nodup_foldl_orInsert (h : (out.map Prod.fst).Nodup) :
    ((found.foldl orInsert out).map Prod.fst).Nodup := by
  induction found generalizing out with
  | nil => exact h
  | cons f found ih =>
    rw [List.foldl_cons]
    apply ih
    rw [orInsert]
    split
    · exact h
    · rename_i hnew
      have hnone := List.lookup_eq_none_iff.1 (Option.not_isSome_iff_eq_none.1 hnew)
      rw [List.map_append, List.map_singleton, ← List.concat_eq_append]
      refine h.concat fun hmem => ?_
      obtain ⟨g, hg, hfst⟩ := List.mem_map.1 hmem
      have hne := hnone g hg
      rw [hfst, bne_self_eq_false] at hne
      exact Bool.false_ne_true hne

lemma mem_foldl_orInsert {f : ℕ × JournalInode} (h : f ∈ found.foldl orInsert out) :
    f ∈ out ∨ f ∈ found := by
  induction found generalizing out with
  | nil => exact .inl h
  | cons g found ih =>
    rw [List.foldl_cons] at h
    obtain h | h := ih h
    · rw [orInsert] at h
      split at h
      · exact .inl h
      · obtain h | h := List.mem_append.1 h
        · exact .inl h
        · exact .inr (List.mem_singleton.1 h ▸ List.mem_cons_self)
    · exact .inr (List.mem_cons_of_mem g h)

end Insert

/-- The inodes with maps in a list of copies. -/
def inodesOf (copies : List (ℕ × ℕ)) : List (ℕ × JournalInode) := copies.flatMap e.copyInodes

/-- Where the copies of a descriptor block lead: all of them are harvested, or as many as it takes
to have inodes enough. -/
lemma takeCopies_spec (targets blocks : List ℕ) (out : List (ℕ × JournalInode)) :
    let copies := e.tableCopies (targets.zip blocks)
    e.takeCopies targets blocks out =
        ((e.inodesOf copies).foldl orInsert out, some (blocks.drop targets.length)) ∨
      ∃ n ≤ copies.length, e.takeCopies targets blocks out =
          ((e.inodesOf (copies.take n)).foldl orInsert out, none) ∧
        maxJournalInodes ≤ (e.takeCopies targets blocks out).1.length := by
  fun_induction takeCopies e targets blocks out with
  | case1 blocks out => exact .inl rfl
  | case2 target targets out =>
    refine .inl ?_
    rw [List.zip_nil_right, List.drop_nil]
    rfl
  | case3 target targets jb blocks out htable out' henough =>
    rw [List.zip_cons_cons, tableCopies, List.filter_cons, if_pos htable]
    refine .inr ⟨1, Nat.succ_le_succ (Nat.zero_le _), ?_, henough⟩
    rw [List.take_succ_cons, List.take_zero, inodesOf, List.flatMap_singleton]
  | case4 target targets jb blocks out htable out' _ ih =>
    have hcopies : e.tableCopies ((target, jb) :: targets.zip blocks) =
        (target, jb) :: e.tableCopies (targets.zip blocks) := by
      rw [tableCopies, List.filter_cons, if_pos htable]
      rfl
    have hfold : ∀ copies, (e.inodesOf ((target, jb) :: copies)).foldl orInsert out =
        (e.inodesOf copies).foldl orInsert out' := fun copies => by
      rw [inodesOf, List.flatMap_cons, List.foldl_append]
      rfl
    rw [List.zip_cons_cons, hcopies, List.length_cons, List.drop_succ_cons]
    dsimp only
    rw [hfold]
    obtain h | ⟨n, hn, h, henough⟩ := ih
    · exact .inl h
    · exact .inr ⟨n + 1, Nat.succ_le_succ hn, by rw [List.take_succ_cons, hfold, h], henough⟩
  | case5 target targets jb blocks out htable ih =>
    have hcopies : e.tableCopies ((target, jb) :: targets.zip blocks) =
        e.tableCopies (targets.zip blocks) := by
      rw [tableCopies, List.filter_cons, if_neg htable]
      rfl
    rw [List.zip_cons_cons, hcopies, List.length_cons, List.drop_succ_cons]
    exact ih

lemma inodesOf_append (copies more : List (ℕ × ℕ)) :
    e.inodesOf (copies ++ more) = e.inodesOf copies ++ e.inodesOf more := List.flatMap_append

lemma tableCopies_append (copies more : List (ℕ × ℕ)) :
    e.tableCopies (copies ++ more) = e.tableCopies copies ++ e.tableCopies more :=
  List.filter_append ..

/-- The journal from a block on: all copies that it announces, or as many as it takes. -/
lemma replay_spec (jIncompat : ℕ) (blocks : List ℕ) (out : List (ℕ × JournalInode)) :
    let copies := e.tableCopies (e.announced jIncompat blocks)
    ∃ n, e.replay jIncompat blocks out = (e.inodesOf (copies.take n)).foldl orInsert out ∧
      (n = copies.length ∨ maxJournalInodes ≤ (e.replay jIncompat blocks out).length) := by
  fun_induction replay e jIncompat blocks out with
  | case1 out => exact ⟨0, by rw [announced]; rfl, .inl (by rw [announced]; rfl)⟩
  | case2 out jb blocks hdesc found htake =>
    -- there are enough inodes, and the rest of the journal is left
    have hspec := e.takeCopies_spec (parseDescriptorTags jIncompat (e.readBlock jb)) blocks out
    dsimp only at hspec
    rw [htake] at hspec
    obtain h | ⟨n, hn, h, henough⟩ := hspec
    · exact absurd (congrArg Prod.snd h) (by simp)
    · refine ⟨n, ?_, .inr henough⟩
      rw [announced, if_pos hdesc, tableCopies_append, List.take_append_of_le_length hn]
      exact congrArg Prod.fst h
  | case3 out jb blocks hdesc found rest htake ih =>
    have hspec := e.takeCopies_spec (parseDescriptorTags jIncompat (e.readBlock jb)) blocks out
    dsimp only at hspec
    rw [htake] at hspec
    obtain h | ⟨n, -, h, -⟩ := hspec
    · obtain ⟨rfl, hrest⟩ := Prod.mk.inj h
      obtain rfl := Option.some.inj hrest
      obtain ⟨n, hreplay, hall⟩ := ih
      refine ⟨(e.tableCopies ((parseDescriptorTags jIncompat (e.readBlock jb)).zip
        blocks)).length + n, ?_, ?_⟩
      · rw [hreplay, announced, if_pos hdesc, tableCopies_append, List.take_length_add_append,
          inodesOf_append, List.foldl_append]
      · rw [announced, if_pos hdesc, tableCopies_append, List.length_append]
        exact hall.imp_left fun hn => by rw [hn]
    · exact absurd (congrArg Prod.snd h) (by simp)
  | case4 out jb blocks hdesc ih =>
    rw [announced, if_neg hdesc]
    exact ih

/-- An inode of a copy is read at a place to which the harvest gives its number, and has a map. -/
lemma mem_copyInodes {copy : ℕ × ℕ} {found : ℕ × JournalInode} (h : found ∈ e.copyInodes copy) :
    ∃ off, (off, found.1) ∈ e.sb.harvestSlots copy.1 ∧
      (getRange (e.readBlock copy.2) off e.sb.inodeSize).bind parseInodeBytes = some found.2 ∧
      0 < found.2.size ∧ found.2.mapEmpty = false := by
  obtain ⟨slot, hslot, hfound⟩ := List.mem_filterMap.1 h
  obtain ⟨inode, hread, hmap⟩ := Option.bind_eq_some_iff.1 hfound
  split at hmap
  · rename_i hsound
    obtain rfl := Option.some.inj hmap
    exact ⟨slot.1, hslot, hread, hsound⟩
  · cases hmap

/-- One place: what is inserted is what the harvest keeps. -/
lemma lookup_orInsert_mappedInode (blk : Bytes) (slot : ℕ × ℕ) (out : List (ℕ × JournalInode)) :
    (fun ino => (((e.mappedInode blk slot).toList).foldl orInsert out).lookup ino) =
      e.sb.harvestSlot blk (fun ino => out.lookup ino) slot := by
  unfold mappedInode Geometry.harvestSlot
  cases (getRange blk slot.1 e.sb.inodeSize).bind parseInodeBytes with
  | none => rfl
  | some inode =>
    rw [Option.bind_some]
    dsimp only
    by_cases hmap : 0 < inode.size ∧ inode.mapEmpty = false
    · rw [if_pos hmap]
      funext ino
      rw [Option.toList_some, lookup_foldl_orInsert, List.lookup_append]
      by_cases hnew : out.lookup slot.2 = none
      · rw [if_pos ⟨hmap.1, hmap.2, hnew⟩]
        by_cases hino : ino = slot.2
        · rw [if_pos hino, hino, hnew]
          simp
        · rw [if_neg hino, List.lookup_cons, beq_false_of_ne hino]
          simp
      · rw [if_neg fun h => hnew h.2.2]
        by_cases hino : ino = slot.2
        · obtain ⟨i, hi⟩ := Option.ne_none_iff_exists'.1 hnew
          rw [hino, hi]
          rfl
        · rw [List.lookup_cons, beq_false_of_ne hino]
          simp
    · rw [if_neg hmap, if_neg fun h => hmap ⟨h.1, h.2.1⟩]
      rfl

/-- A copy of a block is harvested as `harvest_inode_block` does it. -/
lemma lookup_copyInodes (copy : ℕ × ℕ) (out : List (ℕ × JournalInode)) :
    (fun ino => ((e.copyInodes copy).foldl orInsert out).lookup ino) =
      e.sb.harvestInodeBlock copy.1 (e.readBlock copy.2) fun ino => out.lookup ino := by
  rw [copyInodes, Geometry.harvestInodeBlock]
  generalize e.sb.harvestSlots copy.1 = slots
  induction slots generalizing out with
  | nil => rfl
  | cons slot slots ih =>
    rw [List.foldl_cons, ← e.lookup_orInsert_mappedInode, ← ih, List.filterMap_cons]
    cases e.mappedInode (e.readBlock copy.2) slot with
    | none => rfl
    | some found => rfl

/-- **Of several copies of an inode the first one in the journal counts**: what is recovered under a
number is what the first copy has that holds an inode with a map under it, of all copies that
descriptor blocks announce of blocks of inode tables, or of as many of them as it takes to have
inodes enough.  No number is recovered twice, and nothing that is not in such a copy. -/
theorem recoverFromJournal_exact :
    (∃ n, (∀ ino, e.recoverFromJournal.lookup ino =
        (e.inodesOf (e.volumeCopies.take n)).lookup ino) ∧
      (n = e.volumeCopies.length ∨ maxJournalInodes ≤ e.recoverFromJournal.length)) ∧
    (e.recoverFromJournal.map Prod.fst).Nodup ∧
    ∀ found ∈ e.recoverFromJournal, ∃ copy ∈ e.volumeCopies,
      ∃ off, (off, found.1) ∈ e.sb.harvestSlots copy.1 ∧
        (getRange (e.readBlock copy.2) off e.sb.inodeSize).bind parseInodeBytes = some found.2 ∧
        0 < found.2.size ∧ found.2.mapEmpty = false := by
  have hfold : ∃ n, e.recoverFromJournal =
      (e.inodesOf (e.volumeCopies.take n)).foldl orInsert [] ∧
        (n = e.volumeCopies.length ∨ maxJournalInodes ≤ e.recoverFromJournal.length) := by
    unfold recoverFromJournal volumeCopies
    cases e.journalFile with
    | nil => exact ⟨0, rfl, .inl rfl⟩
    | cons first blocks => exact e.replay_spec (e.journalIncompat first) (first :: blocks) []
  obtain ⟨n, hout, hall⟩ := hfold
  refine ⟨⟨n, fun ino => ?_, hall⟩, ?_, fun found hfound => ?_⟩
  · rw [hout, lookup_foldl_orInsert, List.nil_append]
  · rw [hout]
    exact nodup_foldl_orInsert List.nodup_nil
  · rw [hout] at hfound
    obtain hmem | hmem := mem_foldl_orInsert hfound
    · exact absurd hmem List.not_mem_nil
    · obtain ⟨copy, hcopy, hin⟩ := List.mem_flatMap.1 hmem
      exact ⟨copy, List.mem_of_mem_take hcopy, e.mem_copyInodes hin⟩

end Ext
end Reclaim
