import Reclaim.Foundation.Unicode
import Reclaim.Fs.ExtGeometry

/-!
# Directory blocks of ext volumes

The records of a directory block follow one another by their lengths.  A record is longer than its
entry where entries behind it were deleted, and what is left of these lies in its slack.
`parse_dir_block` returns the entries of the records, and looks for others in the slack of each.
-/

namespace Reclaim
namespace Ext

open FileBytes

/-- A directory entry, of a record or recovered from slack. -/
structure DirEntry where
  inode : ℕ
  name : String
  rawName : Bytes
  fileType : ℕ
  deleted : Bool
  deriving DecidableEq

/-- `round4`. -/
def round4 (n : ℕ) : ℕ := (n + 3) / 4 * 4

/-- `is_plausible_name`. -/
def isPlausibleName (name : Bytes) : Bool :=
  if name = [] ∨ name = [0x2E] ∨ name = [0x2E, 0x2E] then false
  else name.all fun c => 0x20 ≤ c ∧ c ≠ 0x2F ∧ c ≠ 0x7F

section Records

variable (block : Bytes) (p : ℕ)

/-- The inode number of the record at `p`; zero where it has no entry. -/
def recInode : ℕ := leU32 block p

/-- The length of the record at `p`. -/
def recLen : ℕ := leU16 block (p + 4)

/-- The length of the name in the record at `p`. -/
def nameLen : ℕ := (byteAt block (p + 6)).toNat

/-- The name in the record at `p`. -/
def nameAt : Bytes := (block.drop (p + 8)).take (nameLen block p)

/-- The record at `p` as an entry. -/
def entryAt (deleted : Bool) : DirEntry where
  inode := recInode block p
  name := Text.fromUtf8Lossy (nameAt block p)
  rawName := nameAt block p
  fileType := (byteAt block (p + 7)).toNat
  deleted := deleted

end Records

section Parser

variable (sb : Geometry) (block : Bytes)

/-- Something at `p` looks like a record that ends by `stop`. -/
def looksStale (stop p : ℕ) : Bool :=
  recInode block p ≠ 0 ∧ recInode block p ≤ sb.inodesCount ∧ 0 < nameLen block p ∧
    p + 8 + nameLen block p ≤ stop ∧ isPlausibleName (nameAt block p)

/-- The places of stale records from `p` on. -/
def staleFrom (stop : ℕ) : (fuel p : ℕ) → List ℕ
  | 0, _ => []
  | fuel + 1, p =>
    if p + 8 ≤ stop then
      if looksStale sb block stop p then
        p :: staleFrom stop fuel (round4 (p + 8 + nameLen block p))
      else staleFrom stop fuel (p + 4)
    else []

/-- `scan_slack`. -/
def scanSlack (start stop : ℕ) : List DirEntry :=
  let stop := min stop block.length
  (staleFrom sb block stop stop (round4 start)).map (entryAt block · true)

/-- The records from `pos` on. -/
def dirFrom : (guard pos : ℕ) → List DirEntry
  | 0, _ => []
  | guard + 1, pos =>
    if pos + 8 ≤ block.length then
      if recLen block pos < 8 ∨ block.length < pos + recLen block pos then []
      else
        (if recInode block pos ≠ 0 ∧ 0 < nameLen block pos ∧
            pos + 8 + nameLen block pos ≤ block.length then
          (if isPlausibleName (nameAt block pos) then [entryAt block pos false] else []) ++
            scanSlack sb block (pos + round4 (8 + nameLen block pos)) (pos + recLen block pos)
        else
          -- of a record without an entry, all is slack
          scanSlack sb block (pos + 8) (pos + recLen block pos)) ++
        dirFrom guard (pos + recLen block pos)
    else []

/-- `parse_dir_block`. -/
def parseDirBlock : List DirEntry := dirFrom sb block 100000 0

end Parser

/-! ## The chain of records -/

/-- From `pos` on, the records at the given places follow one another up to the end of the block:
each lies in the block and has room for its name. -/
inductive ChainFrom (block : Bytes) : ℕ → List ℕ → Prop
  | done {pos : ℕ} (h : block.length < pos + 8) : ChainFrom block pos []
  | record {pos : ℕ} {rest : List ℕ} (hlen : 8 ≤ recLen block pos)
      (hin : pos + recLen block pos ≤ block.length)
      (hname : recInode block pos ≠ 0 → 8 + nameLen block pos ≤ recLen block pos)
      (hrest : ChainFrom block (pos + recLen block pos) rest) : ChainFrom block pos (pos :: rest)

/-- The live entry of a record, if its name is not one of those that are passed over. -/
def liveAt (block : Bytes) (pos : ℕ) : Option DirEntry :=
  if recInode block pos ≠ 0 ∧ isPlausibleName (nameAt block pos) then some (entryAt block pos false)
  else none

/-- Where the slack of a record begins. -/
def slackStart (block : Bytes) (pos : ℕ) : ℕ :=
  pos + if recInode block pos ≠ 0 then round4 (8 + nameLen block pos) else 8

/-- A record image at `p` lies in the slack of the record at `pos`. -/
def InSlack (block : Bytes) (pos p : ℕ) : Prop :=
  slackStart block pos ≤ p ∧ p + 8 + nameLen block p ≤ pos + recLen block pos

section Chain

variable {sb : Geometry} {block : Bytes}

lemma le_round4 (n : ℕ) : n ≤ round4 n := by
  unfold round4
  omega

/-- The places that a scan finds: in order, each a record that ends before the next. -/
lemma staleFrom_spec (sb : Geometry) (block : Bytes) (stop fuel : ℕ) : ∀ p,
    (staleFrom sb block stop fuel p).Pairwise (· < ·) ∧
      ∀ q ∈ staleFrom sb block stop fuel p, p ≤ q ∧ q + 8 + nameLen block q ≤ stop := by
  induction fuel with
  | zero => exact fun _ => ⟨List.Pairwise.nil, fun q hq => absurd hq List.not_mem_nil⟩
  | succ fuel ih =>
    intro p
    rw [staleFrom]
    split
    · split
      · rename_i hstale
        obtain ⟨hsorted, hbounds⟩ := ih (round4 (p + 8 + nameLen block p))
        have hnext := le_round4 (p + 8 + nameLen block p)
        have hfits : p + 8 + nameLen block p ≤ stop := (of_decide_eq_true hstale).2.2.2.1
        refine ⟨List.pairwise_cons.2 ⟨fun q hq => ?_, hsorted⟩, fun q hq => ?_⟩
        · have := (hbounds q hq).1
          omega
        · obtain rfl | hq := List.mem_cons.1 hq
          · exact ⟨le_rfl, hfits⟩
          · have := hbounds q hq
            omega
      · obtain ⟨hsorted, hbounds⟩ := ih (p + 4)
        refine ⟨hsorted, fun q hq => ?_⟩
        have := hbounds q hq
        omega
    · exact ⟨List.Pairwise.nil, fun q hq => absurd hq List.not_mem_nil⟩

/-- The fuel of a scan is enough: from `p` on there are fewer steps than bytes. -/
lemma staleFrom_fuel (stop : ℕ) (fuel : ℕ) : ∀ p more, stop ≤ fuel + p →
    staleFrom sb block stop (fuel + more) p = staleFrom sb block stop fuel p := by
  induction fuel with
  | zero =>
    intro p more h
    cases more with
    | zero => rfl
    | succ more => rw [Nat.zero_add, staleFrom, staleFrom, if_neg (by omega)]
  | succ fuel ih =>
    intro p more h
    have hnext := le_round4 (p + 8 + nameLen block p)
    rw [Nat.succ_add, staleFrom, staleFrom, ih _ more (by omega), ih _ more (by omega)]

lemma scanSlack_spec (sb : Geometry) (start : ℕ) {stop : ℕ} (h : stop ≤ block.length) :
    ∃ stale : List ℕ, scanSlack sb block start stop = stale.map (entryAt block · true) ∧
      stale.Pairwise (· < ·) ∧ ∀ q ∈ stale, start ≤ q ∧ q + 8 + nameLen block q ≤ stop := by
  obtain ⟨hsorted, hbounds⟩ := staleFrom_spec sb block stop stop (round4 start)
  have hround := le_round4 start
  refine ⟨_, by rw [scanSlack, min_eq_left h], hsorted, fun q hq => ?_⟩
  have := hbounds q hq
  omega

/-- A record of the chain contributes its live entry and what lies in its slack. -/
lemma dirFrom_record {guard pos : ℕ} (hlen : 8 ≤ recLen block pos)
    (hin : pos + recLen block pos ≤ block.length)
    (hname : recInode block pos ≠ 0 → 8 + nameLen block pos ≤ recLen block pos) :
    dirFrom sb block (guard + 1) pos = (liveAt block pos).toList ++
      scanSlack sb block (slackStart block pos) (pos + recLen block pos) ++
        dirFrom sb block guard (pos + recLen block pos) := by
  rw [dirFrom, if_pos (by omega), if_neg (by omega), liveAt, slackStart]
  congr 1
  by_cases hinode : recInode block pos = 0
  · simp [hinode]
  · have hfits := hname hinode
    by_cases hempty : nameLen block pos = 0
    · have hnone : nameAt block pos = [] := by rw [nameAt, hempty, List.take_zero]
      simp [hinode, hempty, hnone, isPlausibleName, round4]
    · rw [if_pos ⟨hinode, by omega, by omega⟩]
      by_cases hplausible : isPlausibleName (nameAt block pos) = true
      · simp [hinode, hplausible]
      · simp [hinode, hplausible]

lemma ChainFrom.le {pos : ℕ} {ps : List ℕ} (h : ChainFrom block pos ps) : ∀ p ∈ ps, pos ≤ p := by
  induction h with
  | done _ => exact fun p hp => absurd hp List.not_mem_nil
  | @record pos rest hlen _ _ _ ih =>
    intro p hp
    obtain rfl | hp := List.mem_cons.1 hp
    · exact le_rfl
    · have := ih p hp
      omega

lemma InSlack.lt {pos p : ℕ} (h : InSlack block pos p) :
    pos < p ∧ p < pos + recLen block pos := by
  obtain ⟨hstart, hstop⟩ := h
  have hround := le_round4 (8 + nameLen block pos)
  unfold slackStart at hstart
  split at hstart <;> omega

/-- No record of the chain lies in the slack of another. -/
lemma ChainFrom.not_mem {pos : ℕ} {ps : List ℕ} (h : ChainFrom block pos ps) :
    ∀ p ∈ ps, ∀ q, InSlack block p q → q ∉ ps := by
  induction h with
  | done _ => exact fun p hp => absurd hp List.not_mem_nil
  | @record pos rest hlen hin hname hrest ih =>
    intro p hp q hslack hq
    have hlt := hslack.lt
    have hafter := hrest.le
    obtain hp | hp := List.mem_cons.1 hp
    · obtain hq | hq := List.mem_cons.1 hq
      · omega
      · have := hafter q hq
        rw [hp] at hlt
        omega
    · obtain hq | hq := List.mem_cons.1 hq
      · have := hafter p hp
        omega
      · exact ih p hp q hslack hq

lemma liveAt_deleted {pos : ℕ} {e : DirEntry} (h : e ∈ liveAt block pos) : e.deleted = false := by
  unfold liveAt at h
  split at h
  · rw [← Option.some.inj h]
    rfl
  · cases h

lemma filter_liveAt (block : Bytes) (pos : ℕ) :
    (liveAt block pos).toList.filter (fun e => !e.deleted) = (liveAt block pos).toList ∧
      (liveAt block pos).toList.filter (·.deleted) = [] := by
  constructor
  · refine List.filter_eq_self.2 fun e he => ?_
    rw [liveAt_deleted (Option.mem_toList.1 he)]
    rfl
  · refine List.filter_eq_nil_iff.2 fun e he => ?_
    rw [liveAt_deleted (Option.mem_toList.1 he)]
    exact Bool.false_ne_true

lemma filter_stale (block : Bytes) (stale : List ℕ) :
    (stale.map (entryAt block · true)).filter (fun e => !e.deleted) = [] ∧
      (stale.map (entryAt block · true)).filter (·.deleted) = stale.map (entryAt block · true) :=
  ⟨List.filter_eq_nil_iff.2 (List.forall_mem_map.2 fun _ _ => Bool.false_ne_true),
    List.filter_eq_self.2 (List.forall_mem_map.2 fun _ _ => rfl)⟩

/-- A chain is read to its end: its live entries, and between them what lies in the slack. -/
lemma dirFrom_chain (sb : Geometry) {pos : ℕ} {ps : List ℕ} (h : ChainFrom block pos ps) :
    ∀ guard, block.length < pos + 8 * (guard + 1) →
      (dirFrom sb block guard pos).filter (fun e => !e.deleted) = ps.filterMap (liveAt block) ∧
        ∃ stale : List ℕ, stale.Pairwise (· < ·) ∧
          (dirFrom sb block guard pos).filter (·.deleted) = stale.map (entryAt block · true) ∧
            ∀ q ∈ stale, ∃ p ∈ ps, InSlack block p q := by
  induction h with
  | @done pos hend =>
    intro guard _
    have hnil : dirFrom sb block guard pos = [] := by
      cases guard with
      | zero => rfl
      | succ guard => rw [dirFrom, if_neg (by omega)]
    rw [hnil]
    exact ⟨rfl, [], List.Pairwise.nil, rfl, fun q hq => absurd hq List.not_mem_nil⟩
  | @record pos rest hlen hin hname hrest ih =>
    intro guard hguard
    obtain ⟨guard, rfl⟩ : ∃ g, guard = g + 1 := ⟨guard - 1, by omega⟩
    obtain ⟨hlive, later, hsorted, hdeleted, hlater⟩ := ih guard (by omega)
    obtain ⟨stale, hscan, hstale, hslack⟩ := scanSlack_spec sb (slackStart block pos) hin
    have hhere : ∀ q ∈ stale, InSlack block pos q := fun q hq => hslack q hq
    obtain ⟨hentry, hnone⟩ := filter_liveAt block pos
    obtain ⟨hno, hall⟩ := filter_stale block stale
    rw [dirFrom_record hlen hin hname, hscan]
    refine ⟨?_, stale ++ later, ?_, ?_, ?_⟩
    · rw [List.filter_append, List.filter_append, hentry, hno, hlive, List.append_nil]
      cases hl : liveAt block pos <;> simp [hl]
    · refine List.pairwise_append.2 ⟨hstale, hsorted, fun q hq r hr => ?_⟩
      obtain ⟨p, hp, hin'⟩ := hlater r hr
      have := (hhere q hq).lt
      have := hin'.lt
      have := hrest.le p hp
      omega
    · rw [List.filter_append, List.filter_append, hnone, hall, hdeleted, List.nil_append,
        List.map_append]
    · intro q hq
      obtain hq | hq := List.mem_append.1 hq
      · exact ⟨pos, List.mem_cons_self, hhere q hq⟩
      · obtain ⟨p, hp, hin'⟩ := hlater q hq
        exact ⟨p, List.mem_cons_of_mem _ hp, hin'⟩

/-- The live entries come out once each, in the order of the chain.  Every deleted one is a record
image wholly inside the slack of a record, no two from one place and none from a place of the
chain. -/
theorem parseDirBlock_exact (sb : Geometry) (hsb : sb.Accepted) (block : Bytes)
    (hblock : block.length ≤ sb.blockSize) (ps : List ℕ) (h : ChainFrom block 0 ps) :
    (parseDirBlock sb block).filter (fun e => !e.deleted) = ps.filterMap (liveAt block) ∧
      ∃ stale : List ℕ, stale.Pairwise (· < ·) ∧
        (parseDirBlock sb block).filter (·.deleted) = stale.map (entryAt block · true) ∧
          ∀ q ∈ stale, q ∉ ps ∧ ∃ pos ∈ ps, InSlack block pos q := by
  have hsize := (Geometry.blockSize_le_of_accepted hsb).2
  obtain ⟨hlive, stale, hsorted, hdeleted, hslack⟩ := dirFrom_chain sb h 100000 (by omega)
  refine ⟨hlive, stale, hsorted, hdeleted, fun q hq => ?_⟩
  obtain ⟨pos, hpos, hin⟩ := hslack q hq
  exact ⟨h.not_mem pos hpos q hin, pos, hpos, hin⟩

end Chain

/-! ## Samples -/

/-- A directory block with the records `.` and `a`, and behind the second an older copy of it. -/
def staleCopy : Bytes :=
  [2, 0, 0, 0, 12, 0, 1, 2, 0x2E, 0, 0, 0, 12, 0, 0, 0, 0xF4, 3, 1, 1, 0x61, 0, 0, 0,
    12, 0, 0, 0, 12, 0, 1, 1, 0x61, 0, 0, 0] ++ List.replicate 988 0

/-- The geometry of a volume with sixteen inodes. -/
def sixteenInodes : Geometry := { smallGeometry 16 with inodesCount := 16 }

lemma sixteenInodes_accepted : sixteenInodes.Accepted where
  blockSize := ⟨0, by omega, rfl⟩
  inodeSize_ge := le_rfl
  inodeSize_lt := by norm_num [sixteenInodes, smallGeometry]
  inodesPerGroup_pos := by norm_num [sixteenInodes, smallGeometry]
  inodesPerGroup_lt := by norm_num [sixteenInodes, smallGeometry]
  groups_ne := List.cons_ne_nil _ _
  groups_le := by norm_num [sixteenInodes, smallGeometry]

set_option maxRecDepth 20000 in
lemma staleCopy_chain : ChainFrom staleCopy 0 [0, 12] :=
  .record (by decide) (by decide) (fun _ => by decide)
    (.record (by decide) (by decide) (fun _ => by decide) (.done (by decide)))

set_option maxRecDepth 20000 in
/-- One copy lies in the slack of the second record. -/
theorem staleCopy_exact :
    (parseDirBlock sixteenInodes staleCopy).filter (fun e => !e.deleted) =
        [0, 12].filterMap (liveAt staleCopy) ∧
      ∃ stale : List ℕ, stale.Pairwise (· < ·) ∧
        (parseDirBlock sixteenInodes staleCopy).filter (·.deleted) =
          stale.map (entryAt staleCopy · true) ∧
          ∀ q ∈ stale, q ∉ [0, 12] ∧ ∃ pos ∈ [0, 12], InSlack staleCopy pos q :=
  parseDirBlock_exact sixteenInodes sixteenInodes_accepted staleCopy (by decide) [0, 12]
    staleCopy_chain

/-- Nothing is found where the bytes are zero. -/
lemma staleFrom_zeros {sb : Geometry} {head : Bytes} {n stop : ℕ} (fuel : ℕ) :
    ∀ p, head.length ≤ p → staleFrom sb (head ++ List.replicate n 0) stop fuel p = [] := by
  induction fuel with
  | zero => exact fun _ _ => rfl
  | succ fuel ih =>
    intro p hp
    have hinode : recInode (head ++ List.replicate n 0) p = 0 := by
      unfold recInode leU32 leField
      split
      · rw [List.drop_append, List.drop_eq_nil_of_le hp, List.nil_append, List.drop_replicate,
          List.take_replicate]
        generalize min 4 _ = k
        induction k with
        | zero => rfl
        | succ k ihk =>
          rw [List.replicate_succ]
          show 0 + 256 * leValue (List.replicate k 0) = 0
          rw [ihk]
      · rfl
    have hno : looksStale sb (head ++ List.replicate n 0) stop p = false :=
      decide_eq_false fun h => h.1 hinode
    rw [staleFrom, hno, if_neg Bool.false_ne_true, ih _ (by omega), ite_self]

set_option maxRecDepth 20000 in
/-- The live `.` is not returned, and the older copy of `a` is, as a deleted entry. -/
theorem parseDirBlock_counterexample :
    ChainFrom staleCopy 0 [0, 12] ∧ recInode staleCopy 0 = 2 ∧ nameAt staleCopy 0 = [0x2E] ∧
      recInode staleCopy 24 = recInode staleCopy 12 ∧ nameAt staleCopy 24 = nameAt staleCopy 12 ∧
        parseDirBlock sixteenInodes staleCopy =
          [entryAt staleCopy 12 false, entryAt staleCopy 24 true] := by
  refine ⟨staleCopy_chain, rfl, rfl, rfl, rfl, ?_⟩
  have hfirst : scanSlack sixteenInodes staleCopy 12 12 = [] := rfl
  have hsecond : scanSlack sixteenInodes staleCopy 24 1024 = [entryAt staleCopy 24 true] := by
    have hcopy : looksStale sixteenInodes staleCopy 1024 24 = true := rfl
    have hstop : min 1024 staleCopy.length = 1024 := by decide
    rw [scanSlack, hstop]
    show (staleFrom sixteenInodes staleCopy 1024 1024 24).map _ = _
    rw [staleFrom, if_pos (by norm_num), if_pos hcopy]
    exact congrArg (List.map _) (congrArg _ (staleFrom_zeros _ _ (by decide)))
  have hend : dirFrom sixteenInodes staleCopy 99998 1024 = [] := rfl
  have hlive : liveAt staleCopy 0 = none ∧
      liveAt staleCopy 12 = some (entryAt staleCopy 12 false) := ⟨rfl, rfl⟩
  have hdot : parseDirBlock sixteenInodes staleCopy = (liveAt staleCopy 0).toList ++
      scanSlack sixteenInodes staleCopy 12 12 ++ dirFrom sixteenInodes staleCopy 99999 12 :=
    dirFrom_record (by decide) (by decide) fun _ => by decide
  have ha : dirFrom sixteenInodes staleCopy 99999 12 = (liveAt staleCopy 12).toList ++
      scanSlack sixteenInodes staleCopy 24 1024 ++ dirFrom sixteenInodes staleCopy 99998 1024 :=
    dirFrom_record (by decide) (by decide) fun _ => by decide
  rw [hdot, ha, hlive.1, hlive.2, hfirst, hsecond, hend]
  rfl

end Ext
end Reclaim
