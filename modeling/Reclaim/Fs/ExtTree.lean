import Reclaim.Foundation.Fields
import Reclaim.Fs.ExtMap

/-!
# What collecting an extent tree costs

Any bytes may stand where a node of an extent tree is looked for, and its entries may name any
block, one of those above it too.  A budget bounds the nodes that are gone into.  But the block of a
node is read before the budget is looked at, and so are the blocks of all entries that are left when
the budget is used up.
-/

namespace Reclaim
namespace Ext

open FileBytes FileMap

/-- What is collected, with how many blocks of nodes have been read. -/
structure Counted extends Collect where
  reads : ℕ

namespace Counted

variable (c : Counted)

/-- A node is gone into. -/
def spend : Counted := { c with budget := c.budget - 1 }

/-- Blocks more, unless there are too many already. -/
def pushAll (l : List (ℕ × ℕ)) : Counted :=
  { c with toCollect := l.foldl Collect.push c.toCollect }

/-- `k` reads more. -/
def addReads (k : ℕ) : Counted := { c with reads := c.reads + k }

end Counted

variable (read : ℕ → ℕ → Bytes) (sb : Superblock)

/-- `collect_extent_tree` with a counter of the blocks it reads. -/
def collectCounting : ℕ → Bytes → Counted → Counted
  | 0, _, c => c
  | guard + 1, node, c =>
    if maxFileBlocks < c.out.length ∨ c.budget = 0 then c
    else
      let c := c.spend
      if leU16 node 0 ≠ extentMagic then c
      else if leU16 node 4 < leU16 node 2 ∨ (node.length - 12) / 12 < leU16 node 4 then c
      else
        (nodeEntries node).foldl
          (fun c i =>
            if leU16 node 6 = 0 then c.pushAll (leafBlocks node i)
            else
              collectCounting guard
                (read (saturatingMul (childBlock node i) sb.blockSize) sb.blockSize)
                (c.addReads 1)) c

/-- **The counter changes nothing.** -/
lemma toCollect_collectCounting (guard : ℕ) : ∀ node (c : Counted),
    (collectCounting read sb guard node c).toCollect =
      collectExtentTree read sb guard node c.toCollect := by
  induction guard with
  | zero => exact fun _ _ => rfl
  | succ guard ih =>
    intro node c
    rw [collectCounting, collectExtentTree]
    dsimp only
    split
    · rfl
    · split
      · rfl
      · split
        · rfl
        · refine (List.foldl_hom Counted.toCollect fun c i => ?_).symm
          split
          · rfl
          · exact (ih (read (saturatingMul (childBlock node i) sb.blockSize) sb.blockSize)
              (c.addReads 1)).symm

/-! ## The nodes that can be gone into -/

/-- The header of a node passes the checks. -/
def HeaderSound (node : Bytes) : Prop :=
  leU16 node 0 = extentMagic ∧ leU16 node 2 ≤ leU16 node 4 ∧
    leU16 node 4 ≤ (node.length - 12) / 12

instance (node : Bytes) : Decidable (HeaderSound node) := inferInstanceAs (Decidable (_ ∧ _))

/-- The entries of an index node that name further nodes. -/
def indexEntries (node : Bytes) : List ℕ :=
  if HeaderSound node ∧ leU16 node 6 ≠ 0 then nodeEntries node else []

/-- The blocks that a leaf lists. -/
def listedBlocks (node : Bytes) : List (ℕ × ℕ) :=
  if HeaderSound node ∧ leU16 node 6 = 0 then (nodeEntries node).flatMap (leafBlocks node) else []

/-- The nodes of `levels` levels in preorder, a node once for each way to it. -/
def graphNodes : ℕ → Bytes → List Bytes
  | 0, _ => []
  | levels + 1, node =>
    node :: (indexEntries node).flatMap fun i => graphNodes levels (child read sb node i)

variable {read sb}

/-- The counters of a walk over the nodes `N`: they are listed within the budget, and if no block
had to be left out, each index node that was gone into has had the blocks of its entries read. -/
structure Costs (c : Counted) (N : List Bytes) (c' : Counted) : Prop where
  visits : Visits c.budget c.out (N.map listedBlocks) c'.budget c'.out
  reads : c'.out.length ≤ maxFileBlocks →
    c'.reads = c.reads + ((N.take c.budget).map fun n => (indexEntries n).length).sum

lemma Costs.of_capped {c : Counted} {N : List Bytes} (hc : c.out.length ≤ maxFileBlocks + 1)
    (h : maxFileBlocks < c.out.length ∨ c.budget = 0) : Costs c N c := by
  refine ⟨visits_of_capped hc h, fun hle => ?_⟩
  obtain h | h := h
  · omega
  · rw [h, List.take_zero]
    rfl

lemma Costs.append {c c' c'' : Counted} {N N' : List Bytes} (h : Costs c N c')
    (h' : Costs c' N' c'') : Costs c (N ++ N') c'' := by
  refine ⟨?_, fun hle => ?_⟩
  · rw [List.map_append]
    exact h.visits.append h'.visits
  · have hmid : c'.out.length ≤ maxFileBlocks := by
      have hout := h'.visits.out
      have hmore : c'.out.length ≤ maxFileBlocks + 1 := h.visits.length_le
      rw [hout, List.length_take, List.length_append] at hle
      omega
    have hbudget := h.visits.budget hmid
    rw [List.length_map] at hbudget
    rw [h'.reads hle, h.reads hmid, hbudget, List.take_append, List.map_append, List.sum_append,
      Nat.add_assoc]

lemma Costs.addReads {c c' : Counted} {N : List Bytes} (h : Costs c N c') (k : ℕ) :
    Costs (c.addReads k) N (c'.addReads k) := by
  refine ⟨h.visits, fun hle => ?_⟩
  show c'.reads + k = c.reads + k + _
  rw [h.reads hle, Nat.add_right_comm]
  rfl

/-- A loop whose step reads a block and goes into it. -/
lemma costs_foldl {f : Counted → ℕ → Counted} {N : ℕ → List Bytes} (l : List ℕ)
    (hf : ∀ i ∈ l, ∀ c : Counted, c.out.length ≤ maxFileBlocks + 1 →
      Costs (c.addReads 1) (N i) (f c i)) :
    ∀ c : Counted, c.out.length ≤ maxFileBlocks + 1 →
      Costs (c.addReads l.length) (l.flatMap N) (l.foldl f c) := by
  induction l with
  | nil =>
    intro c hc
    refine ⟨Visits.nil hc, fun _ => ?_⟩
    rw [List.flatMap_nil, List.take_nil]
    rfl
  | cons i l ih =>
    intro c hc
    have hstep := hf i List.mem_cons_self c hc
    have hfirst : Costs (c.addReads (l.length + 1)) (N i) ((f c i).addReads l.length) := by
      have hmore := hstep.addReads l.length
      unfold Counted.addReads at hmore ⊢
      rwa [Nat.add_assoc, Nat.add_comm 1] at hmore
    rw [List.flatMap_cons, List.foldl_cons, List.length_cons]
    exact hfirst.append (ih (fun j hj => hf j (List.mem_cons_of_mem _ hj)) _ hstep.visits.length_le)

/-- A node that lists no blocks is paid for, and the blocks of its entries are read. -/
lemma costs_cons {c c' : Counted} {node : Bytes} {N : List Bytes} (hbudget : c.budget ≠ 0)
    (hnone : listedBlocks node = [])
    (h : Costs (c.spend.addReads (indexEntries node).length) N c') :
    Costs c (node :: N) c' := by
  obtain ⟨b, hb⟩ := Nat.exists_eq_succ_of_ne_zero hbudget
  refine ⟨?_, fun hle => ?_⟩
  · rw [List.map_cons, hnone]
    exact Visits.cons_nil hbudget h.visits
  · have hreads := h.reads hle
    unfold Counted.addReads Counted.spend at hreads
    dsimp only at hreads
    rw [hreads, hb, Nat.succ_sub_one, List.take_succ_cons, List.map_cons, List.sum_cons,
      Nat.add_assoc]

/-- A leaf is paid for, and its blocks are listed. -/
lemma costs_leaf {c : Counted} {node : Bytes} (hc : c.out.length ≤ maxFileBlocks + 1)
    (hbudget : c.budget ≠ 0) (hleaf : leU16 node 6 = 0) (hsound : HeaderSound node) :
    Costs c [node]
      ((nodeEntries node).foldl (fun c i => c.pushAll (leafBlocks node i)) c.spend) := by
  have hfold : ∀ (l : List ℕ) (c : Counted),
      l.foldl (fun c i => c.pushAll (leafBlocks node i)) c =
        c.pushAll (l.flatMap (leafBlocks node)) := by
    intro l
    induction l with
    | nil => exact fun _ => rfl
    | cons i l ih =>
      intro c
      rw [List.foldl_cons, ih, List.flatMap_cons, Counted.pushAll, Counted.pushAll,
        Counted.pushAll, List.foldl_append]
  have hblocks : listedBlocks node = (nodeEntries node).flatMap (leafBlocks node) :=
    if_pos ⟨hsound, hleaf⟩
  have hentries : indexEntries node = [] := if_neg fun h => h.2 hleaf
  obtain ⟨hbud, hout⟩ := foldl_push ((nodeEntries node).flatMap (leafBlocks node))
    ⟨c.budget - 1, c.out⟩ hc
  have htake : ∀ {α : Type} (x : α), [x].take c.budget = [x] := fun x =>
    List.take_of_length_le (by rw [List.length_singleton]; omega)
  rw [hfold]
  refine ⟨⟨?_, fun _ => ?_⟩, fun _ => ?_⟩
  · rw [List.map_singleton, hblocks, htake, List.flatten_singleton]
    exact hout
  · rw [List.map_singleton, List.length_singleton]
    exact hbud
  · rw [htake, List.map_singleton, hentries]
    rfl

variable (read sb) in
/-- **What going into a node costs.** -/
theorem costs_collectCounting (levels : ℕ) : ∀ node (c : Counted),
    c.out.length ≤ maxFileBlocks + 1 →
      Costs c (graphNodes read sb levels node) (collectCounting read sb levels node c) := by
  induction levels with
  | zero =>
    intro node c hc
    refine ⟨Visits.nil hc, fun _ => ?_⟩
    rw [graphNodes, List.take_nil]
    rfl
  | succ levels ih =>
    intro node c hc
    by_cases hcap : maxFileBlocks < c.out.length ∨ c.budget = 0
    · have hstay : collectCounting read sb (levels + 1) node c = c := by
        rw [collectCounting, if_pos hcap]
      rw [hstay]
      exact Costs.of_capped hc hcap
    obtain ⟨-, hbudget⟩ := not_or.1 hcap
    by_cases hsound : HeaderSound node
    · have hsat : ∀ i, saturatingMul (childBlock node i) sb.blockSize =
          childBlock node i * sb.blockSize := fun i =>
        saturatingMul_of_le (mul_blockSize_le sb (block48_lt ..))
      have hchecks : ¬ (leU16 node 4 < leU16 node 2 ∨ (node.length - 12) / 12 < leU16 node 4) := by
        have := hsound.2
        omega
      rw [graphNodes, collectCounting, if_neg hcap]
      dsimp only
      rw [if_neg (not_not.2 hsound.1), if_neg hchecks]
      by_cases hleaf : leU16 node 6 = 0
      · have hentries : indexEntries node = [] := if_neg fun h => h.2 hleaf
        simp only [hleaf, if_true, hentries, List.flatMap_nil]
        exact costs_leaf hc hbudget hleaf hsound
      · have hentries : indexEntries node = nodeEntries node := if_pos ⟨hsound, hleaf⟩
        have hnone : listedBlocks node = [] := if_neg fun h => hleaf h.2
        apply costs_cons hbudget hnone
        simp only [hleaf, if_false, hentries, hsat]
        apply costs_foldl _ _ c.spend hc
        intro i _ c' hc'
        exact ih _ (c'.addReads 1) hc'
    · have hentries : indexEntries node = [] := if_neg fun h => hsound h.1
      have hnone : listedBlocks node = [] := if_neg fun h => hsound h.1
      have hstop : collectCounting read sb (levels + 1) node c = c.spend := by
        rw [collectCounting, if_neg hcap]
        dsimp only
        split
        · rfl
        · rename_i hmagic
          split
          · rfl
          · rename_i hchecks
            exact absurd ⟨not_not.1 hmagic, by omega, by omega⟩ hsound
      rw [graphNodes, hentries, List.flatMap_nil, hstop]
      apply costs_cons hbudget hnone
      rw [hentries]
      refine ⟨Visits.nil hc, fun _ => ?_⟩
      rw [List.take_nil]
      rfl

/-! ## The budgets of a file -/

section Budgets

variable (read : ℕ → ℕ → Bytes) (sb : Superblock) (node : Bytes)

/-- What `Inode::extents` has collected from the tree in an inode, with what it has read. -/
def treeCollected : Counted :=
  collectCounting read sb (maxExtentDepth + 1) node ⟨⟨maxMapNodes, []⟩, 0⟩

/-- The nodes that the budget is enough for, down to the depth of the format. -/
def firstNodes : List Bytes := (graphNodes read sb (maxExtentDepth + 1) node).take maxMapNodes

/-- No more nodes are read, and no more blocks collected, than the caps on them say. -/
def WithinBudgets : Prop :=
  (treeCollected read sb node).reads ≤ maxMapNodes ∧
    (treeCollected read sb node).out.length ≤ maxFileBlocks

/-- A tree as the format has it, within the caps, is collected extent by extent: each block of a
leaf extent, written or not, once, with its logical and its physical number. -/
def CollectsTrees : Prop :=
  ∀ depth ≤ maxExtentDepth, WellFormed read sb depth node →
    (treeNodes read sb depth node).length ≤ maxMapNodes →
    (treeNodes read sb depth node).flatten.length ≤ maxFileBlocks →
      (treeCollected read sb node).out = (treeNodes read sb depth node).flatten.map MappedBlock.pair

lemma withinBudgets_iff : WithinBudgets read sb node ↔
    ((firstNodes read sb node).flatMap listedBlocks).length ≤ maxFileBlocks ∧
      ((firstNodes read sb node).map fun n => (indexEntries n).length).sum ≤ maxMapNodes := by
  have hcosts := costs_collectCounting read sb (maxExtentDepth + 1) node ⟨⟨maxMapNodes, []⟩, 0⟩
    (Nat.zero_le _)
  have hout : (treeCollected read sb node).out =
      ((firstNodes read sb node).flatMap listedBlocks).take (maxFileBlocks + 1) := by
    have hvisits := hcosts.visits.out
    rw [List.nil_append, ← List.map_take] at hvisits
    rw [List.flatMap_def]
    exact hvisits
  have hreads : (treeCollected read sb node).out.length ≤ maxFileBlocks →
      (treeCollected read sb node).reads =
        ((firstNodes read sb node).map fun n => (indexEntries n).length).sum := by
    intro hle
    have hread := hcosts.reads hle
    rwa [Nat.zero_add] at hread
  have hlen : (treeCollected read sb node).out.length ≤ maxFileBlocks ↔
      ((firstNodes read sb node).flatMap listedBlocks).length ≤ maxFileBlocks := by
    rw [hout, List.length_take]
    omega
  unfold WithinBudgets
  constructor
  · rintro ⟨hr, hb⟩
    exact ⟨hlen.1 hb, hreads hb ▸ hr⟩
  · rintro ⟨hb, hr⟩
    exact ⟨(hreads (hlen.2 hb)).symm ▸ hr, hlen.2 hb⟩

lemma collectsTrees : CollectsTrees read sb node := by
  intro depth hdepth hwf hnodes hblocks
  have hvisits := (visits_collectExtentTree depth (maxExtentDepth + 1) (by omega) node hwf
    ⟨maxMapNodes, []⟩ (Nat.zero_le _)).out
  have hsame : (treeCollected read sb node).out =
      (collectExtentTree read sb (maxExtentDepth + 1) node ⟨maxMapNodes, []⟩).out :=
    congrArg Collect.out (toCollect_collectCounting read sb (maxExtentDepth + 1) node _)
  have htake : (pairs (treeNodes read sb depth node)).take maxMapNodes =
      pairs (treeNodes read sb depth node) :=
    List.take_of_length_le (by rw [pairs, List.length_map]; exact hnodes)
  have hflat : (pairs (treeNodes read sb depth node)).flatten =
      (treeNodes read sb depth node).flatten.map MappedBlock.pair := (List.map_flatten ..).symm
  rw [hsame, hvisits, List.nil_append, htake, hflat,
    List.take_of_length_le (by rw [List.length_map]; omega)]

end Budgets

/-- **Collecting an extent tree keeps to its budgets** exactly if the first nodes have no more
entries than nodes may be read, and list no more blocks than may be collected; trees that are within
them are collected extent by extent. -/
theorem extentTree_iff (read : ℕ → ℕ → Bytes) (sb : Superblock) (node : Bytes) :
    WithinBudgets read sb node ∧ CollectsTrees read sb node ↔
      ((firstNodes read sb node).flatMap listedBlocks).length ≤ maxFileBlocks ∧
        ((firstNodes read sb node).map fun n => (indexEntries n).length).sum ≤ maxMapNodes := by
  rw [withinBudgets_iff]
  exact and_iff_left (collectsTrees read sb node)

/-- An index node of `entries` entries with space for `max`, and what follows these numbers. -/
def indexNode (entries max : ℕ) (rest : Bytes) : Bytes :=
  [leBytes 2 extentMagic, leBytes 2 entries, leBytes 2 max, leBytes 2 1].flatten ++ rest

lemma indexEntries_indexNode {entries max : ℕ} {rest : Bytes} (hle : entries ≤ max)
    (hmax : max < 256 ^ 2) (hrest : max * 12 + 4 ≤ rest.length) :
    indexEntries (indexNode entries max rest) = List.range entries := by
  have hentries : leU16 (indexNode entries max rest) 2 = entries :=
    leField_parts 1 rfl rfl (by omega)
  have hlevel : leU16 (indexNode entries max rest) 6 = 1 := leField_parts 3 rfl rfl (by norm_num)
  have hok : HeaderOk (indexNode entries max rest) 1 := by
    have hspace : leU16 (indexNode entries max rest) 4 = max := leField_parts 2 rfl rfl hmax
    have hlength : (indexNode entries max rest).length = 8 + rest.length := by
      rw [indexNode, List.length_append]
      rfl
    refine ⟨leField_parts 0 rfl rfl (by decide), ?_, ?_, hlevel⟩
    · rw [hentries, hspace]
      exact hle
    · rw [hspace, hlength]
      omega
  have hsound : HeaderSound (indexNode entries max rest) := ⟨hok.magic, hok.entries_le, hok.max_le⟩
  rw [indexEntries, if_pos ⟨hsound, by omega⟩, hok.nodeEntries, hentries]

/-- Blocks of 64 KiB. -/
def wideBlocks : Superblock where
  blockSize := 65536
  valid := ⟨6, le_rfl, rfl⟩

/-- The tree of an inode: one entry, for block 7. -/
def wideRoot : Bytes := indexNode 1 4 (List.replicate 8 0 ++ leBytes 4 7 ++ List.replicate 40 0)

/-- An index node of 5460 entries, all for block 0. -/
def wideNode : Bytes := indexNode 5460 5460 (List.replicate 65528 0)

/-- A volume with that node in block 7. -/
def wideRead (off size : ℕ) : Bytes :=
  if off = 7 * 65536 then wideNode else List.replicate size 0

/-- The block of the inode's one entry is read, and those of its 5460 entries. -/
theorem wideTree_counterexample :
    ¬ (WithinBudgets wideRead wideBlocks wideRoot ∧
      CollectsTrees wideRead wideBlocks wideRoot) := by
  rintro ⟨hbudgets, -⟩
  have hreads := ((withinBudgets_iff _ _ _).1 hbudgets).2
  have hroot : indexEntries wideRoot = [0] :=
    indexEntries_indexNode (by omega) (by norm_num) (by decide)
  have hwide : indexEntries wideNode = List.range 5460 :=
    indexEntries_indexNode le_rfl (by norm_num) (by rw [List.length_replicate]; omega)
  have hchild : child wideRead wideBlocks wideRoot 0 = wideNode := by
    have hblock : childBlock wideRoot 0 = 7 := rfl
    rw [child, hblock]
    exact if_pos rfl
  have hbelow : ∃ rest, graphNodes wideRead wideBlocks 5 wideNode = wideNode :: rest := ⟨_, rfl⟩
  obtain ⟨rest, hrest⟩ := hbelow
  have hnodes : graphNodes wideRead wideBlocks (maxExtentDepth + 1) wideRoot =
      wideRoot :: wideNode :: rest := by
    rw [maxExtentDepth, graphNodes, hroot, List.flatMap_singleton, hchild, hrest]
  have hfirst : firstNodes wideRead wideBlocks wideRoot =
      wideRoot :: wideNode :: rest.take 4094 := by
    rw [firstNodes, hnodes]
    rfl
  rw [hfirst, List.map_cons, List.map_cons, List.sum_cons, List.sum_cons, hroot, hwide,
    List.length_range, maxMapNodes] at hreads
  omega

end Ext
end Reclaim
