import Reclaim.Fs.ExtInode

/-!
# Block maps of ext volumes

What an inode's block map says, read off the volume without the caps of the engine, and what the
engine makes of it: it lists the blocks of the first `maxMapNodes` nodes, up to one more than
`maxFileBlocks`, holes and the marks of unwritten blocks dropped, and joins them.
-/

namespace Reclaim
namespace Ext

open FileBytes FileMap

/-- A block of a file. -/
structure MappedBlock where
  logical : ℕ
  phys : ℕ
  /-- An unwritten block is allocated and reads as zeros. -/
  written : Bool
  deriving DecidableEq, Repr

namespace MappedBlock

/-- The block as a piece of the file. -/
def piece (bs : ℕ) (b : MappedBlock) : FileMap.Piece where
  start := b.logical * bs
  len := bs
  addr := b.phys * bs
  stored := b.written
  taken := b.phys * bs

/-- The block as the engine collects it. -/
def pair (b : MappedBlock) : ℕ × ℕ := (b.logical, b.phys)

end MappedBlock

/-- Each block is mapped once, in logical order. -/
def Increasing (bs : List MappedBlock) : Prop := bs.Pairwise fun a b => a.logical < b.logical

lemma Increasing.ordered {l : List MappedBlock} (h : Increasing l) (bs : ℕ) :
    Ordered (l.map (MappedBlock.piece bs)) := by
  refine List.Pairwise.map _ (fun a b hab => ?_) h
  show a.logical * bs + bs ≤ b.logical * bs
  have := Nat.mul_le_mul_right bs (Nat.succ_le_of_lt hab)
  rwa [Nat.succ_mul] at this

/-! ## Walking nodes within the caps -/

/-- From budget `b` and output `o`, the nodes `N` have been visited. -/
structure Visits {α : Type} (b : ℕ) (o : List α) (N : List (List α)) (b' : ℕ) (o' : List α) :
    Prop where
  out : o' = (o ++ (N.take b).flatten).take (maxFileBlocks + 1)
  budget : o'.length ≤ maxFileBlocks → b' = b - N.length

namespace Visits

variable {α : Type} {b b' b'' : ℕ} {o o' o'' : List α} {N N' : List (List α)}

lemma length_le (h : Visits b o N b' o') : o'.length ≤ maxFileBlocks + 1 := by
  rw [h.out]
  exact List.length_take_le ..

lemma nil (ho : o.length ≤ maxFileBlocks + 1) : Visits b o [] b o :=
  ⟨by simp [List.take_of_length_le ho], fun _ => rfl⟩

/-- There are too many blocks already. -/
lemma full (ho : o.length = maxFileBlocks + 1) : Visits b o N b' o :=
  ⟨by rw [List.take_append_of_le_length ho.ge, List.take_of_length_le ho.le],
    fun h => absurd h (by omega)⟩

/-- The budget is used up. -/
lemma exhausted (ho : o.length ≤ maxFileBlocks + 1) : Visits 0 o N 0 o :=
  ⟨by simp [List.take_of_length_le ho], fun _ => (Nat.zero_sub _).symm⟩

/-- A node that holds no blocks itself. -/
lemma cons_nil (hb : b ≠ 0) (h : Visits (b - 1) o N b' o') : Visits b o ([] :: N) b' o' := by
  obtain ⟨b, rfl⟩ := Nat.exists_eq_succ_of_ne_zero hb
  refine ⟨?_, fun hle => ?_⟩
  · rw [h.out]
    simp
  · rw [h.budget hle, List.length_cons]
    omega

lemma append (h : Visits b o N b' o') (h' : Visits b' o' N' b'' o'') :
    Visits b o (N ++ N') b'' o'' := by
  have hN : (N ++ N').take b = N.take b ++ N'.take (b - N.length) := List.take_append ..
  by_cases hfull : o'.length ≤ maxFileBlocks
  · have hout : o' = o ++ (N.take b).flatten := by
      rw [h.out, List.length_take] at hfull
      rw [h.out, List.take_of_length_le (by omega)]
    have hb := h.budget hfull
    refine ⟨?_, fun hle => ?_⟩
    · rw [h'.out, hout, hb, hN, List.flatten_append, List.append_assoc]
    · rw [h'.budget hle, hb, List.length_append, Nat.sub_add_eq]
  · have hlen : o'.length = maxFileBlocks + 1 := by
      have := h.length_le
      omega
    have hsame : o'' = o' := by
      rw [h'.out, List.take_append_of_le_length hlen.ge, List.take_of_length_le hlen.le]
    refine ⟨?_, fun hle => absurd hle (by rw [hsame]; omega)⟩
    have hlong : maxFileBlocks + 1 ≤ (o ++ (N.take b).flatten).length := by
      have := h.out ▸ hlen
      rw [List.length_take] at this
      omega
    rw [hsame, h.out, hN, List.flatten_append, ← List.append_assoc,
      List.take_append_of_le_length hlong]

end Visits

/-- A loop whose step visits nodes visits those of all its steps. -/
lemma visits_foldl {ι : Type} {f : Collect → ι → Collect} {N : ι → List (List (ℕ × ℕ))}
    (l : List ι)
    (hf : ∀ i ∈ l, ∀ c : Collect, c.out.length ≤ maxFileBlocks + 1 →
      Visits c.budget c.out (N i) (f c i).budget (f c i).out) :
    ∀ c : Collect, c.out.length ≤ maxFileBlocks + 1 →
      Visits c.budget c.out (l.flatMap N) (l.foldl f c).budget (l.foldl f c).out := by
  induction l with
  | nil => exact fun c hc => Visits.nil hc
  | cons i l ih =>
    intro c hc
    have hstep := hf i List.mem_cons_self c hc
    rw [List.flatMap_cons, List.foldl_cons]
    exact hstep.append (ih (fun j hj => hf j (List.mem_cons_of_mem _ hj)) _ hstep.length_le)

/-! ## Extent trees -/

/-- The blocks of the `i`th entry of a leaf node. -/
def entryMap (node : Bytes) (i : ℕ) : List MappedBlock :=
  let base := 12 + i * 12
  let raw := leU16 node (base + 4)
  (List.range (if 32768 < raw then raw - 32768 else raw)).map fun b =>
    ⟨leU32 node base + b,
      leU16 node (base + 6) * 2 ^ 32 + leU32 node (base + 8) + b, raw ≤ 32768⟩

/-- The blocks of a leaf node. -/
def leafMap (node : Bytes) : List MappedBlock := (List.range (leU16 node 2)).flatMap (entryMap node)

/-- The header of a node of the given depth. -/
structure HeaderOk (node : Bytes) (depth : ℕ) : Prop where
  magic : leU16 node 0 = extentMagic
  entries_le : leU16 node 2 ≤ leU16 node 4
  max_le : leU16 node 4 ≤ (node.length - 12) / 12
  depth : leU16 node 6 = depth

variable (read : ℕ → ℕ → Bytes) (sb : Superblock)

/-- The node that the `i`th entry of an index node names. -/
def child (node : Bytes) (i : ℕ) : Bytes :=
  read (childBlock node i * sb.blockSize) sb.blockSize

/-- The nodes of a tree in preorder, each with the blocks it holds. -/
def treeNodes : ℕ → Bytes → List (List MappedBlock)
  | 0, node => [leafMap node]
  | depth + 1, node =>
    [] :: (List.range (leU16 node 2)).flatMap fun i => treeNodes depth (child read sb node i)

/-- Every node of the tree has the header that belongs at its depth. -/
def WellFormed : ℕ → Bytes → Prop
  | 0, node => HeaderOk node 0
  | depth + 1, node =>
    HeaderOk node (depth + 1) ∧ ∀ i < leU16 node 2, WellFormed depth (child read sb node i)

variable {read sb}

lemma saturatingAdd_of_le {a b : ℕ} (h : a + b ≤ u64Max) : saturatingAdd a b = a + b :=
  min_eq_left h

lemma saturatingMul_of_le {a b : ℕ} (h : a * b ≤ u64Max) : saturatingMul a b = a * b :=
  min_eq_left h

/-- A 48-bit block number. -/
lemma block48_lt (b : Bytes) (hi lo : ℕ) : leU16 b hi * 2 ^ 32 + leU32 b lo < 2 ^ 48 := by
  have := leU16_lt b hi
  have := leU32_lt b lo
  omega

/-- The offset of a block with a 48-bit number fits 64 bits. -/
lemma mul_blockSize_le (sb : Superblock) {p : ℕ} (hp : p < 2 ^ 48) :
    p * sb.blockSize ≤ u64Max := by
  have h : p * sb.blockSize ≤ (2 ^ 48 - 1) * 2 ^ 16 :=
    Nat.mul_le_mul (by omega) sb.blockSize_le
  unfold u64Max
  omega

lemma map_pair_entryMap (node : Bytes) (i : ℕ) :
    (entryMap node i).map MappedBlock.pair = leafBlocks node i := by
  unfold entryMap leafBlocks
  simp only [List.map_map]
  apply List.map_congr_left
  intro b hb
  have hlen := List.mem_range.1 hb
  have hraw := leU16_lt node (12 + i * 12 + 4)
  have hlog := leU32_lt node (12 + i * 12)
  have hphys := block48_lt node (12 + i * 12 + 6) (12 + i * 12 + 8)
  have hb16 : b < 2 ^ 16 := by
    split at hlen <;> omega
  show (_, _) = (_, _)
  rw [saturatingAdd_of_le, saturatingAdd_of_le] <;> unfold u64Max <;> omega

lemma Collect.length_push_le {c : Collect} (hc : c.out.length ≤ maxFileBlocks + 1) (b : ℕ × ℕ) :
    (c.push b).out.length ≤ maxFileBlocks + 1 := by
  unfold push
  split
  · exact hc
  · simp
    omega

lemma foldl_push (l : List (ℕ × ℕ)) :
    ∀ c : Collect, c.out.length ≤ maxFileBlocks + 1 →
      (l.foldl Collect.push c).budget = c.budget ∧
        (l.foldl Collect.push c).out = (c.out ++ l).take (maxFileBlocks + 1) := by
  induction l with
  | nil =>
    intro c hc
    exact ⟨rfl, by simp [List.take_of_length_le hc]⟩
  | cons b l ih =>
    intro c hc
    obtain ⟨hbud, hout⟩ := ih (c.push b) (c.length_push_le hc b)
    rw [List.foldl_cons, hbud, hout]
    unfold Collect.push
    split
    · have hlen : c.out.length = maxFileBlocks + 1 := by omega
      rw [List.take_append_of_le_length hlen.ge, List.take_append_of_le_length hlen.ge]
      exact ⟨rfl, rfl⟩
    · simp

/-- All entries of a node with a sound header lie in it. -/
lemma HeaderOk.nodeEntries {node : Bytes} {d : ℕ} (h : HeaderOk node d) :
    nodeEntries node = List.range (leU16 node 2) := by
  unfold Ext.nodeEntries
  rw [List.takeWhile_eq_self_iff]
  intro i hi
  have hi := List.mem_range.1 hi
  have := h.entries_le
  have := h.max_le
  simp only [decide_eq_true_eq]
  omega

/-- The tree's nodes, as the engine collects their blocks. -/
def pairs (N : List (List MappedBlock)) : List (List (ℕ × ℕ)) := N.map (List.map MappedBlock.pair)

/-- A sound header passes the checks of the engine. -/
lemma collectExtentTree_of_headerOk {node : Bytes} {d : ℕ} (h : HeaderOk node d) (guard : ℕ)
    {c : Collect} (hc : ¬ (maxFileBlocks < c.out.length ∨ c.budget = 0)) :
    collectExtentTree read sb (guard + 1) node c =
      (List.range (leU16 node 2)).foldl
        (fun c i =>
          if d = 0 then (leafBlocks node i).foldl Collect.push c
          else
            collectExtentTree read sb guard (child read sb node i) c)
        { c with budget := c.budget - 1 } := by
  have hmax : ¬ (leU16 node 4 < leU16 node 2 ∨ (node.length - 12) / 12 < leU16 node 4) := by
    have := h.entries_le
    have := h.max_le
    omega
  have hsat : ∀ i, saturatingMul (childBlock node i) sb.blockSize =
      childBlock node i * sb.blockSize := fun i =>
    saturatingMul_of_le (mul_blockSize_le sb (block48_lt ..))
  rw [collectExtentTree, if_neg hc]
  simp only [h.magic, ne_eq, not_true_eq_false, if_false, if_neg hmax, h.nodeEntries, h.depth,
    hsat, child]

/-- A node is left as it was found if there are too many blocks or no budget. -/
lemma visits_of_capped {N : List (List (ℕ × ℕ))} {c : Collect}
    (hc : c.out.length ≤ maxFileBlocks + 1) (h : maxFileBlocks < c.out.length ∨ c.budget = 0) :
    Visits c.budget c.out N c.budget c.out := by
  rcases h with h | h
  · exact Visits.full (by omega)
  · rw [h]
    exact Visits.exhausted hc

/-- A well-formed tree is collected node by node. -/
theorem visits_collectExtentTree :
    ∀ (depth guard : ℕ), depth < guard → ∀ (node : Bytes), WellFormed read sb depth node →
      ∀ c : Collect, c.out.length ≤ maxFileBlocks + 1 →
        Visits c.budget c.out (pairs (treeNodes read sb depth node))
          (collectExtentTree read sb guard node c).budget
          (collectExtentTree read sb guard node c).out := by
  intro depth
  induction depth with
  | zero =>
    intro guard hg node hwf c hc
    obtain ⟨guard, rfl⟩ := Nat.exists_eq_succ_of_ne_zero (Nat.ne_of_gt hg)
    by_cases hcap : maxFileBlocks < c.out.length ∨ c.budget = 0
    · have hsame : collectExtentTree read sb (guard + 1) node c = c := by
        rw [collectExtentTree, if_pos hcap]
      rw [hsame]
      exact visits_of_capped hc hcap
    · have hleaf : pairs (treeNodes read sb 0 node) =
          [(List.range (leU16 node 2)).flatMap (leafBlocks node)] := by
        simp only [pairs, treeNodes, leafMap, List.map_cons, List.map_nil, List.map_flatMap,
          map_pair_entryMap]
      rw [collectExtentTree_of_headerOk hwf guard hcap, hleaf]
      simp only [if_true]
      rw [← List.foldl_flatMap]
      obtain ⟨hbud, hout⟩ := foldl_push ((List.range (leU16 node 2)).flatMap (leafBlocks node))
        { c with budget := c.budget - 1 } hc
      rw [hbud, hout]
      refine ⟨?_, fun _ => rfl⟩
      have htake : ∀ l : List (ℕ × ℕ), [l].take c.budget = [l] := fun l =>
        List.take_of_length_le (by rw [List.length_singleton]; omega)
      rw [htake, List.flatten_singleton]
  | succ depth ih =>
    intro guard hg node hwf c hc
    obtain ⟨guard, rfl⟩ := Nat.exists_eq_succ_of_ne_zero (Nat.ne_of_gt (by omega : 0 < guard))
    obtain ⟨hok, hchild⟩ := hwf
    by_cases hcap : maxFileBlocks < c.out.length ∨ c.budget = 0
    · have hsame : collectExtentTree read sb (guard + 1) node c = c := by
        rw [collectExtentTree, if_pos hcap]
      rw [hsame]
      exact visits_of_capped hc hcap
    · have hnode : pairs (treeNodes read sb (depth + 1) node) =
          [] :: (List.range (leU16 node 2)).flatMap fun i =>
            pairs (treeNodes read sb depth (child read sb node i)) := by
        simp only [pairs, treeNodes, List.map_cons, List.map_nil, List.map_flatMap]
      rw [collectExtentTree_of_headerOk hok guard hcap, hnode]
      simp only [Nat.succ_ne_zero, if_false]
      refine Visits.cons_nil (by omega) (visits_foldl _ (fun i hi c' hc' => ?_)
        { c with budget := c.budget - 1 } hc)
      exact ih guard (by omega) _ (hchild i (List.mem_range.1 hi)) c' hc'

end Ext
end Reclaim
