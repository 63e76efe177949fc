import Reclaim.Fs.ExtClassic

/-!
# The content of files on ext volumes

The extents of an inode are the blocks that were listed, one behind the other, cut to the size. They
are the file exactly when no byte below the size is in a hole or in an unwritten block, and the caps
leave none of these blocks out.
-/

namespace Reclaim
namespace Ext

open FileBytes FileMap

/-! ## Coalescing -/

/-- Each block follows the one before it or has an offset that fits 64 bits. -/
structure Spans (bs : ℕ) (l : List ℕ) : Prop where
  chain : l.IsChain fun a b => b = a + 1 ∨ b * bs ≤ u64Max
  head : ∀ p ∈ l.head?, p * bs ≤ u64Max

namespace Spans

variable {bs : ℕ} {l l' : List ℕ}

lemma nil : Spans bs [] := ⟨List.isChain_nil, by simp⟩

lemma append (h : Spans bs l) (h' : Spans bs l') : Spans bs (l ++ l') := by
  refine ⟨List.isChain_append.2 ⟨h.chain, h'.chain, fun a _ b hb => Or.inr (h'.head b hb)⟩, ?_⟩
  intro p hp
  rw [List.head?_append] at hp
  cases hl : l.head? with
  | none =>
    rw [hl] at hp
    exact h'.head p hp
  | some q =>
    rw [hl] at hp
    obtain rfl := Option.some.inj hp
    exact h.head _ hl

lemma flatMap {ι : Type} {f : ι → List ℕ} (is : List ι) (h : ∀ i ∈ is, Spans bs (f i)) :
    Spans bs (is.flatMap f) := by
  induction is with
  | nil => exact nil
  | cons i is ih =>
    rw [List.flatMap_cons]
    exact (h i List.mem_cons_self).append (ih fun j hj => h j (List.mem_cons_of_mem _ hj))

lemma take (h : Spans bs l) (n : ℕ) : Spans bs (l.take n) := by
  refine ⟨h.chain.take n, fun p hp => h.head p ?_⟩
  cases n with
  | zero => simp at hp
  | succ n => simpa [List.head?_take] using hp

/-- A run of blocks. -/
lemma range (start n : ℕ) (h : start * bs ≤ u64Max) :
    Spans bs ((List.range n).map (start + ·)) := by
  refine ⟨?_, fun p hp => ?_⟩
  · rw [List.isChain_map, List.isChain_range]
    exact fun m _ => Or.inl (Nat.add_assoc start m 1).symm
  · cases n with
    | zero => simp at hp
    | succ n =>
      rw [List.range_succ_eq_map] at hp
      simp only [List.map_cons, List.head?_cons, Option.mem_some_iff] at hp
      rwa [← hp]

/-- Blocks that all have such offsets. -/
lemma of_forall (h : ∀ p ∈ l, p * bs ≤ u64Max) : Spans bs l := by
  induction l with
  | nil => exact nil
  | cons p l ih =>
    have hp : Spans bs [p] := ⟨List.isChain_singleton p, fun q hq => by
      obtain rfl := Option.some.inj hq
      exact h _ List.mem_cons_self⟩
    exact hp.append (ih fun q hq => h q (List.mem_cons_of_mem _ hq))

end Spans

/-- Where the last extent ends, and how long it can be. -/
def EndsBehind (bs p k : ℕ) (es : List Extent) : Prop :=
  ∃ before last, es = before ++ [last] ∧ last.offset + last.len = (p + 1) * bs ∧ last.len ≤ k * bs

/-- One block more. -/
lemma addBlock_spec (sb : Superblock) {es : List Extent} {p q k : ℕ}
    (hes : EndsBehind sb.blockSize p k es) (hq : q = p + 1 ∨ q * sb.blockSize ≤ u64Max)
    (hk : (k + 1) * sb.blockSize ≤ u64Max) :
    extentAddresses (addBlock sb.blockSize es q) =
        extentAddresses es ++ List.range' (q * sb.blockSize) sb.blockSize ∧
      EndsBehind sb.blockSize q (k + 1) (addBlock sb.blockSize es q) := by
  obtain ⟨before, last, rfl, hend, hlen⟩ := hes
  have hlast : (before ++ [last]).getLast? = some last := by simp
  have happ : ∀ es es' : List Extent, extentAddresses (es ++ es') =
      extentAddresses es ++ extentAddresses es' := fun _ _ => List.flatMap_append
  have hone : ∀ e : Extent, extentAddresses [e] = List.range' e.offset e.len := fun e => by simp
  have hsucc : (k + 1) * sb.blockSize = k * sb.blockSize + sb.blockSize := Nat.succ_mul ..
  have hqsucc : (q + 1) * sb.blockSize = q * sb.blockSize + sb.blockSize := Nat.succ_mul ..
  unfold addBlock
  simp only [hlast, List.dropLast_concat]
  by_cases hnext : q = p + 1
  · subst hnext
    have hoff : saturatingAdd last.offset last.len = saturatingMul (p + 1) sb.blockSize := by
      rw [saturatingAdd, hend, saturatingMul]
    rw [if_pos hoff, saturatingAdd_of_le (by omega)]
    refine ⟨?_, before, _, rfl, ?_, ?_⟩
    · rw [happ, happ, hone, hone, List.append_assoc, ← hend, ← List.range'_append_1]
    · show last.offset + (last.len + sb.blockSize) = _
      omega
    · show last.len + sb.blockSize ≤ _
      omega
  · have hq64 := hq.resolve_left hnext
    have hoff : saturatingAdd last.offset last.len ≠ saturatingMul q sb.blockSize := by
      rw [saturatingAdd, hend, saturatingMul, min_eq_left hq64]
      intro h
      rcases le_total ((p + 1) * sb.blockSize) u64Max with hle | hle
      · rw [min_eq_left hle] at h
        exact hnext (Nat.eq_of_mul_eq_mul_right sb.blockSize_pos h).symm
      · -- the largest offset is odd, and no block starts there
        rw [min_eq_right hle] at h
        have h2 : 2 ∣ u64Max := h ▸ Dvd.dvd.mul_left sb.two_dvd_blockSize q
        unfold u64Max at h2
        omega
    rw [if_neg hoff, saturatingMul_of_le hq64]
    refine ⟨?_, before ++ [last], _, rfl, hqsucc.symm, ?_⟩
    · rw [happ, hone]
    · show sb.blockSize ≤ _
      omega

/-- The coalesced extents have the bytes of the blocks, in order. -/
lemma extentAddresses_addBlocks (sb : Superblock) (l : List ℕ) :
    Spans sb.blockSize l → l.length * sb.blockSize ≤ u64Max →
      extentAddresses (l.foldl (addBlock sb.blockSize) []) =
          (l.flatMap fun p => List.range' (p * sb.blockSize) sb.blockSize) ∧
        ∀ p ∈ l.getLast?,
          EndsBehind sb.blockSize p l.length (l.foldl (addBlock sb.blockSize) []) := by
  induction l using List.reverseRecOn with
  | nil => exact fun _ _ => ⟨rfl, fun p hp => absurd hp (by simp)⟩
  | append_singleton l q ih =>
    intro hspans hlen
    rw [List.length_append, List.length_singleton] at hlen
    have hpre : Spans sb.blockSize l := by
      simpa using hspans.take l.length
    obtain ⟨haddr, hends⟩ := ih hpre ((Nat.mul_le_mul_right _ (Nat.le_succ _)).trans hlen)
    rw [List.foldl_append, List.flatMap_append, List.length_append, List.length_singleton]
    simp only [List.foldl_cons, List.foldl_nil, List.flatMap_singleton]
    rcases List.eq_nil_or_concat l with rfl | ⟨m, p, rfl⟩
    · have hq : q * sb.blockSize ≤ u64Max := hspans.head q (by simp)
      have hone : addBlock sb.blockSize [] q = [⟨q * sb.blockSize, sb.blockSize⟩] := by
        simp [addBlock, saturatingMul_of_le hq]
      simp only [List.foldl_nil, hone]
      refine ⟨by simp, fun p hp => ?_⟩
      obtain rfl : q = p := by simpa using hp
      exact ⟨[], _, rfl, (Nat.succ_mul ..).symm, by simp⟩
    · have hstep := addBlock_spec sb (hends p (by simp)) (q := q) ?_ hlen
      · rw [haddr] at hstep
        refine ⟨hstep.1, fun r hr => ?_⟩
        obtain rfl : q = r := by simpa using hr
        exact hstep.2
      · have := (List.isChain_append.1 hspans.chain).2.2 p (by simp) q (by simp)
        exact this

/-- Cut to a size. -/
lemma extentAddresses_trimToSize {size : ℕ} (hsize : size ≤ u64Max) (es : List Extent) :
    extentAddresses (trimToSize es size) = (extentAddresses es).take size := by
  unfold trimToSize
  split
  · simp [*]
  · rw [extentAddresses_trimExtentsTo hsize es 0 (Nat.zero_le _), Nat.sub_zero]

/-! ## The map of an inode -/

namespace Inode

variable (read : ℕ → ℕ → Bytes) (sb : Superblock) (i : Inode)

/-- The inode has an extent tree. -/
def UsesTree : Prop := i.flags &&& extentsFl ≠ 0

instance : Decidable i.UsesTree := inferInstanceAs (Decidable (_ ≠ _))

/-- The blocks that the inode names itself. -/
def direct : List MappedBlock := if i.UsesTree then [] else pointerMap i.iBlock 0 12

/-- The nodes of its map. -/
def nodes : List (List MappedBlock) :=
  if i.UsesTree then treeNodes read sb (leU16 i.iBlock 6) i.iBlock
  else classicNodes read sb i.iBlock

/-- All blocks of the file. -/
def blocks : List MappedBlock := i.direct ++ (i.nodes read sb).flatten

/-- The blocks within the caps: of the first `maxMapNodes` nodes, one more than `maxFileBlocks`. -/
def listed : List MappedBlock :=
  (i.direct ++ ((i.nodes read sb).take maxMapNodes).flatten).take (maxFileBlocks + 1)

/-- An extent tree is well formed, no deeper than the format allows, and maps no block twice. -/
structure MapOk : Prop where
  depth_le : i.UsesTree → leU16 i.iBlock 6 ≤ maxExtentDepth
  wellFormed : i.UsesTree → WellFormed read sb (leU16 i.iBlock 6) i.iBlock
  increasing : i.UsesTree → Increasing (treeNodes read sb (leU16 i.iBlock 6) i.iBlock).flatten

variable {read sb i}

lemma MapOk.increasing_blocks (h : i.MapOk read sb) : Increasing (i.blocks read sb) := by
  unfold blocks direct nodes
  by_cases htree : i.UsesTree
  · simpa only [if_pos htree, List.nil_append] using h.increasing htree
  · simpa only [if_neg htree] using increasing_classic i.iBlock

/-- The listed blocks are the first of the file's. -/
lemma listed_prefix : i.listed read sb <+: i.blocks read sb := by
  refine (List.take_prefix ..).trans ?_
  refine (List.prefix_append_right_inj _).2 ?_
  conv_rhs => rw [← List.take_append_drop maxMapNodes (i.nodes read sb), List.flatten_append]
  exact List.prefix_append ..

lemma length_listed_le : (i.listed read sb).length ≤ maxFileBlocks + 1 :=
  List.length_take_le ..

/-! ### Blocks lie where 64 bits reach -/

lemma spans_entryMap (node : Bytes) (k : ℕ) :
    Spans sb.blockSize ((entryMap node k).map MappedBlock.phys) := by
  unfold entryMap
  simp only [List.map_map]
  exact Spans.range _ _ (mul_blockSize_le sb (block48_lt ..))

lemma spans_treeNodes (depth : ℕ) :
    ∀ node, Spans sb.blockSize ((treeNodes read sb depth node).flatten.map MappedBlock.phys) := by
  induction depth with
  | zero =>
    intro node
    simp only [treeNodes, List.flatten_singleton, leafMap, List.map_flatMap]
    exact Spans.flatMap _ fun k _ => spans_entryMap node k
  | succ depth ih =>
    intro node
    simp only [treeNodes, List.flatten_cons, List.nil_append, flatten_flatMap, List.map_flatMap]
    exact Spans.flatMap _ fun k _ => ih _

/-- A pointer has 32 bits. -/
lemma phys_lt_of_mem_pointerMap {data : Bytes} {start n : ℕ} {b : MappedBlock}
    (hb : b ∈ pointerMap data start n) : b.phys < 2 ^ 48 := by
  obtain ⟨k, -, hk⟩ := List.mem_filterMap.1 hb
  split at hk
  · exact absurd hk (by simp)
  · rw [← Option.some.inj hk]
    have := leU32_lt data (k * 4)
    show pointer data k < _
    unfold pointer
    omega

lemma phys_lt_of_mem_pointerNodes (level : ℕ) :
    ∀ start p, ∀ b ∈ (pointerNodes read sb level start p).flatten, b.phys < 2 ^ 48 := by
  induction level with
  | zero => simp [pointerNodes]
  | succ level ih =>
    intro start p b hb
    rw [pointerNodes] at hb
    split at hb
    · simp at hb
    · dsimp only at hb
      split at hb
      · exact phys_lt_of_mem_pointerMap (by simpa using hb)
      · simp only [List.flatten_cons, List.nil_append, flatten_flatMap] at hb
        obtain ⟨k, -, hk⟩ := List.mem_flatMap.1 hb
        exact ih _ _ b hk

lemma spans_blocks : Spans sb.blockSize ((i.blocks read sb).map MappedBlock.phys) := by
  unfold blocks direct nodes
  split
  · simpa using spans_treeNodes ..
  · apply Spans.of_forall
    intro p hp
    obtain ⟨b, hb, rfl⟩ := List.mem_map.1 hp
    apply mul_blockSize_le sb
    rcases List.mem_append.1 hb with hb | hb
    · exact phys_lt_of_mem_pointerMap hb
    · unfold classicNodes at hb
      simp only [List.flatten_append, List.mem_append] at hb
      rcases hb with (hb | hb) | hb <;> exact phys_lt_of_mem_pointerNodes _ _ _ b hb

/-! ### What the extents are -/

/-- The blocks the engine collects for the inode. -/
def collected (read : ℕ → ℕ → Bytes) (sb : Superblock) (i : Inode) : List (ℕ × ℕ) :=
  if i.flags &&& extentsFl ≠ 0 then
    (collectExtentTree read sb (maxExtentDepth + 1) i.iBlock ⟨maxMapNodes, []⟩).out
  else collectClassic read sb i.iBlock maxMapNodes

/-- The engine collects the listed blocks, in the order of the file. -/
theorem collected_spec (h : i.MapOk read sb) :
    (i.collected read sb).map Prod.snd = (i.listed read sb).map MappedBlock.phys ∧
      (i.collected read sb).Pairwise fun a b => a.1 < b.1 := by
  have hinc : Increasing (i.listed read sb) :=
    h.increasing_blocks.sublist listed_prefix.sublist
  unfold collected listed direct nodes at *
  by_cases htree : i.UsesTree
  · have hv := visits_collectExtentTree (leU16 i.iBlock 6) (maxExtentDepth + 1)
      (Nat.lt_succ_of_le (h.depth_le htree)) i.iBlock (h.wellFormed htree)
      ⟨maxMapNodes, []⟩ (by simp)
    simp only [if_pos htree, List.nil_append] at hinc ⊢
    have htree' : i.flags &&& extentsFl ≠ 0 := htree
    rw [if_pos htree', hv.out]
    simp only [pairs, ← List.map_take, ← List.map_flatten, List.nil_append]
    refine ⟨by rw [List.map_map]; rfl, ?_⟩
    exact List.pairwise_map.2 hinc
  · have htree' : ¬ (i.flags &&& extentsFl ≠ 0) := htree
    simp only [if_neg htree]
    rw [if_neg htree']
    exact collectClassic_spec i.iBlock maxMapNodes

/-- The extents are the listed blocks, cut to the size. -/
theorem extentAddresses_extents (h : i.MapOk read sb) :
    extentAddresses (i.extents read sb) =
      (addresses ((i.listed read sb).map (MappedBlock.piece sb.blockSize))).take i.size := by
  obtain ⟨hphys, hinc⟩ := collected_spec h
  have hsort : (i.collected read sb).mergeSort (fun a b => a.1 ≤ b.1) = i.collected read sb := by
    refine List.mergeSort_of_pairwise (hinc.imp fun hab => ?_)
    simpa using hab.le
  have hlen : ((i.listed read sb).map MappedBlock.phys).length * sb.blockSize ≤ u64Max := by
    rw [List.length_map]
    refine (Nat.mul_le_mul length_listed_le sb.blockSize_le).trans ?_
    unfold maxFileBlocks u64Max
    norm_num
  have hspans : Spans sb.blockSize ((i.listed read sb).map MappedBlock.phys) := by
    have hall : Spans sb.blockSize ((i.blocks read sb).map MappedBlock.phys) := spans_blocks
    have hpre : i.listed read sb <+: i.blocks read sb := listed_prefix
    rw [List.prefix_iff_eq_take.1 hpre, List.map_take]
    exact hall.take _
  have hjoin := (extentAddresses_addBlocks sb _ hspans hlen).1
  rw [← hphys, List.foldl_map] at hjoin
  unfold Inode.extents runsToExtents
  rw [← collected, extentAddresses_trimToSize i.size_le, hsort, hjoin, hphys]
  unfold addresses
  simp only [List.flatMap_map, MappedBlock.piece]

end Inode

/-- The entry of a file has its content exactly if every byte below the size is in a written block,
and the caps leave none of these out. -/
theorem reproduces_iff {read : ℕ → ℕ → Bytes} {sb : Superblock} {i : Inode}
    (h : i.MapOk read sb) {dateFromEpoch : ℕ → Option String} {name path : String}
    {state : EntryState} {e : Entry}
    (he : entry read sb dateFromEpoch i name path state = some e) :
    e.Reproduces ((i.blocks read sb).map (MappedBlock.piece sb.blockSize)) i.size ↔
      Covered ((i.listed read sb).map (MappedBlock.piece sb.blockSize)) 0 i.size := by
  have hpre : i.listed read sb <+: i.blocks read sb := Inode.listed_prefix
  obtain ⟨rest, hrest⟩ := hpre
  have hord := h.increasing_blocks.ordered sb.blockSize
  rw [← hrest, List.map_append] at hord
  have hiff := isContent_addresses_iff (fun _ => true) (fun _ _ => rfl) _ _ i.size hord
  rw [List.filter_true, ← List.map_append, hrest] at hiff
  unfold entry at he
  split at he
  · exact absurd he (by simp)
  rw [← Option.some.inj he, ← hiff]
  unfold Entry.Reproduces Entry.bytes
  simp only [Entry.newFile, Inode.extentAddresses_extents h, List.take_take]
  have hsize : min (if 0 < i.size then i.size else totalLen (i.extents read sb)) i.size =
      i.size := by
    split <;> omega
  rw [hsize]

end Ext
end Reclaim
