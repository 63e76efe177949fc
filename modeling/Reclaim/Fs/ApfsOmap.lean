import Reclaim.Fs.ApfsNodes
import Reclaim.Fs.ApfsViews

/-!
# Object maps at a transaction

An object map has a mapping for every version of an object, and a view of the container at a
transaction wants the newest one that is not younger.  `omap_index` keeps the best version of each
object while the leaves go by, so that the order in which they are visited does not matter.
-/

namespace Reclaim
namespace Apfs

open FileBytes

/-- A version of an object, and where it is. -/
structure Mapping where
  oid : ℕ
  xid : ℕ
  paddr : ℕ
  deriving DecidableEq

/-- The mapping that a leaf record has. -/
def Mapping.ofRecord (kv : Bytes × Bytes) : Mapping where
  oid := leU64 kv.1 0
  xid := leU64 kv.1 8
  paddr := leU64 kv.2 8

/-- The record of a mapping, with the flags and the size that its value begins with. -/
def Mapping.record (m : Mapping) (flags size : ℕ) : Bytes × Bytes :=
  ([leBytes 8 m.oid, leBytes 8 m.xid].flatten,
    [leBytes 4 flags, leBytes 4 size, leBytes 8 m.paddr].flatten)

/-- **Reading back a mapping.** -/
lemma Mapping.ofRecord_record (m : Mapping) (flags size : ℕ) (hoid : m.oid < 2 ^ 64)
    (hxid : m.xid < 2 ^ 64) (hpaddr : m.paddr < 2 ^ 64) :
    Mapping.ofRecord (m.record flags size) = m := by
  have ho : leU64 ([leBytes 8 m.oid, leBytes 8 m.xid].flatten ++ []) 0 = m.oid :=
    leField_parts 0 rfl rfl (hoid.trans_eq (by norm_num))
  have hx : leU64 ([leBytes 8 m.oid, leBytes 8 m.xid].flatten ++ []) 8 = m.xid :=
    leField_parts 1 rfl (by simp) (hxid.trans_eq (by norm_num))
  have hp : leU64 ([leBytes 4 flags, leBytes 4 size, leBytes 8 m.paddr].flatten ++ []) 8 =
      m.paddr := leField_parts 2 rfl (by simp) (hpaddr.trans_eq (by norm_num))
  rw [List.append_nil] at ho hx hp
  obtain ⟨oid, xid, paddr⟩ := m
  exact congr (congrArg₂ Mapping.mk ho hx) hp

/-- The newest version of an object among the mappings, up to a transaction, is at an address. -/
def Newest (ms : List Mapping) (atXid oid addr : ℕ) : Prop :=
  ∃ xid ≤ atXid, ⟨oid, xid, addr⟩ ∈ ms ∧
    ∀ m ∈ ms, m.oid = oid → m.xid ≤ atXid → m.xid ≤ xid

/-- The object has no version up to the transaction. -/
def NoVersion (ms : List Mapping) (atXid oid : ℕ) : Prop :=
  ∀ m ∈ ms, m.oid = oid → atXid < m.xid

/-- What an index at a transaction ought to say of an object. -/
def Answers (ms : List Mapping) (atXid oid : ℕ) : Option ℕ → Prop
  | some addr => Newest ms atXid oid addr
  | none => NoVersion ms atXid oid

/-- The index that is made of records as they are visited. -/
def indexOf (atXid : ℕ) (kvs : List (Bytes × Bytes)) (oid : ℕ) : Option ℕ :=
  ((kvs.foldl (omapAdd atXid) fun _ => none) oid).map (·.2)

/-- The records of an object map that are visited, in their order. -/
def omapRecords (fs : Apfs) (omapOid : ℕ) : StateM ℕ (List (Bytes × Bytes)) := do
  let treeOid := leU64 (fs.readBlock omapOid) 48
  if treeOid = 0 then pure []
  else
    match Node.parse (fs.readBlock treeOid) with
    | none => pure []
    | some root => fs.budgetedWalk root fs.readVerifiedBlock 16 16

/-- `omap_index` is the index of the records that are visited. -/
lemma omapIndex_eq (fs : Apfs) (omapOid atXid work : ℕ) :
    (fs.omapIndex omapOid atXid work).1 = indexOf atXid (omapRecords fs omapOid work).1 := by
  unfold omapIndex omapRecords
  dsimp only
  split
  · rfl
  · cases Node.parse (fs.readBlock (leU64 (fs.readBlock omapOid) 48)) with
    | none => rfl
    | some root => rfl

/-! ## The best version so far -/

/-- What is kept of an object is its newest version among the mappings. -/
def IsBest (ms : List Mapping) (atXid oid : ℕ) : Option (ℕ × ℕ) → Prop
  | some (xid, addr) => xid ≤ atXid ∧ ⟨oid, xid, addr⟩ ∈ ms ∧
      ∀ m ∈ ms, m.oid = oid → m.xid ≤ atXid → m.xid ≤ xid
  | none => NoVersion ms atXid oid

section Step

variable {ms : List Mapping} {atXid oid : ℕ} {best : Option (ℕ × ℕ)} {m : Mapping}

/-- A mapping of another object, or one that is too young, changes nothing. -/
lemma IsBest.pass (h : IsBest ms atXid oid best) (hm : m.oid = oid → atXid < m.xid) :
    IsBest (ms ++ [m]) atXid oid best := by
  cases best with
  | none =>
    intro m' hm' hoid
    obtain hm' | hm' := List.mem_append.1 hm'
    · exact h m' hm' hoid
    · obtain rfl := List.mem_singleton.1 hm'
      exact hm hoid
  | some v =>
    obtain ⟨hxid, hmem, hbest⟩ := h
    refine ⟨hxid, List.mem_append_left _ hmem, fun m' hm' hoid hle => ?_⟩
    obtain hm' | hm' := List.mem_append.1 hm'
    · exact hbest m' hm' hoid hle
    · obtain rfl := List.mem_singleton.1 hm'
      exact absurd hle (not_le.2 (hm hoid))

/-- A mapping that is not older replaces what is kept. -/
lemma IsBest.replace (h : IsBest ms atXid oid best) (hoid : m.oid = oid) (hle : m.xid ≤ atXid)
    (hnew : (best.getD (0, 0)).1 ≤ m.xid) :
    IsBest (ms ++ [m]) atXid oid (some (m.xid, m.paddr)) := by
  subst hoid
  refine ⟨hle, List.mem_append_right _ List.mem_cons_self, fun m' hm' hoid hle' => ?_⟩
  obtain hm' | hm' := List.mem_append.1 hm'
  · cases best with
    | none => exact absurd hle' (not_le.2 (h m' hm' hoid))
    | some v => exact (h.2.2 m' hm' hoid hle').trans hnew
  · obtain rfl := List.mem_singleton.1 hm'
    exact le_rfl

/-- An older mapping is not kept. -/
lemma IsBest.keep (h : IsBest ms atXid oid best) (hold : m.xid < (best.getD (0, 0)).1) :
    IsBest (ms ++ [m]) atXid oid best := by
  cases best with
  | none => exact absurd hold (Nat.not_lt_zero _)
  | some v =>
    obtain ⟨hxid, hmem, hbest⟩ := h
    refine ⟨hxid, List.mem_append_left _ hmem, fun m' hm' hoid hle => ?_⟩
    obtain hm' | hm' := List.mem_append.1 hm'
    · exact hbest m' hm' hoid hle
    · obtain rfl := List.mem_singleton.1 hm'
      exact hold.le

end Step

/-- **One record more**: what is kept of each object is still its newest version. -/
lemma isBest_omapAdd {ms : List Mapping} {atXid oid : ℕ} {idx : ℕ → Option (ℕ × ℕ)}
    (h : IsBest ms atXid oid (idx oid)) (kv : Bytes × Bytes) :
    IsBest (ms ++ [Mapping.ofRecord kv]) atXid oid (omapAdd atXid idx kv oid) := by
  unfold omapAdd
  split
  · rename_i hyoung
    exact h.pass fun _ => hyoung
  · rename_i hle
    by_cases hoid : leU64 kv.1 0 = oid
    · subst hoid
      split
      · rename_i hnew
        rw [Function.update_self]
        exact h.replace rfl (not_lt.1 hle) hnew
      · rename_i hold
        exact h.keep (not_le.1 hold)
    · have hother : ∀ v, Function.update idx (leU64 kv.1 0) v oid = idx oid :=
        fun v => Function.update_of_ne (Ne.symm hoid) v idx
      have hpass := h.pass (m := Mapping.ofRecord kv) fun he => absurd he hoid
      split
      · rw [hother]
        exact hpass
      · exact hpass

/-- After all records, what is kept of each object is its newest version. -/
lemma isBest_foldl (atXid oid : ℕ) (kvs : List (Bytes × Bytes)) :
    IsBest (kvs.map Mapping.ofRecord) atXid oid
      (kvs.foldl (omapAdd atXid) (fun _ => none) oid) := by
  induction kvs using List.reverseRecOn with
  | nil => exact fun m hm => absurd hm List.not_mem_nil
  | append_singleton kvs kv ih =>
    rw [List.foldl_append, List.map_append]
    exact isBest_omapAdd ih kv

lemma answers_indexOf (atXid oid : ℕ) (kvs : List (Bytes × Bytes)) :
    Answers (kvs.map Mapping.ofRecord) atXid oid (indexOf atXid kvs oid) := by
  have hbest := isBest_foldl atXid oid kvs
  unfold indexOf
  cases hidx : kvs.foldl (omapAdd atXid) (fun _ => none) oid with
  | none =>
    rw [hidx] at hbest
    exact hbest
  | some v =>
    rw [hidx] at hbest
    obtain ⟨hxid, hmem, hnewest⟩ := hbest
    exact ⟨v.1, hxid, hmem, hnewest⟩

/-- The tree of an object map, in the blocks of a container. -/
structure IsOmap (fs : Apfs) (omapOid : ℕ) (l : ℕ) (tree : TreeAt l) : Prop where
  place : leU64 (fs.readBlock omapOid) 48 ≠ 0
  block : fs.readBlock (leU64 (fs.readBlock omapOid) 48) = (TreeAt.root l tree).block
  sound : TreeAt.Sound fs.readVerifiedBlock 16 16 l tree
  pointers : (TreeAt.pointers l tree).Nodup

section Tree

variable {fs : Apfs} {omapOid work l : ℕ} {tree : TreeAt l}

/-- All records of a well-formed object map are visited, each once, if the budget is enough. -/
lemma omapRecords_perm (h : IsOmap fs omapOid l tree)
    (hbudget : TreeAt.nodes l tree ≤ min work fs.nodeBudget) :
    (omapRecords fs omapOid work).1.Perm (TreeAt.records l tree) := by
  obtain ⟨ps, rs, hgrown, hps, hrs⟩ := TreeAt.grown_root h.sound
  have hwalk := hgrown.walk (hps.nodup_iff.2 h.pointers) [] (fun p _ => List.not_mem_nil)
    (min work fs.nodeBudget - TreeAt.nodes l tree)
  rw [Nat.add_sub_cancel' hbudget] at hwalk
  unfold omapRecords
  rw [if_neg h.place, h.block, NodeImage.parse_block h.sound.image.1]
  have hvisited :
      (fs.budgetedWalk (TreeAt.root l tree).node fs.readVerifiedBlock 16 16 work).1 = rs :=
    congrArg Prod.fst hwalk
  exact hvisited ▸ hrs

lemma Answers.congr {ms ms' : List Mapping} (hms : ∀ m, m ∈ ms ↔ m ∈ ms') {atXid oid : ℕ}
    {found : Option ℕ} (h : Answers ms atXid oid found) : Answers ms' atXid oid found := by
  cases found with
  | none => exact fun m hm => h m ((hms m).2 hm)
  | some addr =>
    obtain ⟨xid, hxid, hmem, hnewest⟩ := h
    exact ⟨xid, hxid, (hms _).1 hmem, fun m hm => hnewest m ((hms m).2 hm)⟩

/-- **A well-formed object map is indexed whole.** -/
lemma answers_omapIndex (h : IsOmap fs omapOid l tree)
    (hbudget : TreeAt.nodes l tree ≤ min work fs.nodeBudget) (atXid oid : ℕ) :
    Answers ((TreeAt.records l tree).map Mapping.ofRecord) atXid oid
      ((fs.omapIndex omapOid atXid work).1 oid) := by
  rw [omapIndex_eq]
  have hperm := (omapRecords_perm h hbudget).map Mapping.ofRecord
  exact (answers_indexOf ..).congr fun m => hperm.mem_iff

end Tree
end Apfs
end Reclaim
