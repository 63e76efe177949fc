import Mathlib.Tactic

/-!
# Stored proposals

`replace_proposals` deletes the rows of the table and inserts the new ones, each by a statement of
its own and none of them in a transaction.  What a statement does stays when a later one fails: so
the old list is lost as soon as the rows are deleted, and the new one is there only as far as its
rows were inserted.
-/

namespace Reclaim

/-- `ProposalRow`: a lost volume. -/
structure ProposalRow where
  start : UInt64
  len : UInt64
  fs : String
  confidence : ℚ
  evidence : String
  deriving DecidableEq

/-- A row of `proposed_volumes`. -/
structure ProposedVolume where
  id : ℕ
  start : Int64
  len : Int64
  fs : String
  confidence : ℚ
  evidence : String

/-- The columns of a row. -/
def ProposalRow.store (r : ProposalRow) (id : ℕ) : ProposedVolume :=
  ⟨id, r.start.toInt64, r.len.toInt64, r.fs, r.confidence, r.evidence⟩

/-- The row read back. -/
def ProposedVolume.load (v : ProposedVolume) : ProposalRow :=
  ⟨v.start.toUInt64, v.len.toUInt64, v.fs, v.confidence, v.evidence⟩

lemma load_store (r : ProposalRow) (id : ℕ) : (r.store id).load = r := by
  simp [ProposalRow.store, ProposedVolume.load]

/-- `proposed_volumes`: its rows, and the greatest id that was ever given. -/
structure ProposedVolumes where
  rows : List ProposedVolume
  seq : ℕ
  ids : rows.Pairwise fun v w => v.id < w.id
  le_seq : ∀ v ∈ rows, v.id ≤ seq

namespace ProposedVolumes

variable (t : ProposedVolumes)

/-- `DELETE FROM proposed_volumes`. -/
def clear : ProposedVolumes where
  rows := []
  seq := t.seq
  ids := .nil
  le_seq _ hv := absurd hv List.not_mem_nil

/-- `INSERT INTO proposed_volumes`: with the next id. -/
def insert (r : ProposalRow) : ProposedVolumes where
  rows := t.rows ++ [r.store (t.seq + 1)]
  seq := t.seq + 1
  ids := by
    refine List.pairwise_append.2 ⟨t.ids, List.pairwise_singleton .., fun v hv w hw => ?_⟩
    obtain rfl := List.mem_singleton.1 hw
    exact Nat.lt_succ_of_le (t.le_seq v hv)
  le_seq v hv := by
    rcases List.mem_append.1 hv with hv | hv
    · exact (t.le_seq v hv).trans (Nat.le_succ _)
    · obtain rfl := List.mem_singleton.1 hv
      exact le_rfl

/-- `list_proposals`: the rows by id. -/
def list : List ProposalRow :=
  (t.rows.mergeSort fun v w => decide (v.id ≤ w.id)).map ProposedVolume.load

/-- The inserts, from statement `k` on, of which statement `failAt` fails. -/
def insertFrom (failAt : Option ℕ) : ℕ → ProposedVolumes → List ProposalRow → Bool × ProposedVolumes
  | _, t, [] => (true, t)
  | k, t, r :: rows =>
    if failAt = some k then (false, t) else insertFrom failAt (k + 1) (t.insert r) rows

/-- `replace_proposals`, of whose statements `failAt` fails: whether it returned without an error,
and the table. -/
def replace (failAt : Option ℕ) (rows : List ProposalRow) : Bool × ProposedVolumes :=
  if failAt = some 0 then (false, t) else insertFrom failAt 1 t.clear rows

/-! ## What is stored -/

variable {t} {failAt : Option ℕ} {k : ℕ} {r : ProposalRow} {rows : List ProposalRow}

/-- The rows are kept by id. -/
lemma list_eq (t : ProposedVolumes) : t.list = t.rows.map ProposedVolume.load := by
  have hsorted : t.rows.Pairwise fun v w => decide (v.id ≤ w.id) = true :=
    t.ids.imp fun h => decide_eq_true h.le
  rw [list, List.mergeSort_of_pairwise hsorted]

lemma list_clear (t : ProposedVolumes) : t.clear.list = [] := by rw [list_eq]; rfl

lemma list_insert (t : ProposedVolumes) (r : ProposalRow) : (t.insert r).list = t.list ++ [r] := by
  rw [list_eq, list_eq, insert, List.map_append, List.map_singleton, load_store]

/-- The inserts add their rows, up to the one that fails. -/
lemma list_insertFrom (failAt : Option ℕ) (k : ℕ) (t : ProposedVolumes)
    (rows : List ProposalRow) :
    (∃ i < rows.length, failAt = some (k + i) ∧
      (insertFrom failAt k t rows).1 = false ∧
        (insertFrom failAt k t rows).2.list = t.list ++ rows.take i) ∨
    (∀ i < rows.length, failAt ≠ some (k + i)) ∧
      (insertFrom failAt k t rows).1 = true ∧
        (insertFrom failAt k t rows).2.list = t.list ++ rows := by
  induction rows generalizing k t with
  | nil => exact .inr ⟨fun i hi => absurd hi (Nat.not_lt_zero i), rfl, (List.append_nil _).symm⟩
  | cons r rows ih =>
    rw [insertFrom]
    by_cases hk : failAt = some k
    · rw [if_pos hk]
      exact .inl ⟨0, Nat.succ_pos _, hk, rfl, (List.append_nil _).symm⟩
    · rw [if_neg hk]
      rcases ih (k + 1) (t.insert r) with ⟨i, hi, hfail, hret, hlist⟩ | ⟨hfail, hret, hlist⟩
      · refine .inl ⟨i + 1, Nat.succ_lt_succ hi, ?_, hret, ?_⟩
        · rw [hfail, Nat.add_right_comm, Nat.add_assoc]
        · rw [hlist, list_insert, List.append_assoc, List.take_succ_cons, List.singleton_append]
      · refine .inr ⟨fun i hi => ?_, hret, ?_⟩
        · cases i with
          | zero => exact hk
          | succ i =>
            rw [← Nat.add_assoc, Nat.add_right_comm]
            exact hfail i (Nat.lt_of_succ_lt_succ hi)
        · rw [hlist, list_insert, List.append_assoc, List.singleton_append]

/-- **`replace_proposals` leaves the new list or the old one** exactly if no insert fails behind
which the old list was another than the rows inserted before it. -/
theorem replace_atomic_iff (t : ProposedVolumes) (failAt : Option ℕ) (rows : List ProposalRow) :
    ((t.replace failAt rows).2.list = rows ∨ (t.replace failAt rows).2.list = t.list) ↔
      ∀ i < rows.length, failAt = some (i + 1) → t.list = rows.take i := by
  unfold replace
  by_cases hzero : failAt = some 0
  · rw [if_pos hzero, hzero]
    exact iff_of_true (.inr rfl) fun i _ h => absurd (Option.some.inj h) (Nat.succ_ne_zero i).symm
  · rw [if_neg hzero]
    rcases list_insertFrom failAt 1 t.clear rows with ⟨i, hi, hfail, -, hlist⟩ | ⟨hfail, -, hlist⟩
    · rw [list_clear, List.nil_append] at hlist
      rw [hlist]
      have hshort : rows.take i ≠ rows := by
        intro h
        have hlen := congrArg List.length h
        rw [List.length_take] at hlen
        omega
      rw [or_iff_right hshort]
      constructor
      · intro h j _ hj
        rw [hfail] at hj
        obtain rfl : i = j := by
          have := Option.some.inj hj
          omega
        exact h.symm
      · intro h
        rw [Nat.add_comm] at hfail
        exact (h i hi hfail).symm
    · rw [list_clear, List.nil_append] at hlist
      refine iff_of_true (.inl hlist) fun i hi h => ?_
      rw [Nat.add_comm] at h
      exact absurd h (hfail i hi)

/-- One proposal is stored, and the insert of another fails: none is stored any more. -/
theorem replace_counterexample :
    let old : ProposalRow := ⟨2048, 4096, "ntfs", 9 / 10, "boot sector"⟩
    let new : ProposalRow := ⟨8192, 4096, "ext4", 9 / 10, "superblock"⟩
    let before : ProposedVolumes := insert ⟨[], 0, .nil, by simp⟩ old
    let after := (before.replace (some 1) [new]).2
    before.list = [old] ∧ after.list = [] := by
  refine ⟨?_, ?_⟩
  · rw [list_insert, list_eq]
    rfl
  · exact list_clear _

end ProposedVolumes
end Reclaim
