import Mathlib.Data.List.Nodup
import Mathlib.Data.List.Infix
import Mathlib.Tactic

/-!
# Tables with a primary key

A table is the list of its rows in insertion order.  `insertOrIgnore` is the statement of that
name: a row whose key is taken is dropped.  A row of the table after a batch was there before or
is the first of the batch with its key, so a batch that was stored once, whole or in part, changes
nothing when it is stored again.
-/

namespace KeyedTable

variable {ρ κ : Type} [DecidableEq κ] (key : ρ → κ)

/-- The keys of a table. -/
def keys (t : List ρ) : List κ := t.map key

/-- Add a row unless its key is taken. -/
def insertOrIgnore (t : List ρ) (r : ρ) : List ρ :=
  if key r ∈ keys key t then t else t ++ [r]

/-- Add the rows of a batch in turn. -/
def insertAll (t : List ρ) (batch : List ρ) : List ρ := batch.foldl (insertOrIgnore key) t

variable {key}

@[simp] lemma insertAll_nil (t : List ρ) : insertAll key t [] = t := rfl

@[simp] lemma insertAll_cons (t : List ρ) (r : ρ) (batch : List ρ) :
    insertAll key t (r :: batch) = insertAll key (insertOrIgnore key t r) batch := rfl

lemma insertAll_append (t b b' : List ρ) :
    insertAll key t (b ++ b') = insertAll key (insertAll key t b) b' := List.foldl_append

lemma insertOrIgnore_of_mem {t : List ρ} {r : ρ} (h : key r ∈ keys key t) :
    insertOrIgnore key t r = t := if_pos h

lemma insertOrIgnore_of_notMem {t : List ρ} {r : ρ} (h : key r ∉ keys key t) :
    insertOrIgnore key t r = t ++ [r] := if_neg h

/-! ## Which keys are taken -/

omit [DecidableEq κ] in
lemma mem_keys {t : List ρ} {k : κ} : k ∈ keys key t ↔ ∃ r ∈ t, key r = k := List.mem_map

omit [DecidableEq κ] in
lemma mem_keys_of_mem {t : List ρ} {r : ρ} (h : r ∈ t) : key r ∈ keys key t :=
  List.mem_map_of_mem h

lemma mem_keys_insertOrIgnore {t : List ρ} {r : ρ} {k : κ} :
    k ∈ keys key (insertOrIgnore key t r) ↔ k ∈ keys key t ∨ k = key r := by
  by_cases h : key r ∈ keys key t
  · rw [insertOrIgnore_of_mem h]
    refine ⟨Or.inl, fun hk => ?_⟩
    rcases hk with hk | rfl
    · exact hk
    · exact h
  · rw [insertOrIgnore_of_notMem h]
    simp [keys]

/-- Every key of the batch is taken afterwards, and no other is added. -/
lemma mem_keys_insertAll {t batch : List ρ} {k : κ} :
    k ∈ keys key (insertAll key t batch) ↔ k ∈ keys key t ∨ k ∈ keys key batch := by
  induction batch generalizing t with
  | nil => simp [keys]
  | cons r batch ih =>
    rw [insertAll_cons, ih, mem_keys_insertOrIgnore]
    simp only [keys, List.map_cons, List.mem_cons]
    tauto

/-! ## Which rows are there -/

lemma prefix_insertOrIgnore (t : List ρ) (r : ρ) : t <+: insertOrIgnore key t r := by
  unfold insertOrIgnore
  split
  · exact List.prefix_rfl
  · exact List.prefix_append t [r]

/-- No row is removed or moved. -/
lemma prefix_insertAll (t batch : List ρ) : t <+: insertAll key t batch := by
  induction batch generalizing t with
  | nil => exact List.prefix_rfl
  | cons r batch ih => exact (prefix_insertOrIgnore t r).trans (ih _)

lemma mem_insertAll_of_mem {t batch : List ρ} {r : ρ} (h : r ∈ t) : r ∈ insertAll key t batch :=
  (prefix_insertAll t batch).subset h

/-- A row was there before or comes from the batch. -/
lemma mem_of_mem_insertAll {t batch : List ρ} {r : ρ} (h : r ∈ insertAll key t batch) :
    r ∈ t ∨ r ∈ batch := by
  induction batch generalizing t with
  | nil => exact .inl h
  | cons b batch ih =>
    rcases ih h with h | h
    · unfold insertOrIgnore at h
      split at h
      · exact .inl h
      · rcases List.mem_append.1 h with h | h
        · exact .inl h
        · exact .inr (List.mem_cons.2 (.inl (List.mem_singleton.1 h)))
    · exact .inr (List.mem_cons_of_mem _ h)

/-- The table keeps its keys distinct. -/
lemma nodup_insertAll {t : List ρ} (h : (keys key t).Nodup) (batch : List ρ) :
    (keys key (insertAll key t batch)).Nodup := by
  induction batch generalizing t with
  | nil => exact h
  | cons r batch ih =>
    apply ih
    unfold insertOrIgnore
    split
    · exact h
    · rename_i hr
      rw [keys, List.map_append, List.map_singleton]
      exact List.nodup_append.2 ⟨h, List.nodup_singleton _, fun a ha b hb hab =>
        hr (by rw [← List.mem_singleton.1 hb, ← hab]; exact ha)⟩

omit [DecidableEq κ] in
/-- With distinct keys, a row is determined by its key. -/
lemma eq_of_key_eq {t : List ρ} (h : (keys key t).Nodup) {r r' : ρ} (hr : r ∈ t) (hr' : r' ∈ t)
    (hk : key r = key r') : r = r' := List.inj_on_of_nodup_map h hr hr' hk

/-- A batch whose keys are all taken changes nothing. -/
lemma insertAll_of_subset {t batch : List ρ} (h : ∀ r ∈ batch, key r ∈ keys key t) :
    insertAll key t batch = t := by
  induction batch with
  | nil => rfl
  | cons r batch ih =>
    rw [insertAll_cons, insertOrIgnore_of_mem (h r List.mem_cons_self)]
    exact ih fun r' hr' => h r' (List.mem_cons_of_mem _ hr')

/-- Storing a batch again changes nothing. -/
lemma insertAll_idem (t batch : List ρ) :
    insertAll key (insertAll key t batch) batch = insertAll key t batch :=
  insertAll_of_subset fun _ hr => mem_keys_insertAll.2 (.inr (mem_keys_of_mem hr))

end KeyedTable
