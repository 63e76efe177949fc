import Reclaim.Carve.Engine
import Reclaim.Session.Entries

/-!
# The rows of the carve engine

Carved files and named entries share one table.  What is done to the rows of a scan afterwards, the
labels and the merge, is done row by row under its id and leaves the ids alone.
-/

namespace Reclaim

open FileBytes KeyedTable

/-- `ENGINE`: the name that carve rows are stored under. -/
def carveName : String := "carve"

/-- The row of a carved file. -/
def CarvedFile.record (B : Backend) (sourceId engine : String) (cf : CarvedFile) :
    CarvedRecord where
  id := resultId B sourceId engine cf.offset cf.len
  sourceId := sourceId
  engine := engine
  offset := cf.offset
  len := cf.len
  format := cf.format
  family := cf.family
  ext := cf.ext
  validity := cf.validity
  name := cf.metadata.name
  date := cf.metadata.date
  model := cf.metadata.model
  path := none
  state := none
  extentsJson := none
  merged := false

/-- `insert_carved`: a batch of carved files, in one transaction. -/
def insertCarved (B : Backend) (sourceId engine : String) (t : Rows) (batch : List CarvedFile) :
    Rows := t.insertRecords (batch.map (CarvedFile.record B sourceId engine))

namespace Rows

variable {f : CarvedRecord → CarvedRecord}

/-- Change rows without changing their ids. -/
def update (t : Rows) (f : CarvedRecord → CarvedRecord) (hf : ∀ r, (f r).id = r.id) : Rows where
  rows := t.rows.map f
  unique := by
    have hkeys : keys CarvedRecord.id (t.rows.map f) = keys CarvedRecord.id t.rows := by
      simp only [keys, List.map_map]
      exact List.map_congr_left fun r _ => hf r
    rw [hkeys]
    exact t.unique

@[simp] lemma rows_update (t : Rows) (hf : ∀ r, (f r).id = r.id) :
    (t.update f hf).rows = t.rows.map f := rfl

/-- A row is determined by its id. -/
lemma eq_of_id_eq {t : Rows} {r r' : CarvedRecord} (hr : r ∈ t.rows) (hr' : r' ∈ t.rows)
    (h : r.id = r'.id) : r = r' := eq_of_key_eq t.unique hr hr' h

/-- The ids of some of the rows are distinct. -/
lemma nodup_ids_filter (t : Rows) (p : CarvedRecord → Bool) :
    ((t.rows.filter p).map CarvedRecord.id).Nodup :=
  (t.unique.sublist ((List.filter_sublist).map CarvedRecord.id))

end Rows

/-! ## Updates under an id -/

section Updates

variable {α : Type} (g : α → CarvedRecord → CarvedRecord)

/-- One update: the row with the id of `u`, if there is one. -/
def applyUpdate (u : String × α) (r : CarvedRecord) : CarvedRecord :=
  if r.id = u.1 then g u.2 r else r

/-- What a list of updates makes of a row. -/
def applyUpdates (us : List (String × α)) (r : CarvedRecord) : CarvedRecord :=
  us.foldl (fun r u => applyUpdate g u r) r

variable {g} (hg : ∀ a r, (g a r).id = r.id)

include hg

lemma id_applyUpdate (u : String × α) (r : CarvedRecord) : (applyUpdate g u r).id = r.id := by
  unfold applyUpdate
  split
  · exact hg _ _
  · rfl

lemma id_applyUpdates (us : List (String × α)) (r : CarvedRecord) :
    (applyUpdates g us r).id = r.id := by
  induction us generalizing r with
  | nil => rfl
  | cons u us ih => exact (ih _).trans (id_applyUpdate hg u r)

omit hg in
/-- A row that is not named stays as it is. -/
lemma applyUpdates_of_notMem {us : List (String × α)} {r : CarvedRecord}
    (h : r.id ∉ us.map Prod.fst) : applyUpdates g us r = r := by
  induction us with
  | nil => rfl
  | cons u us ih =>
    simp only [List.map_cons, List.mem_cons, not_or] at h
    rw [applyUpdates, List.foldl_cons, applyUpdate, if_neg h.1]
    exact ih h.2

/-- A row that is named once is changed as its update says. -/
lemma applyUpdates_of_mem {us : List (String × α)} (hnodup : (us.map Prod.fst).Nodup)
    {r : CarvedRecord} {a : α} (h : (r.id, a) ∈ us) : applyUpdates g us r = g a r := by
  induction us generalizing r with
  | nil => exact absurd h (by simp)
  | cons u us ih =>
    rw [List.map_cons, List.nodup_cons] at hnodup
    rw [applyUpdates, List.foldl_cons, ← applyUpdates]
    rcases List.mem_cons.1 h with h | h
    · rw [applyUpdate, if_pos (by rw [← h]), ← h]
      exact applyUpdates_of_notMem (by rw [hg, show r.id = u.1 by rw [← h]]; exact hnodup.1)
    · have hne : r.id ≠ u.1 := fun heq => hnodup.1 (heq ▸ List.mem_map_of_mem h)
      rw [applyUpdate, if_neg hne]
      exact ih hnodup.2 h

end Updates

end Reclaim
