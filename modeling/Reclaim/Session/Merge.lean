import Reclaim.Foundation.Transition
import Reclaim.Session.CarveRows

/-!
# Merging carved files into named entries

A carved file that begins where a named entry begins is that entry, so the merge hides it.  What the
merge compares with is more than where entries begin: the start of every extent of every entry, and
the offset column, which for an entry without extents is a hash of its path.

`HiddenRight` says that nothing is hidden but what some entry begins at.  A merge keeps it exactly
when no carve row lies only at one of the other offsets (`mergeCarved_hiddenRight_iff`), and so does
every history of inserts and merges whose merges are of this kind.
-/

namespace Reclaim

open FileBytes KeyedTable Transition

/-- The offsets that a row of a metadata engine is compared by: its column and its extents. -/
def CarvedRecord.mergeOffsets (r : CarvedRecord) : List ℕ :=
  r.offset :: (r.extentsJson.getD []).map (·.offset)

/-- The offsets that the merge looks for. -/
def mergeStarts (t : Rows) : List ℕ :=
  (t.rows.filter fun r => r.engine != carveName).flatMap (·.mergeOffsets)

/-- The carve rows that the merge hides. -/
def toMerge (t : Rows) : List String :=
  (t.rows.filter fun r => r.engine == carveName && !r.merged &&
    (mergeStarts t).contains r.offset).map (·.id)

/-- Hide a row. -/
def setMerged (_ : Unit) (r : CarvedRecord) : CarvedRecord := { r with merged := true }

lemma id_setMerged (u : Unit) (r : CarvedRecord) : (setMerged u r).id = r.id := rfl

/-- `merge_carved_into_entries`: how many rows were hidden, and the table. -/
def mergeCarved (t : Rows) : ℕ × Rows :=
  if mergeStarts t = [] then (0, t)
  else
    ((toMerge t).length, t.update (applyUpdates setMerged ((toMerge t).map fun id => (id, ())))
      (id_applyUpdates id_setMerged _))

/-- The row names a file whose content begins at the offset: its first extent does. -/
def CarvedRecord.BeginsAt (r : CarvedRecord) (offset : ℕ) : Prop :=
  ((r.extentsJson.getD []).head?).map (·.offset) = some offset

instance (r : CarvedRecord) (offset : ℕ) : Decidable (r.BeginsAt offset) :=
  inferInstanceAs (Decidable (_ = _))

/-- A row of a metadata engine names a file that begins at the offset. -/
def Named (t : Rows) (offset : ℕ) : Prop :=
  ∃ e ∈ t.rows, e.engine ≠ carveName ∧ e.BeginsAt offset

instance (t : Rows) (offset : ℕ) : Decidable (Named t offset) :=
  inferInstanceAs (Decidable (∃ e ∈ t.rows, _))

/-- Only carve rows that some named file begins at are hidden. -/
def HiddenRight (t : Rows) : Prop :=
  ∀ r ∈ t.rows, r.engine = carveName → r.merged = true → Named t r.offset

instance (t : Rows) : Decidable (HiddenRight t) := inferInstanceAs (Decidable (∀ r ∈ t.rows, _))

/-- Merging once more changes nothing. -/
def MergeIdempotent (t : Rows) : Prop := mergeCarved (mergeCarved t).2 = (0, (mergeCarved t).2)

/-- No visible carve row lies at an offset column or at an extent of a named file without a named
file beginning there. -/
def NoStray (t : Rows) : Prop :=
  ∀ r ∈ t.rows, r.engine = carveName → r.merged = false →
    (∃ e ∈ t.rows, e.engine ≠ carveName ∧ r.offset ∈ e.mergeOffsets) → Named t r.offset

instance (t : Rows) : Decidable (NoStray t) := inferInstanceAs (Decidable (∀ r ∈ t.rows, _))

/-! ## One merge -/

section Merge

variable {t : Rows} {r : CarvedRecord}

lemma mem_mergeStarts {offset : ℕ} : offset ∈ mergeStarts t ↔
    ∃ e ∈ t.rows, e.engine ≠ carveName ∧ offset ∈ e.mergeOffsets := by
  simp [mergeStarts, and_assoc]

/-- What the merge makes of a row. -/
def merged (t : Rows) (r : CarvedRecord) : CarvedRecord :=
  if r.engine = carveName ∧ r.merged = false ∧ r.offset ∈ mergeStarts t then setMerged () r else r

/-- **The merge, row by row.** -/
lemma rows_mergeCarved (t : Rows) : (mergeCarved t).2.rows = t.rows.map (merged t) := by
  unfold mergeCarved
  split
  · rename_i hnone
    have hsame : ∀ r ∈ t.rows, merged t r = r := fun r _ => by
      unfold merged
      rw [if_neg (by simp [hnone])]
    exact (List.map_id _).symm.trans (List.map_congr_left fun r hr => (hsame r hr).symm)
  · apply List.map_congr_left
    intro r hr
    unfold merged
    have hnodup : (((toMerge t).map fun id => (id, ())).map Prod.fst).Nodup := by
      simp only [toMerge, List.map_map]
      exact t.nodup_ids_filter _
    split
    · rename_i hin
      apply applyUpdates_of_mem id_setMerged hnodup
      refine List.mem_map.2 ⟨r.id, List.mem_map_of_mem (List.mem_filter.2 ⟨hr, ?_⟩), rfl⟩
      simp [hin.1, hin.2.1, hin.2.2]
    · rename_i hout
      refine applyUpdates_of_notMem fun hmem => hout ?_
      simp only [toMerge, List.map_map, List.mem_map, Function.comp_apply, List.mem_filter] at hmem
      obtain ⟨r', ⟨hr', hin⟩, hid⟩ := hmem
      obtain rfl := Rows.eq_of_id_eq hr' hr hid
      simpa [and_assoc] using hin

lemma engine_merged : (merged t r).engine = r.engine := by
  unfold merged
  split <;> rfl

lemma offset_merged : (merged t r).offset = r.offset := by
  unfold merged
  split <;> rfl

lemma extentsJson_merged : (merged t r).extentsJson = r.extentsJson := by
  unfold merged
  split <;> rfl

lemma merged_merged : (merged t r).merged = true ↔
    r.merged = true ∨ r.engine = carveName ∧ r.offset ∈ mergeStarts t := by
  unfold merged
  split
  · rename_i h
    exact ⟨fun _ => .inr ⟨h.1, h.2.2⟩, fun _ => rfl⟩
  · rename_i h
    refine ⟨.inl, fun hor => ?_⟩
    rcases hor with hm | hin
    · exact hm
    · by_contra hm
      exact h ⟨hin.1, by simpa using hm, hin.2⟩

/-- A merge leaves the offsets of the entries alone. -/
lemma mem_mergeStarts_mergeCarved {offset : ℕ} :
    offset ∈ mergeStarts (mergeCarved t).2 ↔ offset ∈ mergeStarts t := by
  simp only [mem_mergeStarts, rows_mergeCarved, List.mem_map, exists_exists_and_eq_and,
    engine_merged, CarvedRecord.mergeOffsets, offset_merged, extentsJson_merged]

lemma named_mergeCarved {offset : ℕ} : Named (mergeCarved t).2 offset ↔ Named t offset := by
  simp only [Named, rows_mergeCarved, List.mem_map, exists_exists_and_eq_and, engine_merged,
    CarvedRecord.BeginsAt, extentsJson_merged]

/-- **Merging is idempotent.** -/
theorem mergeCarved_idempotent (t : Rows) : MergeIdempotent t := by
  have hnone : toMerge (mergeCarved t).2 = [] := by
    unfold toMerge
    rw [List.map_eq_nil_iff, List.filter_eq_nil_iff, rows_mergeCarved]
    intro r' hr'
    obtain ⟨r, -, rfl⟩ := List.mem_map.1 hr'
    rw [engine_merged, offset_merged, Bool.not_eq_true, List.contains_eq_mem]
    by_cases hin : r.engine = carveName ∧ r.offset ∈ mergeStarts t
    · rw [merged_merged.2 (.inr hin)]
      simp
    · have hout : r.engine ≠ carveName ∨ r.offset ∉ mergeStarts (mergeCarved t).2 := by
        rw [mem_mergeStarts_mergeCarved]
        tauto
      rcases hout with h | h <;> simp [h]
  unfold MergeIdempotent
  rw [mergeCarved]
  split
  · rfl
  · simp only [hnone]
    exact congrArg (Prod.mk 0) (Rows.ext (List.map_id _))

/-- **A merge hides the right rows exactly if no carve row is a stray.** -/
theorem mergeCarved_hiddenRight_iff (h : HiddenRight t) :
    HiddenRight (mergeCarved t).2 ↔ NoStray t := by
  constructor
  · intro h' r hr hcarve hvisible hin
    refine named_mergeCarved.1 (offset_merged ▸ h' (merged t r) ?_ ?_ ?_)
    · rw [rows_mergeCarved]
      exact List.mem_map_of_mem hr
    · rw [engine_merged, hcarve]
    · exact merged_merged.2 (.inr ⟨hcarve, mem_mergeStarts.2 hin⟩)
  · intro hstray r' hr' hcarve hhidden
    rw [rows_mergeCarved] at hr'
    obtain ⟨r, hr, rfl⟩ := List.mem_map.1 hr'
    rw [engine_merged] at hcarve
    rw [offset_merged, named_mergeCarved]
    cases hm : r.merged with
    | true => exact h r hr hcarve hm
    | false =>
      rcases merged_merged.1 hhidden with hm' | ⟨-, hin⟩
      · exact absurd (hm'.symm.trans hm) (by simp)
      · exact hstray r hr hcarve hm (mem_mergeStarts.1 hin)

end Merge

/-! ## Histories -/

/-- What is done to the table. -/
inductive MergeAct where
  | insertCarved (sourceId engine : String) (batch : List CarvedFile)
  | insertEntries (sourceId engine : String) (batch : List EntryRow)
  | merge

/-- The table behind an action. -/
def mergeStep (B : Backend) (t : Rows) : MergeAct → Option Rows
  | .insertCarved sourceId engine batch => some (insertCarved B sourceId engine t batch)
  | .insertEntries sourceId engine batch => some (insertEntries B sourceId engine t batch)
  | .merge => some (mergeCarved t).2

/-- Any order of inserts and merges on a new table. -/
def mergeSystem (B : Backend) : System Rows MergeAct where
  init t := t = Rows.empty
  step := mergeStep B

/-- The merges find no stray row. -/
def CleanMerge (t : Rows) : MergeAct → Prop
  | .merge => NoStray t
  | _ => True

section Histories

variable {B : Backend} {t : Rows}

/-- New rows are visible, and what was named stays named. -/
lemma HiddenRight.insertRecords (h : HiddenRight t) {batch : List CarvedRecord}
    (hnew : ∀ r ∈ batch, r.merged = false) : HiddenRight (t.insertRecords batch) := by
  intro r hr hcarve hhidden
  rcases mem_of_mem_insertAll hr with hold | hbatch
  · obtain ⟨e, he, hother, hbegins⟩ := h r hold hcarve hhidden
    exact ⟨e, mem_insertAll_of_mem he, hother, hbegins⟩
  · exact absurd ((hnew r hbatch).symm.trans hhidden) (by simp)

/-- **Every history of inserts and clean merges hides only what a named file begins at**, and
another merge would change nothing. -/
theorem history_hiddenRight (B : Backend) (t : Rows)
    (h : Reaches (mergeSystem B) CleanMerge t) : HiddenRight t ∧ MergeIdempotent t := by
  refine ⟨?_, mergeCarved_idempotent t⟩
  refine Reaches.invariant (I := HiddenRight) ?_ ?_ h
  · rintro s rfl r hr
    exact absurd hr (by simp [Rows.empty])
  · intro s a u hs ha hstep
    cases a with
    | insertCarved sourceId engine batch =>
      obtain rfl := Option.some.inj hstep
      apply hs.insertRecords
      intro r hr
      obtain ⟨cf, -, rfl⟩ := List.mem_map.1 hr
      rfl
    | insertEntries sourceId engine batch =>
      obtain rfl := Option.some.inj hstep
      apply hs.insertRecords
      intro r hr
      obtain ⟨e, -, rfl⟩ := List.mem_map.1 hr
      rfl
    | merge =>
      obtain rfl := Option.some.inj hstep
      exact (mergeCarved_hiddenRight_iff hs).2 ha

end Histories

/-- A carved picture of 16 bytes at an offset. -/
def carvedAt (offset : ℕ) : CarvedFile where
  offset := offset
  len := 16
  format := "image.png"
  family := "image"
  ext := "png"
  validity := .full
  score := 90
  metadata := ⟨none, none, none⟩

/-- A named file of two fragments. -/
def fragmented : EntryRow where
  path := "a.bin"
  name := "a.bin"
  state := "live"
  family := "other"
  ext := "bin"
  format := "other.bin"
  offset := 0
  len := 1024
  extents := [⟨0, 512⟩, ⟨4096, 512⟩]
  date := none
  contiguousAssumed := false

/-- A picture at the beginning of a named file is hidden by the merge, as it should. -/
theorem beginning_hiddenRight :
    HiddenRight (mergeCarved (insertEntries .plain "s" "exfat"
      (insertCarved .plain "s" carveName .empty [carvedAt 0]) [fragmented])).2 ∧ MergeIdempotent
      (mergeCarved (insertEntries .plain "s" "exfat"
        (insertCarved .plain "s" carveName .empty [carvedAt 0]) [fragmented])).2 := by
  apply history_hiddenRight .plain _
  have h0 : Reaches (mergeSystem .plain) CleanMerge Rows.empty := .init rfl
  have h1 := Reaches.step (MergeAct.insertCarved "s" carveName [carvedAt 0]) h0 trivial rfl
  have h2 := Reaches.step (MergeAct.insertEntries "s" "exfat" [fragmented]) h1 trivial rfl
  exact h2.step .merge (show NoStray _ by decide +kernel) rfl

/-- A picture at the second fragment of a named file is hidden, and no file begins there. -/
theorem fragment_counterexample : ∃ t, Reaches (mergeSystem .plain) (fun _ _ => True) t ∧
    ¬ (HiddenRight t ∧ MergeIdempotent t) := by
  refine ⟨_, Reaches.of_runFrom (.init rfl) [.insertCarved "s" carveName [carvedAt 4096],
    .insertEntries "s" "exfat" [fragmented], .merge] rfl, fun h => ?_⟩
  exact absurd h.1 (by decide +kernel)

end Reclaim
