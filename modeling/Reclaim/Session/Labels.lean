import Reclaim.Fs.FreeSpace
import Reclaim.Session.CarveRows

/-!
# Labels from allocation bitmaps

A filesystem's bitmap says which of its clusters are in use, and `label_carved` labels every carve
row by the bitmaps of the volumes that were walked.  A bitmap answers "allocated" for every offset
that it does not reach, and a row is allocated if any bitmap says so.  With one volume that is the
label of its bitmap.  With two, each volume's rows lie outside the other's bitmap.
-/

namespace Reclaim

open FileBytes KeyedTable

/-- An allocation bitmap anchored at the start of its volume. -/
structure AbsBitmap where
  base : ℕ
  bitmap : Bitmap

/-- Allocation state at an absolute offset. -/
def AbsBitmap.isAllocated (b : AbsBitmap) (abs : ℕ) : Bool :=
  if abs < b.base then true else b.bitmap.isOffsetAllocated (abs - b.base)

/-- The label of an allocation state. -/
def allocationLabel (allocated : Bool) : String := if allocated then "allocated" else "unallocated"

/-- `carve_offsets`: id and offset of every carve row. -/
def carveOffsets (t : Rows) : List (String × ℕ) :=
  (t.rows.filter fun r => r.engine == carveName).map fun r => (r.id, r.offset)

/-- Set the state of a row, and hide it if asked to. -/
def setLabel (l : String × Bool) (r : CarvedRecord) : CarvedRecord :=
  { r with state := some l.1, merged := l.2 || r.merged }

lemma id_setLabel (l : String × Bool) (r : CarvedRecord) : (setLabel l r).id = r.id := rfl

/-- `apply_carve_labels`. -/
def applyCarveLabels (t : Rows) (updates : List (String × String × Bool)) : Rows :=
  t.update (applyUpdates setLabel updates) (id_applyUpdates id_setLabel updates)

/-- What the bitmaps together say of an offset. -/
def anyAllocated (bitmaps : List AbsBitmap) (offset : ℕ) : Bool :=
  bitmaps.any fun b => b.isAllocated offset

/-- `label_carved`: how many rows were labelled allocated and unallocated, and the table. -/
def labelCarved (bitmaps : List AbsBitmap) (unallocatedOnly : Bool) (t : Rows) : (ℕ × ℕ) × Rows :=
  if bitmaps = [] then ((0, 0), t)
  else
    let rows := carveOffsets t
    let updates := rows.map fun r =>
      (r.1, allocationLabel (anyAllocated bitmaps r.2),
        unallocatedOnly && anyAllocated bitmaps r.2)
    ((rows.countP fun r => anyAllocated bitmaps r.2,
      rows.countP fun r => !anyAllocated bitmaps r.2), applyCarveLabels t updates)

/-- A volume with its bitmap. -/
structure DescribedVolume where
  /-- Length in bytes. -/
  len : ℕ
  bitmap : AbsBitmap

namespace DescribedVolume

/-- The offset is in the volume. -/
def Contains (v : DescribedVolume) (offset : ℕ) : Prop :=
  v.bitmap.base ≤ offset ∧ offset < v.bitmap.base + v.len

instance (v : DescribedVolume) (offset : ℕ) : Decidable (v.Contains offset) :=
  inferInstanceAs (Decidable (_ ∧ _))

end DescribedVolume

/-- The bitmaps of the volumes. -/
def bitmapsOf (vols : List DescribedVolume) : List AbsBitmap := vols.map (·.bitmap)

/-- The row `after` has the label that the row `before` should get: that of the volume it lies in,
or, outside all of them, the one for space of which nothing is known. -/
structure LabelRight (vols : List DescribedVolume) (before after : CarvedRecord) : Prop where
  inside : ∀ v ∈ vols, v.Contains before.offset →
    after.state = some (allocationLabel (v.bitmap.isAllocated before.offset))
  outside : (∀ v ∈ vols, ¬ v.Contains before.offset) →
    after.state = if vols = [] then before.state else some (allocationLabel true)

/-- A call labels every carve row as it should, whatever the order of the volumes. -/
structure LabelsRight (vols : List DescribedVolume) (unallocatedOnly : Bool) (t : Rows) : Prop where
  labels : ∀ r ∈ t.rows, r.engine = carveName →
    ∀ r' ∈ (labelCarved (bitmapsOf vols) unallocatedOnly t).2.rows, r'.id = r.id →
      LabelRight vols r r'
  anyOrder : ∀ vols' : List DescribedVolume, vols'.Perm vols →
    labelCarved (bitmapsOf vols') unallocatedOnly t =
      labelCarved (bitmapsOf vols) unallocatedOnly t

/-- No other volume's answer drowns that of the offset's own: it is allocated in the volume it lies
in or free in all bitmaps, and outside the volumes some bitmap does not have it free. -/
structure NoneDrowns (vols : List DescribedVolume) (offset : ℕ) : Prop where
  inside : ∀ v ∈ vols, v.Contains offset → v.bitmap.isAllocated offset = true ∨
    ∀ w ∈ vols, w.bitmap.isAllocated offset = false
  outside : vols ≠ [] → (∀ v ∈ vols, ¬ v.Contains offset) →
    ∃ v ∈ vols, v.bitmap.isAllocated offset = true

/-! ## What is labelled -/

section Labels

variable {vols : List DescribedVolume} {u : Bool} {t : Rows} {r : CarvedRecord}

lemma anyAllocated_eq_true_iff {offset : ℕ} : anyAllocated (bitmapsOf vols) offset = true ↔
    ∃ v ∈ vols, v.bitmap.isAllocated offset = true := by
  simp [anyAllocated, bitmapsOf]

lemma anyAllocated_eq_false_iff {offset : ℕ} : anyAllocated (bitmapsOf vols) offset = false ↔
    ∀ v ∈ vols, v.bitmap.isAllocated offset = false := by
  simp [anyAllocated, bitmapsOf]

lemma allocationLabel_inj {a b : Bool} : allocationLabel a = allocationLabel b ↔ a = b := by
  cases a <;> cases b <;> simp [allocationLabel]

/-- A carve row is labelled by all bitmaps together. -/
lemma labelled_row {bitmaps : List AbsBitmap} (hne : bitmaps ≠ []) (hr : r ∈ t.rows)
    (hcarve : r.engine = carveName) :
    setLabel (allocationLabel (anyAllocated bitmaps r.offset), u && anyAllocated bitmaps r.offset)
      r ∈ (labelCarved bitmaps u t).2.rows := by
  simp only [labelCarved, if_neg hne, applyCarveLabels, Rows.rows_update]
  refine List.mem_map.2 ⟨r, hr, applyUpdates_of_mem id_setLabel ?_ ?_⟩
  · simp only [carveOffsets, List.map_map]
    exact t.nodup_ids_filter _
  · refine List.mem_map.2 ⟨(r.id, r.offset), ?_, rfl⟩
    exact List.mem_map_of_mem (List.mem_filter.2 ⟨hr, by simpa using hcarve⟩)

lemma bitmapsOf_ne_nil (h : vols ≠ []) : bitmapsOf vols ≠ [] := by simpa [bitmapsOf] using h

/-- **When one row gets its label.** -/
lemma labelRight_iff (hr : r ∈ t.rows) (hcarve : r.engine = carveName) :
    (∀ r' ∈ (labelCarved (bitmapsOf vols) u t).2.rows, r'.id = r.id → LabelRight vols r r') ↔
      NoneDrowns vols r.offset := by
  by_cases hnil : vols = []
  · -- nothing is labelled
    subst hnil
    constructor
    · exact fun _ => ⟨by simp, fun h => absurd rfl h⟩
    · intro _ r' hr' hid
      obtain rfl : r' = r := Rows.eq_of_id_eq hr' hr hid
      exact ⟨by simp, fun _ => rfl⟩
  · have hrow := labelled_row (u := u) (bitmapsOf_ne_nil hnil) hr hcarve
    set after := setLabel (allocationLabel (anyAllocated (bitmapsOf vols) r.offset),
      u && anyAllocated (bitmapsOf vols) r.offset) r with hafter
    have hstate : after.state = some (allocationLabel (anyAllocated (bitmapsOf vols) r.offset)) :=
      rfl
    have honly : (∀ r' ∈ (labelCarved (bitmapsOf vols) u t).2.rows, r'.id = r.id →
        LabelRight vols r r') ↔ LabelRight vols r after := by
      constructor
      · exact fun h => h after hrow rfl
      · intro h r' hr' hid
        rwa [Rows.eq_of_id_eq hr' hrow hid]
    rw [honly]
    constructor
    · intro h
      refine ⟨fun v hv hin => ?_, fun _ hout => ?_⟩
      · have hsame := h.inside v hv hin
        rw [hstate, Option.some.injEq, allocationLabel_inj] at hsame
        cases hv' : v.bitmap.isAllocated r.offset with
        | true => exact .inl rfl
        | false => exact .inr (anyAllocated_eq_false_iff.1 (hsame.trans hv'))
      · have hsame := h.outside hout
        rw [hstate, if_neg hnil, Option.some.injEq, allocationLabel_inj] at hsame
        exact anyAllocated_eq_true_iff.1 hsame
    · intro h
      refine ⟨fun v hv hin => ?_, fun hout => ?_⟩
      · rw [hstate, Option.some.injEq, allocationLabel_inj]
        rcases h.inside v hv hin with halloc | hfree
        · rw [halloc, anyAllocated_eq_true_iff]
          exact ⟨v, hv, halloc⟩
        · rw [hfree v hv, anyAllocated_eq_false_iff]
          exact hfree
      · rw [hstate, if_neg hnil, Option.some.injEq, allocationLabel_inj, anyAllocated_eq_true_iff]
        exact h.outside hnil hout

/-- The order of the volumes makes no difference. -/
lemma labelCarved_perm {vols' : List DescribedVolume} (h : vols'.Perm vols) :
    labelCarved (bitmapsOf vols') u t = labelCarved (bitmapsOf vols) u t := by
  have hany : anyAllocated (bitmapsOf vols') = anyAllocated (bitmapsOf vols) := by
    funext offset
    rw [Bool.eq_iff_iff, anyAllocated_eq_true_iff, anyAllocated_eq_true_iff]
    simp only [h.mem_iff]
  have hnil : bitmapsOf vols' = [] ↔ bitmapsOf vols = [] := by
    simp only [bitmapsOf, List.map_eq_nil_iff]
    exact ⟨fun h' => by simpa [h'] using h, fun h' => by simpa [h'] using h⟩
  simp only [labelCarved, hany, hnil]

/-- **When all rows get their labels.** -/
theorem labelsRight_iff (vols : List DescribedVolume) (u : Bool) (t : Rows) :
    LabelsRight vols u t ↔ ∀ r ∈ t.rows, r.engine = carveName → NoneDrowns vols r.offset := by
  constructor
  · exact fun h r hr hcarve => (labelRight_iff hr hcarve).1 (h.labels r hr hcarve)
  · exact fun h => ⟨fun r hr hcarve => (labelRight_iff hr hcarve).2 (h r hr hcarve),
      fun _ hperm => labelCarved_perm hperm⟩

/-- The bitmap reaches no offset outside its volume. -/
def DescribedVolume.Within (v : DescribedVolume) : Prop :=
  ∀ offset, ¬ v.Contains offset → v.bitmap.isAllocated offset = true

/-- Where the bitmaps stay within disjoint volumes, an offset that is free in its own volume is
drowned as soon as there is another. -/
lemma noneDrowns_iff_of_within (hwithin : ∀ v ∈ vols, v.Within)
    (hdisj : ∀ v ∈ vols, ∀ w ∈ vols, ∀ o, v.Contains o → w.Contains o → v = w)
    {v : DescribedVolume} (hv : v ∈ vols) {offset : ℕ} (hin : v.Contains offset) :
    NoneDrowns vols offset ↔ v.bitmap.isAllocated offset = true ∨ ∀ w ∈ vols, w = v := by
  constructor
  · intro h
    refine (h.inside v hv hin).imp_right fun hfree w hw => ?_
    by_contra hne
    have := hwithin w hw offset fun hc => hne (hdisj w hw v hv offset hc hin)
    rw [hfree w hw] at this
    exact absurd this (by simp)
  · intro h
    refine ⟨fun w hw hc => ?_, fun _ hout => absurd hin (hout v hv)⟩
    obtain rfl := hdisj w hw v hv offset hc hin
    cases halloc : w.bitmap.isAllocated offset with
    | true => exact .inl rfl
    | false =>
      refine .inr fun x hx => ?_
      rcases h with h | honly
      · exact absurd (h.symm.trans halloc) (by simp)
      · rw [honly x hx, halloc]

end Labels

/-- A carve row at an offset. -/
def carveRowAt (offset : ℕ) : CarvedRecord where
  id := "a"
  sourceId := "image:/disk.img:1024"
  engine := carveName
  offset := offset
  len := 16
  format := "image.png"
  family := "image"
  ext := "png"
  validity := .full
  name := none
  date := none
  model := none
  path := none
  state := none
  extentsJson := none
  merged := false

/-- A volume of one free cluster. -/
def freeVolume (base : ℕ) : DescribedVolume := ⟨512, ⟨base, .new 512 0 1 [0]⟩⟩

/-- A row in free space of the first of two volumes is labelled allocated. -/
theorem twoVolumes_counterexample :
    ¬ LabelsRight [freeVolume 0, freeVolume 512] false
      ⟨[carveRowAt 0], List.nodup_singleton _⟩ := by
  intro h
  have hrow := h.labels (carveRowAt 0) (by simp) rfl
    (setLabel ("allocated", false) (carveRowAt 0)) (by decide) rfl
  have hstate := hrow.inside (freeVolume 0) (by simp) (by decide)
  exact absurd hstate (by decide)

end Reclaim
