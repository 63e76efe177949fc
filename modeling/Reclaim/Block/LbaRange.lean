import Reclaim.Block.ReadResult
import Mathlib.Data.List.Sort
import Mathlib.Data.List.TakeWhile

/-!
# Runs of bad sectors

The imager pushes one run for each unreadable sector and coalesces the list at checkpoints; a
mapped image coalesces once more and then looks sectors up by binary search.  Both routines are
described by one predicate, `InRanges`: coalescing does not change it, and the binary search over
a coalesced list decides it.

The bad total that the imager reports is a running sum of run lengths.  `Exact` says that such a
sum counts each sector once; pushing a new sector keeps it, and so does coalescing.
-/

namespace Reclaim

/-- `u64::saturating_add`. -/
def saturatingAdd (a b : ℕ) : ℕ := min (a + b) u64Max

/-- `u64::saturating_mul`. -/
def saturatingMul (a b : ℕ) : ℕ := min (a * b) u64Max

/-- `align_up`. -/
def alignUp (v a : ℕ) : ℕ := if v % a = 0 then v else saturatingAdd v (a - v % a)

/-- A half-open run of LBAs `[start, start + count)`. -/
structure LbaRange where
  start : ℕ
  count : ℕ
  deriving DecidableEq, Repr

namespace LbaRange

/-- One past the last LBA (`end` in the source). -/
def stop (r : LbaRange) : ℕ := saturatingAdd r.start r.count

/-- True if `lba` is in the run. -/
def contains (r : LbaRange) (lba : ℕ) : Bool := decide (r.start ≤ lba) && decide (lba < r.stop)

lemma contains_iff {r : LbaRange} {lba : ℕ} :
    r.contains lba = true ↔ r.start ≤ lba ∧ lba < r.stop := by simp [contains]

lemma stop_le (r : LbaRange) : r.stop ≤ u64Max := min_le_right _ _

lemma stop_le_add (r : LbaRange) : r.stop ≤ r.start + r.count := min_le_left _ _

end LbaRange

/-- `lba` is in one of the runs. -/
def InRanges (runs : List LbaRange) (lba : ℕ) : Prop := ∃ r ∈ runs, r.contains lba = true

@[simp] lemma inRanges_nil (lba : ℕ) : ¬ InRanges [] lba := by simp [InRanges]

@[simp] lemma inRanges_cons (r : LbaRange) (runs : List LbaRange) (lba : ℕ) :
    InRanges (r :: runs) lba ↔ r.contains lba = true ∨ InRanges runs lba := by simp [InRanges]

@[simp] lemma inRanges_append (runs runs' : List LbaRange) (lba : ℕ) :
    InRanges (runs ++ runs') lba ↔ InRanges runs lba ∨ InRanges runs' lba := by
  simp only [InRanges, List.mem_append]
  constructor
  · rintro ⟨r, hr | hr, hc⟩
    · exact .inl ⟨r, hr, hc⟩
    · exact .inr ⟨r, hr, hc⟩
  · rintro (⟨r, hr, hc⟩ | ⟨r, hr, hc⟩)
    · exact ⟨r, .inl hr, hc⟩
    · exact ⟨r, .inr hr, hc⟩

lemma inRanges_perm {runs runs' : List LbaRange} (h : runs.Perm runs') (lba : ℕ) :
    InRanges runs lba ↔ InRanges runs' lba := by simp [InRanges, h.mem_iff]

/-- Total length of the runs. -/
def totalCount (runs : List LbaRange) : ℕ := (runs.map (·.count)).sum

/-! ## Coalescing -/

/-- The merging pass over runs sorted by start: `last` is the run being grown. -/
def mergeRuns : LbaRange → List LbaRange → List LbaRange
  | last, [] => [last]
  | last, r :: runs =>
    if r.start ≤ last.stop then
      mergeRuns { last with count := max last.stop r.stop - last.start } runs
    else last :: mergeRuns r runs

lemma mergeRuns_nil (last : LbaRange) : mergeRuns last [] = [last] := rfl

lemma mergeRuns_cons (last r : LbaRange) (runs : List LbaRange) :
    mergeRuns last (r :: runs) =
      if r.start ≤ last.stop then
        mergeRuns { last with count := max last.stop r.stop - last.start } runs
      else last :: mergeRuns r runs := rfl

/-- Sort by start and merge overlapping and adjacent runs. -/
def coalesce (runs : List LbaRange) : List LbaRange :=
  if runs.length < 2 then runs
  else match runs.insertionSort (fun a b => a.start ≤ b.start) with
    | [] => []
    | r :: rest => mergeRuns r rest

/-- Growing a run by one that starts inside or right behind it. -/
lemma stop_grown {last r : LbaRange} (hle : last.start ≤ r.start) (h : r.start ≤ last.stop) :
    LbaRange.stop ⟨last.start, max last.stop r.stop - last.start⟩ = max last.stop r.stop := by
  have h1 := last.stop_le
  have h2 := r.stop_le
  simp only [LbaRange.stop, saturatingAdd] at *
  omega

lemma inRanges_mergeRuns {last : LbaRange} {runs : List LbaRange}
    (hsorted : (last :: runs).Pairwise fun a b => a.start ≤ b.start) (lba : ℕ) :
    InRanges (mergeRuns last runs) lba ↔ InRanges (last :: runs) lba := by
  induction runs generalizing last with
  | nil => simp [mergeRuns_nil]
  | cons r runs ih =>
    obtain ⟨hlast, htail⟩ := List.pairwise_cons.1 hsorted
    have hle : last.start ≤ r.start := hlast r List.mem_cons_self
    rw [mergeRuns_cons]
    split
    · -- the two runs become the one run they cover together
      rename_i htouch
      have hgrown : (⟨last.start, max last.stop r.stop - last.start⟩ :: runs).Pairwise
          fun a b : LbaRange => a.start ≤ b.start :=
        List.pairwise_cons.2 ⟨fun b hb => hlast b (List.mem_cons_of_mem _ hb), htail.of_cons⟩
      rw [ih hgrown]
      simp only [inRanges_cons, LbaRange.contains_iff, stop_grown hle htouch, ← or_assoc]
      apply or_congr_left
      omega
    · rw [inRanges_cons, ih htail]
      simp

/-- Coalesced runs are separated: each ends before the next begins. -/
lemma pairwise_mergeRuns {last : LbaRange} {runs : List LbaRange}
    (hsorted : (last :: runs).Pairwise fun a b => a.start ≤ b.start) :
    (∀ r ∈ mergeRuns last runs, last.start ≤ r.start) ∧
      (mergeRuns last runs).Pairwise fun a b => a.stop < b.start := by
  induction runs generalizing last with
  | nil => simp [mergeRuns_nil]
  | cons r runs ih =>
    obtain ⟨hlast, htail⟩ := List.pairwise_cons.1 hsorted
    have hle : last.start ≤ r.start := hlast r List.mem_cons_self
    rw [mergeRuns_cons]
    split
    · exact ih (List.pairwise_cons.2
        ⟨fun b hb => hlast b (List.mem_cons_of_mem _ hb), htail.of_cons⟩)
    · rename_i hgap
      obtain ⟨hfrom, hsep⟩ := ih htail
      refine ⟨fun b hb => ?_, List.pairwise_cons.2 ⟨fun b hb => ?_, hsep⟩⟩
      · rcases List.mem_cons.1 hb with rfl | hb
        · exact le_rfl
        · exact hle.trans (hfrom b hb)
      · have := hfrom b hb
        omega

lemma totalCount_mergeRuns_le (last : LbaRange) (runs : List LbaRange) :
    totalCount (mergeRuns last runs) ≤ totalCount (last :: runs) := by
  induction runs generalizing last with
  | nil => exact le_rfl
  | cons r runs ih =>
    rw [mergeRuns_cons]
    split
    · rename_i htouch
      refine (ih _).trans ?_
      have h1 := last.stop_le_add
      have h2 := r.stop_le_add
      simp only [totalCount, List.map_cons, List.sum_cons]
      omega
    · have := ih r
      simp only [totalCount, List.map_cons, List.sum_cons] at this ⊢
      omega

instance : Std.Total fun a b : LbaRange => a.start ≤ b.start :=
  ⟨fun a b => le_total a.start b.start⟩

instance : IsTrans LbaRange fun a b => a.start ≤ b.start := ⟨fun _ _ _ => le_trans⟩

/-- The cases of `coalesce`: a list too short to merge, or the merged sorted list. -/
lemma coalesce_cases (runs : List LbaRange) :
    (runs.length < 2 ∧ coalesce runs = runs) ∨
      ∃ r rest, (r :: rest).Perm runs ∧
        (r :: rest).Pairwise (fun a b => a.start ≤ b.start) ∧
        coalesce runs = mergeRuns r rest := by
  unfold coalesce
  split
  · rename_i h; exact .inl ⟨h, rfl⟩
  · rename_i h
    have hperm := List.perm_insertionSort (fun a b : LbaRange => a.start ≤ b.start) runs
    have hsorted := List.pairwise_insertionSort (fun a b : LbaRange => a.start ≤ b.start) runs
    cases hs : runs.insertionSort (fun a b => a.start ≤ b.start) with
    | nil =>
      have hlen := hperm.length_eq
      rw [hs, List.length_nil] at hlen
      omega
    | cons r rest =>
      rw [hs] at hperm hsorted
      exact .inr ⟨r, rest, hperm, hsorted, rfl⟩

/-- **Coalescing does not change which sectors are listed.** -/
@[simp] lemma inRanges_coalesce (runs : List LbaRange) (lba : ℕ) :
    InRanges (coalesce runs) lba ↔ InRanges runs lba := by
  rcases coalesce_cases runs with ⟨-, h⟩ | ⟨r, rest, hperm, hsorted, h⟩
  · rw [h]
  · rw [h, inRanges_mergeRuns hsorted, inRanges_perm hperm]

/-- Coalesced runs are separated. -/
lemma pairwise_coalesce (runs : List LbaRange) :
    (coalesce runs).Pairwise fun a b => a.stop < b.start := by
  rcases coalesce_cases runs with ⟨hshort, h⟩ | ⟨r, rest, -, hsorted, h⟩
  · rw [h]
    match runs, hshort with
    | [], _ => exact List.Pairwise.nil
    | [r], _ => exact List.pairwise_singleton _ _
  · rw [h]
    exact (pairwise_mergeRuns hsorted).2

lemma totalCount_coalesce_le (runs : List LbaRange) :
    totalCount (coalesce runs) ≤ totalCount runs := by
  rcases coalesce_cases runs with ⟨-, h⟩ | ⟨r, rest, hperm, -, h⟩
  · rw [h]
  · rw [h]
    refine (totalCount_mergeRuns_le r rest).trans_eq ?_
    exact (hperm.map _).sum_eq

/-! ## Binary search -/

/-- Binary search over sorted, coalesced runs.  On such a list `partition_point` counts the runs
of the leading stretch that starts at or before `lba`. -/
def inRanges (ranges : List LbaRange) (lba : ℕ) : Bool :=
  (ranges.takeWhile fun r => decide (r.start ≤ lba)).getLast?.any (·.contains lba)

/-- On separated runs the last one that starts at or before `lba` is the only candidate. -/
lemma inRanges_iff {ranges : List LbaRange} (hsep : ranges.Pairwise fun a b => a.stop < b.start)
    (lba : ℕ) : inRanges ranges lba = true ↔ InRanges ranges lba := by
  induction ranges with
  | nil => simp [inRanges]
  | cons r l ih =>
    obtain ⟨hr, hl⟩ := List.pairwise_cons.1 hsep
    have ih := ih hl
    unfold inRanges at ih ⊢
    by_cases hstart : r.start ≤ lba
    · rw [List.takeWhile_cons_of_pos (by simpa using hstart), List.getLast?_cons]
      cases hlast : (l.takeWhile fun r => decide (r.start ≤ lba)).getLast? with
      | none =>
        -- no later run starts at or before `lba`
        rw [hlast] at ih
        have hnone : ¬ InRanges l lba := fun h => Bool.false_ne_true (ih.2 h)
        simp [hnone]
      | some q =>
        rw [hlast] at ih
        have hq : q ∈ l := (List.takeWhile_sublist _).subset (List.mem_of_getLast? hlast)
        have hqstart : q.start ≤ lba := by
          simpa using List.mem_takeWhile_imp (List.mem_of_getLast? hlast)
        have hnot : ¬ r.contains lba = true := by
          rw [LbaRange.contains_iff]
          have := hr q hq
          omega
        simpa [hnot] using ih
    · rw [List.takeWhile_cons_of_neg (by simpa using hstart)]
      apply iff_of_false Bool.false_ne_true
      rintro ⟨q, hq, hc⟩
      rw [LbaRange.contains_iff] at hc
      rcases List.mem_cons.1 hq with rfl | hq
      · exact hstart hc.1
      · -- a run behind `r` starts behind `r.stop`, and no run starts behind the last `u64`
        have h1 := hr q hq
        have h2 := q.stop_le
        have h3 : r.start ≤ r.stop ∨ r.stop = u64Max := by
          simp only [LbaRange.stop, saturatingAdd]
          omega
        omega

/-- **The binary search over coalesced runs decides membership.** -/
lemma inRanges_coalesce_iff (runs : List LbaRange) (lba : ℕ) :
    inRanges (coalesce runs) lba = true ↔ InRanges runs lba := by
  rw [inRanges_iff (pairwise_coalesce runs), inRanges_coalesce]

/-! ## Counting sectors -/

/-- The sectors of the runs. -/
def memberSectors (runs : List LbaRange) : Finset ℕ :=
  (runs.flatMap fun r => List.range' r.start (r.stop - r.start)).toFinset

@[simp] lemma mem_memberSectors {runs : List LbaRange} {lba : ℕ} :
    lba ∈ memberSectors runs ↔ InRanges runs lba := by
  simp only [memberSectors, List.mem_toFinset, List.mem_flatMap, List.mem_range'_1, InRanges,
    LbaRange.contains_iff]
  refine exists_congr fun r => and_congr_right fun _ => ?_
  omega

lemma card_memberSectors_le (runs : List LbaRange) :
    (memberSectors runs).card ≤ totalCount runs := by
  refine (List.toFinset_card_le _).trans ?_
  rw [List.length_flatMap]
  apply List.sum_le_sum
  intro r _
  have := r.stop_le_add
  simp only [List.length_range']
  omega

/-- The run lengths add up to the number of distinct sectors. -/
def Exact (runs : List LbaRange) : Prop := totalCount runs = (memberSectors runs).card

lemma exact_nil : Exact [] := rfl

lemma memberSectors_coalesce (runs : List LbaRange) :
    memberSectors (coalesce runs) = memberSectors runs := by
  ext lba
  simp

/-- Coalescing keeps an exact list exact. -/
lemma Exact.coalesce {runs : List LbaRange} (h : Exact runs) : Exact (coalesce runs) := by
  have hle := totalCount_coalesce_le runs
  have hge := card_memberSectors_le (Reclaim.coalesce runs)
  rw [memberSectors_coalesce] at hge
  rw [Exact, memberSectors_coalesce]
  exact le_antisymm (hle.trans_eq h) hge

/-- A single sector below the last `u64`. -/
lemma contains_single {lba x : ℕ} (hlba : lba < u64Max) :
    LbaRange.contains ⟨lba, 1⟩ x = true ↔ x = lba := by
  simp only [LbaRange.contains_iff, LbaRange.stop, saturatingAdd]
  omega

/-- Pushing a sector that is not listed yet keeps an exact list exact. -/
lemma Exact.push {runs : List LbaRange} {lba : ℕ} (h : Exact runs) (hlba : lba < u64Max)
    (hnew : ¬ InRanges runs lba) : Exact (runs ++ [⟨lba, 1⟩]) := by
  have hset : memberSectors (runs ++ [⟨lba, 1⟩]) = insert lba (memberSectors runs) := by
    ext x
    simp only [mem_memberSectors, inRanges_append, inRanges_cons, contains_single hlba,
      inRanges_nil, or_false, Finset.mem_insert]
    exact or_comm
  rw [Exact, hset, Finset.card_insert_of_notMem (by simpa using hnew), ← h]
  simp [totalCount]

end Reclaim
