import Reclaim.Block.LbaRange

/-!
# Bad-block maps

A `BadBlockMap` records which sectors of a source are bad or were never read.  It coalesces its runs
whenever one is added, with a routine of its own: a loop that grows the last run pushed so far.  The
imager has the same text in another place.

`coalesce_normalises` collects what coalescing does to any list of runs: the runs come out in order
and apart, with the members they had.  A run without members is not dropped if it touches no other
run, but none comes about.
-/

namespace Reclaim

namespace BadBlockMap

/-- One step of the merging loop: a run that touches the last one is merged into it. -/
def pushRun (merged : List LbaRange) (r : LbaRange) : List LbaRange :=
  match merged.getLast? with
  | some last =>
    if r.start ≤ last.stop then
      merged.dropLast ++ [{ last with count := max last.stop r.stop - last.start }]
    else merged ++ [r]
  | none => merged ++ [r]

/-- The `coalesce` of `bad_block.rs`. -/
def coalesce (runs : List LbaRange) : List LbaRange :=
  if runs.length < 2 then runs
  else (runs.insertionSort fun a b => a.start ≤ b.start).foldl pushRun []

end BadBlockMap

/-! ## What coalescing keeps -/

/-- Merging makes up no start, and keeps the order of those it has. -/
lemma sublist_mergeRuns (last : LbaRange) (runs : List LbaRange) :
    ((mergeRuns last runs).map LbaRange.start).Sublist ((last :: runs).map LbaRange.start) := by
  induction runs generalizing last with
  | nil => exact List.Sublist.refl _
  | cons r runs ih =>
    rw [mergeRuns]
    split
    · -- the grown run has the start of the last one
      refine (ih _).trans ?_
      exact ((List.sublist_cons_self r runs).map LbaRange.start).cons_cons last.start
    · exact (ih r).cons_cons last.start

/-- A merged run without members has the start of a run without members. -/
lemma empty_mergeRuns {last : LbaRange} {runs : List LbaRange}
    (hsorted : (last :: runs).Pairwise fun a b => a.start ≤ b.start) :
    ∀ r ∈ mergeRuns last runs, r.stop ≤ r.start →
      ∃ q ∈ last :: runs, q.start = r.start ∧ q.stop ≤ q.start := by
  induction runs generalizing last with
  | nil => exact fun r hr hempty => ⟨r, hr, rfl, hempty⟩
  | cons next runs ih =>
    obtain ⟨hlast, htail⟩ := List.pairwise_cons.1 hsorted
    have hle : last.start ≤ next.start := hlast next List.mem_cons_self
    rw [mergeRuns]
    split
    · rename_i htouch
      intro r hr hempty
      have hgrown : (⟨last.start, max last.stop next.stop - last.start⟩ :: runs).Pairwise
          fun a b : LbaRange => a.start ≤ b.start :=
        List.pairwise_cons.2 ⟨fun b hb => hlast b (List.mem_cons_of_mem _ hb), htail.of_cons⟩
      obtain ⟨q, hq, hstart, hstop⟩ := ih hgrown r hr hempty
      rcases List.mem_cons.1 hq with heq | hq
      · -- what has grown holds what it has grown from
        rw [heq, stop_grown hle htouch] at hstop
        rw [heq] at hstart
        exact ⟨last, List.mem_cons_self, hstart, (le_max_left _ _).trans hstop⟩
      · exact ⟨q, List.mem_cons_of_mem _ (List.mem_cons_of_mem _ hq), hstart, hstop⟩
    · intro r hr hempty
      rcases List.mem_cons.1 hr with rfl | hr
      · exact ⟨r, List.mem_cons_self, rfl, hempty⟩
      · obtain ⟨q, hq, h⟩ := ih htail r hr hempty
        exact ⟨q, List.mem_cons_of_mem _ hq, h⟩

/-- Coalesced runs are in order. -/
lemma sorted_coalesce (runs : List LbaRange) :
    (coalesce runs).Pairwise fun a b => a.start ≤ b.start := by
  rcases coalesce_cases runs with ⟨hshort, h⟩ | ⟨r, rest, -, hsorted, h⟩
  · rw [h]
    match runs, hshort with
    | [], _ => exact List.Pairwise.nil
    | [r], _ => exact List.pairwise_singleton _ _
  · rw [h, ← List.pairwise_map (f := LbaRange.start) (R := (· ≤ ·))]
    exact (List.pairwise_map.2 hsorted).sublist (sublist_mergeRuns r rest)

/-- A coalesced run without members was there before. -/
lemma empty_coalesce {runs : List LbaRange} {r : LbaRange} (hr : r ∈ coalesce runs)
    (hempty : r.stop ≤ r.start) : ∃ q ∈ runs, q.start = r.start ∧ q.stop ≤ q.start := by
  rcases coalesce_cases runs with ⟨-, h⟩ | ⟨r', rest, hperm, hsorted, h⟩
  · rw [h] at hr
    exact ⟨r, hr, rfl, hempty⟩
  · rw [h] at hr
    obtain ⟨q, hq, h⟩ := empty_mergeRuns hsorted r hr hempty
    exact ⟨q, hperm.mem_iff.1 hq, h⟩

/-! ## The two copies -/

namespace BadBlockMap

/-- The loop grows the run that the recursion carries along. -/
lemma foldl_pushRun (done : List LbaRange) (last : LbaRange) (runs : List LbaRange) :
    runs.foldl pushRun (done ++ [last]) = done ++ mergeRuns last runs := by
  induction runs generalizing done last with
  | nil => rfl
  | cons r runs ih =>
    have hlast : (done ++ [last]).getLast? = some last := List.getLast?_concat
    rw [List.foldl_cons, mergeRuns, pushRun, hlast]
    dsimp only
    split
    · rw [List.dropLast_concat, ih]
    · rw [ih, List.append_assoc]
      rfl

/-- Both copies come to the same. -/
lemma coalesce_eq (runs : List LbaRange) : BadBlockMap.coalesce runs = Reclaim.coalesce runs := by
  unfold BadBlockMap.coalesce Reclaim.coalesce
  split
  · rfl
  · cases runs.insertionSort (fun a b => a.start ≤ b.start) with
    | nil => rfl
    | cons r rest =>
      rw [List.foldl_cons]
      exact foldl_pushRun [] r rest

end BadBlockMap

/-- Runs in order and apart, none of them without members. -/
structure Normalised (runs : List LbaRange) : Prop where
  sorted : runs.Pairwise fun a b => a.start ≤ b.start
  apart : runs.Pairwise fun a b => a.stop < b.start
  nonempty : ∀ r ∈ runs, r.start < r.stop

/-- **Coalescing puts runs in order and apart, with the members they had**, in both copies, and the
binary search over them finds exactly the members.  It leaves runs without members alone. -/
theorem coalesce_normalises (runs : List LbaRange) :
    (coalesce runs).Pairwise (fun a b => a.start ≤ b.start) ∧
    (coalesce runs).Pairwise (fun a b => a.stop < b.start) ∧
    (∀ r ∈ coalesce runs, r.stop ≤ r.start → ∃ q ∈ runs, q.start = r.start ∧ q.stop ≤ q.start) ∧
    (∀ lba, InRanges (coalesce runs) lba ↔ InRanges runs lba) ∧
    BadBlockMap.coalesce runs = coalesce runs ∧
    ∀ lba, inRanges (coalesce runs) lba = true ↔ InRanges runs lba :=
  ⟨sorted_coalesce runs, pairwise_coalesce runs, fun _ hr hempty => empty_coalesce hr hempty,
    inRanges_coalesce runs, BadBlockMap.coalesce_eq runs, inRanges_coalesce_iff runs⟩

/-- A run without members that touches no other is kept. -/
theorem coalesce_normalises_counterexample :
    ¬ ∀ runs : List LbaRange, Normalised (coalesce runs) := by
  intro h
  have hnot : ¬ ∀ r ∈ coalesce [⟨1, 0⟩, ⟨9, 1⟩], r.start < r.stop := by decide
  exact hnot (h [⟨1, 0⟩, ⟨9, 1⟩]).nonempty

/-! ## Maps over runs of updates -/

/-- Bad and unread sectors of one source. -/
structure BadBlockMap where
  sectorSize : ℕ
  bad : List LbaRange
  unread : List LbaRange
  deriving DecidableEq, Repr

namespace BadBlockMap

/-- `BadBlockMap::new`. -/
def new (sectorSize : ℕ) : BadBlockMap := ⟨sectorSize, [], []⟩

/-- Insert one LBA into a coalesced list of runs. -/
def insertLba (runs : List LbaRange) (lba : ℕ) : List LbaRange := coalesce (runs ++ [⟨lba, 1⟩])

/-- Record a single bad LBA. -/
def addBad (m : BadBlockMap) (lba : ℕ) : BadBlockMap := { m with bad := insertLba m.bad lba }

/-- Record a run of bad LBAs. -/
def addBadRange (m : BadBlockMap) (start count : ℕ) : BadBlockMap :=
  if count = 0 then m else { m with bad := coalesce (m.bad ++ [⟨start, count⟩]) }

/-- Record a single unread LBA. -/
def addUnread (m : BadBlockMap) (lba : ℕ) : BadBlockMap :=
  { m with unread := insertLba m.unread lba }

/-- True if `lba` is marked bad. -/
def isBad (m : BadBlockMap) (lba : ℕ) : Bool := m.bad.any (·.contains lba)

/-- True if `lba` is marked unread. -/
def isUnread (m : BadBlockMap) (lba : ℕ) : Bool := m.unread.any (·.contains lba)

/-- What is recorded in a map. -/
inductive Update where
  | bad (lba : ℕ)
  | badRange (start count : ℕ)
  | unread (lba : ℕ)

/-- A map after an update. -/
def apply (m : BadBlockMap) : Update → BadBlockMap
  | .bad lba => m.addBad lba
  | .badRange start count => m.addBadRange start count
  | .unread lba => m.addUnread lba

/-- The runs that an update records as bad, and as unread. -/
def Update.runs : Update → List LbaRange × List LbaRange
  | .bad lba => ([⟨lba, 1⟩], [])
  | .badRange start count => if count = 0 then ([], []) else ([⟨start, count⟩], [])
  | .unread lba => ([], [⟨lba, 1⟩])

lemma isBad_iff {m : BadBlockMap} {lba : ℕ} : m.isBad lba = true ↔ InRanges m.bad lba := by
  rw [isBad, List.any_eq_true]
  rfl

lemma isUnread_iff {m : BadBlockMap} {lba : ℕ} :
    m.isUnread lba = true ↔ InRanges m.unread lba := by
  rw [isUnread, List.any_eq_true]
  rfl

/-- The form that a map is kept in: its runs are apart. -/
structure Kept (m : BadBlockMap) : Prop where
  bad : m.bad.Pairwise fun a b => a.stop < b.start
  unread : m.unread.Pairwise fun a b => a.stop < b.start

/-- An update adds its runs, and keeps the form of the map. -/
lemma apply_spec {m : BadBlockMap} (hm : m.Kept) (u : Update) (lba : ℕ) :
    (m.apply u).Kept ∧
    (InRanges (m.apply u).bad lba ↔ InRanges m.bad lba ∨ InRanges u.runs.1 lba) ∧
    (InRanges (m.apply u).unread lba ↔ InRanges m.unread lba ∨ InRanges u.runs.2 lba) := by
  have hsep : ∀ runs, (coalesce runs).Pairwise fun a b => a.stop < b.start := by
    intro runs
    rw [coalesce_eq]
    exact pairwise_coalesce runs
  have hmem : ∀ runs r, InRanges (coalesce (runs ++ [r])) lba ↔
      InRanges runs lba ∨ InRanges [r] lba := by
    intro runs r
    rw [coalesce_eq, inRanges_coalesce, inRanges_append]
  cases u with
  | bad x => exact ⟨⟨hsep _, hm.unread⟩, hmem _ _, by simp [apply, addBad, Update.runs]⟩
  | badRange start count =>
    by_cases hzero : count = 0
    · simp only [apply, addBadRange, Update.runs, if_pos hzero]
      exact ⟨hm, by simp, by simp⟩
    · simp only [apply, addBadRange, Update.runs, if_neg hzero]
      exact ⟨⟨hsep _, hm.unread⟩, hmem _ _, by simp⟩
  | unread x => exact ⟨⟨hm.bad, hsep _⟩, by simp [apply, addUnread, Update.runs], hmem _ _⟩

/-- A map shows exactly what was recorded in it. -/
lemma recorded (m : BadBlockMap) (hm : m.Kept) (us : List Update) (lba : ℕ) :
    (us.foldl apply m).Kept ∧
    ((us.foldl apply m).isBad lba = true ↔ m.isBad lba = true ∨ ∃ u ∈ us, InRanges u.runs.1 lba) ∧
    ((us.foldl apply m).isUnread lba = true ↔
      m.isUnread lba = true ∨ ∃ u ∈ us, InRanges u.runs.2 lba) := by
  induction us generalizing m with
  | nil => exact ⟨hm, by simp, by simp⟩
  | cons u us ih =>
    obtain ⟨hkept, hbad, hunread⟩ := apply_spec hm u lba
    obtain ⟨h1, h2, h3⟩ := ih (m.apply u) hkept
    rw [List.foldl_cons]
    refine ⟨h1, ?_, ?_⟩
    · rw [h2, isBad_iff, isBad_iff, hbad, List.exists_mem_cons_iff, or_assoc]
    · rw [h3, isUnread_iff, isUnread_iff, hunread, List.exists_mem_cons_iff, or_assoc]

end BadBlockMap

end Reclaim
