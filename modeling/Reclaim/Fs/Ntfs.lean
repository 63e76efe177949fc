import Reclaim.Fs.Extents

/-!
# NTFS data runs

A non-resident attribute is a list of runs of clusters, one behind the other; a sparse run is a
hole.  `runs_to_extents` drops the sparse runs and counts their length against the size, so that
what follows a hole moves down and the file comes out short.
-/

namespace Reclaim
namespace Ntfs

open FileBytes FileMap

/-- A data run. -/
structure Run where
  /-- Logical cluster number of the run start. -/
  lcn : ℕ
  /-- Run length in clusters. -/
  length : ℕ
  /-- A hole, without bytes on disk. -/
  sparse : Bool
  deriving DecidableEq, Repr

/-- `runs_to_extents`: absolute byte extents, clamped to `remaining`. -/
def runsToExtents (clusterSize : ℕ) : List Run → ℕ → List Extent
  | [], _ => []
  | r :: runs, remaining =>
    if remaining = 0 then []
    else
      let span := saturatingMul r.length clusterSize
      let take := min span remaining
      if r.sparse then runsToExtents clusterSize runs (remaining - take)
      else
        ⟨saturatingMul r.lcn clusterSize, take⟩ ::
          runsToExtents clusterSize runs (remaining - take)

/-- The unnamed `$DATA` attribute of a record. -/
structure DataAttr where
  resident : Bool
  /-- Logical size. -/
  realSize : ℕ
  runs : List Run

/-- A parsed record, before its path is known. -/
structure Raw where
  name : String
  isDir : Bool
  inUse : Bool
  size : ℕ
  extents : List Extent
  created : Option String
  modified : Option String

/-- `to_raw`; resident data lies in the record itself, at the absolute offset `contentAt`. -/
def toRaw (clusterSize : ℕ) (name : String) (isDir inUse : Bool) (created modified : Option String)
    (contentAt : ℕ) (data : Option DataAttr) : Raw where
  name := name
  isDir := isDir
  inUse := inUse
  size := (data.map (·.realSize)).getD 0
  extents :=
    match data with
    | some d =>
      if d.resident then if 0 < d.realSize then [⟨contentAt, d.realSize⟩] else []
      else runsToExtents clusterSize d.runs d.realSize
    | none => []
  created := created
  modified := modified

/-- The entry that the walk emits for a record. -/
def Raw.entry (raw : Raw) (path : String) : Entry :=
  { Entry.newFile raw.name raw.size (if raw.inUse then .live else .deleted) with
    kind := if raw.isDir then .dir else .file
    path := some path
    created := raw.created
    modified := raw.modified
    extents := raw.extents }

/-! ## The map that runs are -/

/-- The pieces of a file whose runs begin at byte `start`. -/
def pieces (clusterSize : ℕ) : List Run → ℕ → List FileMap.Piece
  | [], _ => []
  | r :: runs, start =>
    { start := start
      len := r.length * clusterSize
      addr := r.lcn * clusterSize
      stored := !r.sparse
      taken := saturatingMul r.lcn clusterSize } ::
        pieces clusterSize runs (start + r.length * clusterSize)

lemma le_start_of_mem_pieces {cs : ℕ} (runs : List Run) :
    ∀ start, ∀ p ∈ pieces cs runs start, start ≤ p.start := by
  induction runs with
  | nil => simp [pieces]
  | cons r runs ih =>
    intro start p hp
    rcases List.mem_cons.1 hp with rfl | hp
    · exact le_rfl
    · have := ih _ p hp
      omega

lemma ordered_pieces (cs : ℕ) (runs : List Run) : ∀ start, Ordered (pieces cs runs start) := by
  induction runs with
  | nil => exact fun _ => List.Pairwise.nil
  | cons r runs ih =>
    exact fun start => List.pairwise_cons.2 ⟨le_start_of_mem_pieces runs _, ih _⟩

/-- The extents are the stored pieces below the size, the holes dropped. -/
lemma extentAddresses_runsToExtents (cs : ℕ) {size : ℕ} (hsize : size ≤ u64Max) (runs : List Run) :
    ∀ start, extentAddresses (runsToExtents cs runs (size - start)) =
      addresses ((clip size (pieces cs runs start)).filter (·.stored)) := by
  induction runs with
  | nil => intro start; rfl
  | cons r runs ih =>
    intro start
    have hspan : min (saturatingMul r.length cs) (size - start) =
        min (r.length * cs) (size - start) := by
      unfold saturatingMul
      omega
    have hrest : size - start - min (r.length * cs) (size - start) =
        size - (start + r.length * cs) := by omega
    have htail := ih (start + r.length * cs)
    rw [runsToExtents, pieces, clip, List.map_cons, ← clip]
    simp only [hspan, hrest]
    by_cases hdone : size - start = 0
    · -- what lies behind the size has been cut away
      rw [show size - (start + r.length * cs) = 0 by omega] at htail
      have hnil : runsToExtents cs runs 0 = [] := by cases runs <;> simp [runsToExtents]
      rw [hnil, extentAddresses_nil] at htail
      rw [if_pos hdone, extentAddresses_nil, List.filter_cons]
      split
      · simp [hdone, ← htail]
      · exact htail
    · rw [if_neg hdone]
      cases hs : r.sparse with
      | true => simp [htail]
      | false => simp [htail]

/-- The extents of a file spell its content exactly if every byte below the size is in a run that is
no hole and starts at an address that fits 64 bits. -/
theorem isContent_runsToExtents_iff (cs : ℕ) {size : ℕ} (hsize : size ≤ u64Max)
    (runs : List Run) :
    (∀ v : ℕ → UInt8, IsContent (pieces cs runs 0) size v
      (((extentAddresses (runsToExtents cs runs size)).take size).map v)) ↔
        Covered (pieces cs runs 0) 0 size := by
  have hord := ordered_pieces cs runs 0
  have haddr := extentAddresses_runsToExtents cs hsize runs 0
  rw [Nat.sub_zero] at haddr
  have hiff := isContent_addresses_iff (·.stored) (fun _ h => h) (clip size (pieces cs runs 0)) []
    size (by simpa using ordered_clip hord)
  rw [covered_clip, List.append_nil] at hiff
  rw [← hiff, haddr]
  simp only [isContent_clip]

end Ntfs
end Reclaim
