import Reclaim.Fs.Extents

/-!
# APFS file extents

A file's data is a set of extent records, each at its logical address; an address that no record
covers, and a record without a block, is a hole.  `build_entry` keeps one record per address, joins
those that have a block and cuts them to the size of the inode.

A size of zero counts as unknown, so a file that is empty with blocks preallocated is given all of
them.
-/

namespace Reclaim
namespace Apfs

open FileBytes FileMap

/-- A file-extent record of one file. -/
structure FileExtent where
  /-- Logical byte offset within the file. -/
  logical : ℕ
  /-- Extent length in bytes. -/
  len : ℕ
  /-- Physical block number; 0 means a hole. -/
  physBlock : ℕ
  deriving DecidableEq, Repr

/-- An inode record. -/
structure Inode where
  /-- Logical size, if the inode has a data stream. -/
  size : Option ℕ
  createTime : ℕ
  modTime : ℕ
  size_le : ∀ s ∈ size, s ≤ u64Max
  deriving DecidableEq

/-- A directory record. -/
structure DirRec where
  name : String
  fileId : ℕ
  isDir : Bool
  dateAdded : ℕ
  deriving DecidableEq

/-- The records of a volume, by object id. -/
structure VolumeContents where
  inodes : ℕ → Option Inode
  extents : ℕ → Option (List FileExtent)

/-! ## One record per logical address -/

/-- `BTreeMap::insert` of a record under its logical address. -/
def insertByLogical (e : FileExtent) : List FileExtent → List FileExtent
  | [] => [e]
  | x :: xs =>
    if e.logical < x.logical then e :: x :: xs
    else if e.logical = x.logical then e :: xs
    else x :: insertByLogical e xs

/-- The records of a file in the order of their logical addresses, the last inserted of each. -/
def byLogical (exts : List FileExtent) : List FileExtent :=
  exts.foldl (fun m e => insertByLogical e m) []

/-- The data extents of a file. -/
def dataExtents (blockSize : ℕ) (exts : List FileExtent) : List Extent :=
  ((byLogical exts).filter fun e => !(e.physBlock == 0 || e.len == 0)).map fun e =>
    ⟨saturatingMul e.physBlock blockSize, e.len⟩

/-- `build_entry` for a directory record, with its resolved path; `apfsDate` formats a time. -/
def buildEntry (apfsDate : ℕ → Option String) (blockSize : ℕ) (d : DirRec) (vc : VolumeContents)
    (path : Option String) (state : EntryState) : Option Entry :=
  if d.isDir then none
  else
    let inode := vc.inodes d.fileId
    let size := (inode.bind (·.size)).getD 0
    let extents := ((vc.extents d.fileId).map (dataExtents blockSize)).getD []
    let sized : ℕ × List Extent :=
      if size = 0 then (totalLen extents, extents) else (size, trimExtentsTo size 0 extents)
    some { Entry.newFile d.name sized.1 state with
      path := path
      extents := sized.2
      created := inode.bind fun i => apfsDate i.createTime
      modified := (inode.bind fun i => apfsDate i.modTime).or (apfsDate d.dateAdded) }

/-! ## The map that the records are -/

/-- The records that stand, newest first: a later one replaces an earlier at its address. -/
def standing : List FileExtent → List FileExtent
  | [] => []
  | e :: older => e :: (standing older).filter fun x => x.logical ≠ e.logical

/-- The records that stand after `exts` have come in. -/
def current (exts : List FileExtent) : List FileExtent := standing exts.reverse

/-- A record as a piece of the file. -/
def piece (blockSize : ℕ) (e : FileExtent) : FileMap.Piece where
  start := e.logical
  len := e.len
  addr := e.physBlock * blockSize
  stored := !(e.physBlock == 0 || e.len == 0)
  taken := saturatingMul e.physBlock blockSize

/-- The map of a file. -/
def pieces (blockSize : ℕ) (exts : List FileExtent) : List FileMap.Piece :=
  (current exts).map (piece blockSize)

/-- No two standing records overlap. -/
def Disjoint (exts : List FileExtent) : Prop :=
  ∀ a ∈ current exts, ∀ b ∈ current exts, a.logical < b.logical → a.logical + a.len ≤ b.logical

instance (exts : List FileExtent) : Decidable (Disjoint exts) :=
  inferInstanceAs (Decidable (∀ a ∈ current exts, ∀ b ∈ current exts, _))

/-- Where the last piece ends. -/
def mapEnd (ps : List FileMap.Piece) : ℕ := ps.foldr (fun p n => max (p.start + p.len) n) 0

/-- The logical size of a file: that of its inode, or the end of its map if there is none. -/
def fileSize (size : Option ℕ) (ps : List FileMap.Piece) : ℕ := size.getD (min (mapEnd ps) u64Max)

variable {bs : ℕ} {exts : List FileExtent}

lemma current_concat (exts : List FileExtent) (e : FileExtent) :
    current (exts ++ [e]) = e :: (current exts).filter fun x => x.logical ≠ e.logical := by
  unfold current
  rw [List.reverse_append]
  rfl

/-- Strictly increasing in logical address. -/
def Sorted (m : List FileExtent) : Prop := m.Pairwise fun a b => a.logical < b.logical

lemma mem_insertByLogical {e x : FileExtent} {m : List FileExtent} (hm : Sorted m) :
    x ∈ insertByLogical e m ↔ x = e ∨ x ∈ m ∧ x.logical ≠ e.logical := by
  induction m with
  | nil => simp [insertByLogical]
  | cons y ys ih =>
    obtain ⟨hy, hys⟩ := List.pairwise_cons.1 hm
    rw [insertByLogical]
    split
    · have hne : ∀ z ∈ y :: ys, z.logical ≠ e.logical := fun z hz => by
        rcases List.mem_cons.1 hz with rfl | hz
        · omega
        · have := hy z hz
          omega
      rw [List.mem_cons]
      exact or_congr_right ⟨fun h => ⟨h, hne x h⟩, And.left⟩
    · split
      · have hne : ∀ z ∈ ys, z.logical ≠ e.logical := fun z hz => by
          have := hy z hz
          omega
        rw [List.mem_cons]
        refine or_congr_right ⟨fun h => ⟨List.mem_cons_of_mem _ h, hne x h⟩, fun ⟨h, hx⟩ => ?_⟩
        rcases List.mem_cons.1 h with rfl | h
        · omega
        · exact h
      · rw [List.mem_cons, ih hys, List.mem_cons]
        have hye : x = y → x.logical ≠ e.logical := by
          rintro rfl
          omega
        tauto

lemma sorted_insertByLogical {e : FileExtent} {m : List FileExtent} (hm : Sorted m) :
    Sorted (insertByLogical e m) := by
  induction m with
  | nil => exact List.pairwise_singleton ..
  | cons y ys ih =>
    obtain ⟨hy, hys⟩ := List.pairwise_cons.1 hm
    rw [insertByLogical]
    split
    · refine List.pairwise_cons.2 ⟨fun z hz => ?_, hm⟩
      rcases List.mem_cons.1 hz with rfl | hz
      · assumption
      · have := hy z hz
        omega
    · split
      · refine List.pairwise_cons.2 ⟨fun z hz => ?_, hys⟩
        have := hy z hz
        omega
      · refine List.pairwise_cons.2 ⟨fun z hz => ?_, ih hys⟩
        rcases (mem_insertByLogical hys).1 hz with rfl | ⟨hz, -⟩
        · omega
        · exact hy z hz

lemma sorted_byLogical (exts : List FileExtent) : Sorted (byLogical exts) := by
  induction exts using List.reverseRecOn with
  | nil => exact List.Pairwise.nil
  | append_singleton exts e ih =>
    unfold byLogical at *
    rw [List.foldl_append]
    exact sorted_insertByLogical ih

/-- The map keeps the records that stand. -/
lemma mem_byLogical (exts : List FileExtent) (x : FileExtent) :
    x ∈ byLogical exts ↔ x ∈ current exts := by
  induction exts using List.reverseRecOn with
  | nil => rfl
  | append_singleton exts e ih =>
    have hstep : byLogical (exts ++ [e]) = insertByLogical e (byLogical exts) := by
      unfold byLogical
      rw [List.foldl_append]
      rfl
    rw [hstep, mem_insertByLogical (sorted_byLogical exts), ih, current_concat]
    simp

/-- In the order of their addresses, records that do not overlap follow one another. -/
lemma ordered_byLogical (h : Disjoint exts) : Ordered ((byLogical exts).map (piece bs)) := by
  refine List.Pairwise.map (piece bs) (fun _ _ h => h) (R := fun a b : FileExtent =>
    a.logical + a.len ≤ b.logical) ?_
  refine (sorted_byLogical exts).imp_of_mem fun {a b} ha hb hab => ?_
  exact h a ((mem_byLogical ..).1 ha) b ((mem_byLogical ..).1 hb) hab

lemma mem_pieces (p : FileMap.Piece) :
    p ∈ (byLogical exts).map (piece bs) ↔ p ∈ pieces bs exts := by
  unfold pieces
  simp only [List.mem_map, mem_byLogical]

/-- The data extents are the pieces that are stored. -/
lemma extentAddresses_dataExtents :
    extentAddresses (dataExtents bs exts) =
      addresses (((byLogical exts).map (piece bs)).filter (·.stored)) := by
  unfold dataExtents extentAddresses addresses
  rw [List.filter_map, List.flatMap_map, List.flatMap_map]
  rfl

/-! ## When the entry has the file's content -/

lemma le_mapEnd {ps : List FileMap.Piece} {p : FileMap.Piece} (hp : p ∈ ps) :
    p.start + p.len ≤ mapEnd ps := by
  induction ps with
  | nil => simp at hp
  | cons q qs ih =>
    have hcons : mapEnd (q :: qs) = max (q.start + q.len) (mapEnd qs) := rfl
    rw [hcons]
    rcases List.mem_cons.1 hp with rfl | hp
    · exact le_max_left ..
    · exact (ih hp).trans (le_max_right ..)

/-- The data extents hold no more than the map spans. -/
lemma length_dataExtents_le (bs : ℕ) (h : Disjoint exts) :
    (extentAddresses (dataExtents bs exts)).length ≤ mapEnd (pieces bs exts) := by
  have hord : Ordered ((byLogical exts).map (piece bs)) := ordered_byLogical h
  have hend : ∀ p ∈ (byLogical exts).map (piece bs),
      p.len ≤ mapEnd (pieces bs exts) - p.start := fun p hp => by
    have := le_mapEnd ((mem_pieces p).1 hp)
    omega
  simpa only [extentAddresses_dataExtents, Nat.sub_zero] using
    length_addresses_le (·.stored) 0 hord (fun _ _ => Nat.zero_le _) hend

/-- The extents hold nothing exactly if no standing record has a block. -/
lemma length_dataExtents_eq_zero_iff (bs : ℕ) :
    (extentAddresses (dataExtents bs exts)).length = 0 ↔
      ∀ e ∈ current exts, e.physBlock = 0 ∨ e.len = 0 := by
  simp only [extentAddresses, dataExtents, List.length_eq_zero_iff, List.flatMap_eq_nil_iff,
    List.mem_map, List.mem_filter, mem_byLogical]
  constructor
  · intro h e he
    by_contra hne
    rw [not_or] at hne
    have hdata : (!(e.physBlock == 0 || e.len == 0)) = true := by simp [hne.1, hne.2]
    have := h _ ⟨e, ⟨he, hdata⟩, rfl⟩
    exact hne.2 (by simpa using this)
  · rintro h x ⟨e, ⟨he, hdata⟩, rfl⟩
    rcases h e he with h0 | h0 <;> simp [h0] at hdata

/-- Cut anywhere, the data extents are the file if it is covered and keeps its length. -/
lemma isContent_dataExtents_iff (h : Disjoint exts) (n m : ℕ) :
    (∀ v : ℕ → UInt8, IsContent (pieces bs exts) n v
      (((extentAddresses (dataExtents bs exts)).take m).map v)) ↔
        Covered (pieces bs exts) 0 n ∧
          min m (extentAddresses (dataExtents bs exts)).length = n := by
  have hiff := isContent_take_iff (·.stored) (fun _ h => h) ((byLogical exts).map (piece bs)) [] n m
    (by simpa using ordered_byLogical h)
  rw [List.append_nil, ← extentAddresses_dataExtents] at hiff
  have hcov : Covered ((byLogical exts).map (piece bs)) 0 n ↔ Covered (pieces bs exts) 0 n := by
    unfold Covered
    simp only [mem_pieces]
  rw [← hcov, ← hiff]
  exact forall_congr' fun v => ⟨fun hf => hf.congr fun p => (mem_pieces p).symm,
    fun hf => hf.congr fun p => mem_pieces p⟩

/-- The entry of a file has its content exactly if every byte below the size is in a record with a
block, and no block is allocated to a file whose inode says that it is empty. -/
theorem reproduces_iff {apfsDate : ℕ → Option String} {d : DirRec} {vc : VolumeContents}
    {path : Option String} {state : EntryState} {e : Entry}
    (he : buildEntry apfsDate bs d vc path state = some e)
    (hexts : (vc.extents d.fileId).getD [] = exts)
    {size : Option ℕ} (hsize : (vc.inodes d.fileId).bind (·.size) = size)
    (hdis : Disjoint exts) :
    e.Reproduces (pieces bs exts) (fileSize size (pieces bs exts)) ↔
      Covered (pieces bs exts) 0 (fileSize size (pieces bs exts)) ∧
        (size = some 0 → ∀ e ∈ current exts, e.physBlock = 0 ∨ e.len = 0) := by
  have hext : ((vc.extents d.fileId).map (dataExtents bs)).getD [] = dataExtents bs exts := by
    rw [← hexts]
    cases vc.extents d.fileId <;> rfl
  have hcov : ∀ n, Covered (pieces bs exts) 0 n →
      n ≤ (extentAddresses (dataExtents bs exts)).length := fun n hn => by
    rw [extentAddresses_dataExtents]
    apply Covered.le_length (fun _ h => h) (ordered_byLogical hdis)
    intro i hi hin
    obtain ⟨p, hp, h⟩ := hn i hi hin
    exact ⟨p, (mem_pieces p).2 hp, h⟩
  unfold buildEntry at he
  split at he
  · exact absurd he (by simp)
  simp only [hext, hsize, Option.some.injEq] at he
  subst he
  unfold Entry.Reproduces Entry.bytes
  cases size with
  | none =>
    -- the size is not known: everything is kept
    simp only [Option.getD_none, if_true, Entry.newFile, fileSize, totalLen_eq]
    rw [isContent_dataExtents_iff hdis]
    have hle := length_dataExtents_le bs hdis
    constructor
    · exact fun h => ⟨h.1, fun h => absurd h (by simp)⟩
    · rintro ⟨h, -⟩
      have := hcov _ h
      exact ⟨h, by omega⟩
  | some s =>
    by_cases hs : s = 0
    · -- a size of zero is taken as unknown
      subst hs
      simp only [Option.getD_some, if_true, Entry.newFile, fileSize, totalLen_eq]
      rw [isContent_dataExtents_iff hdis, ← length_dataExtents_eq_zero_iff bs]
      apply and_congr_right
      intro _
      simp only [true_implies]
      unfold u64Max
      omega
    · obtain ⟨i, hi, his⟩ := Option.bind_eq_some_iff.1 hsize
      have hs64 := i.size_le s his
      simp only [Option.getD_some, hs, if_false, Entry.newFile, fileSize]
      rw [extentAddresses_trimExtentsTo hs64 _ 0 (Nat.zero_le _), Nat.sub_zero, List.take_take,
        min_self, isContent_dataExtents_iff hdis]
      apply and_congr_right
      intro h
      have := hcov s h
      simp [hs]
      omega

end Apfs
end Reclaim
