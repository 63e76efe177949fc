import Reclaim.Fs.Apfs
import Reclaim.Fs.ExtContent
import Reclaim.Fs.Ntfs

/-!
# Files with holes

A file whose blocks one of the engines maps to extents: the runs of an NTFS attribute, the block map
of an ext inode, or the extent records of an APFS file.  Each engine drops the holes of the map,
none flags the entry, and so an entry has the file's content exactly when its map has no hole below
the size, nothing unwritten, and nothing that the engine leaves out.
-/

namespace Reclaim

open FileBytes FileMap

/-- A non-resident attribute of an NTFS record. -/
structure NtfsFile where
  clusterSize : ℕ
  runs : List Ntfs.Run
  realSize : ℕ
  name : String
  path : String
  inUse : Bool
  created : Option String
  modified : Option String
  realSize_le : realSize ≤ u64Max

/-- A file of an ext volume, read by `read`. -/
structure ExtFile where
  read : ℕ → ℕ → Bytes
  sb : Ext.Superblock
  inode : Ext.Inode
  dateFromEpoch : ℕ → Option String
  name : String
  path : String
  state : EntryState
  mapOk : inode.MapOk read sb

/-- A directory record of an APFS volume and the records of the file it names. -/
structure ApfsFile where
  blockSize : ℕ
  dirRec : Apfs.DirRec
  contents : Apfs.VolumeContents
  apfsDate : ℕ → Option String
  path : Option String
  state : EntryState
  disjoint : Apfs.Disjoint ((contents.extents dirRec.fileId).getD [])

namespace ApfsFile

/-- The extent records of the file. -/
def exts (f : ApfsFile) : List Apfs.FileExtent := (f.contents.extents f.dirRec.fileId).getD []

/-- The size that the inode records. -/
def recorded (f : ApfsFile) : Option ℕ := (f.contents.inodes f.dirRec.fileId).bind (·.size)

end ApfsFile

/-- A file that an engine maps to extents. -/
inductive MappedFile where
  | ntfs (f : NtfsFile)
  | ext (f : ExtFile)
  | apfs (f : ApfsFile)

namespace MappedFile

/-- The file's map. -/
def map : MappedFile → List FileMap.Piece
  | ntfs f => Ntfs.pieces f.clusterSize f.runs 0
  | ext f => (f.inode.blocks f.read f.sb).map (Ext.MappedBlock.piece f.sb.blockSize)
  | apfs f => Apfs.pieces f.blockSize f.exts

/-- Its logical size. -/
def size : MappedFile → ℕ
  | ntfs f => f.realSize
  | ext f => f.inode.size
  | apfs f => Apfs.fileSize f.recorded (Apfs.pieces f.blockSize f.exts)

/-- The entry that the engine emits for it; none for a directory. -/
def entry : MappedFile → Option Entry
  | ntfs f => some ((Ntfs.toRaw f.clusterSize f.name false f.inUse f.created f.modified 0
      (some ⟨false, f.realSize, f.runs⟩)).entry f.path)
  | ext f => Ext.entry f.read f.sb f.dateFromEpoch f.inode f.name f.path f.state
  | apfs f => Apfs.buildEntry f.apfsDate f.blockSize f.dirRec f.contents f.path f.state

/-- No byte below the size is in a hole, unwritten or left out, and a file that is empty by its
inode has no blocks. -/
def Dense : MappedFile → Prop
  | ntfs f => Covered (Ntfs.pieces f.clusterSize f.runs 0) 0 f.realSize
  | ext f => Covered ((f.inode.listed f.read f.sb).map (Ext.MappedBlock.piece f.sb.blockSize)) 0
      f.inode.size
  | apfs f => Covered (Apfs.pieces f.blockSize f.exts) 0
        (Apfs.fileSize f.recorded (Apfs.pieces f.blockSize f.exts)) ∧
      (f.recorded = some 0 → ∀ e ∈ Apfs.current f.exts, e.physBlock = 0 ∨ e.len = 0)

/-- No engine flags the entries it maps. -/
lemma not_flagged {f : MappedFile} {e : Entry} (h : f.entry = some e) : ¬ e.Flagged := by
  unfold Entry.Flagged
  cases f with
  | ntfs f =>
    rw [← Option.some.inj h]
    exact Bool.false_ne_true
  | ext f =>
    simp only [entry, Ext.entry] at h
    split at h
    · exact absurd h (by simp)
    · rw [← Option.some.inj h]
      exact Bool.false_ne_true
  | apfs f =>
    simp only [entry, Apfs.buildEntry] at h
    split at h
    · exact absurd h (by simp)
    · rw [← Option.some.inj h]
      exact Bool.false_ne_true

/-- The entry has the content of the file. -/
lemma reproduces_iff {f : MappedFile} {e : Entry} (h : f.entry = some e) :
    e.Reproduces f.map f.size ↔ f.Dense := by
  cases f with
  | ntfs f =>
    rw [← Option.some.inj h]
    exact Ntfs.isContent_runsToExtents_iff f.clusterSize f.realSize_le f.runs
  | ext f => exact Ext.reproduces_iff f.mapOk h
  | apfs f => exact Apfs.reproduces_iff h rfl rfl f.disjoint

end MappedFile

/-- An entry is the file that it was mapped from, or flagged, exactly if the file is dense. -/
theorem mappedFile_faithful_iff (f : MappedFile) (e : Entry) (h : f.entry = some e) :
    e.Reproduces f.map f.size ∨ e.Flagged ↔ f.Dense := by
  rw [← MappedFile.reproduces_iff h]
  exact or_iff_left (MappedFile.not_flagged h)

lemma twoRuns_size : 1000 ≤ u64Max := by
  unfold u64Max
  norm_num

/-- A file of two clusters, one run each. -/
def twoRuns : NtfsFile where
  clusterSize := 512
  runs := [⟨10, 1, false⟩, ⟨20, 1, false⟩]
  realSize := 1000
  name := "a.bin"
  path := "a.bin"
  inUse := true
  created := none
  modified := none
  realSize_le := twoRuns_size

/-- Its map has no hole, and its entry has its content. -/
theorem twoRuns_faithful :
    ∃ e, (MappedFile.ntfs twoRuns).entry = some e ∧
      (e.Reproduces (MappedFile.ntfs twoRuns).map 1000 ∨ e.Flagged) := by
  refine ⟨_, rfl, (mappedFile_faithful_iff (.ntfs twoRuns) _ rfl).2 fun i _ hi => ?_⟩
  rw [Nat.zero_add] at hi
  have hi : i < 1000 := hi
  have hmap : Ntfs.pieces 512 twoRuns.runs 0 =
      [⟨0, 512, 5120, true, 5120⟩, ⟨512, 512, 10240, true, 10240⟩] := by decide
  show ∃ p ∈ Ntfs.pieces 512 twoRuns.runs 0, _
  rw [hmap]
  by_cases hlt : i < 512
  · refine ⟨_, List.mem_cons_self, ⟨rfl, rfl⟩, Nat.zero_le i, ?_⟩
    show i < 0 + 512
    omega
  · refine ⟨_, List.mem_cons_of_mem _ List.mem_cons_self, ⟨rfl, rfl⟩, Nat.le_of_not_lt hlt, ?_⟩
    show i < 512 + 512
    omega

/-- The same file with a hole of one cluster between its runs. -/
def holeBetween : NtfsFile :=
  { twoRuns with
    runs := [⟨10, 1, false⟩, ⟨0, 1, true⟩, ⟨20, 1, false⟩]
    realSize := 1536
    realSize_le := by unfold u64Max; norm_num }

/-- The second run moves down into the hole, the file comes out a cluster short, and nothing flags
it. -/
theorem holeBetween_counterexample :
    ∃ e, (MappedFile.ntfs holeBetween).entry = some e ∧
      e.extents = [⟨5120, 512⟩, ⟨10240, 512⟩] ∧ e.size = 1536 ∧
        ¬ (e.Reproduces (MappedFile.ntfs holeBetween).map 1536 ∨ e.Flagged) := by
  refine ⟨_, rfl, by decide, rfl, ?_⟩
  rintro (h | h)
  · have hlen := (h fun _ => 0).length_eq
    have hshort : ((extentAddresses [⟨5120, 512⟩, ⟨10240, 512⟩]).take 1536).length = 1024 := by
      simp
    have hext : Ntfs.runsToExtents 512 holeBetween.runs 1536 = [⟨5120, 512⟩, ⟨10240, 512⟩] := by
      decide
    change (((extentAddresses (Ntfs.runsToExtents 512 holeBetween.runs 1536)).take 1536).map
      _).length = 1536 at hlen
    rw [hext, List.length_map, hshort] at hlen
    omega
  · exact MappedFile.not_flagged (f := .ntfs holeBetween) rfl h

end Reclaim
