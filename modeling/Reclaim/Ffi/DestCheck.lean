import Reclaim.Foundation.Text

/-!
# Sources by name

A source is named by a string: a device, an image file, a volume adopted from a session, or, in the
library only, a file descriptor.  `fromSourceId` goes the other way, from the id a source was stored
under; the command line has a copy of it that knows no descriptors.
-/

namespace Reclaim

open Text

/-- A resolved source specification. -/
inductive Resolved where
  /-- A raw device identified by BSD name. -/
  | device (bsd rawNode : String)
  /-- An image file. -/
  | image (path : String)
  /-- Proposal `index` in the session at `sessionDir`. -/
  | volume (sessionDir : String) (index : ℕ)
  /-- A raw file descriptor handed over by the privileged helper. -/
  | fd (fd : ℤ) (label : String)
  deriving DecidableEq

namespace Cli

/-- The command line's copy of `Resolved`. -/
inductive Resolved where
  | device (bsd rawNode : String)
  | image (path : String)
  | volume (sessionDir : String) (index : ℕ)
  deriving DecidableEq

end Cli

/-- The source of the library that a source of the command line stands for. -/
def Cli.Resolved.toFfi : Cli.Resolved → Reclaim.Resolved
  | .device bsd rawNode => .device bsd rawNode
  | .image path => .image path
  | .volume dir index => .volume dir index

/-- The part of an id before its last colon, or all of it. -/
def beforeLastColon (rest : List Char) : String :=
  String.ofList (((rsplitOnce ':' rest).map (·.1)).getD rest)

/-- Prefixes of the ids of image containers. -/
def containerPrefixes : List String :=
  ["dmg:", "vmdk:", "vmdk-flat:", "vdi:", "vhd-fixed:", "vhd-dyn:", "vhdx:", "qcow2:", "ewf:",
    "sparseimage:", "split:"]

/-- Reconstruct a source from a persisted source id. -/
def Resolved.fromSourceId (id : String) : Option Resolved :=
  match stripPrefix "image:".toList id.toList with
  | some rest => some (.image (beforeLastColon rest))
  | none =>
    match stripPrefix "device:".toList id.toList with
    | some rest => some (.device (beforeLastColon rest) ("/dev/r" ++ beforeLastColon rest))
    | none => containerPrefixes.findSome? fun pfx =>
        (stripPrefix pfx.toList id.toList).map fun rest => .image (beforeLastColon rest)

/-- The command line's copy of `fromSourceId`. -/
def Cli.Resolved.fromSourceId (id : String) : Option Cli.Resolved :=
  match stripPrefix "image:".toList id.toList with
  | some rest => some (.image (beforeLastColon rest))
  | none =>
    match stripPrefix "device:".toList id.toList with
    | some rest => some (.device (beforeLastColon rest) ("/dev/r" ++ beforeLastColon rest))
    | none => containerPrefixes.findSome? fun pfx =>
        (stripPrefix pfx.toList id.toList).map fun rest => .image (beforeLastColon rest)

/-- A reconstructed source is an image or a device. -/
lemma Resolved.fromSourceId_cases {id : String} {r : Resolved}
    (h : Resolved.fromSourceId id = some r) :
    (∃ path, r = .image path) ∨ ∃ bsd, r = .device bsd ("/dev/r" ++ bsd) := by
  unfold Resolved.fromSourceId at h
  split at h
  · exact .inl ⟨_, (Option.some.inj h).symm⟩
  · split at h
    · exact .inr ⟨_, (Option.some.inj h).symm⟩
    · obtain ⟨pfx, _, hp⟩ := List.exists_of_findSome?_eq_some h
      obtain ⟨rest, _, hr⟩ := Option.map_eq_some_iff.1 hp
      exact .inl ⟨_, hr.symm⟩

/-- Both copies reconstruct the same source. -/
lemma Cli.Resolved.fromSourceId_toFfi (id : String) :
    (Cli.Resolved.fromSourceId id).map Cli.Resolved.toFfi = Reclaim.Resolved.fromSourceId id := by
  unfold Cli.Resolved.fromSourceId Reclaim.Resolved.fromSourceId
  split
  · rfl
  · split
    · rfl
    · rw [List.map_findSome?]
      congr 1
      funext pfx
      simp only [Function.comp_apply, Option.map_map]
      rfl

end Reclaim

/-!
## Is the destination on the disk being recovered?

`destOnSameDisk` compares an image file and a destination by file system, and a device and a
destination by the whole disks they lie on, a synthesized container standing also for the whole
disks of its physical stores; an adopted volume is as the source it was found on.  Every look-up on
the way can fail.

`Apart` says what an answer *false* should mean: both sides were determined and share nothing.  Some
failures answer *false* all the same.  `refuses_iff` says of every host, source and destination
whether the answer can be trusted.
-/

namespace Reclaim

open Text Paths

/-- A disk of the inventory: its name and, if it is an APFS container or volume, the partitions it
is stored on. -/
structure InventoryDisk where
  bsdName : String
  apfs : Option (List String)

/-- What the operating system answers: the device of a file's file system, the device a path's file
system is mounted from, the inventory of disks, and the source id stored in a session directory.
Any of them may fail. -/
structure Host where
  fsDevice : FilePath → Option ℕ
  mountedFrom : FilePath → Option String
  enumerate : Option (List InventoryDisk)
  readSourceInfo : String → Option String

/-! ## The check -/

/-- Device of the nearest existing ancestor. -/
def fsDeviceAncestor (host : Host) (path : FilePath) : Option ℕ :=
    path.ancestors.findSome? host.fsDevice

/-- The nearest existing ancestor. -/
def nearestExisting (host : Host) (path : FilePath) : Option FilePath :=
  path.ancestors.find? fun p => (host.fsDevice p).isSome

/-- Whole-disk name of a device: a slice suffix after `diskN` is dropped. -/
def wholeDisk (bsd : String) : String :=
  match stripPrefix "disk".toList bsd.toList with
  | some rest =>
    let digits := rest.takeWhile Char.isDigit
    if digits.isEmpty then bsd else String.ofList ("disk".toList ++ digits)
  | none => bsd

/-- Whole disk that the destination's file system is on. -/
def destWholeDisk (host : Host) (dest : FilePath) : Option String :=
  (nearestExisting host dest).bind fun anc => (host.mountedFrom anc).map fun dev =>
    wholeDisk (String.ofList (((rsplitOnce '/' dev.toList).map (·.2)).getD dev.toList))

/-- The entry of a whole disk in an inventory. -/
def findDisk (disks : List InventoryDisk) (whole : String) : Option InventoryDisk :=
  disks.find? fun d => d.bsdName == whole

/-- Whole disks of the physical stores of a disk, as the inventory lists them. -/
def storesOf (disks : List InventoryDisk) (whole : String) : List String :=
  (((findDisk disks whole).bind (·.apfs)).getD []).map wholeDisk

/-- The disk and, if it is a container, the whole disks of its physical stores. -/
def physicalSet (host : Host) (whole : String) : List String :=
  whole :: (host.enumerate.map fun disks => storesOf disks whole).getD []

/-- Two lists share an element. -/
def overlap (a b : List String) : Bool := a.any b.contains

/-- The source behind an adopted volume. -/
def Resolved.underlying (host : Host) : Resolved → Option Resolved
  | .volume dir _ => (host.readSourceInfo dir).bind Resolved.fromSourceId
  | _ => none

/-- The check for a device name. -/
def deviceOnSameDisk (host : Host) (bsd : String) (dest : FilePath) : Bool :=
  if "disk".toList <+: bsd.toList then
    match destWholeDisk host dest with
    | some destWhole => overlap (physicalSet host (wholeDisk bsd)) (physicalSet host destWhole)
    | none => true
  else true

/-- The check for an image file. -/
def imageOnSameDisk (host : Host) (path : String) (dest : FilePath) : Bool :=
  match host.fsDevice (.ofString path), fsDeviceAncestor host dest with
  | some a, some b => a == b
  | _, _ => false

/-- How many adoptions lie over a source; what is reconstructed from an id is never adopted. -/
def Resolved.adoptions : Resolved → ℕ
  | .volume _ _ => 1
  | _ => 0

lemma Resolved.adoptions_underlying (host : Host) {source inner : Resolved}
    (h : source.underlying host = some inner) : inner.adoptions < source.adoptions := by
  cases source with
  | volume dir index =>
    obtain ⟨id, _, hid⟩ := Option.bind_eq_some_iff.1 h
    rcases fromSourceId_cases hid with ⟨path, rfl⟩ | ⟨bsd, rfl⟩
    · exact Nat.one_pos
    · exact Nat.one_pos
  | device bsd node => cases h
  | image path => cases h
  | fd n label => cases h

/-- True if recovering to `dest` would write to the disk of `source`. -/
def destOnSameDisk (host : Host) (source : Resolved) (dest : FilePath) : Bool :=
  match source with
  | .image path => imageOnSameDisk host path dest
  | .device bsd _ => deviceOnSameDisk host bsd dest
  | .fd _ label => deviceOnSameDisk host label dest
  | .volume dir index =>
    match _h : Resolved.underlying host (.volume dir index) with
    | some inner => destOnSameDisk host inner dest
    | none => false
termination_by source.adoptions
decreasing_by exact Resolved.adoptions_underlying _ ‹_›

namespace Cli

/-- The command line's copy of `underlying`. -/
def Resolved.underlying (host : Host) : Cli.Resolved → Option Cli.Resolved
  | .volume dir _ => (host.readSourceInfo dir).bind Cli.Resolved.fromSourceId
  | _ => none

lemma Resolved.underlying_toFfi (host : Host) (c : Cli.Resolved) :
    (c.underlying host).map Resolved.toFfi = c.toFfi.underlying host := by
  cases c with
  | volume dir index =>
    simp only [Resolved.underlying, Resolved.toFfi, Reclaim.Resolved.underlying, Option.map_bind]
    congr 1
    funext id
    exact Resolved.fromSourceId_toFfi id
  | device bsd node => rfl
  | image path => rfl

lemma Resolved.adoptions_underlying {host : Host} {source inner : Cli.Resolved}
    (h : source.underlying host = some inner) :
    inner.toFfi.adoptions < source.toFfi.adoptions := by
  apply Reclaim.Resolved.adoptions_underlying host
  rw [← Resolved.underlying_toFfi, h, Option.map_some]

/-- The command line's copy of `dest_on_same_disk`; the functions it calls are copies too. -/
def destOnSameDisk (host : Host) (source : Cli.Resolved) (dest : FilePath) : Bool :=
  match source with
  | .image path => imageOnSameDisk host path dest
  | .device bsd _ => deviceOnSameDisk host bsd dest
  | .volume dir index =>
    match _h : Cli.Resolved.underlying host (.volume dir index) with
    | some inner => destOnSameDisk host inner dest
    | none => false
termination_by source.toFfi.adoptions
decreasing_by exact Resolved.adoptions_underlying ‹_›

/-- Both copies give the same answer. -/
lemma destOnSameDisk_toFfi (host : Host) (c : Cli.Resolved) (dest : FilePath) :
    destOnSameDisk host c dest = Reclaim.destOnSameDisk host c.toFfi dest := by
  induction hn : c.toFfi.adoptions using Nat.strong_induction_on generalizing c with
  | _ n ih =>
    cases c with
    | image path => simp only [Resolved.toFfi, destOnSameDisk, Reclaim.destOnSameDisk]
    | device bsd node => simp only [Resolved.toFfi, destOnSameDisk, Reclaim.destOnSameDisk]
    | volume dir index =>
      have hmap := Resolved.underlying_toFfi host (.volume dir index)
      rw [Resolved.toFfi, destOnSameDisk, Reclaim.destOnSameDisk]
      split
      · rename_i inner hinner
        rw [hinner, Option.map_some, Resolved.toFfi] at hmap
        split
        · rename_i inner' hinner'
          rw [hinner'] at hmap
          rw [← Option.some.inj hmap]
          apply ih _ _ inner rfl
          subst hn
          exact Resolved.adoptions_underlying hinner
        · rename_i hnone
          rw [hnone] at hmap
          cases hmap
      · rename_i hinner
        rw [hinner, Option.map_none, Resolved.toFfi] at hmap
        split
        · rename_i inner' hinner'
          rw [hinner'] at hmap
          cases hmap
        · rfl

end Cli

/-! ## What the answer should mean -/

/-- `b` is `a`, or the whole disk of a physical store of a disk that `a` lies on. -/
inductive LiesOn (disks : List InventoryDisk) (a : String) : String → Prop
  | self : LiesOn disks a a
  | store {b c : String} (h : LiesOn disks a b) (hc : c ∈ storesOf disks b) : LiesOn disks a c

/-- The inventory lists every disk that `a` lies on. -/
def Listed (disks : List InventoryDisk) (a : String) : Prop :=
  ∀ b, LiesOn disks a b → (findDisk disks b).isSome

/-- Two whole disks were both determined and lie on no common disk. -/
def DisksApart (host : Host) (a b : String) : Prop :=
  ∃ disks, host.enumerate = some disks ∧ Listed disks a ∧ Listed disks b ∧
    ∀ d, LiesOn disks a d → ¬ LiesOn disks b d

/-- The source that is looked at: the one behind an adopted volume, else the source itself. -/
def Resolved.base (host : Host) : Resolved → Option Resolved
  | .volume dir index => Resolved.underlying host (.volume dir index)
  | source => some source

/-- Source and destination were both determined and share nothing. -/
def Apart (host : Host) (source : Resolved) (dest : FilePath) : Prop :=
  match source.base host with
  | some (.image path) => ∃ a b, host.fsDevice (.ofString path) = some a ∧
      fsDeviceAncestor host dest = some b ∧ a ≠ b
  | some (.device bsd _) | some (.fd _ bsd) =>
      ∃ w, destWholeDisk host dest = some w ∧ DisksApart host (wholeDisk bsd) w
  | _ => False

/-! ## When it does -/

/-- If the disks that two disks lie on meet at all, they meet among the disks themselves and their
own stores. -/
def MeetAtOnce (disks : List InventoryDisk) (a b : String) : Prop :=
  ∀ d, LiesOn disks a d → LiesOn disks b d →
    overlap (a :: storesOf disks a) (b :: storesOf disks b) = true

/-- The look-ups for a device name suffice: the name is no disk's or the destination's disk is not
found, both of which refuse; or what is found overlaps; or the inventory lists all that the two
disks lie on, and they do not meet below the first stores only. -/
def DeviceKnown (host : Host) (bsd : String) (dest : FilePath) : Prop :=
  ¬ "disk".toList <+: bsd.toList ∨ destWholeDisk host dest = none ∨
    ∃ w, destWholeDisk host dest = some w ∧
      (overlap (physicalSet host (wholeDisk bsd)) (physicalSet host w) = true ∨
        ∃ disks, host.enumerate = some disks ∧ Listed disks (wholeDisk bsd) ∧ Listed disks w ∧
          MeetAtOnce disks (wholeDisk bsd) w)

/-- The look-ups that the answer rests on suffice. -/
def Known (host : Host) (source : Resolved) (dest : FilePath) : Prop :=
  match source.base host with
  | some (.image path) => (host.fsDevice (.ofString path)).isSome = true ∧
      (fsDeviceAncestor host dest).isSome = true
  | some (.device bsd _) | some (.fd _ bsd) => DeviceKnown host bsd dest
  | _ => False

lemma Resolved.base_ne_volume {host : Host} {source : Resolved} {dir : String} {index : ℕ} :
    source.base host ≠ some (.volume dir index) := by
  intro h
  cases source with
  | volume d i =>
    have hlt : (volume dir index).adoptions < (volume d i).adoptions := adoptions_underlying host h
    exact absurd hlt (by simp [adoptions])
  | device bsd node => cases h
  | image path => cases h
  | fd n label => cases h

/-- The check looks at the base of the source. -/
lemma destOnSameDisk_eq (host : Host) (source : Resolved) (dest : FilePath) :
    destOnSameDisk host source dest =
      match source.base host with
      | some (.image path) => imageOnSameDisk host path dest
      | some (.device bsd _) => deviceOnSameDisk host bsd dest
      | some (.fd _ label) => deviceOnSameDisk host label dest
      | _ => false := by
  cases source with
  | image path => simp only [destOnSameDisk, Resolved.base]
  | device bsd node => simp only [destOnSameDisk, Resolved.base]
  | fd n label => simp only [destOnSameDisk, Resolved.base]
  | volume dir index =>
    rw [destOnSameDisk, Resolved.base]
    split
    · rename_i inner hinner
      rw [hinner]
      have hne := @Resolved.base_ne_volume host (.volume dir index)
      simp only [Resolved.base, hinner] at hne
      cases inner with
      | image path => simp only [destOnSameDisk]
      | device bsd node => simp only [destOnSameDisk]
      | fd n label => simp only [destOnSameDisk]
      | volume d i => exact absurd rfl hne
    · rename_i hinner
      rw [hinner]

lemma mem_physicalSet {host : Host} {disks : List InventoryDisk} (he : host.enumerate = some disks)
    (whole : String) : physicalSet host whole = whole :: storesOf disks whole := by
  rw [physicalSet, he, Option.map_some, Option.getD_some]

lemma deviceOnSameDisk_sound_iff (host : Host) (bsd : String) (dest : FilePath) :
    (deviceOnSameDisk host bsd dest = false →
      ∃ w, destWholeDisk host dest = some w ∧ DisksApart host (wholeDisk bsd) w) ↔
      DeviceKnown host bsd dest := by
  unfold deviceOnSameDisk DeviceKnown
  by_cases hdisk : "disk".toList <+: bsd.toList
  · rw [if_pos hdisk]
    cases hw : destWholeDisk host dest with
    | none => simp
    | some w =>
      simp only [Option.some.injEq, exists_eq_left', reduceCtorEq, false_or, hdisk,
        not_true_eq_false]
      constructor
      · intro h
        rw [or_iff_not_imp_left, Bool.not_eq_true]
        intro hno
        obtain ⟨disks, he, ha, hb, hapart⟩ := h hno
        exact ⟨disks, he, ha, hb, fun d hd hd' => absurd hd' (hapart d hd)⟩
      · rintro (hover | ⟨disks, he, ha, hb, hmeet⟩) hno
        · exact absurd (hover.symm.trans hno) (by decide)
        · refine ⟨disks, he, ha, hb, fun d hd hd' => ?_⟩
          have hover := hmeet d hd hd'
          rw [← mem_physicalSet he, ← mem_physicalSet he, hno] at hover
          exact absurd hover (by decide)
  · rw [if_neg hdisk]
    exact ⟨fun _ => .inl hdisk, fun _ h => by cases h⟩

lemma imageOnSameDisk_sound_iff (host : Host) (path : String) (dest : FilePath) :
    (imageOnSameDisk host path dest = false → ∃ a b, host.fsDevice (.ofString path) = some a ∧
      fsDeviceAncestor host dest = some b ∧ a ≠ b) ↔
      (host.fsDevice (.ofString path)).isSome = true ∧
        (fsDeviceAncestor host dest).isSome = true := by
  unfold imageOnSameDisk
  cases host.fsDevice (.ofString path) with
  | none => simp
  | some a =>
    cases fsDeviceAncestor host dest with
    | none => simp
    | some b => simp

/-- **When the destination check can be trusted.**  On every host, for every source and
destination: the check answers *false* only if both sides were determined and share no disk (so
every failure on the way refuses), and the command line's copy gives the same answer, exactly when
the look-ups it rests on suffice. -/
theorem destCheck_sound_iff (host : Host) (source : Resolved) (dest : FilePath) :
    ((destOnSameDisk host source dest = false → Apart host source dest) ∧
      ∀ c : Cli.Resolved, c.toFfi = source →
        Cli.destOnSameDisk host c dest = destOnSameDisk host source dest) ↔
      Known host source dest := by
  have hcopy : ∀ c : Cli.Resolved, c.toFfi = source →
      Cli.destOnSameDisk host c dest = destOnSameDisk host source dest := by
    intro c hc
    rw [Cli.destOnSameDisk_toFfi, hc]
  rw [and_iff_left hcopy, destOnSameDisk_eq, Apart, Known]
  have hne := @Resolved.base_ne_volume host source
  cases hbase : source.base host with
  | none => simp
  | some r =>
    cases r with
    | image path => exact imageOnSameDisk_sound_iff host path dest
    | device bsd node => exact deviceOnSameDisk_sound_iff host bsd dest
    | fd n label => exact deviceOnSameDisk_sound_iff host label dest
    | volume dir index => exact absurd hbase hne

/-- A host with one file system, which does not answer for the empty path. -/
def oneFileSystem : Host where
  fsDevice p := if p.comps = ["out"] ∨ p.comps = [] then none else some 1
  mountedFrom _ := some "/dev/disk1s1"
  enumerate := some [⟨"disk1", none⟩]
  readSourceInfo _ := none

/-- A relative destination that does not exist yet is taken for another disk than the image's. -/
theorem relativeDest_counterexample :
    ¬ (destOnSameDisk oneFileSystem (.image "/disk.img") ⟨false, ["out"]⟩ = false →
      Apart oneFileSystem (.image "/disk.img") ⟨false, ["out"]⟩) := by
  intro h
  have hnone : fsDeviceAncestor oneFileSystem ⟨false, ["out"]⟩ = none := by decide
  have hfalse : imageOnSameDisk oneFileSystem "/disk.img" ⟨false, ["out"]⟩ = false := by
    rw [imageOnSameDisk, hnone]
    cases oneFileSystem.fsDevice (.ofString "/disk.img") with
    | none => rfl
    | some a => rfl
  obtain ⟨a, b, -, hb, -⟩ := h (by rw [destOnSameDisk_eq]; exact hfalse)
  rw [hnone] at hb
  cases hb

end Reclaim
