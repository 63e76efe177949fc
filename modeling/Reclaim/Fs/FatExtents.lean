import Reclaim.Fs.Coalesce
import Reclaim.Fs.ExFat
import Reclaim.Fs.FatBitmap

/-!
# The extents of a file

`resolve_extents` follows the chain of a file, or takes its clusters to be contiguous.  A chain that
is long enough is spelled by the extents; one that is too short gives less than the size, and only
the guess leaves a mark on the entry.
-/

namespace Reclaim

open FileBytes Links

/-- The clusters along the links from `first` on, which are good, differ and are as many as
needed. -/
structure IntactChain (good : ℕ → Prop) (link : ℕ → Option ℕ) (first need : ℕ) (clusters : List ℕ) :
    Prop where
  along : clusters = follow link clusters.length first
  good_first : good first
  nodup : clusters.Nodup
  enough : need ≤ clusters.length

section Intact

variable {good : ℕ → Prop} {link : ℕ → Option ℕ} {place : ℕ → ℕ}
  {clusterSize first need size cap limit : ℕ} {clusters : List ℕ}

/-- A walk that may be long enough spells an intact chain, cut to the size. -/
lemma IntactChain.take_eq (h : IntactChain good link first (divCeil size clusterSize) clusters)
    (hpos : 0 < clusterSize) (hcap : divCeil size clusterSize ≤ cap) :
    (clusterAddresses clusterSize place (follow link cap first)).take size =
      (clusterAddresses clusterSize place clusters).take size := by
  have henough := h.enough
  have hneed : clusters.take (divCeil size clusterSize) =
      follow link (divCeil size clusterSize) first := by
    rw [h.along, follow_take, min_eq_left henough]
  rw [take_clusterAddresses hpos, follow_take, min_eq_left hcap, ← hneed]
  exact (take_clusterAddresses hpos).symm

/-- Clusters that differ are not more than there are. -/
lemma IntactChain.need_le (h : IntactChain good link first need clusters)
    (hgood : ∀ c ∈ clusters, c < limit) : need ≤ limit := by
  have hsub : clusters ⊆ List.range limit := fun c hc => List.mem_range.2 (hgood c hc)
  have hle := (h.nodup.subperm hsub).length_le
  rw [List.length_range] at hle
  exact h.enough.trans hle

/-- The links lead as far as is needed. -/
lemma IntactChain.after_ne_none (h : IntactChain good link first need clusters) (hneed : 0 < need) :
    after link (need - 1) first ≠ none := by
  have hlen := h.enough
  rw [h.along] at hlen
  exact (lt_length_follow_iff.1 (lt_of_lt_of_le (Nat.sub_lt hneed Nat.one_pos) hlen)).2

/-- A walk of the length that `chain` is asked for has the needed clusters if the links lead so
far. -/
lemma need_le_length_iff (hneed : 0 < need) (hu64 : need ≤ u64Max) (hlimit : 0 < limit) :
    need ≤ (follow link (max (min (saturatingAdd need 2) limit) 1) first).length ↔
      need ≤ limit ∧ after link (need - 1) first ≠ none := by
  have hcap : need - 1 < max (min (saturatingAdd need 2) limit) 1 ↔ need ≤ limit := by
    rw [saturatingAdd]
    omega
  rw [← Nat.sub_add_cancel hneed, Nat.add_one_le_iff, lt_length_follow_iff,
    Nat.sub_add_cancel hneed,
    hcap]

lemma divCeil_le_iff {n : ℕ} (hpos : 0 < clusterSize) :
    divCeil size clusterSize ≤ n ↔ size ≤ n * clusterSize := by
  rw [← not_lt, lt_divCeil_iff hpos, not_lt]

end Intact

/-- The extents of an entry hold its size, or it is marked. -/
def Entry.Accounted (e : Entry) (lowered : Prop) : Prop :=
  (e.extents.map (·.len)).sum = e.size ∨ e.Flagged ∨ lowered

/-- What lowers the confidence is the guess, or what makes the whole volume suspect. -/
lemma accounted_iff_of_lowered {e : Entry} {accountable suspect : Prop}
    (h : (e.extents.map (·.len)).sum = e.size ∨ e.contiguousAssumed = true ↔ accountable) :
    e.Accounted (suspect ∨ e.contiguousAssumed = true) ↔ suspect ∨ accountable := by
  rw [← h, Entry.Accounted, Entry.Flagged]
  tauto

/-! ## FAT -/

namespace FatFs

/-- How likely a file is what it seems, by its name, the two tables and the guess. -/
def fileConfidence (nameConf : ℚ) (fatsMatch assumed : Bool) : ℚ :=
  let base := if fatsMatch then nameConf else nameConf * (9 / 10)
  if assumed then base * (8 / 10) else base

lemma fileConfidence_lt_iff {nameConf : ℚ} (hpos : 0 < nameConf) {fatsMatch assumed : Bool} :
    fileConfidence nameConf fatsMatch assumed < nameConf ↔ fatsMatch = false ∨ assumed = true := by
  unfold fileConfidence
  cases fatsMatch <;> cases assumed <;> simp <;> linarith

variable (fs : FatFs)

/-- Where a cluster is. -/
def place (c : ℕ) : ℕ := fs.dataStart + (c - 2) * fs.clusterSize

/-- The extents of a file hold its size, or only a guess was made. -/
def Accountable (first size : ℕ) (deleted : Bool) : Prop :=
  let need := divCeil size fs.clusterSize
  size = 0 ∨
    (fs.ValidCluster first ∧
      (deleted = true ∨ need ≤ fs.countOfClusters + 2 ∧ after fs.link (need - 1) first ≠ none)) ∨
    (fs.countOfClusters + 2 ≤ first ∧ fs.clusterSize < size)

section Mounted

variable {bpb : Bpb} {vol : Volume} {first size : ℕ} {deleted : Bool}

lemma laid {l : List ℕ} (hl : ∀ c ∈ l, (bpb.mount vol).ValidCluster c) :
    Laid (bpb.mount vol).clusterOffset (bpb.mount vol).clusterSize (bpb.mount vol).place l := by
  intro c hc
  obtain ⟨h2, hlt⟩ := hl c hc
  refine ⟨bpb.clusterOffset_eq vol h2 hlt, ?_⟩
  have hnext : c + 1 - 2 = c - 2 + 1 := by omega
  rw [place, place, hnext, Nat.add_mul, Nat.one_mul, Nat.add_assoc]

/-- A cluster ends before the volume does. -/
lemma place_add_le {c : ℕ} (hc : (bpb.mount vol).ValidCluster c) :
    (bpb.mount vol).place c + (bpb.mount vol).clusterSize ≤ (bpb.mount vol).totalBytes := by
  obtain ⟨h2, hlt⟩ := hc
  have hcount : c - 2 + 1 ≤ (bpb.totalSectors - bpb.firstDataSector) / bpb.sectorsPerCluster := by
    have hmod : bpb.clusterCount ≤ _ := Nat.mod_le ..
    have hlt : c < bpb.clusterCount + 2 := hlt
    omega
  have hsectors := (Nat.le_div_iff_mul_le bpb.sectorsPerCluster_bounds.1).1 hcount
  have hone := bpb.sectorsPerCluster_bounds.1
  have hend : bpb.firstDataSector + (c - 2 + 1) * bpb.sectorsPerCluster ≤ bpb.totalSectors := by
    rw [Nat.add_mul, Nat.one_mul] at hsectors ⊢
    omega
  calc bpb.firstDataSector * bpb.bytesPerSector +
        (c - 2) * (bpb.bytesPerSector * bpb.sectorsPerCluster) +
          bpb.bytesPerSector * bpb.sectorsPerCluster
      = (bpb.firstDataSector + (c - 2 + 1) * bpb.sectorsPerCluster) * bpb.bytesPerSector := by ring
    _ ≤ bpb.totalSectors * bpb.bytesPerSector := Nat.mul_le_mul_right _ hend

/-- The extents of a live file in the volume are those of its chain. -/
lemma resolveExtents_live (hfirst : (bpb.mount vol).ValidCluster first) (hsize : 0 < size) :
    (bpb.mount vol).resolveExtents first size false =
      (coalesceClusters (bpb.mount vol).clusterOffset (bpb.mount vol).clusterSize
        (follow (bpb.mount vol).link ((bpb.mount vol).chainCap
          (saturatingAdd (divCeil size (bpb.mount vol).clusterSize) 2)) first) size, false) := by
  have hpos := bpb.clusterSize_pos vol
  set cap := (bpb.mount vol).chainCap (saturatingAdd (divCeil size (bpb.mount vol).clusterSize) 2)
    with hcap
  have hlong : 0 < (follow (bpb.mount vol).link cap first).length := by
    rw [lt_length_follow_iff]
    exact ⟨lt_max_of_lt_right Nat.one_pos, Option.some_ne_none _⟩
  have hlaid : Laid (bpb.mount vol).clusterOffset (bpb.mount vol).clusterSize (bpb.mount vol).place
      (follow (bpb.mount vol).link cap first) := laid (valid_of_mem_follow hfirst)
  have hne : coalesceClusters (bpb.mount vol).clusterOffset (bpb.mount vol).clusterSize
      (follow (bpb.mount vol).link cap first) size ≠ [] := by
    intro hnil
    have hbytes := Nat.mul_pos hlong hpos
    have hzero : 0 = min size ((follow (bpb.mount vol).link cap first).length *
        (bpb.mount vol).clusterSize) := by
      rw [← sum_coalesceClusters hpos hlaid, hnil]
      rfl
    omega
  unfold resolveExtents
  have hvalid := hfirst.1
  rw [if_neg (by omega)]
  simp only [Bool.false_eq_true, if_false]
  rw [chain_eq hfirst, if_pos hne]

/-- Those of another one are a guess. -/
lemma resolveExtents_guess (hsize : 0 < size) (h2 : 2 ≤ first)
    (h : deleted = true ∨ (bpb.mount vol).countOfClusters + 2 ≤ first) :
    (bpb.mount vol).resolveExtents first size deleted =
      ((bpb.mount vol).contiguous first size (divCeil size (bpb.mount vol).clusterSize),
        decide (1 < divCeil size (bpb.mount vol).clusterSize)) := by
  unfold resolveExtents
  rw [if_neg (by omega)]
  dsimp only
  have hnil : (if deleted = true then [] else
      coalesceClusters (bpb.mount vol).clusterOffset (bpb.mount vol).clusterSize
        ((bpb.mount vol).chain first
          (saturatingAdd (divCeil size (bpb.mount vol).clusterSize) 2)) size) = [] := by
    rcases h with hdeleted | hbehind
    · rw [if_pos hdeleted]
    · have hchain : ∀ m, (bpb.mount vol).chain first m = [] := fun m =>
        (bpb.mount vol).walks_chainFrom.eq_nil fun hvalid => by
          have := hvalid.2
          omega
      rw [hchain]
      split
      · rfl
      · rfl
  rw [if_neg (not_not_intro hnil)]

lemma one_lt_need_iff {fs : FatFs} (hpos : 0 < fs.clusterSize) :
    1 < divCeil size fs.clusterSize ↔ fs.clusterSize < size := by
  rw [lt_divCeil_iff hpos, Nat.one_mul]

/-- **What `resolve_extents` accounts for.** -/
lemma accounted_iff (hu64 : size ≤ u64Max) :
    ((((bpb.mount vol).resolveExtents first size deleted).1.map (·.len)).sum = size ∨
      ((bpb.mount vol).resolveExtents first size deleted).2 = true) ↔
        (bpb.mount vol).Accountable first size deleted := by
  have hpos := bpb.clusterSize_pos vol
  unfold Accountable
  dsimp only
  rcases Nat.eq_zero_or_pos size with rfl | hsize
  · exact iff_of_true (.inl rfl) (.inl rfl)
  by_cases h2 : first < 2
  · -- no cluster is named
    have hnone : (bpb.mount vol).resolveExtents first size deleted = ([], false) :=
      if_pos (.inr h2)
    rw [hnone]
    refine iff_of_false ?_ ?_
    · rintro (hsum | hflag)
      · exact hsize.ne hsum
      · cases hflag
    · rintro (hzero | ⟨hvalid, -⟩ | ⟨hbehind, -⟩)
      · omega
      · exact absurd hvalid.1 (by omega)
      · omega
  by_cases hlt : first < (bpb.mount vol).countOfClusters + 2
  · have hfirst : (bpb.mount vol).ValidCluster first := ⟨not_lt.1 h2, hlt⟩
    cases deleted with
    | true =>
      refine iff_of_true ?_ (.inr (.inl ⟨hfirst, .inl rfl⟩))
      rw [resolveExtents_guess hsize (not_lt.1 h2) (.inl rfl)]
      by_cases hone : 1 < divCeil size (bpb.mount vol).clusterSize
      · exact .inr (decide_eq_true hone)
      · -- one cluster, which the volume has
        left
        have hfits := place_add_le hfirst
        have hbytes := le_divCeil_mul hpos size
        rw [one_lt_need_iff hpos] at hone
        rw [contiguous, (laid (l := [first]) (by simpa using hfirst) first List.mem_cons_self).1]
        change min (min size (saturatingMul _ _)) (_ - (bpb.mount vol).place first) + 0 = size
        rw [saturatingMul]
        omega
    | false =>
      have hneed : 0 < divCeil size (bpb.mount vol).clusterSize := by
        rw [lt_divCeil_iff hpos]
        omega
      have hle : divCeil size (bpb.mount vol).clusterSize ≤ u64Max := by
        refine le_trans ((divCeil_le_iff hpos).2 ?_) hu64
        exact Nat.le_mul_of_pos_right _ hpos
      have hreach := @need_le_length_iff (bpb.mount vol).link first _ _ hneed hle
        (Nat.succ_pos ((bpb.mount vol).countOfClusters + 1))
      rw [divCeil_le_iff hpos] at hreach
      rw [resolveExtents_live hfirst hsize]
      dsimp only
      rw [sum_coalesceClusters hpos (laid (valid_of_mem_follow hfirst)), min_eq_left_iff]
      constructor
      · rintro (hsum | hflag)
        · exact .inr (.inl ⟨hfirst, .inr (hreach.1 hsum)⟩)
        · cases hflag
      · rintro (hzero | ⟨-, hdeleted | hlinks⟩ | ⟨hbehind, -⟩)
        · omega
        · cases hdeleted
        · exact .inl (hreach.2 hlinks)
        · omega
  · rw [resolveExtents_guess hsize (not_lt.1 h2) (.inr (not_lt.1 hlt))]
    have hnone : (bpb.mount vol).clusterOffset first = none := if_pos (.inr (not_lt.1 hlt))
    rw [contiguous, hnone]
    dsimp only
    rw [decide_eq_true_iff, one_lt_need_iff hpos]
    constructor
    · rintro (hsum | hlong)
      · exact absurd hsum hsize.ne
      · exact .inr (.inr ⟨not_lt.1 hlt, hlong⟩)
    · rintro (hzero | ⟨hvalid, -⟩ | ⟨-, hlong⟩)
      · omega
      · exact absurd hvalid.2 hlt
      · exact .inr hlong

/-- **An intact chain of a live file** is what the extents spell. -/
lemma spelled {clusters : List ℕ} (hu64 : size ≤ u64Max)
    (h : IntactChain (bpb.mount vol).ValidCluster (bpb.mount vol).link first
      (divCeil size (bpb.mount vol).clusterSize) clusters) :
    extentAddresses ((bpb.mount vol).resolveExtents first size false).1 =
      (clusterAddresses (bpb.mount vol).clusterSize (bpb.mount vol).place clusters).take size := by
  have hpos := bpb.clusterSize_pos vol
  rcases Nat.eq_zero_or_pos size with rfl | hsize
  · exact List.take_zero.symm
  have hfirst := h.good_first
  have hlimit : divCeil size (bpb.mount vol).clusterSize ≤ (bpb.mount vol).countOfClusters + 2 := by
    apply h.need_le
    intro c hc
    rw [h.along] at hc
    exact (valid_of_mem_follow hfirst c hc).2
  have hle : divCeil size (bpb.mount vol).clusterSize ≤ u64Max := by
    refine le_trans ((divCeil_le_iff hpos).2 ?_) hu64
    exact Nat.le_mul_of_pos_right _ hpos
  rw [resolveExtents_live hfirst hsize]
  dsimp only
  rw [extentAddresses_coalesceClusters hpos (laid (valid_of_mem_follow hfirst))]
  apply h.take_eq hpos
  rw [chainCap, saturatingAdd]
  omega

end Mounted

end FatFs

/-! ## exFAT -/

namespace ExFat

/-- How likely a file is what it seems, by the checksum of the boot sectors and the guess. -/
def fileConfidence (checksumOk assumed : Bool) : ℚ :=
  let base := if checksumOk then 9 / 10 else 8 / 10
  if assumed then base * (75 / 100) else base

lemma fileConfidence_lt_iff {checksumOk assumed : Bool} :
    fileConfidence checksumOk assumed < 9 / 10 ↔ checksumOk = false ∨ assumed = true := by
  unfold fileConfidence
  cases checksumOk <;> cases assumed <;> norm_num

variable (fs : ExFat)

/-- Where a cluster is. -/
def place (c : ℕ) : ℕ := fs.clusterHeapOffset + (c - 2) * fs.clusterSize

/-- The extents of a file hold its size, or only a guess was made. -/
def Accountable (first size : ℕ) (noFatChain deleted : Bool) : Prop :=
  let need := divCeil size fs.clusterSize
  size = 0 ∨
    if noFatChain then fs.ValidCluster first ∧ fs.place first + size ≤ fs.volumeLength
    else
      (fs.ValidCluster first ∧
        (deleted = true ∨ need ≤ fs.clusterLimit ∧ after fs.link (need - 1) first ≠ none)) ∨
      (fs.clusterLimit ≤ first ∧ fs.clusterSize < size)

variable {fs} {first size cap : ℕ} {noFatChain deleted : Bool}

lemma laid (hfs : fs.Opened) {l : List ℕ} (hl : ∀ c ∈ l, fs.ValidCluster c) :
    Laid fs.clusterOffset fs.clusterSize fs.place l := by
  intro c hc
  obtain ⟨h2, hlt⟩ := hl c hc
  refine ⟨hfs.clusterOffset_eq h2 hlt, ?_⟩
  have hnext : c + 1 - 2 = c - 2 + 1 := by omega
  rw [place, place, hnext, Nat.add_mul, Nat.one_mul, Nat.add_assoc]

lemma one_lt_need_iff : 1 < divCeil size fs.clusterSize ↔ fs.clusterSize < size := by
  rw [lt_divCeil_iff fs.clusterSize_pos, Nat.one_mul]

lemma follow_ne_nil : follow fs.link (fs.chainCap cap) first ≠ [] := by
  refine List.ne_nil_of_length_pos (lt_length_follow_iff.2 ⟨?_, Option.some_ne_none _⟩)
  exact lt_max_of_lt_right Nat.one_pos

/-- The extents of a file whose chain is followed. -/
lemma resolveExtents_chain (hfs : fs.Opened) (hfirst : fs.ValidCluster first) (hsize : 0 < size)
    (h : deleted = true → divCeil size fs.clusterSize ≤
      (follow fs.link (fs.chainCap (saturatingAdd (divCeil size fs.clusterSize) 2)) first).length) :
    fs.resolveExtents first size false deleted =
      (coalesceClusters fs.clusterOffset fs.clusterSize
        (follow fs.link (fs.chainCap (saturatingAdd (divCeil size fs.clusterSize) 2)) first) size,
          false) := by
  have hpos := fs.clusterSize_pos
  set clusters := follow fs.link (fs.chainCap (saturatingAdd (divCeil size fs.clusterSize) 2)) first
    with hclusters
  have hvalid : ∀ c ∈ clusters, fs.ValidCluster c := valid_of_mem_follow hfirst
  have hlong : clusters ≠ [] := follow_ne_nil
  have hne : coalesceClusters fs.clusterOffset fs.clusterSize clusters size ≠ [] := by
    intro hnil
    have hbytes := Nat.mul_pos (List.length_pos_of_ne_nil hlong) hpos
    have hzero : 0 = min size (clusters.length * fs.clusterSize) := by
      rw [← sum_coalesceClusters hpos (laid hfs hvalid), hnil]
      rfl
    omega
  have h2 := hfirst.1
  unfold resolveExtents
  rw [if_neg (by omega)]
  dsimp only
  rw [if_neg Bool.false_ne_true, chain_eq hfirst, ← hclusters, if_neg]
  rintro (hnil | ⟨hdeleted, hshort⟩ | hnil)
  · exact hlong hnil
  · exact absurd (h hdeleted) (by omega)
  · exact hne hnil

/-- Those of a file whose chain is gone are a guess. -/
lemma resolveExtents_guess (hsize : 0 < size) (h2 : 2 ≤ first)
    (h : fs.chain first (saturatingAdd (divCeil size fs.clusterSize) 2) = [] ∨
      deleted = true ∧ (fs.chain first (saturatingAdd (divCeil size fs.clusterSize) 2)).length <
        divCeil size fs.clusterSize) :
    fs.resolveExtents first size false deleted =
      (fs.contiguous first size (divCeil size fs.clusterSize),
        decide (1 < divCeil size fs.clusterSize)) := by
  unfold resolveExtents
  rw [if_neg (by omega)]
  dsimp only
  rw [if_neg Bool.false_ne_true, if_pos (h.imp_right .inl)]

lemma clusterOffset_eq_none (h : ¬ fs.ValidCluster first) : fs.clusterOffset first = none := by
  unfold ValidCluster at h
  exact if_pos (by omega)

/-- Where no chain is followed, the size is there if the volume does not end before. -/
lemma accounted_noFatChain_iff (hfs : fs.Opened) (hu64 : size ≤ u64Max) (hsize : 0 < size) :
    (((fs.resolveExtents first size true deleted).1.map (·.len)).sum = size ∨
      (fs.resolveExtents first size true deleted).2 = true) ↔
        fs.ValidCluster first ∧ fs.place first + size ≤ fs.volumeLength := by
  have hbytes := le_divCeil_mul fs.clusterSize_pos size
  by_cases hfirst : fs.ValidCluster first
  · have h2 := hfirst.1
    have hextents : fs.resolveExtents first size true deleted =
        ([⟨fs.place first,
          min (min size (saturatingMul (divCeil size fs.clusterSize) fs.clusterSize))
          (fs.volumeLength - fs.place first)⟩], false) := by
      unfold resolveExtents
      rw [if_neg (by omega)]
      dsimp only
      rw [if_pos rfl, contiguous, (laid hfs (l := [first]) (by simpa using hfirst) first
        List.mem_cons_self).1]
    rw [hextents, and_iff_right hfirst]
    refine (or_iff_left Bool.false_ne_true).trans ?_
    change min (min size (saturatingMul _ _)) (fs.volumeLength - fs.place first) + 0 = size ↔ _
    rw [saturatingMul]
    omega
  · have hextents : fs.resolveExtents first size true deleted = ([], false) := by
      unfold resolveExtents
      split
      · rfl
      · dsimp only
        rw [if_pos rfl, contiguous, clusterOffset_eq_none hfirst]
    rw [hextents]
    refine iff_of_false ?_ fun h => hfirst h.1
    rintro (hsum | hflag)
    · exact hsize.ne hsum
    · cases hflag

/-- Where the chain is followed, the size is there if the chain is long enough. -/
lemma accounted_chain_iff (hfs : fs.Opened) (hu64 : size ≤ u64Max) (hsize : 0 < size) :
    (((fs.resolveExtents first size false deleted).1.map (·.len)).sum = size ∨
      (fs.resolveExtents first size false deleted).2 = true) ↔
        (fs.ValidCluster first ∧ (deleted = true ∨
          divCeil size fs.clusterSize ≤ fs.clusterLimit ∧
            after fs.link (divCeil size fs.clusterSize - 1) first ≠ none)) ∨
        (fs.clusterLimit ≤ first ∧ fs.clusterSize < size) := by
  have hpos := fs.clusterSize_pos
  have hlimit : 2 ≤ fs.clusterLimit := le_min (Nat.le_add_left ..) (by omega)
  by_cases hfirst : fs.ValidCluster first
  · obtain ⟨h2, hlt⟩ := hfirst
    have hbehind : ¬ (fs.clusterLimit ≤ first ∧ fs.clusterSize < size) := fun h => by omega
    refine Iff.trans ?_ (or_iff_left hbehind).symm
    rw [and_iff_right ⟨h2, hlt⟩]
    set clusters :=
      follow fs.link (fs.chainCap (saturatingAdd (divCeil size fs.clusterSize) 2)) first
      with hclusters
    have hchain : fs.chain first (saturatingAdd (divCeil size fs.clusterSize) 2) = clusters :=
      chain_eq ⟨h2, hlt⟩ _
    have hlong : 0 < clusters.length := List.length_pos_of_ne_nil follow_ne_nil
    by_cases hshort : deleted = true ∧ clusters.length < divCeil size fs.clusterSize
    · -- a deleted file whose chain is too short takes more than a cluster
      rw [resolveExtents_guess hsize h2 (.inr (hchain ▸ hshort))]
      refine iff_of_true (.inr (decide_eq_true ?_)) (.inl hshort.1)
      have hless := hshort.2
      omega
    · rw [resolveExtents_chain hfs ⟨h2, hlt⟩ hsize fun hdel => not_lt.1 fun h => hshort ⟨hdel, h⟩]
      have hneed : 0 < divCeil size fs.clusterSize := by
        rw [lt_divCeil_iff hpos]
        omega
      have hle : divCeil size fs.clusterSize ≤ u64Max := by
        refine le_trans ((divCeil_le_iff hpos).2 ?_) hu64
        exact Nat.le_mul_of_pos_right _ hpos
      have hreach : divCeil size fs.clusterSize ≤ clusters.length ↔ _ :=
        need_le_length_iff hneed hle (by omega)
      dsimp only
      rw [← hclusters, sum_coalesceClusters hpos (laid hfs (valid_of_mem_follow ⟨h2, hlt⟩)),
        min_eq_left_iff, ← divCeil_le_iff hpos, hreach]
      refine (or_iff_left Bool.false_ne_true).trans ?_
      refine ⟨.inr, fun h => h.elim (fun hdel => ?_) id⟩
      exact hreach.1 (not_lt.1 fun hless => hshort ⟨hdel, hless⟩)
  · have hleft : ¬ (fs.ValidCluster first ∧ (deleted = true ∨
        divCeil size fs.clusterSize ≤ fs.clusterLimit ∧
          after fs.link (divCeil size fs.clusterSize - 1) first ≠ none)) := fun h => hfirst h.1
    refine Iff.trans ?_ (or_iff_right hleft).symm
    by_cases h2 : first < 2
    · have hnone : fs.resolveExtents first size false deleted = ([], false) := if_pos (.inr h2)
      rw [hnone]
      refine iff_of_false ?_ fun h => by omega
      rintro (hsum | hflag)
      · exact hsize.ne hsum
      · cases hflag
    · have hbehind : fs.clusterLimit ≤ first := by
        unfold ValidCluster at hfirst
        omega
      have hchain : fs.chain first (saturatingAdd (divCeil size fs.clusterSize) 2) = [] :=
        fs.walks_chainFrom.eq_nil hfirst
      rw [resolveExtents_guess hsize (not_lt.1 h2) (.inl hchain), contiguous,
        clusterOffset_eq_none hfirst]
      dsimp only
      rw [decide_eq_true_iff, one_lt_need_iff, and_iff_right hbehind]
      exact or_iff_right hsize.ne

/-- **What `resolve_extents` accounts for.** -/
lemma accounted_iff (hfs : fs.Opened) (hu64 : size ≤ u64Max) :
    (((fs.resolveExtents first size noFatChain deleted).1.map (·.len)).sum = size ∨
      (fs.resolveExtents first size noFatChain deleted).2 = true) ↔
        fs.Accountable first size noFatChain deleted := by
  unfold Accountable
  dsimp only
  rcases Nat.eq_zero_or_pos size with rfl | hsize
  · exact iff_of_true (.inl rfl) (.inl rfl)
  refine Iff.trans ?_ (or_iff_right hsize.ne').symm
  cases noFatChain with
  | true => exact accounted_noFatChain_iff hfs hu64 hsize
  | false => exact accounted_chain_iff hfs hu64 hsize

/-- **An intact chain** is what the extents spell. -/
lemma spelled (hfs : fs.Opened) {clusters : List ℕ} (hu64 : size ≤ u64Max)
    (h : IntactChain fs.ValidCluster fs.link first (divCeil size fs.clusterSize) clusters) :
    extentAddresses (fs.resolveExtents first size false deleted).1 =
      (clusterAddresses fs.clusterSize fs.place clusters).take size := by
  have hpos := fs.clusterSize_pos
  rcases Nat.eq_zero_or_pos size with rfl | hsize
  · exact List.take_zero.symm
  have hfirst := h.good_first
  have hlimit : divCeil size fs.clusterSize ≤ fs.clusterLimit := by
    apply h.need_le
    intro c hc
    rw [h.along] at hc
    exact (valid_of_mem_follow hfirst c hc).2
  have hle : divCeil size fs.clusterSize ≤ u64Max := by
    refine le_trans ((divCeil_le_iff hpos).2 ?_) hu64
    exact Nat.le_mul_of_pos_right _ hpos
  have hneed : 0 < divCeil size fs.clusterSize := by
    rw [lt_divCeil_iff hpos]
    omega
  have henough : divCeil size fs.clusterSize ≤
      (follow fs.link
        (fs.chainCap (saturatingAdd (divCeil size fs.clusterSize) 2)) first).length := by
    exact (need_le_length_iff hneed hle (by omega)).2 ⟨hlimit, h.after_ne_none hneed⟩
  rw [resolveExtents_chain hfs hfirst hsize fun _ => henough]
  dsimp only
  rw [extentAddresses_coalesceClusters hpos (laid hfs (valid_of_mem_follow hfirst))]
  exact h.take_eq hpos (henough.trans (length_follow_le ..))

lemma readSet_dataLen_le {dir : Bytes} {i : ℕ} {s : EntrySet} (h : readSet dir i = some s) :
    s.dataLen ≤ u64Max := by
  unfold readSet at h
  dsimp only at h
  split at h
  · obtain rfl := Option.some.inj h
    exact Nat.le_sub_one_of_lt (leU64_lt ..)
  · cases h

end ExFat

/-- **What is presented as an intact file.**  The extents of an entry hold its size, or it is
marked, in exactly the cases that `Accountable` names, beyond a volume that is suspect as a whole;
and they spell the clusters of an intact chain. -/
theorem extents_exact (bpb : FatFs.Bpb) (vol : Volume) (ent : Bytes) (deleted : Bool)
    (name path : String) (first : ℕ) (nameConf : ℚ) (fs : ExFat) (dir : Bytes) (i : ℕ)
    (s : ExFat.EntrySet) (checksumOk : Bool) :
    (0 < nameConf →
      let fs := bpb.mount vol
      let e := fs.recordEntry ent deleted false name path first
      (e.Accounted (FatFs.fileConfidence nameConf (FatFs.fatsMatch bpb vol) e.contiguousAssumed <
          nameConf) ↔
        FatFs.fatsMatch bpb vol = false ∨ fs.Accountable first e.size deleted) ∧
      (deleted = false → ∀ clusters,
        IntactChain fs.ValidCluster fs.link first (divCeil e.size fs.clusterSize) clusters →
          extentAddresses e.extents =
            (clusterAddresses fs.clusterSize fs.place clusters).take e.size)) ∧
    (fs.Opened → ExFat.readSet dir i = some s → s.isDir = false →
      let e := fs.setEntry s path
      (e.Accounted (ExFat.fileConfidence checksumOk e.contiguousAssumed < 9 / 10) ↔
        checksumOk = false ∨ fs.Accountable s.first e.size s.noFatChain (!s.inUse)) ∧
      (s.noFatChain = false → ∀ clusters,
        IntactChain fs.ValidCluster fs.link s.first (divCeil e.size fs.clusterSize) clusters →
          extentAddresses e.extents =
            (clusterAddresses fs.clusterSize fs.place clusters).take e.size)) := by
  constructor
  · intro hconf
    have hu64 : leU32 ent 28 ≤ u64Max :=
      (leU32_lt ent 28).le.trans (by decide)
    dsimp only
    refine ⟨?_, fun hlive clusters h => ?_⟩
    · rw [FatFs.fileConfidence_lt_iff hconf]
      apply accounted_iff_of_lowered
      exact FatFs.accounted_iff hu64
    · subst hlive
      exact FatFs.spelled hu64 h
  · intro hfs hset hfile
    have hu64 : s.dataLen ≤ u64Max := ExFat.readSet_dataLen_le hset
    have hsize : (fs.setEntry s path).size = s.dataLen := by
      change (if s.isDir = true then 0 else s.dataLen) = _
      rw [hfile, if_neg Bool.false_ne_true]
    have hresolved : ((fs.setEntry s path).extents, (fs.setEntry s path).contiguousAssumed) =
        fs.resolveExtents s.first s.dataLen s.noFatChain (!s.inUse) := by
      change (if s.isDir = true then (([], false) : List Extent × Bool) else _) = _
      rw [hfile, if_neg Bool.false_ne_true]
    have hextents : (fs.setEntry s path).extents = _ := congrArg Prod.fst hresolved
    have hassumed : (fs.setEntry s path).contiguousAssumed = _ := congrArg Prod.snd hresolved
    dsimp only
    refine ⟨?_, fun hchain clusters h => ?_⟩
    · rw [ExFat.fileConfidence_lt_iff, hsize]
      apply accounted_iff_of_lowered
      rw [hsize, hextents, hassumed]
      exact ExFat.accounted_iff hfs hu64
    · rw [hextents, hsize, hchain]
      rw [hsize] at h
      exact ExFat.spelled hfs hu64 h

/-- The record of a file of 1024 bytes that begins in cluster 2. -/
def twoClusterRecord : Bytes := List.replicate 26 0 ++ [2, 0, 0, 4, 0, 0]

/-- A table in which cluster 2 links to cluster 3, which is the last one. -/
def twoClusterTable : Bytes := [0xF8, 0xFF, 0xFF, 0x03, 0xF0, 0xFF]

/-- The set of a file of 512 bytes that begins in cluster 2. -/
def oneClusterSet : Bytes :=
  [0x85, 2] ++ List.replicate 30 0 ++ [0xC0, 1, 0, 1] ++ List.replicate 16 0 ++
    [2, 0, 0, 0, 0, 2] ++ List.replicate 6 0 ++ [0xC1, 0, 0x41]

/-- The links of a volume with that table. -/
lemma intactChain_twoClusterTable :
    IntactChain (FatFs.sectorBpb.mount (FatFs.sample 1 37 0 twoClusterTable)).ValidCluster
      (FatFs.sectorBpb.mount (FatFs.sample 1 37 0 twoClusterTable)).link 2 2 [2, 3] := by
  set fs := FatFs.sectorBpb.mount (FatFs.sample 1 37 0 twoClusterTable) with hfs
  have hkind : fs.kind = .fat12 := rfl
  have hcount : fs.countOfClusters = 2 := rfl
  have htwo : fs.fatEntry 2 = 3 := by
    rw [FatFs.fatEntry, hkind]
    exact congrArg (fun b => leU16 b 0 % 2 ^ 12) (FatFs.fatBytes_sample _ _ (by omega))
  have hvalid : fs.ValidCluster 2 := ⟨le_rfl, by omega⟩
  have hgoes : ¬ fs.EndsAt 2 := by
    rw [FatFs.EndsAt, htwo, hkind, hcount]
    decide
  have hlink : fs.link 2 = some 3 := by rw [FatFs.link, linkOf, if_pos ⟨hvalid, hgoes⟩, htwo]
  refine ⟨?_, hvalid, by decide, le_rfl⟩
  simp only [List.length_cons, List.length_nil, follow, hlink]
  split <;> rfl

/-- A file of two clusters and one of a single one are spelled, and their sizes are held. -/
theorem extents_exact_spelled :
    (∃ fs, FatFs.openVolume (FatFs.sample 1 37 0 twoClusterTable) = .ok fs ∧
      extentAddresses (fs.recordEntry twoClusterRecord false false "A" "A" 2).extents =
        (clusterAddresses fs.clusterSize fs.place [2, 3]).take 1024 ∧
      (fs.recordEntry twoClusterRecord false false "A" "A" 2).Accounted
        (FatFs.fileConfidence 1 (FatFs.fatsMatch FatFs.sectorBpb fs.vol)
          (fs.recordEntry twoClusterRecord false false "A" "A" 2).contiguousAssumed < 1)) ∧
    ∃ s, ExFat.readSet oneClusterSet 0 = some s ∧
      extentAddresses (ExFat.contiguousVolume.setEntry s "A").extents =
        (clusterAddresses 512 ExFat.contiguousVolume.place [2]).take 512 ∧
      (ExFat.contiguousVolume.setEntry s "A").Accounted
        (ExFat.fileConfidence true (ExFat.contiguousVolume.setEntry s "A").contiguousAssumed <
          9 / 10) := by
  obtain ⟨s, hset, hfile, hfirst, hlen, hflag⟩ : ∃ s, ExFat.readSet oneClusterSet 0 = some s ∧
      s.isDir = false ∧ s.first = 2 ∧ s.dataLen = 512 ∧ s.noFatChain = false :=
    ⟨_, rfl, rfl, rfl, rfl, rfl⟩
  obtain ⟨hfat, hexfat⟩ := extents_exact FatFs.sectorBpb (FatFs.sample 1 37 0 twoClusterTable)
    twoClusterRecord false "A" "A" 2 1 ExFat.contiguousVolume oneClusterSet 0 s true
  constructor
  · obtain ⟨hiff, hspell⟩ := hfat one_pos
    have hchain := intactChain_twoClusterTable
    refine ⟨_, FatFs.openVolume_sample (.head _) (by decide), hspell rfl [2, 3] hchain,
      hiff.2 (.inr (.inr (.inl ⟨hchain.good_first, .inr ⟨?_, ?_⟩⟩)))⟩
    · exact (by omega : 2 ≤ 4)
    · exact hchain.after_ne_none (Nat.succ_pos 1)
  · have hopened : ExFat.contiguousVolume.Opened := ⟨by decide, by decide⟩
    obtain ⟨hiff, hspell⟩ := hexfat hopened hset hfile
    have hchain : IntactChain ExFat.contiguousVolume.ValidCluster ExFat.contiguousVolume.link 2 1
        [2] := ⟨by decide, by decide, by decide, le_rfl⟩
    have hsize : (ExFat.contiguousVolume.setEntry s "A").size = 512 := by
      change (if s.isDir = true then 0 else s.dataLen) = 512
      rw [hfile, hlen, if_neg Bool.false_ne_true]
    rw [hsize, hfirst, hflag] at hiff
    rw [hsize, hfirst] at hspell
    exact ⟨s, hset, hspell hflag [2] hchain,
      hiff.2 (.inr (.inr (.inl ⟨hchain.good_first, .inr ⟨by decide, by decide⟩⟩)))⟩

/-- The record of a file holds its size, and its extents are resolved. -/
lemma FatFs.recordEntry_file (fs : FatFs) {ent : Bytes} {size : ℕ} (hsize : leU32 ent 28 = size)
    (deleted : Bool) (name path : String) (first : ℕ) :
    let e := fs.recordEntry ent deleted false name path first
    e.size = size ∧ e.extents = (fs.resolveExtents first size deleted).1 ∧
      e.contiguousAssumed = (fs.resolveExtents first size deleted).2 := by
  subst hsize
  exact ⟨rfl, rfl, rfl⟩

/-- The two tables of such a volume are the same. -/
lemma FatFs.fatsMatch_sample {lo hi : UInt8} {table : Bytes} :
    FatFs.fatsMatch FatFs.sectorBpb (FatFs.sample 1 lo hi table) = true := by
  set vol := FatFs.sample 1 lo hi table
  have htables : vol.read 512 512 = vol.read 1024 512 := by
    apply ext_byteAt (by rw [Volume.length_read, Volume.length_read])
    intro j hj
    rw [Volume.length_read] at hj
    rw [Volume.byteAt_read _ _ hj, Volume.byteAt_read _ _ hj,
      FatFs.byte_sample (by omega) (by omega),
      FatFs.byte_sample (by omega) (by omega)]
    exact congrArg (byteAt table) (by omega)
  have hcap : min (FatFs.sectorBpb.mount vol).fatSizeBytes (1024 * 1024) = 512 :=
    min_eq_left (by omega : 512 ≤ 1024 * 1024)
  have hfirst : (FatFs.sectorBpb.mount vol).fat0 = vol.read 512 512 :=
    congrArg (vol.read 512) (min_eq_left (by decide : 512 ≤ FatFs.maxFatCache))
  unfold FatFs.fatsMatch
  dsimp only
  rw [if_pos (by decide), hcap, hfirst, htables]
  exact beq_self_eq_true _

/-- A live file of 1024 bytes whose chain is of one cluster is given 512, and nothing marks it. -/
theorem shortChain_counterexample :
    ∃ fs, FatFs.openVolume (FatFs.sample 1 37 0 FatFs.firstUsed) = .ok fs ∧
      FatFs.fatsMatch FatFs.sectorBpb fs.vol = true ∧
      (fs.recordEntry twoClusterRecord false false "A" "A" 2).size = 1024 ∧
      (fs.recordEntry twoClusterRecord false false "A" "A" 2).extents = [⟨17920, 512⟩] ∧
      ¬ (fs.recordEntry twoClusterRecord false false "A" "A" 2).Accounted
        (FatFs.fileConfidence 1 true
          (fs.recordEntry twoClusterRecord false false "A" "A" 2).contiguousAssumed < 1) := by
  set fs := FatFs.sectorBpb.mount (FatFs.sample 1 37 0 FatFs.firstUsed) with hfs
  have hopen : FatFs.openVolume (FatFs.sample 1 37 0 FatFs.firstUsed) = .ok fs :=
    FatFs.openVolume_sample (.head _) (by decide)
  have hkind : fs.kind = .fat12 := rfl
  have hcount : fs.countOfClusters = 2 := rfl
  have htwo : fs.fatEntry 2 = 0xFFF := by
    rw [FatFs.fatEntry, hkind]
    exact congrArg (fun b => leU16 b 0 % 2 ^ 12) (FatFs.fatBytes_sample _ _ (by omega))
  have hchain : fs.chain 2 4 = [2] := by
    simp [FatFs.chain, FatFs.chainFrom, hcount, hkind, FatKind.eoc, htwo]
  have hoff : fs.clusterOffset 2 = some 17920 :=
    (FatFs.sectorBpb.clusterOffset_eq _ le_rfl (by decide)).trans rfl
  have hsize : fs.clusterSize = 512 := rfl
  have hneed : saturatingAdd (divCeil 1024 512) 2 = 4 := by decide
  have hextents : coalesceClusters fs.clusterOffset 512 [2] 1024 = [⟨17920, 512⟩] := by
    simp [coalesceClusters, clusterRuns, hoff]
  have hresolved : fs.resolveExtents 2 1024 false = ([⟨17920, 512⟩], false) := by
    unfold FatFs.resolveExtents
    simp [hneed, hchain, hsize, hextents]
  have hrecord : leU32 twoClusterRecord 28 = 1024 := by decide
  obtain ⟨hlen, hes, hassumed⟩ := fs.recordEntry_file hrecord false "A" "A" 2
  rw [hresolved] at hes hassumed
  refine ⟨fs, hopen, FatFs.fatsMatch_sample, hlen, hes, ?_⟩
  rw [Entry.Accounted, Entry.Flagged, FatFs.fileConfidence_lt_iff one_pos, hes, hassumed, hlen]
  decide

end Reclaim
