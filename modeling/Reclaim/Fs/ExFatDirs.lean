import Mathlib.Data.List.Chain
import Reclaim.Fs.ExFat

/-!
# The clusters of exFAT directories

A directory is stored like a file: its clusters are linked in the table, or they are contiguous and
a flag of its Stream entry says that the table is not to be followed.  The walk reads files by the
flag, but every directory by the table.

`readsAll_iff` says what that leaves: of a contiguous directory the clusters as far as the table
happens to link them, and of any directory no more than the cap.
-/

namespace Reclaim
namespace ExFat

open FileBytes

variable (fs : ExFat)

/-- The clusters that the walk reads of a directory. -/
def clustersRead (first : ℕ) : List ℕ :=
  (fs.chain first (min (saturatingAdd (maxDirBytes / max fs.clusterSize 1) 1) (2 ^ 20))).take
    (maxDirBytes / fs.clusterSize)

/-- The bytes of a cluster. -/
def clusterBytes (c : ℕ) : Bytes :=
  ((fs.clusterOffset c).map fun o => fs.vol.read o fs.clusterSize).getD []

/-- One cluster is linked to another in the table. -/
def Linked (a b : ℕ) : Prop := fs.fatNext a = b

/-- A cluster of the heap. -/
def ValidCluster (c : ℕ) : Prop := 2 ≤ c ∧ c < fs.clusterLimit

/-- The sets of a directory from `i` on, one behind the other, each with its place. -/
def setsFrom (dir : Bytes) : ℕ → ℕ → List (ℕ × EntrySet)
  | 0, _ => []
  | fuel + 1, i =>
    if i + 32 ≤ dir.length then
      if byteAt dir i = 0 then []
      else if (byteAt dir i).toNat % 128 = 0x05 then
        match readSet dir i with
        | none => setsFrom dir fuel (i + 32)
        | some s => (i, s) :: setsFrom dir fuel (i + 32 * (1 + max s.secondary 1))
      else setsFrom dir fuel (i + 32)
    else []

/-- Where a set ends. -/
def EntrySet.stop (i : ℕ) (s : EntrySet) : ℕ := i + 32 * (1 + max s.secondary 1)

/-- A set in use; that of a directory has a name of its own. -/
def EntrySet.Live (s : EntrySet) : Prop :=
  s.inUse = true ∧ (s.isDir = true → s.name ≠ "" ∧ s.name ≠ "." ∧ s.name ≠ "..")

instance (s : EntrySet) : Decidable s.Live := inferInstanceAs (Decidable (_ ∧ _))

/-- The live file entry sets that lie in a directory's data as a whole. -/
def liveSets (data : Bytes) : List EntrySet :=
  ((setsFrom data (data.length / 32 + 1) 0).filter fun p =>
    decide (p.2.stop p.1 ≤ data.length ∧ p.2.Live)).map (·.2)

/-- A directory as it is stored: its clusters, and how they follow one another. -/
structure Directory where
  noFatChain : Bool
  first : ℕ
  rest : List ℕ
  valid : ∀ c ∈ first :: rest, fs.ValidCluster c
  nodup : (first :: rest).Nodup
  stored : (first :: rest).IsChain fun a b =>
    if noFatChain then b = a + 1 else fs.Linked a b

namespace Directory

variable {fs} (d : fs.Directory)

/-- The data clusters. -/
def clusters : List ℕ := d.first :: d.rest

/-- The data. -/
def data : Bytes := d.clusters.flatMap fs.clusterBytes

/-- The walk reads all data clusters of a directory, and wherever it comes to the directory and is
not stopped at its cap, it emits every live set in them. -/
structure ReadsAll : Prop where
  clusters : d.clusters <+: fs.clustersRead d.first
  emitted : ∀ (opts : WalkOpts) (bitmap : Option Bitmap) (depth : ℕ) (path : String)
    (s : List ℕ × Walked), opts.includeLive = true → d.first ∉ s.1 →
      (fs.walkDir opts bitmap (depth + 1) (d.first, path) s).2.stats.emitted < opts.maxEntries →
        ∀ set ∈ liveSets d.data, fs.setEntry set (FatFs.childPath path set.name) ∈
          (fs.walkDir opts bitmap (depth + 1) (d.first, path) s).2.sink

/-- The table links the data clusters, and they hold no more than the cap. -/
structure Followed : Prop where
  linked : d.noFatChain = true → d.clusters.IsChain fs.Linked
  capped : d.clusters.length * fs.clusterSize ≤ maxDirBytes

end Directory

variable {fs}

/-! ## Following the table -/

lemma clusterSize_pos (fs : ExFat) : 0 < fs.clusterSize := by
  obtain ⟨k, -, -, h⟩ := fs.clusterSize_pow
  rw [h]
  positivity

/-- Clusters fill the cap without a rest, and there are not too many of them. -/
lemma maxDirBytes_eq (fs : ExFat) : maxDirBytes / fs.clusterSize * fs.clusterSize = maxDirBytes ∧
    maxDirBytes / fs.clusterSize + 1 ≤ 2 ^ 20 := by
  obtain ⟨k, h9, h25, h⟩ := fs.clusterSize_pow
  have hmax : maxDirBytes = 2 ^ k * 2 ^ (25 - k) := by
    rw [← pow_add, show k + (25 - k) = 25 by omega]
    rfl
  have hdiv : maxDirBytes / fs.clusterSize = 2 ^ (25 - k) := by
    rw [hmax, h, Nat.mul_div_cancel_left _ (by positivity)]
  have hle : 2 ^ (25 - k) ≤ 2 ^ 16 := Nat.pow_le_pow_right (by omega) (by omega)
  rw [hdiv, h, Nat.mul_comm, ← hmax]
  exact ⟨rfl, by omega⟩

lemma valid_of_mem_chainFrom {c : ℕ} (cap : ℕ) :
    ∀ cur, c ∈ fs.chainFrom cap cur → fs.ValidCluster c := by
  induction cap with
  | zero => exact fun cur h => absurd h List.not_mem_nil
  | succ cap ih =>
    intro cur h
    rw [chainFrom] at h
    dsimp only at h
    split at h
    · rename_i hcur
      split at h
      · rw [List.mem_singleton.1 h]
        exact hcur
      · rcases List.mem_cons.1 h with rfl | h
        · exact hcur
        · exact ih _ h
    · exact absurd h List.not_mem_nil

/-- What is followed is linked. -/
lemma isChain_chainFrom (cap : ℕ) : ∀ cur, (fs.chainFrom cap cur).IsChain fs.Linked := by
  induction cap with
  | zero => exact fun cur => List.IsChain.nil
  | succ cap ih =>
    intro cur
    rw [chainFrom]
    dsimp only
    split
    · split
      · exact List.isChain_singleton cur
      · have hrest := ih (fs.fatNext cur)
        cases cap with
        | zero => exact List.isChain_singleton cur
        | succ cap =>
          rw [chainFrom] at hrest ⊢
          dsimp only at hrest ⊢
          split
          · rename_i hnext
            rw [if_pos hnext] at hrest
            split
            · exact List.isChain_pair.2 rfl
            · rename_i hmore
              rw [if_neg hmore] at hrest
              exact List.isChain_cons_cons.2 ⟨rfl, hrest⟩
          · exact List.isChain_singleton cur
    · exact List.IsChain.nil

/-- Clusters that are linked are followed, as far as the cap lets. -/
lemma take_prefix_chainFrom (cap : ℕ) : ∀ (c : ℕ) (l : List ℕ), (∀ x ∈ c :: l, fs.ValidCluster x) →
    (c :: l).Nodup → (c :: l).IsChain fs.Linked → (c :: l).take cap <+: fs.chainFrom cap c := by
  induction cap with
  | zero => exact fun c l _ _ _ => List.nil_prefix
  | succ cap ih =>
    intro c l hvalid hnodup hlinked
    have hc : 2 ≤ c ∧ c < fs.clusterLimit := hvalid c List.mem_cons_self
    rw [chainFrom, if_pos hc]
    dsimp only
    cases l with
    | nil =>
      rw [List.take_succ_cons, List.take_nil]
      split
      · exact List.prefix_refl _
      · exact List.cons_prefix_cons.2 ⟨rfl, List.nil_prefix⟩
    | cons x l =>
      obtain ⟨hcx, hrest⟩ := List.isChain_cons_cons.1 hlinked
      have hx := hvalid x (by simp)
      have hne : x ≠ c := fun h => (List.nodup_cons.1 hnodup).1 (by simp [h])
      have hnext : fs.fatNext c = x := hcx
      have hlimit : fs.clusterLimit ≤ 2 ^ 32 - 1 := min_le_right _ _
      have hgo : ¬(fs.fatNext c = 0xFFFFFFFF ∨ fs.fatNext c < 2 ∨ fs.clusterLimit ≤ fs.fatNext c ∨
          fs.fatNext c = c) := by
        obtain ⟨h2, hlt⟩ := hx
        rw [hnext]
        omega
      rw [if_neg hgo, List.take_succ_cons, hnext]
      exact List.cons_prefix_cons.2 ⟨rfl, ih x l (fun y hy => hvalid y (List.mem_cons_of_mem c hy))
        (List.nodup_cons.1 hnodup).2 hrest⟩

/-! ## What is read of a directory -/

lemma clusterOffset_of_valid {c : ℕ} (h : fs.ValidCluster c) :
    ∃ o, fs.clusterOffset c = some o := by
  have hno : ¬(c < 2 ∨ fs.clusterLimit ≤ c) := by
    obtain ⟨h2, hlt⟩ := h
    omega
  exact ⟨_, if_neg hno⟩

/-- Clusters are joined until the cap is full. -/
lemma joinClusters_eq (fs : ExFat) (cs : List ℕ) (hcs : ∀ c ∈ cs, fs.ValidCluster c) :
    ∀ (m : ℕ) (buf : Bytes), buf.length = m * fs.clusterSize →
      fs.joinClusters cs buf =
        buf ++ (cs.take (maxDirBytes / fs.clusterSize - m)).flatMap fs.clusterBytes := by
  induction cs with
  | nil =>
    intro m buf _
    rw [joinClusters, List.take_nil, List.flatMap_nil, List.append_nil]
  | cons c cs ih =>
    intro m buf hbuf
    obtain ⟨o, ho⟩ := clusterOffset_of_valid (hcs c List.mem_cons_self)
    have hK := (maxDirBytes_eq fs).1
    have hpos := clusterSize_pos fs
    rw [joinClusters, ho]
    dsimp only
    by_cases hfull : maxDirBytes / fs.clusterSize ≤ m
    · have hle : maxDirBytes ≤ buf.length := by
        rw [hbuf, ← hK]
        exact Nat.mul_le_mul_right _ hfull
      rw [if_pos hle, Nat.sub_eq_zero_of_le hfull, List.take_zero, List.flatMap_nil,
        List.append_nil]
    · have hlt : ¬maxDirBytes ≤ buf.length := by
        rw [hbuf, ← hK, not_le]
        exact Nat.mul_lt_mul_of_pos_right (not_le.1 hfull) hpos
      have hbytes : fs.clusterBytes c = fs.vol.read o fs.clusterSize := by
        rw [clusterBytes, ho]
        rfl
      have hrest := ih (fun x hx => hcs x (List.mem_cons_of_mem c hx)) (m + 1)
        (buf ++ fs.vol.read o fs.clusterSize)
        (by rw [List.length_append, Volume.length_read, hbuf, Nat.succ_mul])
      have hsucc : maxDirBytes / fs.clusterSize - m =
        maxDirBytes / fs.clusterSize - (m + 1) + 1 := by
        omega
      rw [if_neg hlt, hrest, hsucc, List.take_succ_cons, List.flatMap_cons, hbytes,
        List.append_assoc]

lemma readDirectory_eq {first : ℕ} (h : fs.clustersRead first ≠ []) :
    fs.readDirectory first = some ((fs.clustersRead first).flatMap fs.clusterBytes) := by
  have hjoin := fs.joinClusters_eq
    (fs.chain first (min (saturatingAdd (maxDirBytes / max fs.clusterSize 1) 1) (2 ^ 20)))
    (fun c hc => valid_of_mem_chainFrom _ _ hc) 0 [] (by simp)
  have hne : fs.chain first
      (min (saturatingAdd (maxDirBytes / max fs.clusterSize 1) 1) (2 ^ 20)) ≠ [] := by
    intro hnil
    rw [clustersRead, hnil, List.take_nil] at h
    exact h rfl
  rw [readDirectory, if_neg hne, hjoin, Nat.sub_zero, List.nil_append]
  rfl

/-- Clusters of the heap that differ are not more than there are. -/
lemma length_le_clusterLimit {l : List ℕ} (hvalid : ∀ c ∈ l, fs.ValidCluster c) (hnodup : l.Nodup) :
    l.length ≤ fs.clusterLimit := by
  have hsub : l ⊆ List.range fs.clusterLimit := fun c hc => List.mem_range.2 (hvalid c hc).2
  have hle := (hnodup.subperm hsub).length_le
  rwa [List.length_range] at hle

/-- The walk reads all clusters of a directory exactly if the table links them and they are not too
many. -/
lemma prefix_clustersRead_iff (d : fs.Directory) :
    d.clusters <+: fs.clustersRead d.first ↔ d.Followed := by
  obtain ⟨hK, hcap⟩ := maxDirBytes_eq fs
  have hpos := clusterSize_pos fs
  constructor
  · intro hread
    have hchain := hread.trans (List.take_prefix _ _)
    have hlen := hread.length_le
    refine ⟨fun _ => List.IsChain.prefix (isChain_chainFrom _ _) hchain, ?_⟩
    rw [clustersRead, List.length_take] at hlen
    calc d.clusters.length * fs.clusterSize
      _ ≤ maxDirBytes / fs.clusterSize * fs.clusterSize := Nat.mul_le_mul_right _ (by omega)
      _ = maxDirBytes := hK
  · intro h
    have hlinked : d.clusters.IsChain fs.Linked := by
      cases hflag : d.noFatChain with
      | true => exact h.linked hflag
      | false =>
        have hstored := d.stored
        simp only [hflag, Bool.false_eq_true, if_false] at hstored
        exact hstored
    have hlen : d.clusters.length ≤ maxDirBytes / fs.clusterSize :=
      (Nat.le_div_iff_mul_le hpos).2 h.capped
    have hlimit := length_le_clusterLimit d.valid d.nodup
    have hsat : saturatingAdd (maxDirBytes / max fs.clusterSize 1) 1 =
        maxDirBytes / fs.clusterSize + 1 := by
      have hu : 2 ^ 20 ≤ u64Max := by norm_num [u64Max]
      rw [Nat.max_eq_left hpos, saturatingAdd, min_eq_left (hcap.trans hu)]
    have hfollowed := take_prefix_chainFrom
      (max (min (min (saturatingAdd (maxDirBytes / max fs.clusterSize 1) 1) (2 ^ 20))
        fs.clusterLimit) 1) d.first d.rest d.valid d.nodup hlinked
    rw [List.take_of_length_le (by rw [hsat]; exact le_max_of_le_left (by
      refine le_min ?_ hlimit
      change d.clusters.length ≤ _
      omega))] at hfollowed
    exact List.prefix_take_iff.2 ⟨hfollowed, hlen⟩

/-! ## Sets in the data of a directory -/

lemma setsFrom_nil {dir : Bytes} {i : ℕ} (h : ¬i + 32 ≤ dir.length) (fuel : ℕ) :
    setsFrom dir fuel i = [] := by
  cases fuel with
  | zero => rfl
  | succ fuel => rw [setsFrom, if_neg h]

lemma byteAt_append_left {data : Bytes} {x : ℕ} (h : x < data.length) (more : Bytes) :
    byteAt (data ++ more) x = byteAt data x := by
  rw [byteAt_append, if_pos h]

lemma nameUnits_append (data more : Bytes) (nameLen entries : ℕ) :
    ∀ (off : ℕ) (units : List ℕ), off + 32 * entries ≤ data.length →
      nameUnits (data ++ more) nameLen entries off units =
        nameUnits data nameLen entries off units := by
  induction entries with
  | zero => exact fun _ _ _ => rfl
  | succ entries ih =>
    intro off units h
    have hunits : ((List.range 15).map fun k => leU16 (data ++ more) (off + 2 + k * 2)) =
        (List.range 15).map fun k => leU16 data (off + 2 + k * 2) := by
      apply List.map_congr_left
      intro k hk
      have hk15 := List.mem_range.1 hk
      exact leField_append (by omega) more
    have hlong : off + 32 ≤ (data ++ more).length := by
      rw [List.length_append]
      omega
    have hshort : off + 32 ≤ data.length := by omega
    rw [nameUnits, nameUnits, hunits, byteAt_append_left (by omega)]
    simp only [hlong, hshort, true_and]
    split
    · exact ih _ _ (by omega)
    · rfl

lemma readSet_secondary {dir : Bytes} {i : ℕ} {s : EntrySet} (h : readSet dir i = some s) :
    s.secondary = (byteAt dir (i + 1)).toNat := by
  unfold readSet at h
  dsimp only at h
  split at h
  · rw [← Option.some.inj h]
  · cases h

lemma readSet_none {data more : Bytes} {i : ℕ} (hi : i + 64 ≤ data.length)
    (h : readSet data i = none) : readSet (data ++ more) i = none := by
  unfold readSet at *
  dsimp only at *
  rw [byteAt_append_left (by omega)]
  split at h
  · cases h
  · rename_i hne
    rw [if_neg hne]

/-- A set that lies in the data is read as in the data. -/
lemma readSet_append {data : Bytes} {i : ℕ} {s : EntrySet} (h : readSet data i = some s)
    (hstop : s.stop i ≤ data.length) (more : Bytes) : readSet (data ++ more) i = some s := by
  have hsec := readSet_secondary h
  have hin : i + 32 * (1 + max (byteAt data (i + 1)).toNat 1) ≤ data.length := by
    rw [← hsec]
    exact hstop
  have hname : readName (data ++ more) (i + 32 + 32) ((byteAt data (i + 1)).toNat - 1)
      (byteAt data (i + 32 + 3)).toNat = readName data (i + 32 + 32)
        ((byteAt data (i + 1)).toNat - 1) (byteAt data (i + 32 + 3)).toNat := by
    unfold readName
    rw [nameUnits_append data more _ _ _ _ (by omega)]
  have hu16 : leU16 (data ++ more) (i + 4) = leU16 data (i + 4) :=
    leField_append (by omega) more
  have hu32 : ∀ k, k + 4 ≤ 64 → leU32 (data ++ more) (i + k) = leU32 data (i + k) :=
    fun k hk => leField_append (by omega) more
  have hu64 : leU64 (data ++ more) (i + 32 + 24) = leU64 data (i + 32 + 24) :=
    leField_append (by omega) more
  have hbyte : ∀ k, k < 64 → byteAt (data ++ more) (i + k) = byteAt data (i + k) :=
    fun k hk => byteAt_append_left (by omega) more
  rw [← h]
  unfold readSet
  dsimp only
  rw [hbyte 1 (by omega), hbyte 32 (by omega), show i + 32 + 3 = i + 35 by omega,
    hbyte 35 (by omega), show i + 32 + 1 = i + 33 by omega, hbyte 33 (by omega), hu16,
    hu32 8 (by omega), hu32 12 (by omega), show i + 32 + 20 = i + 52 by omega,
    hu32 52 (by omega), hu64, show byteAt (data ++ more) i = byteAt data i from hbyte 0 (by omega)]
  rw [show i + 32 + 3 = i + 35 by omega] at hname
  rw [hname]

lemma sink_emitSet {opts : WalkOpts} (hopts : opts.includeLive = true) {s : EntrySet}
    (hs : s.Live) (path : String) (w : Walked) :
    fs.setEntry s path ∈ (fs.emitSet opts s path w).sink := by
  have hstate : opts.includes s.state = true := by
    rw [EntrySet.state, if_pos hs.1]
    exact hopts
  rw [emitSet, if_pos ⟨hstate, hs.2⟩, Walked.emit_sink]
  exact List.mem_append_right _ (List.mem_singleton.2 rfl)

/-- A scan of the data and more emits the live sets of the data, unless it is stopped at the cap. -/
lemma sink_scanDir {opts : WalkOpts} (hopts : opts.includeLive = true) (bitmap : Option Bitmap)
    (data more : Bytes) (parent : String) (fuel : ℕ) :
    ∀ (fuel' i : ℕ) (subdirs : List (ℕ × String)) (w : Walked), fuel ≤ fuel' →
      (fs.scanDir opts bitmap (data ++ more) parent fuel' i subdirs w).1.stats.emitted <
        opts.maxEntries →
      ∀ p ∈ setsFrom data fuel i, p.2.stop p.1 ≤ data.length → p.2.Live →
        fs.setEntry p.2 (FatFs.childPath parent p.2.name) ∈
          (fs.scanDir opts bitmap (data ++ more) parent fuel' i subdirs w).1.sink := by
  induction fuel with
  | zero => exact fun _ _ _ _ _ _ p hp => absurd hp List.not_mem_nil
  | succ fuel ih =>
    intro fuel' i subdirs w hfuel hroom p hp hstop hlive
    obtain ⟨fuel', rfl⟩ : ∃ n, fuel' = n + 1 := ⟨fuel' - 1, by omega⟩
    by_cases hi : i + 32 ≤ data.length
    swap
    · rw [setsFrom_nil hi] at hp
      exact absurd hp List.not_mem_nil
    have hlong : i + 32 ≤ (data ++ more).length := by
      rw [List.length_append]
      omega
    rw [setsFrom, if_pos hi] at hp
    rw [scanDir, if_pos hlong, byteAt_append_left (by omega)] at hroom ⊢
    split at hroom
    · rename_i hcap
      exact absurd hroom (not_lt.2 hcap)
    rename_i hcap
    rw [if_neg hcap]
    by_cases hzero : byteAt data i = 0
    · rw [if_pos hzero] at hp
      exact absurd hp List.not_mem_nil
    rw [if_neg hzero] at hp hroom ⊢
    by_cases hfile : (byteAt data i).toNat % 128 = 0x05
    swap
    · rw [if_neg hfile] at hp hroom ⊢
      exact ih fuel' _ _ _ (by omega) hroom p hp hstop hlive
    rw [if_pos hfile] at hp hroom ⊢
    cases hset : readSet data i with
    | none =>
      rw [hset] at hp
      by_cases hstream : i + 64 ≤ data.length
      · rw [readSet_none hstream hset] at hroom ⊢
        exact ih fuel' _ _ _ (by omega) hroom p hp hstop hlive
      · rw [setsFrom_nil (by omega)] at hp
        exact absurd hp List.not_mem_nil
    | some s =>
      rw [hset] at hp
      by_cases hs : s.stop i ≤ data.length
      · rw [readSet_append hset hs] at hroom ⊢
        rcases List.mem_cons.1 hp with rfl | hp
        · refine (emits_scanDir fs opts bitmap (data ++ more) parent fuel' _ _ _).kept.subset ?_
          exact sink_emitSet hopts hlive _ w
        · exact ih fuel' _ _ _ (by omega) hroom p hp hstop hlive
      · rcases List.mem_cons.1 hp with rfl | hp
        · exact absurd hstop hs
        · rw [setsFrom_nil (by unfold EntrySet.stop at hs; omega)] at hp
          exact absurd hp List.not_mem_nil

/-- A directory all of whose clusters are read has its live sets emitted. -/
lemma sink_walkDir {d : fs.Directory} (hread : d.clusters <+: fs.clustersRead d.first)
    {opts : WalkOpts} (hopts : opts.includeLive = true) (bitmap : Option Bitmap) (depth : ℕ)
    (path : String) {s : List ℕ × Walked} (hnew : d.first ∉ s.1)
    (hroom : (fs.walkDir opts bitmap (depth + 1) (d.first, path) s).2.stats.emitted <
      opts.maxEntries) {set : EntrySet} (hset : set ∈ liveSets d.data) :
    fs.setEntry set (FatFs.childPath path set.name) ∈
      (fs.walkDir opts bitmap (depth + 1) (d.first, path) s).2.sink := by
  have hne : fs.clustersRead d.first ≠ [] := by
    intro hnil
    rw [hnil, List.prefix_nil] at hread
    cases hread
  obtain ⟨rest, hrest⟩ := hread
  have hdir : fs.readDirectory d.first = some (d.data ++ rest.flatMap fs.clusterBytes) := by
    rw [readDirectory_eq hne, ← hrest, List.flatMap_append]
    rfl
  obtain ⟨p, hp, rfl⟩ := List.mem_map.1 hset
  obtain ⟨hp, hwhole⟩ := List.mem_filter.1 hp
  obtain ⟨hstop, hlive⟩ := of_decide_eq_true hwhole
  rw [walkDir] at hroom ⊢
  dsimp only at hroom ⊢
  by_cases hcap : opts.maxEntries ≤ s.2.stats.emitted
  · rw [if_pos hcap] at hroom
    exact absurd hroom (not_lt.2 hcap)
  rw [if_neg hcap, if_neg hnew, hdir] at hroom ⊢
  dsimp only at hroom ⊢
  have hon : ∀ (subdirs : List (ℕ × String)) (t : List ℕ × Walked), Emits (MayEmit opts) t.2
      (subdirs.foldl (fun s d => fs.walkDir opts bitmap depth d s) t).2 :=
    fun subdirs => Emits.foldl (·.2) subdirs fun t d' _ => emits_walkDir bitmap depth d' t
  refine (hon _ _).kept.subset (sink_scanDir hopts bitmap d.data _ path
    (d.data.length / 32 + 1) _ 0 [] s.2 ?_ ((hon _ _).emitted_le.trans_lt hroom) p hp hstop hlive)
  rw [List.length_append]
  omega

/-- All of a directory is read, and its live sets are emitted, exactly if the table links its
clusters (for a contiguous directory nothing says that it does) and the cap lets them through. -/
theorem Directory.readsAll_iff (d : fs.Directory) : d.ReadsAll ↔ d.Followed := by
  rw [← prefix_clustersRead_iff]
  constructor
  · exact fun h => h.clusters
  · intro h
    refine ⟨h, fun opts bitmap depth path s hopts hnew hroom set hset => ?_⟩
    exact sink_walkDir h hopts bitmap depth path hnew hroom hset

/-! ## A contiguous directory of two clusters -/

/-- The set of a file "A", as it is stored. -/
def fileSetBytes : Bytes :=
  [0x85, 2] ++ List.replicate 30 0 ++ [0xC0, 1, 0, 1] ++ List.replicate 28 0 ++ [0xC1, 0, 0x41]

/-- The set of a contiguous directory "D" in the clusters 2 and 3. -/
def dirSetBytes : Bytes :=
  [0x85, 2, 0, 0, 0x10] ++ List.replicate 27 0 ++ [0xC0, 3, 0, 1] ++ List.replicate 16 0 ++
    [2, 0, 0, 0, 0, 4] ++ List.replicate 6 0 ++ [0xC1, 0, 0x44]

/-- A volume with four clusters: the first of the directory has nothing in use, the second has the
file, and the root in the third has the directory. -/
def contiguousVolume : ExFat where
  vol :=
    { len := 2560
      content := fun x =>
        if x < 512 then byteAt (List.replicate 16 0 ++ [0xFF, 0xFF, 0xFF, 0xFF]) x
        else if x < 1024 then (if x % 32 = 0 then 0x05 else 0)
        else if x < 1536 then byteAt fileSetBytes (x - 1024)
        else byteAt dirSetBytes (x - 1536) }
  clusterSize := 512
  fatOffset := 0
  clusterHeapOffset := 512
  clusterCount := 4
  rootDirCluster := 4
  volumeLength := 2560
  clusterSize_pow := ⟨9, by omega, by omega, rfl⟩

/-- The directory "D". -/
def contiguousDirectory : contiguousVolume.Directory where
  noFatChain := true
  first := 2
  rest := [3]
  valid := by
    intro c hc
    have hlimit : contiguousVolume.clusterLimit = 6 := rfl
    unfold ValidCluster
    rw [hlimit]
    simp only [List.mem_cons, List.not_mem_nil, or_false] at hc
    omega
  nodup := by decide
  stored := List.isChain_pair.2 rfl

/-- The file is live and in the directory, and the walk of the volume emits the directory only. -/
theorem contiguousDirectory_counterexample :
    (liveSets contiguousDirectory.data).map (·.name) = ["A"] ∧
      (contiguousVolume.walk ⟨true, true, 100, false⟩).sink.map (·.path) = [some "D"] ∧
        ¬ ∀ d : contiguousVolume.Directory, d.ReadsAll := by
  refine ⟨by decide +kernel, by decide +kernel, fun h => ?_⟩
  have hread : [2, 3] <+: contiguousVolume.clustersRead 2 := (h contiguousDirectory).clusters
  exact absurd hread (by decide)

end ExFat
end Reclaim
