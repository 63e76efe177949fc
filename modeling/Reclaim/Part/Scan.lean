import Reclaim.Part.GptCopies
import Reclaim.Part.Mbr

/-!
# Scanning a source for partitions

`scan` puts the schemes together: a GUID partition table and the entries of the MBR beside it, or an
MBR with its chains of logical partitions, or no table at all.  What it lists goes to the filesystem
engines as windows, each through `OffsetView.new`, which wants a window to begin at a sector of the
source.  `Declares` says which starts the tables on a disk declare.
-/

namespace Reclaim

open FileBytes

variable {σ : Type}

/-! ## Windows into a source -/

/-- Why a window is refused. -/
inductive BlockError where
  | geometry (msg : String)
  | windowOutOfRange (start len sourceLen : ℕ)
  deriving DecidableEq, Repr

/-- A window into a parent source. -/
structure OffsetView where
  start : ℕ
  len : ℕ
  id : String
  deriving DecidableEq, Repr

/-- `OffsetView::new`. -/
def OffsetView.new (inner : BlockSource σ) (start len : ℕ) : Except BlockError OffsetView :=
  let ss := inner.sectorSize
  if ss ≠ 0 ∧ start % ss ≠ 0 then
    .error (.geometry ("offset-view start " ++ toString start ++ " not aligned to sector size " ++
      toString ss))
  else if inner.len < start ∨ inner.len - start < len then
    .error (.windowOutOfRange start len inner.len)
  else
    .ok ⟨start, len, "view:" ++ inner.id ++ ":" ++ toString start ++ "+" ++ toString len⟩

/-- A window that `OffsetView::new` accepts, inside the source. -/
def Accepted (src : BlockSource σ) (w : ℕ × ℕ) : Prop :=
  (∃ v, OffsetView.new src w.1 w.2 = .ok v) ∧ w.1 + w.2 ≤ src.len

/-- Inside the source, a window is accepted exactly if it begins at a sector. -/
lemma accepted_iff {src : BlockSource σ} {start len : ℕ} (h : start + len ≤ src.len) :
    Accepted src (start, len) ↔ src.sectorSize = 0 ∨ src.sectorSize ∣ start := by
  unfold Accepted OffsetView.new
  dsimp only
  by_cases hss : src.sectorSize ≠ 0 ∧ start % src.sectorSize ≠ 0
  · rw [if_pos hss]
    refine iff_of_false (fun hv => by simp at hv) ?_
    rw [Nat.dvd_iff_mod_eq_zero]
    tauto
  · rw [if_neg hss, if_neg (by omega)]
    refine iff_of_true ⟨⟨_, rfl⟩, h⟩ ?_
    rw [Nat.dvd_iff_mod_eq_zero]
    tauto

/-! ## The scan -/

/-- `detect_containers`. -/
def detectContainers (total : ℕ) : ReadProg (List ContainerAnchor) := do
  let head ← ReadProg.bytes 0 64
  let nxsb : List ContainerAnchor := if (head.drop 32).take 4 = [0x4E, 0x58, 0x53, 0x42] then
    [⟨"apfs-container", 0, "NXSB magic at block 0+32"⟩] else []
  let cs : List ContainerAnchor := if 0 < total ∧ (head.drop 88).take 2 = [0x43, 0x53] then
    [⟨"core-storage", 0, "Core Storage signature at block 0+88"⟩] else []
  pure (nxsb ++ cs)

/-- `apm::detect`. -/
def detectApm (ss : ℕ) : ReadProg (Option String) := do
  let b0 ← ReadProg.bytes 0 512
  if b0.take 2 ≠ [0x45, 0x52] then pure none
  else
    let b1 ← ReadProg.bytes ss 512
    if b1.take 2 ≠ [0x50, 0x4D] then pure none
    else
      let count := leValue ((b1.drop 4).take 4).reverse
      pure (some ("Apple Partition Map (detect-only): 'ER' at block 0, 'PM' at block 1, " ++
        toString count ++ " entries"))

/-- The entries of the MBR beside a GUID partition table, but for the protective one. -/
def realMbr (mbr : Option PartitionMap) : List Partition :=
  match mbr with
  | some m => m.entries.filter fun p => decide (p.typeByte ≠ some 0xEE)
  | none => []

/-- The GUID partition table, and the entries of the MBR beside it. -/
def hybrid (mbr : Option PartitionMap) (g : PartitionMap) : PartitionMap :=
  if realMbr mbr = [] then g
  else
    let entries := g.entries ++ (realMbr mbr).map fun p => { p with scheme := .mbr }
    { g with
      scheme := .hybridMbr, entries
      notes := g.notes ++ ["hybrid MBR: " ++
        toString (entries.filter fun p => decide (p.scheme = .mbr)).length ++
        " non-protective MBR entry(ies) alongside the GPT"] }

/-- What is made of a source without any partition table that is read. -/
def tableless (ss : ℕ) (containers : List ContainerAnchor) : ReadProg PartitionMap := do
  let apm ← detectApm ss
  match apm with
  | some note =>
    pure { scheme := .apm, entries := [], confidence := 0.6, notes := [note], containers }
  | none =>
    pure { scheme := .none, entries := [], confidence := 0.5, containers
           notes := ["no GPT or MBR partition table; treating the whole source as one volume"] }

/-- `scan`. -/
def scan (sectorSize total : ℕ) : ReadProg PartitionMap := do
  let ss := max sectorSize 512
  let lba0 ← ReadProg.bytes 0 512
  let mbr := Mbr.parse lba0 total
  let gpt ← Gpt.parse ss total
  let containers ← detectContainers total
  match gpt with
  | some g =>
    pure { hybrid mbr g with containers := (hybrid mbr g).containers ++ containers }
  | none =>
    match mbr.filter fun m => decide (m.entries ≠ []) with
    | some m =>
      let m' ← Mbr.expand lba0 total m
      pure { m' with containers := m'.containers ++ containers }
    | none => tableless ss containers

/-- What a scan makes of a disk. -/
def scanned (d : Medium σ) (s : σ) : PartitionMap :=
  ((scan d.src.sectorSize d.src.len).exec (readStep d.src) s).1

/-- Every window that a scan reports can be opened. -/
def WindowsRight (d : Medium σ) (s : σ) : Prop :=
  ∀ w ∈ (scanned d s).volumeWindows d.src.len, Accepted d.src w

/-! ## What the tables declare -/

section Declares

variable (d : Medium σ)

/-- The disk has a GUID partition table. -/
def HasGpt : Prop := (Gpt.Copy.primary.header d).isSome ∨ (Gpt.Copy.backup.header d).isSome

/-- The table that is used has an entry for a partition at `start`. -/
def GptDeclares (start : ℕ) : Prop :=
  ∃ h usedBackup notes, Gpt.choose (Gpt.Copy.primary.header d) (Gpt.Copy.backup.header d) =
      some (h, usedBackup, notes) ∧
    (128 ≤ h.entrySize ∧ h.entrySize ≤ 4096) ∧ h.numEntries ≤ 4096 ∧
    ∃ rec' ∈ Gpt.records (d.bytes (saturatingMul h.entryLba (Gpt.blockSize d))
        (min (h.numEntries * h.entrySize) Gpt.tableCap)) h.entrySize h.numEntries,
      ∃ p, Gpt.entryOf (Gpt.blockSize d) d.src.len rec' = some p ∧ p.start = start

/-- The MBR has an entry, of a type that `ok` allows, for a partition at `start`. -/
def MbrDeclares (ok : ℕ → Prop) (start : ℕ) : Prop :=
  Mbr.signed (d.bytes 0 512) = true ∧ ∃ e ∈ Mbr.slots (d.bytes 0 512),
    ok e.typeByte ∧ ∃ p, e.primary d.src.len = some p ∧ p.start = start

/-- There is an extended boot record at `cur`. -/
def IsEbr (cur : ℕ) : Prop := cur < d.src.len ∧ Mbr.signed (d.bytes cur 512) = true

/-- A chain leads from the record at one place over `n` records to another place. -/
inductive EbrChain (extBase : ℕ) : ℕ → ℕ → ℕ → Prop
  | here (cur : ℕ) : EbrChain extBase cur 0 cur
  | next {cur n next last : ℕ} {slot : Mbr.Slot} : IsEbr d cur →
      Mbr.slot (d.bytes cur 512) 1 = some slot → Mbr.nextEbr extBase cur slot = some next →
      EbrChain extBase next n last → EbrChain extBase cur (n + 1) last

/-- There is an extended boot record at `cur`, with the logical partition `p`. -/
def LogicalAt (cur : ℕ) (p : Partition) : Prop :=
  IsEbr d cur ∧ ∃ slot, Mbr.slot (d.bytes cur 512) 0 = some slot ∧
    Mbr.logical d.src.len cur slot = some p

/-- A chain of the MBR has a logical partition at `start`, in a record that is reached. -/
def EbrDeclares (start : ℕ) : Prop :=
  ∃ e ∈ Mbr.slots (d.bytes 0 512), Mbr.isExtended e.typeByte = true ∧
    ∃ n < Mbr.ebrGuard, ∃ cur, EbrChain d (e.lba * Mbr.unit) (e.lba * Mbr.unit) n cur ∧
      ∃ p, LogicalAt d cur p ∧ p.start = start

/-- The tables of the disk declare a partition at `start`. -/
def Declares (start : ℕ) : Prop :=
  HasGpt d ∧ (GptDeclares d start ∨ MbrDeclares d (· ≠ 0xEE) start) ∨
    ¬ HasGpt d ∧ (∃ start, MbrDeclares d (fun _ => True) start) ∧
      (MbrDeclares d (fun _ => True) start ∨ EbrDeclares d start)

end Declares

/-! ## What the scan lists -/

namespace Partition

/-- What the windows and the choice among partitions depend on. -/
def place (p : Partition) : (ℕ × ℕ) × Option ℕ := ((p.start, p.len), p.typeByte)

/-- The partition lies in a source of `total` bytes. -/
def Within (total : ℕ) (p : Partition) : Prop := p.start < total ∧ p.start + p.len ≤ total

end Partition

/-- Numbering partitions changes none of their places. -/
lemma map_place_mapIdx {f : ℕ → Partition → Partition} (hf : ∀ i p, (f i p).place = p.place)
    (ps : List Partition) : (ps.mapIdx f).map Partition.place = ps.map Partition.place := by
  refine List.ext_getElem? fun i => ?_
  rw [List.getElem?_map, List.getElem?_mapIdx, List.getElem?_map]
  cases ps[i]? with
  | none => rfl
  | some p => exact congrArg some (hf i p)

lemma map_place_number (ps : List Partition) :
    (Gpt.number ps).map Partition.place = ps.map Partition.place :=
  map_place_mapIdx (f := fun i p => { p with index := i + 1 }) (fun _ _ => rfl) ps

/-- Lists with the same places have partitions with the same properties of their places. -/
lemma exists_congr_place {ps qs : List Partition}
    (h : ps.map Partition.place = qs.map Partition.place) (P : (ℕ × ℕ) × Option ℕ → Prop) :
    (∃ p ∈ ps, P p.place) ↔ ∃ q ∈ qs, P q.place := by
  have hmap : ∀ l : List Partition, (∃ p ∈ l, P p.place) ↔ ∃ x ∈ l.map Partition.place, P x := by
    intro l
    simp
  rw [hmap, hmap, h]

lemma forall_congr_place {ps qs : List Partition}
    (h : ps.map Partition.place = qs.map Partition.place) (P : (ℕ × ℕ) × Option ℕ → Prop) :
    (∀ p ∈ ps, P p.place) ↔ ∀ q ∈ qs, P q.place := by
  have hnot := not_congr (exists_congr_place h fun x => ¬ P x)
  push Not at hnot
  exact hnot

/-- The partitions lie in a source of `total` bytes, and begin where `P` says. -/
structure Lists (total : ℕ) (ps : List Partition) (P : ℕ → Prop) : Prop where
  within : ∀ q ∈ ps, q.Within total
  starts : ∀ start, (∃ q ∈ ps, q.start = start) ↔ P start

namespace Lists

variable {total : ℕ} {ps qs : List Partition} {P Q : ℕ → Prop}

lemma congr (h : Lists total ps P) (hplace : qs.map Partition.place = ps.map Partition.place) :
    Lists total qs P where
  within := (forall_congr_place hplace fun x => x.1.1 < total ∧ x.1.1 + x.1.2 ≤ total).2 h.within
  starts start := (exists_congr_place hplace fun x => x.1.1 = start).trans (h.starts start)

lemma append (h : Lists total ps P) (h' : Lists total qs Q) :
    Lists total (ps ++ qs) fun start => P start ∨ Q start where
  within q hq := (List.mem_append.1 hq).elim (h.within q) (h'.within q)
  starts start := by
    rw [← h.starts, ← h'.starts]
    simp only [List.mem_append, or_and_right, exists_or]

lemma iff (h : Lists total ps P) (hiff : ∀ start, P start ↔ Q start) : Lists total ps Q where
  within := h.within
  starts start := (h.starts start).trans (hiff start)

lemma nil (h : ∀ start, ¬ P start) : Lists total [] P where
  within q hq := absurd hq List.not_mem_nil
  starts start := iff_of_false (by simp) (h start)

end Lists

section Entries

variable {d : Medium σ} {p : Partition}

lemma within_entryOf {ss total : ℕ} {bytes : Bytes} (h : Gpt.entryOf ss total bytes = some p) :
    p.Within total := by
  unfold Gpt.entryOf at h
  dsimp only at h
  split at h
  · exact absurd h (by simp)
  split at h
  · exact absurd h (by simp)
  · rename_i hnot
    obtain rfl := Option.some.inj h
    push Not at hnot
    exact ⟨hnot.2.1, by dsimp only; omega⟩

lemma within_primary {total : ℕ} {e : Mbr.Slot} (h : e.primary total = some p) :
    p.Within total := by
  unfold Mbr.Slot.primary Mbr.Slot.range at h
  dsimp only at h
  split at h
  · exact absurd h (by simp)
  split at h
  · exact absurd h (by simp)
  · rename_i hnot
    rw [Option.bind_some] at h
    split at h
    · exact absurd h (by simp)
    · obtain rfl := Option.some.inj h
      exact ⟨by dsimp only [Mbr.partition]; omega, by dsimp only [Mbr.partition]; omega⟩

lemma typeByte_primary {total : ℕ} {e : Mbr.Slot} (h : e.primary total = some p) :
    p.typeByte = some e.typeByte := by
  unfold Mbr.Slot.primary at h
  obtain ⟨r, -, h⟩ := Option.bind_eq_some_iff.1 h
  split at h
  · exact absurd h (by simp)
  · rw [← Option.some.inj h]
    rfl

lemma within_logical {total cur : ℕ} {e : Mbr.Slot} (h : Mbr.logical total cur e = some p) :
    p.Within total := by
  unfold Mbr.logical at h
  dsimp only at h
  split at h
  · rename_i hin
    obtain rfl := Option.some.inj h
    exact ⟨by dsimp only [Mbr.partition]; omega, by dsimp only [Mbr.partition]; omega⟩
  · exact absurd h (by simp)

/-- What the GUID partition table of a disk lists. -/
lemma gptEntries {m : PartitionMap}
    (h : (Gpt.parse (Gpt.blockSize d) d.src.len).run d.reader = some m) :
    Lists d.src.len m.entries (GptDeclares d) := by
  rw [Gpt.run_parse] at h
  obtain ⟨⟨hdr, usedBackup, notes⟩, hchoose, rfl⟩ := Option.map_eq_some_iff.1 h
  dsimp only
  rw [Gpt.entries_readTable]
  split
  · rename_i hgate
    apply Lists.nil
    rintro start ⟨hdr', _, _, hchoose', hsize, hnum, bytes, hmem, -⟩
    obtain rfl : hdr = hdr' := congrArg Prod.fst (Option.some.inj (hchoose.symm.trans hchoose'))
    -- the geometry is fine, so there are no records
    have hnone : hdr.numEntries = 0 := by omega
    rw [hnone] at hmem
    simp [Gpt.records] at hmem
  · rename_i hgate
    refine Lists.congr ⟨fun q hq => ?_, fun start => ?_⟩ (map_place_number _)
    · obtain ⟨bytes, -, hq⟩ := List.mem_filterMap.1 hq
      exact within_entryOf hq
    · constructor
      · rintro ⟨p, hmem, rfl⟩
        obtain ⟨bytes, hbytes, hp⟩ := List.mem_filterMap.1 hmem
        exact ⟨hdr, usedBackup, notes, hchoose, by omega, by omega, bytes, hbytes, p, hp, rfl⟩
      · rintro ⟨hdr', _, _, hchoose', -, -, bytes, hmem, p, hp, rfl⟩
        obtain rfl : hdr = hdr' :=
          congrArg Prod.fst (Option.some.inj (hchoose.symm.trans hchoose'))
        exact ⟨p, List.mem_filterMap.2 ⟨bytes, hmem, hp⟩, rfl⟩

/-- What the MBR of a disk lists. -/
lemma mbrEntries {m : PartitionMap} (h : Mbr.parse (d.bytes 0 512) d.src.len = some m) :
    (∀ q ∈ m.entries, q.Within d.src.len ∧ ∃ t, q.typeByte = some t) ∧
      ∀ (ok : ℕ → Prop) start, (∃ q ∈ m.entries, (∃ t, q.typeByte = some t ∧ ok t) ∧
        q.start = start) ↔ MbrDeclares d ok start := by
  unfold MbrDeclares
  generalize d.bytes 0 512 = buf at *
  unfold Mbr.parse at h
  dsimp only at h
  split at h
  · exact absurd h (by simp)
  · rename_i hsig
    have hsigned : Mbr.signed buf = true := by simpa using hsig
    obtain rfl := Option.some.inj h
    have hplace := map_place_number ((Mbr.slots buf).filterMap (Mbr.Slot.primary d.src.len))
    constructor
    · refine (forall_congr_place hplace fun x => (x.1.1 < d.src.len ∧
        x.1.1 + x.1.2 ≤ d.src.len) ∧ ∃ t, x.2 = some t).2 fun q hq => ?_
      obtain ⟨e, -, hq⟩ := List.mem_filterMap.1 hq
      exact ⟨within_primary hq, _, typeByte_primary hq⟩
    · intro ok start
      refine (exists_congr_place hplace fun x =>
        (∃ t, x.2 = some t ∧ ok t) ∧ x.1.1 = start).trans ?_
      constructor
      · rintro ⟨q, hq, ⟨t, ht, hok⟩, hstart⟩
        obtain ⟨e, he, hq⟩ := List.mem_filterMap.1 hq
        have htype : some e.typeByte = some t := (typeByte_primary hq).symm.trans ht
        rw [← Option.some.inj htype] at hok
        exact ⟨hsigned, e, he, hok, q, hq, hstart⟩
      · rintro ⟨-, e, he, hok, q, hq, hstart⟩
        exact ⟨q, List.mem_filterMap.2 ⟨e, he, hq⟩, ⟨_, typeByte_primary hq, hok⟩, hstart⟩

/-- Every sector has a whole table. -/
lemma slot_bytes (cur : ℕ) {i : ℕ} (hi : i < 4) :
    ∃ slot, Mbr.slot (d.bytes cur 512) i = some slot := by
  unfold Mbr.slot
  dsimp only
  rw [if_neg]
  · exact ⟨_, rfl⟩
  · rw [List.length_take, List.length_drop, Medium.length_bytes]
    omega

/-- **What a chain lists**: the logical partitions of the records it leads over. -/
lemma mem_followEbr {extBase : ℕ} (guard : ℕ) : ∀ cur,
    p ∈ (Mbr.followEbr extBase d.src.len guard cur).run d.reader ↔
      ∃ n < guard, ∃ last, EbrChain d extBase cur n last ∧ LogicalAt d last p := by
  induction guard with
  | zero => exact fun cur => by simp [Mbr.followEbr]
  | succ guard ih =>
    intro cur
    obtain ⟨e0, he0⟩ := slot_bytes (d := d) cur (show 0 < 4 by omega)
    obtain ⟨e1, he1⟩ := slot_bytes (d := d) cur (show 1 < 4 by omega)
    have hnone : ¬ IsEbr d cur → ¬ ∃ n < guard + 1, ∃ last, EbrChain d extBase cur n last ∧
        LogicalAt d last p := by
      rintro hnot ⟨n, -, last, hchain, hlast⟩
      cases hchain with
      | here => exact hnot hlast.1
      | next hebr => exact hnot hebr
    have hhere : ∀ hebr : IsEbr d cur, (p ∈ (Mbr.logical d.src.len cur e0).toList ↔
        LogicalAt d cur p) := by
      intro hebr
      rw [Option.mem_toList]
      constructor
      · exact fun h => ⟨hebr, e0, he0, h⟩
      · rintro ⟨-, slot, hslot, h⟩
        rwa [Option.some.inj (he0.symm.trans hslot)]
    rw [Mbr.followEbr, ReadProg.run_ite]
    split
    · rename_i hout
      exact iff_of_false (by simp) (hnone fun h => by have := h.1; omega)
    · rename_i hin
      rw [ReadProg.run_bind, Medium.run_bytes, ReadProg.run_ite]
      split
      · rename_i hsig
        exact iff_of_false (by simp) (hnone fun h => hsig h.2)
      · rename_i hsig
        have hebr : IsEbr d cur := ⟨by omega, by simpa using hsig⟩
        simp only [he0, he1]
        cases hnext : Mbr.nextEbr extBase cur e1 with
        | none =>
          simp only [ReadProg.run_pure]
          rw [hhere hebr]
          constructor
          · exact fun h => ⟨0, Nat.succ_pos _, cur, .here cur, h⟩
          · rintro ⟨n, -, last, hchain, hlast⟩
            cases hchain with
            | here => exact hlast
            | next _ hslot hnext' =>
              rw [Option.some.inj (he1.symm.trans hslot), hnext'] at hnext
              exact absurd hnext (by simp)
        | some next =>
          simp only [ReadProg.run_bind, ReadProg.run_pure, List.mem_append]
          rw [hhere hebr, ih next]
          constructor
          · rintro (h | ⟨n, hn, last, hchain, hlast⟩)
            · exact ⟨0, Nat.succ_pos _, cur, .here cur, h⟩
            · exact ⟨n + 1, by omega, last, .next hebr he1 hnext hchain, hlast⟩
          · rintro ⟨n, hn, last, hchain, hlast⟩
            cases hchain with
            | here => exact .inl hlast
            | next _ hslot hnext' hrest =>
              rw [Option.some.inj (he1.symm.trans hslot), hnext'] at hnext
              obtain rfl := Option.some.inj hnext
              exact .inr ⟨_, by omega, last, hrest, hlast⟩

/-- What the chains of a table list. -/
lemma mem_logicals (es : List Mbr.Slot) : p ∈ (Mbr.logicals d.src.len es).run d.reader ↔
    ∃ e ∈ es, Mbr.isExtended e.typeByte = true ∧ ∃ n < Mbr.ebrGuard, ∃ cur,
      EbrChain d (e.lba * Mbr.unit) (e.lba * Mbr.unit) n cur ∧ LogicalAt d cur p := by
  induction es with
  | nil => simp [Mbr.logicals]
  | cons e es ih =>
    rw [Mbr.logicals, List.exists_mem_cons_iff]
    by_cases hext : Mbr.isExtended e.typeByte = true
    · simp only [if_pos hext, ReadProg.run_bind, ReadProg.run_pure, List.mem_append]
      rw [mem_followEbr, ih]
      exact or_congr_left (and_iff_right hext).symm
    · simp only [if_neg hext, ReadProg.run_bind, ReadProg.run_pure, List.nil_append]
      rw [ih]
      exact (or_iff_right fun h => hext h.1).symm

/-- What the MBR of a disk lists of the types that `ok` allows. -/
lemma mbrEntries_filter {m : PartitionMap} (h : Mbr.parse (d.bytes 0 512) d.src.len = some m)
    {ok : ℕ → Prop} {keep : Partition → Bool}
    (hkeep : ∀ q t, q.typeByte = some t → (keep q = true ↔ ok t)) :
    Lists d.src.len (m.entries.filter keep) (MbrDeclares d ok) := by
  obtain ⟨hwithin, hstarts⟩ := mbrEntries h
  refine ⟨fun q hq => (hwithin q (List.mem_filter.1 hq).1).1, fun start => ?_⟩
  rw [← hstarts]
  constructor
  · rintro ⟨q, hq, hstart⟩
    obtain ⟨hmem, hk⟩ := List.mem_filter.1 hq
    obtain ⟨t, ht⟩ := (hwithin q hmem).2
    exact ⟨q, hmem, ⟨t, ht, (hkeep q t ht).1 hk⟩, hstart⟩
  · rintro ⟨q, hmem, ⟨t, ht, hok⟩, hstart⟩
    exact ⟨q, List.mem_filter.2 ⟨hmem, (hkeep q t ht).2 hok⟩, hstart⟩

/-- What the MBR of a disk lists beside a GUID partition table. -/
lemma realMbr_lists : Lists d.src.len (realMbr (Mbr.parse (d.bytes 0 512) d.src.len))
    (MbrDeclares d (· ≠ 0xEE)) := by
  cases hm : Mbr.parse (d.bytes 0 512) d.src.len with
  | none =>
    apply Lists.nil
    rintro start ⟨hsig, -⟩
    unfold Mbr.parse at hm
    rw [if_neg (by simpa using hsig)] at hm
    exact absurd hm (by simp)
  | some m =>
    apply mbrEntries_filter hm
    intro q t ht
    rw [ht]
    simp

/-- What an MBR and its chains list. -/
lemma expand_lists {m : PartitionMap} (h : Mbr.parse (d.bytes 0 512) d.src.len = some m) :
    Lists d.src.len ((Mbr.expand (d.bytes 0 512) d.src.len m).run d.reader).entries
      fun start => MbrDeclares d (fun _ => True) start ∨ EbrDeclares d start := by
  have hmbr : Lists d.src.len m.entries (MbrDeclares d fun _ => True) := by
    have hall : Lists d.src.len (m.entries.filter fun _ => true) (MbrDeclares d fun _ => True) :=
      mbrEntries_filter h fun q t _ => by simp
    rwa [List.filter_true] at hall
  rw [Mbr.expand]
  simp only [ReadProg.run_bind, ReadProg.run_pure]
  refine hmbr.append (Lists.congr ⟨fun q hq => ?_, fun start => ?_⟩ (map_place_mapIdx ?_ _))
  · rw [mem_logicals] at hq
    obtain ⟨e, -, -, n, -, cur, -, -, slot, -, hq⟩ := hq
    exact within_logical hq
  · simp only [mem_logicals]
    constructor
    · rintro ⟨q, ⟨e, he, hext, n, hn, cur, hchain, hq⟩, hstart⟩
      exact ⟨e, he, hext, n, hn, cur, hchain, q, hq, hstart⟩
    · rintro ⟨e, he, hext, n, hn, cur, hchain, q, hq, hstart⟩
      exact ⟨q, ⟨e, he, hext, n, hn, cur, hchain, hq⟩, hstart⟩
  · intro i p
    rfl

/-- A disk has a GUID partition table exactly if `parse` makes something of it. -/
lemma hasGpt_iff : HasGpt d ↔ ((Gpt.parse (Gpt.blockSize d) d.src.len).run d.reader).isSome := by
  rw [Gpt.run_parse, Option.isSome_map, HasGpt]
  generalize Gpt.Copy.primary.header d = primary
  generalize Gpt.Copy.backup.header d = backup
  cases primary with
  | none =>
    cases backup with
    | none => simp [Gpt.choose]
    | some b =>
      simp only [Option.isSome_some, or_true, true_iff, Gpt.choose]
      split <;> rfl
  | some p =>
    simp only [Option.isSome_some, true_or, true_iff, Gpt.choose]
    split
    · rfl
    · split <;> rfl

/-- Without any table that is read, nothing is listed. -/
lemma entries_tableless {R : Reader} {ss : ℕ} {containers : List ContainerAnchor} :
    ((tableless ss containers).run R).entries = [] := by
  rw [tableless, ReadProg.run_bind]
  cases (detectApm ss).run R <;> rfl

/-- What a GUID partition table and the MBR beside it list. -/
lemma hybrid_lists {g : PartitionMap}
    (h : (Gpt.parse (Gpt.blockSize d) d.src.len).run d.reader = some g) :
    Lists d.src.len (hybrid (Mbr.parse (d.bytes 0 512) d.src.len) g).entries
      fun start => GptDeclares d start ∨ MbrDeclares d (· ≠ 0xEE) start := by
  have hlists := (gptEntries h).append (realMbr_lists (d := d))
  unfold hybrid
  split
  · rename_i hnil
    rwa [hnil, List.append_nil] at hlists
  · apply hlists.congr
    rw [List.map_append, List.map_append, List.map_map]
    rfl

/-- An MBR without entries declares no partition. -/
lemma not_mbrDeclares (h : (Mbr.parse (d.bytes 0 512) d.src.len).filter
      (fun m => decide (m.entries ≠ [])) = none) (start : ℕ) :
    ¬ MbrDeclares d (fun _ => True) start := by
  intro hd
  cases hm : Mbr.parse (d.bytes 0 512) d.src.len with
  | none =>
    unfold Mbr.parse at hm
    rw [if_neg (by simpa using hd.1)] at hm
    exact absurd hm (by simp)
  | some m =>
    obtain ⟨q, hq, -⟩ := ((mbrEntries hm).2 (fun _ => True) start).2 hd
    rw [hm, Option.filter_some, ite_eq_right_iff] at h
    have hne : m.entries ≠ [] := List.ne_nil_of_mem hq
    exact absurd (h (by simpa using hne)) (by simp)

/-- **What a scan lists**: partitions in the source, at the starts that the tables declare. -/
lemma scanned_lists (s : σ) : Lists d.src.len (scanned d s).entries (Declares d) := by
  have hscan : scanned d s = (scan d.src.sectorSize d.src.len).run d.reader := Medium.exec_eq _ s
  have hblock : max d.src.sectorSize 512 = Gpt.blockSize d := rfl
  have hiff := hasGpt_iff (d := d)
  rw [hscan, scan]
  simp only [ReadProg.run_bind, Medium.run_bytes, hblock]
  cases hg : (Gpt.parse (Gpt.blockSize d) d.src.len).run d.reader with
  | some g =>
    have hgpt : HasGpt d := hiff.2 (by rw [hg]; rfl)
    simp only [ReadProg.run_pure]
    exact (hybrid_lists hg).iff fun start => by simp [Declares, hgpt]
  | none =>
    have hgpt : ¬ HasGpt d := fun h => by
      have h' := hiff.1 h
      rw [hg] at h'
      exact absurd h' (by simp)
    have hdeclares : ∀ start, Declares d start ↔ (∃ start, MbrDeclares d (fun _ => True) start) ∧
        (MbrDeclares d (fun _ => True) start ∨ EbrDeclares d start) := fun start => by
      simp [Declares, hgpt]
    cases hm : (Mbr.parse (d.bytes 0 512) d.src.len).filter fun m => decide (m.entries ≠ []) with
    | none =>
      rw [entries_tableless]
      apply Lists.nil
      intro start hd
      obtain ⟨⟨start', h'⟩, -⟩ := (hdeclares start).1 hd
      exact not_mbrDeclares hm start' h'
    | some m =>
      obtain ⟨hparse, hne⟩ := Option.filter_eq_some_iff.1 hm
      obtain ⟨q, hq⟩ := List.exists_mem_of_ne_nil _ (of_decide_eq_true hne)
      obtain ⟨t, ht⟩ := ((mbrEntries hparse).1 q hq).2
      have hsome : MbrDeclares d (fun _ => True) q.start :=
        ((mbrEntries hparse).2 _ _).1 ⟨q, hq, ⟨t, ht, trivial⟩, rfl⟩
      have hlists := (expand_lists hparse).iff fun start =>
        ((hdeclares start).trans (and_iff_right ⟨_, hsome⟩)).symm
      generalize d.bytes 0 512 = lba0 at *
      simp only [ReadProg.run_bind, ReadProg.run_pure]
      exact hlists

/-- A GUID partition table counts in blocks, so its partitions begin at sectors of every source with
sectors of 512 bytes or more. -/
lemma GptDeclares.dvd {start : ℕ} (h : GptDeclares d start) (hss : 512 ≤ d.src.sectorSize) :
    d.src.sectorSize ∣ start := by
  obtain ⟨-, -, -, -, -, -, bytes, -, p, hp, rfl⟩ := h
  have hblock : Gpt.blockSize d = d.src.sectorSize := max_eq_left hss
  have hlen := d.src.len_le
  rw [hblock] at hp
  have hin := (within_entryOf hp).1
  unfold Gpt.entryOf at hp
  dsimp only at hp
  split at hp
  · exact absurd hp (by simp)
  split at hp
  · exact absurd hp (by simp)
  · obtain rfl := Option.some.inj hp
    dsimp only at hin ⊢
    unfold saturatingMul at hin ⊢
    rw [min_eq_left (by omega)]
    exact Nat.dvd_mul_left _ _

/-- The windows of a scan: its partitions, or the whole source. -/
lemma mem_volumeWindows {m : PartitionMap} {total : ℕ} {w : ℕ × ℕ} :
    w ∈ m.volumeWindows total ↔
      m.entries = [] ∧ w = (0, total) ∨ ∃ q ∈ m.entries, w = (q.start, q.len) := by
  unfold PartitionMap.volumeWindows
  by_cases h : m.entries = []
  · simp [h]
  · simp [h, eq_comm]

/-- **Which disks have all their windows opened**: those whose tables declare partitions at sectors
of the source only. -/
theorem windowsRight_iff (d : Medium σ) (s : σ) : WindowsRight d s ↔
    d.src.sectorSize = 0 ∨ ∀ start, Declares d start → d.src.sectorSize ∣ start := by
  have hlists := scanned_lists (d := d) s
  unfold WindowsRight
  simp only [mem_volumeWindows]
  constructor
  · intro h
    by_cases hss : d.src.sectorSize = 0
    · exact .inl hss
    · refine .inr fun start hd => ?_
      obtain ⟨q, hq, rfl⟩ := (hlists.starts start).2 hd
      have hwindow := h (q.start, q.len) (.inr ⟨q, hq, rfl⟩)
      exact ((accepted_iff (hlists.within q hq).2).1 hwindow).resolve_left hss
  · rintro h w (⟨-, rfl⟩ | ⟨q, hq, rfl⟩)
    · exact (accepted_iff (by omega)).2 (.inr (dvd_zero _))
    · refine (accepted_iff (hlists.within q hq).2).2 (h.imp_right fun hdvd => ?_)
      exact hdvd _ ((hlists.starts _).1 ⟨q, hq, rfl⟩)

end Entries

/-- An MBR that was written for sectors of 512 bytes, on a disk with sectors of 4096: the partition
is at block 63 of 512 bytes. -/
def oldLayout : Medium Unit :=
  Medium.ofSectors 65536 4096 (fun
    | 0 => List.replicate 446 0 ++ [0, 0, 0, 0, 0x07, 0, 0, 0] ++ [63, 0, 0, 0] ++ [64, 0, 0, 0] ++
        List.replicate 48 0 ++ [0x55, 0xAA]
    | _ => []) (by decide) sector4096_le_u32Max sector4096_pos

/-- The partition is reported, and no filesystem engine gets to see it. -/
theorem oldLayout_counterexample : ¬ ∀ (σ : Type) (d : Medium σ) (s : σ), WindowsRight d s := by
  intro h
  have hread : (scanned oldLayout ()).volumeWindows 65536 = [(32256, 32768)] := by
    unfold scanned
    rw [Medium.exec_eq]
    decide +kernel
  have hwindow : Accepted oldLayout.src (32256, 32768) := h Unit oldLayout () (32256, 32768) (by
    have hlen : oldLayout.src.len = 65536 := rfl
    rw [hlen, hread]
    exact List.mem_singleton_self _)
  have hinside : 32256 + 32768 ≤ oldLayout.src.len := by decide
  exact absurd ((accepted_iff hinside).1 hwindow) (by decide)

end Reclaim
