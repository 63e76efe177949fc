import Reclaim.Foundation.Fields
import Reclaim.Part.Scan

/-!
# The chains of extended boot records

An extended partition begins with a chain of records, each with a logical partition and a link to
the next record.  A link is followed only if it leads further on, so the records of a chain come in
ascending order, and a chain that leads back into itself ends there.

`scan_follows` says what a scan makes of the chains of a disk: of each extended entry the logical
partitions of the first 256 records, in order.  `Mbr.table` spells out a sector with given entries,
for the disks on which this is less than all of them.
-/

namespace Reclaim

open FileBytes

variable {σ : Type}

section Chains

variable (d : Medium σ)

/-- The records that lead on from a place, of a chain that begins at `extBase`. -/
inductive EbrRecords (extBase : ℕ) : ℕ → List ℕ → Prop
  /-- There is no record. -/
  | stop {cur : ℕ} : ¬ IsEbr d cur → EbrRecords extBase cur []
  /-- The record links to nothing further on. -/
  | last {cur : ℕ} {slot : Mbr.Slot} : IsEbr d cur → Mbr.slot (d.bytes cur 512) 1 = some slot →
      Mbr.nextEbr extBase cur slot = none → EbrRecords extBase cur [cur]
  | next {cur next : ℕ} {slot : Mbr.Slot} {rest : List ℕ} : IsEbr d cur →
      Mbr.slot (d.bytes cur 512) 1 = some slot → Mbr.nextEbr extBase cur slot = some next →
      EbrRecords extBase next rest → EbrRecords extBase cur (cur :: rest)

/-- The logical partition of the record at `cur`. -/
def logicalOf (cur : ℕ) : Option Partition :=
  (Mbr.slot (d.bytes cur 512) 0).bind (Mbr.logical d.src.len cur)

/-- The list is the chain that begins at `base`: its records in ascending order. -/
structure IsChain (base : ℕ) (records : List ℕ) : Prop where
  ascending : records.Pairwise (· < ·)
  reached : ∀ r, r ∈ records ↔ IsEbr d r ∧ ∃ n, EbrChain d base base n r

/-- A partition that following the links of an extended entry comes upon. -/
def OnChain (p : Partition) : Prop :=
  ∃ e ∈ Mbr.slots (d.bytes 0 512), Mbr.isExtended e.typeByte = true ∧
    ∃ n cur, EbrChain d (e.lba * Mbr.unit) (e.lba * Mbr.unit) n cur ∧ LogicalAt d cur p

/-- A scan lists every logical partition that can be reached, and each once. -/
def ListsEachOnce (s : σ) : Prop :=
  Mbr.signed (d.bytes 0 512) = true → ∀ p, OnChain d p →
    ((scanned d s).entries.map Partition.place).count p.place = 1

/-- The index behind the last of a table. -/
def nextIndex (m : PartitionMap) : ℕ := (m.entries.map (·.index)).foldl max 0 + 1

end Chains

variable {d : Medium σ} {extBase : ℕ}

lemma lt_nextEbr {cur next : ℕ} {slot : Mbr.Slot} (h : Mbr.nextEbr extBase cur slot = some next) :
    cur < next := by
  unfold Mbr.nextEbr at h
  dsimp only at h
  split at h
  · exact absurd h (by simp)
  · obtain rfl := Option.some.inj h
    omega

/-- **Every chain ends**: its records lie further and further on in the source. -/
lemma exists_records (cur : ℕ) : ∃ records, EbrRecords d extBase cur records := by
  induction hleft : d.src.len - cur using Nat.strong_induction_on generalizing cur with
  | _ left ih =>
    by_cases hebr : IsEbr d cur
    · obtain ⟨slot, hslot⟩ := slot_bytes (d := d) cur (show 1 < 4 by omega)
      cases hnext : Mbr.nextEbr extBase cur slot with
      | none => exact ⟨_, .last hebr hslot hnext⟩
      | some next =>
        have hlt := lt_nextEbr hnext
        have hin := hebr.1
        obtain ⟨rest, hrest⟩ := ih (d.src.len - next) (by omega) next rfl
        exact ⟨_, .next hebr hslot hnext hrest⟩
    · exact ⟨_, .stop hebr⟩

/-- The records come in ascending order. -/
lemma ascending_records {cur : ℕ} {records : List ℕ} (h : EbrRecords d extBase cur records) :
    (∀ r ∈ records, cur ≤ r) ∧ records.Pairwise (· < ·) := by
  induction h with
  | stop _ => exact ⟨fun r hr => absurd hr List.not_mem_nil, List.Pairwise.nil⟩
  | last _ _ _ =>
    refine ⟨fun r hr => ?_, List.pairwise_singleton _ _⟩
    rw [List.mem_singleton.1 hr]
  | next _ _ hnext _ ih =>
    have hlt := lt_nextEbr hnext
    refine ⟨fun r hr => ?_, List.pairwise_cons.2 ⟨fun r hr => ?_, ih.2⟩⟩
    · rcases List.mem_cons.1 hr with rfl | hr
      · exact le_rfl
      · exact hlt.le.trans (ih.1 r hr)
    · exact hlt.trans_le (ih.1 r hr)

/-- The records are those that the links lead to. -/
lemma mem_ebrRecords {cur r : ℕ} {records : List ℕ} (h : EbrRecords d extBase cur records) :
    r ∈ records ↔ IsEbr d r ∧ ∃ n, EbrChain d extBase cur n r := by
  induction h with
  | stop hnot =>
    apply iff_of_false List.not_mem_nil
    rintro ⟨hebr, n, hchain⟩
    cases hchain with
    | here => exact hnot hebr
    | next hfirst => exact hnot hfirst
  | last hebr hslot hnext =>
    rw [List.mem_singleton]
    constructor
    · rintro rfl
      exact ⟨hebr, 0, .here _⟩
    · rintro ⟨-, n, hchain⟩
      cases hchain with
      | here => rfl
      | next _ hslot' hnext' =>
        rw [Option.some.inj (hslot.symm.trans hslot'), hnext'] at hnext
        exact absurd hnext (by simp)
  | next hebr hslot hnext _ ih =>
    rw [List.mem_cons, ih]
    constructor
    · rintro (rfl | ⟨hr, n, hchain⟩)
      · exact ⟨hebr, 0, .here _⟩
      · exact ⟨hr, n + 1, .next hebr hslot hnext hchain⟩
    · rintro ⟨hr, n, hchain⟩
      cases hchain with
      | here => exact .inl rfl
      | next _ hslot' hnext' hrest =>
        rw [Option.some.inj (hslot.symm.trans hslot'), hnext'] at hnext
        obtain rfl := Option.some.inj hnext
        exact .inr ⟨hr, _, hrest⟩

/-- **What is listed of a chain**: the logical partitions of as many records as are followed. -/
lemma run_followEbr {records : List ℕ} (guard : ℕ) {cur : ℕ}
    (h : EbrRecords d extBase cur records) :
    (Mbr.followEbr extBase d.src.len guard cur).run d.reader =
      (records.take guard).filterMap (logicalOf d) := by
  induction guard generalizing cur records with
  | zero => rfl
  | succ guard ih =>
    obtain ⟨e0, he0⟩ := slot_bytes (d := d) cur (show 0 < 4 by omega)
    have hhere : logicalOf d cur = Mbr.logical d.src.len cur e0 := by
      rw [logicalOf, he0, Option.bind_some]
    have hcons : ∀ rest : List ℕ, (cur :: rest).filterMap (logicalOf d) =
        (Mbr.logical d.src.len cur e0).toList ++ rest.filterMap (logicalOf d) := by
      intro rest
      rw [List.filterMap_cons, hhere]
      cases Mbr.logical d.src.len cur e0 <;> rfl
    rw [Mbr.followEbr, ReadProg.run_ite]
    cases h with
    | stop hnot =>
      split
      · rfl
      · rename_i hin
        rw [ReadProg.run_bind, Medium.run_bytes, ReadProg.run_ite, if_pos]
        · rfl
        · exact fun hsig => hnot ⟨by omega, hsig⟩
    | last hebr hslot hnext =>
      have hin := hebr.1
      rw [if_neg (by omega), ReadProg.run_bind, Medium.run_bytes, ReadProg.run_ite,
        if_neg (not_not.2 hebr.2)]
      simp only [he0, hslot, hnext, ReadProg.run_pure]
      rw [List.take_succ_cons, List.take_nil, hcons, List.filterMap_nil, List.append_nil]
    | next hebr hslot hnext hrest =>
      have hin := hebr.1
      rw [if_neg (by omega), ReadProg.run_bind, Medium.run_bytes, ReadProg.run_ite,
        if_neg (not_not.2 hebr.2)]
      simp only [he0, hslot, hnext, ReadProg.run_bind, ReadProg.run_pure]
      rw [ih hrest, List.take_succ_cons, hcons]

/-- What is listed of the chains of a table. -/
lemma run_logicals (es : List Mbr.Slot) : ∃ chains : List (List ℕ),
    List.Forall₂ (fun e records => IsChain d (e.lba * Mbr.unit) records)
      (es.filter fun e => Mbr.isExtended e.typeByte) chains ∧
    (Mbr.logicals d.src.len es).run d.reader =
      chains.flatMap fun records => (records.take Mbr.ebrGuard).filterMap (logicalOf d) := by
  induction es with
  | nil => exact ⟨[], .nil, rfl⟩
  | cons e es ih =>
    obtain ⟨chains, hchains, hrun⟩ := ih
    rw [Mbr.logicals]
    by_cases hext : Mbr.isExtended e.typeByte = true
    · obtain ⟨records, hrecords⟩ : ∃ records,
          EbrRecords d (e.lba * Mbr.unit) (e.lba * Mbr.unit) records := exists_records _
      refine ⟨records :: chains, ?_, ?_⟩
      · have hfilter : (e :: es).filter (fun e => Mbr.isExtended e.typeByte) =
            e :: es.filter fun e => Mbr.isExtended e.typeByte := List.filter_cons_of_pos hext
        rw [hfilter]
        exact .cons ⟨(ascending_records hrecords).2, fun r => mem_ebrRecords hrecords⟩ hchains
      · rw [if_pos hext]
        simp only [ReadProg.run_bind, ReadProg.run_pure, List.flatMap_cons]
        rw [run_followEbr _ hrecords, hrun]
    · refine ⟨chains, ?_, ?_⟩
      · have hfilter : (e :: es).filter (fun e => Mbr.isExtended e.typeByte) =
            es.filter fun e => Mbr.isExtended e.typeByte := List.filter_cons_of_neg hext
        rw [hfilter]
        exact hchains
      · rw [if_neg hext]
        simp only [ReadProg.run_bind, ReadProg.run_pure, List.nil_append]
        exact hrun

lemma scanned_eq (d : Medium σ) (s : σ) :
    scanned d s = (scan d.src.sectorSize d.src.len).run d.reader := Medium.exec_eq _ s

/-- **What a scan makes of the chains.**  On a disk without a GUID partition table, whose MBR lists
a partition, it lists these and, of the chain of each extended entry, the logical partitions of the
first 256 records in order. -/
theorem scan_follows (d : Medium σ) (s : σ) {m : PartitionMap} (hgpt : ¬ HasGpt d)
    (hm : Mbr.parse (d.bytes 0 512) d.src.len = some m) (hne : m.entries ≠ []) :
    ∃ chains : List (List ℕ),
      List.Forall₂ (fun e records => IsChain d (e.lba * Mbr.unit) records)
        ((Mbr.slots (d.bytes 0 512)).filter fun e => Mbr.isExtended e.typeByte) chains ∧
      (scanned d s).entries = m.entries ++
        (chains.flatMap fun records => (records.take Mbr.ebrGuard).filterMap (logicalOf d)).mapIdx
          fun i p => { p with index := nextIndex m + i } := by
  obtain ⟨chains, hchains, hrun⟩ := run_logicals (d := d) (Mbr.slots (d.bytes 0 512))
  refine ⟨chains, hchains, ?_⟩
  have hblock : max d.src.sectorSize 512 = Gpt.blockSize d := rfl
  have hnone : (Gpt.parse (Gpt.blockSize d) d.src.len).run d.reader = none := by
    rw [← Option.not_isSome_iff_eq_none, ← hasGpt_iff]
    exact hgpt
  have hfilter : (Mbr.parse (d.bytes 0 512) d.src.len).filter
      (fun m => decide (m.entries ≠ [])) = some m := by
    rw [hm]
    exact Option.filter_some_pos (decide_eq_true hne)
  rw [scanned_eq, scan]
  simp only [ReadProg.run_bind, Medium.run_bytes, hblock, hnone, hfilter, Mbr.expand,
    ReadProg.run_pure, hrun]
  rfl

/-! ## Tables spelled out -/

namespace Mbr

/-- An entry of a table. -/
def Slot.bytes (e : Slot) : Bytes :=
  [0, 0, 0, 0, UInt8.ofNat e.typeByte, 0, 0, 0] ++ Gpt.leBytes 4 e.lba ++ Gpt.leBytes 4 e.num

/-- A sector with a table of the given entries. -/
def table (es : List Slot) : Bytes :=
  List.replicate 446 0 ++ es.flatMap Slot.bytes ++ List.replicate (64 - 16 * es.length) 0 ++
    [0x55, 0xAA]

/-- The fields of the entry can be spelled out. -/
structure Slot.Fits (e : Slot) : Prop where
  typeByte : e.typeByte < 256
  lba : e.lba < 2 ^ 32
  num : e.num < 2 ^ 32

lemma leValue_leBytes (n : ℕ) : ∀ v, v < 256 ^ n → leValue (Gpt.leBytes n v) = v := by
  induction n with
  | zero =>
    intro v hv
    rw [Nat.pow_zero] at hv
    obtain rfl : v = 0 := by omega
    rfl
  | succ n ih =>
    intro v hv
    have hrest : v / 256 < 256 ^ n := by
      rw [Nat.div_lt_iff_lt_mul (by omega)]
      rwa [Nat.pow_succ] at hv
    have hcons : leValue (Gpt.leBytes (n + 1) v) =
        (UInt8.ofNat v).toNat + 256 * leValue (Gpt.leBytes n (v / 256)) := rfl
    have hbyte : (UInt8.ofNat v).toNat = v % 256 := UInt8.toNat_ofNat'
    rw [hcons, ih _ hrest, hbyte]
    omega

@[simp] lemma length_leBytes (n v : ℕ) : (Gpt.leBytes n v).length = n := by
  induction n generalizing v with
  | zero => rfl
  | succ n ih => rw [Gpt.leBytes, List.length_cons, ih]

@[simp] lemma Slot.length_bytes (e : Slot) : e.bytes.length = 16 := by simp [Slot.bytes]

lemma length_flatMap_bytes (es : List Slot) :
    (es.flatMap Slot.bytes).length = 16 * es.length := by
  induction es with
  | nil => rfl
  | cons e es ih =>
    rw [List.flatMap_cons, List.length_append, Slot.length_bytes, ih, List.length_cons]
    omega

lemma length_table {es : List Slot} (h : es.length ≤ 4) : (table es).length = 512 := by
  unfold table
  simp only [List.length_append, List.length_replicate, length_flatMap_bytes, List.length_cons,
    List.length_nil]
  omega

lemma signed_table {es : List Slot} (h : es.length ≤ 4) : signed (table es) = true := by
  have hlen : (List.replicate 446 (0 : UInt8) ++ es.flatMap Slot.bytes ++
      List.replicate (64 - 16 * es.length) 0).length = 510 := by
    simp only [List.length_append, List.length_replicate, length_flatMap_bytes]
    omega
  unfold signed table
  rw [List.getElem?_append_right (by omega), List.getElem?_append_right (by omega), hlen]
  rfl

/-- **Reading back a table** returns its entries. -/
lemma slot_table {es : List Slot} {i : ℕ} {e : Slot} (h : es[i]? = some e) (hfits : e.Fits)
    : slot (table es) i = some e := by
  have hentry : ((table es).drop (446 + i * 16)).take 16 = e.bytes := by
    have hhead : (List.replicate 446 (0 : UInt8)).length = 446 := List.length_replicate
    unfold table
    rw [List.append_assoc, List.append_assoc, ← List.drop_drop, List.drop_left' hhead]
    obtain ⟨x, hx⟩ := drop_flatMap Slot.length_bytes h (List.replicate (64 - 16 * es.length) 0 ++
      [0x55, 0xAA])
    rw [hx]
    exact List.take_left' e.length_bytes
  have htype : (byteAt e.bytes 4).toNat = e.typeByte := by
    have hbyte : byteAt e.bytes 4 = UInt8.ofNat e.typeByte := rfl
    rw [hbyte, UInt8.toNat_ofNat', Nat.mod_eq_of_lt hfits.typeByte]
  have hlba : leU32 e.bytes 8 = e.lba := by
    have hfield : (e.bytes.drop 8).take 4 = Gpt.leBytes 4 e.lba := rfl
    rw [leU32, leField, if_pos (by rw [e.length_bytes]; omega), hfield,
      leValue_leBytes 4 _ (hfits.lba.trans_eq (by norm_num))]
  have hnum : leU32 e.bytes 12 = e.num := by
    have hfield : (e.bytes.drop 12).take 4 = Gpt.leBytes 4 e.num := rfl
    rw [leU32, leField, if_pos (by rw [e.length_bytes]), hfield,
      leValue_leBytes 4 _ (hfits.num.trans_eq (by norm_num))]
  unfold slot
  dsimp only
  rw [hentry, if_neg (by rw [e.length_bytes]; omega), htype, hlba, hnum]

/-- A table is no header of a GUID partition table. -/
lemma parseHeader_table (es : List Slot) : Gpt.parseHeader (table es) = none := by
  have htake : (table es).take 8 = List.replicate 8 0 := by
    unfold table
    have hle : 8 ≤ (List.replicate 446 (0 : UInt8)).length := by
      rw [List.length_replicate]
      omega
    rw [List.append_assoc, List.append_assoc, List.take_append_of_le_length hle,
      List.take_replicate]
    rfl
  unfold Gpt.parseHeader
  dsimp only
  rw [htake, if_pos (.inl (by decide))]

end Mbr

/-- A sector of a disk that is given by sectors. -/
lemma Medium.bytes_ofSectors {len ss : ℕ} {sector : ℕ → Bytes} {hlen : len ≤ u64Max}
    {hss : ss ≤ u32Max} {hpos : 0 < ss} {i : ℕ} (hin : i * ss + ss ≤ len)
    (hsector : (sector i).length = ss) :
    (Medium.ofSectors len ss sector hlen hss hpos).bytes (i * ss) ss = sector i := by
  apply ext_byteAt (by rw [Medium.length_bytes, hsector])
  intro k hk
  rw [Medium.length_bytes] at hk
  have hdiv : (i * ss + k) / ss = i := by
    rw [Nat.mul_comm, Nat.mul_add_div hpos, Nat.div_eq_of_lt hk, Nat.add_zero]
  have hmod : (i * ss + k) % ss = k := by
    rw [Nat.mul_comm, Nat.mul_add_mod, Nat.mod_eq_of_lt hk]
  have hcontent : (Medium.ofSectors len ss sector hlen hss hpos).content (i * ss + k) =
      byteAt (sector ((i * ss + k) / ss)) ((i * ss + k) % ss) := rfl
  have hsrc : (Medium.ofSectors len ss sector hlen hss hpos).src.len = len := rfl
  rw [Medium.byteAt_bytes hk, hsrc, if_pos (by omega), hcontent, hdiv, hmod]

/-- A disk with a partition and an extended one, in which a record leads to a second one. -/
def twoLogicals : Medium Unit :=
  Medium.ofSectors 4096 512 (fun
    | 0 => Mbr.table [⟨0x83, 7, 1⟩, ⟨0x05, 1, 6⟩]
    | 1 => Mbr.table [⟨0x83, 1, 1⟩, ⟨0x05, 2, 2⟩]
    | 3 => Mbr.table [⟨0x83, 1, 1⟩]
    | _ => []) sectors8_le_u64Max sector512_le_u32Max sector512_pos

/-- Its chain is followed. -/
theorem scan_follows_twoLogicals :
    ∃ chains : List (List ℕ),
      List.Forall₂ (fun e records => IsChain twoLogicals (e.lba * Mbr.unit) records)
        ((Mbr.slots (twoLogicals.bytes 0 512)).filter fun e => Mbr.isExtended e.typeByte) chains ∧
      (scanned twoLogicals ()).entries =
        [{ Mbr.partition 0x83 3584 512 4096 with index := 1 }] ++
          (chains.flatMap fun records =>
            (records.take Mbr.ebrGuard).filterMap (logicalOf twoLogicals)).mapIdx
              fun i p => { p with index := 2 + i } := by
  have hgpt : ¬ HasGpt twoLogicals := by
    rw [hasGpt_iff]
    decide +kernel
  have hm : Mbr.parse (twoLogicals.bytes 0 512) twoLogicals.src.len = some
      { scheme := .mbr, entries := [{ Mbr.partition 0x83 3584 512 4096 with index := 1 }]
        confidence := 0.9, notes := ["1 extended partition(s) present (EBR chain)"]
        containers := [] } := by
    decide +kernel
  exact scan_follows twoLogicals () hgpt hm (List.cons_ne_nil _ _)

/-! ## Partitions that are missed -/

/-- The extended partition stands beside a GUID partition table. -/
def besideGpt : Medium Unit :=
  Medium.ofSectors 4096 512 (fun
    | 0 => Mbr.table [⟨0x83, 7, 1⟩, ⟨0x05, 2, 4⟩]
    | 1 => Gpt.headerBytes 0 2
    | 2 => Mbr.table [⟨0x83, 1, 1⟩]
    | _ => []) sectors8_le_u64Max sector512_le_u32Max sector512_pos

/-- Two entries have the one extended partition. -/
def twiceExtended : Medium Unit :=
  Medium.ofSectors 4096 512 (fun
    | 0 => Mbr.table [⟨0x83, 7, 1⟩, ⟨0x05, 1, 4⟩, ⟨0x0F, 1, 4⟩]
    | 1 => Mbr.table [⟨0x83, 1, 1⟩]
    | _ => []) sectors8_le_u64Max sector512_le_u32Max sector512_pos

/-- How often a scan lists the place of a partition. -/
def timesListed (d : Medium Unit) (p : Partition) : ℕ :=
  ((((scan d.src.sectorSize d.src.len).run d.reader).entries).map Partition.place).count p.place

lemma not_listsEachOnce {d : Medium Unit} {p : Partition} {e : Mbr.Slot} {cur : ℕ}
    (hsig : Mbr.signed (d.bytes 0 512) = true) (he : e ∈ Mbr.slots (d.bytes 0 512))
    (hext : Mbr.isExtended e.typeByte = true) {n : ℕ}
    (hchain : EbrChain d (e.lba * Mbr.unit) (e.lba * Mbr.unit) n cur) (hp : LogicalAt d cur p)
    (htimes : timesListed d p ≠ 1) : ¬ ListsEachOnce d () := by
  intro h
  have hone := h hsig p ⟨e, he, hext, n, cur, hchain, hp⟩
  rw [scanned_eq] at hone
  exact htimes hone

namespace LongChain

/-- The sectors of a disk with a chain of 299 records, each at the partition it declares. -/
def sector : ℕ → Bytes
  | 0 => Mbr.table [⟨0x83, 299, 1⟩, ⟨0x05, 1, 298⟩]
  | i + 1 => Mbr.table [⟨0x83, 0, 1⟩, ⟨0x05, i + 1, 1⟩]

/-- The disk. -/
def disk : Medium Unit :=
  Medium.ofSectors 153600 512 sector (by decide) sector512_le_u32Max sector512_pos

variable {i n cur last : ℕ}

lemma bytes_record (hi : i < 299) :
    disk.bytes ((i + 1) * 512) 512 = Mbr.table [⟨0x83, 0, 1⟩, ⟨0x05, i + 1, 1⟩] := by
  have hsector : (sector (i + 1)).length = 512 := Mbr.length_table (by simp)
  exact Medium.bytes_ofSectors (by omega) hsector

lemma isEbr (hi : i < 299) : IsEbr disk ((i + 1) * 512) := by
  have hlen : disk.src.len = 153600 := rfl
  refine ⟨by omega, ?_⟩
  rw [bytes_record hi]
  exact Mbr.signed_table (by simp)

lemma slot_zero (hi : i < 299) :
    Mbr.slot (disk.bytes ((i + 1) * 512) 512) 0 = some ⟨0x83, 0, 1⟩ := by
  rw [bytes_record hi]
  exact Mbr.slot_table rfl ⟨by decide, by decide, by decide⟩

lemma slot_one (hi : i < 299) :
    Mbr.slot (disk.bytes ((i + 1) * 512) 512) 1 = some ⟨0x05, i + 1, 1⟩ := by
  rw [bytes_record hi]
  exact Mbr.slot_table rfl ⟨by norm_num, by dsimp only; omega, by norm_num⟩

lemma nextEbr_record (hi : i < 299) :
    Mbr.nextEbr 512 ((i + 1) * 512) ⟨0x05, i + 1, 1⟩ = some ((i + 1 + 1) * 512) := by
  have hnext : saturatingAdd 512 ((i + 1) * Mbr.unit) = (i + 1 + 1) * 512 := by
    unfold saturatingAdd Mbr.unit u64Max
    omega
  unfold Mbr.nextEbr
  dsimp only
  rw [hnext, if_neg]
  unfold Mbr.unit
  omega

/-- The links lead from each record to the next. -/
lemma chain (h : i + n < 299) : EbrChain disk 512 ((i + 1) * 512) n ((i + n + 1) * 512) := by
  induction n generalizing i with
  | zero => exact .here _
  | succ n ih =>
    have hrest := ih (i := i + 1) (by omega)
    rw [show i + 1 + n + 1 = i + (n + 1) + 1 by omega] at hrest
    exact .next (isEbr (by omega)) (slot_one (by omega)) (nextEbr_record (by omega)) hrest

/-- And they lead nowhere else. -/
lemma last_of_chain (h : EbrChain disk 512 cur n last) :
    ∀ i, cur = (i + 1) * 512 → last = (i + n + 1) * 512 := by
  induction h with
  | here cur => exact fun i hi => hi
  | next hebr hslot hnext _ ih =>
    rintro i rfl
    have hin : i < 299 := by
      have hlt := hebr.1
      have hlen : disk.src.len = 153600 := rfl
      omega
    obtain rfl := Option.some.inj ((slot_one hin).symm.trans hslot)
    have hat := Option.some.inj ((nextEbr_record hin).symm.trans hnext)
    rw [ih (i + 1) hat.symm, Nat.add_right_comm i 1, Nat.add_assoc i]

/-- The partition of a record is at the record. -/
lemma logicalAt_iff {p : Partition} (hi : i < 299) : LogicalAt disk ((i + 1) * 512) p ↔
    p = Mbr.partition 0x83 ((i + 1) * 512) 512 153600 := by
  have hstart : saturatingAdd ((i + 1) * 512) (0 * Mbr.unit) = (i + 1) * 512 := by
    unfold saturatingAdd u64Max
    omega
  have hlogical : Mbr.logical 153600 ((i + 1) * 512) ⟨0x83, 0, 1⟩ =
      some (Mbr.partition 0x83 ((i + 1) * 512) 512 153600) := by
    unfold Mbr.logical
    dsimp only
    rw [hstart, if_pos]
    · rfl
    · unfold Mbr.unit
      omega
  constructor
  · rintro ⟨-, slot, hslot, hp⟩
    obtain rfl := Option.some.inj ((slot_zero hi).symm.trans hslot)
    exact Option.some.inj (hp.symm.trans hlogical)
  · rintro rfl
    exact ⟨isEbr hi, _, slot_zero hi, hlogical⟩

lemma slots_disk : Mbr.slots (disk.bytes 0 512) =
    [⟨0x83, 299, 1⟩, ⟨0x05, 1, 298⟩, ⟨0, 0, 0⟩, ⟨0, 0, 0⟩] := by
  decide +kernel

/-- The partition of record 257 is behind what is followed, and listed by nothing else. -/
lemma not_declares : ¬ Declares disk (257 * 512) := by
  have hnone : ∀ c : Gpt.Copy, c.header disk = none := by
    intro c
    unfold Gpt.Copy.header
    cases c with
    | primary =>
      have hoffset : Gpt.Copy.offset disk .primary = (0 + 1) * 512 := rfl
      rw [hoffset, bytes_record (by omega)]
      exact Mbr.parseHeader_table _
    | backup =>
      have hoffset : Gpt.Copy.offset disk .backup = (298 + 1) * 512 := rfl
      rw [hoffset, bytes_record (by omega)]
      exact Mbr.parseHeader_table _
  have hgpt : ¬ HasGpt disk := by
    rw [HasGpt, hnone, hnone]
    simp
  have hprimary : ¬ MbrDeclares disk (fun _ => True) (257 * 512) := by
    rintro ⟨-, e, he, -, p, hp, hstart⟩
    have hall : ∀ e ∈ Mbr.slots (disk.bytes 0 512),
        (e.primary 153600).all fun p => decide (p.start ≠ 257 * 512) := by
      rw [slots_disk]
      decide
    have hne := hall e he
    have hp' : e.primary 153600 = some p := hp
    rw [hp', Option.all_some, decide_eq_true_iff] at hne
    exact hne hstart
  have hchain : ¬ EbrDeclares disk (257 * 512) := by
    rintro ⟨e, he, hext, n, hn, cur, hchain, p, hp, hstart⟩
    have hn' : n < 256 := hn
    have hbase : e.lba * Mbr.unit = 512 := by
      have hall : ∀ e ∈ Mbr.slots (disk.bytes 0 512), Mbr.isExtended e.typeByte = true →
          e.lba * Mbr.unit = 512 := by
        rw [slots_disk]
        decide
      exact hall e he hext
    rw [hbase] at hchain
    obtain rfl := last_of_chain hchain 0 rfl
    rw [Nat.zero_add, logicalAt_iff (by omega)] at hp
    rw [hp] at hstart
    have hstart' : (n + 1) * 512 = 257 * 512 := hstart
    omega
  rintro (⟨h, -⟩ | ⟨-, -, h | h⟩)
  · exact hgpt h
  · exact hprimary h
  · exact hchain h

lemma not_listed : timesListed disk (Mbr.partition 0x83 (257 * 512) 512 153600) ≠ 1 := by
  have hzero : timesListed disk (Mbr.partition 0x83 (257 * 512) 512 153600) = 0 := by
    unfold timesListed
    rw [← scanned_eq disk (), List.count_eq_zero]
    intro hmem
    obtain ⟨q, hq, hplace⟩ := List.mem_map.1 hmem
    have hstart : q.start = 257 * 512 := congrArg (fun x => x.1.1) hplace
    exact not_declares (((scanned_lists (d := disk) ()).starts _).1 ⟨q, hq, hstart⟩)
  rw [hzero]
  exact Nat.zero_ne_one

end LongChain

/-- Beside a GUID partition table no chain is followed, two entries with one chain list it twice,
and of a long chain the end is left out. -/
theorem listsEachOnce_counterexample : ¬ ListsEachOnce besideGpt () ∧
    ¬ ListsEachOnce twiceExtended () ∧ ¬ ListsEachOnce LongChain.disk () := by
  refine ⟨?_, ?_, ?_⟩
  · have hp : LogicalAt besideGpt 1024 (Mbr.partition 0x83 1536 512 4096) :=
      ⟨⟨by decide, by decide +kernel⟩, ⟨0x83, 1, 1⟩, by decide +kernel, by decide +kernel⟩
    have he : (⟨0x05, 2, 4⟩ : Mbr.Slot) ∈ Mbr.slots (besideGpt.bytes 0 512) := by decide +kernel
    exact not_listsEachOnce (by decide +kernel) he rfl (.here 1024) hp (by decide +kernel)
  · have hp : LogicalAt twiceExtended 512 (Mbr.partition 0x83 1024 512 4096) :=
      ⟨⟨by decide, by decide +kernel⟩, ⟨0x83, 1, 1⟩, by decide +kernel, by decide +kernel⟩
    have he : (⟨0x05, 1, 4⟩ : Mbr.Slot) ∈ Mbr.slots (twiceExtended.bytes 0 512) := by
      decide +kernel
    exact not_listsEachOnce (by decide +kernel) he rfl (.here 512) hp (by decide +kernel)
  · have he : (⟨0x05, 1, 298⟩ : Mbr.Slot) ∈ Mbr.slots (LongChain.disk.bytes 0 512) := by
      rw [LongChain.slots_disk]
      decide
    have hp := (LongChain.logicalAt_iff (i := 256) (by omega)).2 rfl
    have hchain : EbrChain LongChain.disk 512 512 256 (257 * 512) :=
      LongChain.chain (i := 0) (by omega)
    have hsig : Mbr.signed (LongChain.disk.bytes 0 512) = true := by decide +kernel
    exact not_listsEachOnce hsig he rfl hchain hp LongChain.not_listed

end Reclaim
