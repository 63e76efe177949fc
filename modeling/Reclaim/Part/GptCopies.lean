import Reclaim.Part.Gpt

/-!
# Which copy of a partition table is used

A copy is fully valid if its header and the array its header declares both pass their checksums and
the array lies in the source.  While one copy is fully valid, its entries are what a scan should
come to.  `parse` settles on a copy by the checksums of the headers alone and limits how large an
array it takes in; `CopiesServe` is what this asks of a disk.
-/

namespace Reclaim

open FileBytes

variable {σ : Type}

namespace Gpt

/-- The two copies. -/
inductive Copy where
  | primary
  | backup
  deriving DecidableEq, Repr

/-- The block size that the scanner counts in. -/
def blockSize (d : Medium σ) : ℕ := max d.src.sectorSize 512

/-- Where the copy's header is. -/
def Copy.offset (d : Medium σ) : Copy → ℕ
  | .primary => blockSize d
  | .backup => d.src.len - blockSize d

/-- What the copy's header says. -/
def Copy.header (d : Medium σ) (c : Copy) : Option Header := parseHeader (d.bytes (c.offset d) 512)

/-- A record of the array that a header declares. -/
def record (d : Medium σ) (h : Header) (i : ℕ) : Bytes :=
  d.bytes (h.entryLba * blockSize d + i * h.entrySize) h.entrySize

/-- The entry of a record, if it is not empty. -/
def entryAt (d : Medium σ) (h : Header) (i : ℕ) : Option Partition :=
  entryOf (blockSize d) d.src.len (record d h i)

/-- The entries of the array that are not empty. -/
def nonEmpty (d : Medium σ) (h : Header) : List Partition :=
  number ((List.range h.numEntries).filterMap (entryAt d h))

/-- A header, and the array it declares, that pass their checksums. -/
structure Header.FullyValid (d : Medium σ) (h : Header) : Prop where
  headerCrcOk : h.headerCrcOk = true
  inside : h.entryLba * blockSize d + h.numEntries * h.entrySize ≤ d.src.len
  entriesCrc : (crc32 (d.bytes (h.entryLba * blockSize d) (h.numEntries * h.entrySize))).toNat =
    h.entriesCrc

/-- The copy is fully valid. -/
def Copy.FullyValid (d : Medium σ) (c : Copy) : Prop :=
  ∃ h, c.header d = some h ∧ h.FullyValid d

/-- The copy that is used. -/
def used (d : Medium σ) : Option Copy :=
  (choose (Copy.primary.header d) (Copy.backup.header d)).map fun r =>
    if r.2.1 then .backup else .primary

/-- What `parse` makes of the disk. -/
def parsed (d : Medium σ) (s : σ) : Option PartitionMap :=
  ((parse (blockSize d) d.src.len).exec (readStep d.src) s).1

/-- If a copy is fully valid, then one that is fully valid is used, and all its entries are. -/
def RightCopy (d : Medium σ) (s : σ) : Prop :=
  (∃ c : Copy, c.FullyValid d) → ∃ (c : Copy) (h : Header) (m : PartitionMap),
    used d = some c ∧ c.header d = some h ∧ h.FullyValid d ∧ parsed d s = some m ∧
      m.entries = nonEmpty d h

/-- Every entry of the array lies within what is taken in of one. -/
def Header.Fits (d : Medium σ) (h : Header) : Prop :=
  ∀ i < h.numEntries, entryAt d h i ≠ none →
    128 ≤ h.entrySize ∧ h.entrySize ≤ 4096 ∧ h.numEntries ≤ 4096 ∧
      i * h.entrySize + h.entrySize ≤ tableCap

/-- What the choice of the copy asks of the disk. -/
structure CopiesServe (d : Medium σ) : Prop where
  /-- A primary header that passes does not hide a valid backup behind an array that fails. -/
  honest : Copy.backup.FullyValid d → ∀ h, Copy.primary.header d = some h →
    h.headerCrcOk = true → h.FullyValid d
  primaryFits : ∀ h, Copy.primary.header d = some h → h.FullyValid d → h.Fits d
  backupFits : ∀ h, Copy.backup.header d = some h → h.FullyValid d →
    (∀ p, Copy.primary.header d = some p → p.headerCrcOk = false) → h.Fits d

/-! ## The array that is read -/

lemma takeWhile_range {p : ℕ → Bool} {q : ℕ} (n : ℕ) (h : ∀ i < n, (p i = true ↔ i < q)) :
    (List.range n).takeWhile p = List.range (min n q) := by
  induction n with
  | zero => simp
  | succ n ih =>
    rw [List.range_succ, List.takeWhile_append, ih fun i hi => h i (Nat.lt_succ_of_lt hi),
      List.length_range, List.length_range]
    have hn := h n (Nat.lt_succ_self n)
    by_cases hq : n < q
    · rw [if_pos (by omega), min_eq_left (by omega), List.range_succ]
      simp [hn.2 hq]
    · have hp : p n = false := Bool.eq_false_iff.2 (mt hn.1 hq)
      rw [min_eq_right (show q ≤ n by omega), min_eq_right (show q ≤ n + 1 by omega)]
      split
      · rw [List.takeWhile_cons_of_neg (by simp [hp]), List.append_nil]
        congr 1
        omega
      · rfl

lemma lt_div_iff {i q k : ℕ} (hk : 0 < k) : i < q / k ↔ i * k + k ≤ q := by
  rw [← Nat.succ_le_iff, Nat.le_div_iff_mul_le hk, Nat.succ_mul]

variable {d : Medium σ} {h : Header}

/-- The records that are taken in are those of the array, as far as the cap lets them be. -/
lemma records_bytes (hsize : 0 < h.entrySize) :
    records (d.bytes (h.entryLba * blockSize d) (min (h.numEntries * h.entrySize) tableCap))
        h.entrySize h.numEntries =
      (List.range (min h.numEntries (tableCap / h.entrySize))).map (record d h) := by
  have harray : ∀ i < h.numEntries,
      i * h.entrySize + h.entrySize ≤ h.numEntries * h.entrySize := by
    intro i hi
    have hmul := Nat.mul_le_mul_right h.entrySize (show i + 1 ≤ h.numEntries from hi)
    rwa [Nat.add_mul, Nat.one_mul] at hmul
  unfold records
  rw [takeWhile_range (q := tableCap / h.entrySize)]
  · apply List.map_congr_left
    intro i hi
    have hlt : i < min h.numEntries (tableCap / h.entrySize) := List.mem_range.1 hi
    have := harray i (by omega)
    have := (lt_div_iff hsize).1 (show i < tableCap / h.entrySize by omega)
    rw [record, Medium.take_drop_bytes (by omega)]
  · intro i hi
    have := harray i hi
    rw [decide_eq_true_iff, Medium.length_bytes, lt_div_iff hsize]
    omega

lemma length_number (ps : List Partition) : (number ps).length = ps.length := by simp [number]

/-- Taking in the first `m` of `n` records loses no entry exactly if the others are empty. -/
lemma number_range_eq_iff {f : ℕ → Option Partition} {m n : ℕ} (hmn : m ≤ n) :
    number ((List.range m).filterMap f) = number ((List.range n).filterMap f) ↔
      ∀ i < n, f i ≠ none → i < m := by
  obtain ⟨r, rfl⟩ := Nat.exists_eq_add_of_le hmn
  rw [List.range_add, List.filterMap_append]
  constructor
  · intro heq i hi hne
    by_contra hge
    have hlen := congrArg List.length heq
    rw [length_number, length_number, List.length_append] at hlen
    have hnil : ((List.range r).map fun x => m + x).filterMap f = [] :=
      List.eq_nil_of_length_eq_zero (by omega)
    rw [List.filterMap_eq_nil_iff] at hnil
    refine hne (hnil i (List.mem_map.2 ⟨i - m, List.mem_range.2 (by omega), by omega⟩))
  · intro hall
    have hnil : ((List.range r).map fun x => m + x).filterMap f = [] := by
      apply List.filterMap_eq_nil_iff.2
      intro i hi
      obtain ⟨x, hx, rfl⟩ := List.mem_map.1 hi
      have hx' := List.mem_range.1 hx
      by_contra hne
      have := hall (m + x) (by omega) hne
      omega
    rw [hnil, List.append_nil]

/-- What is taken in of the array that a header declares. -/
lemma entries_readTable (d : Medium σ) (h : Header) (usedBackup : Bool) (notes : List String) :
    ((readTable (blockSize d) d.src.len h usedBackup notes).run d.reader).entries =
      if ¬ (128 ≤ h.entrySize ∧ h.entrySize ≤ 4096) ∨ h.numEntries = 0 ∨ 4096 < h.numEntries then []
      else number ((records (d.bytes (saturatingMul h.entryLba (blockSize d))
        (min (h.numEntries * h.entrySize) tableCap)) h.entrySize h.numEntries).filterMap
          (entryOf (blockSize d) d.src.len)) := by
  unfold readTable
  rw [ReadProg.run_ite]
  split
  · rfl
  · simp only [ReadProg.run_bind, Medium.run_bytes, ReadProg.run_pure]

/-- **The entries that are taken in** are all there are exactly if the array fits. -/
lemma entries_readTable_eq_iff (hv : h.FullyValid d) (usedBackup : Bool) (notes : List String) :
    ((readTable (blockSize d) d.src.len h usedBackup notes).run d.reader).entries = nonEmpty d h ↔
      h.Fits d := by
  have hsat : saturatingMul h.entryLba (blockSize d) = h.entryLba * blockSize d := by
    have := hv.inside
    have := d.src.len_le
    exact min_eq_left (by omega)
  rw [entries_readTable, hsat]
  split
  · rename_i hgate
    -- the geometry is refused, and nothing is taken in
    have hiff := number_range_eq_iff (f := entryAt d h) (Nat.zero_le h.numEntries)
    apply Iff.trans hiff
    constructor
    · intro hall i hi hne
      exact absurd (hall i hi hne) (Nat.not_lt_zero i)
    · intro hfits i hi hne
      have := hfits i hi hne
      omega
  · rename_i hgate
    push Not at hgate
    rw [records_bytes (by omega), List.filterMap_map]
    refine Iff.trans (number_range_eq_iff (min_le_left _ _)) (forall₂_congr fun i hi => ?_)
    rw [lt_min_iff, lt_div_iff (by omega)]
    apply imp_congr_right
    intro _
    omega

/-! ## The copy that is used -/

/-- `parse` settles on a header and makes something of it. -/
lemma run_parse (d : Medium σ) : (parse (blockSize d) d.src.len).run d.reader =
    (choose (Copy.primary.header d) (Copy.backup.header d)).map fun r =>
      (readTable (blockSize d) d.src.len r.1 r.2.1 r.2.2).run d.reader := by
  rw [parse, Copy.header, Copy.header, Copy.offset, Copy.offset]
  simp only [ReadProg.run_bind, Medium.run_bytes]
  cases choose (parseHeader (d.bytes (blockSize d) 512))
      (parseHeader (d.bytes (d.src.len - blockSize d) 512)) with
  | none => rfl
  | some r => simp only [ReadProg.run_bind, ReadProg.run_pure, Option.map_some]

/-- A primary header that passes is used. -/
lemma choose_primary {p : Header} {b : Option Header} (h : p.headerCrcOk = true) :
    choose (some p) b = some (p, false, []) := by
  rw [choose, if_pos h]

/-- A backup header that passes is used if the primary does not. -/
lemma choose_backup {p : Option Header} {b : Header} (h : b.headerCrcOk = true)
    (hp : ∀ x, p = some x → x.headerCrcOk = false) :
    choose p (some b) = some (b, true, ["primary GPT header CRC bad; used backup header"]) := by
  cases p with
  | none => rw [choose, if_pos h]
  | some p =>
    have hfilter : (some b).filter (·.headerCrcOk) = some b := Option.filter_some_pos h
    rw [choose, hp p rfl, hfilter]
    rfl

/-- If the header that is used is `h`, of the copy `c`, then all is right exactly if `h` is fully
valid and fits. -/
lemma rightCopy_of_choose {c : Copy} {usedBackup : Bool} {notes : List String} (s : σ)
    (hvalid : ∃ c : Copy, c.FullyValid d) (hc : c.header d = some h)
    (hchoose : choose (Copy.primary.header d) (Copy.backup.header d) = some (h, usedBackup, notes))
    (hcopy : (if usedBackup then Copy.backup else .primary) = c) :
    RightCopy d s ↔ h.FullyValid d ∧ h.Fits d := by
  have hused : used d = some c := by
    rw [used, hchoose, Option.map_some, hcopy]
  have hparsed : parsed d s =
      some ((readTable (blockSize d) d.src.len h usedBackup notes).run d.reader) := by
    rw [parsed, Medium.exec_eq, run_parse, hchoose, Option.map_some]
  constructor
  · intro hright
    obtain ⟨c', h', m, hc', hh', hv, hm, hentries⟩ := hright hvalid
    obtain rfl : c = c' := Option.some.inj (hused.symm.trans hc')
    obtain rfl : h = h' := Option.some.inj (hc.symm.trans hh')
    obtain rfl := Option.some.inj (hparsed.symm.trans hm)
    exact ⟨hv, (entries_readTable_eq_iff hv _ _).1 hentries⟩
  · rintro ⟨hv, hfits⟩ -
    exact ⟨c, h, _, hused, hc, hv, hparsed, (entries_readTable_eq_iff hv _ _).2 hfits⟩

/-- **Which copy is right.**  While one copy is fully valid, `parse` uses such a one and takes in
all its entries, exactly if the copies serve. -/
theorem rightCopy_iff (d : Medium σ) (s : σ) : RightCopy d s ↔ CopiesServe d := by
  by_cases hok : ∃ p, Copy.primary.header d = some p ∧ p.headerCrcOk = true
  · obtain ⟨p, hp, hok⟩ := hok
    have hchoose : choose (Copy.primary.header d) (Copy.backup.header d) = some (p, false, []) := by
      rw [hp, choose_primary hok]
    by_cases hvalid : ∃ c : Copy, c.FullyValid d
    · rw [rightCopy_of_choose s hvalid hp hchoose rfl]
      constructor
      · rintro ⟨hv, hfits⟩
        refine ⟨fun _ h hh _ => ?_, fun h hh _ => ?_, fun h _ _ hnot => ?_⟩
        · rwa [← Option.some.inj (hp.symm.trans hh)]
        · rwa [← Option.some.inj (hp.symm.trans hh)]
        · exact absurd hok (by simp [hnot p hp])
      · intro hserve
        have hv : p.FullyValid d := by
          obtain ⟨c, hc⟩ := hvalid
          cases c with
          | primary =>
            obtain ⟨p', hp', hv⟩ := hc
            rwa [Option.some.inj (hp.symm.trans hp')]
          | backup => exact hserve.honest hc p hp hok
        exact ⟨hv, hserve.primaryFits p hp hv⟩
    · exact iff_of_true (fun h => absurd h hvalid)
        ⟨fun h => absurd ⟨_, h⟩ hvalid, fun h hh hv => absurd ⟨_, h, hh, hv⟩ hvalid,
          fun h hh hv => absurd ⟨_, h, hh, hv⟩ hvalid⟩
  · -- the primary header does not pass
    have hnot : ∀ p, Copy.primary.header d = some p → p.headerCrcOk = false := fun p hp =>
      Bool.eq_false_iff.2 fun h => hok ⟨p, hp, h⟩
    have hprimary : ∀ h, Copy.primary.header d = some h → ¬ h.FullyValid d := fun h hh hv =>
      hok ⟨h, hh, hv.headerCrcOk⟩
    by_cases hvalid : ∃ c : Copy, c.FullyValid d
    · obtain ⟨b, hb, hv⟩ : Copy.backup.FullyValid d := by
        obtain ⟨c, h, hh, hv⟩ := hvalid
        cases c with
        | primary => exact absurd hv (hprimary h hh)
        | backup => exact ⟨h, hh, hv⟩
      have hchoose : choose (Copy.primary.header d) (Copy.backup.header d) =
          some (b, true, ["primary GPT header CRC bad; used backup header"]) := by
        rw [hb, choose_backup hv.headerCrcOk hnot]
      rw [rightCopy_of_choose s ⟨_, b, hb, hv⟩ hb hchoose rfl]
      constructor
      · rintro ⟨-, hfits⟩
        refine ⟨fun _ h hh hpass => absurd ⟨h, hh, hpass⟩ hok,
          fun h hh hvp => absurd hvp (hprimary h hh), fun h hh _ _ => ?_⟩
        rwa [← Option.some.inj (hb.symm.trans hh)]
      · exact fun hserve => ⟨hv, hserve.backupFits b hb hv hnot⟩
    · exact iff_of_true (fun h => absurd h hvalid)
        ⟨fun h => absurd ⟨_, h⟩ hvalid, fun h hh hv => absurd ⟨_, h, hh, hv⟩ hvalid,
          fun h hh hv => absurd ⟨_, h, hh, hv⟩ hvalid⟩

/-! ## A damaged primary array -/

/-- A number in `n` bytes, the lowest first. -/
def leBytes : ℕ → ℕ → Bytes
  | 0, _ => []
  | n + 1, v => UInt8.ofNat v :: leBytes n (v / 256)

/-- The header of an array of one entry. -/
def headerBytes (crc entryLba : ℕ) : Bytes :=
  sig ++ leBytes 4 0x10000 ++ leBytes 4 92 ++ leBytes 4 crc ++ List.replicate 52 0 ++
    leBytes 8 entryLba ++ leBytes 4 1 ++ leBytes 4 128 ++ leBytes 4 1861555601

/-- A disk of five sectors: the headers, an array that has lost its entry, and one that has it. -/
def damagedPrimary : Medium Unit :=
  Medium.ofSectors 2560 512 (fun
    | 1 => headerBytes 3905050556 2
    | 3 => List.replicate 16 7 ++ List.replicate 16 0 ++ leBytes 8 1 ++ leBytes 8 1
    | 4 => headerBytes 2376428794 3
    | _ => []) (by decide) sector512_le_u32Max sector512_pos

/-- The primary copy is used all the same, although the backup is fully valid. -/
theorem damagedPrimary_counterexample : ¬ ∀ (σ : Type) (d : Medium σ) (s : σ), RightCopy d s := by
  intro h
  have hvalid : Copy.backup.FullyValid damagedPrimary :=
    ⟨⟨3, 1, 128, 1861555601, true⟩, by decide +kernel, rfl, by decide +kernel, by decide +kernel⟩
  obtain ⟨c, hdr, m, hused, hhdr, hv, -, -⟩ := h Unit damagedPrimary () ⟨_, hvalid⟩
  have hprimary : used damagedPrimary = some .primary := by decide +kernel
  obtain rfl : .primary = c := Option.some.inj (hprimary.symm.trans hused)
  have hread : Copy.primary.header damagedPrimary = some ⟨2, 1, 128, 1861555601, true⟩ := by
    decide +kernel
  obtain rfl := Option.some.inj (hread.symm.trans hhdr)
  exact absurd hv.entriesCrc (by decide +kernel)

end Gpt

end Reclaim
