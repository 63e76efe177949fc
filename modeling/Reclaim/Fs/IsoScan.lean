import Reclaim.Fs.IsoTree

/-!
# Scans of ISO 9660 directories

The names of identifiers are read back, and a volume is opened as its descriptors say.  A scan of a
directory does for each record what it asks for (`scanDir_eq`): the padding of a sector is passed
over, and no record is cut.
-/

namespace Reclaim

open FileBytes
open PlainText (ascii)

namespace Iso

/-! ## Names -/

section Names

lemma bigEndianUnits_flatMap {us : List ℕ} (h : ∀ u ∈ us, u < 2 ^ 16) :
    bigEndianUnits (us.flatMap fun u => [UInt8.ofNat (u / 256), UInt8.ofNat (u % 256)]) = us := by
  induction us with
  | nil => rfl
  | cons u us ih =>
    obtain ⟨hu, hus⟩ := List.forall_mem_cons.1 h
    have hunit : (UInt8.ofNat (u / 256)).toNat * 256 + (UInt8.ofNat (u % 256)).toNat = u := by
      rw [UInt8.toNat_ofNat', UInt8.toNat_ofNat']
      omega
    rw [List.flatMap_cons, List.cons_append, List.singleton_append, bigEndianUnits, hunit, ih hus]

lemma lt_of_mem_utf16Encode {s : String} {u : ℕ} (hu : u ∈ Text.utf16Encode s) : u < 2 ^ 16 := by
  obtain ⟨c, -, hu⟩ := List.mem_flatMap.1 hu
  have hrange : c.toNat < 0xD800 ∨ (0xDFFF < c.toNat ∧ c.toNat < 0x110000) := c.valid
  rw [Text.utf16EncodeChar] at hu
  split at hu
  · rw [List.mem_singleton.1 hu]
    omega
  · simp only [List.mem_cons, List.not_mem_nil, or_false] at hu
    omega

/-- What is written as an identifier is read back, but for the version. -/
lemma decodeName_encodeName (iso : Iso) (s : String) (isDir : Bool) :
    iso.decodeName (encodeName iso.joliet s) isDir = stripVersion s isDir := by
  rw [decodeName, encodeName]
  split
  · rw [bigEndianUnits_flatMap fun u => lt_of_mem_utf16Encode, Text.fromUtf16Lossy_encode]
  · rw [Text.fromUtf8Lossy_toUTF8]

/-- The version and the dot before it are stripped. -/
lemma stripVersion_append {name dot version : String} (hname : ';' ∉ name.toList)
    (hlast : name.toList.getLast? ≠ some '.') (hdot : dot = "" ∨ dot = ".")
    (hversion : version = "" ∨ ∃ v, version = ";" ++ v) :
    stripVersion (name ++ dot ++ version) false = name := by
  have hdots : ∀ c ∈ dot.toList, c ≠ ';' := by
    rcases hdot with rfl | rfl
    · simp
    · simp
  have hbase : (name ++ dot ++ version).toList.takeWhile (· ≠ ';') = (name ++ dot).toList := by
    have hall : ∀ c ∈ (name ++ dot).toList, decide (c ≠ ';') = true := by
      intro c hc
      rw [String.toList_append] at hc
      rcases List.mem_append.1 hc with hc | hc
      · exact decide_eq_true fun h => hname (h ▸ hc)
      · exact decide_eq_true (hdots c hc)
    rw [String.toList_append, List.takeWhile_append_of_pos hall]
    rcases hversion with rfl | ⟨v, rfl⟩
    · simp
    · simp
  rw [stripVersion, if_neg Bool.false_ne_true, hbase]
  dsimp only
  rcases hdot with rfl | rfl
  · rw [String.append_empty, if_neg hlast, String.ofList_toList]
  · rw [String.toList_append, if_pos (by simp)]
    simp

/-- **The name is read back** from an identifier. -/
lemma Identifies.decodeName {iso : Iso} {isDir : Bool} {raw : Bytes} {name : String}
    (h : Identifies iso.joliet isDir raw name) : iso.decodeName raw isDir = name := by
  cases isDir with
  | true => rw [h.dir rfl, decodeName_encodeName, stripVersion, if_pos rfl]
  | false =>
    obtain ⟨hname, hlast, dot, version, hdot, hversion, rfl⟩ := h.file rfl
    rw [decodeName_encodeName, stripVersion_append hname hlast hdot hversion]

end Names

/-! ## Opening -/

namespace Image

variable {img : Image} {e : ℕ}

/-- The descriptors before the terminator. -/
def descriptors (img : Image) (e : ℕ) : List Bytes := (List.range' 0 e).map (descriptor img.vol)

lemma mem_descriptors {vd : Bytes} :
    vd ∈ img.descriptors e ↔ ∃ i < e, descriptor img.vol i = vd := by
  simp only [descriptors, List.mem_map, List.mem_range'_1, Nat.zero_le, true_and, Nat.zero_add]

lemma rootRecord_eq {vd : Bytes} (h : getRange vd 156 34 = some img.root.bytes) :
    rootRecord vd = (img.root.extent, img.root.dataLength) := by
  rw [rootRecord, h, Option.getD_some]
  rfl

lemma Described.blockSize_foldl (h : img.Described e) (hblock : sector ≤ img.blockSize) :
    ((img.descriptors e).foldl Descriptors.take .start).blockSize = img.blockSize := by
  refine foldl_of_writes Descriptors.blockSize (fun vd => byteAt vd 0 = 1)
    (fun d vd hvd => Descriptors.blockSize_take hvd) ?_ ?_
  · intro d vd hvd hone
    obtain ⟨i, hi, rfl⟩ := mem_descriptors.1 hvd
    rw [Descriptors.take, if_pos hone]
    exact (congrArg (max · sector) (h.blockSize i hi hone)).trans (max_eq_left hblock)
  · obtain ⟨i, hi, hone⟩ := h.primary
    exact .inr ⟨_, mem_descriptors.2 ⟨i, hi, rfl⟩, hone⟩

lemma Described.pvdRoot_foldl (h : img.Described e) (hj : ¬ img.joliet = true) :
    ((img.descriptors e).foldl Descriptors.take .start).pvdRoot =
      some (img.root.extent, img.root.dataLength) := by
  refine foldl_of_writes Descriptors.pvdRoot (fun vd => byteAt vd 0 = 1)
    (fun d vd hvd => Descriptors.pvdRoot_take hvd) ?_ ?_
  · intro d vd hvd hone
    obtain ⟨i, hi, rfl⟩ := mem_descriptors.1 hvd
    rw [Descriptors.take, if_pos hone]
    exact congrArg some (rootRecord_eq (h.root i hi (by rwa [if_neg hj])))
  · obtain ⟨i, hi, hone⟩ := h.primary
    exact .inr ⟨_, mem_descriptors.2 ⟨i, hi, rfl⟩, hone⟩

lemma Described.jolietRoot_foldl (h : img.Described e) :
    ((img.descriptors e).foldl Descriptors.take .start).jolietRoot =
      if img.joliet = true then some (img.root.extent, img.root.dataLength) else none := by
  refine foldl_of_writes Descriptors.jolietRoot (fun vd => byteAt vd 0 = 2 ∧ isJoliet vd = true)
    (fun d vd hvd => Descriptors.jolietRoot_take hvd) ?_ ?_
  · intro d vd hvd htwo
    obtain ⟨i, hi, rfl⟩ := mem_descriptors.1 hvd
    have hj := h.joliet.2 ⟨i, hi, htwo⟩
    rw [Descriptors.jolietRoot_take_joliet htwo, if_pos hj]
    exact congrArg some (rootRecord_eq (h.root i hi (by rwa [if_pos hj])))
  · split
    · rename_i hj
      obtain ⟨i, hi, htwo⟩ := h.joliet.1 hj
      exact .inr ⟨_, mem_descriptors.2 ⟨i, hi, rfl⟩, htwo⟩
    · exact .inl rfl

/-- **The volume is opened** as its descriptors say. -/
lemma Described.openVolume (h : img.Described e) (hcap : e < 32) (hblock : sector ≤ img.blockSize)
    (hroot : img.root.extent ≠ 0) :
    openVolume img.vol = .ok
      ⟨img.vol, img.blockSize, img.root.extent, img.root.dataLength, img.joliet, hblock⟩ := by
  have hsig : img.vol.read (vdStartSector * sector + 1) 5 = ascii "CD001" := by
    have hzero := h.standard 0 (Nat.zero_le e)
    rwa [descriptor, Volume.getRange_read _ (by decide), Option.some_inj] at hzero
  have hscan : scanDescriptors img.vol 32 0 .start =
      (img.descriptors e).foldl Descriptors.take .start :=
    scanDescriptors_eq (Nat.zero_le e) (by omega) h.standard h.before h.terminator .start
  have hsize := h.blockSize_foldl hblock
  have hroots : ((((img.descriptors e).foldl Descriptors.take .start).jolietRoot.map (true, ·)).or
      (((img.descriptors e).foldl Descriptors.take .start).pvdRoot.map (false, ·))) =
      some (img.joliet, img.root.extent, img.root.dataLength) := by
    rw [h.jolietRoot_foldl]
    by_cases hj : img.joliet = true
    · rw [if_pos hj, hj]
      rfl
    · rw [if_neg hj, h.pvdRoot_foldl hj, Bool.eq_false_iff.2 hj]
      rfl
  rw [Iso.openVolume, if_neg (not_not_intro hsig)]
  simp only [hscan, hroots]
  rw [if_neg hroot]
  simp only [hsize]

end Image

/-! ## The records of a directory -/

/-- What the scan does for a record. -/
def visitRecord (iso : Iso) (path : String) (s : Walked × List SubDir) (r : DirRecord) :
    Walked × List SubDir :=
  if r.name = [0] ∨ r.name = [1] then s
  else
    let name := iso.decodeName r.name r.isDir
    if name = "" then s
    else
      (iso.emitRecord r.isDir name (childPath path name) r.extent r.dataLength s.1,
        if r.isDir = true ∧ r.extent ≠ 0 ∧ r.dataLength ≠ 0 then
          s.2 ++ [⟨r.extent, r.dataLength, childPath path name⟩]
        else s.2)

namespace DirRecord

lemma length_pos (r : DirRecord) : 33 ≤ r.bytes.length := (Nat.le_add_right _ _).trans r.name_fits

lemma length_name (r : DirRecord) : r.name.length = (byteAt r.bytes 32).toNat := by
  have hfits := r.name_fits
  rw [name, List.length_take, List.length_drop]
  omega

lemma getRange_name (r : DirRecord) :
    (getRange r.bytes 33 (byteAt r.bytes 32).toNat).getD [] = r.name := by
  rw [getRange, if_pos r.name_fits, Option.getD_some, name]

end DirRecord

section Scan

variable {iso : Iso} {opts : WalkOpts} {path : String} {data rest : Bytes} {guard pos : ℕ}
  {s : Walked × List SubDir} {r : DirRecord} {rs : List DirRecord}

lemma emitted_le_visitRecord (s : Walked × List SubDir) (r : DirRecord) :
    s.1.stats.emitted ≤ (iso.visitRecord path s r).1.stats.emitted := by
  rw [visitRecord]
  split
  · exact le_rfl
  · dsimp only
    split
    · exact le_rfl
    · dsimp only
      rw [emitRecord]
      split
      · exact le_rfl
      · exact Nat.le_succ _

lemma emitted_le_foldl (rs : List DirRecord) (s : Walked × List SubDir) :
    s.1.stats.emitted ≤ (rs.foldl (iso.visitRecord path) s).1.stats.emitted := by
  induction rs generalizing s with
  | nil => exact le_rfl
  | cons r rs ih => exact (emitted_le_visitRecord s r).trans (ih _)

lemma scanDir_end (h : data.length ≤ pos) :
    iso.scanDir opts data path guard pos s.2 s.1 = s := by
  cases guard with
  | zero => rfl
  | succ guard => rw [scanDir, if_neg (not_lt.2 h)]

/-- A record, if there is room for what it asks for. -/
lemma scanDir_record (hdata : data.drop pos = r.bytes ++ rest)
    (hroom : (iso.visitRecord path s r).1.stats.emitted < min opts.maxEntries maxEntries) :
    iso.scanDir opts data path (guard + 1) pos s.2 s.1 =
      iso.scanDir opts data path guard (pos + r.bytes.length) (iso.visitRecord path s r).2
        (iso.visitRecord path s r).1 := by
  have hlen := congrArg List.length hdata
  rw [List.length_drop, List.length_append] at hlen
  have hpos := r.length_pos
  have hfirst : (byteAt data pos).toNat = r.bytes.length := by
    have hzero := byteAt_drop data pos 0
    rw [hdata, byteAt_append, if_pos (by omega), Nat.add_zero] at hzero
    rw [← hzero, r.length_bytes]
  have hrecord : (data.drop pos).take r.bytes.length = r.bytes := by
    rw [hdata, List.take_left]
  rw [scanDir, if_pos (by omega)]
  simp only [hfirst, hrecord, r.getRange_name]
  rw [if_neg (by omega), if_neg (by omega)]
  rw [visitRecord] at hroom ⊢
  by_cases hself : r.name = [0] ∨ r.name = [1]
  · have hone : (byteAt r.bytes 32).toNat = 1 := by
      rw [← r.length_name]
      rcases hself with h | h <;> rw [h] <;> rfl
    rw [if_pos hself, if_pos ⟨hone, hself⟩]
  · rw [if_neg hself] at hroom ⊢
    rw [if_neg fun h => hself h.2]
    change (if iso.decodeName r.name r.isDir = "" then _ else _) = _
    dsimp only at hroom ⊢
    split
    · rfl
    · rename_i hname
      rw [if_neg hname] at hroom
      exact if_neg (not_le.2 hroom)

lemma scanDir_records (hdata : data.drop pos = rs.flatMap DirRecord.bytes ++ rest)
    (hroom : (rs.foldl (iso.visitRecord path) s).1.stats.emitted <
      min opts.maxEntries maxEntries) :
    iso.scanDir opts data path (guard + rs.length) pos s.2 s.1 =
      iso.scanDir opts data path guard (pos + (rs.flatMap DirRecord.bytes).length)
        (rs.foldl (iso.visitRecord path) s).2 (rs.foldl (iso.visitRecord path) s).1 := by
  induction rs generalizing pos s with
  | nil => rfl
  | cons r rs ih =>
    rw [List.flatMap_cons, List.append_assoc] at hdata
    have hnext : data.drop (pos + r.bytes.length) = rs.flatMap DirRecord.bytes ++ rest := by
      rw [← List.drop_drop, hdata, List.drop_left]
    have hfirst := (emitted_le_foldl rs (iso.visitRecord path s r)).trans_lt hroom
    rw [List.length_cons, ← Nat.add_assoc, scanDir_record hdata hfirst, ih hnext hroom,
      List.flatMap_cons, List.length_append, Nat.add_assoc, List.foldl_cons]

/-- The zeros at the end of a sector. -/
lemma scanDir_padding {z : ℕ} (hdata : data.drop pos = List.replicate z 0 ++ rest) (hz : 0 < z)
    (hle : z ≤ iso.blockSize) (hdvd : iso.blockSize ∣ pos + z) :
    iso.scanDir opts data path (guard + 1) pos s.2 s.1 =
      iso.scanDir opts data path guard (pos + z) s.2 s.1 := by
  have hlen := congrArg List.length hdata
  rw [List.length_drop, List.length_append, List.length_replicate] at hlen
  have hzero : byteAt data pos = 0 := by
    have hfirst := byteAt_drop data pos 0
    rw [hdata, byteAt_append, if_pos (by rwa [List.length_replicate]), Nat.add_zero,
      byteAt_replicate_zero] at hfirst
    exact hfirst.symm
  have hnext : (pos / iso.blockSize + 1) * iso.blockSize = pos + z := by
    obtain ⟨k, hk⟩ := hdvd
    obtain ⟨j, rfl⟩ : ∃ j, k = j + 1 := ⟨k - 1, by
      cases k with
      | zero => omega
      | succ k => rfl⟩
    have hmul : iso.blockSize * (j + 1) = iso.blockSize * j + iso.blockSize := Nat.mul_succ _ _
    have hdiv : pos / iso.blockSize = j := by
      refine Nat.div_eq_of_lt_le ?_ ?_
      · rw [Nat.mul_comm]
        omega
      · rw [Nat.mul_comm]
        omega
    rw [hdiv, hk, Nat.mul_comm]
  rw [scanDir, if_pos (by omega)]
  simp only [hzero]
  rw [if_pos (by rfl), hnext]

lemma length_sectorBytes {b : ℕ} (h : (rs.flatMap DirRecord.bytes).length ≤ b) :
    (sectorBytes b rs).length = b := by
  rw [sectorBytes, List.length_append, List.length_replicate]
  omega

/-- **A scan of a directory** does for each record what it asks for. -/
lemma scanDir_eq {sectors : List (List DirRecord)}
    (hfits : ∀ rs ∈ sectors, (rs.flatMap DirRecord.bytes).length ≤ iso.blockSize)
    (hdata : data.drop pos = dirBytes iso.blockSize sectors) (hpos : iso.blockSize ∣ pos)
    (hguard : sectors.flatten.length + sectors.length ≤ guard)
    (hroom : (sectors.flatten.foldl (iso.visitRecord path) s).1.stats.emitted <
      min opts.maxEntries maxEntries) :
    iso.scanDir opts data path guard pos s.2 s.1 =
      sectors.flatten.foldl (iso.visitRecord path) s := by
  induction sectors generalizing pos guard s with
  | nil => exact scanDir_end (List.drop_eq_nil_iff.1 hdata)
  | cons rs sectors ih =>
    obtain ⟨hfit, hfits⟩ := List.forall_mem_cons.1 hfits
    have hsector := length_sectorBytes hfit
    rw [List.flatten_cons, List.length_append, List.length_cons] at hguard
    rw [List.flatten_cons, List.foldl_append] at hroom ⊢
    obtain ⟨g, rfl⟩ := Nat.exists_eq_add_of_le' (show rs.length ≤ guard by omega)
    have hend : data.drop (pos + iso.blockSize) = dirBytes iso.blockSize sectors := by
      rw [← List.drop_drop, hdata, dirBytes, List.flatMap_cons, List.drop_left' hsector, dirBytes]
    have hdvd : iso.blockSize ∣ pos + iso.blockSize := Dvd.dvd.add hpos (dvd_refl _)
    rw [dirBytes, List.flatMap_cons, sectorBytes, List.append_assoc] at hdata
    rw [scanDir_records hdata ((emitted_le_foldl _ _).trans_lt hroom)]
    rcases hfit.eq_or_lt with hfull | hpart
    · rw [hfull]
      exact ih hfits hend hdvd (by omega) hroom
    · obtain ⟨g, rfl⟩ : ∃ k, g = k + 1 := ⟨g - 1, by omega⟩
      have hzeros : data.drop (pos + (rs.flatMap DirRecord.bytes).length) =
          List.replicate (iso.blockSize - (rs.flatMap DirRecord.bytes).length) 0 ++
            dirBytes iso.blockSize sectors := by
        rw [← List.drop_drop, hdata, List.drop_left, dirBytes]
      have hnext : pos + (rs.flatMap DirRecord.bytes).length +
          (iso.blockSize - (rs.flatMap DirRecord.bytes).length) = pos + iso.blockSize := by omega
      rw [scanDir_padding hzeros (by omega) (Nat.sub_le _ _) (by rwa [hnext]), hnext]
      exact ih hfits hend hdvd (by omega) hroom

end Scan

/-! ## The files of a directory -/

/-- The path of a directory, with a slash at the end. -/
def base (path : String) : String := if path = "" then "" else path ++ "/"

lemma childPath_eq (path name : String) : childPath path name = base path ++ name := by
  rw [childPath, base]
  split
  · rw [String.empty_append]
  · rfl

lemma base_childPath (path : String) {name : String} (h : name ≠ "") :
    base (childPath path name) = base path ++ name ++ "/" := by
  have hne : childPath path name ≠ "" := by
    rw [childPath_eq]
    exact fun hempty => h (String.append_eq_empty_iff.1 hempty).2
  rw [base, if_neg hne, childPath_eq]

/-- The directories of a listing to descend into. -/
def Listing.subDirs (path : String) : Listing → List SubDir
  | nil => []
  | file _ _ rest => rest.subDirs path
  | dir r name _ rest => ⟨r.extent, r.dataLength, childPath path name⟩ :: rest.subDirs path

section Files

variable {iso : Iso} {opts : WalkOpts} {path : String} {l : Listing}

/-- An extent begins where no multiplication saturates. -/
lemma saturatingMul_extent (hsize : iso.blockSize < 2 ^ 16) (r : DirRecord) :
    saturatingMul r.extent iso.blockSize = r.extent * iso.blockSize := by
  have hlt : r.extent * iso.blockSize < 2 ^ 32 * 2 ^ 16 :=
    Nat.mul_lt_mul'' (leU32_lt r.bytes 2) hsize
  exact min_eq_left (hlt.le.trans (by decide))

/-- The entry of a file that is where the standard has it. -/
lemma fileEntry_eq (hsize : iso.blockSize < 2 ^ 16) {r : DirRecord}
    (h : r.dataLength ≠ 0 → r.extent ≠ 0) (name path : String) :
    iso.fileEntry name path r.extent r.dataLength =
      (FilePlace.mk path name r).entry iso.blockSize := by
  rw [fileEntry, FilePlace.entry, saturatingMul_extent hsize]
  by_cases hlen : r.dataLength = 0
  · rw [if_neg fun hboth => hboth.2 hlen, if_pos hlen]
  · rw [if_pos ⟨h hlen, hlen⟩, if_neg hlen]

/-- A record with a name. -/
lemma visitRecord_eq {isDir : Bool} {name : String} {r : DirRecord}
    (hname : Identifies iso.joliet isDir r.name name) (hdir : r.isDir = isDir)
    (s : Walked × List SubDir) :
    iso.visitRecord path s r =
      (iso.emitRecord isDir name (childPath path name) r.extent r.dataLength s.1,
        if isDir = true ∧ r.extent ≠ 0 ∧ r.dataLength ≠ 0 then
          s.2 ++ [⟨r.extent, r.dataLength, childPath path name⟩]
        else s.2) := by
  rw [visitRecord, if_neg (not_or.2 ⟨hname.not_self, hname.not_parent⟩), hdir]
  simp only [hname.decodeName]
  rw [if_neg hname.name_ne]

/-- A directory is not empty. -/
lemma Lists.dataLength_ne {v : Volume} {b : ℕ} {d : DirRecord} {rs : List DirRecord}
    (h : Lists v b d rs) : d.dataLength ≠ 0 := by
  obtain ⟨self, parent, sectors, -, -, hflat, hfits, hdata⟩ := h
  intro hzero
  have hlen := congrArg List.length hdata
  rw [DirRecord.content, Volume.length_read, hzero] at hlen
  have hempty := List.length_eq_zero_iff.1 hlen.symm
  have hmem : self ∈ sectors.flatten := by
    rw [hflat]
    exact List.mem_cons_self
  obtain ⟨s, hs, hself⟩ := List.mem_flatten.1 hmem
  have hsector := List.flatMap_eq_nil_iff.1 hempty s hs
  have hbytes := List.flatMap_eq_nil_iff.1 (List.append_eq_nil_iff.1 hsector).1 self hself
  have hpos := self.length_pos
  rw [hbytes] at hpos
  exact absurd hpos (by decide)

/-- **The records of a listing** ask for its files to be emitted and its directories to be kept. -/
lemma foldl_visitRecord (hsize : iso.blockSize < 2 ^ 16)
    (hl : l.Recorded iso.vol iso.blockSize iso.joliet) (hne : ∀ d ∈ l.dirs, d.extent ≠ 0)
    (s : Walked × List SubDir) :
    l.records.foldl (iso.visitRecord path) s =
      (s.1.emitAll ((l.here (base path)).map (FilePlace.entry iso.blockSize)),
        s.2 ++ l.subDirs path) := by
  induction l generalizing s with
  | nil => exact Prod.ext rfl (List.append_nil _).symm
  | file r name rest ih =>
    obtain ⟨hname, hdir, hextent, hrest⟩ := hl
    rw [Listing.records, List.foldl_cons, visitRecord_eq hname hdir, ih hrest hne, Listing.here,
      List.map_cons, Walked.emitAll_cons, ← childPath_eq, ← fileEntry_eq hsize hextent]
    rfl
  | dir r name content rest _ ih =>
    obtain ⟨hname, hdir, hlists, -, hrest⟩ := hl
    have hr := hne r List.mem_cons_self
    have hlater : ∀ d ∈ rest.dirs, d.extent ≠ 0 := fun d hd =>
      hne d (List.mem_append_right _ hd)
    rw [Listing.records, List.foldl_cons, visitRecord_eq hname hdir, ih hrest hlater, Listing.here,
      if_pos ⟨rfl, hr, hlists.dataLength_ne⟩, Listing.subDirs, List.append_assoc,
      List.singleton_append]
    rfl

end Files

end Iso

end Reclaim
