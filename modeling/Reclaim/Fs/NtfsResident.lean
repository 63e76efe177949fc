import Reclaim.Fs.NtfsRecord

/-!
# Resident data on disk

A small file is kept in its record.  The walk points the extent of such a file at the record on the
volume, where a recovery reads it, but the content was located in the fixed-up copy.  The two differ
at the stride ends, where the volume has the sequence number.

`content_iff` says exactly when the extent holds the content: at every stride end in it, the volume
happens to have what the array has.
-/

namespace Reclaim

open FileBytes Ntfs

/-- An opened NTFS volume. -/
structure Ntfs where
  vol : Volume
  clusterSize : ℕ
  mftRecordSize : ℕ
  totalBytes : ℕ
  /-- The extents of the master file table. -/
  mftExtents : List Extent

namespace Ntfs

/-- The offset that `logical` has in a list of extents, of which `acc` bytes lie before. -/
def offsetIn (logical : ℕ) : List Extent → ℕ → Option ℕ
  | [], _ => none
  | e :: es, acc =>
    if logical < saturatingAdd acc e.len then some (saturatingAdd e.offset (logical - acc))
    else offsetIn logical es (saturatingAdd acc e.len)

variable (fs : Ntfs)

/-- `record_offset`. -/
def recordOffset (n : ℕ) : Option ℕ :=
  offsetIn (saturatingMul n fs.mftRecordSize) fs.mftExtents 0

/-- `read_record_at`. -/
def readRecordAt (off : ℕ) : Option Bytes :=
  let b := fs.vol.read off fs.mftRecordSize
  if b.take 4 = fileMagic then some b else none

/-- A record with a name, as the first pass keeps it. -/
structure FileRecord where
  recNo : ℕ
  parent : ℕ
  raw : Raw

/-- `to_raw` of a parsed record. -/
def fileRecord (recNo : ℕ) (p : MftRecord) : Option FileRecord :=
  p.bestFileName.map fun f =>
    { recNo := recNo
      parent := f.parent
      raw := toRaw fs.clusterSize f.name p.isDirectory p.inUse p.created p.modified
        (((fs.recordOffset recNo).map (· + p.residentDataOffset.getD 0)).getD 0)
        (p.unnamedData.map Attr.data) }

/-! ## What the fix-up changes -/

/-- The strides that the fix-up restores. -/
def restored (b : Bytes) : List ℕ :=
  if leU16 b 6 < 2 ∨ b.length < leU16 b 4 + leU16 b 6 * 2 then [] else strides b

/-- The byte that the array has for byte `i` of the end of stride `k`, when the strides before it
have been restored. -/
def arrayByte (b : Bytes) (k i : ℕ) : UInt8 :=
  byteAt ((List.range k).foldl (restoreStride (leU16 b 4)) b) (leU16 b 4 + 2 + k * 2 + i)

lemma applyFixup_eq (b : Bytes) :
    applyFixup b = (restored b).foldl (restoreStride (leU16 b 4)) b := by
  unfold applyFixup restored
  split
  · rfl
  · rfl

/-- The strides are restored from the first one on, without a gap, and lie in the record. -/
lemma restored_eq_range (b : Bytes) :
    ∃ m, restored b = List.range m ∧ ∀ k < m, k * 512 + 512 ≤ b.length := by
  unfold restored
  split
  · exact ⟨0, rfl, fun k hk => absurd hk (Nat.not_lt_zero k)⟩
  · have hprefix : strides b <+: List.range (leU16 b 6 - 1) := List.takeWhile_prefix _
    have htake := List.prefix_iff_eq_take.1 hprefix
    rw [List.take_range] at htake
    refine ⟨_, htake, fun k hk => ?_⟩
    have hmem : k ∈ strides b := by
      rw [htake]
      exact List.mem_range.2 hk
    have hall := List.mem_takeWhile_imp hmem
    exact (of_decide_eq_true hall).1

@[simp] lemma length_restoreStride (usaOff : ℕ) (b : Bytes) (k : ℕ) :
    (restoreStride usaOff b k).length = b.length := by simp [restoreStride]

@[simp] lemma length_foldl_restoreStride (usaOff : ℕ) (l : List ℕ) (b : Bytes) :
    (l.foldl (restoreStride usaOff) b).length = b.length := by
  induction l generalizing b with
  | nil => rfl
  | cons k l ih => rw [List.foldl_cons, ih, length_restoreStride]

@[simp] lemma length_applyFixup (b : Bytes) : (applyFixup b).length = b.length := by
  rw [applyFixup_eq, length_foldl_restoreStride]

lemma byteAt_set (b : Bytes) {i : ℕ} (hi : i < b.length) (v : UInt8) (p : ℕ) :
    byteAt (b.set i v) p = if p = i then v else byteAt b p := by
  unfold byteAt
  rw [List.getD_eq_getElem?_getD, List.getD_eq_getElem?_getD, List.getElem?_set]
  by_cases hp : i = p
  · subst hp
    rw [if_pos rfl, if_pos hi, if_pos rfl, Option.getD_some]
  · rw [if_neg hp, if_neg (Ne.symm hp)]

/-- Restoring a stride changes its last two bytes. -/
lemma byteAt_restoreStride (usaOff : ℕ) {b : Bytes} {k : ℕ} (hk : k * 512 + 512 ≤ b.length)
    (p : ℕ) : byteAt (restoreStride usaOff b k) p =
      if p = k * 512 + 511 then byteAt b (usaOff + 3 + k * 2)
      else if p = k * 512 + 510 then byteAt b (usaOff + 2 + k * 2)
      else byteAt b p := by
  unfold restoreStride
  rw [byteAt_set _ (by rw [List.length_set]; omega), byteAt_set b (by omega)]

/-- A byte of the fixed-up record: at the end of a restored stride that of the array, else the one
on disk. -/
lemma byteAt_foldl_restoreStride (b : Bytes) (m : ℕ) (hm : ∀ k < m, k * 512 + 512 ≤ b.length) :
    (∀ k < m, ∀ i < 2, byteAt ((List.range m).foldl (restoreStride (leU16 b 4)) b)
      (k * 512 + 510 + i) = arrayByte b k i) ∧
    ∀ p, (∀ k < m, ∀ i < 2, p ≠ k * 512 + 510 + i) →
      byteAt ((List.range m).foldl (restoreStride (leU16 b 4)) b) p = byteAt b p := by
  induction m with
  | zero => exact ⟨fun k hk => absurd hk (Nat.not_lt_zero k), fun p _ => rfl⟩
  | succ m ih =>
    obtain ⟨hends, hrest⟩ := ih fun k hk => hm k (by omega)
    have hlen : m * 512 + 512 ≤
        ((List.range m).foldl (restoreStride (leU16 b 4)) b).length := by
      rw [length_foldl_restoreStride]
      exact hm m (by omega)
    rw [List.range_succ, List.foldl_append, List.foldl_cons, List.foldl_nil]
    refine ⟨fun k hk i hi => ?_, fun p hp => ?_⟩
    · rw [byteAt_restoreStride _ hlen]
      rcases Nat.lt_succ_iff_lt_or_eq.1 hk with hlt | rfl
      · rw [if_neg (by omega), if_neg (by omega)]
        exact hends k hlt i hi
      · unfold arrayByte
        rcases Nat.lt_succ_iff_lt_or_eq.1 hi with hi | rfl
        · obtain rfl : i = 0 := by omega
          rw [if_neg (by omega), if_pos rfl]
          rfl
        · rw [if_pos rfl]
          congr 1
          omega
    · have h0 := hp m (by omega) 0 (by omega)
      have h1 := hp m (by omega) 1 (by omega)
      rw [byteAt_restoreStride _ hlen, if_neg h1, if_neg h0]
      exact hrest p fun k hk => hp k (by omega)

/-! ## Content in the record -/

/-- The content of a resident attribute lies in the record. -/
lemma fits_of_mem_readAttrs {b : Bytes} {attr : Attr} (guard : ℕ) :
    ∀ a, attr ∈ readAttrs b guard a → attr.resident = true →
      attr.realSize = attr.contentLen ∧
        (attr.contentLen = 0 ∨ attr.contentOff + attr.contentLen ≤ b.length) := by
  induction guard with
  | zero => exact fun a h => absurd h List.not_mem_nil
  | succ guard ih =>
    intro a h hres
    unfold readAttrs at h
    dsimp only at h
    split at h
    · exact absurd h List.not_mem_nil
    · rcases List.mem_cons.1 h with rfl | h
      · unfold readAttr at hres ⊢
        dsimp only at hres ⊢
        have hplain : ¬ byteAt b (a + 8) ≠ 0 := by simpa using hres
        simp only [if_neg hplain, true_and]
        split
        · exact .inr (by omega)
        · exact .inl rfl
      · exact ih _ h hres

lemma attrs_of_parse {buf : Bytes} {p : MftRecord} (h : MftRecord.parse buf = some p) :
    p.attrs = readAttrs (applyFixup buf) 1024 (leU16 (applyFixup buf) 20) := by
  unfold MftRecord.parse at h
  split at h
  · rw [← Option.some.inj h]
  · exact absurd h (by simp)

/-- The first element with two properties is the first with one of them, if that has the other. -/
lemma find?_and {α : Type} {p q : α → Bool} {l : List α} {a : α} (h : l.find? p = some a)
    (hq : q a = true) : (l.find? fun x => p x && q x) = some a := by
  obtain ⟨hp, as, bs, rfl, has⟩ := List.find?_eq_some_iff_append.1 h
  refine List.find?_eq_some_iff_append.2 ⟨by rw [hp, hq]; rfl, as, bs, rfl, fun x hx => ?_⟩
  have hx' := has x hx
  rw [Bool.not_eq_true'] at hx' ⊢
  rw [hx', Bool.false_and]

/-- A file whose data is resident in its record: where the record lies, what was read of it, and
what the first pass keeps. -/
structure ResidentFile where
  fs : Ntfs
  recNo : ℕ
  off : ℕ
  buf : Bytes
  record : MftRecord
  attr : Attr
  file : FileRecord
  recordOffset : fs.recordOffset recNo = some off
  readRecordAt : fs.readRecordAt off = some buf
  parse : MftRecord.parse buf = some record
  unnamedData : record.unnamedData = some attr
  resident : attr.resident = true
  fileRecord : fs.fileRecord recNo record = some file

namespace ResidentFile

variable (r : ResidentFile)

/-- The content of the file, after the fix-up. -/
def content : Bytes := r.attr.residentData (applyFixup r.buf)

/-- The bytes that the volume has at the extents of the file's entry. -/
def found : Bytes := r.file.raw.extents.flatMap fun e => r.fs.vol.read e.offset e.len

/-- A byte of the record is in the content. -/
def Covers (p : ℕ) : Prop := r.attr.contentOff ≤ p ∧ p < r.attr.contentOff + r.attr.contentLen

variable {r}

lemma buf_eq (r : ResidentFile) : r.buf = r.fs.vol.read r.off r.fs.mftRecordSize := by
  have h := r.readRecordAt
  unfold Ntfs.readRecordAt at h
  dsimp only at h
  split at h
  · exact (Option.some.inj h).symm
  · exact absurd h (by simp)

lemma fits (r : ResidentFile) : r.attr.realSize = r.attr.contentLen ∧
    (r.attr.contentLen = 0 ∨ r.attr.contentOff + r.attr.contentLen ≤ r.buf.length) := by
  have hmem : r.attr ∈ r.record.attrs := List.mem_of_find?_eq_some r.unnamedData
  rw [attrs_of_parse r.parse] at hmem
  have hfits := fits_of_mem_readAttrs 1024 _ hmem r.resident
  rwa [length_applyFixup] at hfits

/-- The entry's extent is the place of the content in the record on disk. -/
lemma extents_eq (r : ResidentFile) : r.file.raw.extents =
    if 0 < r.attr.contentLen then [⟨r.off + r.attr.contentOff, r.attr.contentLen⟩] else [] := by
  obtain ⟨f, -, hfile⟩ := Option.map_eq_some_iff.1 r.fileRecord
  have hoffset : r.record.residentDataOffset = some r.attr.contentOff := by
    unfold MftRecord.residentDataOffset
    rw [find?_and r.unnamedData r.resident]
    rfl
  rw [← hfile]
  simp only [toRaw, r.unnamedData, Option.map_some, Attr.data, r.resident, if_true, r.recordOffset,
    hoffset, Option.getD_some, r.fits.1]

/-- What the volume has at the extent is the record as it is on disk. -/
lemma found_eq (r : ResidentFile) : r.found =
    (List.range r.attr.contentLen).map fun i => byteAt r.buf (r.attr.contentOff + i) := by
  unfold found
  rw [extents_eq]
  split
  · rename_i hpos
    rw [List.flatMap_cons, List.flatMap_nil, List.append_nil]
    apply List.map_congr_left
    intro i hi
    have hfit : r.attr.contentOff + r.attr.contentLen ≤ r.buf.length := by
      rcases r.fits.2 with h | h
      · omega
      · exact h
    have hlen : r.buf.length = r.fs.mftRecordSize := by rw [r.buf_eq, Volume.length_read]
    have hi' : i < r.attr.contentLen := List.mem_range.1 hi
    rw [r.buf_eq, Volume.byteAt_read _ _ (by omega), Nat.add_assoc]
  · rename_i hzero
    rw [Nat.eq_zero_of_not_pos hzero]
    rfl

/-- The content is the record after the fix-up. -/
lemma content_eq (r : ResidentFile) : r.content =
    (List.range r.attr.contentLen).map fun i =>
      byteAt (applyFixup r.buf) (r.attr.contentOff + i) := by
  unfold content Attr.residentData
  rw [if_pos r.resident]
  rcases r.fits.2 with hzero | hfit
  · rw [hzero]
    unfold getRange
    split
    · rfl
    · rfl
  · rw [getRange, if_pos (by rwa [length_applyFixup]), Option.getD_some]
    refine ext_byteAt ?_ fun i hi => ?_
    · rw [List.length_take, List.length_drop, length_applyFixup, List.length_map, List.length_range]
      omega
    · rw [List.length_take] at hi
      have hi' : i < r.attr.contentLen := by omega
      rw [byteAt_take, if_pos hi', byteAt_drop]
      simp [byteAt, List.getD_eq_getElem?_getD, hi']

/-- At every stride end in the content that the fix-up restores, the volume has what the array
has. -/
def StrideEndsPlain (r : ResidentFile) : Prop :=
  ∀ k ∈ restored r.buf, ∀ i < 2, r.Covers (k * 512 + 510 + i) →
    byteAt r.buf (k * 512 + 510 + i) = arrayByte r.buf k i

/-- **When resident data is found on the volume**: exactly when every stride end in it holds the
bytes of the array, as one does outside a protected record only. -/
theorem found_eq_content_iff (r : ResidentFile) : r.found = r.content ↔ r.StrideEndsPlain := by
  obtain ⟨m, hrange, hfit⟩ := restored_eq_range r.buf
  obtain ⟨hends, hrest⟩ := byteAt_foldl_restoreStride r.buf m hfit
  have hfix : applyFixup r.buf = (List.range m).foldl (restoreStride (leU16 r.buf 4)) r.buf := by
    rw [applyFixup_eq, hrange]
  have hbytes : r.found = r.content ↔ ∀ p, r.Covers p →
      byteAt r.buf p = byteAt (applyFixup r.buf) p := by
    rw [found_eq, content_eq, List.map_inj_left]
    constructor
    · intro h p hp
      have hbyte :=
        h (p - r.attr.contentOff) (List.mem_range.2 (by have := hp.1; have := hp.2; omega))
      rwa [Nat.add_sub_cancel' hp.1] at hbyte
    · exact fun h i hi => h _ ⟨Nat.le_add_right _ _, by
        have := List.mem_range.1 hi
        omega⟩
  rw [hbytes, hfix]
  unfold StrideEndsPlain
  rw [hrange]
  constructor
  · intro h k hk i hi hcov
    rw [h _ hcov, hends k (List.mem_range.1 hk) i hi]
  · intro h p hp
    by_cases hend : ∃ k < m, ∃ i < 2, p = k * 512 + 510 + i
    · obtain ⟨k, hk, i, hi, rfl⟩ := hend
      rw [h k (List.mem_range.2 hk) i hi hp, hends k hk i hi]
    · push Not at hend
      exact (hrest p hend).symm

end ResidentFile

/-! ## Content across a stride end -/

/-- A record of 1024 bytes on disk, of a file with 400 bytes of which two are at a stride end. -/
def crossingRecord : Bytes :=
  fileMagic ++ [48, 0, 3, 0] ++ List.replicate 12 0 ++ [56, 0, 1, 0] ++ List.replicate 24 0 ++
    -- the sequence number, and what belongs to the two stride ends
    [1, 0, 0x42, 0x42, 0, 0, 0, 0] ++
    [0x30, 0, 0, 0, 96, 0, 0, 0] ++ List.replicate 8 0 ++ [68, 0, 0, 0, 24, 0, 0, 0] ++
    [5] ++ List.replicate 63 0 ++ [1, 1, 0x61, 0, 0, 0, 0, 0] ++
    [0x80, 0, 0, 0, 0xA8, 1, 0, 0] ++ List.replicate 8 0 ++ [0x90, 1, 0, 0, 24, 0, 0, 0] ++
    List.replicate 334 0x2A ++ [1, 0] ++ List.replicate 64 0x2A ++
    [0xFF, 0xFF, 0xFF, 0xFF] ++ List.replicate 442 0 ++ [1, 0]

/-- A volume with a table of this record only. -/
def crossingVolume : Ntfs where
  vol := .ofBytes crossingRecord
  clusterSize := 1024
  mftRecordSize := 1024
  totalBytes := 1024
  mftExtents := [⟨0, 1024⟩]

lemma crossing_readRecordAt : crossingVolume.readRecordAt 0 = some crossingRecord := by
  have hlen : crossingRecord.length = 1024 := by decide +kernel
  have hmagic : crossingRecord.take 4 = fileMagic := by decide
  have hread := Volume.read_ofBytes crossingRecord
  rw [hlen] at hread
  have hrec : crossingVolume.readRecordAt 0 =
      if ((Volume.ofBytes crossingRecord).read 0 1024).take 4 = fileMagic then
        some ((Volume.ofBytes crossingRecord).read 0 1024) else none := rfl
  rw [hrec, hread, if_pos hmagic]

lemma crossing_parse : (MftRecord.parse crossingRecord).isSome = true := by decide

lemma crossing_data :
    (((MftRecord.parse crossingRecord).get crossing_parse).unnamedData).isSome = true := by
  decide +kernel

lemma crossing_file : (crossingVolume.fileRecord 0
    ((MftRecord.parse crossingRecord).get crossing_parse)).isSome = true := by decide +kernel

/-- The file of the record. -/
def crossingFile : ResidentFile where
  fs := crossingVolume
  recNo := 0
  off := 0
  buf := crossingRecord
  record := (MftRecord.parse crossingRecord).get crossing_parse
  attr := (((MftRecord.parse crossingRecord).get crossing_parse).unnamedData).get crossing_data
  file := (crossingVolume.fileRecord 0 ((MftRecord.parse crossingRecord).get crossing_parse)).get
    crossing_file
  recordOffset := by decide
  readRecordAt := crossing_readRecordAt
  parse := (Option.some_get _).symm
  unnamedData := (Option.some_get _).symm
  resident := by decide +kernel
  fileRecord := (Option.some_get _).symm

/-- The volume has the sequence number where the file has two letters. -/
theorem crossingFile_counterexample : ¬ ∀ r : ResidentFile, r.found = r.content := by
  intro h
  have hbyte := congrArg (fun b => byteAt b 334) (h crossingFile)
  have hne : byteAt crossingFile.found 334 ≠ byteAt crossingFile.content 334 := by decide +kernel
  exact hne hbyte

end Ntfs

end Reclaim
