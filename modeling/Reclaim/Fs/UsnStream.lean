import Reclaim.Foundation.Fields
import Reclaim.Fs.NtfsRecord

/-!
# The change journal of NTFS

`$UsnJrnl:$J` lists the changes of files.  Records follow one another, and zeros fill what is left
of a page.  `parse_usn_stream` reads the names out of them, with the record numbers of the file and
of its directory.
-/

namespace Reclaim
namespace Ntfs

open FileBytes

/-- A name recovered from the change journal. -/
structure MinedName where
  name : String
  /-- The record number of the file. -/
  fileRef : ℕ
  /-- The record number of the directory. -/
  parent : ℕ
deriving DecidableEq

/-- The name in the record of `recLen` bytes at `pos`.  The fields are where version 2 has them. -/
def minedAt (b : Bytes) (pos recLen : ℕ) : List MinedName :=
  let nameLen := leU16 b (pos + 56)
  let nameOff := leU16 b (pos + 58)
  if 2 ≤ nameLen ∧ nameOff + nameLen ≤ recLen then
    let name := decodeUtf16 b (pos + nameOff) (min (nameLen / 2) 255)
    if name = "" then []
    else [⟨name, leU64 b (pos + 8) % 2 ^ 48, leU64 b (pos + 16) % 2 ^ 48⟩]
  else []

/-- The loop from `pos` on, which ends when `left` more names are found. -/
def mineFrom (b : Bytes) : (guard pos left : ℕ) → List MinedName
  | 0, _, _ => []
  | guard + 1, pos, left =>
    if pos + 60 ≤ b.length then
      let recLen := leU32 b pos
      let major := leU16 b (pos + 4)
      -- the front of the journal is sparse
      if recLen = 0 then mineFrom b guard (pos + 8) left
      else if ¬ (56 ≤ recLen ∧ recLen ≤ 4096) ∨ (major ≠ 2 ∧ major ≠ 3) ∨
          b.length < pos + recLen then
        mineFrom b guard (pos + 8) left
      else
        let mined := minedAt b pos recLen
        if left ≤ mined.length then mined
        else mined ++ mineFrom b guard (pos + recLen) (left - mined.length)
    else []

/-- `parse_usn_stream`: the name with which there are more than 1000000 is the last one. -/
def parseUsnStream (data : Bytes) : List MinedName := mineFrom data 5000000 0 1000001

/-! ## Records -/

/-- A record of the journal.  Version 3 has references of 16 bytes in place of 8, and what follows
them moves with it. -/
structure UsnRecord where
  major : ℕ
  minor : ℕ
  fileId : ℕ
  parentId : ℕ
  usn : ℕ
  timeStamp : ℕ
  reason : ℕ
  sourceInfo : ℕ
  securityId : ℕ
  attributes : ℕ
  /-- What is between the fixed fields and the name. -/
  extra : Bytes
  /-- The name in units of UTF-16. -/
  units : List ℕ
  padding : Bytes
  major_eq : major = 2 ∨ major = 3
  fileId_lt : fileId < 256 ^ (8 * (major - 1))
  parentId_lt : parentId < 256 ^ (8 * (major - 1))
  units_ne : units ≠ []
  units_le : units.length ≤ 255
  units_lt : ∀ u ∈ units, 0 < u ∧ u < 256 ^ 2
  length_le : 28 + 16 * major + extra.length + 2 * units.length + padding.length ≤ 4096

namespace UsnRecord

variable (r : UsnRecord)

/-- The width of a reference. -/
def refWidth : ℕ := 8 * (r.major - 1)

/-- Where the name begins. -/
def nameOff : ℕ := 44 + 2 * r.refWidth + r.extra.length

/-- The length of the record. -/
def recLen : ℕ := r.nameOff + 2 * r.units.length + r.padding.length

/-- The fields that the record consists of, in their order. -/
def parts : List Bytes :=
  [leBytes 4 r.recLen, leBytes 2 r.major, leBytes 2 r.minor, leBytes r.refWidth r.fileId,
    leBytes r.refWidth r.parentId, leBytes 8 r.usn, leBytes 8 r.timeStamp, leBytes 4 r.reason,
    leBytes 4 r.sourceInfo, leBytes 4 r.securityId, leBytes 4 r.attributes,
    leBytes 2 (2 * r.units.length), leBytes 2 r.nameOff, r.extra] ++
    (r.units.map (leBytes 2) ++ [r.padding])

/-- The record as it is stored. -/
def bytes : Bytes := r.parts.flatten

/-- What is to be returned for the record. -/
def mined : MinedName :=
  ⟨Text.fromUtf16Lossy r.units, r.fileId % 2 ^ 48, r.parentId % 2 ^ 48⟩

lemma length_units_flatten (us : List ℕ) : (us.map (leBytes 2)).flatten.length = 2 * us.length := by
  induction us with
  | nil => rfl
  | cons u us ih =>
    rw [List.map_cons, List.flatten_cons, List.length_append, ih, length_leBytes, List.length_cons]
    omega

lemma recLen_bounds : 62 ≤ r.recLen ∧ r.recLen ≤ 4096 := by
  have hunits := List.length_pos_iff.2 r.units_ne
  have hle := r.length_le
  unfold recLen nameOff refWidth
  rcases r.major_eq with h | h <;> rw [h] at hle ⊢ <;> omega

lemma length_bytes : r.bytes.length = r.recLen := by
  have hunits := length_units_flatten r.units
  simp only [bytes, parts, List.flatten_append, List.length_append, List.flatten_cons,
    List.flatten_nil, length_leBytes, hunits, List.length_nil]
  unfold recLen nameOff
  omega

end UsnRecord

/-! ## What is read of a record -/

section Reading

variable (r : UsnRecord) (x : Bytes)

lemma recLen_read : leU32 (r.bytes ++ x) 0 = r.recLen := by
  have hbounds := r.recLen_bounds
  exact leField_parts 0 rfl rfl (by omega)

lemma major_read : leU16 (r.bytes ++ x) 4 = r.major := by
  have hmajor : r.major < 256 ^ 2 := by
    rcases r.major_eq with h | h <;> omega
  exact leField_parts 1 rfl rfl hmajor

/-- A record yields one name at most. -/
lemma length_minedAt_le (b : Bytes) (pos recLen : ℕ) : (minedAt b pos recLen).length ≤ 1 := by
  unfold minedAt
  dsimp only
  split
  · split
    · exact Nat.zero_le 1
    · exact le_refl 1
  · exact Nat.zero_le 1

/-- What is read at a position is what is read at the beginning of the bytes from there on. -/
lemma minedAt_drop (b : Bytes) (pos recLen : ℕ) :
    minedAt b pos recLen = minedAt (b.drop pos) 0 recLen := by
  have hdecode : ∀ off units, decodeUtf16 b (pos + off) units =
      decodeUtf16 (b.drop pos) (0 + off) units := by
    intro off units
    unfold decodeUtf16
    simp only [leU16, leField_drop (by omega : 0 < 2), Nat.zero_add, Nat.add_assoc]
  unfold minedAt
  simp only [hdecode]
  simp only [leU16, leU64, leField_drop (by omega : 0 < 2), leField_drop (by omega : 0 < 8),
    Nat.zero_add]

/-- A record with something behind it is read as the record alone. -/
lemma minedAt_append : minedAt (r.bytes ++ x) 0 r.recLen = minedAt r.bytes 0 r.recLen := by
  have hlen := r.length_bytes
  have hbounds := r.recLen_bounds
  have hfield : ∀ {k off : ℕ}, off + k ≤ r.recLen →
      leField k (r.bytes ++ x) off = leField k r.bytes off := by
    intro k off h
    exact leField_append (by omega) x
  unfold minedAt
  simp only [leU16, leU64, Nat.zero_add]
  rw [hfield (by omega), hfield (by omega), hfield (by omega), hfield (by omega)]
  by_cases hin : 2 ≤ leField 2 r.bytes 56 ∧ leField 2 r.bytes 58 + leField 2 r.bytes 56 ≤ r.recLen
  · rw [if_pos hin, if_pos hin]
    have hdecode : decodeUtf16 (r.bytes ++ x) (leField 2 r.bytes 58)
        (min (leField 2 r.bytes 56 / 2) 255) =
        decodeUtf16 r.bytes (leField 2 r.bytes 58) (min (leField 2 r.bytes 56 / 2) 255) := by
      unfold decodeUtf16
      have hunits : ∀ i ∈ List.range (min (leField 2 r.bytes 56 / 2) 255),
          leU16 (r.bytes ++ x) (leField 2 r.bytes 58 + i * 2) =
            leU16 r.bytes (leField 2 r.bytes 58 + i * 2) := by
        intro i hi
        rw [List.mem_range] at hi
        exact hfield (by omega)
      rw [List.map_congr_left hunits]
    rw [hdecode]
  · rw [if_neg hin, if_neg hin]

/-! ## Version 2 -/

lemma length_take_units (j : ℕ) (hj : j ≤ r.units.length) :
    (r.parts.take (14 + j)).flatten.length = r.nameOff + 2 * j := by
  have hcut : ((r.units.map (leBytes 2) ++ [r.padding]).take j).flatten.length = 2 * j := by
    rw [List.take_append_of_le_length (by rw [List.length_map]; exact hj), ← List.map_take]
    rw [UsnRecord.length_units_flatten, List.length_take, min_eq_left hj]
  unfold UsnRecord.parts
  rw [List.take_append, List.take_of_length_le (by simp), List.flatten_append, List.length_append]
  simp only [List.flatten_cons, List.flatten_nil, List.length_append, length_leBytes,
    List.length_cons, List.length_nil, Nat.add_sub_cancel_left, hcut, UsnRecord.nameOff]
  omega

/-- A unit of the name is read back. -/
lemma unit_read (j : ℕ) (hj : j < r.units.length) :
    leU16 (r.bytes ++ x) (r.nameOff + 2 * j) = r.units[j] := by
  have hpart : r.parts[14 + j]? = some (leBytes 2 r.units[j]) := by
    have hin : j < (r.units.map (leBytes 2)).length := by rwa [List.length_map]
    unfold UsnRecord.parts
    rw [List.getElem?_append_right (by simp)]
    simp only [List.length_cons, List.length_nil, Nat.add_sub_cancel_left]
    rw [List.getElem?_append_left hin, List.getElem?_map, List.getElem?_eq_getElem hj]
    rfl
  exact leField_parts (14 + j) hpart (length_take_units r j hj.le)
    (r.units_lt _ (List.getElem_mem hj)).2

/-- **The name is read back.** -/
lemma name_read : decodeUtf16 (r.bytes ++ x) r.nameOff r.units.length =
    Text.fromUtf16Lossy r.units := by
  have hunits : ((List.range r.units.length).map fun i =>
      leU16 (r.bytes ++ x) (r.nameOff + i * 2)) = r.units := by
    refine List.ext_getElem (by simp) ?_
    intro j h₁ h₂
    rw [List.getElem_map, List.getElem_range, Nat.mul_comm]
    exact unit_read r x j h₂
  have hlast : ∀ u ∈ r.units.reverse.head?, (u == 0) = false := by
    intro u hu
    have hmem := List.mem_reverse.1 (List.mem_of_mem_head? hu)
    have := (r.units_lt u hmem).1
    exact beq_eq_false_iff_ne.2 (by omega)
  have hkeep : r.units.reverse.dropWhile (· == 0) = r.units.reverse := by
    cases h : r.units.reverse with
    | nil => rfl
    | cons u us =>
      have hu : (u == 0) = false := hlast u (by rw [h]; rfl)
      rw [List.dropWhile_cons_of_neg (by rw [hu]; exact Bool.false_ne_true)]
  unfold decodeUtf16
  dsimp only
  rw [hunits, hkeep, List.reverse_reverse]

lemma fromUtf16Lossy_ne {us : List ℕ} (h : us ≠ []) : Text.fromUtf16Lossy us ≠ "" := by
  obtain ⟨u, us, rfl⟩ := List.exists_cons_of_ne_nil h
  have hchars : Text.utf16Decode (u :: us) ≠ [] := by
    rw [Text.utf16Decode.eq_def]
    dsimp only
    split
    · exact List.cons_ne_nil _ _
    · split
      · exact List.cons_ne_nil _ _
      · split
        · exact List.cons_ne_nil _ _
        · split
          · exact List.cons_ne_nil _ _
          · exact List.cons_ne_nil _ _
  intro hempty
  rw [Text.fromUtf16Lossy] at hempty
  exact hchars (String.ofList_injective hempty)

/-- **A record of version 2 is read back.** -/
lemma minedAt_version_two (h : r.major = 2) : minedAt (r.bytes ++ x) 0 r.recLen = [r.mined] := by
  have hwidth : r.refWidth = 8 := by rw [UsnRecord.refWidth, h]
  have hbounds := r.recLen_bounds
  have hunits := List.length_pos_iff.2 r.units_ne
  have hunits255 := r.units_le
  have hrec : r.recLen = r.nameOff + 2 * r.units.length + r.padding.length := rfl
  have hfile : leU64 (r.bytes ++ x) 8 = r.fileId := by
    have hlt := r.fileId_lt
    rw [h] at hlt
    apply leField_parts 3
    · rw [← hwidth]; rfl
    · rfl
    · exact hlt
  have hparent : leU64 (r.bytes ++ x) 16 = r.parentId := by
    have hlt := r.parentId_lt
    rw [h] at hlt
    apply leField_parts 4
    · rw [← hwidth]; rfl
    · simp [UsnRecord.parts, hwidth]
    · exact hlt
  have hlen : leU16 (r.bytes ++ x) 56 = 2 * r.units.length := by
    apply leField_parts 11
    · rfl
    · simp [UsnRecord.parts, hwidth]
    · omega
  have hoff : leU16 (r.bytes ++ x) 58 = r.nameOff := by
    apply leField_parts 12
    · rfl
    · simp [UsnRecord.parts, hwidth]
    · omega
  unfold minedAt
  simp only [Nat.zero_add, hlen, hoff, hfile, hparent]
  rw [if_pos (by omega), Nat.mul_div_cancel_left _ (by omega), min_eq_left hunits255, name_read,
    if_neg (fromUtf16Lossy_ne r.units_ne)]
  rfl

end Reading

/-! ## The stream -/

/-- What the journal consists of. -/
inductive UsnItem where
  /-- Eight zeros, of which gaps consist. -/
  | zeros
  | record (r : UsnRecord)

namespace UsnItem

/-- The item as it is stored. -/
def bytes : UsnItem → Bytes
  | zeros => List.replicate 8 0
  | record r => r.bytes

/-- The names that an item gives, with `misread` for records of version 3. -/
def names (misread : UsnRecord → List MinedName) : UsnItem → List MinedName
  | zeros => []
  | record r => if r.major = 2 then [r.mined] else misread r

end UsnItem

/-- Items one after the other. -/
def usnStream (items : List UsnItem) : Bytes := items.flatMap UsnItem.bytes

/-- A record of version 3 as the fields of version 2 show it. -/
def misreadV3 (r : UsnRecord) : List MinedName := minedAt r.bytes 0 r.recLen

section Stream

variable {b : Bytes} {pos left guard : ℕ}

lemma mineFrom_of_short (h : b.length < pos + 60) : mineFrom b guard pos left = [] := by
  cases guard with
  | zero => rfl
  | succ guard => rw [mineFrom, if_neg (by omega)]

lemma mineFrom_zeros {x : Bytes} (hb : b.drop pos = List.replicate 8 0 ++ x)
    (h : pos + 60 ≤ b.length) :
    mineFrom b (guard + 1) pos left = mineFrom b guard (pos + 8) left := by
  have hlen : leU32 b pos = 0 := by
    have hfield : leField 4 (b.drop pos) 0 = 0 := by
      have hzeros : List.replicate 8 (0 : UInt8) = [leBytes 4 0, leBytes 4 0].flatten := rfl
      rw [hb, hzeros]
      exact leField_parts 0 rfl rfl (by omega)
    rwa [leField_drop (by omega)] at hfield
  rw [mineFrom, if_pos h]
  dsimp only
  rw [if_pos hlen]

lemma mineFrom_record {r : UsnRecord} {x : Bytes} (hb : b.drop pos = r.bytes ++ x) :
    mineFrom b (guard + 1) pos left =
      if left ≤ (minedAt r.bytes 0 r.recLen).length then minedAt r.bytes 0 r.recLen
      else minedAt r.bytes 0 r.recLen ++
        mineFrom b guard (pos + r.recLen) (left - (minedAt r.bytes 0 r.recLen).length) := by
  have hbounds := r.recLen_bounds
  have htotal : r.recLen ≤ b.length - pos := by
    rw [← List.length_drop, hb, List.length_append, r.length_bytes]
    exact Nat.le_add_right ..
  have hlen : leU32 b pos = r.recLen := by
    have hread := recLen_read r x
    rwa [← hb, leU32, leField_drop (by omega)] at hread
  have hmajor : leU16 b (pos + 4) = r.major := by
    have hread := major_read r x
    rwa [← hb, leU16, leField_drop (by omega)] at hread
  have hmined : minedAt b pos r.recLen = minedAt r.bytes 0 r.recLen := by
    rw [minedAt_drop, hb, minedAt_append]
  have hversion := r.major_eq
  rw [mineFrom, if_pos (by omega)]
  dsimp only
  rw [hlen, hmajor, if_neg (by omega), if_neg (by omega), hmined]

/-- What is too short for a record gives no name. -/
lemma names_of_short (misread : UsnRecord → List MinedName) {items : List UsnItem}
    (h : (usnStream items).length < 60) (n : ℕ) :
    (items.take n).flatMap (UsnItem.names misread) = [] := by
  rw [List.flatMap_eq_nil_iff]
  intro item hitem
  cases item with
  | zeros => rfl
  | record r =>
    obtain ⟨before, after, rfl⟩ := List.append_of_mem (List.mem_of_mem_take hitem)
    have hbounds := r.recLen_bounds
    rw [usnStream, List.flatMap_append, List.flatMap_cons, List.length_append,
      List.length_append, UsnItem.bytes, r.length_bytes] at h
    omega

/-- **Each item is passed** in one step, and its names are added. -/
lemma mineFrom_stream {items : List UsnItem} (hb : b.drop pos = usnStream items)
    (hleft : 0 < left) :
    mineFrom b guard pos left =
      ((items.take guard).flatMap (UsnItem.names misreadV3)).take left := by
  induction items generalizing guard pos left with
  | nil =>
    have hend : b.length ≤ pos := List.drop_eq_nil_iff.1 hb
    rw [mineFrom_of_short (by omega), List.take_nil, List.flatMap_nil, List.take_nil]
  | cons item rest ih =>
    cases guard with
    | zero => rw [mineFrom, List.take_zero, List.flatMap_nil, List.take_nil]
    | succ guard =>
      by_cases hshort : b.length < pos + 60
      · have hlen : (usnStream (item :: rest)).length < 60 := by
          rw [← hb, List.length_drop]
          omega
        rw [mineFrom_of_short hshort, names_of_short misreadV3 hlen, List.take_nil]
      · have hsplit : b.drop pos = item.bytes ++ usnStream rest := by
          rw [hb, usnStream, List.flatMap_cons]
          rfl
        have hrest : b.drop (pos + item.bytes.length) = usnStream rest := by
          rw [← List.drop_drop, hsplit, List.drop_left]
        rw [List.take_succ_cons, List.flatMap_cons]
        cases item with
        | zeros =>
          rw [mineFrom_zeros hsplit (by omega)]
          exact ih hrest hleft
        | record r =>
          have hnames : (UsnItem.record r).names misreadV3 = minedAt r.bytes 0 r.recLen := by
            by_cases h : r.major = 2
            · have hread := minedAt_version_two r [] h
              rw [List.append_nil] at hread
              rw [UsnItem.names, if_pos h, hread]
            · rw [UsnItem.names, if_neg h, misreadV3]
          have hone := length_minedAt_le r.bytes 0 r.recLen
          rw [UsnItem.bytes, r.length_bytes] at hrest
          rw [mineFrom_record hsplit, hnames, List.take_append]
          split
          · rename_i hfull
            rw [List.take_of_length_le (by omega), Nat.sub_eq_zero_of_le hfull, List.take_zero,
              List.append_nil]
          · rename_i hmore
            have hwhole : (minedAt r.bytes 0 r.recLen).take left = minedAt r.bytes 0 r.recLen :=
              List.take_of_length_le (by omega)
            rw [ih hrest (by omega), hwhole]

/-- The loop ends before the guard, if there is a step for every eight bytes. -/
lemma mineFrom_guard (extra : ℕ) (h : b.length < pos + 60 + 8 * guard) :
    mineFrom b (guard + extra) pos left = mineFrom b guard pos left := by
  induction guard generalizing pos left with
  | zero => rw [mineFrom_of_short (by omega), mineFrom_of_short (by omega)]
  | succ guard ih =>
    have hsucc : guard + 1 + extra = guard + extra + 1 := by omega
    rw [hsucc, mineFrom, mineFrom]
    dsimp only
    by_cases hin : pos + 60 ≤ b.length
    · rw [if_pos hin, if_pos hin]
      split
      · exact ih (by omega)
      · split
        · exact ih (by omega)
        · rename_i haccept
          rw [ih (by omega)]
    · rw [if_neg hin, if_neg hin]

end Stream

/-- **The journal is read**: each record of version 2 gives its name and record numbers, in order,
whatever records of version 3 and zeros are between them, up to the bounds of the loop.  On any
bytes, the loop ends by itself after a step for every eight of them. -/
theorem parseUsnStream_exact :
    (∃ misread : UsnRecord → List MinedName, (∀ r, (misread r).length ≤ 1) ∧
      ∀ items : List UsnItem, parseUsnStream (usnStream items) =
        ((items.take 5000000).flatMap (UsnItem.names misread)).take 1000001) ∧
    ∀ (data : Bytes) (extra pos left : ℕ),
      mineFrom data (data.length / 8 + extra) pos left =
        mineFrom data (data.length / 8) pos left := by
  refine ⟨⟨misreadV3, fun r => length_minedAt_le _ _ _, ?_⟩, ?_⟩
  · intro items
    exact mineFrom_stream List.drop_zero (by omega)
  · intro data extra pos left
    exact mineFrom_guard extra (by omega)

/-- A record of a file that is named `a`. -/
def changeOf (reason : ℕ) : UsnRecord where
  major := 2
  minor := 0
  fileId := 42
  parentId := 5
  usn := 0
  timeStamp := 0
  reason := reason
  sourceInfo := 0
  securityId := 0
  attributes := 0x20
  extra := []
  units := [0x61]
  padding := [0, 0]
  major_eq := .inl rfl
  fileId_lt := by decide
  parentId_lt := by decide
  units_ne := by decide
  units_le := by decide
  units_lt := by decide
  length_le := by decide

/-- The same change in version 3. -/
def changeOfV3 : UsnRecord where
  major := 3
  minor := 0
  fileId := 42
  parentId := 5
  usn := 0
  timeStamp := 0
  reason := 0x100
  sourceInfo := 0
  securityId := 0
  attributes := 0x20
  extra := []
  units := [0x61]
  padding := [0, 0]
  major_eq := .inr rfl
  fileId_lt := by decide
  parentId_lt := by decide
  units_ne := by decide
  units_le := by decide
  units_lt := by decide
  length_le := by decide

set_option maxRecDepth 4000 in
/-- No reason can be told from what is returned: that of a creation is that of a deletion.  And the
name in a record of version 3 is lost, for its length is looked for in the reason. -/
theorem parseUsnStream_counterexample :
    (¬ ∃ reasonOf : MinedName → ℕ, ∀ items : List UsnItem,
      (parseUsnStream (usnStream items)).map reasonOf =
        items.flatMap fun item => match item with
          | .zeros => []
          | .record r => [r.reason]) ∧
    parseUsnStream (usnStream [.record changeOfV3]) = [] := by
  have hstream : ∀ r, parseUsnStream (usnStream [.record r]) =
      (([UsnItem.record r].take 5000000).flatMap (UsnItem.names misreadV3)).take 1000001 :=
    fun r => mineFrom_stream List.drop_zero (by omega)
  refine ⟨?_, (hstream changeOfV3).trans rfl⟩
  rintro ⟨reasonOf, h⟩
  have hone : ∀ reason, parseUsnStream (usnStream [.record (changeOf reason)]) =
      [(changeOf 0).mined] := by
    intro reason
    exact hstream (changeOf reason)
  have hcreate := h [.record (changeOf 0x100)]
  have hdelete := h [.record (changeOf 0x200)]
  rw [hone] at hcreate hdelete
  have heq : [0x100] = [0x200] := hcreate.symm.trans hdelete
  exact absurd heq (by decide)

end Ntfs
end Reclaim
