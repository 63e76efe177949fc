import Reclaim.Foundation.Links
import Reclaim.Foundation.Fields
import Reclaim.Fs.HfsForks

/-!
# The HFS+ catalog

A leaf of the catalog holds the records one behind the other, and the table of their offsets from
its end on.  The walk reads each node through the catalog's extents and goes on to the next leaf by
the link: it delivers the folder and file records of the leaves, each once, of as many leaves as it
visits nodes.  It visits no node twice, so it ends on any content.
-/

namespace Reclaim
namespace Hfs

open FileBytes

/-! ## Records -/

/-- What stands behind the key of a record. -/
inductive CatBody where
  | folder (flags : Bytes) (cnid : ℕ) (rest : Bytes)
  | file (flags : Bytes) (cnid createDate modDate : ℕ) (mid dataFork resourceFork : Bytes)
  | thread (ofFile : Bool) (reserved : Bytes) (parentId : ℕ) (units : List ℕ)

/-- A record of the catalog, with the units of its name. -/
structure CatRec where
  parentId : ℕ
  units : List ℕ
  body : CatBody

/-- Names of 16-bit units, at most 255. -/
def NameFits (units : List ℕ) : Prop := units.length ≤ 255 ∧ ∀ u ∈ units, u < 256 ^ 2

/-- The fields have the widths of the format. -/
def CatBody.Fits : CatBody → Prop
  | .folder flags cnid rest => flags.length = 6 ∧ cnid < 256 ^ 4 ∧ rest.length = 76
  | .file flags cnid createDate modDate mid dataFork resourceFork =>
    flags.length = 6 ∧ cnid < 256 ^ 4 ∧ createDate < 256 ^ 4 ∧ modDate < 256 ^ 4 ∧
      mid.length = 68 ∧ dataFork.length = 80 ∧ resourceFork.length = 80
  | .thread _ reserved parentId units =>
    reserved.length = 2 ∧ parentId < 256 ^ 4 ∧ NameFits units

def CatRec.Fits (r : CatRec) : Prop := r.parentId < 256 ^ 4 ∧ NameFits r.units ∧ r.body.Fits

/-- The units of a name. -/
def nameBytes (units : List ℕ) : Bytes := units.flatMap (beBytes 2)

/-- The parts of a record behind its key. -/
def CatBody.parts : CatBody → List Bytes
  | .folder flags cnid rest => [beBytes 2 recFolder, flags, beBytes 4 cnid, rest]
  | .file flags cnid createDate modDate mid dataFork resourceFork =>
    [beBytes 2 recFile, flags, beBytes 4 cnid, beBytes 4 createDate, beBytes 4 modDate, mid,
      dataFork, resourceFork]
  | .thread ofFile reserved parentId units =>
    [beBytes 2 (if ofFile then recFileThread else recFolderThread), reserved, beBytes 4 parentId,
      beBytes 2 units.length, nameBytes units]

/-- The parts of the key. -/
def CatRec.keyParts (r : CatRec) : List Bytes :=
  [beBytes 2 (6 + 2 * r.units.length), beBytes 4 r.parentId, beBytes 2 r.units.length,
    nameBytes r.units]

def CatRec.bytes (r : CatRec) : Bytes := r.keyParts.flatten ++ r.body.parts.flatten

/-- The entry of a folder or of a file; threads have none. -/
def CatRec.entry (r : CatRec) : Option CatEntry :=
  match r.body with
  | .folder _ cnid _ =>
    some ⟨r.parentId, Text.fromUtf16Lossy r.units, true, cnid, none, none, none⟩
  | .file _ cnid createDate modDate _ dataFork _ =>
    some ⟨r.parentId, Text.fromUtf16Lossy r.units, false, cnid, some (ForkData.parse dataFork 0),
      hfsDate createDate, hfsDate modDate⟩
  | .thread .. => none

section Parse

variable {node t : Bytes} {o off n k : ℕ} {units : List ℕ} {r : CatRec}

/-- A field of what is written part by part, at a place of a node. -/
lemma beField_record {parts : List Bytes} (h : node.drop o = parts.flatten ++ t) (i : ℕ)
    (hi : parts[i]? = some (beBytes k n)) (hoff : (parts.take i).flatten.length = off)
    (hk : 0 < k) (hn : n < 256 ^ k) : beField k node (o + off) = n := by
  rw [← beField_drop hk, h]
  exact beField_parts i hi hoff hn

lemma length_nameBytes (units : List ℕ) : (nameBytes units).length = 2 * units.length := by
  unfold nameBytes
  induction units with
  | nil => rfl
  | cons u units ih =>
    rw [List.flatMap_cons, List.length_append, length_beBytes, ih, List.length_cons]
    omega

/-- A name is read back. -/
lemma unitsAt_nameBytes (hunits : ∀ u ∈ units, u < 256 ^ 2)
    (h : node.drop o = nameBytes units ++ t) : unitsAt node o units.length = units := by
  unfold unitsAt
  refine List.ext_getElem? fun i => ?_
  rw [List.getElem?_map]
  rcases Nat.lt_or_ge i units.length with hi | hi
  · rw [List.getElem?_range hi, Option.map_some]
    have hat : units[i]? = some units[i] := List.getElem?_eq_getElem hi
    obtain ⟨x, hx⟩ := drop_flatMap (length_beBytes 2) hat t
    rw [hat, Option.some_inj]
    have hdrop : node.drop (o + i * 2) = [beBytes 2 units[i]].flatten ++ x := by
      rw [← List.drop_drop, h, nameBytes, hx, List.flatten_singleton]
    have hunit : beU16 node (o + i * 2 + 0) = units[i] :=
      beField_record hdrop 0 rfl rfl (by omega) (hunits _ (List.getElem_mem hi))
    rwa [Nat.add_zero] at hunit
  · rw [List.getElem?_eq_none (by rwa [List.length_range]), List.getElem?_eq_none hi,
      Option.map_none]

lemma length_keyParts (r : CatRec) : r.keyParts.flatten.length = 8 + 2 * r.units.length := by
  simp only [CatRec.keyParts, List.flatten_cons, List.flatten_nil, List.length_append,
    List.length_nil, length_beBytes, length_nameBytes]
  omega

/-- **The key** of a record is read back. -/
lemma parseKey_record (hr : r.Fits) (h : node.drop o = r.keyParts.flatten ++ t) :
    parseKey node o =
      some ⟨r.parentId, Text.fromUtf16Lossy r.units, 8 + 2 * r.units.length⟩ := by
  obtain ⟨hparent, ⟨hlen, hunits⟩, -⟩ := hr
  have hkey : beU16 node (o + 0) = 6 + 2 * r.units.length :=
    beField_record h 0 rfl rfl (by omega) (by omega)
  have hparentId : beU32 node (o + 2) = r.parentId :=
    beField_record h 1 rfl rfl (by omega) hparent
  have hname : beU16 node (o + 6) = r.units.length :=
    beField_record h 2 rfl rfl (by omega) (by omega)
  have hdrop : node.drop (o + 8) = nameBytes r.units ++ t := by
    rw [← List.drop_drop, h]
    simp only [CatRec.keyParts, List.flatten_cons, List.flatten_nil, List.append_nil,
      List.append_assoc, List.drop_append, length_beBytes]
    simp [List.drop_of_length_le]
  rw [Nat.add_zero] at hkey
  unfold parseKey
  dsimp only
  rw [hkey, hname, hparentId, unitsAt_nameBytes hunits hdrop, if_neg (by omega), if_neg (by omega)]
  congr 2
  omega

/-- A field inside a part of a node. -/
lemma beField_inside {d : Bytes} (h : node.drop o = d ++ t) (hk : 0 < k)
    (hin : off + k ≤ d.length) :
    beField k node (o + off) = beField k d off := by
  have hlong : off + k ≤ (d ++ t).length := by
    rw [List.length_append]
    omega
  rw [← beField_drop hk, h, beField, beField, if_pos hlong, if_pos hin,
    List.drop_append_of_le_length (by omega),
    List.take_append_of_le_length (by rw [List.length_drop]; omega)]

/-- The data of a fork are those of its 80 bytes. -/
lemma parseFork_inside {d : Bytes} (h : node.drop o = d ++ t) (hd : d.length = 80) :
    ForkData.parse node o = ForkData.parse d 0 := by
  have hfield : ∀ {k off : ℕ}, 0 < k → off + k ≤ 80 →
      beField k node (o + off) = beField k d (0 + off) := by
    intro k off hk hin
    rw [Nat.zero_add]
    exact beField_inside h hk (by omega)
  have hextents : parseExtents node (o + 16) = parseExtents d (0 + 16) := by
    unfold parseExtents
    congr 1
    refine List.map_congr_left fun i hi => ?_
    rw [List.mem_range] at hi
    have hstart : beU32 node (o + 16 + i * 8) = beU32 d (0 + 16 + i * 8) := by
      rw [Nat.add_assoc, Nat.add_assoc]
      exact hfield (by omega) (by omega)
    have hcount : beU32 node (o + 16 + i * 8 + 4) = beU32 d (0 + 16 + i * 8 + 4) := by
      rw [Nat.add_assoc, Nat.add_assoc, Nat.add_assoc 0, Nat.add_assoc 0]
      exact hfield (by omega) (by omega)
    simp only [extentAt, hstart, hcount]
  have hsize : beU64 node (o + 0) = beU64 d (0 + 0) := hfield (by omega) (by omega)
  have hblocks : beU32 node (o + 12) = beU32 d (0 + 12) := hfield (by omega) (by omega)
  rw [Nat.add_zero] at hsize
  unfold ForkData.parse
  rw [hsize, hblocks, hextents]

/-- **What stands behind the key** is read back: a folder, a file, or a thread. -/
lemma parseRecord_record (hr : r.Fits) (h : node.drop o = r.body.parts.flatten ++ t) :
    ∃ c, parseRecord node o = some c ∧ ∀ parentId name,
      (match c with
        | .folder cnid => some ⟨parentId, name, true, cnid, none, none, none⟩
        | .file cnid dataFork _ createDate modDate =>
          some ⟨parentId, name, false, cnid, some dataFork, hfsDate createDate, hfsDate modDate⟩
        | .thread .. => none) =
      (match r.body with
        | .folder _ cnid _ => some (⟨parentId, name, true, cnid, none, none, none⟩ : CatEntry)
        | .file _ cnid createDate modDate _ dataFork _ =>
          some ⟨parentId, name, false, cnid, some (ForkData.parse dataFork 0),
            hfsDate createDate, hfsDate modDate⟩
        | .thread .. => none) := by
  obtain ⟨-, -, hbody⟩ := hr
  generalize r.body = body at hbody h
  cases body with
  | folder flags cnid rest =>
    obtain ⟨hflags, hcnid, -⟩ := hbody
    have htype : beU16 node (o + 0) = recFolder :=
      beField_record h 0 rfl rfl (by omega) (by decide)
    have hid : beU32 node (o + 8) = cnid :=
      beField_record h 2 rfl (by simp [CatBody.parts, hflags]) (by omega) hcnid
    rw [Nat.add_zero] at htype
    unfold parseRecord
    rw [htype, hid]
    exact ⟨_, rfl, fun _ _ => rfl⟩
  | file flags cnid createDate modDate mid dataFork resourceFork =>
    obtain ⟨hflags, hcnid, hcreate, hmod, hmid, hdata, hresource⟩ := hbody
    have htype : beU16 node (o + 0) = recFile :=
      beField_record h 0 rfl rfl (by omega) (by decide)
    have hid : beU32 node (o + 8) = cnid :=
      beField_record h 2 rfl (by simp [CatBody.parts, hflags]) (by omega) hcnid
    have hcreated : beU32 node (o + 12) = createDate :=
      beField_record h 3 rfl (by simp [CatBody.parts, hflags]) (by omega) hcreate
    have hmodified : beU32 node (o + 16) = modDate :=
      beField_record h 4 rfl (by simp [CatBody.parts, hflags]) (by omega) hmod
    have hfork : node.drop (o + 88) = dataFork ++ (resourceFork ++ t) := by
      have hfront : ((CatBody.file flags cnid createDate modDate mid dataFork
          resourceFork).parts.take 6).flatten.length = 88 := by
        simp [CatBody.parts, hflags, hmid]
      rw [← List.drop_drop, h, flatten_split (i := 6) (p := dataFork) rfl, List.append_assoc,
        ← hfront, List.drop_left, List.append_assoc]
      simp [CatBody.parts]
    rw [Nat.add_zero] at htype
    unfold parseRecord
    rw [htype, hid, hcreated, hmodified, parseFork_inside hfork hdata]
    exact ⟨_, rfl, fun _ _ => rfl⟩
  | thread ofFile reserved parentId units =>
    obtain ⟨hreserved, hparent, hlen, hunits⟩ := hbody
    have htype : beU16 node (o + 0) = if ofFile then recFileThread else recFolderThread :=
      beField_record h 0 rfl rfl (by omega) (by split <;> decide)
    have hname : beU16 node (o + 8) = units.length :=
      beField_record h 3 rfl (by simp [CatBody.parts, hreserved]) (by omega) (by omega)
    rw [Nat.add_zero] at htype
    refine ⟨.thread (beU32 node (o + 4))
      (Text.fromUtf16Lossy (unitsAt node (o + 10) units.length)), ?_, fun _ _ => rfl⟩
    have hshort : ¬255 < units.length := by omega
    unfold parseRecord
    rw [htype, hname]
    cases ofFile with
    | false => simp [recFolder, recFile, recFolderThread, hshort]
    | true => simp [recFolder, recFile, recFolderThread, recFileThread, hshort]

/-- **A record of a leaf** gives its entry. -/
lemma parseCatalogLeaf_record (hr : r.Fits) (h : node.drop o = r.bytes ++ t) :
    parseCatalogLeaf node o = r.entry := by
  have hkey : node.drop o = r.keyParts.flatten ++ (r.body.parts.flatten ++ t) := by
    rw [h, CatRec.bytes, List.append_assoc]
  have hbody : node.drop (o + (8 + 2 * r.units.length)) = r.body.parts.flatten ++ t := by
    rw [← List.drop_drop, hkey, ← length_keyParts, List.drop_left]
  obtain ⟨c, hc, hentry⟩ := parseRecord_record hr hbody
  unfold parseCatalogLeaf
  rw [parseKey_record hr hkey]
  simp only [bind, Option.bind_some, hc]
  exact hentry _ _

end Parse

/-! ## Leaves -/

/-- A leaf node of the catalog. -/
structure Leaf where
  number : ℕ
  backLink : Bytes
  height : UInt8
  reserved : Bytes
  records : List CatRec
  free : Bytes

/-- Records one behind the other. -/
def recordBytes (rs : List CatRec) : Bytes := rs.flatMap CatRec.bytes

/-- The offsets of records from `o` on, and of the free space behind them. -/
def offsetsFrom : ℕ → List CatRec → List ℕ
  | o, [] => [o]
  | o, r :: rs => o :: offsetsFrom (o + r.bytes.length) rs

/-- The node descriptor, with the forward link. -/
def Leaf.head (l : Leaf) (link : ℕ) : List Bytes :=
  [beBytes 4 link, l.backLink, [0xFF], [l.height], beBytes 2 l.records.length, l.reserved]

/-- The offsets stand at the end of the node, that of the first record last. -/
def Leaf.table (l : Leaf) : Bytes := (offsetsFrom 14 l.records).reverse.flatMap (beBytes 2)

def Leaf.bytes (l : Leaf) (link : ℕ) : Bytes :=
  (l.head link).flatten ++ (recordBytes l.records ++ (l.free ++ l.table))

/-- The leaf is a node of so many bytes. -/
structure Leaf.Fits (l : Leaf) (nodeSize : ℕ) : Prop where
  backLink : l.backLink.length = 4
  reserved : l.reserved.length = 2
  records : ∀ r ∈ l.records, r.Fits
  length : 14 + (recordBytes l.records).length + l.free.length + 2 * (l.records.length + 1) =
    nodeSize

section Leaves

variable {node t : Bytes} {o link nodeSize : ℕ} {r : CatRec} {rs : List CatRec} {l : Leaf}
  {c : Catalog}

lemma length_offsetsFrom (o : ℕ) (rs : List CatRec) :
    (offsetsFrom o rs).length = rs.length + 1 := by
  induction rs generalizing o with
  | nil => rfl
  | cons r rs ih => rw [offsetsFrom, List.length_cons, ih, List.length_cons]

/-- No offset lies behind the records. -/
lemma le_of_mem_offsetsFrom {x : ℕ} (hx : x ∈ offsetsFrom o rs) :
    x ≤ o + (recordBytes rs).length := by
  induction rs generalizing o with
  | nil =>
    obtain rfl := List.mem_singleton.1 hx
    exact Nat.le_add_right ..
  | cons r rs ih =>
    rw [recordBytes, List.flatMap_cons, List.length_append]
    rcases List.mem_cons.1 hx with rfl | hx
    · exact Nat.le_add_right ..
    · exact (ih hx).trans_eq (Nat.add_assoc ..)

/-- A record has at least 18 bytes. -/
lemma CatRec.Fits.length_le (hr : r.Fits) : 18 ≤ r.bytes.length := by
  obtain ⟨-, -, hbody⟩ := hr
  have hparts : 10 ≤ r.body.parts.flatten.length := by
    generalize r.body = body at hbody
    cases body with
    | folder flags cnid rest => simp [CatBody.parts, hbody.1]; omega
    | file flags cnid createDate modDate mid dataFork resourceFork =>
      simp [CatBody.parts, hbody.1]
      omega
    | thread ofFile reserved parentId units => simp [CatBody.parts, hbody.1]; omega
  rw [CatRec.bytes, List.length_append, length_keyParts]
  omega

lemma length_recordBytes_le (hrs : ∀ r ∈ rs, r.Fits) :
    18 * rs.length ≤ (recordBytes rs).length := by
  induction rs with
  | nil => exact le_rfl
  | cons r rs ih =>
    have hr := (hrs r List.mem_cons_self).length_le
    have hrest := ih fun q hq => hrs q (List.mem_cons_of_mem r hq)
    rw [recordBytes, List.flatMap_cons, List.length_append, List.length_cons]
    unfold recordBytes at hrest
    omega

lemma Leaf.Fits.length_head (hl : l.Fits nodeSize) : (l.head link).flatten.length = 14 := by
  simp [Leaf.head, hl.backLink, hl.reserved]

lemma Leaf.length_table (l : Leaf) : l.table.length = 2 * (l.records.length + 1) := by
  have hunits : l.table.length = 2 * (offsetsFrom 14 l.records).reverse.length :=
    length_nameBytes _
  rw [hunits, List.length_reverse, length_offsetsFrom]

lemma Leaf.Fits.length_bytes (hl : l.Fits nodeSize) : (l.bytes link).length = nodeSize := by
  have hlen := hl.length
  rw [Leaf.bytes, List.length_append, hl.length_head, List.length_append, List.length_append,
    l.length_table]
  omega

/-- **The records of a leaf** in turn: the folders and files among them are taken. -/
lemma foldl_takeRecord (hrs : ∀ r ∈ rs, r.Fits) (h : node.drop o = recordBytes rs ++ t) :
    (((offsetsFrom o rs).take rs.length).foldl (takeRecord node) c).entries =
      c.entries ++ rs.filterMap CatRec.entry := by
  induction rs generalizing o c with
  | nil => rw [List.length_nil, List.take_zero, List.filterMap_nil, List.append_nil]; rfl
  | cons r rs ih =>
    have hfirst : node.drop o = r.bytes ++ (recordBytes rs ++ t) := by
      rw [h, recordBytes, List.flatMap_cons, List.append_assoc, recordBytes]
    have hrest : node.drop (o + r.bytes.length) = recordBytes rs ++ t := by
      rw [← List.drop_drop, hfirst, List.drop_left]
    have hentry := parseCatalogLeaf_record (hrs r List.mem_cons_self) hfirst
    rw [offsetsFrom, List.length_cons, List.take_succ_cons, List.foldl_cons,
      ih (fun q hq => hrs q (List.mem_cons_of_mem r hq)) hrest, takeRecord, hentry]
    cases he : r.entry with
    | none => rw [List.filterMap_cons_none he]
    | some e => rw [List.filterMap_cons_some he, List.append_assoc, List.singleton_append]

/-- **The offsets of a leaf** are those of its records. -/
lemma recordOffsets_leaf (hl : l.Fits nodeSize) (hsize : nodeSize < 256 ^ 2) :
    recordOffsets (l.bytes link) nodeSize l.records.length =
      (offsetsFrom 14 l.records).take l.records.length := by
  have hlen := hl.length
  have hoffsets := length_offsetsFrom 14 l.records
  have hroom : min ((nodeSize - 14) / 2) l.records.length = l.records.length := by omega
  have htable : (l.bytes link).drop (nodeSize - 2 * (l.records.length + 1)) = l.table ++ [] := by
    have hfront : ((l.head link).flatten ++ (recordBytes l.records ++ l.free)).length =
        nodeSize - 2 * (l.records.length + 1) := by
      rw [List.length_append, hl.length_head, List.length_append]
      omega
    rw [List.append_nil, ← hfront, Leaf.bytes]
    simp only [← List.append_assoc]
    rw [List.drop_left]
  unfold recordOffsets
  rw [hroom]
  refine List.ext_getElem? fun i => ?_
  rw [List.getElem?_map, List.getElem?_take]
  by_cases hi : i < l.records.length
  · -- offset `i` stands before `i` others, from the end on
    obtain ⟨off, hoff⟩ : ∃ off, (offsetsFrom 14 l.records)[i]? = some off :=
      ⟨_, List.getElem?_eq_getElem (by omega)⟩
    have hat : (offsetsFrom 14 l.records).reverse[l.records.length - i]? = some off := by
      rw [List.getElem?_reverse (by omega), hoffsets, ← hoff]
      congr 1
      omega
    obtain ⟨x, hx⟩ := drop_flatMap (length_beBytes 2) hat []
    have hdrop : (l.bytes link).drop (nodeSize - 2 * (i + 1)) =
        [beBytes 2 off].flatten ++ x := by
      have hplace : nodeSize - 2 * (i + 1) =
          nodeSize - 2 * (l.records.length + 1) + (l.records.length - i) * 2 := by omega
      rw [hplace, ← List.drop_drop, htable, Leaf.table, hx, List.flatten_singleton]
    have hlt : off < 256 ^ 2 := by
      have hle := le_of_mem_offsetsFrom (List.mem_of_getElem? hoff)
      omega
    have hfield : beU16 (l.bytes link) (nodeSize - 2 * (i + 1) + 0) = off :=
      beField_record hdrop 0 rfl rfl (by omega) hlt
    rw [Nat.add_zero] at hfield
    rw [if_pos hi, List.getElem?_range hi, Option.map_some, hfield, hoff]
  · rw [if_neg hi, List.getElem?_eq_none (by rw [List.length_range]; omega), Option.map_none]

/-- **A leaf** gives the entries of its records. -/
lemma takeNode_leaf (hl : l.Fits nodeSize) (hsize : nodeSize ≤ 2 ^ 15) (c : Catalog) :
    (takeNode (l.bytes link) nodeSize c).entries =
      c.entries ++ l.records.filterMap CatRec.entry := by
  have hlen := hl.length
  have hcount := length_recordBytes_le hl.records
  have hdrop : (l.bytes link).drop 0 =
      (l.head link).flatten ++ (recordBytes l.records ++ (l.free ++ l.table)) := rfl
  have hkind : byteAt (l.bytes link) 8 = 0xFF := by
    have hbyte : (l.bytes link)[8]? = some 0xFF := by
      unfold Leaf.bytes Leaf.head
      simp [List.getElem?_append, hl.backLink]
    rw [byteAt, List.getD_eq_getElem?_getD, hbyte]
    rfl
  have hnum : beU16 (l.bytes link) (0 + 10) = l.records.length :=
    beField_record hdrop 4 rfl (by simp [Leaf.head, hl.backLink]) (by omega) (by omega)
  have hrecords : (l.bytes link).drop 14 = recordBytes l.records ++ (l.free ++ l.table) := by
    have hhead : (l.head link).flatten.length = 14 := hl.length_head
    rw [Leaf.bytes, ← hhead, List.drop_left]
  have hmin : min l.records.length 2000 = l.records.length := by omega
  rw [Nat.zero_add] at hnum
  unfold takeNode
  rw [if_pos hkind, hnum, hmin, recordOffsets_leaf hl (by omega)]
  exact foldl_takeRecord hl.records hrecords

/-- The link of a leaf. -/
lemma beU32_leaf (hlink : link < 256 ^ 4) (l : Leaf) : beU32 (l.bytes link) 0 = link := by
  have hdrop : (l.bytes link).drop 0 =
      (l.head link).flatten ++ (recordBytes l.records ++ (l.free ++ l.table)) := rfl
  have hfield : beU32 (l.bytes link) (0 + 0) = link :=
    beField_record hdrop 0 rfl rfl (by omega) hlink
  exact hfield

end Leaves

/-! ## The walk -/

section Nodes

variable (fs : Hfs)

/-- The forward link of a node. -/
def nodeLink (nodeSize n : ℕ) : ℕ := beU32 (fs.readNode n nodeSize) 0

/-- The nodes that the walk reads. -/
def nodesFrom (nodeSize budget n : ℕ) : List ℕ :=
  Links.visits (· = 0) (fs.nodeLink nodeSize) budget n []

/-- A node that is read. -/
def takeNumber (nodeSize : ℕ) (c : Catalog) (n : ℕ) : Catalog :=
  takeNode (fs.readNode n nodeSize) nodeSize c

/-- **The walk** takes the nodes that it visits, one after the other. -/
lemma walkNodes_eq (nodeSize budget n : ℕ) (seen : List ℕ) (c : Catalog) :
    fs.walkNodes nodeSize budget n seen c =
      (Links.visits (· = 0) (fs.nodeLink nodeSize) budget n seen).foldl
        (fs.takeNumber nodeSize) c := by
  induction budget generalizing n seen c with
  | zero => rfl
  | succ budget ih =>
    rw [walkNodes, Links.visits]
    split
    · rfl
    · rw [List.foldl_cons]
      exact ih _ _ _

/-- **The walk ends of itself**: there are no more nodes than numbers of 32 bits. -/
lemma walkNodes_ends (nodeSize : ℕ) {n : ℕ} (hn : n < 2 ^ 32) (c : Catalog) {budget : ℕ}
    (h : 2 ^ 32 < budget) :
    fs.walkNodes nodeSize budget n [] c = fs.walkNodes nodeSize (2 ^ 32 + 1) n [] c := by
  have hlink : ∀ d, fs.nodeLink nodeSize d < 2 ^ 32 := fun d => beField_lt 4 _ 0
  rw [walkNodes_eq, walkNodes_eq, Links.visits_eq_of_lt hn hlink h]

/-- **The loop of `read_fork` ends of itself**: it reads a byte or more each time. -/
lemma readForkFrom_ends (es : List ExtentDescriptor) (byteOff len : ℕ) {fuel more : ℕ}
    {out : Bytes} (h : len - out.length ≤ fuel) (hle : fuel ≤ more) :
    fs.readForkFrom es byteOff len more out = fs.readForkFrom es byteOff len fuel out := by
  induction fuel generalizing more out with
  | zero =>
    rw [readForkFrom]
    cases more with
    | zero => rfl
    | succ more => rw [readForkFrom, if_neg (by omega)]
  | succ fuel ih =>
    obtain ⟨more, rfl⟩ : ∃ m, more = m + 1 := ⟨more - 1, by omega⟩
    rw [readForkFrom, readForkFrom]
    split
    · cases fs.forkDeviceOffset es 0 (byteOff + out.length) with
      | none => rfl
      | some x =>
        dsimp only
        split
        · rfl
        · refine ih ?_ (by omega)
          rw [List.length_append, Volume.length_read]
          omega
    · rfl

/-- A path has no more names than it may have. -/
lemma length_pathParts_le (map : CnidMap) (guard cur : ℕ) :
    (pathParts map guard cur).length ≤ guard := by
  induction guard generalizing cur with
  | zero => exact le_rfl
  | succ guard ih =>
    rw [pathParts]
    split
    · exact Nat.zero_le _
    · cases map.lookup cur with
      | none => exact Nat.zero_le _
      | some x =>
        rw [List.length_append, List.length_singleton]
        exact Nat.succ_le_succ (ih x.1)

/-- No more records are taken from a node than it says, and each at an offset that it has. -/
lemma length_recordOffsets_le (node : Bytes) (nodeSize n : ℕ) :
    (recordOffsets node nodeSize n).length ≤ n := by
  rw [recordOffsets, List.length_map, List.length_range]
  exact Nat.min_le_right ..

end Nodes

/-! ## Catalogs -/

/-- The bytes of the catalog's fork. -/
def catalogBytes (fs : Hfs) (off len : ℕ) : Bytes :=
  (List.range len).map fun k => fs.forkByte fs.vh.catalog.extents (off + k)

/-- The number of the first leaf, 0 if there is none. -/
def firstOf : List Leaf → ℕ
  | [] => 0
  | l :: _ => l.number

/-- The leaves stand in their nodes, each with a link to the next. -/
def Chained (fs : Hfs) (nodeSize : ℕ) : List Leaf → Prop
  | [] => True
  | l :: ls => fs.catalogBytes (l.number * nodeSize) nodeSize = l.bytes (firstOf ls) ∧
      Chained fs nodeSize ls

/-- The fields of the header node that the walk reads, and what stands around them. -/
def headerParts (lead lastLeaf rest : Bytes) (firstLeaf nodeSize : ℕ) : List Bytes :=
  [lead, beBytes 4 firstLeaf, lastLeaf, beBytes 2 nodeSize, rest]

/-- The catalog's fork lies in its inline extents, and these are its leaves. -/
structure IsCatalog (fs : Hfs) (nodeSize : ℕ) (leaves : List Leaf) : Prop where
  size : 512 ≤ nodeSize ∧ nodeSize ≤ 2 ^ 15 ∧ 2 ^ nodeSize.log2 = nodeSize
  header : ∃ lead lastLeaf rest : Bytes, lead.length = 24 ∧ lastLeaf.length = 4 ∧
    fs.catalogBytes 0 512 = (headerParts lead lastLeaf rest (firstOf leaves) nodeSize).flatten
  room : 512 ≤ fs.allocated fs.vh.catalog.extents
  fits : ∀ l ∈ leaves, l.Fits nodeSize
  number : ∀ l ∈ leaves, 0 < l.number ∧ l.number < 2 ^ 32 ∧
    l.number * nodeSize + nodeSize ≤ fs.allocated fs.vh.catalog.extents
  distinct : (leaves.map Leaf.number).Nodup
  chained : fs.Chained nodeSize leaves

section Walk

variable {fs : Hfs} {nodeSize : ℕ} {leaves : List Leaf} {l : Leaf}

lemma firstOf_lt (h : ∀ l ∈ leaves, l.number < 2 ^ 32) : firstOf leaves < 2 ^ 32 := by
  cases leaves with
  | nil => exact Nat.two_pow_pos 32
  | cons l ls => exact h l List.mem_cons_self

/-- What is read of the catalog is what its fork has there, wherever the extents part. -/
lemma readFork_catalog {off len : ℕ} (h : off + len ≤ fs.allocated fs.vh.catalog.extents) :
    fs.readFork fs.vh.catalog.extents off len = fs.catalogBytes off len :=
  fs.readFork_eq fs.vh.catalog_le h

lemma readNode_eq (hnum : l.number < 2 ^ 32) (hsize : nodeSize ≤ 2 ^ 15)
    (hroom : l.number * nodeSize + nodeSize ≤ fs.allocated fs.vh.catalog.extents) :
    fs.readNode l.number nodeSize = fs.catalogBytes (l.number * nodeSize) nodeSize := by
  have hplace : saturatingMul l.number nodeSize = l.number * nodeSize := by
    have hle : l.number * nodeSize ≤ 2 ^ 32 * 2 ^ 15 := Nat.mul_le_mul hnum.le hsize
    exact min_eq_left (hle.trans (by decide))
  rw [readNode, hplace, readFork_catalog hroom]

/-- The header leads to the first leaf. -/
lemma IsCatalog.geometry (h : fs.IsCatalog nodeSize leaves) :
    fs.catalogGeometry = some (nodeSize, firstOf leaves) := by
  obtain ⟨lead, lastLeaf, rest, hlead, hlast, hbytes⟩ := h.header
  obtain ⟨hmin, hmax, hpow⟩ := h.size
  have hfirst := firstOf_lt fun l hl => (h.number l hl).2.1
  have hdrop : (fs.catalogBytes 0 512).drop 0 =
      (headerParts lead lastLeaf rest (firstOf leaves) nodeSize).flatten ++ [] := by
    rw [List.drop_zero, hbytes, List.append_nil]
  have hsize : beU16 (fs.catalogBytes 0 512) (0 + 32) = nodeSize :=
    beField_record hdrop 3 rfl (by simp [headerParts, hlead, hlast]) (by omega) (by omega)
  have hleaf : beU32 (fs.catalogBytes 0 512) (0 + 24) = firstOf leaves :=
    beField_record hdrop 1 rfl (by simp [headerParts, hlead]) (by omega) (by omega)
  rw [Nat.zero_add] at hsize hleaf
  unfold catalogGeometry
  dsimp only
  rw [readFork_catalog (by rw [Nat.zero_add]; exact h.room), hsize, hleaf,
    if_neg (not_or.2 ⟨by omega, not_not_intro hpow⟩)]

/-- The leaves are linked one to the next. -/
lemma linked_of_chained (hsize : nodeSize ≤ 2 ^ 15)
    (hnum : ∀ l ∈ leaves, 0 < l.number ∧ l.number < 2 ^ 32 ∧
      l.number * nodeSize + nodeSize ≤ fs.allocated fs.vh.catalog.extents)
    (h : fs.Chained nodeSize leaves) :
    Links.Linked (· = 0) (fs.nodeLink nodeSize) (firstOf leaves) (leaves.map Leaf.number) := by
  induction leaves with
  | nil => exact (rfl : firstOf [] = 0)
  | cons l ls ih =>
    obtain ⟨hpos, hlt, hroom⟩ := hnum l List.mem_cons_self
    have hrest := fun d (hd : d ∈ ls) => hnum d (List.mem_cons_of_mem l hd)
    have hlink : fs.nodeLink nodeSize l.number = firstOf ls := by
      rw [nodeLink, readNode_eq hlt hsize hroom, h.1]
      exact beU32_leaf ((firstOf_lt fun d hd => (hrest d hd).2.1).trans_eq (by norm_num)) l
    refine ⟨rfl, hpos.ne', ?_⟩
    rw [firstOf, hlink]
    exact ih hrest h.2

/-- The leaves that are visited give their entries in turn. -/
lemma foldl_takeNumber (hsize : nodeSize ≤ 2 ^ 15) (hfits : ∀ l ∈ leaves, l.Fits nodeSize)
    (hnum : ∀ l ∈ leaves, l.number < 2 ^ 32 ∧
      l.number * nodeSize + nodeSize ≤ fs.allocated fs.vh.catalog.extents)
    (h : fs.Chained nodeSize leaves) (cap : ℕ) (c : Catalog) :
    (((leaves.map Leaf.number).take cap).foldl (fs.takeNumber nodeSize) c).entries =
      c.entries ++ (leaves.take cap).flatMap fun l => l.records.filterMap CatRec.entry := by
  induction leaves generalizing cap c with
  | nil => simp
  | cons l ls ih =>
    cases cap with
    | zero => simp
    | succ cap =>
      obtain ⟨hlt, hroom⟩ := hnum l List.mem_cons_self
      have hnode : fs.takeNumber nodeSize c l.number =
          takeNode (l.bytes (firstOf ls)) nodeSize c := by
        rw [takeNumber, readNode_eq hlt hsize hroom, h.1]
      rw [List.map_cons, List.take_succ_cons, List.foldl_cons, hnode,
        ih (fun d hd => hfits d (List.mem_cons_of_mem l hd))
          (fun d hd => hnum d (List.mem_cons_of_mem l hd)) h.2,
        takeNode_leaf (hfits l List.mem_cons_self) hsize, List.take_succ_cons, List.flatMap_cons,
        List.append_assoc]

/-- **A catalog is walked** leaf by leaf, up to the greatest number of nodes. -/
lemma IsCatalog.entries (h : fs.IsCatalog nodeSize leaves) :
    fs.walkCatalog.entries =
      (leaves.take maxNodes).flatMap fun l => l.records.filterMap CatRec.entry := by
  have hsize := h.size.2.1
  have hvisits : Links.visits (· = 0) (fs.nodeLink nodeSize) maxNodes (firstOf leaves) [] =
      (leaves.map Leaf.number).take maxNodes :=
    Links.visits_of_linked (linked_of_chained hsize h.number h.chained) h.distinct
      fun d _ hd => absurd hd List.not_mem_nil
  unfold walkCatalog
  rw [h.geometry]
  dsimp only
  rw [walkNodes_eq, hvisits,
    foldl_takeNumber hsize h.fits (fun l hl => (h.number l hl).2) h.chained]
  rfl

end Walk

/-- **The walk of the catalog** delivers the folder and file records of the leaves, each once, up to
the greatest number of nodes.  On any content its loops end of themselves, no node is visited twice,
and a path has no more names than it may have. -/
theorem catalog_exact (fs : Hfs) :
    (∀ nodeSize leaves, fs.IsCatalog nodeSize leaves → fs.walkCatalog.entries =
      (leaves.take maxNodes).flatMap fun l => l.records.filterMap CatRec.entry) ∧
    (∀ nodeSize n budget c, fs.walkNodes nodeSize budget n [] c =
        (fs.nodesFrom nodeSize budget n).foldl (fs.takeNumber nodeSize) c ∧
      (fs.nodesFrom nodeSize budget n).Nodup ∧
      (fs.nodesFrom nodeSize budget n).length ≤ budget ∧
      (n < 2 ^ 32 → 2 ^ 32 < budget →
        fs.walkNodes nodeSize budget n [] c = fs.walkNodes nodeSize (2 ^ 32 + 1) n [] c)) ∧
    (∀ es byteOff len more, len ≤ more →
      fs.readForkFrom es byteOff len more [] = fs.readForkFrom es byteOff len len []) ∧
    (∀ node nodeSize n, (recordOffsets node nodeSize n).length ≤ n) ∧
    ∀ map guard cur, (pathParts map guard cur).length ≤ guard := by
  refine ⟨fun nodeSize leaves h => h.entries, fun nodeSize n budget c => ?_,
    fun es byteOff len more h => ?_, length_recordOffsets_le, length_pathParts_le⟩
  · refine ⟨fs.walkNodes_eq nodeSize budget n [] c, ?_, ?_, fun hn hbudget => ?_⟩
    · exact (Links.nodup_visits budget n []).1
    · exact Links.length_visits_le budget n []
    · exact fs.walkNodes_ends nodeSize hn c hbudget
  · exact fs.readForkFrom_ends es byteOff len (Nat.sub_le len _) h

/-! ## A catalog of many leaves -/

/-- A folder below the root folder. -/
def folderRec (k : ℕ) : CatRec :=
  ⟨rootFolderId, [0x61], .folder (List.replicate 6 0) (16 + k) (List.replicate 76 0)⟩

/-- A leaf with one folder. -/
def folderLeaf (k : ℕ) : Leaf :=
  ⟨k + 1, List.replicate 4 0, 1, [0, 0], [folderRec k], List.replicate 396 0⟩

/-- `n` leaves from number `k + 1` on. -/
def folderLeaves (k n : ℕ) : List Leaf := (List.range' k n).map folderLeaf

/-- The nodes of a catalog with `n` such leaves. -/
def folderNode (n : ℕ) : ℕ → Bytes
  | 0 => (headerParts (List.replicate 24 0) (List.replicate 4 0) (List.replicate 478 0)
      (firstOf (folderLeaves 0 n)) 512).flatten
  | k + 1 => (folderLeaf k).bytes (firstOf (folderLeaves (k + 1) (n - (k + 1))))

/-- The nodes stand one behind the other from byte 4096 on. -/
def folderByte (n x : ℕ) : UInt8 :=
  if x < 4096 then 0 else byteAt (folderNode n ((x - 4096) / 512)) ((x - 4096) % 512)

lemma foldersVolume_start : 8 < 2 ^ 32 := by omega

lemma foldersVolume_count {n : ℕ} (hn : n < 2 ^ 31) : n + 1 < 2 ^ 32 := by omega

lemma foldersVolume_blockSize : 512 ≤ 512 ∧ 512 ≤ 2 ^ 20 := by omega

lemma foldersVolume_extents (e : ExtentDescriptor) : [e].length ≤ 8 := by
  rw [List.length_singleton]
  omega

/-- The volume, in blocks of 512 bytes, the catalog from block 8 on. -/
def foldersVolume (n : ℕ) (hn : n < 2 ^ 31) : Hfs where
  src := ⟨(n + 9) * 512, folderByte n⟩
  vh :=
    { caseSensitive := false
      blockSize := 512
      totalBlocks := n + 9
      catalog := ⟨(n + 1) * 512, n + 1, [⟨8, n + 1, foldersVolume_start, foldersVolume_count hn⟩]⟩
      allocation := ⟨0, 0, []⟩
      blockSize_mem := foldersVolume_blockSize
      catalog_le := foldersVolume_extents _ }

section Folders

variable {n k : ℕ}

lemma folderRec_fits (hk : k < 2 ^ 31) : (folderRec k).Fits := by
  refine ⟨(by decide : 2 < 256 ^ 4), ⟨(by decide : 1 ≤ 255), ?_⟩, ?_⟩
  · intro u hu
    obtain rfl := List.mem_singleton.1 hu
    omega
  · exact ⟨List.length_replicate, by omega, List.length_replicate⟩

lemma folderLeaf_fits (hk : k < 2 ^ 31) : (folderLeaf k).Fits 512 where
  backLink := List.length_replicate
  reserved := rfl
  records r hr := by
    obtain rfl := List.mem_singleton.1 hr
    exact folderRec_fits hk
  length := by
    have hbody : (folderRec k).body.parts.flatten.length = 88 := by
      simp only [folderRec, CatBody.parts, List.flatten_cons, List.flatten_nil, List.length_append,
        List.length_nil, List.length_replicate, length_beBytes]
    have hrecord : (recordBytes [folderRec k]).length = 98 := by
      rw [recordBytes, List.flatMap_singleton, CatRec.bytes, List.length_append, length_keyParts,
        hbody]
      rfl
    simp only [folderLeaf, hrecord, List.length_replicate, List.length_singleton]

/-- The nodes have 512 bytes each. -/
lemma length_folderNode (hn : n < 2 ^ 31) (hk : k ≤ n) : (folderNode n k).length = 512 := by
  cases k with
  | zero =>
    simp only [folderNode, headerParts, List.flatten_cons, List.flatten_nil, List.length_append,
      List.length_nil, List.length_replicate, length_beBytes]
  | succ k => exact (folderLeaf_fits (by omega)).length_bytes

lemma foldersVolume_allocated (hn : n < 2 ^ 31) :
    (foldersVolume n hn).allocated (foldersVolume n hn).vh.catalog.extents = (n + 1) * 512 := by
  simp [allocated, foldersVolume, bs]

lemma blocksOf_foldersVolume (hn : n < 2 ^ 31) :
    (foldersVolume n hn).blocksOf (foldersVolume n hn).vh.catalog.extents =
      [⟨8 * 512, (n + 1) * 512⟩] := by
  have hbs : (foldersVolume n hn).bs = 512 := rfl
  have hextents : (foldersVolume n hn).vh.catalog.extents =
      [⟨8, n + 1, by omega, by omega⟩] := rfl
  rw [hextents, blocksOf_cons, blocksOf_nil, hbs]

/-- A byte of a node is where the node's number says. -/
lemma forkByte_foldersVolume (hn : n < 2 ^ 31) (hk : k ≤ n) {i : ℕ} (hi : i < 512) :
    (foldersVolume n hn).forkByte (foldersVolume n hn).vh.catalog.extents (k * 512 + i) =
      byteAt (folderNode n k) i := by
  have haddr : (extentAddresses [(⟨8 * 512, (n + 1) * 512⟩ : Extent)]).getD (k * 512 + i) 0 =
      4096 + (k * 512 + i) := by
    rw [extentAddresses_cons, List.getD_eq_getElem?_getD]
    dsimp only
    rw [List.getElem?_append_left (by rw [List.length_range']; omega),
      List.getElem?_range' (by omega), Option.getD_some, Nat.one_mul]
  have hin : 4096 + (k * 512 + i) < (foldersVolume n hn).src.len := by
    change 4096 + (k * 512 + i) < (n + 9) * 512
    omega
  have hnode : (4096 + (k * 512 + i) - 4096) / 512 = k := by omega
  have hbyte : (4096 + (k * 512 + i) - 4096) % 512 = i := by omega
  rw [forkByte, blocksOf_foldersVolume, haddr, Volume.byte, if_pos hin]
  change folderByte n _ = _
  rw [folderByte, if_neg (by omega), hnode, hbyte]

/-- A node of the catalog is where its number says. -/
lemma catalogBytes_foldersVolume (hn : n < 2 ^ 31) (hk : k ≤ n) :
    (foldersVolume n hn).catalogBytes (k * 512) 512 = folderNode n k := by
  have hlen := length_folderNode hn hk
  apply ext_byteAt (by rw [catalogBytes, List.length_map, List.length_range, hlen])
  intro i hi
  rw [catalogBytes, List.length_map, List.length_range] at hi
  rw [← forkByte_foldersVolume hn hk hi, byteAt, catalogBytes, List.getD_eq_getElem?_getD,
    List.getElem?_map, List.getElem?_range hi, Option.map_some, Option.getD_some]

lemma chained_foldersVolume (hn : n < 2 ^ 31) (k m : ℕ) (h : k + m = n) :
    (foldersVolume n hn).Chained 512 (folderLeaves k m) := by
  induction m generalizing k with
  | zero => exact trivial
  | succ m ih =>
    refine ⟨?_, ih (k + 1) (by omega)⟩
    have hm : n - (k + 1) = m := by omega
    have hnode := catalogBytes_foldersVolume hn (k := k + 1) (by omega)
    rw [folderNode, hm] at hnode
    exact hnode

/-- **It is a catalog**, of `n` leaves. -/
lemma isCatalog_foldersVolume (hn : n < 2 ^ 31) :
    (foldersVolume n hn).IsCatalog 512 (folderLeaves 0 n) where
  size := by decide
  header := ⟨List.replicate 24 0, List.replicate 4 0, List.replicate 478 0,
    List.length_replicate, List.length_replicate, by
      have hnode := catalogBytes_foldersVolume hn (Nat.zero_le n)
      rw [Nat.zero_mul] at hnode
      exact hnode⟩
  room := by rw [foldersVolume_allocated]; omega
  fits l hl := by
    obtain ⟨k, hk, rfl⟩ := List.mem_map.1 hl
    rw [List.mem_range'_1] at hk
    exact folderLeaf_fits (by omega)
  number l hl := by
    obtain ⟨k, hk, rfl⟩ := List.mem_map.1 hl
    rw [List.mem_range'_1] at hk
    rw [foldersVolume_allocated]
    unfold folderLeaf
    dsimp only
    omega
  distinct := by
    have hnums : (folderLeaves 0 n).map Leaf.number = List.range' 1 n := by
      have hnum : Leaf.number ∘ folderLeaf = (1 + ·) := funext fun k => Nat.add_comm k 1
      rw [folderLeaves, List.map_map, hnum, List.map_add_range']
    rw [hnums]
    exact List.nodup_range'
  chained := chained_foldersVolume hn 0 n (Nat.zero_add n)

/-- Each leaf gives its folder. -/
lemma length_entries_folderLeaves (ls : List ℕ) : (((ls.map folderLeaf).flatMap fun l =>
    l.records.filterMap CatRec.entry).length) = ls.length := by
  induction ls with
  | nil => rfl
  | cons k ls ih => rw [List.map_cons, List.flatMap_cons, List.length_append, ih,
      List.length_cons, Nat.add_comm]; rfl

end Folders

theorem catalog_exact_leaf : (foldersVolume 1 (by decide)).walkCatalog.entries =
    ((folderLeaves 0 1).take maxNodes).flatMap fun l => l.records.filterMap CatRec.entry :=
  (catalog_exact (foldersVolume 1 (by decide))).1 512 _ (isCatalog_foldersVolume (by decide))

/-- The last leaf of a catalog with one more than the greatest number of nodes is not visited. -/
theorem catalog_counterexample : ¬ ∀ (fs : Hfs) (nodeSize : ℕ) (leaves : List Leaf),
    fs.IsCatalog nodeSize leaves →
      fs.walkCatalog.entries = leaves.flatMap fun l => l.records.filterMap CatRec.entry := by
  intro h
  have hcatalog := isCatalog_foldersVolume (n := maxNodes + 1) (by decide)
  have hall := congrArg List.length (h _ _ _ hcatalog)
  rw [hcatalog.entries, folderLeaves, ← List.map_take, length_entries_folderLeaves,
    length_entries_folderLeaves, List.length_take, List.length_range'] at hall
  omega

end Hfs
end Reclaim
