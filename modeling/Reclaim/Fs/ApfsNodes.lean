import Reclaim.Foundation.Fields
import Reclaim.Fs.ApfsObjects

/-!
# Walks of APFS B-trees

A node is laid out with its table behind the header, the keys behind the table, and the values at
the end of the block, in front of the trailer that a root has.  The places of keys count from where
the keys begin, those of values back from where the values end.

`walk_leaves` reads a tree of such nodes record for record if its budget is enough for the nodes,
whatever the pointers are and however `fetch` follows them.  Of other blocks it visits no more nodes
than the budget has.
-/

namespace Reclaim
namespace Apfs

open FileBytes

/-! ## The layout of a node -/

/-- An entry of a node's table: the places and lengths of a key and its value. -/
structure TocEntry where
  keyOff : ℕ
  keyLen : ℕ
  valOff : ℕ
  valLen : ℕ

/-- The entry as the table has it; where sizes are fixed, it has no lengths. -/
def TocEntry.parts (fixed : Bool) (e : TocEntry) : List Bytes :=
  if fixed then [leBytes 2 e.keyOff, leBytes 2 e.valOff]
  else [leBytes 2 e.keyOff, leBytes 2 e.keyLen, leBytes 2 e.valOff, leBytes 2 e.valLen]

/-- The bytes of an entry. -/
def tocWidth (fixed : Bool) : ℕ := if fixed then 4 else 8

lemma TocEntry.length_parts (fixed : Bool) (e : TocEntry) :
    (e.parts fixed).flatten.length = tocWidth fixed := by
  cases fixed <;> simp [TocEntry.parts, tocWidth]

/-- What a node is made of. -/
structure NodeImage where
  /-- Checksum, identifier and transaction. -/
  head : Bytes
  oType : ℕ
  subtype : ℕ
  flags : ℕ
  level : ℕ
  toc : List TocEntry
  /-- Where free space and the lists of it are. -/
  spaces : Bytes
  /-- What lies before the table. -/
  gap : Bytes
  /-- The end of the table that has no entries. -/
  spare : Bytes
  keys : Bytes
  free : Bytes
  vals : Bytes
  trailer : Bytes

namespace NodeImage

variable (img : NodeImage)

def isRoot : Bool := img.flags % 2 == 1

def fixed : Bool := img.flags / 4 % 2 == 1

def isLeaf : Bool := img.flags / 2 % 2 == 1 || img.level == 0

/-- The entries of the table. -/
def table : Bytes := img.toc.flatMap fun e => (e.parts img.fixed).flatten

/-- The parts of the block in turn. -/
def parts : List Bytes :=
  [img.head, leBytes 4 img.oType, leBytes 4 img.subtype, leBytes 2 img.flags, leBytes 2 img.level,
    leBytes 4 img.toc.length, leBytes 2 img.gap.length,
    leBytes 2 (img.table.length + img.spare.length), img.spaces, img.gap, img.table, img.spare,
    img.keys, img.free, img.vals, img.trailer]

/-- The block. -/
def block : Bytes := img.parts.flatten

/-- The key of an entry, whose place counts from where the keys begin. -/
def key (e : TocEntry) : Bytes := (img.keys.drop e.keyOff).take e.keyLen

/-- The value of an entry, whose place counts back from where the values end. -/
def val (e : TocEntry) : Bytes := (img.vals.drop (img.vals.length - e.valOff)).take e.valLen

/-- The keys and values of the node. -/
def records : List (Bytes × Bytes) := img.toc.map fun e => (img.key e, img.val e)

/-- The pointers of an inner node: each value begins with one. -/
def pointers : List ℕ := img.toc.map fun e => leU64 (img.val e) 0

/-- The node that is read from the block. -/
def node : Node where
  block := img.block
  flags := img.flags
  level := img.level
  nkeys := img.toc.length
  tableOff := img.gap.length
  tableLen := img.table.length + img.spare.length

/-- The parts are of the sizes that the format has, numbers fit in their fields, and every key and
value lies in its area. -/
structure Sound (fixedKey fixedVal : ℕ) : Prop where
  head : img.head.length = 24
  kind : img.oType % 65536 = 2 ∨ img.oType % 65536 = 3
  oType : img.oType < 2 ^ 32
  flags : img.flags < 2 ^ 16
  level : img.level < 2 ^ 16
  spaces : img.spaces.length = 12
  gap : img.gap.length < 2 ^ 16
  table : img.table.length + img.spare.length < 2 ^ 16
  trailer : img.trailer.length = if img.isRoot then 40 else 0
  keyIn : ∀ e ∈ img.toc, e.keyOff < 2 ^ 16 ∧ e.keyOff + e.keyLen ≤ img.keys.length
  valIn : ∀ e ∈ img.toc, e.valOff < 2 ^ 16 ∧ e.valOff ≤ img.vals.length ∧ e.valLen ≤ e.valOff
  sizes : img.fixed = true → ∀ e ∈ img.toc,
    e.keyLen = fixedKey ∧ e.valLen = if img.isLeaf then fixedVal else 8
  lengths : img.fixed = false → ∀ e ∈ img.toc, e.keyLen < 2 ^ 16 ∧ e.valLen < 2 ^ 16

/-! ## Reading a node -/

variable {img} {fixedKey fixedVal : ℕ}

lemma length_table (img : NodeImage) : img.table.length = img.toc.length * tocWidth img.fixed := by
  unfold table
  induction img.toc with
  | nil => exact (Nat.zero_mul _).symm
  | cons e es ih =>
    rw [List.flatMap_cons, List.length_append, ih, e.length_parts, List.length_cons]
    ring

/-- Looking up every place of a list in turn gives the list. -/
lemma filterMap_range_getElem? {α : Type} (l : List α) :
    (List.range l.length).filterMap (fun i => l[i]?) = l := by
  induction l with
  | nil => rfl
  | cons a l ih =>
    rw [List.length_cons, List.range_succ_eq_map, List.filterMap_cons, List.filterMap_map]
    exact congrArg (a :: ·) ih

/-- A number in the header is read back. -/
lemma leField_block {k n off : ℕ} (i : ℕ) (hi : img.parts[i]? = some (leBytes k n))
    (hoff : (img.parts.take i).flatten.length = off) (hn : n < 256 ^ k) :
    leField k img.block off = n := by
  have hfield := leField_parts (x := []) i hi hoff hn
  rwa [List.append_nil] at hfield

section Sound

variable (h : img.Sound fixedKey fixedVal)

include h

/-- **Reading back a node.** -/
lemma parse_block : Node.parse img.block = some img.node := by
  have hhead := h.head
  have htoc : img.toc.length * 4 ≤ img.table.length := by
    rw [length_table]
    refine Nat.mul_le_mul_left _ ?_
    unfold tocWidth
    split <;> omega
  have htable := h.table
  have hlen : 56 ≤ img.block.length := by
    have hspaces := h.spaces
    simp only [block, parts, List.flatten_cons, List.flatten_nil, List.length_append,
      length_leBytes]
    omega
  have htype : leU32 img.block 24 = img.oType :=
    leField_block 1 rfl (by simp [parts, hhead]) (h.oType.trans_eq (by norm_num))
  have hflags : leU16 img.block 32 = img.flags :=
    leField_block 3 rfl (by simp [parts, hhead]) (h.flags.trans_eq (by norm_num))
  have hlevel : leU16 img.block 34 = img.level :=
    leField_block 4 rfl (by simp [parts, hhead]) (h.level.trans_eq (by norm_num))
  have hkeys : leU32 img.block 36 = img.toc.length :=
    leField_block 5 rfl (by simp [parts, hhead]) (by omega)
  have hgap : leU16 img.block 40 = img.gap.length :=
    leField_block 6 rfl (by simp [parts, hhead]) (h.gap.trans_eq (by norm_num))
  have hsize : leU16 img.block 42 = img.table.length + img.spare.length :=
    leField_block 7 rfl (by simp [parts, hhead]) (by omega)
  have hobj : ObjPhys.parse img.block = some
      { cksum := leU64 img.block 0
        oid := leU64 img.block 8
        xid := leU64 img.block 16
        oType := img.oType
        subtype := leU32 img.block 28 } := by
    rw [ObjPhys.parse, if_neg (by omega), htype]
  unfold Node.parse
  rw [hobj]
  simp only [ObjPhys.kind, h.kind, hlen, guard, node, hflags, hlevel, hkeys, hgap, hsize,
    Option.bind_eq_bind, Option.bind_some, if_true]
  rfl

lemma entries_node : img.node.entries = img.toc.length := by
  have htable := h.table
  have hlen := img.length_table
  have hpos : 4 ≤ tocWidth img.fixed := by
    unfold tocWidth
    split <;> omega
  have hfits : img.toc.length ≤ (img.table.length + img.spare.length) / tocWidth img.fixed := by
    rw [Nat.le_div_iff_mul_le (by omega), ← hlen]
    exact Nat.le_add_right ..
  have hfew : img.toc.length * 4 ≤ img.table.length := by
    rw [hlen]
    exact Nat.mul_le_mul_left _ hpos
  have hmany : min img.toc.length (2 ^ 20) = img.toc.length := min_eq_left (by omega)
  have hentries : img.node.entries = min (min img.toc.length (2 ^ 20))
      ((img.table.length + img.spare.length) / tocWidth img.fixed) := rfl
  rw [hentries, hmany, min_eq_left hfits]

/-- An entry of the table is read back. -/
lemma tocEntry_node {i : ℕ} {e : TocEntry} (he : img.toc[i]? = some e) :
    img.node.tocEntry i = if img.fixed then (e.keyOff, 0, e.valOff, 0)
      else (e.keyOff, e.keyLen, e.valOff, e.valLen) := by
  have hmem := List.mem_of_getElem? he
  have hkey := (h.keyIn e hmem).1
  have hval := (h.valIn e hmem).1
  have hpos : (img.parts.take 10).flatten.length = 56 + img.gap.length := by
    simp [parts, h.head, h.spaces]
    omega
  have hsplit : img.block = (img.parts.take 10).flatten ++
      (img.table ++ (img.parts.drop 11).flatten) := flatten_split rfl
  obtain ⟨x, hx⟩ := drop_flatMap (fun e => TocEntry.length_parts img.fixed e) he
    (img.parts.drop 11).flatten
  have hdrop : img.block.drop (56 + img.gap.length + i * tocWidth img.fixed) =
      (e.parts img.fixed).flatten ++ x := by
    rw [hsplit, ← List.drop_drop, List.drop_left' hpos]
    exact hx
  have hfield : ∀ off, leU16 img.block (56 + img.gap.length + i * tocWidth img.fixed + off) =
      leU16 ((e.parts img.fixed).flatten ++ x) off := by
    intro off
    rw [← hdrop]
    exact (leField_drop (by norm_num) _).symm
  have hnode : img.node.fixed = img.fixed := rfl
  unfold Node.tocEntry
  rw [hnode]
  cases hfixed : img.fixed with
  | false =>
    obtain ⟨hklen, hvlen⟩ := h.lengths hfixed e hmem
    rw [hfixed] at hfield
    have hkoff : leU16 img.block (56 + img.gap.length + i * 8) = e.keyOff :=
      (hfield 0).trans (leField_parts 0 rfl rfl hkey)
    have hkeyLen : leU16 img.block (56 + img.gap.length + i * 8 + 2) = e.keyLen :=
      (hfield 2).trans (leField_parts 1 rfl rfl hklen)
    have hvoff : leU16 img.block (56 + img.gap.length + i * 8 + 4) = e.valOff :=
      (hfield 4).trans (leField_parts 2 rfl rfl hval)
    have hvalLen : leU16 img.block (56 + img.gap.length + i * 8 + 6) = e.valLen :=
      (hfield 6).trans (leField_parts 3 rfl rfl hvlen)
    show (leU16 img.block (56 + img.gap.length + i * 8), _, _, _) = _
    simp only [node, hkoff, hkeyLen, hvoff, hvalLen, Bool.false_eq_true, if_false]
  | true =>
    rw [hfixed] at hfield
    have hkoff : leU16 img.block (56 + img.gap.length + i * 4) = e.keyOff :=
      (hfield 0).trans (leField_parts 0 rfl rfl hkey)
    have hvoff : leU16 img.block (56 + img.gap.length + i * 4 + 2) = e.valOff :=
      (hfield 2).trans (leField_parts 1 rfl rfl hval)
    simp only [node, hkoff, hvoff, if_true]

/-- Keys begin where their area does. -/
lemma keyArea_node : (img.parts.take 12).flatten.length = img.node.keyArea := by
  simp [parts, h.head, h.spaces, node, Node.keyArea]
  omega

/-- Values end where their area does. -/
lemma valBase_node : (img.parts.take 14).flatten.length + img.vals.length = img.node.valBase := by
  have hroot : img.node.isRoot = img.isRoot := rfl
  have htrailer := h.trailer
  simp only [Node.valBase, hroot, ← htrailer]
  simp [parts, node, block]
  omega

/-- **Reading back an entry** gives its key and its value. -/
lemma record_node {i v : ℕ} {e : TocEntry} (he : img.toc[i]? = some e)
    (hv : img.isLeaf = true → v = fixedVal) :
    img.node.record fixedKey v i = some (img.key e, img.val e) := by
  have hmem := List.mem_of_getElem? he
  obtain ⟨-, hkey⟩ := h.keyIn e hmem
  obtain ⟨-, hval, hvlen⟩ := h.valIn e hmem
  have hentry := tocEntry_node h he
  have hkeys := keyArea_node h
  have hvals := valBase_node h
  have hkoff : (img.node.tocEntry i).1 = e.keyOff := by
    rw [hentry]
    split <;> rfl
  have hvoff : (img.node.tocEntry i).2.2.1 = e.valOff := by
    rw [hentry]
    split <;> rfl
  have hklen : (if img.node.fixed then fixedKey else (img.node.tocEntry i).2.1) = e.keyLen := by
    have hnode : img.node.fixed = img.fixed := rfl
    rw [hnode, hentry]
    cases hfixed : img.fixed with
    | false => rfl
    | true => exact ((h.sizes hfixed e hmem).1).symm
  have hvlen' : (if img.node.fixed then if img.node.isLeaf then v else 8
      else (img.node.tocEntry i).2.2.2) = e.valLen := by
    have hnode : img.node.fixed = img.fixed := rfl
    have hleaf : img.node.isLeaf = img.isLeaf := rfl
    rw [hnode, hleaf, hentry]
    cases hfixed : img.fixed with
    | false => rfl
    | true =>
      rw [(h.sizes hfixed e hmem).2]
      cases hl : img.isLeaf with
      | false => rfl
      | true => exact hv hl
  have hplace : img.node.valBase - e.valOff =
      (img.parts.take 14).flatten.length + (img.vals.length - e.valOff) := by omega
  have hgetKey : getRange img.parts.flatten (img.node.keyArea + e.keyOff) e.keyLen =
      some (img.key e) := getRange_parts 12 rfl hkeys hkey
  have hgetVal : getRange img.parts.flatten (img.node.valBase - e.valOff) e.valLen =
      some (img.val e) := by
    rw [hplace]
    exact getRange_parts 14 rfl rfl (by omega)
  have hblock : img.node.block = img.parts.flatten := rfl
  unfold Node.record
  dsimp only
  rw [hkoff, hvoff, hklen, hvlen', hblock, hgetKey, hgetVal]
  have hbase : e.valOff ≤ img.node.valBase := by omega
  simp only [guard, hbase, if_true, Option.bind_eq_bind, Option.bind_some]
  rfl

/-- **Reading back a node's records.** -/
lemma records_node {v : ℕ} (hv : img.isLeaf = true → v = fixedVal) :
    img.node.records fixedKey v = img.records := by
  have hall : ∀ i, i < img.toc.length → img.node.record fixedKey v i =
      img.records[i]? := by
    intro i hi
    have he : img.toc[i]? = some img.toc[i] := List.getElem?_eq_getElem hi
    rw [record_node h he hv, records, List.getElem?_map, he]
    rfl
  have hlen : img.toc.length = img.records.length := (List.length_map _).symm
  rw [Node.records, entries_node h, List.filterMap_congr fun i hi => hall i (List.mem_range.1 hi),
    hlen, filterMap_range_getElem?]

end Sound

end NodeImage

/-! ## Trees of nodes -/

/-- A tree whose leaves are all so many levels down. -/
def TreeAt : ℕ → Type
  | 0 => NodeImage
  | l + 1 => NodeImage × List (TreeAt l)

namespace TreeAt

/-- The node at the root. -/
def root : (l : ℕ) → TreeAt l → NodeImage
  | 0, img => img
  | _ + 1, t => t.1

/-- The records of the leaves, from left to right. -/
def records : (l : ℕ) → TreeAt l → List (Bytes × Bytes)
  | 0, img => NodeImage.records img
  | l + 1, t => t.2.flatMap (records l)

/-- The pointers of all inner nodes. -/
def pointers : (l : ℕ) → TreeAt l → List ℕ
  | 0, _ => []
  | l + 1, t => t.1.pointers ++ t.2.flatMap (pointers l)

/-- How many nodes the tree has. -/
def nodes : (l : ℕ) → TreeAt l → ℕ
  | 0, _ => 1
  | l + 1, t => (t.2.map (nodes l)).sum + 1

/-- Every node is sound and of its level, and `fetch` leads from each pointer of an inner node to
the block of its child. -/
def Sound (fetch : ℕ → Option Bytes) (fixedKey fixedVal : ℕ) : (l : ℕ) → TreeAt l → Prop
  | 0, img => NodeImage.Sound img fixedKey fixedVal ∧ NodeImage.level img = 0
  | l + 1, t => t.1.Sound fixedKey fixedVal ∧ t.1.level = l + 1 ∧ t.1.isLeaf = false ∧
      t.1.pointers.map fetch = t.2.map (fun c => some (root l c).block) ∧
        ∀ c ∈ t.2, Sound fetch fixedKey fixedVal l c

variable {fetch : ℕ → Option Bytes} {fixedKey fixedVal : ℕ}

lemma Sound.image {l : ℕ} {t : TreeAt l} (h : Sound fetch fixedKey fixedVal l t) :
    (root l t).Sound fixedKey fixedVal ∧ (root l t).level = l := by
  cases l with
  | zero => exact h
  | succ l => exact ⟨h.1, h.2.1⟩

/-- A walk sees the records of a leaf. -/
lemma view_leaf {img : NodeImage} (h : img.Sound fixedKey fixedVal) (hleaf : img.isLeaf = true) :
    (bTree fetch fixedKey fixedVal).view img.node = .inl img.records := by
  have hnode : img.node.isLeaf = true := hleaf
  show (if img.node.isLeaf then Sum.inl _ else _) = _
  rw [if_pos hnode, NodeImage.records_node h fun _ => rfl]

/-- A walk sees the pointers of an inner node. -/
lemma view_inner {img : NodeImage} (h : img.Sound fixedKey fixedVal) (hleaf : img.isLeaf = false) :
    (bTree fetch fixedKey fixedVal).view img.node = .inr img.pointers := by
  have hnode : img.node.isLeaf = false := hleaf
  show (if img.node.isLeaf then _ else Sum.inr _) = _
  have hrecords : img.node.records fixedKey 8 = img.records :=
    NodeImage.records_node h fun hl => absurd (hleaf.symm.trans hl) Bool.false_ne_true
  rw [hnode, if_neg Bool.false_ne_true, hrecords, NodeImage.records, List.map_map]
  rfl

/-- The pointers of a sound node lead to its children. -/
lemma children_eq {l : ℕ} {ps : List ℕ} {cs : List (TreeAt l)} {n : Node} (hn : n.level = l + 1)
    (hfetch : ps.map fetch = cs.map fun c => some (root l c).block)
    (hsound : ∀ c ∈ cs, Sound fetch fixedKey fixedVal l c) :
    ps.map ((bTree fetch fixedKey fixedVal).child n) =
      (cs.map fun c => (root l c).node).map some := by
  have hchild : (bTree fetch fixedKey fixedVal).child n =
      (fun b : Option Bytes => (b.bind Node.parse).filter fun c => decide (c.level < n.level)) ∘
        fetch := rfl
  rw [hchild, ← List.map_map, hfetch, List.map_map, List.map_map]
  refine List.map_congr_left fun c hc => ?_
  obtain ⟨himage, hlevel⟩ := (hsound c hc).image
  have hlower : decide ((root l c).node.level < n.level) = true := by
    have hnode : (root l c).node.level = l := hlevel
    rw [hnode, hn]
    exact decide_eq_true (Nat.lt_succ_self l)
  show (((some (root l c).block).bind Node.parse).filter _) = some (root l c).node
  rw [Option.bind_some, NodeImage.parse_block himage, Option.filter_some, if_pos hlower]

/-- A forest is walked from its last tree to its first. -/
lemma grown_forest {l : ℕ} {cs : List (TreeAt l)}
    (h : ∀ c ∈ cs, ∃ ps rs, NodeWalk.Grown (bTree fetch fixedKey fixedVal) [(root l c).node]
      (nodes l c) ps rs ∧ ps.Perm (pointers l c) ∧ rs.Perm (records l c)) :
    ∃ ps rs, NodeWalk.Grown (bTree fetch fixedKey fixedVal)
        (cs.map fun c => (root l c).node).reverse (cs.map (nodes l)).sum ps rs ∧
      ps.Perm (cs.flatMap (pointers l)) ∧ rs.Perm (cs.flatMap (records l)) := by
  induction cs with
  | nil => exact ⟨[], [], .nil, .refl _, .refl _⟩
  | cons c cs ih =>
    obtain ⟨ps, rs, hgrown, hps, hrs⟩ := h c List.mem_cons_self
    obtain ⟨ps', rs', hgrown', hps', hrs'⟩ := ih fun d hd => h d (List.mem_cons_of_mem c hd)
    refine ⟨ps' ++ ps, rs' ++ rs, ?_, ?_, ?_⟩
    · rw [List.map_cons, List.reverse_cons, List.map_cons, List.sum_cons, Nat.add_comm]
      exact hgrown'.append hgrown
    · rw [List.flatMap_cons]
      exact (hps'.append hps).trans List.perm_append_comm
    · rw [List.flatMap_cons]
      exact (hrs'.append hrs).trans List.perm_append_comm

/-- **A tree of sound nodes is a tree for a walk.** -/
lemma grown_root {l : ℕ} {t : TreeAt l} (h : Sound fetch fixedKey fixedVal l t) :
    ∃ ps rs, NodeWalk.Grown (bTree fetch fixedKey fixedVal) [(root l t).node] (nodes l t) ps rs ∧
      ps.Perm (pointers l t) ∧ rs.Perm (records l t) := by
  induction l with
  | zero =>
    obtain ⟨himage, hlevel⟩ := h
    have hleaf : (root 0 t).isLeaf = true := by
      have hzero : (root 0 t).level = 0 := hlevel
      simp [NodeImage.isLeaf, hzero]
    refine ⟨[], _, .leaf (view_leaf himage hleaf) .nil, .refl _, ?_⟩
    rw [List.append_nil]
    exact .refl _
  | succ l ih =>
    obtain ⟨himage, hlevel, hleaf, hfetch, hsound⟩ := h
    obtain ⟨ps, rs, hgrown, hps, hrs⟩ := grown_forest fun c hc => ih (hsound c hc)
    refine ⟨t.1.pointers ++ ps, rs, .inner (view_inner himage hleaf)
      (children_eq hlevel hfetch hsound) ?_, hps.append_left _, hrs⟩
    rwa [List.append_nil]

end TreeAt

/-! ## The cost of a walk -/

lemma tableLen_lt {block : Bytes} {n : Node} (h : Node.parse block = some n) :
    n.tableLen < 2 ^ 16 := by
  unfold Node.parse at h
  obtain ⟨obj, -, h⟩ := Option.bind_eq_some_iff.1 h
  obtain ⟨-, -, h⟩ := Option.bind_eq_some_iff.1 h
  obtain ⟨-, -, h⟩ := Option.bind_eq_some_iff.1 h
  obtain rfl := Option.some.inj h
  exact leU16_lt ..

/-- A table has room for so many entries. -/
lemma entries_le {n : Node} (h : n.tableLen < 2 ^ 16) : n.entries ≤ 16383 := by
  refine (min_le_right ..).trans ?_
  split
  · omega
  · omega

lemma length_pointers_le {fetch : ℕ → Option Bytes} {fixedKey fixedVal : ℕ} {n : Node}
    (h : n.tableLen < 2 ^ 16) :
    ((bTree fetch fixedKey fixedVal).pointers n).length ≤ 16383 := by
  have hrecords : (n.records fixedKey 8).length ≤ 16383 := by
    refine (List.length_filterMap_le ..).trans ?_
    rw [List.length_range]
    exact entries_le h
  have hview : (bTree fetch fixedKey fixedVal).view n =
      if n.isLeaf then .inl (n.records fixedKey fixedVal)
      else .inr ((n.records fixedKey 8).map fun r => leU64 r.2 0) := rfl
  rw [NodeWalk.Nodes.pointers, hview]
  cases n.isLeaf with
  | true => exact Nat.zero_le _
  | false =>
    show ((n.records fixedKey 8).map _).length ≤ 16383
    rwa [List.length_map]

/-- All nodes that are visited are nodes that were read. -/
lemma tableLen_lt_of_mem_run {fetch : ℕ → Option Bytes} {fixedKey fixedVal budget : ℕ} {root : Node}
    (hroot : root.tableLen < 2 ^ 16) :
    ∀ n ∈ (NodeWalk.run (bTree fetch fixedKey fixedVal) budget ([], [root])).1,
      n.tableLen < 2 ^ 16 := by
  refine NodeWalk.run_forall (fun n p c _ hc => ?_) budget ([], [root])
    (List.forall_mem_singleton.2 hroot)
  obtain ⟨b, -, hb⟩ := Option.bind_eq_some_iff.1 (Option.filter_eq_some_iff.1 hc).1
  exact tableLen_lt hb

/-- **Walks of B-trees.**  Whatever the blocks are, the walk visits no more nodes than its budget
has, and follows no pointer twice and no more of them than the tables of these nodes have room for;
what it returns are the records of the leaves among them.  If the root is that of a sound tree that
the budget is enough for, these are the records of the tree, each once. -/
theorem walkLeaves_exact (fetch : ℕ → Option Bytes) (fixedKey fixedVal budget : ℕ) (block : Bytes)
    (root : Node) (hroot : Node.parse block = some root) :
    let t := bTree fetch fixedKey fixedVal
    let run := NodeWalk.run t budget ([], [root])
    let out := walkLeaves root fetch fixedKey fixedVal budget
    (out.1 = run.1.flatMap t.leafRecords ∧ run.1.length + out.2 = budget ∧ run.2.Nodup ∧
      run.2.length ≤ 16383 * run.1.length) ∧
    ∀ (l : ℕ) (tree : TreeAt l), TreeAt.Sound fetch fixedKey fixedVal l tree →
      (TreeAt.root l tree).block = block → (TreeAt.pointers l tree).Nodup →
        TreeAt.nodes l tree ≤ budget →
          out.1.Perm (TreeAt.records l tree) ∧ out.2 = budget - TreeAt.nodes l tree := by
  intro t run out
  obtain ⟨hrecords, hcost⟩ := NodeWalk.walk_eq_run (t := t) budget ([], [root])
  obtain ⟨hnodup, hlen⟩ := NodeWalk.run_followed (t := t) budget ([], [root]) List.nodup_nil
  have hfew : (run.1.map fun n => (t.pointers n).length).sum ≤ run.1.length * 16383 := by
    have hsum := List.sum_le_card_nsmul (run.1.map fun n => (t.pointers n).length) 16383
      (List.forall_mem_map.2 fun n hn =>
        length_pointers_le (tableLen_lt_of_mem_run (tableLen_lt hroot) n hn))
    rwa [List.length_map, smul_eq_mul] at hsum
  rw [List.length_nil, Nat.zero_add] at hlen
  refine ⟨⟨hrecords, hcost, hnodup, by rw [Nat.mul_comm]; exact hlen.trans hfew⟩, ?_⟩
  intro l tree hsound hblock hpointers hbudget
  have hnode : root = (TreeAt.root l tree).node := by
    rw [← hblock, NodeImage.parse_block hsound.image.1] at hroot
    exact (Option.some.inj hroot).symm
  obtain ⟨ps, rs, hgrown, hps, hrs⟩ := TreeAt.grown_root hsound
  have hwalk := hgrown.walk (hps.nodup_iff.2 hpointers) [] (fun p _ => List.not_mem_nil)
    (budget - TreeAt.nodes l tree)
  rw [Nat.add_sub_cancel' hbudget, ← hnode] at hwalk
  have hout : out = (rs, budget - TreeAt.nodes l tree) := hwalk
  rw [hout]
  exact ⟨hrs, rfl⟩

/-! ## A sample -/

/-- A leaf of an object map, with one record. -/
def oneRecord (x : UInt8) : NodeImage where
  head := List.replicate 24 0
  oType := 3
  subtype := 0xB
  flags := 6
  level := 0
  toc := [⟨0, 16, 16, 16⟩]
  spaces := List.replicate 12 0
  gap := []
  spare := []
  keys := List.replicate 16 x
  free := List.replicate 4004 0
  vals := List.replicate 16 x
  trailer := []

/-- The root of an object map, with children in blocks 8 and 9. -/
def twoChildren : NodeImage where
  head := List.replicate 24 0
  oType := 2
  subtype := 0xB
  flags := 5
  level := 1
  toc := [⟨0, 16, 8, 8⟩, ⟨16, 16, 16, 8⟩]
  spaces := List.replicate 12 0
  gap := []
  spare := []
  keys := List.replicate 32 0
  free := List.replicate 3944 0
  vals := leBytes 8 9 ++ leBytes 8 8
  trailer := List.replicate 40 0

/-- The blocks of the children. -/
def twoBlocks : ℕ → Option Bytes
  | 8 => some (oneRecord 1).block
  | 9 => some (oneRecord 2).block
  | _ => none

/-- The object map. -/
def twoLeaves : TreeAt 1 := (twoChildren, [oneRecord 1, oneRecord 2])

lemma fixed_oneRecord (x : UInt8) : (oneRecord x).fixed = true := by
  show (6 / 4 % 2 == 1) = true
  rfl

lemma isLeaf_oneRecord (x : UInt8) : (oneRecord x).isLeaf = true := by
  show (6 / 2 % 2 == 1 || 0 == 0) = true
  rfl

lemma isRoot_oneRecord (x : UInt8) : (oneRecord x).isRoot = false := by
  show (6 % 2 == 1) = false
  rfl

lemma oneRecord_sound (x : UInt8) : (oneRecord x).Sound 16 16 where
  head := rfl
  kind := .inr rfl
  oType := by norm_num [oneRecord]
  flags := by norm_num [oneRecord]
  level := by norm_num [oneRecord]
  spaces := rfl
  gap := by norm_num [oneRecord]
  table := by
    have hlen : (oneRecord x).table.length = 1 * tocWidth (oneRecord x).fixed :=
      (oneRecord x).length_table
    rw [fixed_oneRecord] at hlen
    exact lt_of_eq_of_lt hlen (by norm_num [tocWidth])
  trailer := by
    rw [isRoot_oneRecord]
    rfl
  keyIn := List.forall_mem_singleton.2 (by norm_num [oneRecord])
  valIn := List.forall_mem_singleton.2 (by norm_num [oneRecord])
  sizes _ := List.forall_mem_singleton.2 ⟨rfl, (if_pos (isLeaf_oneRecord x)).symm⟩
  lengths h := absurd ((fixed_oneRecord x).symm.trans h) Bool.false_ne_true.symm

lemma twoChildren_sound : twoChildren.Sound 16 16 where
  head := rfl
  kind := .inl rfl
  oType := by norm_num [twoChildren]
  flags := by norm_num [twoChildren]
  level := by norm_num [twoChildren]
  spaces := rfl
  gap := by norm_num [twoChildren]
  table := by
    have hlen : twoChildren.table.length = 2 * 4 := twoChildren.length_table
    exact lt_of_eq_of_lt hlen (by norm_num)
  trailer := rfl
  keyIn := by norm_num [twoChildren]
  valIn := by norm_num [twoChildren]
  sizes _ := List.forall_mem_cons.2 ⟨⟨rfl, (if_neg Bool.false_ne_true).symm⟩,
    List.forall_mem_singleton.2 ⟨rfl, (if_neg Bool.false_ne_true).symm⟩⟩
  lengths h := absurd h.symm Bool.false_ne_true

lemma twoLeaves_sound : TreeAt.Sound twoBlocks 16 16 1 twoLeaves := by
  refine ⟨twoChildren_sound, rfl, rfl, rfl, ?_⟩
  exact List.forall_mem_cons.2 ⟨⟨oneRecord_sound 1, rfl⟩,
    List.forall_mem_singleton.2 ⟨oneRecord_sound 2, rfl⟩⟩

/-- A budget of three is enough for both records. -/
theorem twoLeaves_exact :
    (walkLeaves twoChildren.node twoBlocks 16 16 3).1.Perm (TreeAt.records 1 twoLeaves) ∧
      (walkLeaves twoChildren.node twoBlocks 16 16 3).2 = 0 :=
  (walkLeaves_exact twoBlocks 16 16 3 twoChildren.block twoChildren.node
    (NodeImage.parse_block twoChildren_sound)).2 1 twoLeaves twoLeaves_sound rfl (by decide) le_rfl

/-- With a budget of one, both children are read. -/
theorem walkLeaves_counterexample :
    Node.parse twoChildren.block = some twoChildren.node ∧
      ¬ (NodeWalk.run (bTree twoBlocks 16 16) 1 ([], [twoChildren.node])).2.length ≤ 1 := by
  refine ⟨NodeImage.parse_block twoChildren_sound, ?_⟩
  have hview : (bTree twoBlocks 16 16).view twoChildren.node = .inr twoChildren.pointers :=
    TreeAt.view_inner twoChildren_sound rfl
  have hpointers : twoChildren.pointers = [8, 9] := rfl
  rw [NodeWalk.run_inner hview, hpointers]
  show ¬ ([9, 8] : List ℕ).length ≤ 1
  decide

end Apfs
end Reclaim
