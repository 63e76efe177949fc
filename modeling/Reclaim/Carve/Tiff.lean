import Reclaim.Carve.FileView

/-!
# TIFF files

A TIFF file is a graph of directories: each has entries, its strips and tiles lie where the values
of two of them say, and it names a next directory and sub-directories.  Nothing says where the file
ends, so the validator walks the graph, within limits on directories and on values, and takes the
largest end of what it comes by.  The walk keeps a record of the directories it visits, which the
code does not have.
-/

namespace Reclaim

open FileBytes

namespace Tiff

/-- `MAX`. -/
def maxSize : ℕ := 2 * 1024 * 1024 * 1024

/-- `MAX_IFDS`: the most directories of one chain. -/
def maxIfds : ℕ := 64

/-- `MAX_ENTRIES`: the most entries of a directory. -/
def maxEntries : ℕ := 4096

/-- The most values of one array that are read. -/
def maxValues : ℕ := 16384

/-- What a walk reads: the byte order, how many bytes there are, and the reader. -/
structure Env where
  be : Bool
  avail : ℕ
  read : ℕ → ℕ → ReadProg Bytes

/-- The number of `n` bytes at a position, in the byte order. -/
def Env.number (env : Env) (n : ℕ) (b : Bytes) (o : ℕ) : Option ℕ :=
  if env.be then getBe n b o else getLe n b o

/-- `Order::u16`. -/
def Env.u16 (env : Env) (b : Bytes) (o : ℕ) : Option ℕ := env.number 2 b o

/-- `Order::u32`. -/
def Env.u32 (env : Env) (b : Bytes) (o : ℕ) : Option ℕ := env.number 4 b o

/-- `type_size`. -/
def typeSize (typ : ℕ) : ℕ :=
  if typ ∈ [1, 2, 6, 7] then 1
  else if typ ∈ [3, 8] then 2
  else if typ ∈ [4, 9, 11] then 4
  else if typ ∈ [5, 10, 12] then 8
  else 1

/-- An entry of a directory. -/
structure Entry where
  tag : ℕ
  typ : ℕ
  count : ℕ
  /-- The values, or where they are. -/
  field : Bytes

/-- How many bytes the values take. -/
def Entry.total (e : Entry) : ℕ := typeSize e.typ * e.count

/-- The entry with an index among the bytes of the entries. -/
def entryAt (env : Env) (entries : Bytes) (i : ℕ) : Entry where
  tag := (env.u16 entries (i * 12)).getD 0
  typ := (env.u16 entries (i * 12 + 2)).getD 0
  count := (env.u32 entries (i * 12 + 4)).getD 0
  field := (getRange entries (i * 12 + 8) 4).getD []

/-- The value with an index in an array. -/
def element (env : Env) (typ : ℕ) (bytes : Bytes) (i : ℕ) : Option ℕ :=
  if typ = 3 then env.u16 bytes (i * 2)
  else if typ ∈ [1, 2, 7] then bytes[i]?.map UInt8.toNat
  else env.u32 bytes (i * 4)

/-- `n` values of an array from index `i` on, up to the first that the bytes do not have. -/
def elements (env : Env) (typ : ℕ) (bytes : Bytes) : (n i : ℕ) → List ℕ
  | 0, _ => []
  | n + 1, i =>
    match element env typ bytes i with
    | some v => v :: elements env typ bytes n (i + 1)
    | none => []

/-- `read_values`: the values of an entry, and what is left of the budget. -/
def readValues (env : Env) (e : Entry) (budget : ℕ) : ReadProg (List ℕ × ℕ) :=
  let allow := min (min e.count budget) maxValues
  let left := budget - allow
  if allow = 0 then pure ([], left)
  else if e.total ≤ 4 then pure (elements env e.typ e.field allow 0, left)
  else
    let off := (env.u32 e.field 0).getD 0
    if env.avail ≤ off then pure ([], left)
    else do
      let bytes ← env.read off (min (typeSize e.typ * allow) (256 * 1024))
      pure (elements env e.typ bytes allow 0, left)

/-! ## Texts -/

/-- The printable text up to the first zero, without spaces at its ends, if there is any. -/
def asciiText (bytes : Bytes) : Option Bytes :=
  let s := (bytes.takeWhile (· != 0)).filter fun c => 0x20 ≤ c && c ≤ 0x7E
  let t := ((s.dropWhile (· == 0x20)).reverse.dropWhile (· == 0x20)).reverse
  if t = [] then none else some t

/-- `ascii_value`. -/
def asciiValue (env : Env) (e : Entry) : ReadProg (Option Bytes) :=
  if e.total ≤ 4 then pure (asciiText e.field)
  else
    match env.u32 e.field 0 with
    | none => pure none
    | some off =>
      if env.avail ≤ off then pure none
      else do
        let bytes ← env.read off (min e.total 256)
        pure (asciiText bytes)

/-- The text that bytes spell. -/
def textOf (b : Bytes) : String := String.ofList (b.map fun c => Char.ofNat c.toNat)

/-- `exif_date`: the day of `YYYY:MM:DD`, with dashes. -/
def exifDate (s : Bytes) : Option String :=
  let d := s.take 10
  let shape := (List.range 10).all fun i =>
    if i = 4 ∨ i = 7 then byteAt d i == 0x3A || byteAt d i == 0x2D
    else 0x30 ≤ byteAt d i && byteAt d i ≤ 0x39
  if d.length = 10 ∧ shape = true then some (textOf (d.map fun c => if c = 0x3A then 0x2D else c))
  else none

/-- The makers that a `Make` in capitals may contain, and the id of their raw files. -/
def makers : List (List String × String) :=
  [(["NIKON"], "raw.nef"), (["SONY"], "raw.arw"), (["CANON"], "raw.cr2"),
    (["OLYMPUS", "OM DIGITAL"], "raw.orf"), (["PANASONIC"], "raw.rw2"),
    (["PENTAX", "RICOH"], "raw.pef"), (["SAMSUNG"], "raw.srw"), (["HASSELBLAD"], "raw.3fr"),
    (["EPSON"], "raw.erf"), (["KODAK"], "raw.kdc"), (["FUJI"], "raw.raf")]

/-- `to_ascii_uppercase`. -/
def capitals (b : Bytes) : Bytes := b.map fun c => if 0x61 ≤ c ∧ c ≤ 0x7A then c - 0x20 else c

/-! ## Directories -/

/-- What the entries of a directory say about its ranges and its sub-directories. -/
structure Arrays where
  stripOffs : List ℕ
  stripCounts : List ℕ
  tileOffs : List ℕ
  tileCounts : List ℕ
  jpegIf : Option ℕ
  jpegLen : Option ℕ
  subIfds : List ℕ
  exifIfd : Option ℕ

namespace Arrays

/-- Nothing yet. -/
def nothing : Arrays := ⟨[], [], [], [], none, none, [], none⟩

/-- The tags whose values are kept. -/
def tags : List ℕ := [273, 279, 324, 325, 513, 514, 330, 34665]

/-- Keep the values of a tag. -/
def store (a : Arrays) (tag : ℕ) (v : List ℕ) : Arrays :=
  if tag = 273 then { a with stripOffs := v }
  else if tag = 279 then { a with stripCounts := v }
  else if tag = 324 then { a with tileOffs := v }
  else if tag = 325 then { a with tileCounts := v }
  else if tag = 513 then { a with jpegIf := v.head? }
  else if tag = 514 then { a with jpegLen := v.head? }
  else if tag = 330 then { a with subIfds := v }
  else if tag = 34665 then { a with exifIfd := v.head? }
  else a

/-- The ranges: strips, tiles and the thumbnail, each with its offset and its length. -/
def ranges (a : Arrays) : List (ℕ × ℕ) :=
  a.stripOffs.zip a.stripCounts ++ a.tileOffs.zip a.tileCounts ++
    a.jpegIf.toList.zip a.jpegLen.toList

end Arrays

/-- A directory that was visited. -/
structure Visit where
  off : ℕ
  /-- How many entries it has. -/
  count : ℕ
  arrays : Arrays

/-- Where a directory ends. -/
def Visit.stop (i : Visit) : ℕ := i.off + 2 + i.count * 12 + 4

/-- `Walk`. -/
structure Walk where
  maxExtent : ℕ
  ifdEnd : ℕ
  ifds : ℕ
  make : Option Bytes
  model : Option Bytes
  date : Option String
  isDng : Bool
  /-- Directories that may still be visited. -/
  ifdBudget : ℕ
  /-- Values that may still be read. -/
  elemBudget : ℕ
  /-- The directories so far, the last one first. -/
  visited : List Visit

/-- `Walk::new`. -/
def Walk.new : Walk := ⟨0, 0, 0, none, none, none, false, 4096, 2000000, []⟩

/-- One entry of a directory. -/
def visitEntry (env : Env) (e : Entry) (s : Walk × Arrays) : ReadProg (Walk × Arrays) :=
  if e.tag = 271 then do
    let v ← asciiValue env e
    pure ({ s.1 with make := v }, s.2)
  else if e.tag = 272 then do
    let v ← asciiValue env e
    pure ({ s.1 with model := v }, s.2)
  else if e.tag = 306 ∨ e.tag = 36867 then
    if s.1.date.isSome then pure s
    else do
      let v ← asciiValue env e
      pure ({ s.1 with date := v.bind exifDate }, s.2)
  else if e.tag ∈ Arrays.tags then do
    let v ← readValues env e s.1.elemBudget
    pure ({ s.1 with elemBudget := v.2 }, s.2.store e.tag v.1)
  else if e.tag = 0xC612 then pure ({ s.1 with isDng := true }, s.2)
  else pure s

/-- The entries of a directory. -/
def visitEntries (env : Env) : List Entry → Walk × Arrays → ReadProg (Walk × Arrays)
  | [], s => pure s
  | e :: rest, s => do
    let s ← visitEntry env e s
    visitEntries env rest s

/-- The entries among their bytes. -/
def entriesOf (env : Env) (count : ℕ) (entries : Bytes) : List Entry :=
  (List.range count).map (entryAt env entries)

/-- What the ranges of a directory add. -/
def Walk.extend (st : Walk) (ranges : List (ℕ × ℕ)) : Walk :=
  { st with maxExtent := ranges.foldl (fun m r => max m (saturatingAdd r.1 r.2)) st.maxExtent }

/-- The sub-directories, while the budget lasts. -/
def visitSubs (sub : ℕ → Walk → ReadProg Walk) : List ℕ → Walk → ReadProg Walk
  | [], st => pure st
  | s :: rest, st =>
    if st.ifdBudget = 0 then pure st
    else do
      let st ← sub s st
      visitSubs sub rest st

/-- The sub-directory of an entry that has one value. -/
def visitExif (sub : ℕ → Walk → ReadProg Walk) (exif : Option ℕ) (st : Walk) : ReadProg Walk :=
  match exif with
  | some e => sub e st
  | none => pure st

/-- One directory: what the walk has behind it, and what its entries say with the link to the next
one, unless it is none. -/
def visitIfd (env : Env) (off : ℕ) (st : Walk) : ReadProg (Walk × Option (Arrays × Option ℕ)) := do
  let st := { st with ifdBudget := st.ifdBudget - 1 }
  let cntB ← env.read off 2
  let count := (env.u16 cntB 0).getD 0
  if count = 0 ∨ maxEntries < count then pure (st, none)
  else do
    let entries ← env.read (off + 2) (count * 12 + 4)
    let thisEnd := off + 2 + count * 12 + 4
    let st := { st with ifds := st.ifds + 1, ifdEnd := max st.ifdEnd thisEnd }
    let s ← visitEntries env (entriesOf env count entries) (st, .nothing)
    let st := { s.1.extend s.2.ranges with visited := ⟨off, count, s.2⟩ :: s.1.visited }
    pure (st, some (s.2, env.u32 entries (count * 12)))

/-- The directories of a chain from `off` on, `fuel` at most; `sub` walks those one level below. -/
def chain (env : Env) (sub : ℕ → Walk → ReadProg Walk) : (fuel off : ℕ) → Walk → ReadProg Walk
  | 0, _, st => pure st
  | fuel + 1, off, st =>
    if off = 0 ∨ env.avail < off + 2 ∨ st.ifdBudget = 0 then pure st
    else do
      let v ← visitIfd env off st
      match v.2 with
      | none => pure v.1
      | some (a, link) => do
        let st ← visitSubs sub (a.subIfds.take 64) v.1
        let st ← visitExif sub a.exifIfd st
        let next := link.getD 0
        if next = 0 ∨ next ≤ off then pure st else chain env sub fuel next st

/-- `walk_ifd_chain`, with `level` levels left. -/
def walkIfdChain (env : Env) : (level off : ℕ) → Walk → ReadProg Walk
  | 0, _, st => pure st
  | level + 1, off, st => chain env (walkIfdChain env level) maxIfds off st

/-- `refine`. -/
def refine (st : Walk) : String :=
  if st.isDng then "raw.dng"
  else
    match st.make with
    | none => "image.tiff"
    | some make =>
      let named := makers.find? fun entry => entry.1.any fun name =>
        (findBytes name.toUTF8.toList (capitals make)).isSome
      (named.map Prod.snd).getD "image.tiff"

/-- The byte order that the first bytes say: TIFF, the Olympus magics and the Panasonic ones. -/
def orderOf (head : Bytes) : Option Bool :=
  match head.take 4 with
  | [0x49, 0x49, 0x2A, 0x00] => some false
  | [0x4D, 0x4D, 0x00, 0x2A] => some true
  | [0x49, 0x49, 0x52, last] =>
    if last = 0x4F ∨ last = 0x53 ∨ last = 0x00 then some false else none
  | [0x4D, 0x4D, 0x4F, 0x52] => some true
  | [0x49, 0x49, _, 0x00] => some false
  | _ => none

/-- What the walk of a file reads. -/
def envOf (ctx : Ctx) (be : Bool) : Env := ⟨be, min ctx.available maxSize, ctx.read⟩

/-- The walk of a file whose first bytes these are, from the directory that they name. -/
def walkFile (ctx : Ctx) (be : Bool) (head : Bytes) : ReadProg Walk :=
  let env := envOf ctx be
  walkIfdChain env 5 ((env.u32 head 4).getD 8) .new

/-- The verdict about a file, by what the walk has found. -/
def verdict (avail : ℕ) (st : Walk) : Verdict :=
  let stop := min (max st.maxExtent st.ifdEnd) avail
  if st.ifds = 0 ∨ stop < 8 then .rejected
  else
    let v := if avail < st.maxExtent then Verdict.accepted stop .truncated 55
      else Verdict.accepted stop .full 85
    { v with format := some (refine st), metadata := ⟨none, st.date, st.model.map textOf⟩ }

/-- `validate`. -/
def validate (ctx : Ctx) : ReadProg Verdict := do
  let head ← ctx.read 0 8
  match orderOf head with
  | none => pure .rejected
  | some be => do
    let st ← walkFile ctx be head
    pure (verdict (min ctx.available maxSize) st)

/-! ## What a directory declares -/

/-- The values that an entry declares, the first `maxValues` at most, as far as the source has
them. -/
def Entry.declared (env : Env) (g : Bytes) (e : Entry) : List ℕ :=
  let n := min e.count maxValues
  let off := (env.u32 e.field 0).getD 0
  let bytes :=
    if e.total ≤ 4 then e.field
    else if env.avail ≤ off then []
    else slice g off (typeSize e.typ * n)
  elements env e.typ bytes n 0

/-- How many entries the directory at an offset says it has. -/
def countAt (env : Env) (g : Bytes) (off : ℕ) : ℕ := (env.u16 (slice g off 2) 0).getD 0

/-- The entries of the directory at an offset. -/
def entriesAt (env : Env) (g : Bytes) (off : ℕ) : List Entry :=
  entriesOf env (countAt env g off) (slice g (off + 2) (countAt env g off * 12 + 4))

/-- What the entries declare, of entries with one tag the last. -/
def declaredBy (env : Env) (g : Bytes) (entries : List Entry) (a : Arrays) : Arrays :=
  entries.foldl (fun a e => if e.tag ∈ Arrays.tags then a.store e.tag (e.declared env g) else a) a

/-- What the directory at an offset declares. -/
def declaredAt (env : Env) (g : Bytes) (off : ℕ) : Arrays :=
  declaredBy env g (entriesAt env g off) .nothing

/-- Each array is the first part of the other's. -/
structure Arrays.Initial (a b : Arrays) : Prop where
  stripOffs : a.stripOffs <+: b.stripOffs
  stripCounts : a.stripCounts <+: b.stripCounts
  tileOffs : a.tileOffs <+: b.tileOffs
  tileCounts : a.tileCounts <+: b.tileCounts
  jpegIf : a.jpegIf.toList <+: b.jpegIf.toList
  jpegLen : a.jpegLen.toList <+: b.jpegLen.toList

/-! ## Values -/

section Values

variable {R : Reader} {env : Env} {g b b' : Bytes} {e : Entry} {typ i j k n m budget : ℕ} {v : ℕ}

/-- A range of the first bytes is one of all. -/
lemma getRange_append {r : Bytes} (h : getRange b i k = some r) (t : Bytes) :
    getRange (b ++ t) i k = some r := by
  unfold getRange at h ⊢
  split at h
  · rename_i hle
    rw [if_pos (by rw [List.length_append]; omega), List.drop_append_of_le_length (by omega),
      List.take_append_of_le_length (by rw [List.length_drop]; omega), h]
  · exact absurd h (Option.some_ne_none r).symm

/-- A number that the first bytes have is the same in all. -/
lemma Env.number_append (h : env.number n b i = some v) (t : Bytes) :
    env.number n (b ++ t) i = some v := by
  unfold Env.number at h ⊢
  split
  · rename_i hbe
    rw [if_pos hbe] at h
    obtain ⟨r, hr, rfl⟩ := Option.map_eq_some_iff.1 h
    rw [getBe, getRange_append hr t]
    rfl
  · rename_i hbe
    rw [if_neg hbe] at h
    obtain ⟨r, hr, rfl⟩ := Option.map_eq_some_iff.1 h
    rw [getLe, getRange_append hr t]
    rfl

/-- A value that the first bytes have is the same in all. -/
lemma element_append (h : element env typ b i = some v) (t : Bytes) :
    element env typ (b ++ t) i = some v := by
  unfold element at h ⊢
  split
  · rename_i hshort
    rw [if_pos hshort] at h
    exact Env.number_append h t
  · rename_i hshort
    rw [if_neg hshort] at h
    split
    · rename_i hbyte
      rw [if_pos hbyte] at h
      obtain ⟨x, hx, rfl⟩ := Option.map_eq_some_iff.1 h
      rw [List.getElem?_append_left (List.getElem?_eq_some_iff.1 hx).1, hx]
      rfl
    · rename_i hbyte
      rw [if_neg hbyte] at h
      exact Env.number_append h t

/-- Fewer values, of the first bytes, are the first ones. -/
lemma elements_prefix (h : n ≤ m) (t : Bytes) :
    elements env typ b n i <+: elements env typ (b ++ t) m i := by
  induction n generalizing m i with
  | zero => exact List.nil_prefix
  | succ n ih =>
    obtain ⟨m, rfl⟩ : ∃ k, m = k + 1 := ⟨m - 1, by omega⟩
    rw [elements, elements]
    cases hv : element env typ b i with
    | none => exact List.nil_prefix
    | some v =>
      rw [element_append hv t]
      exact List.cons_prefix_cons.2 ⟨rfl, ih (by omega)⟩

lemma elements_nil : elements env typ [] n i = [] := by
  have hnone : ∀ o k, 0 < k → getRange [] o k = none := fun o k hk => if_neg (by simp; omega)
  cases n with
  | zero => rfl
  | succ n =>
    have hfirst : element env typ [] i = none := by
      unfold element Env.u16 Env.u32 Env.number getBe getLe
      simp [hnone]
    rw [elements, hfirst]

lemma typeSize_le (typ : ℕ) : typeSize typ ≤ 8 := by
  unfold typeSize
  split_ifs <;> omega

/-- **What is read of an array**: a first part of what it declares, all of it if the budget is not
used up. -/
lemma readValues_spec (hread : ∀ off n, (env.read off n).run R = slice g off n) (e : Entry)
    (budget : ℕ) :
    ((readValues env e budget).run R).1 <+: e.declared env g ∧
      ((readValues env e budget).run R).2 ≤ budget ∧
        (0 < ((readValues env e budget).run R).2 →
          ((readValues env e budget).run R).1 = e.declared env g) := by
  unfold readValues Entry.declared
  set allow := min (min e.count budget) maxValues with hallow
  set off := (env.u32 e.field 0).getD 0
  have hle : allow ≤ min e.count maxValues := by omega
  have hall : 0 < budget - allow → allow = min e.count maxValues := by omega
  -- the bytes that are read are the first ones of the array
  have hsize : min (typeSize e.typ * allow) (256 * 1024) = typeSize e.typ * allow := by
    have htype := typeSize_le e.typ
    have hmax : allow ≤ maxValues := min_le_right _ _
    exact min_eq_left ((Nat.mul_le_mul htype hmax).trans (by decide))
  simp only [ReadProg.run_ite, ReadProg.run_bind, ReadProg.run_pure, hread, hsize]
  split
  · rename_i hzero
    refine ⟨List.nil_prefix, Nat.sub_le _ _, fun hleft => ?_⟩
    rw [← hall hleft, hzero]
    rfl
  · split
    · refine ⟨?_, Nat.sub_le _ _, fun hleft => by rw [← hall hleft]⟩
      have hpart : elements env e.typ e.field allow 0 <+:
          elements env e.typ (e.field ++ []) (min e.count maxValues) 0 := elements_prefix hle []
      rwa [List.append_nil] at hpart
    · split
      · exact ⟨List.nil_prefix, Nat.sub_le _ _, fun _ => elements_nil.symm⟩
      · refine ⟨?_, Nat.sub_le _ _, fun hleft => by rw [hall hleft]⟩
        obtain ⟨d, hd⟩ := Nat.exists_eq_add_of_le (Nat.mul_le_mul_left (typeSize e.typ) hle)
        rw [hd, slice_add]
        exact elements_prefix hle _

end Values

/-! ## Arrays -/

namespace Arrays

variable {a b : Arrays} {v w : List ℕ} {r : ℕ × ℕ}

lemma Initial.refl (a : Arrays) : a.Initial a :=
  ⟨List.prefix_rfl, List.prefix_rfl, List.prefix_rfl, List.prefix_rfl, List.prefix_rfl,
    List.prefix_rfl⟩

lemma head?_prefix (h : v <+: w) : v.head?.toList <+: w.head?.toList := by
  obtain ⟨t, rfl⟩ := h
  cases v with
  | nil => exact List.nil_prefix
  | cons x v => exact List.prefix_rfl

lemma Initial.ite {c : Prop} [Decidable c] {a' b' : Arrays} (h : a.Initial b) (h' : a'.Initial b') :
    (if c then a else a').Initial (if c then b else b') := by
  split
  · exact h
  · exact h'

/-- Keeping first parts keeps first parts. -/
lemma Initial.store (h : a.Initial b) (hv : v <+: w) (tag : ℕ) :
    (a.store tag v).Initial (b.store tag w) := by
  unfold Arrays.store
  refine .ite { h with stripOffs := hv } ?_
  refine .ite { h with stripCounts := hv } ?_
  refine .ite { h with tileOffs := hv } ?_
  refine .ite { h with tileCounts := hv } ?_
  refine .ite { h with jpegIf := head?_prefix hv } ?_
  refine .ite { h with jpegLen := head?_prefix hv } ?_
  exact .ite { h with } (.ite { h with } h)

end Arrays

/-! ## One directory -/

section Directory

variable {R : Reader} {env : Env} {g : Bytes} {e : Entry} {entries : List Entry} {off : ℕ}
  {st : Walk} {s : Walk × Arrays} {b : Arrays}

/-- What an entry leaves as it is. -/
structure Framed (st st' : Walk) : Prop where
  maxExtent : st'.maxExtent = st.maxExtent
  ifdEnd : st'.ifdEnd = st.ifdEnd
  ifds : st'.ifds = st.ifds
  visited : st'.visited = st.visited
  elemBudget : st'.elemBudget ≤ st.elemBudget

lemma Framed.trans {st st' st'' : Walk} (h : Framed st st') (h' : Framed st' st'') :
    Framed st st'' where
  maxExtent := h'.maxExtent.trans h.maxExtent
  ifdEnd := h'.ifdEnd.trans h.ifdEnd
  ifds := h'.ifds.trans h.ifds
  visited := h'.visited.trans h.visited
  elemBudget := h'.elemBudget.trans h.elemBudget

/-- The arrays are what the entries declare, as far as the budget lets them be read. -/
structure ReadAs (st : Walk) (a a' b b' : Arrays) : Prop where
  initial : a'.Initial b'
  whole : 0 < st.elemBudget → a = b → a' = b'

/-- **One entry**: it adds the first part of what it declares, or all of it. -/
lemma visitEntry_spec (hread : ∀ off n, (env.read off n).run R = slice g off n)
    (hs : s.2.Initial b) :
    Framed s.1 ((visitEntry env e s).run R).1 ∧
      ReadAs ((visitEntry env e s).run R).1 s.2 ((visitEntry env e s).run R).2 b
        (declaredBy env g [e] b) := by
  have hdeclared : declaredBy env g [e] b =
      if e.tag ∈ Arrays.tags then b.store e.tag (e.declared env g) else b := rfl
  have hframe : ∀ st : Walk, st.maxExtent = s.1.maxExtent → st.ifdEnd = s.1.ifdEnd →
      st.ifds = s.1.ifds → st.visited = s.1.visited → st.elemBudget = s.1.elemBudget →
      e.tag ∉ Arrays.tags → Framed s.1 st ∧
        ReadAs st s.2 s.2 b (declaredBy env g [e] b) := by
    intro st h₁ h₂ h₃ h₄ h₅ htag
    rw [hdeclared, if_neg htag]
    exact ⟨⟨h₁, h₂, h₃, h₄, h₅.le⟩, hs, fun _ h => h⟩
  unfold visitEntry
  simp only [ReadProg.run_ite, ReadProg.run_bind, ReadProg.run_pure]
  split
  · rename_i htag
    exact hframe _ rfl rfl rfl rfl rfl (by rw [htag]; decide)
  split
  · rename_i htag
    exact hframe _ rfl rfl rfl rfl rfl (by rw [htag]; decide)
  split
  · rename_i htag
    have hno : e.tag ∉ Arrays.tags := by
      rcases htag with h | h
      · rw [h]; decide
      · rw [h]; decide
    split
    · exact hframe _ rfl rfl rfl rfl rfl hno
    · exact hframe _ rfl rfl rfl rfl rfl hno
  split
  · rename_i htag
    -- the entry of an array
    obtain ⟨hpart, hbudget, hwhole⟩ := readValues_spec hread e s.1.elemBudget
    rw [hdeclared, if_pos htag]
    refine ⟨⟨rfl, rfl, rfl, rfl, hbudget⟩, hs.store hpart _, fun hleft heq => ?_⟩
    dsimp only at hleft ⊢
    rw [hwhole hleft, heq]
  · rename_i htag
    split
    · exact hframe _ rfl rfl rfl rfl rfl htag
    · exact hframe _ rfl rfl rfl rfl rfl htag

/-- **The entries of a directory.** -/
lemma visitEntries_spec (entries : List Entry)
    (hread : ∀ off n, (env.read off n).run R = slice g off n) (hs : s.2.Initial b) :
    Framed s.1 ((visitEntries env entries s).run R).1 ∧
      ReadAs ((visitEntries env entries s).run R).1 s.2 ((visitEntries env entries s).run R).2 b
        (declaredBy env g entries b) := by
  induction entries generalizing s b with
  | nil => exact ⟨⟨rfl, rfl, rfl, rfl, le_rfl⟩, hs, fun _ h => h⟩
  | cons e rest ih =>
    obtain ⟨hframe, hfirst, hwhole⟩ := visitEntry_spec (e := e) hread hs
    rw [visitEntries]
    simp only [ReadProg.run_bind]
    obtain ⟨hframe', hrest, hwhole'⟩ := ih hfirst
    have hdeclared : declaredBy env g rest (declaredBy env g [e] b) =
        declaredBy env g (e :: rest) b := rfl
    rw [hdeclared] at hrest hwhole'
    refine ⟨hframe.trans hframe', hrest, fun hleft heq => ?_⟩
    exact hwhole' hleft (hwhole (hleft.trans_le hframe'.elemBudget) heq)

/-- **One directory**: the budget is spent on nothing, or its entries are read and what they say is
added. -/
lemma visitIfd_cases (hread : ∀ off n, (env.read off n).run R = slice g off n) (off : ℕ)
    (st : Walk) :
    ((visitIfd env off st).run R).1 = { st with ifdBudget := st.ifdBudget - 1 } ∨
      ∃ st' a, Framed { st with
          ifds := st.ifds + 1
          ifdEnd := max st.ifdEnd (off + 2 + countAt env g off * 12 + 4) } st' ∧
        ReadAs st' .nothing a .nothing (declaredAt env g off) ∧
          ((visitIfd env off st).run R).1 =
            { st'.extend a.ranges with visited := ⟨off, countAt env g off, a⟩ :: st'.visited } := by
  rw [visitIfd]
  simp only [ReadProg.run_bind, ReadProg.run_ite, hread, ReadProg.run_pure]
  split
  · exact .inl rfl
  · let st' : Walk := { st with
      ifdBudget := st.ifdBudget - 1
      ifds := st.ifds + 1
      ifdEnd := max st.ifdEnd (off + 2 + countAt env g off * 12 + 4) }
    obtain ⟨hframe, hread⟩ := visitEntries_spec (s := (st', .nothing)) (b := .nothing)
      (entriesAt env g off) hread (Arrays.Initial.refl _)
    exact .inr ⟨_, _, ⟨hframe.maxExtent, hframe.ifdEnd, hframe.ifds, hframe.visited,
      hframe.elemBudget⟩, hread, rfl⟩

end Directory

/-! ## The walk -/

section Walks

variable {R : Reader} {env : Env} {g : Bytes} {st : Walk} {i : Visit}

/-- **The rule of the walk**: what each directory keeps, the walk of all of them keeps. -/
theorem run_walkIfdChain {P : Walk → Prop}
    (hstep : ∀ off st, P st → P ((visitIfd env off st).run R).1) (level off : ℕ) (h : P st) :
    P ((walkIfdChain env level off st).run R) := by
  induction level generalizing off st with
  | zero => exact h
  | succ level ih =>
    have hsubs : ∀ subs st, P st →
        P ((visitSubs (walkIfdChain env level) subs st).run R) := by
      intro subs
      induction subs with
      | nil => exact fun _ h => h
      | cons s rest ihsubs =>
        intro st h
        rw [visitSubs, ReadProg.run_ite]
        split
        · exact h
        · simp only [ReadProg.run_bind]
          exact ihsubs _ (ih s h)
    have hexif : ∀ exif st, P st → P ((visitExif (walkIfdChain env level) exif st).run R) := by
      intro exif st h
      cases exif with
      | none => exact h
      | some e => exact ih e h
    rw [walkIfdChain]
    generalize maxIfds = fuel
    -- the directories of the chain, each with those below it
    induction fuel generalizing off st with
    | zero => exact h
    | succ fuel ihfuel =>
      rw [chain, ReadProg.run_ite]
      split
      · exact h
      · have hone := hstep off st h
        simp only [ReadProg.run_bind]
        cases hv : ((visitIfd env off st).run R).2 with
        | none => exact hone
        | some v =>
          simp only [ReadProg.run_bind, ReadProg.run_ite]
          split
          · exact hexif _ _ (hsubs _ _ hone)
          · exact ihfuel _ (hexif _ _ (hsubs _ _ hone))

/-- The walk keeps what it needs to know of a directory. -/
structure Visit.Recorded (env : Env) (g : Bytes) (st : Walk) (i : Visit) : Prop where
  count : i.count = countAt env g i.off
  stop_le : i.stop ≤ st.ifdEnd
  extent : ∀ r ∈ i.arrays.ranges, saturatingAdd r.1 r.2 ≤ st.maxExtent
  initial : i.arrays.Initial (declaredAt env g i.off)
  whole : 0 < st.elemBudget → i.arrays = declaredAt env g i.off

lemma Visit.Recorded.mono {st' : Walk} (h : i.Recorded env g st) (hend : st.ifdEnd ≤ st'.ifdEnd)
    (hextent : st.maxExtent ≤ st'.maxExtent) (hbudget : st'.elemBudget ≤ st.elemBudget) :
    i.Recorded env g st' where
  count := h.count
  stop_le := h.stop_le.trans hend
  extent r hr := (h.extent r hr).trans hextent
  initial := h.initial
  whole hleft := h.whole (hleft.trans_le hbudget)

/-- **A walk records each directory that it counts**, and keeps what it needs to know of it. -/
lemma recorded_walkIfdChain (env : Env) (hread : ∀ off n, (env.read off n).run R = slice g off n)
    (level off : ℕ) :
    ((walkIfdChain env level off .new).run R).visited.length =
        ((walkIfdChain env level off .new).run R).ifds ∧
      ∀ i ∈ ((walkIfdChain env level off .new).run R).visited,
        i.Recorded env g ((walkIfdChain env level off .new).run R) := by
  refine run_walkIfdChain (P := fun st => st.visited.length = st.ifds ∧
    ∀ i ∈ st.visited, i.Recorded env g st) (fun off st hst => ?_) level off ⟨rfl, ?_⟩
  · obtain ⟨hlen, hrec⟩ := hst
    rcases visitIfd_cases hread off st with hnone | ⟨st', a, hframe, hread, hsome⟩
    · rw [hnone]
      exact ⟨hlen, fun i hi => (hrec i hi).mono le_rfl le_rfl le_rfl⟩
    · obtain ⟨hle, hranges⟩ := le_foldl_max (fun r : ℕ × ℕ => saturatingAdd r.1 r.2) a.ranges
        st'.maxExtent
      have hend : st'.ifdEnd = max st.ifdEnd (off + 2 + countAt env g off * 12 + 4) := hframe.ifdEnd
      have hextent : st'.maxExtent = st.maxExtent := hframe.maxExtent
      have hifds : st'.ifds = st.ifds + 1 := hframe.ifds
      have hvisited : st'.visited = st.visited := hframe.visited
      have hbudget : st'.elemBudget ≤ st.elemBudget := hframe.elemBudget
      rw [hsome]
      refine ⟨?_, List.forall_mem_cons.2 ⟨⟨rfl, ?_, hranges, hread.initial, ?_⟩, fun i hi => ?_⟩⟩
      · exact (congrArg (· + 1) (hvisited ▸ hlen)).trans hifds.symm
      · exact (le_max_right _ _).trans hend.ge
      · exact fun hleft => hread.whole hleft rfl
      · refine (hrec i (hvisited ▸ hi)).mono ((le_max_left _ _).trans hend.ge) ?_ hbudget
        exact hextent.ge.trans hle
  · exact fun i hi => absurd hi List.not_mem_nil

end Walks

/-! ## A complete file -/

section Full

variable {R : Reader} {ctx : Ctx} {g : Bytes} {be : Bool} {avail n : ℕ} {st : Walk}

/-- The directory and its ranges lie within the first `n` bytes; `left` is what is left of the
budget of values. -/
structure Covered (env : Env) (g : Bytes) (left n : ℕ) (i : Visit) : Prop where
  directory : i.stop ≤ env.avail → i.stop ≤ n
  ranges : ∀ r ∈ i.arrays.ranges, r.1 + r.2 ≤ n
  /-- The ranges are among those that the directory declares. -/
  initial : i.arrays.Initial (declaredAt env g i.off)
  declared : 0 < left → ∀ r ∈ (declaredAt env g i.off).ranges, r.1 + r.2 ≤ n

lemma isFull_verdict (h : (verdict avail st).IsFull n) :
    st.maxExtent ≤ avail ∧ n = min (max st.maxExtent st.ifdEnd) avail := by
  unfold verdict at h
  dsimp only at h
  split at h
  · exact absurd h Verdict.not_isFull_rejected
  · split at h
    · exact absurd h.2.1 (by decide : Validity.truncated ≠ .full)
    · rename_i hextent
      exact ⟨not_lt.1 hextent, h.2.2.symm⟩

/-- **What a complete file has**: every directory that the walk has visited, if the source has it,
and the strips, the tiles and the thumbnail that it declares, as far as they are read. -/
theorem full_covers (h : ctx.Sees R g) (hbe : orderOf (slice g 0 8) = some be)
    (hfull : ((validate ctx).run R).IsFull n) :
    ((walkFile ctx be (slice g 0 8)).run R).visited.length =
        ((walkFile ctx be (slice g 0 8)).run R).ifds ∧
      ∀ i ∈ ((walkFile ctx be (slice g 0 8)).run R).visited,
        Covered (envOf ctx be) g ((walkFile ctx be (slice g 0 8)).run R).elemBudget n i := by
  obtain ⟨hlen, hrec⟩ := recorded_walkIfdChain (envOf ctx be) h.read 5
    (((envOf ctx be).u32 (slice g 0 8) 4).getD 8)
  rw [validate] at hfull
  simp only [ReadProg.run_bind, h.read, hbe, ReadProg.run_pure] at hfull
  obtain ⟨hextent, rfl⟩ := isFull_verdict hfull
  set st := (walkFile ctx be (slice g 0 8)).run R
  have hbig : min ctx.available maxSize < u64Max := lt_of_le_of_lt (min_le_right _ _) (by decide)
  refine ⟨hlen, fun i hi => ?_⟩
  have hi : i.Recorded (envOf ctx be) g st := hrec i hi
  have hranges : ∀ r ∈ i.arrays.ranges,
      r.1 + r.2 ≤ min (max st.maxExtent st.ifdEnd) (min ctx.available maxSize) := by
    intro r hr
    have hend := hi.extent r hr
    unfold saturatingAdd at hend
    omega
  refine ⟨fun havail => le_min (le_max_of_le_right hi.stop_le) havail, hranges, hi.initial,
    fun hleft => ?_⟩
  rw [← hi.whole hleft]
  exact hranges

/-- `image.tiff` of the catalog. -/
def sig : SigDef where
  id := "image.tiff"
  family := "image"
  extensions := ["tif", "tiff"]
  headers := [.exact 0 [0x49, 0x49, 0x2A, 0x00], .exact 0 [0x4D, 0x4D, 0x00, 0x2A]]
  footer := none
  minSize := 16
  strategy := .structural
  validator := some "tiff"
  blockAligned := true
  footerAnchored := false

/-- A file of one directory with one entry, and the text that the entry has. -/
def makerTiff : Bytes :=
  [0x49, 0x49, 0x2A, 0x00, 8, 0, 0, 0] ++ [1, 0] ++
    [0x0F, 0x01, 2, 0, 5, 0, 0, 0, 26, 0, 0, 0] ++ [0, 0, 0, 0] ++ [0x41, 0x63, 0x6D, 0x65, 0]

/-- A file of one directory with one strip, of two bytes behind it. -/
def stripTiff : Bytes :=
  [0x49, 0x49, 0x2A, 0x00, 8, 0, 0, 0] ++ [2, 0] ++
    [0x11, 0x01, 4, 0, 1, 0, 0, 0, 38, 0, 0, 0] ++ [0x17, 0x01, 4, 0, 1, 0, 0, 0, 2, 0, 0, 0] ++
      [0, 0, 0, 0] ++ [0x11, 0x22]

lemma stripTiff_sees : Ctx.Sees ⟨40, 0, 1000, sig⟩ (memReader stripTiff) stripTiff :=
  Ctx.sees (memReader_reads stripTiff) rfl (by decide)

/-- The strip of a file with one is covered. -/
theorem full_covers_strip :
    ((validate ⟨40, 0, 1000, sig⟩).run (memReader stripTiff)).IsFull 40 ∧
      ∀ i ∈ ((walkFile ⟨40, 0, 1000, sig⟩ false (slice stripTiff 0 8)).run
        (memReader stripTiff)).visited, ∀ r ∈ i.arrays.ranges, r.1 + r.2 ≤ 40 := by
  have hfull : ((validate ⟨40, 0, 1000, sig⟩).run (memReader stripTiff)).IsFull 40 := by
    refine ⟨?_, ?_, ?_⟩
    all_goals decide
  exact ⟨hfull, fun i hi => ((full_covers stripTiff_sees rfl hfull).2 i hi).ranges⟩

/-- The text of an entry lies behind the end of the file. -/
theorem maker_counterexample :
    ((validate ⟨31, 0, 1000, sig⟩).run (memReader makerTiff)).IsFull 26 ∧
      ∃ i ∈ ((walkFile ⟨31, 0, 1000, sig⟩ false (slice makerTiff 0 8)).run
        (memReader makerTiff)).visited,
          ∃ e ∈ entriesAt (envOf ⟨31, 0, 1000, sig⟩ false) makerTiff i.off,
            4 < e.total ∧
              ¬ ((envOf ⟨31, 0, 1000, sig⟩ false).u32 e.field 0).getD 0 + e.total ≤ 26 := by
  constructor
  · refine ⟨?_, ?_, ?_⟩
    all_goals decide
  · decide

end Full

end Tiff
end Reclaim
