import Mathlib.Data.List.Sort
import Reclaim.Block.FileImage

/-!
# DMG images

A property list at the end of the image has block tables, and each chunk of a table declares a range
of sectors and where its data are.  The opener sorts the tables by their first sector and pushes the
chunks in the order in which they are listed, with a hole before a chunk that begins further on.

A chunk that begins before the end of what has been pushed is pushed there all the same, and so it
is displaced, and all that comes after it.
-/

namespace Reclaim

open FileBytes

namespace Dmg

/-- "koly", which the trailer begins with. -/
def koly : Bytes := [0x6B, 0x6F, 0x6C, 0x79]

/-- `MISH`, which a block table begins with. -/
def mish : ℕ := 0x6D697368

/-- `MAX_XML`. -/
def maxXml : ℕ := 64 * 1024 * 1024

/-- `MAX_CHUNKS`. -/
def maxChunks : ℕ := 8000000

/-! ## The property list -/

/-- "<data>". -/
def openTag : Bytes := [0x3C, 0x64, 0x61, 0x74, 0x61, 0x3E]

/-- "</data>". -/
def closeTag : Bytes := [0x3C, 0x2F, 0x64, 0x61, 0x74, 0x61, 0x3E]

/-- What there is up to the next closing tag, and behind it. -/
def splitClose : Bytes → Option (Bytes × Bytes)
  | [] => none
  | c :: rest =>
    if closeTag.isPrefixOf (c :: rest) then some ([], (c :: rest).drop closeTag.length)
    else (splitClose rest).map fun s => (c :: s.1, s.2)

/-- `iter_plist_data`. -/
def iterPlistData : ℕ → Bytes → List Bytes
  | 0, _ => []
  | fuel + 1, xml =>
    if xml.length < openTag.length then []
    else if openTag.isPrefixOf xml then
      match splitClose (xml.drop openTag.length) with
      | some (inner, rest) => inner :: iterPlistData fuel rest
      | none => []
    else iterPlistData fuel (xml.drop 1)

/-- The value of a character of the base64 alphabet. -/
def base64Value (c : UInt8) : Option ℕ :=
  if 0x41 ≤ c ∧ c ≤ 0x5A then some (c.toNat - 0x41)
  else if 0x61 ≤ c ∧ c ≤ 0x7A then some (c.toNat - 0x61 + 26)
  else if 0x30 ≤ c ∧ c ≤ 0x39 then some (c.toNat - 0x30 + 52)
  else if c = 0x2B then some 62
  else if c = 0x2F then some 63
  else none

/-- `base64_decode`, with the bits so far and how many of them are still to be put out. -/
def base64Decode : Bytes → ℕ → ℕ → Bytes
  | [], _, _ => []
  | c :: rest, acc, bits =>
    if c = 0x3D then []
    else match base64Value c with
      | none => base64Decode rest acc bits
      | some v =>
        let acc := (acc * 64 + v) % 2 ^ 32
        if 8 ≤ bits + 6 then
          UInt8.ofNat (acc >>> (bits + 6 - 8)) :: base64Decode rest acc (bits + 6 - 8)
        else base64Decode rest acc (bits + 6)

/-- The block tables of a property list. -/
def blockTables (xml : Bytes) : List Bytes :=
  ((iterPlistData xml.length xml).map fun blob => base64Decode blob 0 0).filter fun t =>
    decide (getBe 4 t 0 = some mish)

/-! ## The chunks -/

/-- An entry of a block table, with what the table says of all of them. -/
structure Chunk where
  etype : ℕ
  baseSector : ℕ
  sectNum : ℕ
  sectCnt : ℕ
  pos : ℕ
  compLen : ℕ
  deriving DecidableEq

namespace Chunk

variable (c : Chunk)

/-- How much the chunk puts out. -/
def thisOut : ℕ := saturatingMul c.sectCnt 512

/-- Where its output should begin. -/
def wantOut : ℕ := saturatingMul (saturatingAdd c.baseSector c.sectNum) 512

/-- Terminators and comments carry no output. -/
def carriesOutput : Bool := decide (c.etype ≠ 0xFFFFFFFF ∧ c.etype ≠ 0x7FFFFFFE ∧ c.thisOut ≠ 0)

/-- Where its bytes come from. -/
def piece : Piece :=
  if c.etype = 0 ∨ c.etype = 2 then .zero
  else if c.etype = 1 then .raw c.pos
  else if c.etype = 0x80000005 then .compressed .zlib c.pos c.compLen
  else if c.etype = 0x80000006 then .compressed .bzip2 c.pos c.compLen
  else if c.etype = 0x80000007 then .compressed .lzfse c.pos c.compLen
  else if c.etype = 0x80000008 then .compressed .lzma c.pos c.compLen
  else .zero

/-- The first byte that the chunk declares. -/
def start : ℕ := (c.baseSector + c.sectNum) * 512

/-- One past the last byte that it declares. -/
def stop : ℕ := (c.baseSector + c.sectNum + c.sectCnt) * 512

end Chunk

/-- The entries of a table, as far as it goes. -/
def entries (dataFork : ℕ) (t : Bytes) : ℕ → ℕ → List Chunk
  | 0, _ => []
  | n + 1, i =>
    let base := 204 + i * 40
    match getBe 4 t base with
    | none => []
    | some etype =>
      ⟨etype, beU64 t 8, beU64 t (base + 8), beU64 t (base + 16),
        saturatingAdd (saturatingAdd dataFork (beU64 t 24)) (beU64 t (base + 24)),
        beU64 t (base + 32)⟩ :: entries dataFork t n (i + 1)

/-- What the opener lays out: the chunks of all the tables, and how many sectors are declared. -/
structure Layout where
  sectorCount : ℕ
  chunks : List Chunk
  deriving DecidableEq

/-- What tables are sorted by. -/
def firstSector (t : Bytes) : ℕ := (getBe 8 t 8).getD u64Max

/-- The part of `open` that reads the image. -/
def layout (file : Bytes) : Option Layout := do
  guard (512 ≤ file.length)
  let trailer ← readExact file (file.length - 512) 512
  guard (getRange trailer 0 4 = some koly)
  let dataFork := beU64 trailer 24
  let xmlOffset ← getBe 8 trailer 216
  let xmlLength ← getBe 8 trailer 224
  let sectorCount ← getBe 8 trailer 492
  guard ¬(xmlLength = 0 ∨ maxXml < xmlLength ∨ file.length < saturatingAdd xmlOffset xmlLength)
  let xml ← readExact file xmlOffset xmlLength
  let tables := blockTables xml
  guard (tables ≠ [])
  let sorted := tables.insertionSort fun t t' => firstSector t ≤ firstSector t'
  let all := sorted.flatMap fun t => entries dataFork t (beU32 t 200) 0
  guard (all.length ≤ maxChunks)
  some ⟨sectorCount, all.filter Chunk.carriesOutput⟩

/-! ## The pushes -/

/-- What is laid out in a range: a chunk, by its index, or a hole. -/
abbrev Owner := Option (ℕ × Chunk)

/-- What is pushed for a range. -/
def Owner.piece : Owner → Piece
  | some c => c.2.piece
  | none => .zero

/-- The ranges that are laid out for some chunks, from index `k` on; `cur` is how much there is of
the map. -/
def lay : ℕ → ℕ → List Chunk → List (ℕ × Owner)
  | _, _, [] => []
  | cur, k, c :: rest =>
    let gap := c.wantOut - cur
    let laid := (c.thisOut, some (k, c)) ::
      lay (saturatingAdd (saturatingAdd cur gap) c.thisOut) (k + 1) rest
    if cur < c.wantOut then (gap, none) :: laid else laid

/-- What has a position, how long its range is, and how far into that the position is. -/
def ownerAt : List (ℕ × Owner) → ℕ → Option (Owner × ℕ × ℕ)
  | [], _ => none
  | p :: rest, x => if x < p.1 then some (p.2, p.1, x) else ownerAt rest (x - p.1)

/-- How much is laid out. -/
def laidOut (laid : List (ℕ × Owner)) : ℕ := (laid.map (·.1)).sum

/-- The pushes for what is laid out. -/
def piecesOf (laid : List (ℕ × Owner)) : List (ℕ × Piece) := laid.map fun p => (p.1, p.2.piece)

/-! ## Images -/

/-- An image that the opener accepts, and the decoders for what is compressed. -/
structure Image where
  path : String
  file : Bytes
  file_le : file.length ≤ u64Max
  inflate : Codec → Bytes → ℕ → Option Bytes
  layout : Layout
  accepted : Dmg.layout file = some layout

namespace Image

variable (im : Image)

/-- How much is mapped by the chunks. -/
def mapped : ℕ := (SegmentMap.ofPushes (piecesOf (lay 0 0 im.layout.chunks))).nextOut

/-- The size that is declared, as a `u64`. -/
def declaredLen : ℕ := saturatingMul im.layout.sectorCount 512

/-- All that is laid out: the chunks, and a hole up to the declared size. -/
def laid : List (ℕ × Owner) :=
  lay 0 0 im.layout.chunks ++
    if im.mapped < im.declaredLen then [(im.declaredLen - im.mapped, none)] else []

/-- The size of the image: what is declared, or what is mapped if nothing is. -/
def outLen : ℕ := if im.declaredLen = 0 then im.mapped else im.declaredLen

/-- The chunk or the hole that a position of the opened image has. -/
def owner (x : ℕ) : Option (Owner × ℕ × ℕ) := ownerAt im.laid x

/-- **Every position goes to the chunk that declares it**, at its place in there, and to a hole if
none does, and the image is as long as it declares.  A count of 0 declares no size. -/
structure Resolves : Prop where
  declared : ∀ k c, im.layout.chunks[k]? = some c → ∀ i, c.start + i < c.stop →
    c.start + i < im.outLen → im.owner (c.start + i) = some (some (k, c), c.thisOut, i)
  undeclared : ∀ x < im.outLen, (∀ c ∈ im.layout.chunks, ¬(c.start ≤ x ∧ x < c.stop)) →
    ∃ len i, im.owner x = some (none, len, i)
  length : im.layout.sectorCount ≠ 0 → im.outLen = im.layout.sectorCount * 512

/-- The chunks declare ranges of which no two have a sector in common. -/
def Disjoint : Prop :=
  im.layout.chunks.Pairwise fun c c' => c.stop ≤ c'.start ∨ c'.stop ≤ c.start

/-- Where the positions end that can be in the image. -/
def limit : ℕ := if im.layout.sectorCount = 0 then u64Max else im.declaredLen

/-- Every chunk that begins in the image begins behind all the chunks that are laid out before
it. -/
def Ascending : Prop :=
  im.layout.chunks.Pairwise fun c c' => c'.start < im.limit → c.stop ≤ c'.start

end Image

/-! ## What has a position -/

variable {B : ℕ → Option UInt8} {D : Codec → ℕ → ℕ → ℕ → Option Bytes}

@[simp] lemma laidOut_nil : laidOut [] = 0 := rfl

@[simp] lemma laidOut_cons (p : ℕ × Owner) (rest : List (ℕ × Owner)) :
    laidOut (p :: rest) = p.1 + laidOut rest := by simp [laidOut]

@[simp] lemma laidOut_append (laid more : List (ℕ × Owner)) :
    laidOut (laid ++ more) = laidOut laid + laidOut more := by simp [laidOut]

lemma totalOut_piecesOf (laid : List (ℕ × Owner)) : totalOut (piecesOf laid) = laidOut laid := by
  unfold totalOut piecesOf laidOut
  rw [List.map_map]
  rfl

lemma ownerAt_append (laid more : List (ℕ × Owner)) (x : ℕ) :
    ownerAt (laid ++ more) x =
      if x < laidOut laid then ownerAt laid x else ownerAt more (x - laidOut laid) := by
  induction laid generalizing x with
  | nil => simp
  | cons p rest ih =>
    rw [List.cons_append, ownerAt, ownerAt, ih, laidOut_cons]
    by_cases hp : x < p.1
    · rw [if_pos hp, if_pos (by omega), if_pos hp]
    · rw [if_neg hp, if_neg hp]
      by_cases hin : x - p.1 < laidOut rest
      · rw [if_pos hin, if_pos (by omega)]
      · rw [if_neg hin, if_neg (by omega), Nat.sub_add_eq]

/-- A position has the byte of what has it. -/
lemma pushed_piecesOf (laid : List (ℕ × Owner)) (x : ℕ) :
    pushed B D (piecesOf laid) x =
      (ownerAt laid x).bind fun o => o.1.piece.byte B D o.2.1 o.2.2 := by
  induction laid generalizing x with
  | nil => rfl
  | cons p rest ih =>
    change (if x < p.1 then _ else pushed B D (piecesOf rest) (x - p.1)) = _
    rw [ownerAt, ih]
    by_cases hp : x < p.1
    · rw [if_pos hp, if_pos hp]
      rfl
    · rw [if_neg hp, if_neg hp]

/-- A position has something if it is in what is laid out. -/
lemma isSome_ownerAt (laid : List (ℕ × Owner)) (x : ℕ) :
    (ownerAt laid x).isSome = true ↔ x < laidOut laid := by
  induction laid generalizing x with
  | nil => simp [ownerAt]
  | cons p rest ih =>
    rw [ownerAt, laidOut_cons]
    by_cases hp : x < p.1
    · rw [if_pos hp]
      exact iff_of_true rfl (by omega)
    · rw [if_neg hp, ih]
      omega

/-- What has a position is one of the ranges. -/
lemma mem_of_ownerAt {laid : List (ℕ × Owner)} {x : ℕ} {o : Owner} {len i : ℕ}
    (h : ownerAt laid x = some (o, len, i)) : (len, o) ∈ laid := by
  induction laid generalizing x with
  | nil => cases h
  | cons p rest ih =>
    rw [ownerAt] at h
    by_cases hp : x < p.1
    · rw [if_pos hp] at h
      cases h
      exact List.mem_cons_self
    · rw [if_neg hp] at h
      exact List.mem_cons_of_mem _ (ih h)

/-! ## Laying out -/

lemma Chunk.wantOut_eq (c : Chunk) : c.wantOut = min c.start u64Max := by
  unfold wantOut start saturatingMul saturatingAdd
  omega

lemma Chunk.stop_eq (c : Chunk) : c.stop = c.start + c.sectCnt * 512 := Nat.add_mul ..

/-- A chunk is laid out where it should begin, or where the map ends if that is further on. -/
lemma lay_cons (T k : ℕ) (c : Chunk) (rest : List Chunk) :
    lay (min T u64Max) k (c :: rest) =
      (if min T u64Max < c.wantOut then [(max T c.wantOut - T, none)] else []) ++
        (c.thisOut, some (k, c)) ::
          lay (min (max T c.wantOut + c.thisOut) u64Max) (k + 1) rest := by
  have hwant := c.wantOut_eq
  have hnext : saturatingAdd (saturatingAdd (min T u64Max) (c.wantOut - min T u64Max)) c.thisOut =
      min (max T c.wantOut + c.thisOut) u64Max := by
    unfold saturatingAdd
    omega
  rw [lay, hnext]
  by_cases hgap : min T u64Max < c.wantOut
  · have hsize : c.wantOut - min T u64Max = max T c.wantOut - T := by omega
    rw [if_pos hgap, if_pos hgap, hsize]
    rfl
  · rw [if_neg hgap, if_neg hgap]
    rfl

lemma laidOut_lay_cons (T k : ℕ) (c : Chunk) (rest : List Chunk) :
    T + laidOut (lay (min T u64Max) k (c :: rest)) = max T c.wantOut + c.thisOut +
      laidOut (lay (min (max T c.wantOut + c.thisOut) u64Max) (k + 1) rest) := by
  have hwant := c.wantOut_eq
  rw [lay_cons, laidOut_append, laidOut_cons]
  split
  · rw [laidOut_cons, laidOut_nil]
    omega
  · rw [laidOut_nil]
    omega

/-- What has a position from `T` on, where the map ends. -/
lemma ownerAt_lay_cons (T k : ℕ) (c : Chunk) (rest : List Chunk) {x : ℕ} (hx : T ≤ x) :
    ownerAt (lay (min T u64Max) k (c :: rest)) (x - T) =
      if x < max T c.wantOut then some (none, max T c.wantOut - T, x - T)
      else if x < max T c.wantOut + c.thisOut then
        some (some (k, c), c.thisOut, x - max T c.wantOut)
      else ownerAt (lay (min (max T c.wantOut + c.thisOut) u64Max) (k + 1) rest)
        (x - (max T c.wantOut + c.thisOut)) := by
  have hwant := c.wantOut_eq
  rw [lay_cons, ownerAt_append]
  by_cases hgap : min T u64Max < c.wantOut
  · rw [if_pos hgap, laidOut_cons, laidOut_nil, ownerAt]
    by_cases hbefore : x < max T c.wantOut
    · rw [if_pos hbefore, if_pos (by omega), if_pos (by omega)]
    · rw [if_neg hbefore, if_neg (by omega), ownerAt]
      dsimp only
      have hplace : x - T - (max T c.wantOut - T + 0) = x - max T c.wantOut := by omega
      rw [hplace, Nat.sub_sub]
      exact if_congr (by omega) rfl rfl
  · rw [if_neg hgap, laidOut_nil, if_neg (Nat.not_lt_zero _), ownerAt]
    have hplace : x - T - 0 = x - max T c.wantOut := by omega
    rw [hplace, if_neg (show ¬ x < max T c.wantOut by omega), Nat.sub_sub]
    exact if_congr (by dsimp only; omega) rfl rfl

/-- Every chunk ends before the map does. -/
lemma stop_le_lay (cs : List Chunk) : ∀ T k, ∀ c ∈ cs,
    min c.stop u64Max ≤ T + laidOut (lay (min T u64Max) k cs) := by
  induction cs with
  | nil => exact fun T k c hc => absurd hc List.not_mem_nil
  | cons c' rest ih =>
    intro T k c hc
    rw [laidOut_lay_cons]
    rcases List.mem_cons.1 hc with rfl | hc
    · have hwant := c.wantOut_eq
      have hstop := c.stop_eq
      have hthis : c.thisOut = min (c.sectCnt * 512) u64Max := rfl
      omega
    · exact ih _ (k + 1) c hc

lemma lay_append (cs more : List Chunk) : ∀ T k, lay (min T u64Max) k (cs ++ more) =
    lay (min T u64Max) k cs ++
      lay (min (T + laidOut (lay (min T u64Max) k cs)) u64Max) (k + cs.length) more := by
  induction cs with
  | nil =>
    intro T k
    rfl
  | cons c rest ih =>
    intro T k
    rw [List.cons_append, lay_cons, ih, laidOut_lay_cons, lay_cons, List.length_cons,
      List.append_assoc, List.cons_append]
    rw [show k + 1 + rest.length = k + (rest.length + 1) by omega]

/-- The chunks that are laid out have their indices. -/
lemma index_of_mem_lay (cs : List Chunk) {len j : ℕ} {c : Chunk} : ∀ cur k,
    (len, some (j, c)) ∈ lay cur k cs → j < k + cs.length := by
  induction cs with
  | nil => exact fun cur k h => absurd h List.not_mem_nil
  | cons c' rest ih =>
    intro cur k h
    rw [lay] at h
    rw [List.length_cons]
    have hlaid : (len, some (j, c)) ∈ (c'.thisOut, some (k, c')) ::
        lay (saturatingAdd (saturatingAdd cur (c'.wantOut - cur)) c'.thisOut) (k + 1) rest := by
      by_cases hgap : cur < c'.wantOut
      · rw [if_pos hgap] at h
        rcases List.mem_cons.1 h with h | h
        · cases h
        · exact h
      · rw [if_neg hgap] at h
        exact h
    rcases List.mem_cons.1 hlaid with h | h
    · cases h
      omega
    · have := ih _ (k + 1) h
      omega

/-- **Chunks that ascend are laid out where they should be**, with holes between them. -/
lemma lay_ascending {limit : ℕ} (hlimit : limit ≤ u64Max) (cs : List Chunk) : ∀ T k,
    (∀ c ∈ cs, c.start < limit → T ≤ c.start) →
    cs.Pairwise (fun c c' => c'.start < limit → c.stop ≤ c'.start) →
      (∀ j c, cs[j]? = some c → ∀ i, c.start + i < c.stop → c.start + i < limit →
        ownerAt (lay (min T u64Max) k cs) (c.start + i - T) =
          some (some (k + j, c), c.thisOut, i)) ∧
      ∀ x, T ≤ x → x < limit → (∀ c ∈ cs, ¬(c.start ≤ x ∧ x < c.stop)) →
        ∀ o len i, ownerAt (lay (min T u64Max) k cs) (x - T) = some (o, len, i) → o = none := by
  induction cs with
  | nil =>
    intro T k hT hasc
    refine ⟨fun j c hc => ?_, fun x hTx hx hno o len i ho => ?_⟩
    · cases hc
    · cases ho
  | cons c rest ih =>
    intro T k hT hasc
    obtain ⟨hfirst, hrest⟩ := List.pairwise_cons.1 hasc
    have hwant := c.wantOut_eq
    have hstop := c.stop_eq
    have hthis : c.thisOut = min (c.sectCnt * 512) u64Max := rfl
    by_cases hin : c.start < limit
    · -- the chunk begins where it should
      have hTc := hT c List.mem_cons_self hin
      have hplace : max T c.wantOut = c.start := by omega
      obtain ⟨hdecl, hundecl⟩ := ih (c.start + c.thisOut) (k + 1)
        (fun c' hc' hlt => by have := hfirst c' hc' hlt; omega) hrest
      refine ⟨fun j d hd i hi hlt => ?_, fun x hTx hx hno o len i ho => ?_⟩
      · cases j with
        | zero =>
          obtain rfl : c = d := Option.some.inj hd
          rw [ownerAt_lay_cons _ _ _ _ (by omega), hplace, if_neg (by omega), if_pos (by omega),
            Nat.add_sub_cancel_left]
          rfl
        | succ j =>
          have hd' : rest[j]? = some d := hd
          have hafter := hfirst d (List.mem_of_getElem? hd') (by omega)
          rw [ownerAt_lay_cons _ _ _ _ (by omega), hplace, if_neg (by omega), if_neg (by omega),
            hdecl j d hd' i hi hlt, show k + 1 + j = k + (j + 1) by omega]
      · rw [ownerAt_lay_cons _ _ _ _ hTx, hplace] at ho
        by_cases hgap : x < c.start
        · rw [if_pos hgap] at ho
          cases ho
          rfl
        · have hnot := hno c List.mem_cons_self
          rw [if_neg hgap, if_neg (by omega)] at ho
          exact hundecl x (by omega) hx (fun d hd => hno d (List.mem_cons_of_mem _ hd)) o len i ho
    · -- it begins past the image, and so do all that come after it
      have hpast : ∀ d ∈ rest, ¬ d.start < limit := fun d hd hlt => by
        have := hfirst d hd hlt
        omega
      refine ⟨fun j d hd i hi hlt => ?_, fun x hTx hx hno o len i ho => ?_⟩
      · cases j with
        | zero =>
          obtain rfl : c = d := Option.some.inj hd
          omega
        | succ j =>
          have hd' : rest[j]? = some d := hd
          have := hpast d (List.mem_of_getElem? hd')
          omega
      · rw [ownerAt_lay_cons _ _ _ _ hTx, if_pos (by omega)] at ho
        cases ho
        rfl

namespace Image

variable {im : Image}

/-- What is laid out for the chunks, before the hole up to the declared size. -/
lemma mapped_eq (im : Image) : im.mapped = min (laidOut (lay 0 0 im.layout.chunks)) u64Max := by
  have hmap := SegmentMap.denotes_ofPushes (B := fun _ => none) (D := fun _ _ _ _ => none)
    (fun y hy => rfl) (piecesOf (lay 0 0 im.layout.chunks))
  have hnext := hmap.next
  rw [totalOut_piecesOf] at hnext
  exact hnext

lemma declaredLen_eq (im : Image) : im.declaredLen = min (im.layout.sectorCount * 512) u64Max := rfl

lemma outLen_le (im : Image) : im.outLen ≤ im.limit ∧ im.limit ≤ u64Max := by
  have hmapped := im.mapped_eq
  have hdeclared := im.declaredLen_eq
  have hmax : 0 < u64Max := by decide
  unfold outLen limit
  by_cases hcount : im.layout.sectorCount = 0
  · rw [if_pos (by omega), if_pos hcount]
    omega
  · rw [if_neg (by omega), if_neg hcount]
    omega

/-- Every chunk that is laid out declares something. -/
lemma start_lt_stop (im : Image) {c : Chunk} (hc : c ∈ im.layout.chunks) : c.start < c.stop := by
  have h := im.accepted
  unfold Dmg.layout at h
  simp only [Option.bind_eq_bind, Option.bind_eq_some_iff, Option.guard_eq_some'] at h
  obtain ⟨-, -, trailer, -, -, -, off, -, len, -, count, -, -, -, xml, -, -, -, -, -, h⟩ := h
  rw [← Option.some.inj h] at hc
  have hcarries := (List.mem_filter.1 hc).2
  have hthis : c.thisOut = min (c.sectCnt * 512) u64Max := rfl
  have hstop := c.stop_eq
  unfold Chunk.carriesOutput at hcarries
  rw [decide_eq_true_eq] at hcarries
  omega

/-- What is laid out for the first chunks is there in the image. -/
lemma owner_of_lt (im : Image) (n : ℕ) {x : ℕ}
    (hx : x < laidOut (lay 0 0 (im.layout.chunks.take n))) :
    im.owner x = ownerAt (lay 0 0 (im.layout.chunks.take n)) x := by
  have hsplit := lay_append (im.layout.chunks.take n) (im.layout.chunks.drop n) 0 0
  rw [List.take_append_drop, Nat.zero_min] at hsplit
  unfold owner laid
  rw [hsplit, List.append_assoc, ownerAt_append, if_pos hx]

lemma ascending_of_resolves (h : im.Resolves) : im.Ascending := by
  obtain ⟨hout, hlimit⟩ := im.outLen_le
  apply List.pairwise_iff_getElem.2
  intro i j hi hj hij hstart
  by_contra hover
  have hlt := im.start_lt_stop (List.getElem_mem hj)
  -- the chunk is not the one that has its first byte
  have hbefore : im.layout.chunks[i] ∈ im.layout.chunks.take j :=
    List.mem_take_iff_getElem.2 ⟨i, by omega, rfl⟩
  have hreach := stop_le_lay _ 0 0 _ hbefore
  rw [Nat.zero_add, Nat.zero_min] at hreach
  have hin : im.layout.chunks[j].start < im.outLen := by
    have hall := stop_le_lay im.layout.chunks 0 0 _ (List.getElem_mem hj)
    have hmapped := im.mapped_eq
    have hdeclared := im.declaredLen_eq
    rw [Nat.zero_add, Nat.zero_min] at hall
    unfold limit at hstart hlimit
    unfold outLen
    by_cases hcount : im.layout.sectorCount = 0
    · rw [if_pos hcount] at hstart
      rw [if_pos (by omega)]
      omega
    · rw [if_neg hcount] at hstart
      rw [if_neg (by omega)]
      exact hstart
  have howner := h.declared j _ (List.getElem?_eq_getElem hj) 0 (by rw [Nat.add_zero]; exact hlt)
    (by rw [Nat.add_zero]; exact hin)
  rw [Nat.add_zero, im.owner_of_lt j (by omega)] at howner
  have hindex := index_of_mem_lay _ _ _ (mem_of_ownerAt howner)
  rw [List.length_take] at hindex
  omega

lemma resolves_of_ascending (h : im.Ascending) (hfit : im.layout.sectorCount * 512 ≤ u64Max) :
    im.Resolves := by
  obtain ⟨hout, hlimit⟩ := im.outLen_le
  have hmapped := im.mapped_eq
  have hdeclared := im.declaredLen_eq
  obtain ⟨hdecl, hundecl⟩ := lay_ascending hlimit im.layout.chunks 0 0
    (fun c hc hlt => Nat.zero_le _) h
  rw [Nat.zero_min] at hdecl hundecl
  refine ⟨fun k c hc i hi hlt => ?_, fun x hx hno => ?_, fun hcount => ?_⟩
  · have howner := hdecl k c hc i hi (by omega)
    rw [Nat.sub_zero, Nat.zero_add] at howner
    have hin := (isSome_ownerAt _ _).1 (Option.isSome_of_eq_some howner)
    unfold owner laid
    rw [ownerAt_append, if_pos hin]
    exact howner
  · unfold owner laid
    rw [ownerAt_append]
    by_cases hin : x < laidOut (lay 0 0 im.layout.chunks)
    · rw [if_pos hin]
      obtain ⟨⟨o, len, i⟩, ho⟩ := Option.isSome_iff_exists.1 ((isSome_ownerAt _ _).2 hin)
      obtain rfl := hundecl x (Nat.zero_le x) (by omega) hno o len i (by rw [Nat.sub_zero, ho])
      exact ⟨len, i, ho⟩
    · rw [if_neg hin]
      unfold outLen at hx hout
      by_cases hzero : im.declaredLen = 0
      · rw [if_pos hzero] at hx
        omega
      · rw [if_neg hzero] at hx hout
        rw [if_pos (by omega), ownerAt, if_pos (by dsimp only; omega)]
        exact ⟨_, _, rfl⟩
  · unfold outLen
    rw [if_neg (by omega)]
    omega

/-- The image that is opened. -/
def image (im : Image) : FileImage where
  file := im.file
  inflate := im.inflate
  pushes := piecesOf im.laid
  outLen := im.outLen
  sectorSize := 512
  id := "dmg:" ++ im.path ++ ":" ++ toString im.outLen
  file_le := im.file_le
  outLen_le := im.outLen_le.1.trans im.outLen_le.2

/-- The byte of what has a position. -/
def ownedByte (im : Image) (x : ℕ) : Option UInt8 :=
  (im.owner x).bind fun o => o.1.piece.byte (fun y => im.file[y]?) (fileBlock im.inflate im.file)
    o.2.1 o.2.2

/-- **Every sector goes to its chunk** exactly if the chunks ascend as they are laid out, and the
image then serves what the chunks have. -/
theorem resolves_iff (im : Image) :
    (im.Resolves ↔ im.Ascending ∧ im.layout.sectorCount * 512 ≤ u64Max) ∧
      im.image.Serves im.ownedByte := by
  refine ⟨⟨fun h => ⟨ascending_of_resolves h, ?_⟩, fun h => resolves_of_ascending h.1 h.2⟩,
    im.image.serves.congr fun x _ => pushed_piecesOf im.laid x⟩
  obtain ⟨hout, hlimit⟩ := im.outLen_le
  by_cases hcount : im.layout.sectorCount = 0
  · omega
  · have hlength := h.length hcount
    omega

/-- An image of two sectors, each a chunk, of which the second is listed first. -/
def swapped : Image where
  path := "swapped.dmg"
  file := List.flatten [List.replicate 512 7, List.replicate 512 9,
    [0x3C, 0x64, 0x61, 0x74, 0x61, 0x3E, 0x62, 0x57, 0x6C, 0x7A, 0x61], List.replicate 266 0x41,
    [0x43], List.replicate 5 0x41, [0x51], List.replicate 15 0x41, [0x51], List.replicate 9 0x41,
    [0x42], List.replicate 9 0x41, [0x67], List.replicate 9 0x41, [0x43], List.replicate 6 0x41,
    [0x45], List.replicate 26 0x41, [0x51], List.replicate 19 0x41,
    [0x67, 0x41, 0x3D, 0x3C, 0x2F, 0x64, 0x61, 0x74, 0x61, 0x3E], koly, List.replicate 218 0, [4],
    List.replicate 7 0, [1, 0x89], List.replicate 267 0, [2], List.replicate 12 0]
  file_le := by decide +kernel
  inflate _ _ _ := none
  layout := ⟨2, [⟨1, 0, 1, 1, 512, 512⟩, ⟨1, 0, 0, 1, 0, 512⟩]⟩
  accepted := by decide +kernel

/-- A chunk that is listed behind one further on is not where it should be. -/
theorem resolves_counterexample : ¬ ∀ im : Image, im.Disjoint → im.Resolves := by
  intro h
  have hdisjoint : swapped.Disjoint := by
    unfold Disjoint
    decide
  have howner := (h swapped hdisjoint).declared 1 ⟨1, 0, 0, 1, 0, 512⟩ rfl 0 (by decide) (by decide)
  have hhole : swapped.owner (Chunk.start ⟨1, 0, 0, 1, 0, 512⟩ + 0) =
    some (none, 512, 0) := by decide
  rw [hhole] at howner
  cases howner

end Image

end Dmg

end Reclaim
