import Reclaim.Block.LbaRange
import Reclaim.Foundation.FileBytes

/-!
# Maps of an image onto its backing file

A container opener pushes one piece after another: a hole, bytes of the backing file, or a block
that is compressed in there.  `SegmentMap.push` joins holes, and runs that also follow each other in
the backing file, into one segment.

`pushed` is what the pieces say one by one, over any backing bytes and any decoder. `Denotes`
connects the two: the segments lie end to end, and a position has from its segment the byte that it
has from its piece.
-/

namespace Reclaim

open FileBytes

/-- Compression of a block. -/
inductive Codec where
  | raw
  | zero
  | zlib
  | deflate
  | bzip2
  | lzma
  | lzfse
  deriving DecidableEq, Repr

/-- Where the bytes of an output range come from. -/
inductive Piece where
  | zero
  | raw (pos : ℕ)
  | compressed (codec : Codec) (pos clen : ℕ)
  deriving DecidableEq, Repr

/-- An output range and where its bytes come from. -/
structure Segment where
  outStart : ℕ
  outLen : ℕ
  piece : Piece
  deriving DecidableEq, Repr

/-- The segments so far, and where the next one begins. -/
structure SegmentMap where
  segs : List Segment
  nextOut : ℕ
  deriving DecidableEq, Repr

namespace SegmentMap

/-- `SegmentMap::new`. -/
def new : SegmentMap := ⟨[], 0⟩

/-- A piece goes on where the last segment ends. -/
def joins (last : Segment) (piece : Piece) : Bool :=
  match last.piece, piece with
  | .zero, .zero => true
  | .raw p0, .raw p1 => decide (saturatingAdd p0 last.outLen = p1)
  | _, _ => false

/-- `SegmentMap::push`. -/
def push (m : SegmentMap) (len : ℕ) (piece : Piece) : SegmentMap :=
  if len = 0 then m
  else match m.segs.getLast? with
    | some last =>
      if joins last piece then
        ⟨m.segs.dropLast ++ [{ last with outLen := saturatingAdd last.outLen len }],
          saturatingAdd m.nextOut len⟩
      else ⟨m.segs ++ [⟨m.nextOut, len, piece⟩], saturatingAdd m.nextOut len⟩
    | none => ⟨m.segs ++ [⟨m.nextOut, len, piece⟩], saturatingAdd m.nextOut len⟩

/-- The map of some pushes, each a length and a piece. -/
def ofPushes (pushes : List (ℕ × Piece)) : SegmentMap :=
  pushes.foldl (fun m p => m.push p.1 p.2) new

end SegmentMap

namespace Segment

/-- One past the last position, as a `u64`. -/
def stop (s : Segment) : ℕ := saturatingAdd s.outStart s.outLen

/-- The segment has the position. -/
def Covers (s : Segment) (x : ℕ) : Prop := s.outStart ≤ x ∧ x < s.outStart + s.outLen

instance (s : Segment) (x : ℕ) : Decidable (s.Covers x) := instDecidableAnd

end Segment

/-! ## Segments that lie end to end -/

/-- The segments lie end to end, from one position to another. -/
def Tiles : ℕ → List Segment → ℕ → Prop
  | a, [], b => a = b
  | a, s :: rest, b => s.outStart = a ∧ 0 < s.outLen ∧ Tiles s.stop rest b

lemma tiles_nil {a b : ℕ} : Tiles a [] b ↔ a = b := Iff.rfl

lemma tiles_cons {s : Segment} {rest : List Segment} {a b : ℕ} :
    Tiles a (s :: rest) b ↔ s.outStart = a ∧ 0 < s.outLen ∧ Tiles s.stop rest b := Iff.rfl

lemma tiles_append {a b : ℕ} {l l' : List Segment} :
    Tiles a (l ++ l') b ↔ ∃ m, Tiles a l m ∧ Tiles m l' b := by
  induction l generalizing a with
  | nil => simp [tiles_nil]
  | cons s l ih =>
    simp only [List.cons_append, tiles_cons, ih]
    constructor
    · rintro ⟨hs, hpos, m, h, h'⟩
      exact ⟨m, ⟨hs, hpos, h⟩, h'⟩
    · rintro ⟨m, ⟨hs, hpos, h⟩, h'⟩
      exact ⟨hs, hpos, m, h, h'⟩

lemma Tiles.le {a b : ℕ} {l : List Segment} (h : Tiles a l b) (ha : a ≤ u64Max) :
    a ≤ b ∧ b ≤ u64Max := by
  induction l generalizing a with
  | nil =>
    obtain rfl : a = b := h
    exact ⟨le_rfl, ha⟩
  | cons s l ih =>
    obtain ⟨rfl, -, hrest⟩ := h
    have hstop : s.outStart ≤ s.stop ∧ s.stop ≤ u64Max := by
      unfold Segment.stop saturatingAdd
      omega
    obtain ⟨hle, hmax⟩ := ih hrest hstop.2
    exact ⟨by omega, hmax⟩

/-- The segments of a tiled range begin in it. -/
lemma Tiles.start_ge {a b : ℕ} {l : List Segment} (h : Tiles a l b) (ha : a ≤ u64Max) {s : Segment}
    (hs : s ∈ l) : a ≤ s.outStart := by
  induction l generalizing a with
  | nil => exact absurd hs List.not_mem_nil
  | cons r l ih =>
    obtain ⟨rfl, -, hrest⟩ := h
    have hstop : r.outStart ≤ r.stop ∧ r.stop ≤ u64Max := by
      unfold Segment.stop saturatingAdd
      omega
    rcases List.mem_cons.1 hs with rfl | hs
    · exact le_rfl
    · exact hstop.1.trans (ih hrest hstop.2 hs)

/-- **Every position of a tiled range is in one segment**: those before it end, those behind it
begin elsewhere. -/
lemma Tiles.exists_index {a b x : ℕ} {l : List Segment} (h : Tiles a l b) (hb : b ≤ u64Max)
    (ha : a ≤ x) (hx : x < b) : ∃ (i : ℕ) (s : Segment), l[i]? = some s ∧ s.Covers x ∧
      (∀ (j : ℕ) (r : Segment), j < i → l[j]? = some r → r.stop ≤ x) ∧
        ∀ (j : ℕ) (r : Segment), i < j → l[j]? = some r → x < r.outStart := by
  induction l generalizing a with
  | nil =>
    obtain rfl : a = b := h
    omega
  | cons s l ih =>
    obtain ⟨rfl, -, hrest⟩ := h
    by_cases hin : x < s.stop
    · refine ⟨0, s, rfl, ⟨ha, ?_⟩, fun j r hj => absurd hj (Nat.not_lt_zero j), fun j r hj hr => ?_⟩
      · unfold Segment.stop saturatingAdd at hin
        omega
      · obtain ⟨i, rfl⟩ := Nat.exists_eq_succ_of_ne_zero (Nat.pos_iff_ne_zero.1 hj)
        rw [Nat.succ_eq_add_one, List.getElem?_cons_succ] at hr
        have hmem := List.mem_of_getElem? hr
        have hle : s.stop ≤ u64Max := min_le_right _ _
        exact hin.trans_le (hrest.start_ge hle hmem)
    · obtain ⟨i, r, hr, hcov, hbefore, hbehind⟩ := ih hrest (not_lt.1 hin)
      refine ⟨i + 1, r, by rw [List.getElem?_cons_succ]; exact hr, hcov, fun j q hj hq => ?_,
        fun j q hj hq => ?_⟩
      · cases j with
        | zero =>
          rw [List.getElem?_cons_zero] at hq
          rw [← Option.some.inj hq]
          exact not_lt.1 hin
        | succ j =>
          rw [List.getElem?_cons_succ] at hq
          exact hbefore j q (by omega) hq
      · cases j with
        | zero => exact absurd hj (Nat.not_lt_zero _)
        | succ j =>
          rw [List.getElem?_cons_succ] at hq
          exact hbehind j q (by omega) hq

/-! ## What the pieces say -/

section Denotes

variable (B : ℕ → Option UInt8) (D : Codec → ℕ → ℕ → ℕ → Option Bytes)

/-- Byte `i` of a piece of `len` bytes, if it can be had: `B` has the bytes of the backing file, and
`D` decodes blocks of it. -/
def Piece.byte (len : ℕ) (i : ℕ) : Piece → Option UInt8
  | .zero => some 0
  | .raw pos => B (pos + i)
  | .compressed codec pos clen => (D codec pos clen len).map fun b => byteAt b i

/-- The byte that a segment has for a position. -/
def Segment.byte (s : Segment) (x : ℕ) : Option UInt8 := s.piece.byte B D s.outLen (x - s.outStart)

/-- The byte that the pushes give for a position, taken one by one. -/
def pushed : List (ℕ × Piece) → ℕ → Option UInt8
  | [], _ => none
  | p :: rest, x => if x < p.1 then p.2.byte B D p.1 x else pushed rest (x - p.1)

/-- How much the pushes put out. -/
def totalOut (pushes : List (ℕ × Piece)) : ℕ := (pushes.map (·.1)).sum

variable {B D}

@[simp] lemma totalOut_nil : totalOut [] = 0 := rfl

@[simp] lemma totalOut_cons (p : ℕ × Piece) (rest : List (ℕ × Piece)) :
    totalOut (p :: rest) = p.1 + totalOut rest := by simp [totalOut]

@[simp] lemma totalOut_append (pushes more : List (ℕ × Piece)) :
    totalOut (pushes ++ more) = totalOut pushes + totalOut more := by simp [totalOut]

lemma pushed_cons (p : ℕ × Piece) (rest : List (ℕ × Piece)) (x : ℕ) :
    pushed B D (p :: rest) x =
      if x < p.1 then p.2.byte B D p.1 x else pushed B D rest (x - p.1) := rfl

lemma pushed_append (pushes more : List (ℕ × Piece)) (x : ℕ) :
    pushed B D (pushes ++ more) x =
      if x < totalOut pushes then pushed B D pushes x else pushed B D more
        (x - totalOut pushes) := by
  induction pushes generalizing x with
  | nil => simp
  | cons q rest ih =>
    rw [List.cons_append, pushed_cons, pushed_cons, ih, totalOut_cons]
    by_cases hq : x < q.1
    · rw [if_pos hq, if_pos (by omega), if_pos hq]
    · rw [if_neg hq, if_neg hq]
      by_cases hin : x - q.1 < totalOut rest
      · rw [if_pos hin, if_pos (by omega)]
      · rw [if_neg hin, if_neg (by omega), Nat.sub_add_eq]

/-- Nothing is given behind what is put out. -/
lemma pushed_eq_none (pushes : List (ℕ × Piece)) {x : ℕ} (h : totalOut pushes ≤ x) :
    pushed B D pushes x = none := by
  induction pushes generalizing x with
  | nil => rfl
  | cons q rest ih =>
    rw [totalOut_cons] at h
    rw [pushed_cons, if_neg (by omega)]
    exact ih (by omega)

lemma pushed_append_singleton (pushes : List (ℕ × Piece)) (p : ℕ × Piece) (x : ℕ) :
    pushed B D (pushes ++ [p]) x =
      if x < totalOut pushes then pushed B D pushes x
      else if x < totalOut pushes + p.1 then p.2.byte B D p.1 (x - totalOut pushes) else none := by
  rw [pushed_append]
  by_cases hin : x < totalOut pushes
  · rw [if_pos hin, if_pos hin]
  · rw [if_neg hin, if_neg hin, pushed_cons]
    exact if_congr (by omega) rfl rfl

lemma totalOut_append_singleton (pushes : List (ℕ × Piece)) (p : ℕ × Piece) :
    totalOut (pushes ++ [p]) = totalOut pushes + p.1 := by simp

variable (B D)

/-- A map stands for pushes: its segments lie end to end over all they put out, and every position
has the byte that they give it. -/
structure Denotes (m : SegmentMap) (pushes : List (ℕ × Piece)) : Prop where
  tiles : Tiles 0 m.segs m.nextOut
  next : m.nextOut = min (totalOut pushes) u64Max
  byte : ∀ s ∈ m.segs, ∀ x < u64Max, s.Covers x → s.byte B D x = pushed B D pushes x

variable {B D}

lemma SegmentMap.denotes_new : Denotes B D new [] where
  tiles := rfl
  next := rfl
  byte _ hs := absurd hs List.not_mem_nil

/-- A segment of the map covers only what has been put out. -/
lemma Denotes.covers_lt {m : SegmentMap} {pushes : List (ℕ × Piece)} (h : Denotes B D m pushes)
    {s : Segment} (hs : s ∈ m.segs) {x : ℕ} (hx : x < u64Max) (hc : s.Covers x) :
    x < m.nextOut := by
  obtain ⟨l, l', hsplit⟩ := List.append_of_mem hs
  have htiles := h.tiles
  rw [hsplit] at htiles
  obtain ⟨a, h1, rfl, -, hrest⟩ := tiles_append.1 htiles
  have hstop : s.stop ≤ u64Max := min_le_right _ _
  have hle := (hrest.le hstop).1
  have hlt : x < s.stop := by
    have := hc.2
    unfold Segment.stop saturatingAdd
    omega
  omega

/-- A new segment at the end stands for the push it is made for. -/
lemma Denotes.append {m : SegmentMap} {pushes : List (ℕ × Piece)} (h : Denotes B D m pushes)
    {len : ℕ} (hlen : 0 < len) (piece : Piece) :
    Denotes B D ⟨m.segs ++ [⟨m.nextOut, len, piece⟩], saturatingAdd m.nextOut len⟩
      (pushes ++ [(len, piece)]) := by
  have hnext := h.next
  refine ⟨tiles_append.2 ⟨m.nextOut, h.tiles, rfl, hlen, rfl⟩, ?_, fun s hs x hx hc => ?_⟩
  · rw [totalOut_append_singleton]
    dsimp only
    unfold saturatingAdd
    omega
  · rw [pushed_append_singleton]
    dsimp only at hs
    rcases List.mem_append.1 hs with hs | hs
    · have hlt := h.covers_lt hs hx hc
      rw [if_pos (by omega)]
      exact h.byte s hs x hx hc
    · rw [List.mem_singleton] at hs
      subst hs
      obtain ⟨hle, hlt⟩ := hc
      dsimp only at hle hlt
      rw [if_neg (by omega), if_pos (by dsimp only; omega)]
      unfold Segment.byte
      dsimp only
      congr 1
      omega

/-- A segment that is made longer stands for the push that it joins. -/
lemma Denotes.join {m : SegmentMap} {pushes : List (ℕ × Piece)} (h : Denotes B D m pushes)
    (hB : ∀ y, u64Max ≤ y → B y = none) {last : Segment} (hlast : m.segs.getLast? = some last)
    {len : ℕ} (hlen : 0 < len) {piece : Piece} (hjoin : SegmentMap.joins last piece = true) :
    Denotes B D ⟨m.segs.dropLast ++ [{ last with outLen := saturatingAdd last.outLen len }],
      saturatingAdd m.nextOut len⟩ (pushes ++ [(len, piece)]) := by
  have hnext := h.next
  have hsplit : m.segs.dropLast ++ [last] = m.segs := List.dropLast_append_getLast? last hlast
  have htiles := h.tiles
  rw [← hsplit] at htiles
  obtain ⟨a, h1, hstart, hpos, hstop⟩ := tiles_append.1 htiles
  have hmem : last ∈ m.segs := List.mem_of_getLast? hlast
  have hstop' : min (last.outStart + last.outLen) u64Max = m.nextOut := hstop
  refine ⟨tiles_append.2 ⟨a, h1, hstart, ?_, ?_⟩, ?_, fun s hs x hx hc => ?_⟩
  · dsimp only
    unfold saturatingAdd u64Max
    omega
  · show min (last.outStart + min (last.outLen + len) u64Max) u64Max = min (m.nextOut + len) u64Max
    omega
  · rw [totalOut_append_singleton]
    dsimp only
    unfold saturatingAdd
    omega
  · rw [pushed_append_singleton]
    rcases List.mem_append.1 hs with hs | hs
    · have hs' : s ∈ m.segs := (List.dropLast_sublist _).subset hs
      have hlt := h.covers_lt hs' hx hc
      rw [if_pos (by omega)]
      exact h.byte s hs' x hx hc
    · rw [List.mem_singleton] at hs
      subst hs
      obtain ⟨hle, hlt⟩ := hc
      dsimp only at hle hlt
      unfold saturatingAdd at hlt
      by_cases hold : x < m.nextOut
      · have hbyte := h.byte last hmem x hx ⟨hle, by omega⟩
        rw [if_pos (by omega), ← hbyte]
        unfold Segment.byte
        cases hp : last.piece with
        | zero => rfl
        | raw pos => rfl
        | compressed codec pos clen =>
          unfold SegmentMap.joins at hjoin
          simp [hp] at hjoin
      · rw [if_neg (by omega), if_pos (by dsimp only; omega)]
        unfold Segment.byte
        dsimp only
        unfold SegmentMap.joins at hjoin
        cases hp : last.piece with
        | zero =>
          rw [hp] at hjoin
          cases piece with
          | zero => rfl
          | raw pos => simp at hjoin
          | compressed codec pos clen => simp at hjoin
        | raw p0 =>
          rw [hp] at hjoin
          cases piece with
          | zero => simp at hjoin
          | raw p1 =>
            have hp1 : min (p0 + last.outLen) u64Max = p1 := of_decide_eq_true hjoin
            show B (p0 + (x - last.outStart)) = B (p1 + (x - totalOut pushes))
            by_cases hsat : p0 + last.outLen ≤ u64Max
            · congr 1
              omega
            · rw [hB _ (by omega), hB _ (by omega)]
          | compressed codec pos clen => simp at hjoin
        | compressed codec pos clen =>
          rw [hp] at hjoin
          cases piece <;> simp at hjoin

/-- **Pushing a piece**: the map stands for one push more. -/
lemma Denotes.push {m : SegmentMap} {pushes : List (ℕ × Piece)} (h : Denotes B D m pushes)
    (hB : ∀ y, u64Max ≤ y → B y = none) (len : ℕ) (piece : Piece) :
    Denotes B D (m.push len piece) (pushes ++ [(len, piece)]) := by
  unfold SegmentMap.push
  by_cases hlen : len = 0
  · subst hlen
    rw [if_pos rfl]
    have hnext := h.next
    refine ⟨h.tiles, by rwa [totalOut_append_singleton, Nat.add_zero], fun s hs x hx hc => ?_⟩
    have hlt := h.covers_lt hs hx hc
    rw [pushed_append_singleton, if_pos (by omega)]
    exact h.byte s hs x hx hc
  · rw [if_neg hlen]
    have hpos : 0 < len := Nat.pos_of_ne_zero hlen
    split
    · rename_i last hlast
      split
      · rename_i hjoin
        exact h.join hB hlast hpos hjoin
      · exact h.append hpos piece
    · exact h.append hpos piece

/-- **What a map stands for**: the pushes that it is made of, one by one. -/
theorem SegmentMap.denotes_ofPushes (hB : ∀ y, u64Max ≤ y → B y = none)
    (pushes : List (ℕ × Piece)) : Denotes B D (ofPushes pushes) pushes := by
  induction pushes using List.reverseRecOn with
  | nil => exact denotes_new
  | append_singleton pushes p ih =>
    unfold ofPushes at ih ⊢
    rw [List.foldl_append, List.foldl_cons, List.foldl_nil]
    exact ih.push hB p.1 p.2

end Denotes

end Reclaim
