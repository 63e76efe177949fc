import Reclaim.Block.MappedSource

/-!
# Filling a part of a request

The bytes of a range can be had together or not at all: a backing file is read in whole sectors, one
of which may be bad, and a block is decoded as a whole.  `fillFromSegment_spec` says so of every
kind of segment, with the blocks that are kept from earlier reads.
-/

namespace Reclaim

open FileBytes

variable {σ : Type}

/-! ## Bytes that can be had together -/

/-- The bytes from `a` on, if every one of them can be had. -/
def gather (f : ℕ → Option UInt8) (a n : ℕ) : Option Bytes :=
  if ∀ j < n, (f (a + j)).isSome = true then
    some ((List.range n).map fun j => (f (a + j)).getD 0) else none

lemma gather_congr {f g : ℕ → Option UInt8} {a b n : ℕ} (h : ∀ j < n, f (a + j) = g (b + j)) :
    gather f a n = gather g b n := by
  unfold gather
  have hmap : (List.range n).map (fun j => (f (a + j)).getD 0) =
      (List.range n).map fun j => (g (b + j)).getD 0 :=
    List.map_congr_left fun j hj => by rw [h j (List.mem_range.1 hj)]
  rw [hmap]
  refine if_congr ?_ rfl rfl
  exact forall₂_congr fun j hj => by rw [h j hj]

lemma gather_eq_some {f : ℕ → Option UInt8} {a n : ℕ} {bytes : Bytes}
    (h : gather f a n = some bytes) : (∀ j < n, (f (a + j)).isSome = true) ∧ bytes.length = n ∧
      ∀ j < n, byteAt bytes j = (f (a + j)).getD 0 := by
  unfold gather at h
  split at h
  · rename_i hall
    obtain rfl := Option.some.inj h
    refine ⟨hall, by simp, fun j hj => ?_⟩
    simp [byteAt, List.getD_eq_getElem?_getD, hj]
  · exact absurd h (by simp)

lemma gather_eq_none {f : ℕ → Option UInt8} {a n : ℕ} (h : gather f a n = none) :
    ∃ j < n, f (a + j) = none := by
  unfold gather at h
  split at h
  · exact absurd h (by simp)
  · rename_i hall
    push Not at hall
    obtain ⟨j, hj, hnone⟩ := hall
    exact ⟨j, hj, by simpa using hnone⟩

/-- Bytes at hand are those to be had, if each is. -/
lemma eq_gather {f : ℕ → Option UInt8} {a n : ℕ} {bytes : Bytes} (hlen : bytes.length = n)
    (h : ∀ j < n, f (a + j) = some (byteAt bytes j)) : some bytes = gather f a n := by
  unfold gather
  rw [if_pos fun j hj => by rw [h j hj]; rfl]
  refine congrArg some (ext_byteAt (by simpa using hlen) fun j hj => ?_)
  rw [hlen] at hj
  simp [byteAt, List.getD_eq_getElem?_getD, hj, h j hj]

lemma none_eq_gather {f : ℕ → Option UInt8} {a n : ℕ} {j : ℕ} (hj : j < n)
    (h : f (a + j) = none) : none = gather f a n := by
  unfold gather
  rw [if_neg fun hall => by simpa [h] using hall j hj]

/-- **Reading any bytes of the backing file**: all of them, if they can be had. -/
lemma readBackingUnaligned_eq {backing : BlockSource σ} (h : Sectorwise backing) (pos n : ℕ)
    (s : σ) :
    (readBackingUnaligned backing pos n s).1 = gather h.byte pos n := by
  have hss := backing.sector_pos
  have hmax := backing.len_le
  unfold readBackingUnaligned
  split
  · rename_i hn
    subst hn
    exact eq_gather rfl fun j hj => absurd hj (Nat.not_lt_zero j)
  rename_i hn
  dsimp only
  set stop := saturatingAdd pos n with hstop
  set alignedStop := min (saturatingMul (divCeil stop backing.sector) backing.sector) backing.len
    with haligned
  have hstop' : stop = min (pos + n) u64Max := rfl
  have hceil : stop ≤ saturatingMul (divCeil stop backing.sector) backing.sector := by
    have hle := le_divCeil_mul hss stop
    unfold saturatingMul
    omega
  have hmod : pos % backing.sector ≤ pos := Nat.mod_le _ _
  have hlast : h.byte (pos + (n - 1)) = none → none = gather h.byte pos n :=
    none_eq_gather (by omega)
  split
  · exact hlast (if_neg fun hin => by omega)
  rename_i hfit
  by_cases hsat : u64Max < pos + n
  · -- a sum that does not fit reaches behind every source
    have hnone : none = gather h.byte pos n := hlast (if_neg fun hin => by omega)
    split
    · exact hnone
    · rw [if_pos (by omega)]
      exact hnone
  have hend : pos + n ≤ alignedStop := by omega
  set start := pos - pos % backing.sector with hstart
  have hdvd : backing.sector ∣ start := Nat.dvd_sub_mod pos
  have hfirst : (pos - start) / backing.sector = 0 :=
    Nat.div_eq_of_lt (by have := Nat.mod_lt pos hss; omega)
  have hread : ∀ k < alignedStop - start, _ :=
    h.status s start (alignedStop - start) hdvd (by omega)
  have hgood : (∃ i ∈ List.range' ((pos - start) / backing.sector)
      ((stop - 1 - start) / backing.sector + 1 - (pos - start) / backing.sector),
      (backing.readAt s start (alignedStop - start)).1.result.status i ≠ .good) ↔
        ∃ j < n, h.readable ((pos + j) / backing.sector) = false := by
    rw [hfirst, Nat.sub_zero]
    constructor
    · rintro ⟨i, hi, hbad⟩
      rw [List.mem_range'_1] at hi
      have hi' : i * backing.sector ≤ stop - 1 - start :=
        (Nat.le_div_iff_mul_le hss).1 (by omega)
      -- a byte of the request in the sector
      refine ⟨max pos (start + i * backing.sector) - pos, by omega, ?_⟩
      have hst := hread (i * backing.sector) (by omega)
      rw [Nat.mul_div_cancel _ hss] at hst
      have hsame : (pos + (max pos (start + i * backing.sector) - pos)) / backing.sector =
          (start + i * backing.sector) / backing.sector := by
        rcases Nat.eq_zero_or_pos i with rfl | hpos
        · have hle : max pos (start + 0 * backing.sector) = pos := by omega
          rw [hle, Nat.zero_mul, Nat.add_zero, Nat.sub_self, Nat.add_zero]
          obtain ⟨q, hq⟩ := hdvd
          have hd : pos = backing.sector * q + pos % backing.sector := by omega
          rw [hq, Nat.mul_div_cancel_left _ hss, hd, Nat.mul_add_div hss,
            Nat.div_eq_of_lt (Nat.mod_lt pos hss), Nat.add_zero]
        · have hmul := Nat.le_mul_of_pos_left backing.sector hpos
          have hlt := Nat.mod_lt pos hss
          congr 1
          omega
      rw [hsame]
      by_contra htrue
      exact hbad (hst.2 (by simpa using htrue))
    · rintro ⟨j, hj, hfalse⟩
      refine ⟨(pos + j - start) / backing.sector, ?_, fun hst => ?_⟩
      · rw [List.mem_range'_1]
        have hle := Nat.div_le_div_right (c := backing.sector)
          (show pos + j - start ≤ stop - 1 - start by omega)
        exact ⟨Nat.zero_le _, by rw [Nat.zero_add]; exact Nat.lt_succ_of_le hle⟩
      · have htrue := (hread (pos + j - start) (by omega)).1 hst
        rw [show start + (pos + j - start) = pos + j by omega, hfalse] at htrue
        exact absurd htrue (by decide)
  have hle : start ≤ pos := Nat.sub_le _ _
  clear_value start alignedStop
  clear hmod hfirst
  by_cases hbad : ∃ j < n, h.readable ((pos + j) / backing.sector) = false
  · rw [if_pos (hgood.2 hbad)]
    obtain ⟨j, hj, hfalse⟩ := hbad
    exact none_eq_gather hj (if_neg fun hin => by simpa [hfalse] using hin.2)
  · rw [if_neg (hgood.not.2 hbad), if_neg (by omega)]
    push Not at hbad
    refine eq_gather ?_ fun j hj => ?_
    · rw [List.length_take, List.length_drop, backing.filled]
      omega
    · have htrue : h.readable ((pos + j) / backing.sector) = true := by simpa using hbad j hj
      have hbyte := h.bytes s start (alignedStop - start) hdvd (by omega) (pos + j - start)
        (by omega)
      rw [show start + (pos + j - start) = pos + j by omega] at hbyte
      rw [byteAt_take, if_pos hj, byteAt_drop, show pos - start + j = pos + j - start by omega,
        hbyte htrue]
      exact if_pos ⟨by omega, htrue⟩

/-! ## Looking up segments -/

lemma Tiles.pairwise {a b : ℕ} {l : List Segment} (h : Tiles a l b) (ha : a ≤ u64Max) :
    l.Pairwise fun r s => r.stop ≤ s.outStart ∨ s.stop ≤ r.outStart := by
  induction l generalizing a with
  | nil => exact List.Pairwise.nil
  | cons r l ih =>
    obtain ⟨rfl, -, hrest⟩ := h
    have hstop : r.stop ≤ u64Max := min_le_right _ _
    exact List.pairwise_cons.2 ⟨fun s hs => .inl (hrest.start_ge hstop hs), ih hrest hstop⟩

lemma Tiles.apart {a b : ℕ} {l : List Segment} (h : Tiles a l b) (ha : a ≤ u64Max) {r s : Segment}
    (hr : r ∈ l) (hs : s ∈ l) (hne : r ≠ s) : r.stop ≤ s.outStart ∨ s.stop ≤ r.outStart := by
  have hsymm : Std.Symm fun r s : Segment => r.stop ≤ s.outStart ∨ s.stop ≤ r.outStart :=
    ⟨fun _ _ => Or.symm⟩
  exact (h.pairwise ha).forall hr hs hne

lemma Tiles.stop_le {a b : ℕ} {l : List Segment} (h : Tiles a l b) {s : Segment} (hs : s ∈ l) :
    s.stop ≤ b := by
  obtain ⟨l₁, l₂, rfl⟩ := List.append_of_mem hs
  obtain ⟨m, -, -, -, hrest⟩ := tiles_append.1 h
  exact (hrest.le (min_le_right _ _)).1

section Lookup

variable {m : MappedSource σ} {b : ℕ} (ht : Tiles 0 m.segs b)

include ht

/-- A position that is put out is found in its segment. -/
lemma segFor_eq_some {x : ℕ} (hx : x < b) : ∃ i s, m.segFor x = some i ∧ m.segs[i]? = some s ∧
    s.Covers x := by
  have hmax : b ≤ u64Max := (ht.le (Nat.zero_le _)).2
  obtain ⟨i, s, hs, hcov, hbefore, hbehind⟩ := ht.exists_index hmax (Nat.zero_le x) hx
  have hlen : i < m.segs.length := (List.getElem?_eq_some_iff.1 hs).1
  refine ⟨i, s, ?_, hs, hcov⟩
  refine bisect_eq_some ?_ (fun j hj => ?_) _ (fun j hj hjl => ?_) (Nat.zero_le i) hlen le_rfl
  · rw [MappedSource.side, hs, Option.map_some, if_neg (not_lt.2 hcov.1), if_neg]
    have := hcov.2
    unfold Segment.stop saturatingAdd
    omega
  · obtain ⟨r, hr⟩ : ∃ r, m.segs[j]? = some r := ⟨_, List.getElem?_eq_getElem (by omega)⟩
    have hle := hbefore j r hj hr
    have hlt : ¬ x < r.outStart := by
      intro hlt
      rcases ht.apart (Nat.zero_le _) (List.mem_of_getElem? hr) (List.mem_of_getElem? hs) (by
        rintro rfl
        exact absurd hcov.1 (by omega)) with h | h
      · have hpos := hcov.1
        unfold Segment.stop saturatingAdd at hle
        omega
      · have h2 := hcov.2
        unfold Segment.stop saturatingAdd at h hle
        omega
    rw [MappedSource.side, hr, Option.map_some, if_neg hlt, if_pos hle]
  · obtain ⟨r, hr⟩ : ∃ r, m.segs[j]? = some r := ⟨_, List.getElem?_eq_getElem hjl⟩
    rw [MappedSource.side, hr, Option.map_some, if_pos (hbehind j r hj hr)]

/-- Behind what is put out there is no segment to be found. -/
lemma segFor_eq_none {x : ℕ} (hx : b ≤ x) : m.segFor x = none := by
  cases h : m.segFor x with
  | none => rfl
  | some i =>
    have hside := bisect_sound _ h
    unfold MappedSource.side at hside
    obtain ⟨s, hs, hside⟩ := Option.map_eq_some_iff.1 hside
    have hstop := ht.stop_le (List.mem_of_getElem? hs)
    split at hside
    · exact absurd hside (by decide)
    split at hside
    · exact absurd hside (by decide)
    · omega

/-- The segments that begin before the last `u64` have no position in common. -/
lemma covers_unique {r s : Segment} (hr : r ∈ m.segs) (hs : s ∈ m.segs) (hr' : r.outStart < u64Max)
    (hs' : s.outStart < u64Max) {x : ℕ} (hrx : r.Covers x) (hsx : s.Covers x) : r = s := by
  by_contra hne
  have h1 := hrx
  have h2 := hsx
  unfold Segment.Covers at h1 h2
  rcases ht.apart (Nat.zero_le _) hr hs hne with h | h
  all_goals
    unfold Segment.stop saturatingAdd at h
    omega

/-- A segment that has the position where another one ends begins there. -/
lemma outStart_of_covers {r s : Segment} (hr : r ∈ m.segs) (hs : s ∈ m.segs)
    (hr' : r.outStart < u64Max) (hs' : s.outStart < u64Max)
    (hc : s.Covers (r.outStart + r.outLen)) : s.outStart = r.outStart + r.outLen := by
  have h2 := hc
  unfold Segment.Covers at h2
  have hne : r ≠ s := by
    rintro rfl
    omega
  rcases ht.apart (Nat.zero_le _) hr hs hne with h | h
  all_goals
    unfold Segment.stop saturatingAdd at h
    omega

end Lookup

/-! ## Filling a part of a request -/

section Fill

variable (inflate : Codec → Bytes → ℕ → Option Bytes) (m : MappedSource σ)
  (h : Sectorwise m.backing)

/-- What a block of the backing file decodes to. -/
def MappedSource.decoded (codec : Codec) (pos clen outLen : ℕ) : Option Bytes :=
  (gather h.byte pos (min (min clen (m.backing.len - pos))
    (saturatingAdd (saturatingAdd outLen (outLen / 8)) (2 ^ 20)))).bind fun comp =>
      decompress inflate codec comp outLen

/-- The byte that a segment of the image has for a position. -/
def MappedSource.segByte (s : Segment) (x : ℕ) : Option UInt8 :=
  s.byte h.byte (m.decoded inflate h) x

/-- The blocks that are kept are what their segments decode to. -/
def FreshBlocks (c : DecodeCache) : Prop :=
  ∀ e ∈ c.map, ∀ s codec pos clen, m.segs[e.1]? = some s → s.piece = .compressed codec pos clen →
    m.decoded inflate h codec pos clen s.outLen = some e.2

variable {inflate m h}

lemma DecodeCache.map_trim (key fuel : ℕ) (c : DecodeCache) :
    ∀ e ∈ (DecodeCache.trim key fuel c).map, e ∈ c.map := by
  induction fuel generalizing c with
  | zero => exact fun e he => he
  | succ fuel ih =>
    intro e he
    unfold DecodeCache.trim at he
    split at he
    · split at he
      · have he' := ih _ e he
        dsimp only at he'
        split at he'
        · exact he'
        · exact (List.mem_filter.1 he').1
      · exact he
    · exact he

lemma DecodeCache.mem_map_put {c : DecodeCache} {key : ℕ} {val : Bytes} {e : ℕ × Bytes}
    (he : e ∈ (c.put key val).map) : e = (key, val) ∨ e ∈ c.map := by
  have hmem : e ∈ (key, val) :: c.map.filter (fun e => decide (e.1 ≠ key)) := by
    unfold DecodeCache.put at he
    dsimp only at he
    split at he
    · exact he
    · exact DecodeCache.map_trim _ _ _ e he
  exact (List.mem_cons.1 hmem).imp_right fun h => (List.mem_filter.1 h).1

/-- **A decoded block** is what its segment decodes to, whether it was kept or not. -/
lemma decodedBlock_spec {idx : ℕ} {seg : Segment} (hseg : m.segs[idx]? = some seg) {codec : Codec}
    {pos clen : ℕ} (hp : seg.piece = .compressed codec pos clen) {s : σ × DecodeCache}
    (hs : FreshBlocks inflate m h s.2) :
    (m.decodedBlock inflate idx seg s).1 = m.decoded inflate h codec pos clen seg.outLen ∧
      FreshBlocks inflate m h (m.decodedBlock inflate idx seg s).2.2 := by
  unfold MappedSource.decodedBlock DecodeCache.get
  rw [hp]
  dsimp only
  cases hfind : s.2.map.find? fun e => decide (e.1 = idx) with
  | some e =>
    have hidx : e.1 = idx := by simpa using List.find?_some hfind
    have hmem := List.mem_of_find?_eq_some hfind
    exact ⟨(hs e hmem seg codec pos clen (by rw [hidx]; exact hseg) hp).symm, hs⟩
  | none =>
    dsimp only
    have hread : ((readBackingUnaligned m.backing pos (min (min clen (m.backing.len - pos))
        (saturatingAdd (saturatingAdd seg.outLen (seg.outLen / 8)) (2 ^ 20))) s.1).1.bind
        fun comp => decompress inflate codec comp seg.outLen) =
          m.decoded inflate h codec pos clen seg.outLen := by
      rw [readBackingUnaligned_eq h]
      rfl
    rw [hread]
    cases hdec : m.decoded inflate h codec pos clen seg.outLen with
    | none => exact ⟨rfl, hs⟩
    | some raw =>
      refine ⟨rfl, fun e he r codec' pos' clen' hr hp' => ?_⟩
      rcases DecodeCache.mem_map_put he with rfl | he
      · obtain rfl : seg = r := Option.some.inj (hseg.symm.trans hr)
        obtain ⟨rfl, rfl, rfl⟩ := Piece.compressed.inj (hp.symm.trans hp')
        exact hdec
      · exact hs e he r codec' pos' clen' hr hp'

lemma decoded_length {codec : Codec} {pos clen outLen : ℕ} {block : Bytes}
    (hd : m.decoded inflate h codec pos clen outLen = some block) : block.length = outLen := by
  obtain ⟨comp, -, hdec⟩ := Option.bind_eq_some_iff.1 hd
  unfold decompress at hdec
  split at hdec
  · exact absurd hdec (by simp)
  · exact of_decide_eq_true (Option.filter_eq_some_iff.1 hdec).2

/-- **Filling from a segment**: the bytes that the segment has there, if they can all be had. -/
lemma fillFromSegment_spec {idx : ℕ} {seg : Segment} (hseg : m.segs[idx]? = some seg)
    {within n : ℕ} (hn : 0 < n) (hfit : within + n ≤ seg.outLen) {s : σ × DecodeCache}
    (hs : FreshBlocks inflate m h s.2) :
    (m.fillFromSegment inflate idx seg within n s).1 =
        gather (m.segByte inflate h seg) (seg.outStart + within) n ∧
      FreshBlocks inflate m h (m.fillFromSegment inflate idx seg within n s).2.2 := by
  have hsub : ∀ j, seg.outStart + within + j - seg.outStart = within + j := fun j => by omega
  unfold MappedSource.fillFromSegment
  cases hp : seg.piece with
  | zero =>
    refine ⟨eq_gather (by simp) fun j hj => ?_, hs⟩
    rw [MappedSource.segByte, Segment.byte, hp, byteAt_replicate_zero]
    rfl
  | raw pos =>
    refine ⟨?_, hs⟩
    dsimp only
    rw [readBackingUnaligned_eq h]
    have hbyte : ∀ j, m.segByte inflate h seg (seg.outStart + within + j) =
        h.byte (pos + (within + j)) := fun j => by
      rw [MappedSource.segByte, Segment.byte, hp, hsub]
      rfl
    have hmax := m.backing.len_le
    by_cases hsat : pos + within ≤ u64Max
    · apply gather_congr
      intro j _
      rw [hbyte, saturatingAdd, min_eq_left hsat, Nat.add_assoc]
    · -- neither is in the backing file
      have hleft : h.byte (saturatingAdd pos within + 0) = none := by
        apply if_neg
        intro hin
        unfold saturatingAdd at hin
        omega
      have hright : m.segByte inflate h seg (seg.outStart + within + 0) = none := by
        rw [hbyte]
        exact if_neg fun hin => by omega
      exact (none_eq_gather hn hleft).symm.trans (none_eq_gather hn hright)
  | compressed codec pos clen =>
    obtain ⟨hblock, hfresh⟩ := decodedBlock_spec hseg hp hs
    refine ⟨?_, hfresh⟩
    dsimp only
    rw [hblock]
    have hbyte : ∀ j, m.segByte inflate h seg (seg.outStart + within + j) =
        (m.decoded inflate h codec pos clen seg.outLen).map fun b => byteAt b (within + j) := by
      intro j
      rw [MappedSource.segByte, Segment.byte, hp, hsub]
      rfl
    cases hdec : m.decoded inflate h codec pos clen seg.outLen with
    | none => exact none_eq_gather hn (by rw [hbyte, hdec]; rfl)
    | some block =>
      have hlen := decoded_length hdec
      rw [Option.bind_some, if_neg (by omega)]
      apply eq_gather (by rw [List.length_take, List.length_drop]; omega)
      intro j hj
      rw [hbyte, hdec, Option.map_some, byteAt_take, if_pos hj, byteAt_drop]

end Fill

end Reclaim
