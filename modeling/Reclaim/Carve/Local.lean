import Reclaim.Carve.TextPass

/-!
# What a chunk says of a file start

A chunk's buffer begins somewhere before a file start and ends somewhere behind it.  What the
matcher says of the file start depends on neither: it depends on the bytes from there on, as far as
a header reaches.  What the text pass says depends on the block, on the one before, and on whether
the chunk has that one.
-/

namespace Reclaim

open FileBytes

/-! ## Parts of a buffer -/

namespace Automaton

/-- What is found in the `n` bytes at `off` of a buffer, with positions from there. -/
def foundIn (ac : Automaton) (ps : List Bytes) (buf : Bytes) (off n : ℕ) : List (ℕ × ℕ) :=
  (ac.findOverlapping ps buf).filterMap fun m =>
    if off ≤ m.2 ∧ m.2 + (ps.getD m.1 []).length ≤ off + n then some (m.1, m.2 - off) else none

/-- What is found in a part of a buffer, and in which order, does not depend on the rest of it. -/
def Local (ac : Automaton) : Prop := ∀ ps buf buf' off off' n,
  off + n ≤ buf.length → off' + n ≤ buf'.length →
    (buf.drop off).take n = (buf'.drop off').take n →
      ac.foundIn ps buf off n = ac.foundIn ps buf' off' n

end Automaton

/-- An occurrence in a part of a buffer. -/
lemma occursAt_part {p buf : Bytes} {off n j : ℕ} (h : j + p.length ≤ n) :
    OccursAt p ((buf.drop off).take n) j ↔ OccursAt p buf (off + j) := by
  rw [OccursAt, OccursAt, List.drop_take, List.take_take, List.drop_drop, min_eq_left (by omega)]

/-- The occurrences in a part of a buffer. -/
lemma occurrences_part {p : Bytes} (hp : p ≠ []) {buf : Bytes} {off n : ℕ}
    (hn : off + n ≤ buf.length) :
    (occurrences p buf).filterMap (fun i =>
      if off ≤ i ∧ i + p.length ≤ off + n then some (i - off) else none) =
    (List.range n).filter fun j =>
      decide (j + p.length ≤ n ∧ OccursAt p ((buf.drop off).take n) j) := by
  have hlen : 0 < p.length := List.length_pos_of_ne_nil hp
  obtain ⟨d, hd⟩ := Nat.exists_eq_add_of_le hn
  have hrange : List.range buf.length =
      List.range off ++ (List.range n).map (off + ·) ++ (List.range d).map (off + n + ·) := by
    rw [hd, List.range_add, List.range_add]
  rw [occurrences, if_neg hp, List.filterMap_filter, hrange, List.filterMap_append,
    List.filterMap_append, List.filterMap_map, List.filterMap_map]
  have hbefore : (List.range off).filterMap (fun i => if decide (OccursAt p buf i) = true then
      if off ≤ i ∧ i + p.length ≤ off + n then some (i - off) else none else none) = [] := by
    apply List.filterMap_eq_nil_iff.2
    intro i hi
    have hi := List.mem_range.1 hi
    rw [if_neg (by omega : ¬ (off ≤ i ∧ i + p.length ≤ off + n)), ite_self]
  rw [hbefore, List.nil_append]
  have hbehind : (List.range d).filterMap ((fun i => if decide (OccursAt p buf i) = true then
      if off ≤ i ∧ i + p.length ≤ off + n then some (i - off) else none else none) ∘
        (off + n + ·)) = [] := by
    apply List.filterMap_eq_nil_iff.2
    intro i _
    dsimp only [Function.comp]
    rw [if_neg (by omega : ¬ (off ≤ off + n + i ∧ off + n + i + p.length ≤ off + n)), ite_self]
  rw [hbehind, List.append_nil, ← List.filterMap_eq_filter]
  apply List.filterMap_congr
  intro j _
  dsimp only [Function.comp, Option.guard]
  by_cases hj : j + p.length ≤ n
  · have hin : off ≤ off + j ∧ off + j + p.length ≤ off + n := by omega
    simp only [occursAt_part hj, hin, hj, true_and, if_true, Nat.add_sub_cancel_left]
  · have hout : ¬ (off ≤ off + j ∧ off + j + p.length ≤ off + n) := by omega
    rw [if_neg hout, ite_self, if_neg (by simp [hj])]

/-- The automaton that tries every position is local. -/
lemma Automaton.local_naive : Automaton.naive.Local := by
  intro ps buf buf' off off' n hn hn' hpart
  have hpiece : ∀ {buf : Bytes} {off : ℕ}, off + n ≤ buf.length →
      Automaton.naive.foundIn ps buf off n = ps.zipIdx.flatMap fun p =>
        if p.1 = [] then [] else ((List.range n).filter fun j =>
          decide (j + p.1.length ≤ n ∧ OccursAt p.1 ((buf.drop off).take n) j)).map fun j =>
            (p.2, j) := by
    intro buf off hn
    unfold foundIn naive
    rw [List.filterMap_flatMap]
    apply List.flatMap_congr
    intro p hp
    obtain ⟨q, k⟩ := p
    have hq : ps.getD k [] = q := by
      rw [List.getD_eq_getElem?_getD, List.mem_zipIdx_iff_getElem?.1 hp, Option.getD_some]
    split
    · rename_i hnil
      rw [occurrences, if_pos hnil]
      rfl
    · rename_i hne
      rw [← occurrences_part hne hn, List.map_filterMap, List.filterMap_map]
      apply List.filterMap_congr
      intro i _
      dsimp only [Function.comp]
      rw [hq]
      split
      · rfl
      · rfl
  rw [hpiece hn, hpiece hn', hpart]

/-! ## The headers of a file start -/

/-- What a header says of a file start, given the bytes from there on and where among them its
anchor is. -/
def headAt (part : Bytes) (i : ℕ) (h : HeaderRef × HeaderPat) : Option ℕ :=
  if i = h.2.offset + h.2.anchorPos ∧ (h.2.offset + h.2.bytes.length ≤ part.length →
      h.2.confirm ((part.drop h.2.offset).take h.2.bytes.length) = true)
  then some h.1.sigIdx else none

/-- What a header's anchor in a buffer says of the file start at `off`, if the header ends in the
`w` bytes from there on, or the buffer does. -/
lemma candidateAt_at {base off w i : ℕ} {buf : Bytes} {h : HeaderRef × HeaderPat}
    (hw : off + w ≤ buf.length) (hreach : h.2.span ≤ w ∨ off + w = buf.length)
    (hi : i + h.2.anchor.length ≤ buf.length) :
    ((candidateAt base buf (base + i) h).bind fun c =>
      if c.fileStart = base + off then some c.sigIdx else none) =
    if off ≤ i ∧ i + h.2.anchor.length ≤ off + w then headAt ((buf.drop off).take w) (i - off) h
    else none := by
  have hanchor := h.2.anchor_le
  have hspan : h.2.span = h.2.offset + h.2.bytes.length := rfl
  have hpart : ((buf.drop off).take w).length = w := by
    rw [List.length_take, List.length_drop]
    omega
  have hthere : i = off + (h.2.offset + h.2.anchorPos) → off ≤ i ∧
      i + h.2.anchor.length ≤ off + w := by omega
  by_cases hpos : i = off + (h.2.offset + h.2.anchorPos)
  · rw [if_pos (hthere hpos), headAt, hpart, candidateAt, if_neg (by omega)]
    dsimp only
    have hstart : base + i - h.2.anchorPos = base + off + h.2.offset := by omega
    have hrel : base + off + h.2.offset - base = off + h.2.offset := by omega
    have hfits : h.2.offset + h.2.bytes.length ≤ w ↔
        off + h.2.offset + h.2.bytes.length ≤ buf.length := by omega
    rw [hstart, hrel, if_neg (by omega)]
    by_cases hfit : h.2.offset + h.2.bytes.length ≤ w
    · have hbytes : (((buf.drop off).take w).drop h.2.offset).take h.2.bytes.length =
          (buf.drop (off + h.2.offset)).take h.2.bytes.length := by
        rw [List.drop_take, List.take_take, List.drop_drop, min_eq_left (by omega)]
      rw [hbytes]
      cases h.2.confirm ((buf.drop (off + h.2.offset)).take h.2.bytes.length) with
      | true =>
        rw [if_neg (by simp), if_pos ⟨by omega, fun _ => rfl⟩, Option.bind_some,
          if_pos (Nat.add_sub_cancel _ _)]
      | false =>
        rw [if_pos ⟨by omega, hfits.1 hfit, rfl⟩, if_neg fun h => absurd (h.2 hfit) (by simp)]
        rfl
    · rw [if_neg fun h => hfit (hfits.2 h.2.1), if_pos ⟨by omega, fun h => absurd h hfit⟩,
        Option.bind_some, if_pos (Nat.add_sub_cancel _ _)]
  · have hhead : ∀ part, off ≤ i → headAt part (i - off) h = none := fun part hle =>
      if_neg fun hat => hpos (by have := hat.1; omega)
    have hcand : ∀ c, candidateAt base buf (base + i) h = some c → c.fileStart ≠ base + off := by
      intro c hc
      unfold candidateAt at hc
      dsimp only at hc
      split_ifs at hc
      obtain rfl := Option.some.inj hc
      dsimp only
      omega
    have hnone : ((candidateAt base buf (base + i) h).bind fun c =>
        if c.fileStart = base + off then some c.sigIdx else none) = none := by
      cases hc : candidateAt base buf (base + i) h with
      | none => rfl
      | some c => exact if_neg (hcand c hc)
    rw [hnone]
    split
    · rename_i hin
      exact (hhead _ hin.1).symm
    · rfl

/-- **What a buffer says of a file start** depends on the bytes from there on. -/
lemma scanBuffer_at (ac : Automaton) {sigs : List SigDef} {base off w : ℕ} {buf : Bytes}
    (hw : off + w ≤ buf.length)
    (hreach : ∀ h ∈ headerRefs sigs, h.2.span ≤ w ∨ off + w = buf.length) :
    (scanBuffer ac sigs base buf).filterMap (fun c =>
      if c.fileStart = base + off then some c.sigIdx else none) =
    (ac.foundIn (patterns sigs) buf off w).flatMap fun m =>
      (bucket sigs m.1).filterMap (headAt ((buf.drop off).take w) m.2) := by
  rw [scanBuffer, List.filterMap_flatMap, Automaton.foundIn, List.filterMap_eq_flatMap_toList,
    List.flatMap_assoc]
  apply List.flatMap_congr
  intro m hm
  obtain ⟨p, hp, hne, hocc⟩ := (ac.mem_iff _ _ m.1 m.2).1 hm
  have hend : m.2 + p.length ≤ buf.length := by
    have hlen := congrArg List.length hocc
    have hpos := List.length_pos_of_ne_nil hne
    rw [List.length_take, List.length_drop] at hlen
    omega
  rw [List.filterMap_filterMap, List.getD_eq_getElem?_getD, hp, Option.getD_some]
  have hone : ∀ h ∈ bucket sigs m.1, ((candidateAt base buf (base + m.2) h).bind fun c =>
      if c.fileStart = base + off then some c.sigIdx else none) =
      if off ≤ m.2 ∧ m.2 + p.length ≤ off + w then
        headAt ((buf.drop off).take w) (m.2 - off) h else none := by
    intro h hh
    obtain ⟨hmem, hpat⟩ := List.mem_filter.1 hh
    have hpat : (patterns sigs)[m.1]? = some h.2.anchor := by simpa using hpat
    obtain rfl : p = h.2.anchor := Option.some.inj (hp ▸ hpat)
    exact candidateAt_at hw (hreach h hmem) hend
  rw [List.filterMap_congr hone]
  split
  · simp
  · simp

/-! ## The chunk of a file start -/

/-- The same scan of the whole source. -/
def ScanArgs.whole (a : ScanArgs) : ScanArgs :=
  ⟨a.len, a.sectorSize, { a.opts with range := none }⟩

namespace CarveEngine

variable (E : CarveEngine) (R : Reader) (a : ScanArgs)

/-- Where the chunk of a file start begins. -/
def chunkStart (fs : ℕ) : ℕ := a.scanStart + (fs - a.scanStart) / E.chunk * E.chunk

/-- The signatures that a scan collects for a file start. -/
def believed (fs : ℕ) : List ℕ :=
  sigsAt (E.collected a (E.chunkStart a fs) ((E.window a (E.chunkStart a fs)).run R)) fs

/-- How far the matcher looks from a file start on. -/
def reach (fs : ℕ) : ℕ := min (E.overlap + 1) (a.scanEnd - fs)

/-- A block boundary within text: the block before it is text as well. -/
structure WithinText (fs : ℕ) : Prop where
  sig : (E.textSig a).isSome
  boundary : textBlock a ∣ fs
  before : textBlock a ≤ fs
  text : E.textAt R a fs = true
  textBefore : E.textAt R a (fs - textBlock a) = true

/-- The scan of the range sees of a file start what the scan of the whole source sees: all that a
header reaches is in the range, and where text goes on, both begin a chunk or neither does. -/
structure SeenAlike (fs : ℕ) : Prop where
  reached : fs + E.overlap < a.scanEnd ∨ a.scanEnd = a.len
  begun : E.WithinText R a.whole fs →
    (fs < E.chunkStart a fs + textBlock a ↔ fs < E.chunkStart a.whole fs + textBlock a)

variable {E R a} {fs : ℕ}

lemma chunkStart_le (hle : a.scanStart ≤ fs) :
    E.chunkStart a fs ≤ fs ∧ fs < E.chunkStart a fs + E.chunk := by
  have hmod := Nat.mod_add_div' (fs - a.scanStart) E.chunk
  have hlt := Nat.mod_lt (fs - a.scanStart) E.chunk_pos
  unfold chunkStart
  omega

/-- The chunk that a file start is in. -/
lemma chunkStart_eq {k : ℕ} (hle : a.scanStart + k * E.chunk ≤ fs)
    (hlt : fs < a.scanStart + k * E.chunk + E.chunk) :
    a.scanStart + k * E.chunk = E.chunkStart a fs := by
  have hk : (fs - a.scanStart) / E.chunk = k := by
    rw [Nat.div_eq_iff E.chunk_pos]
    omega
  rw [chunkStart, hk]

/-- The headers that a chunk collects for a file start in it. -/
lemma sigsAt_anchorHits {start base : ℕ} {buf : Bytes} (hle : base ≤ fs)
    (hlt : fs < base + E.chunk) : sigsAt (E.anchorHits start base buf) fs =
      (scanBuffer E.automaton E.sigs base buf).filterMap fun c =>
        if c.fileStart = fs then some c.sigIdx else none := by
  rw [sigsAt, anchorHits, List.filter_filterMap, List.map_filterMap]
  apply List.filterMap_congr
  intro c _
  by_cases hc : c.fileStart = fs
  · have hin : (base ≤ fs ∧ fs - base < E.chunk) ∨ (fs < base ∧ base = start) := by omega
    simp [hc, hin]
  · split_ifs <;> simp [hc]

/-- No header reaches farther than a chunk's overlap and one byte. -/
lemma span_le_overlap {h : HeaderRef × HeaderPat} (hh : h ∈ headerRefs E.sigs) :
    h.2.span ≤ E.overlap + 1 := by
  obtain ⟨-, sig, hsig, hpat⟩ := mem_headerRefs.1 hh
  have hle := span_le_maxHeaderSpan (List.mem_of_getElem? hsig) (List.mem_of_getElem? hpat)
  have hmax := le_max_left (maxHeaderSpan E.sigs) (maxAnchorLen E.sigs)
  unfold overlap
  omega

/-- The headers of a file start, as a chunk sees them. -/
lemma headers_window {data : Bytes} (hR : R.Reads data) {base : ℕ} (hle : base ≤ fs)
    (hlt : fs < base + E.chunk) (hend : fs < a.scanEnd) :
    let buf := (E.window a base).run R
    fs - base + E.reach a fs ≤ buf.length ∧
      (buf.drop (fs - base)).take (E.reach a fs) = slice data fs (E.reach a fs) ∧
      sigsAt (E.anchorHits a.scanStart base buf) fs =
        (E.automaton.foundIn (patterns E.sigs) buf (fs - base) (E.reach a fs)).flatMap
          fun m => (bucket E.sigs m.1).filterMap (headAt (slice data fs (E.reach a fs)) m.2) := by
  obtain ⟨off, rfl⟩ := Nat.exists_eq_add_of_le hle
  have hreach : E.reach a (base + off) = min (E.overlap + 1) (a.scanEnd - (base + off)) := rfl
  dsimp only
  rw [sigsAt_anchorHits hle hlt, window, ReadProg.run_bytes, hR, Nat.add_sub_cancel_left]
  have hpart : ((slice data base (min (a.scanEnd - base) (E.chunk + E.overlap))).drop off).take
      (E.reach a (base + off)) = slice data (base + off) (E.reach a (base + off)) := by
    rw [take_drop_slice]
    congr 1
    omega
  have hw : off + E.reach a (base + off) ≤
      (slice data base (min (a.scanEnd - base) (E.chunk + E.overlap))).length := by
    rw [length_slice]
    omega
  refine ⟨hw, hpart, ?_⟩
  rw [scanBuffer_at E.automaton hw, hpart]
  intro h hh
  have hspan := span_le_overlap hh
  rw [length_slice]
  omega

/-- **What the headers say of a file start does not depend on the chunk.** -/
lemma headers_eq {data : Bytes} (hac : E.automaton.Local) (hR : R.Reads data) {a' : ScanArgs}
    {base base' : ℕ} (hle : base ≤ fs) (hlt : fs < base + E.chunk) (hend : fs < a.scanEnd)
    (hle' : base' ≤ fs) (hlt' : fs < base' + E.chunk) (hend' : fs < a'.scanEnd)
    (hreach : E.reach a fs = E.reach a' fs) :
    sigsAt (E.anchorHits a.scanStart base ((E.window a base).run R)) fs =
      sigsAt (E.anchorHits a'.scanStart base' ((E.window a' base').run R)) fs := by
  obtain ⟨hw, hpart, hsigs⟩ := headers_window hR hle hlt hend
  obtain ⟨hw', hpart', hsigs'⟩ := headers_window hR hle' hlt' hend'
  rw [hsigs, hsigs', hreach]
  rw [hreach] at hw hpart
  rw [hac _ _ _ _ _ _ hw hw' (hpart.trans hpart'.symm)]

/-! ## The chunks of two scans -/

lemma scanEnd_le : a.scanEnd ≤ a.len := by
  unfold ScanArgs.scanEnd
  split
  · exact min_le_right _ _
  · exact le_rfl

lemma textAt_whole {b : ℕ} (h : b + 512 ≤ a.scanEnd ∨ a.scanEnd = a.len) :
    E.textAt R a b = E.textAt R a.whole b := by
  have hend : a.whole.scanEnd = a.len := rfl
  have hle := scanEnd_le (a := a)
  have hlen : min 512 (a.scanEnd - b) = min 512 (a.whole.scanEnd - b) := by
    rw [hend]
    omega
  rw [textAt, textAt, hlen]

/-- What is collected for a file start: its headers, and the text signature if text begins there as
far as its chunk can tell. -/
lemma believed_eq {data : Bytes} (hR : R.Reads data) (hov : 511 ≤ E.overlap)
    (hle : a.scanStart ≤ fs) :
    E.believed R a fs = sigsAt (E.anchorHits a.scanStart (E.chunkStart a fs)
        ((E.window a (E.chunkStart a fs)).run R)) fs ++
      if (textBlock a ∣ fs ∧ fs < a.scanEnd) ∧ E.textAt R a fs = true ∧
        (E.chunkStart a fs + textBlock a ≤ fs → E.textAt R a (fs - textBlock a) = false)
      then (E.textSig a).toList else [] := by
  have hin := chunkStart_le (E := E) hle
  rw [believed, collected, sigsAt_append]
  exact congrArg _ (sigsAt_text_chunk hR hov hin.1 hin.2)

/-- **What a scan of a range and a scan of the whole source collect for a file start.** -/
lemma believed_whole {data : Bytes} (hac : E.automaton.Local) (hR : R.Reads data)
    (hov : 511 ≤ E.overlap) (hle : a.scanStart ≤ fs) (hlt : fs < a.scanEnd)
    (h : E.SeenAlike R a fs) : E.believed R a fs = E.believed R a.whole fs := by
  have hbs : 512 ≤ textBlock a := le_max_right _ _
  have hend : a.whole.scanEnd = a.len := rfl
  have hendle := scanEnd_le (a := a)
  have hin := chunkStart_le (E := E) hle
  have hin' := chunkStart_le (E := E) (a := a.whole) (Nat.zero_le fs)
  have hreached := h.reached
  have hheaders := headers_eq hac hR hin.1 hin.2 hlt hin'.1 hin'.2 (by omega)
    (show E.reach a fs = E.reach a.whole fs by unfold reach; omega)
  rw [believed_eq hR hov hle, believed_eq hR hov (Nat.zero_le fs), hheaders]
  congr 1
  have hsig : E.textSig a.whole = E.textSig a := rfl
  have hblock : textBlock a.whole = textBlock a := rfl
  rw [← textAt_whole (a := a) (by omega), hsig, hblock]
  cases hnone : E.textSig a with
  | none => rw [Option.toList_none, ite_self, ite_self]
  | some t =>
    refine if_congr ?_ rfl rfl
    have hboundary : textBlock a ∣ fs ∧ fs < a.scanEnd ↔ textBlock a ∣ fs ∧ fs < a.whole.scanEnd :=
      and_congr_right fun _ => iff_of_true hlt (by omega)
    rw [hboundary]
    refine and_congr_right fun hb => and_congr_right fun htext => ?_
    by_cases hbefore : textBlock a ≤ fs
    · rw [textAt_whole (a := a) (by omega)]
      cases hprev : E.textAt R a.whole (fs - textBlock a) with
      | false => exact iff_of_true (fun _ => rfl) fun _ => rfl
      | true =>
        -- within text: a start only where the chunk does not have the block before
        have htext' := (textAt_whole (by omega)).symm.trans htext
        have hbegun := h.begun ⟨hnone ▸ rfl, hb.1, hbefore, htext', hprev⟩
        rw [Bool.true_eq_false, imp_false, imp_false, not_le, not_le]
        exact hbegun
    · exact iff_of_true (fun h => absurd h (by omega)) fun h => absurd h (by omega)

end CarveEngine

end Reclaim
