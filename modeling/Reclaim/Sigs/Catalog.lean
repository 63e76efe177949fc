import Reclaim.Foundation.FileBytes
import Mathlib.Data.List.TakeWhile

/-!
# The signature catalog

A signature has header patterns, each a list of bytes in which some positions are wildcards, at an
offset from the file start.  The catalog compiler stores a pattern as bytes and mask and picks its
*anchor*, the first longest run without a wildcard, which is what the matcher searches for.

A `HeaderPat` carries what the compiler guarantees of it: mask and bytes are of one length, and the
anchor spells the bytes at its position, none of which is a wildcard.
-/

namespace Reclaim

open FileBytes

/-- Extraction strategy for a signature. -/
inductive Strategy where
  /-- Constant size. -/
  | fixed
  /-- Size is parsed from a header field by the validator. -/
  | headerSize
  /-- Scan forward for the footer. -/
  | footer
  /-- The validator walks the format's own structure to the logical end. -/
  | structural
  /-- Headerless text. -/
  | statistical
  deriving DecidableEq, Repr

/-- One header pattern of a signature. -/
structure HeaderPat where
  /-- Full pattern bytes, wildcards zeroed. -/
  bytes : Bytes
  /-- `0xFF` at literal positions, `0x00` at wildcards. -/
  mask : Bytes
  /-- Pattern position relative to file start. -/
  offset : ℕ
  /-- Literal run searched for. -/
  anchor : Bytes
  /-- Index of `anchor` within `bytes`. -/
  anchorPos : ℕ
  mask_length : mask.length = bytes.length
  anchor_le : anchorPos + anchor.length ≤ bytes.length
  spelled : ∀ k < anchor.length, byteAt bytes (anchorPos + k) = byteAt anchor k
  literal : ∀ k < anchor.length, byteAt mask (anchorPos + k) = 0xFF

/-- A footer pattern. -/
structure FooterPat where
  bytes : Bytes
  /-- Maximum distance from the header to search for the footer. -/
  searchMax : ℕ
  deriving DecidableEq

/-- A compiled signature definition. -/
structure SigDef where
  /-- Stable dotted id, `family.format`. -/
  id : String
  family : String
  /-- Associated file extensions (first is preferred for naming). -/
  extensions : List String
  /-- Header patterns (any match is a candidate). -/
  headers : List HeaderPat
  footer : Option FooterPat
  /-- Minimum plausible size in bytes. -/
  minSize : ℕ
  strategy : Strategy
  /-- Name of the validator, if any. -/
  validator : Option String
  /-- Fast path expects the header only at a block boundary. -/
  blockAligned : Bool
  /-- Detected by a trailer magic near the end of the file. -/
  footerAnchored : Bool

/-- Preferred file extension for naming. -/
def SigDef.primaryExt (s : SigDef) : String := s.extensions.headD "bin"

namespace HeaderPat

/-- The window, which begins at the pattern position, matches the pattern under the mask. -/
def confirm (h : HeaderPat) (window : Bytes) : Bool :=
  if window.length < h.bytes.length then false
  else ((h.bytes.zip h.mask).zip window).all fun p => (p.2 &&& p.1.2) == (p.1.1 &&& p.1.2)

/-- How far the pattern reaches from the file start. -/
def span (h : HeaderPat) : ℕ := h.offset + h.bytes.length

end HeaderPat

/-! ## Compiling patterns -/

/-- A header pattern as written: bytes and wildcards. -/
abbrev Pattern := List (Option UInt8)

/-- The bytes of a pattern, wildcards zeroed. -/
def Pattern.bytes (p : Pattern) : Bytes := p.map fun t => t.getD 0

/-- The mask of a pattern. -/
def Pattern.mask (p : Pattern) : Bytes := p.map fun t => if t.isSome then 0xFF else 0x00

/-- Longest run of literal bytes from position `i` on, given the best one before: its start and
its length. -/
def longestRun (mask : Bytes) (i : ℕ) (best : ℕ × ℕ) : ℕ × ℕ :=
  match mask with
  | [] => best
  | m :: rest =>
    if m = 0xFF then
      let len := (rest.takeWhile (· == 0xFF)).length + 1
      longestRun (rest.dropWhile (· == 0xFF)) (i + len) (if best.2 < len then (i, len) else best)
    else longestRun rest (i + 1) best
termination_by mask.length
decreasing_by
  · exact Nat.lt_succ_of_le (List.dropWhile_sublist _).length_le
  · exact Nat.lt_succ_self _

/-- Where the anchor of a pattern with this mask is; none if every byte is a wildcard. -/
def extractAnchor (mask : Bytes) : Option (ℕ × ℕ) :=
  let best := longestRun mask 0 (0, 0)
  if best.2 = 0 then none else some best

/-- A run `(start, len)` of the mask without a wildcard. -/
def IsRun (mask : Bytes) (run : ℕ × ℕ) : Prop :=
  run.1 + run.2 ≤ mask.length ∧ ∀ k < run.2, byteAt mask (run.1 + k) = 0xFF

lemma byteAt_takeWhile_literal (l : Bytes) :
    ∀ k < (l.takeWhile (· == 0xFF)).length, byteAt l k = 0xFF := by
  intro k hk
  have hmem := List.mem_takeWhile_imp (List.getElem_mem hk)
  have hlen : k < l.length := lt_of_lt_of_le hk (List.takeWhile_sublist _).length_le
  rw [byteAt, List.getD_eq_getElem _ _ hlen]
  rw [(List.takeWhile_prefix _).getElem hk] at hmem
  exact eq_of_beq hmem

/-- The scan keeps a run of the whole mask, which the rest of the mask from `i` on is part of. -/
lemma longestRun_isRun (whole : Bytes) (mask : Bytes) (i : ℕ) (best : ℕ × ℕ)
    (hrest : whole.drop i = mask) (hbest : IsRun whole best) :
    IsRun whole (longestRun mask i best) := by
  induction mask, i, best using longestRun.induct with
  | case1 i best => simpa [longestRun] using hbest
  | case2 i best rest len ih =>
    have hlit := byteAt_takeWhile_literal rest
    have hle : (rest.takeWhile (· == 0xFF)).length ≤ rest.length :=
      (List.takeWhile_sublist _).length_le
    have hlen : whole.length - i = rest.length + 1 := by
      rw [← List.length_drop, hrest, List.length_cons]
    have hbyte : ∀ k, byteAt whole (i + k) = byteAt (0xFF :: rest) k := by
      intro k
      rw [← hrest, byteAt_drop]
    rw [longestRun, if_pos rfl]
    apply ih
    · rw [← List.drop_drop, hrest, List.drop_succ_cons]
      calc rest.drop (rest.takeWhile (· == 0xFF)).length
          = (rest.takeWhile (· == 0xFF) ++ rest.dropWhile (· == 0xFF)).drop
              (rest.takeWhile (· == 0xFF)).length :=
            congrArg (List.drop _) List.takeWhile_append_dropWhile.symm
        _ = rest.dropWhile (· == 0xFF) := List.drop_left
    · split
      · refine ⟨by show i + len ≤ _; omega, fun k hk => ?_⟩
        rw [hbyte]
        cases k with
        | zero => rfl
        | succ k =>
          have : byteAt (0xFF :: rest) (k + 1) = byteAt rest k := by simp [byteAt]
          rw [this]
          exact hlit k (by have : k + 1 < len := hk; omega)
      · exact hbest
  | case3 i best m rest hm ih =>
    rw [longestRun, if_neg hm]
    apply ih _ hbest
    rw [← List.drop_drop, hrest, List.drop_succ_cons, List.drop_zero]

lemma extractAnchor_isRun {mask : Bytes} {run : ℕ × ℕ} (h : extractAnchor mask = some run) :
    IsRun mask run := by
  simp only [extractAnchor] at h
  split at h
  · exact absurd h (by simp)
  · rw [← Option.some.inj h]
    exact longestRun_isRun mask mask 0 (0, 0) rfl ⟨by simp, by simp⟩

/-- Compile a header pattern; a pattern of wildcards only has no anchor and is refused. -/
def HeaderPat.ofPattern (offset : ℕ) (p : Pattern) : Option HeaderPat :=
  match h : extractAnchor p.mask with
  | none => none
  | some run =>
    have hrun := extractAnchor_isRun h
    have hlen : p.mask.length = p.bytes.length := by simp [Pattern.mask, Pattern.bytes]
    have hanchor : ((p.bytes.drop run.1).take run.2).length = run.2 := by
      have := hrun.1
      rw [List.length_take, List.length_drop]
      omega
    some {
      bytes := p.bytes
      mask := p.mask
      offset := offset
      anchor := (p.bytes.drop run.1).take run.2
      anchorPos := run.1
      mask_length := hlen
      anchor_le := by rw [hanchor, ← hlen]; exact hrun.1
      spelled := fun k hk => by
        rw [byteAt_take, if_pos (hanchor ▸ hk), byteAt_drop]
      literal := fun k hk => hrun.2 k (hanchor ▸ hk) }

/-- A header pattern without wildcards: all of it is the anchor. -/
def HeaderPat.exact (offset : ℕ) (bytes : Bytes) : HeaderPat where
  bytes := bytes
  mask := List.replicate bytes.length 0xFF
  offset := offset
  anchor := bytes
  anchorPos := 0
  mask_length := List.length_replicate
  anchor_le := (Nat.zero_add _).le
  spelled := fun k _ => congrArg (byteAt bytes) (Nat.zero_add k)
  literal := fun k hk => (congrArg (byteAt _) (Nat.zero_add k)).trans (List.getD_replicate 0xFF hk)

/-! ## The compiled table -/

/-- Longest anchor of a table. -/
def maxAnchorLen (sigs : List SigDef) : ℕ :=
  (sigs.flatMap (·.headers)).foldl (fun n h => max n h.anchor.length) 0

/-- Farthest a header pattern of a table reaches from a file start. -/
def maxHeaderSpan (sigs : List SigDef) : ℕ :=
  (sigs.flatMap (·.headers)).foldl (fun n h => max n h.span) 0

/-- Look up a signature by its dotted id. -/
def byId (sigs : List SigDef) (id : String) : Option SigDef := sigs.find? (·.id == id)

lemma le_foldl_max {α : Type} (f : α → ℕ) (l : List α) (n : ℕ) :
    n ≤ l.foldl (fun m a => max m (f a)) n ∧ ∀ a ∈ l, f a ≤ l.foldl (fun m a => max m (f a)) n := by
  induction l generalizing n with
  | nil => simp
  | cons b l ih =>
    have h := ih (max n (f b))
    rw [List.foldl_cons]
    refine ⟨le_trans (le_max_left _ _) h.1, fun a ha => ?_⟩
    rcases List.mem_cons.1 ha with rfl | ha
    · exact le_trans (le_max_right _ _) h.1
    · exact h.2 a ha

/-- No header of the table reaches farther than `maxHeaderSpan`. -/
lemma span_le_maxHeaderSpan {sigs : List SigDef} {s : SigDef} (hs : s ∈ sigs) {h : HeaderPat}
    (hh : h ∈ s.headers) : h.span ≤ maxHeaderSpan sigs :=
  (le_foldl_max HeaderPat.span _ 0).2 h (List.mem_flatMap.2 ⟨s, hs, hh⟩)

end Reclaim
