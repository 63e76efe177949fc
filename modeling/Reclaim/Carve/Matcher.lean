import Reclaim.Foundation.Text
import Reclaim.Sigs.Catalog

/-!
# Matching signatures in a buffer

The matcher searches a buffer for the anchors of all header patterns at once.  An occurrence of an
anchor stands for the headers that have it; each says where its file would begin, and a header whose
whole pattern lies in the buffer is confirmed against it.  A pattern that the edge of the buffer
cuts is not.

`findOverlapping` is the automaton: it gives the occurrences of patterns in a buffer, each as the
number of the pattern and its position.
-/

namespace Reclaim

open FileBytes

/-- `MIN_ANCHOR_LEN`: single-byte anchors are excluded. -/
def minAnchorLen : ℕ := 2

/-- A signature and one of its headers. -/
structure HeaderRef where
  sigIdx : ℕ
  headerIdx : ℕ
  deriving DecidableEq, Repr

/-- A confirmed anchor: a file of the signature is believed to begin at `fileStart`. -/
structure Candidate where
  sigIdx : ℕ
  headerIdx : ℕ
  fileStart : ℕ
  deriving DecidableEq, Repr

/-- The pattern lies in the buffer at position `i`. -/
def OccursAt (pattern buf : Bytes) (i : ℕ) : Prop := (buf.drop i).take pattern.length = pattern

instance (pattern buf : Bytes) (i : ℕ) : Decidable (OccursAt pattern buf i) :=
  inferInstanceAs (Decidable (_ = _))

/-- An automaton for many patterns: it reports every occurrence of every pattern, once. -/
structure Automaton where
  /-- `find_overlapping_iter`: the occurrences in a buffer, pattern number and position. -/
  findOverlapping : List Bytes → Bytes → List (ℕ × ℕ)
  mem_iff : ∀ patterns buf pid i, (pid, i) ∈ findOverlapping patterns buf ↔
    ∃ p, patterns[pid]? = some p ∧ p ≠ [] ∧ OccursAt p buf i

/-- The occurrences of a pattern, position by position. -/
def occurrences (pattern buf : Bytes) : List ℕ :=
  if pattern = [] then [] else (List.range buf.length).filter fun i => OccursAt pattern buf i

/-- An automaton that tries every pattern at every position. -/
def Automaton.naive : Automaton where
  findOverlapping patterns buf :=
    patterns.zipIdx.flatMap fun p => (occurrences p.1 buf).map fun i => (p.2, i)
  mem_iff patterns buf pid i := by
    simp only [List.mem_flatMap, List.mem_map, Prod.exists, List.mem_zipIdx_iff_getElem?,
      Prod.mk.injEq, occurrences]
    constructor
    · rintro ⟨p, k, hp, j, hj, rfl, rfl⟩
      split_ifs at hj with hnil
      · exact absurd hj (List.not_mem_nil)
      · exact ⟨p, hp, hnil, by simpa using (List.mem_filter.1 hj).2⟩
    · rintro ⟨p, hp, hne, hocc⟩
      refine ⟨p, pid, hp, i, ?_, rfl, rfl⟩
      rw [if_neg hne, List.mem_filter, List.mem_range]
      refine ⟨?_, by simpa using hocc⟩
      by_contra hlt
      -- nothing but the empty pattern occurs behind the buffer
      rw [OccursAt, List.drop_eq_nil_of_le (not_lt.1 hlt), List.take_nil] at hocc
      exact hne hocc.symm

/-- The occurrences of a pattern in what is left of a buffer behind its first `i` bytes. -/
def occurrencesFrom (pattern : Bytes) : Bytes → ℕ → List ℕ
  | [], _ => []
  | b :: rest, i =>
    if (b :: rest).take pattern.length = pattern then i :: occurrencesFrom pattern rest (i + 1)
    else occurrencesFrom pattern rest (i + 1)

lemma occurrencesFrom_eq (pattern buf : Bytes) (i : ℕ) :
    occurrencesFrom pattern buf i =
      ((List.range buf.length).filter fun j => OccursAt pattern buf j).map (· + i) := by
  induction buf generalizing i with
  | nil => rfl
  | cons b rest ih =>
    rw [occurrencesFrom, ih, List.length_cons, List.range_succ_eq_map, List.filter_cons,
      List.filter_map]
    have hrest : (fun j => decide (OccursAt pattern (b :: rest) j)) ∘ Nat.succ =
        fun j => decide (OccursAt pattern rest j) := rfl
    have hshift : ∀ l : List ℕ, (l.map Nat.succ).map (· + i) = l.map (· + (i + 1)) := fun l => by
      rw [List.map_map]
      exact List.map_congr_left fun j _ => Nat.succ_add_eq_add_succ j i
    rw [hrest]
    by_cases h : (b :: rest).take pattern.length = pattern
    · rw [if_pos h, if_pos (by simpa [OccursAt] using h), List.map_cons, hshift, Nat.zero_add]
    · rw [if_neg h, if_neg (by simpa [OccursAt] using h), hshift]

/-- The occurrences are found in one walk over the buffer. -/
lemma occurrences_eq (pattern buf : Bytes) :
    occurrences pattern buf = if pattern = [] then [] else occurrencesFrom pattern buf 0 := by
  simp [occurrences, occurrencesFrom_eq]

/-- The headers of a catalog, with the anchor of each, that the automaton is built from. -/
def headerRefs (sigs : List SigDef) : List (HeaderRef × HeaderPat) :=
  sigs.zipIdx.flatMap fun s => s.1.headers.zipIdx.filterMap fun h =>
    if h.1.anchor.length < minAnchorLen then none else some (⟨s.2, h.2⟩, h.1)

/-- An anchor more, if it is new. -/
def addPattern (ps : List Bytes) (h : HeaderRef × HeaderPat) : List Bytes :=
  if h.2.anchor ∈ ps then ps else ps ++ [h.2.anchor]

/-- The anchors, without repetition. -/
def patterns (sigs : List SigDef) : List Bytes := (headerRefs sigs).foldl addPattern []

/-- The headers that share the anchor of number `pid`. -/
def bucket (sigs : List SigDef) (pid : ℕ) : List (HeaderRef × HeaderPat) :=
  (headerRefs sigs).filter fun h => (patterns sigs)[pid]? = some h.2.anchor

/-- The candidate of a header whose anchor is at `anchorAbs`, if there is one. -/
def candidateAt (base : ℕ) (buf : Bytes) (anchorAbs : ℕ) (h : HeaderRef × HeaderPat) :
    Option Candidate :=
  if anchorAbs < h.2.anchorPos then none
  else
    let pattStart := anchorAbs - h.2.anchorPos
    if pattStart < h.2.offset then none
    else
      -- a window that lies inside the buffer is confirmed
      if base ≤ pattStart ∧ pattStart - base + h.2.bytes.length ≤ buf.length ∧
          h.2.confirm ((buf.drop (pattStart - base)).take h.2.bytes.length) = false then none
      else some ⟨h.1.sigIdx, h.1.headerIdx, pattStart - h.2.offset⟩

/-- `scan_buffer`: the candidates in a buffer whose first byte is at `base`. -/
def scanBuffer (ac : Automaton) (sigs : List SigDef) (base : ℕ) (buf : Bytes) : List Candidate :=
  (ac.findOverlapping (patterns sigs) buf).flatMap fun m =>
    (bucket sigs m.1).filterMap (candidateAt base buf (base + m.2))

/-! ## What is reported -/

lemma mem_headerRefs {sigs : List SigDef} {r : HeaderRef} {h : HeaderPat} :
    (r, h) ∈ headerRefs sigs ↔
      minAnchorLen ≤ h.anchor.length ∧
        ∃ sig, sigs[r.sigIdx]? = some sig ∧ sig.headers[r.headerIdx]? = some h := by
  unfold headerRefs
  simp only [List.mem_flatMap, List.mem_filterMap, Prod.exists, List.mem_zipIdx_iff_getElem?]
  constructor
  · rintro ⟨sig, si, hsig, pat, hi, hpat, hif⟩
    split at hif
    · exact absurd hif (by simp)
    · obtain ⟨rfl, rfl⟩ := Prod.mk.inj (Option.some.inj hif)
      exact ⟨by omega, sig, hsig, hpat⟩
  · rintro ⟨hlen, sig, hsig, hpat⟩
    refine ⟨sig, r.sigIdx, hsig, h, r.headerIdx, hpat, ?_⟩
    rw [if_neg (by omega)]

lemma mem_addPattern_of_mem {ps : List Bytes} {a : Bytes} (h : HeaderRef × HeaderPat)
    (ha : a ∈ ps) : a ∈ addPattern ps h := by
  unfold addPattern
  split
  · exact ha
  · exact List.mem_append_left _ ha

lemma anchor_mem_addPattern (ps : List Bytes) (h : HeaderRef × HeaderPat) :
    h.2.anchor ∈ addPattern ps h := by
  unfold addPattern
  split
  · assumption
  · exact List.mem_append_right _ (List.mem_singleton_self _)

lemma mem_foldl_addPattern_of_mem {a : Bytes} (l : List (HeaderRef × HeaderPat)) :
    ∀ ps : List Bytes, a ∈ ps → a ∈ l.foldl addPattern ps := by
  induction l with
  | nil => exact fun _ h => h
  | cons x l ih => exact fun ps ha => ih _ (mem_addPattern_of_mem x ha)

/-- Every anchor in use has a number. -/
lemma mem_patterns {sigs : List SigDef} {h : HeaderRef × HeaderPat}
    (hh : h ∈ headerRefs sigs) : h.2.anchor ∈ patterns sigs := by
  obtain ⟨before, after, hsplit⟩ := List.append_of_mem hh
  unfold patterns
  rw [hsplit, List.foldl_append, List.foldl_cons]
  exact mem_foldl_addPattern_of_mem after _ (anchor_mem_addPattern _ h)

/-- A candidate is reported exactly if the anchor of its header is in the buffer, where the file
start puts it, and the pattern matches if it lies in the buffer. -/
theorem mem_scanBuffer {ac : Automaton} {sigs : List SigDef} {base : ℕ} {buf : Bytes}
    {c : Candidate} :
    c ∈ scanBuffer ac sigs base buf ↔
      ∃ h i, (⟨⟨c.sigIdx, c.headerIdx⟩, h⟩ : HeaderRef × HeaderPat) ∈ headerRefs sigs ∧
        OccursAt h.anchor buf i ∧ c.fileStart + h.offset + h.anchorPos = base + i ∧
          (base ≤ c.fileStart + h.offset →
            c.fileStart + h.offset - base + h.bytes.length ≤ buf.length →
              h.confirm ((buf.drop (c.fileStart + h.offset - base)).take h.bytes.length) =
                true) := by
  unfold scanBuffer
  simp only [List.mem_flatMap, List.mem_filterMap, Prod.exists, ac.mem_iff]
  constructor
  · rintro ⟨pid, i, ⟨p, hp, hne, hocc⟩, r, h, hb, hc⟩
    obtain ⟨hr, hpat⟩ := List.mem_filter.1 hb
    have hpat : (patterns sigs)[pid]? = some h.anchor := by simpa using hpat
    obtain rfl : p = h.anchor := Option.some.inj (hp ▸ hpat)
    unfold candidateAt at hc
    dsimp only at hc
    split_ifs at hc with h1 h2 h3
    obtain rfl := Option.some.inj hc
    refine ⟨h, i, hr, hocc, by dsimp only; omega, fun hbase hfit => ?_⟩
    dsimp only at hbase hfit ⊢
    have hps : base + i - h.anchorPos - h.offset + h.offset = base + i - h.anchorPos := by omega
    rw [hps] at hbase hfit ⊢
    by_contra hno
    exact h3 ⟨hbase, hfit, by simpa using hno⟩
  · rintro ⟨h, i, hr, hocc, hpos, hconf⟩
    obtain ⟨pid, hpid, hget⟩ := List.getElem_of_mem (mem_patterns hr)
    have hlook : (patterns sigs)[pid]? = some h.anchor := by
      rw [List.getElem?_eq_getElem hpid, hget]
    have hne : h.anchor ≠ [] := by
      have := (mem_headerRefs.1 hr).1
      unfold minAnchorLen at this
      intro hnil
      simp [hnil] at this
    refine ⟨pid, i, ⟨h.anchor, hlook, hne, hocc⟩, ⟨c.sigIdx, c.headerIdx⟩, h,
      List.mem_filter.2 ⟨hr, by simpa using hlook⟩, ?_⟩
    unfold candidateAt
    have h1 : ¬ base + i < h.anchorPos := by omega
    have hps : base + i - h.anchorPos = c.fileStart + h.offset := by omega
    dsimp only
    rw [if_neg h1, hps, if_neg (by omega), if_neg, Nat.add_sub_cancel]
    rintro ⟨hbase, hfit, hno⟩
    rw [hconf hbase hfit] at hno
    exact absurd hno (by simp)

end Reclaim
