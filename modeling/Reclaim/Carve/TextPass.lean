import Reclaim.Foundation.Fields
import Reclaim.Carve.Scan
import Reclaim.Carve.Text

/-!
# The text pass and the chunks

The text pass looks for block boundaries where text begins, and asks of the block before whether it
is text as well.  At the first boundary of a chunk it does not ask, so a chunk that begins within
text begins it once more.
-/

namespace Reclaim

open FileBytes

namespace CarveEngine

variable (E : CarveEngine) (R : Reader) (a : ScanArgs)

/-- The engine with a chunk as large as the range. -/
def oneBuffer : CarveEngine where
  automaton := E.automaton
  sigs := E.sigs
  validate := E.validate
  looksLikeText := E.looksLikeText
  chunk := max 1 (a.scanEnd - a.scanStart)
  chunk_pos := lt_of_lt_of_le Nat.one_pos (le_max_left _ _)

/-- What the text pass finds in the whole range in one buffer. -/
def textOnce : List (ℕ × ℕ) :=
  (E.oneBuffer a).textPass a.opts a.blockSize a.scanEnd a.scanStart
    (((E.oneBuffer a).window a a.scanStart).run R)

/-- What the chunk at `pos` collects, if the text pass has been made in one buffer. -/
def collectedOnce (pos : ℕ) : List (ℕ × ℕ) :=
  E.anchorHits a.scanStart pos ((E.window a pos).run R) ++
    (E.textOnce R a).filter fun p => pos ≤ p.1 && p.1 < pos + E.chunk

/-- The candidates of the first `n` chunks, if the text pass has been made in one buffer. -/
def candidatesOnce (n : ℕ) : List (ℕ × List ℕ) :=
  E.gather a (fun pos => perOffset (E.collectedOnce R a pos)) n a.scanStart

/-- What a scan of `n` chunks comes to. -/
def scanned (n : ℕ) : ScanState :=
  (E.candidates R a n a.scanStart).foldl (E.visit R a) .start

/-- What a scan of `n` chunks comes to, if the text pass has been made in one buffer. -/
def scannedOnce (n : ℕ) : ScanState := (E.candidatesOnce R a n).foldl (E.visit R a) .start

/-- What that scan has come to when it gets to the file start `b`. -/
def onceBefore (n b : ℕ) : ScanState :=
  ((E.candidatesOnce R a n).filter fun c => c.1 < b).foldl (E.visit R a) .start

/-- The text signature, if the text pass is made. -/
def textSig : Option ℕ :=
  if !a.opts.familyAllowed "doc" && !a.opts.sigIds.contains "doc.txt" &&
      (!a.opts.families.isEmpty || !a.opts.sigIds.isEmpty) then none
  else E.sigs.findIdx? fun s => s.id == "doc.txt"

/-- The file is what the text signature makes of a file start. -/
def IsText (fs : ℕ) (cf : CarvedFile) : Prop :=
  ∃ t sig, E.textSig a = some t ∧ E.sigs[t]? = some sig ∧
    (E.runOne a.len a.opts fs sig).run R = some cf

/-- The text regions that a scan has emitted: where they start, how long they are, and their
kind. -/
def textRegions (st : ScanState) : Set (ℕ × ℕ × String) :=
  {r | ∃ p ∈ st.trace, E.IsText R a p.1 p.2 ∧ r = (p.1, p.2.len, p.2.format)}

/-- The block size of the text pass. -/
def textBlock : ℕ := max a.blockSize 512

/-- The block at `b` looks like text. -/
def textAt (b : ℕ) : Bool := E.looksLikeText (R b (min 512 (a.scanEnd - b))).1

/-- The first block boundary of chunk `k` is within text: the block before it is text as well. -/
structure Restart (k b : ℕ) : Prop where
  boundary : textBlock a ∣ b
  inChunk : a.scanStart + k * E.chunk ≤ b ∧ b < a.scanStart + k * E.chunk + E.chunk
  first : b < a.scanStart + k * E.chunk + textBlock a
  before : a.scanStart + textBlock a ≤ b
  inRange : b < a.scanEnd
  text : E.textAt R a b = true
  textBefore : E.textAt R a (b - textBlock a) = true

/-- What the anchors of chunk `k` say of the file start `b`. -/
def anchoredAt (k b : ℕ) : List ℕ :=
  sigsAt (E.anchorHits a.scanStart (a.scanStart + k * E.chunk)
    ((E.window a (a.scanStart + k * E.chunk)).run R)) b

/-- No text that is begun once more is emitted: it lies inside a claimed file, or the text signature
makes nothing of it, or nothing better than the others do. -/
def Quiet (n : ℕ) : Prop :=
  ∀ k < n, ∀ b t, E.Restart R a k b → E.textSig a = some t →
    suppressed (E.onceBefore R a n b).claims b = true ∨
      (E.fileAt a b (E.anchoredAt R a k b ++ [t])).run R =
        (E.fileAt a b (E.anchoredAt R a k b)).run R

variable {E R a}

/-! ## Where the text pass finds text -/

lemma textBlock_pos : 0 < textBlock a := by
  unfold textBlock
  omega

/-- The boundaries that are probed. -/
lemma mem_textProbes_iff {base bs scanEnd b : ℕ} (hbs : 0 < bs) :
    b ∈ E.textProbes base bs scanEnd ↔
      bs ∣ b ∧ base ≤ b ∧ b < base + E.chunk ∧ b < scanEnd := by
  constructor
  · intro h
    obtain ⟨i, -, rfl⟩ := List.mem_map.1 (List.mem_filter.1 h).1
    have hin := mem_textProbes hbs h
    exact ⟨⟨divCeil base bs + i, by rw [← Nat.add_mul, Nat.mul_comm]⟩, hin⟩
  · rintro ⟨⟨q, rfl⟩, hle, hlt, hend⟩
    have hq : divCeil base bs ≤ q := by
      by_contra hgt
      have := (lt_divCeil_iff hbs).1 (not_le.1 hgt)
      rw [Nat.mul_comm] at this
      omega
    obtain ⟨i, rfl⟩ := Nat.exists_eq_add_of_le hq
    have hceil := le_divCeil_mul hbs base
    refine List.mem_filter.2 ⟨List.mem_map.2 ⟨i, ?_, ?_⟩, ?_⟩
    · rw [List.mem_range, Nat.lt_succ_iff, Nat.le_div_iff_mul_le hbs]
      rw [Nat.mul_comm, Nat.add_mul] at hlt
      omega
    · rw [← Nat.add_mul, Nat.mul_comm]
    · simp [hlt, hend]

lemma nodup_textProbes {base bs scanEnd : ℕ} (hbs : 0 < bs) :
    (E.textProbes base bs scanEnd).Nodup := by
  refine (List.Nodup.map (fun i j hij => ?_) List.nodup_range).filter _
  exact Nat.eq_of_mul_eq_mul_right hbs (Nat.add_left_cancel hij)

/-- The 512 bytes of a block are in the chunk's buffer. -/
lemma sample_window {data : Bytes} (hR : R.Reads data) (hov : 511 ≤ E.overlap) {base d : ℕ}
    (hd : d < E.chunk) :
    ((((E.window a base).run R).drop d).take 512) =
      (R (base + d) (min 512 (a.scanEnd - (base + d)))).1 := by
  rw [window, ReadProg.run_bytes, hR, hR, take_drop_slice]
  congr 1
  omega

/-- Where the pass finds the beginning of text in a chunk. -/
lemma textStarts_iff {data : Bytes} (hR : R.Reads data) (hov : 511 ≤ E.overlap) {base b : ℕ}
    (hle : base ≤ b) (hlt : b < base + E.chunk) :
    E.textStarts base (textBlock a) ((E.window a base).run R) b = true ↔
      E.textAt R a b = true ∧
        (base + textBlock a ≤ b → E.textAt R a (b - textBlock a) = false) := by
  have hbs : 0 < textBlock a := textBlock_pos
  have hthis : base + (b - base) = b := by omega
  unfold textStarts
  dsimp only
  rw [sample_window hR hov (by omega), hthis, Bool.and_eq_true]
  apply and_congr_right
  intro _
  by_cases hblock : base + textBlock a ≤ b
  · have hprev : base + (b - base - textBlock a) = b - textBlock a := by omega
    rw [sample_window hR hov (by omega), hprev, decide_eq_true hblock]
    simp [hblock, textAt]
  · simp [hblock]

/-- Pairs of distinct file starts with one signature. -/
lemma sigsAt_map_pair {l : List ℕ} (hl : l.Nodup) (t b : ℕ) :
    sigsAt (l.map fun x => (x, t)) b = if b ∈ l then [t] else [] := by
  induction l with
  | nil => rfl
  | cons x rest ih =>
    obtain ⟨hx, hrest⟩ := List.nodup_cons.1 hl
    rw [List.map_cons, ← List.singleton_append, sigsAt_append, ih hrest]
    by_cases hb : x = b
    · subst hb
      simp [sigsAt, hx]
    · simp [sigsAt, hb, Ne.symm hb]

/-- What the pass says of a file start. -/
lemma sigsAt_textPass {base : ℕ} {buf : Bytes} (b : ℕ) :
    sigsAt (E.textPass a.opts a.blockSize a.scanEnd base buf) b =
      if b ∈ E.textProbes base (textBlock a) a.scanEnd ∧
        E.textStarts base (textBlock a) buf b = true
      then (E.textSig a).toList else [] := by
  unfold textPass textSig
  dsimp only
  split
  · simp [sigsAt]
  · cases E.sigs.findIdx? fun s => s.id == "doc.txt" with
    | none => simp [sigsAt]
    | some t =>
      have hnodup : ((E.textProbes base (textBlock a) a.scanEnd).filter fun b =>
          E.textStarts base (textBlock a) buf b).Nodup := (nodup_textProbes textBlock_pos).filter _
      refine (sigsAt_map_pair hnodup t b).trans (if_congr ?_ rfl rfl)
      exact List.mem_filter

/-- Whether the text pass in chunk `k` finds that text begins at `b`. -/
lemma sigsAt_text_chunk {data : Bytes} (hR : R.Reads data) (hov : 511 ≤ E.overlap) {k b : ℕ}
    (hle : a.scanStart + k * E.chunk ≤ b) (hlt : b < a.scanStart + k * E.chunk + E.chunk) :
    let base := a.scanStart + k * E.chunk
    sigsAt (E.textPass a.opts a.blockSize a.scanEnd base ((E.window a base).run R)) b =
      if (textBlock a ∣ b ∧ b < a.scanEnd) ∧ E.textAt R a b = true ∧
        (base + textBlock a ≤ b → E.textAt R a (b - textBlock a) = false)
      then (E.textSig a).toList else [] := by
  dsimp only
  rw [sigsAt_textPass]
  refine if_congr ?_ rfl rfl
  rw [mem_textProbes_iff textBlock_pos, textStarts_iff hR hov hle hlt]
  refine and_congr_left' ⟨fun h => ⟨h.1, h.2.2.2⟩, fun h => ⟨h.1, hle, hlt, h.2⟩⟩

/-- Whether text begins at `b`, seen in one buffer. -/
lemma sigsAt_textOnce {data : Bytes} (hR : R.Reads data) (hov : 511 ≤ E.overlap) {b : ℕ}
    (hle : a.scanStart ≤ b) : sigsAt (E.textOnce R a) b =
      if (textBlock a ∣ b ∧ b < a.scanEnd) ∧ E.textAt R a b = true ∧
        (a.scanStart + textBlock a ≤ b → E.textAt R a (b - textBlock a) = false)
      then (E.textSig a).toList else [] := by
  have hchunk : (E.oneBuffer a).chunk = max 1 (a.scanEnd - a.scanStart) := rfl
  by_cases hend : b < a.scanEnd
  · have hstart : a.scanStart + 0 * (E.oneBuffer a).chunk = a.scanStart := by omega
    have := sigsAt_text_chunk (E := E.oneBuffer a) (R := R) (a := a) (k := 0) (b := b) hR hov
      (by omega) (by omega)
    rw [hstart] at this
    exact this
  · rw [if_neg (fun h => hend h.1.2), textOnce, sigsAt_textPass, if_neg]
    intro h
    exact hend ((mem_textProbes_iff textBlock_pos).1 h.1).2.2.2

/-- What is said of a file start that a filter lets through. -/
lemma sigsAt_filter {pairs : List (ℕ × ℕ)} {q : ℕ → Bool} (b : ℕ) :
    sigsAt (pairs.filter fun p => q p.1) b = if q b = true then sigsAt pairs b else [] := by
  unfold sigsAt
  rw [List.filter_filter]
  by_cases hq : q b = true
  · rw [if_pos hq]
    congr 1
    apply List.filter_congr
    intro p _
    by_cases hp : p.1 = b
    · rw [hp, hq, Bool.and_true]
    · simp [hp]
  · rw [if_neg hq, List.map_eq_nil_iff, List.filter_eq_nil_iff]
    rintro p - hp
    rw [Bool.and_eq_true, decide_eq_true_eq] at hp
    exact hq (hp.1 ▸ hp.2)

/-- **What the chunks change**: they add the text signature where text is begun once more. -/
lemma sigsAt_collected_cases {data : Bytes} (hR : R.Reads data) (hov : 511 ≤ E.overlap) (k b : ℕ) :
    let pos := a.scanStart + k * E.chunk
    let chunked := sigsAt (E.collected a pos ((E.window a pos).run R)) b
    let once := sigsAt (E.collectedOnce R a pos) b
    chunked = once ∨ ∃ t, E.textSig a = some t ∧ E.Restart R a k b ∧ once = E.anchoredAt R a k b ∧
      chunked = E.anchoredAt R a k b ++ [t] := by
  dsimp only
  set pos := a.scanStart + k * E.chunk with hpos
  have hle : a.scanStart ≤ pos := by omega
  rw [collected, collectedOnce, sigsAt_append, sigsAt_append,
    sigsAt_filter (q := fun x => pos ≤ x && x < pos + E.chunk), anchoredAt, ← hpos]
  by_cases hin : pos ≤ b ∧ b < pos + E.chunk
  · have hchunk := sigsAt_text_chunk hR hov hin.1 hin.2
    dsimp only at hchunk
    rw [← hpos] at hchunk
    have honce := sigsAt_textOnce (a := a) hR hov (hle.trans hin.1)
    rw [if_pos (by simpa using hin)]
    by_cases hprobe : (textBlock a ∣ b ∧ b < a.scanEnd) ∧ E.textAt R a b = true
    · by_cases hstart : a.scanStart + textBlock a ≤ b → E.textAt R a (b - textBlock a) = false
      · rw [hchunk.trans (if_pos ⟨hprobe.1, hprobe.2, fun h => hstart (by omega)⟩),
          honce.trans (if_pos ⟨hprobe.1, hprobe.2, hstart⟩)]
        exact .inl rfl
      · rw [honce.trans (if_neg fun h => hstart h.2.2), List.append_nil]
        obtain ⟨hbefore, htext⟩ := Classical.not_imp.1 hstart
        by_cases hfirst : pos + textBlock a ≤ b
        · rw [hchunk.trans (if_neg fun h => htext (h.2.2 hfirst))]
          exact .inl (List.append_nil _)
        · rw [hchunk.trans (if_pos ⟨hprobe.1, hprobe.2, fun h => absurd h hfirst⟩)]
          cases hsig : E.textSig a with
          | none => exact .inl (List.append_nil _)
          | some t =>
            refine .inr ⟨t, rfl, ⟨hprobe.1.1, hin, not_le.1 hfirst, hbefore, hprobe.1.2,
              hprobe.2, ?_⟩, rfl, rfl⟩
            exact (Bool.not_eq_false _).mp htext
    · rw [hchunk.trans (if_neg fun h => hprobe ⟨h.1, h.2.1⟩),
        honce.trans (if_neg fun h => hprobe ⟨h.1, h.2.1⟩)]
      exact .inl rfl
  · refine .inl ?_
    have hnone : sigsAt (E.textPass a.opts a.blockSize a.scanEnd pos ((E.window a pos).run R)) b =
        [] := by
      rw [sigsAt_textPass]
      refine if_neg fun h => hin ?_
      obtain ⟨-, hge, hlt, -⟩ := (mem_textProbes_iff textBlock_pos).1 h.1
      exact ⟨hge, hlt⟩
    rw [hnone, if_neg (by simpa using hin)]

/-! ## Two walks over one list -/

/-- An ascending list is determined by its members. -/
lemma Ascending.eq {m m' : List (ℕ × List ℕ)} (h : Ascending m) (h' : Ascending m')
    (hmem : ∀ k vs, (k, vs) ∈ m ↔ (k, vs) ∈ m') : m = m' := by
  have hnodup : ∀ {l : List (ℕ × List ℕ)}, Ascending l → l.Nodup := fun hl =>
    hl.imp fun hlt heq => hlt.ne (congrArg Prod.fst heq)
  refine List.Perm.eq_of_pairwise (fun c d _ _ hcd hdc => absurd hcd (lt_asymm hdc)) h h' ?_
  rw [List.perm_ext_iff_of_nodup (hnodup h) (hnodup h')]
  exact fun c => hmem c.1 c.2

/-- Grouping is determined by the pairs. -/
lemma Grouped.eq {m m' : List (ℕ × List ℕ)} {pairs : List (ℕ × ℕ)} (h : Grouped m pairs)
    (h' : Grouped m' pairs) : m = m' :=
  h.ascending.eq h'.ascending fun k vs => (h.mem_iff k vs).trans (h'.mem_iff k vs).symm

/-- Groups of some pairs, given those of pairs that name all their file starts. -/
lemma Grouped.restrict {m : List (ℕ × List ℕ)} {pairs pairs' : List (ℕ × ℕ)}
    (h : Grouped m pairs) (hsub : ∀ k, sigsAt pairs k = [] → sigsAt pairs' k = []) :
    Grouped ((m.map fun c => (c.1, sigsAt pairs' c.1)).filter fun c => !c.2.isEmpty) pairs' := by
  refine ⟨List.Pairwise.sublist List.filter_sublist (List.pairwise_map.2 h.ascending), ?_⟩
  intro k vs
  rw [List.mem_filter, List.mem_map, Bool.not_eq_true', List.isEmpty_eq_false_iff]
  constructor
  · rintro ⟨⟨c, -, hc⟩, hne⟩
    obtain ⟨rfl, rfl⟩ := Prod.mk.inj hc
    exact ⟨rfl, hne⟩
  · rintro ⟨rfl, hne⟩
    exact ⟨⟨_, (h.mem_iff k _).2 ⟨rfl, mt (hsub k) hne⟩, rfl⟩, hne⟩

variable (E R a) in
/-- The candidates of the first `n` chunks: the file start, its signatures, and its signatures if
the text pass has been made in one buffer. -/
def steps (n : ℕ) : List (ℕ × List ℕ × List ℕ) :=
  E.gather a (fun pos => (E.chunkCandidates R a pos).map fun c =>
    (c.1, c.2, sigsAt (E.collectedOnce R a pos) c.1)) n a.scanStart

lemma candidates_eq (n : ℕ) :
    E.candidates R a n a.scanStart = (E.steps R a n).map fun x => (x.1, x.2.1) := by
  rw [steps, map_gather, candidates]
  congr 1
  funext pos
  rw [List.map_map]
  exact (List.map_id _).symm

lemma candidatesOnce_eq {data : Bytes} (hR : R.Reads data) (hov : 511 ≤ E.overlap) (n : ℕ) :
    E.candidatesOnce R a n =
      ((E.steps R a n).map fun x => (x.1, x.2.2)).filter fun c => !c.2.isEmpty := by
  rw [steps, map_gather, filter_gather, candidatesOnce]
  refine gather_congr fun k _ => (grouped_perOffset _).eq ?_
  rw [List.map_map]
  refine (grouped_perOffset _).restrict fun b hnil => ?_
  rcases sigsAt_collected_cases (a := a) hR hov k b with h | ⟨t, -, -, -, h⟩
  · exact h.symm.trans hnil
  · exact absurd (h.symm.trans hnil) (by simp)

lemma ascending_steps (n : ℕ) : (E.steps R a n).Pairwise fun x y => x.1 < y.1 := by
  have h := ascending_candidates (E := E) (R := R) (a := a) (n := n) le_rfl
  rw [candidates_eq] at h
  have h' := List.pairwise_map.1 h
  exact h'

lemma ascending_candidatesOnce {data : Bytes} (hR : R.Reads data) (hov : 511 ≤ E.overlap) (n : ℕ) :
    Ascending (E.candidatesOnce R a n) := by
  rw [candidatesOnce_eq hR hov]
  exact List.Pairwise.sublist List.filter_sublist (List.pairwise_map.2 (ascending_steps n))

/-- A step of the two walks: the same signatures, or text that is begun once more. -/
lemma mem_steps {data : Bytes} (hR : R.Reads data) (hov : 511 ≤ E.overlap) {n : ℕ}
    {x : ℕ × List ℕ × List ℕ} (h : x ∈ E.steps R a n) : x.2.1 = x.2.2 ∨
      ∃ k < n, ∃ t, E.textSig a = some t ∧ E.Restart R a k x.1 ∧
        x.2.2 = E.anchoredAt R a k x.1 ∧ x.2.1 = E.anchoredAt R a k x.1 ++ [t] := by
  obtain ⟨k, hk, -, hx⟩ := mem_gather.1 h
  obtain ⟨c, hc, rfl⟩ := List.mem_map.1 hx
  obtain ⟨hvs, -⟩ := ((grouped_perOffset _).mem_iff c.1 c.2).1 hc
  dsimp only
  rw [hvs]
  exact (sigsAt_collected_cases hR hov k c.1).imp_right fun ⟨t, h⟩ => ⟨k, hk, t, h⟩

/-- Wherever text is begun once more, there is such a step. -/
lemma Restart.mem_steps {data : Bytes} (hR : R.Reads data) (hov : 511 ≤ E.overlap) {n k b t : ℕ}
    (hk : k < n) (h : E.Restart R a k b) (ht : E.textSig a = some t) :
    (b, E.anchoredAt R a k b ++ [t], E.anchoredAt R a k b) ∈ E.steps R a n := by
  obtain ⟨hle, hlt⟩ := h.inChunk
  have hin := h.inRange
  have hfirst := h.first
  have hchunk := (sigsAt_text_chunk hR hov hle hlt).trans
    (if_pos ⟨⟨h.boundary, hin⟩, h.text, fun hge => absurd hfirst (not_lt.2 hge)⟩)
  have honce := (sigsAt_textOnce hR hov (by omega)).trans
    (if_neg fun hstart => absurd (h.textBefore.symm.trans (hstart.2.2 h.before)) (by simp))
  have hmem : (b, sigsAt (E.collected a (a.scanStart + k * E.chunk)
      ((E.window a (a.scanStart + k * E.chunk)).run R)) b) ∈
        E.chunkCandidates R a (a.scanStart + k * E.chunk) := by
    refine ((grouped_perOffset _).mem_iff b _).2 ⟨rfl, ?_⟩
    rw [collected, sigsAt_append, hchunk, ht]
    simp
  refine mem_gather.2 ⟨k, hk, by omega, List.mem_map.2 ⟨_, hmem, ?_⟩⟩
  dsimp only
  rw [collected, sigsAt_append, hchunk, ht, collectedOnce, sigsAt_append,
    sigsAt_filter (q := fun x => a.scanStart + k * E.chunk ≤ x &&
      x < a.scanStart + k * E.chunk + E.chunk), honce, ite_self, List.append_nil]
  rfl

end CarveEngine
end Reclaim
