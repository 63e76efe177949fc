import Reclaim.Carve.Engine

/-!
# Scans

A scan goes through the chunks of its range.  What a chunk offers as candidates depends on the
source alone, so a scan is a walk over all candidates of its chunks, in order, and what it carries
from one to the next is the claims: `run_scan`.
-/

namespace Reclaim

open FileBytes

/-! ## Grouping by file start -/

namespace CarveEngine

/-- What the pairs say of a file start. -/
def sigsAt (pairs : List (ℕ × ℕ)) (k : ℕ) : List ℕ :=
  (pairs.filter fun p => p.1 = k).map Prod.snd

lemma sigsAt_append (xs ys : List (ℕ × ℕ)) (k : ℕ) :
    sigsAt (xs ++ ys) k = sigsAt xs k ++ sigsAt ys k := by
  rw [sigsAt, List.filter_append, List.map_append, sigsAt, sigsAt]

/-- A file start has signatures if some pair names it. -/
lemma sigsAt_eq_nil_iff {pairs : List (ℕ × ℕ)} {k : ℕ} :
    sigsAt pairs k = [] ↔ ∀ p ∈ pairs, p.1 ≠ k := by
  rw [sigsAt, List.map_eq_nil_iff, List.filter_eq_nil_iff]
  exact forall₂_congr fun p _ => not_congr decide_eq_true_iff

section PushAt

variable {k v : ℕ} {m : List (ℕ × List ℕ)}

/-- The keys of a group list, in order. -/
abbrev Ascending (m : List (ℕ × List ℕ)) : Prop := m.Pairwise fun x y => x.1 < y.1

/-- Pushing adds the value at its key and changes nothing else. -/
lemma mem_pushAt (h : Ascending m) {x : ℕ} {vs : List ℕ} :
    (x, vs) ∈ pushAt k v m ↔
      if x = k then (∃ ws, (k, ws) ∈ m ∧ vs = ws ++ [v]) ∨ ((∀ ws, (k, ws) ∉ m) ∧ vs = [v])
      else (x, vs) ∈ m := by
  induction m with
  | nil =>
    simp only [pushAt, List.mem_singleton, Prod.mk.injEq, List.not_mem_nil]
    split_ifs with hx <;> simp [hx]
  | cons c rest ih =>
    obtain ⟨y, ws⟩ := c
    obtain ⟨hfirst, hrest⟩ := List.pairwise_cons.1 h
    -- the keys of the rest are behind `y`
    have hbehind : ∀ z us, (z, us) ∈ rest → y < z := fun z us hz => hfirst _ hz
    rcases lt_trichotomy k y with hlt | rfl | hlt
    · -- a new first key
      have hnone : ∀ us, (k, us) ∉ (y, ws) :: rest := by
        intro us hus
        rcases List.mem_cons.1 hus with hus | hus
        · exact hlt.ne (congrArg Prod.fst hus)
        · exact absurd (hbehind _ _ hus) (by omega)
      rw [pushAt, if_pos hlt, List.mem_cons, Prod.mk.injEq]
      split_ifs with hx
      · subst hx
        constructor
        · rintro (⟨-, rfl⟩ | hmem)
          · exact .inr ⟨hnone, rfl⟩
          · exact absurd hmem (hnone vs)
        · rintro (⟨us, hus, -⟩ | ⟨-, rfl⟩)
          · exact absurd hus (hnone us)
          · exact .inl ⟨rfl, rfl⟩
      · exact or_iff_right fun h => hx h.1
    · -- the first key
      rw [pushAt, if_neg (lt_irrefl k), if_pos rfl, List.mem_cons, Prod.mk.injEq]
      split_ifs with hx
      · subst hx
        constructor
        · rintro (⟨-, rfl⟩ | hmem)
          · exact .inl ⟨ws, List.mem_cons_self, rfl⟩
          · exact absurd (hbehind _ _ hmem) (lt_irrefl x)
        · rintro (⟨us, hus, rfl⟩ | ⟨hnone, -⟩)
          · rcases List.mem_cons.1 hus with hus | hus
            · exact .inl ⟨rfl, congrArg (· ++ [v]) (congrArg Prod.snd hus)⟩
            · exact absurd (hbehind _ _ hus) (lt_irrefl x)
          · exact absurd List.mem_cons_self (hnone ws)
      · rw [or_iff_right fun h => hx h.1, List.mem_cons, Prod.mk.injEq,
          or_iff_right fun h => hx h.1]
    · -- behind the first key
      rw [pushAt, if_neg (by omega), if_neg (by omega), List.mem_cons, ih hrest]
      split_ifs with hx
      · subst hx
        have hhead : ∀ us, (x, us) ∈ (y, ws) :: rest ↔ (x, us) ∈ rest := fun us => by
          rw [List.mem_cons, or_iff_right fun h => hlt.ne' (congrArg Prod.fst h)]
        simp only [hhead]
        exact or_iff_right fun h => hlt.ne' (congrArg Prod.fst h)
      · exact List.mem_cons.symm

lemma ascending_pushAt (h : Ascending m) : Ascending (pushAt k v m) := by
  induction m with
  | nil => exact List.pairwise_singleton _ _
  | cons c rest ih =>
    obtain ⟨y, ws⟩ := c
    obtain ⟨hfirst, hrest⟩ := List.pairwise_cons.1 h
    simp only [pushAt]
    split_ifs with hlt heq
    · refine List.pairwise_cons.2 ⟨fun d hd => ?_, h⟩
      rcases List.mem_cons.1 hd with rfl | hd
      · exact hlt
      · exact hlt.trans (hfirst d hd)
    · exact List.pairwise_cons.2 ⟨hfirst, hrest⟩
    · refine List.pairwise_cons.2 ⟨fun d hd => ?_, ih hrest⟩
      have hmem := (mem_pushAt hrest).1 (show (d.1, d.2) ∈ pushAt k v rest from hd)
      split_ifs at hmem with hk
      · show y < d.1
        omega
      · exact hfirst _ hmem

end PushAt

/-- Pairs grouped by file start: the starts in order, each with what the pairs say of it. -/
structure Grouped (m : List (ℕ × List ℕ)) (pairs : List (ℕ × ℕ)) : Prop where
  ascending : Ascending m
  mem_iff : ∀ k vs, (k, vs) ∈ m ↔ vs = sigsAt pairs k ∧ vs ≠ []

lemma Grouped.push {m : List (ℕ × List ℕ)} {pairs : List (ℕ × ℕ)} (h : Grouped m pairs)
    (p : ℕ × ℕ) : Grouped (pushAt p.1 p.2 m) (pairs ++ [p]) := by
  refine ⟨ascending_pushAt h.ascending, fun k vs => ?_⟩
  have hsingle : sigsAt [p] k = if p.1 = k then [p.2] else [] := by
    by_cases hk : p.1 = k <;> simp [sigsAt, hk]
  rw [mem_pushAt h.ascending, sigsAt_append, hsingle]
  by_cases hk : k = p.1
  · subst hk
    rw [if_pos rfl, if_pos rfl]
    simp only [h.mem_iff]
    by_cases hnil : sigsAt pairs p.1 = []
    · have hsome : vs = [p.2] → vs ≠ [] := fun h => by simp [h]
      simpa [hnil] using hsome
    · constructor
      · rintro (⟨ws, ⟨rfl, -⟩, rfl⟩ | ⟨hnone, -⟩)
        · exact ⟨rfl, by simp⟩
        · exact absurd ⟨rfl, hnil⟩ (hnone _)
      · rintro ⟨rfl, -⟩
        exact .inl ⟨_, ⟨rfl, hnil⟩, rfl⟩
  · rw [if_neg hk, if_neg (Ne.symm hk), List.append_nil]
    exact h.mem_iff k vs

/-- **What `per_offset` holds.** -/
lemma grouped_perOffset (pairs : List (ℕ × ℕ)) : Grouped (perOffset pairs) pairs := by
  induction pairs using List.reverseRecOn with
  | nil => exact ⟨List.Pairwise.nil, fun k vs => by simp [perOffset, sigsAt]⟩
  | append_singleton pairs p ih =>
    rw [perOffset, List.foldl_append, List.foldl_cons, List.foldl_nil]
    exact ih.push p

/-! ## The file at a candidate -/

section FileAt

variable {E : CarveEngine} {R : Reader} {a : ScanArgs} {fs : ℕ} {cf : CarvedFile}

lemma pickBetter_cases {best : Option CarvedFile} {new x : CarvedFile}
    (h : pickBetter best new = some x) : x = new ∨ best = some x := by
  unfold pickBetter at h
  split at h
  · exact .inl (Option.some.inj h).symm
  · split at h
    · exact .inl (Option.some.inj h).symm
    · exact .inr h

/-- The best result at a file start is that of one of the signatures. -/
lemma identifyBest_cases {len : ℕ} {opts : CarveOptions} {aligned : Bool} {l : List ℕ}
    {seen : List String} {best : Option CarvedFile}
    (h : (E.identifyBest len opts fs aligned l seen best).run R = some cf) :
    best = some cf ∨ ∃ i ∈ l, ∃ sig, E.sigs[i]? = some sig ∧
      (E.runOne len opts fs sig).run R = some cf := by
  induction l generalizing seen best with
  | nil => exact .inl h
  | cons i rest ih =>
    have hlater : ∀ {seen best'}, (E.identifyBest len opts fs aligned rest seen best').run R =
        some cf → best' = some cf ∨ ∃ j ∈ i :: rest, ∃ sig, E.sigs[j]? = some sig ∧
          (E.runOne len opts fs sig).run R = some cf := fun h' =>
      (ih h').imp_right fun ⟨j, hj, hsig⟩ => ⟨j, List.mem_cons_of_mem i hj, hsig⟩
    rw [identifyBest] at h
    split at h
    · exact hlater h
    · rename_i sig hsig
      dsimp only at h
      split at h
      · exact hlater h
      · simp only [ReadProg.run_bind] at h
        split at h
        · exact hlater h
        · rename_i new hnew
          rcases hlater h with hbest | hrest
          · rcases pickBetter_cases hbest with rfl | hold
            · exact .inr ⟨i, List.mem_cons_self, sig, hsig, hnew⟩
            · exact .inl hold
          · exact .inr hrest

lemma identifyFrom_cases {len blockSize : ℕ} {opts : CarveOptions} {l : List ℕ}
    (h : (E.identifyFrom len opts blockSize fs l).run R = some cf) :
    ∃ i ∈ l, ∃ sig, E.sigs[i]? = some sig ∧ (E.runOne len opts fs sig).run R = some cf := by
  unfold identifyFrom at h
  dsimp only at h
  have hbest : ∀ {aligned}, (E.identifyBest len opts fs aligned l [] none).run R = some cf →
      ∃ i ∈ l, ∃ sig, E.sigs[i]? = some sig ∧ (E.runOne len opts fs sig).run R = some cf :=
    fun h' => (identifyBest_cases h').resolve_left (by simp)
  split at h
  · exact hbest h
  · simp only [ReadProg.run_bind, ReadProg.run_pure] at h
    cases hu : uniform ((ReadProg.bytes fs 64).run R) with
    | true =>
      rw [hu] at h
      exact absurd h (by simp)
    | false =>
      rw [hu] at h
      exact hbest h

/-- **A file is what one of the signatures of its candidate makes of it.** -/
lemma fileAt_cases {l : List ℕ} (h : (E.fileAt a fs l).run R = some cf) :
    ∃ i ∈ l, ∃ sig, E.sigs[i]? = some sig ∧ (E.runOne a.len a.opts fs sig).run R = some cf := by
  unfold fileAt at h
  rw [ReadProg.run_bind] at h
  split at h
  · exact absurd h (by simp)
  · rename_i cf' hfrom
    rw [ReadProg.run_ite] at h
    split at h
    · exact absurd h (by simp)
    · obtain rfl := Option.some.inj h
      exact identifyFrom_cases hfrom

end FileAt

/-! ## Scanning chunk by chunk -/

section Scan

variable (E : CarveEngine)

/-- The chunks from `pos` on, `n` at most. -/
def scanChunks (a : ScanArgs) : ℕ → ℕ → Claims → ReadProg (List CarvedFile)
  | 0, _, _ => pure []
  | n + 1, pos, claims =>
    if a.scanEnd ≤ pos then pure []
    else do
      let r ← E.scanChunk a pos claims
      let rest ← scanChunks a n (pos + E.chunk) r.2
      pure (r.1 ++ rest)

/-- `scan`, resumed at `resumeFrom` and cancelled after `n` chunks. -/
def scan (a : ScanArgs) (resumeFrom n : ℕ) : ReadProg (List CarvedFile) :=
  E.scanChunks a n (max resumeFrom a.scanStart) []

end Scan

end CarveEngine

/-! ## A scan as a walk over candidates -/

/-- What a scan has emitted, each file with the candidate it was found at, and its claims. -/
structure ScanState where
  trace : List (ℕ × CarvedFile)
  claims : Claims

/-- Nothing emitted, nothing claimed. -/
def ScanState.start : ScanState := ⟨[], []⟩

/-- The files emitted, in order. -/
def ScanState.files (st : ScanState) : List CarvedFile := st.trace.map Prod.snd

namespace CarveEngine

variable (E : CarveEngine) (R : Reader) (a : ScanArgs)

/-- The scan comes to a candidate. -/
def visit (st : ScanState) (c : ℕ × List ℕ) : ScanState :=
  if suppressed st.claims c.1 then st
  else match (E.fileAt a c.1 c.2).run R with
    | none => st
    | some cf => ⟨st.trace ++ [(c.1, cf)], claimsAfter st.claims c.1 cf⟩

/-- The candidates of the chunk at `pos`. -/
def chunkCandidates (pos : ℕ) : List (ℕ × List ℕ) :=
  perOffset (E.collected a pos ((E.window a pos).run R))

/-- What the chunks from `pos` on have, `n` of them at most. -/
def gather {α : Type} (f : ℕ → List α) : ℕ → ℕ → List α
  | 0, _ => []
  | n + 1, pos => if a.scanEnd ≤ pos then [] else f pos ++ gather f n (pos + E.chunk)

/-- The candidates of the chunks from `pos` on, `n` at most. -/
def candidates (n pos : ℕ) : List (ℕ × List ℕ) := E.gather a (E.chunkCandidates R a) n pos

variable {E R a}

section Gather

variable {α β : Type} {f : ℕ → List α}

lemma mem_gather {n pos : ℕ} {x : α} : x ∈ E.gather a f n pos ↔
    ∃ k < n, pos + k * E.chunk < a.scanEnd ∧ x ∈ f (pos + k * E.chunk) := by
  induction n generalizing pos with
  | zero => simp [gather]
  | succ n ih =>
    rw [gather]
    split
    · rename_i hend
      simp only [List.not_mem_nil, false_iff, not_exists, not_and]
      intro k _ hk
      omega
    · rename_i hend
      rw [List.mem_append, ih]
      constructor
      · rintro (hx | ⟨k, hk, hlt, hx⟩)
        · exact ⟨0, Nat.succ_pos n, by omega, by rwa [Nat.zero_mul, Nat.add_zero]⟩
        · have hpos : pos + (k + 1) * E.chunk = pos + E.chunk + k * E.chunk := by
            rw [Nat.add_mul, Nat.one_mul]
            omega
          exact ⟨k + 1, Nat.succ_lt_succ hk, by omega, by rwa [hpos]⟩
      · rintro ⟨k, hk, hlt, hx⟩
        cases k with
        | zero => exact .inl (by rwa [Nat.zero_mul, Nat.add_zero] at hx)
        | succ k =>
          have hpos : pos + (k + 1) * E.chunk = pos + E.chunk + k * E.chunk := by
            rw [Nat.add_mul, Nat.one_mul]
            omega
          rw [hpos] at hlt hx
          exact .inr ⟨k, Nat.lt_of_succ_lt_succ hk, hlt, hx⟩

lemma map_gather (g : α → β) (n pos : ℕ) :
    (E.gather a f n pos).map g = E.gather a (fun pos => (f pos).map g) n pos := by
  induction n generalizing pos with
  | zero => rfl
  | succ n ih =>
    rw [gather, gather]
    split
    · rfl
    · rw [List.map_append, ih]

lemma filter_gather (q : α → Bool) (n pos : ℕ) :
    (E.gather a f n pos).filter q = E.gather a (fun pos => (f pos).filter q) n pos := by
  induction n generalizing pos with
  | zero => rfl
  | succ n ih =>
    rw [gather, gather]
    split
    · rfl
    · rw [List.filter_append, ih]

lemma gather_congr {g : ℕ → List α} {n pos : ℕ}
    (h : ∀ k < n, f (pos + k * E.chunk) = g (pos + k * E.chunk)) :
    E.gather a f n pos = E.gather a g n pos := by
  induction n generalizing pos with
  | zero => rfl
  | succ n ih =>
    have hfirst := h 0 (Nat.succ_pos n)
    rw [Nat.zero_mul, Nat.add_zero] at hfirst
    rw [gather, gather, hfirst, ih]
    intro k hk
    have hpos : pos + (k + 1) * E.chunk = pos + E.chunk + k * E.chunk := by
      rw [Nat.add_mul, Nat.one_mul]
      omega
    exact hpos ▸ h (k + 1) (Nat.succ_lt_succ hk)

end Gather

lemma run_emitAll (l : List (ℕ × List ℕ)) (st : ScanState) :
    (st.files ++ ((E.emitAll a l st.claims).run R).1 = (l.foldl (E.visit R a) st).files) ∧
      ((E.emitAll a l st.claims).run R).2 = (l.foldl (E.visit R a) st).claims := by
  induction l generalizing st with
  | nil => exact ⟨List.append_nil _, rfl⟩
  | cons c rest ih =>
    obtain ⟨fs, sigIdxs⟩ := c
    rw [List.foldl_cons, emitAll]
    cases hsup : suppressed st.claims fs with
    | true =>
      have hvisit : E.visit R a st (fs, sigIdxs) = st := if_pos hsup
      rw [if_pos rfl, hvisit]
      exact ih st
    | false =>
      rw [if_neg Bool.false_ne_true, ReadProg.run_bind]
      cases hfile : (E.fileAt a fs sigIdxs).run R with
      | none =>
        have hvisit : E.visit R a st (fs, sigIdxs) = st := by simp [visit, hsup, hfile]
        rw [hvisit]
        exact ih st
      | some cf =>
        have hvisit : E.visit R a st (fs, sigIdxs) =
            ⟨st.trace ++ [(fs, cf)], claimsAfter st.claims fs cf⟩ := by simp [visit, hsup, hfile]
        obtain ⟨hfiles, hclaims⟩ := ih ⟨st.trace ++ [(fs, cf)], claimsAfter st.claims fs cf⟩
        rw [hvisit, ReadProg.run_bind]
        refine ⟨?_, hclaims⟩
        rw [← hfiles]
        simp [ScanState.files]

lemma run_scanChunks (n pos : ℕ) (st : ScanState) :
    st.files ++ (E.scanChunks a n pos st.claims).run R =
      ((E.candidates R a n pos).foldl (E.visit R a) st).files := by
  induction n generalizing pos st with
  | zero => exact List.append_nil _
  | succ n ih =>
    rw [scanChunks, candidates, gather]
    split
    · exact List.append_nil _
    · obtain ⟨hfiles, hclaims⟩ := run_emitAll (E := E) (R := R) (a := a)
        (E.chunkCandidates R a pos) st
      rw [List.foldl_append, ← candidates, ← ih, ← hfiles, ← hclaims, List.append_assoc]
      simp only [ReadProg.run_bind, ReadProg.run_pure, scanChunk, chunkCandidates]

/-- **A scan walks over its candidates.** -/
theorem run_scan (resumeFrom n : ℕ) : (E.scan a resumeFrom n).run R =
    ((E.candidates R a n (max resumeFrom a.scanStart)).foldl (E.visit R a) .start).files := by
  rw [← run_scanChunks]
  rfl

/-! ## The order of the candidates -/

lemma mem_anchorHits {scanStart pos fs si : ℕ} {buf : Bytes}
    (h : (fs, si) ∈ E.anchorHits scanStart pos buf) :
    (pos ≤ fs ∧ fs < pos + E.chunk) ∨ (fs < pos ∧ pos = scanStart) := by
  obtain ⟨c, -, hc⟩ := List.mem_filterMap.1 h
  split_ifs at hc with hin
  obtain ⟨rfl, -⟩ := Prod.mk.inj (Option.some.inj hc)
  omega

lemma mem_textProbes {base bs scanEnd b : ℕ} (hbs : 0 < bs) (h : b ∈ E.textProbes base bs scanEnd) :
    base ≤ b ∧ b < base + E.chunk ∧ b < scanEnd := by
  obtain ⟨hmem, hin⟩ := List.mem_filter.1 h
  obtain ⟨i, -, rfl⟩ := List.mem_map.1 hmem
  have hle := le_divCeil_mul hbs base
  rw [Bool.and_eq_true, decide_eq_true_eq, decide_eq_true_eq] at hin
  omega

lemma mem_textPass {opts : CarveOptions} {bs scanEnd base b si : ℕ} {buf : Bytes}
    (h : (b, si) ∈ E.textPass opts bs scanEnd base buf) :
    b ∈ E.textProbes base (max bs 512) scanEnd ∧ E.textStarts base (max bs 512) buf b = true ∧
      E.sigs.findIdx? (fun s => s.id == "doc.txt") = some si := by
  unfold textPass at h
  split_ifs at h with hopts
  · exact absurd h (List.not_mem_nil)
  · split at h
    · exact absurd h (List.not_mem_nil)
    · rename_i t ht
      obtain ⟨x, hx, hp⟩ := List.mem_map.1 h
      obtain ⟨rfl, rfl⟩ := Prod.mk.inj hp
      obtain ⟨hprobe, hstart⟩ := List.mem_filter.1 hx
      exact ⟨hprobe, hstart, ht⟩

/-- The candidates of a chunk are in it, but for those of the first chunk that begin before. -/
lemma mem_chunkCandidates {pos : ℕ} {c : ℕ × List ℕ} (h : c ∈ E.chunkCandidates R a pos) :
    c.1 < pos + E.chunk ∧ (pos ≤ c.1 ∨ pos = a.scanStart) := by
  have hchunk := E.chunk_pos
  obtain ⟨hvs, hne⟩ := ((grouped_perOffset _).mem_iff c.1 c.2).1 h
  rw [hvs, ne_eq, sigsAt_eq_nil_iff] at hne
  push Not at hne
  obtain ⟨p, hp, hk⟩ := hne
  rw [← hk]
  rcases List.mem_append.1 hp with hp | hp
  · rcases mem_anchorHits hp with hin | ⟨hbefore, hfirst⟩
    · exact ⟨hin.2, .inl hin.1⟩
    · exact ⟨by omega, .inr hfirst⟩
  · obtain ⟨hle, hlt, -⟩ := mem_textProbes (by omega) (mem_textPass hp).1
    exact ⟨hlt, .inl hle⟩

lemma mem_candidates {n pos : ℕ} (hpos : a.scanStart < pos) {c : ℕ × List ℕ}
    (h : c ∈ E.candidates R a n pos) : pos ≤ c.1 := by
  obtain ⟨k, -, -, hc⟩ := mem_gather.1 h
  have := (mem_chunkCandidates hc).2
  omega

/-- **Candidates come in order.** -/
lemma ascending_candidates {n pos : ℕ} (hpos : a.scanStart ≤ pos) :
    Ascending (E.candidates R a n pos) := by
  have hchunk := E.chunk_pos
  induction n generalizing pos with
  | zero => exact List.Pairwise.nil
  | succ n ih =>
    rw [candidates, gather]
    split
    · exact List.Pairwise.nil
    · refine List.pairwise_append.2 ⟨(grouped_perOffset _).ascending, ih (by omega), ?_⟩
      intro c hc d hd
      exact lt_of_lt_of_le (mem_chunkCandidates hc).1 (mem_candidates (by omega) hd)

end CarveEngine

end Reclaim
