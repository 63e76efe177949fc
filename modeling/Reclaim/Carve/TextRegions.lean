import Reclaim.Carve.TextPass

/-!
# Text regions and chunks

The scan in chunks and the one whose text pass has the whole range in one buffer walk over the same
candidates, but for those that the chunks add.  They emit the same text regions if at each of these
they come to the same, and, as long as all files are kept, only then.
-/

namespace Reclaim

open FileBytes

namespace CarveEngine

variable {E : CarveEngine} {R : Reader} {a : ScanArgs}

/-! ## The two scans, step by step -/

/-- Nothing is found at a file start that nothing believes in. -/
lemma visit_nil (st : ScanState) (b : ℕ) : E.visit R a st (b, []) = st := by
  have hnone : (E.fileAt a b []).run R = none := by
    cases h : (E.fileAt a b []).run R with
    | none => rfl
    | some cf =>
      obtain ⟨i, hi, -⟩ := fileAt_cases h
      exact absurd hi (List.not_mem_nil)
  unfold visit
  rw [hnone, ite_self]

/-- Visiting those that nothing believes in makes no difference. -/
lemma foldl_visit_filter (l : List (ℕ × List ℕ)) (st : ScanState) :
    (l.filter fun c => !c.2.isEmpty).foldl (E.visit R a) st = l.foldl (E.visit R a) st := by
  rw [List.foldl_filter]
  congr 1
  funext st c
  split
  · rfl
  · rename_i hnil
    have hnil : c.2 = [] := by simpa using hnil
    rw [show c = (c.1, []) from Prod.ext rfl hnil, visit_nil]

/-- What a scan emits. -/
lemma files_scanned (n : ℕ) : (E.scanned R a n).files = (E.scan a 0 n).run R := by
  rw [run_scan, Nat.zero_max]
  rfl

lemma scanned_eq (n : ℕ) : E.scanned R a n =
    (E.steps R a n).foldl (fun st x => E.visit R a st (x.1, x.2.1)) .start := by
  rw [scanned, candidates_eq, List.foldl_map]

lemma scannedOnce_eq {data : Bytes} (hR : R.Reads data) (hov : 511 ≤ E.overlap) (n : ℕ) :
    E.scannedOnce R a n =
      (E.steps R a n).foldl (fun st x => E.visit R a st (x.1, x.2.2)) .start := by
  rw [scannedOnce, candidatesOnce_eq hR hov, foldl_visit_filter, List.foldl_map]

lemma onceBefore_eq {data : Bytes} (hR : R.Reads data) (hov : 511 ≤ E.overlap) (n b : ℕ) :
    E.onceBefore R a n b = ((E.steps R a n).filter fun x => x.1 < b).foldl
      (fun st x => E.visit R a st (x.1, x.2.2)) .start := by
  rw [onceBefore, candidatesOnce_eq hR hov, List.filter_filter]
  simp only [Bool.and_comm (decide _)]
  rw [← List.filter_filter, foldl_visit_filter, List.filter_map, List.foldl_map]
  rfl

/-- What a candidate adds to the trace. -/
lemma trace_visit {st : ScanState} {c : ℕ × List ℕ} (hsup : suppressed st.claims c.1 = false) :
    (E.visit R a st c).trace =
      st.trace ++ ((E.fileAt a c.1 c.2).run R).toList.map fun cf => (c.1, cf) := by
  unfold visit
  rw [hsup, if_neg Bool.false_ne_true]
  cases (E.fileAt a c.1 c.2).run R with
  | none => exact (List.append_nil _).symm
  | some cf => rfl

lemma mem_trace_visit {st : ScanState} {c : ℕ × List ℕ} {p : ℕ × CarvedFile} :
    p ∈ (E.visit R a st c).trace ↔ p ∈ st.trace ∨
      (suppressed st.claims c.1 = false ∧ p.1 = c.1 ∧ (E.fileAt a c.1 c.2).run R = some p.2) := by
  cases hsup : suppressed st.claims c.1 with
  | true => simp [visit, hsup]
  | false =>
    rw [trace_visit hsup, List.mem_append, List.mem_map]
    refine or_congr_right ⟨?_, ?_⟩
    · rintro ⟨cf, hcf, rfl⟩
      exact ⟨rfl, rfl, Option.mem_toList.1 hcf⟩
    · rintro ⟨-, hp, hcf⟩
      exact ⟨p.2, Option.mem_toList.2 hcf, Prod.ext hp.symm rfl⟩

/-- Two sets of signatures for a candidate come to the same. -/
lemma visit_eq_iff {st : ScanState} {b : ℕ} {l l' : List ℕ} :
    E.visit R a st (b, l) = E.visit R a st (b, l') ↔
      suppressed st.claims b = true ∨ (E.fileAt a b l).run R = (E.fileAt a b l').run R := by
  cases hsup : suppressed st.claims b with
  | true => simp [visit, hsup]
  | false =>
    rw [or_iff_right Bool.false_ne_true]
    refine ⟨fun h => ?_, fun h => by simp only [visit, h]⟩
    have htrace := congrArg ScanState.trace h
    rw [trace_visit hsup, trace_visit hsup, List.append_cancel_left_eq] at htrace
    have hlist := List.map_injective_iff.2 (Prod.mk_right_injective b) htrace
    exact Option.ext fun cf => by rw [← Option.mem_toList, ← Option.mem_toList, hlist]

lemma mem_trace_foldl {f : ScanState → ℕ × List ℕ × List ℕ → ScanState}
    {g : ℕ × List ℕ × List ℕ → List ℕ} (hf : ∀ st x, f st x = E.visit R a st (x.1, g x))
    {p : ℕ × CarvedFile} (l : List (ℕ × List ℕ × List ℕ)) (st : ScanState) :
    (p ∈ st.trace → p ∈ (l.foldl f st).trace) ∧
      (p ∈ (l.foldl f st).trace → p ∈ st.trace ∨ ∃ x ∈ l, p.1 = x.1) := by
  induction l generalizing st with
  | nil => exact ⟨id, .inl⟩
  | cons x rest ih =>
    obtain ⟨hsub, hmem⟩ := ih (f st x)
    rw [List.foldl_cons]
    constructor
    · intro hp
      exact hsub (by rw [hf]; exact mem_trace_visit.2 (.inl hp))
    · intro hp
      rcases hmem hp with hp | ⟨y, hy, hpy⟩
      · rw [hf] at hp
        rcases mem_trace_visit.1 hp with hp | ⟨-, hpx, -⟩
        · exact .inl hp
        · exact .inr ⟨x, List.mem_cons_self, hpx⟩
      · exact .inr ⟨y, List.mem_cons_of_mem x hy, hpy⟩

/-! ## One signature more -/

/-- One signature more at the end changes nothing, or its file is the best. -/
lemma identifyBest_append {len fs t : ℕ} {opts : CarveOptions} {aligned : Bool} (l : List ℕ)
    (seen : List String) (best : Option CarvedFile) :
    (E.identifyBest len opts fs aligned (l ++ [t]) seen best).run R =
        (E.identifyBest len opts fs aligned l seen best).run R ∨
      ∃ sig cf, E.sigs[t]? = some sig ∧ (E.runOne len opts fs sig).run R = some cf ∧
        (E.identifyBest len opts fs aligned (l ++ [t]) seen best).run R = some cf := by
  induction l generalizing seen best with
  | nil =>
    rw [List.nil_append, identifyBest, identifyBest]
    cases hsig : E.sigs[t]? with
    | none => exact .inl rfl
    | some sig =>
      dsimp only
      split
      · exact .inl rfl
      · rw [ReadProg.run_bind]
        cases hone : (E.runOne len opts fs sig).run R with
        | none => exact .inl rfl
        | some cf =>
          dsimp only
          rw [identifyBest, ReadProg.run_pure, ReadProg.run_pure]
          unfold pickBetter
          cases best with
          | none => exact .inr ⟨sig, cf, rfl, hone, rfl⟩
          | some c =>
            dsimp only
            split
            · exact .inr ⟨sig, cf, rfl, hone, rfl⟩
            · exact .inl rfl
  | cons i rest ih =>
    rw [List.cons_append, identifyBest, identifyBest]
    cases E.sigs[i]? with
    | none => exact ih seen best
    | some sig =>
      dsimp only
      split
      · exact ih seen best
      · rw [ReadProg.run_bind, ReadProg.run_bind]
        cases (E.runOne len opts fs sig).run R with
        | none => exact ih _ best
        | some cf => exact ih _ _

lemma identifyFrom_append {len blockSize fs t : ℕ} {opts : CarveOptions} (l : List ℕ) :
    (E.identifyFrom len opts blockSize fs (l ++ [t])).run R =
        (E.identifyFrom len opts blockSize fs l).run R ∨
      ∃ sig cf, E.sigs[t]? = some sig ∧ (E.runOne len opts fs sig).run R = some cf ∧
        (E.identifyFrom len opts blockSize fs (l ++ [t])).run R = some cf := by
  unfold identifyFrom
  dsimp only
  cases opts.bruteForce with
  | true => exact identifyBest_append l [] none
  | false =>
    simp only [ReadProg.run_bind, ReadProg.run_pure, Bool.false_eq_true, if_false]
    cases uniform ((ReadProg.bytes fs 64).run R) with
    | true => exact .inl rfl
    | false => exact identifyBest_append l [] none

/-- The file at a candidate with one signature more, if all files are kept. -/
lemma fileAt_append (hkeep : a.opts.keepCorrupted = true) {fs t : ℕ} (l : List ℕ) :
    (E.fileAt a fs (l ++ [t])).run R = (E.fileAt a fs l).run R ∨
      ∃ sig cf, E.sigs[t]? = some sig ∧ (E.runOne a.len a.opts fs sig).run R = some cf ∧
        (E.fileAt a fs (l ++ [t])).run R = some cf := by
  unfold fileAt
  rw [ReadProg.run_bind, ReadProg.run_bind]
  rcases identifyFrom_append (E := E) (R := R) l with h | ⟨sig, cf, hsig, hone, h⟩
  · exact .inl (by rw [h])
  · refine .inr ⟨sig, cf, hsig, hone, ?_⟩
    rw [h]
    simp [hkeep]

/-! ## Two walks over one list -/

/-- Nothing comes before the first. -/
lemma filter_first {x : ℕ × List ℕ × List ℕ} {rest : List (ℕ × List ℕ × List ℕ)}
    (h : (x :: rest).Pairwise fun x y => x.1 < y.1) :
    ((x :: rest).filter fun y => y.1 < x.1) = [] := by
  apply List.filter_eq_nil_iff.2
  intro y hy
  rw [decide_eq_true_eq, not_lt]
  rcases List.mem_cons.1 hy with rfl | hy
  · exact le_rfl
  · exact ((List.pairwise_cons.1 h).1 y hy).le

/-- **Walks that agree step by step come to the same.** -/
lemma foldl_eq_of_steps {L : List (ℕ × List ℕ × List ℕ)} (hL : L.Pairwise fun x y => x.1 < y.1)
    {f g : ScanState → ℕ × List ℕ × List ℕ → ScanState} {st : ScanState}
    (h : ∀ x ∈ L, f ((L.filter fun y => y.1 < x.1).foldl g st) x =
      g ((L.filter fun y => y.1 < x.1).foldl g st) x) : L.foldl f st = L.foldl g st := by
  induction L generalizing st with
  | nil => rfl
  | cons x rest ih =>
    obtain ⟨hfirst, hrest⟩ := List.pairwise_cons.1 hL
    have hx := h x List.mem_cons_self
    rw [filter_first hL] at hx
    rw [List.foldl_cons, List.foldl_cons, show f st x = g st x from hx]
    apply ih hrest
    intro y hy
    have hy' := h y (List.mem_cons_of_mem x hy)
    rwa [List.filter_cons_of_pos (by simpa using hfirst y hy)] at hy'

/-- A file that is not kept back, of a signature set with the text signature last, is a text region
if the others have another file there or none. -/
lemma exists_text_of_ne (hkeep : a.opts.keepCorrupted = true) {st : ScanState} {b t : ℕ}
    {l : List ℕ} (ht : E.textSig a = some t) (hkeys : ∀ p ∈ st.trace, p.1 < b)
    (hne : E.visit R a st (b, l ++ [t]) ≠ E.visit R a st (b, l)) :
    ∃ cf, (b, cf) ∈ (E.visit R a st (b, l ++ [t])).trace ∧ E.IsText R a b cf ∧
      ∀ cf', (b, cf') ∈ (E.visit R a st (b, l)).trace → ¬ E.IsText R a b cf' := by
  rw [ne_eq, visit_eq_iff, not_or, Bool.not_eq_true] at hne
  obtain ⟨hsup, hfile⟩ := hne
  obtain ⟨sig, cf, hsig, hone, happ⟩ := (fileAt_append hkeep l).resolve_left hfile
  refine ⟨cf, mem_trace_visit.2 (.inr ⟨hsup, rfl, happ⟩), ⟨t, sig, ht, hsig, hone⟩, ?_⟩
  rintro cf' hmem ⟨t', sig', ht', hsig', hone'⟩
  obtain rfl : t' = t := Option.some.inj (ht'.symm.trans ht)
  obtain rfl : sig' = sig := Option.some.inj (hsig'.symm.trans hsig)
  obtain rfl : cf' = cf := Option.some.inj (hone'.symm.trans hone)
  rcases mem_trace_visit.1 hmem with hmem | ⟨-, -, hcf'⟩
  · exact lt_irrefl b (hkeys _ hmem)
  · exact hfile (happ.trans hcf'.symm)

/-- **If the regions are the same, the walks agree step by step.** -/
lemma steps_of_textRegions_eq (hkeep : a.opts.keepCorrupted = true)
    {L : List (ℕ × List ℕ × List ℕ)} (hL : L.Pairwise fun x y => x.1 < y.1)
    (hstep : ∀ x ∈ L, x.2.1 = x.2.2 ∨ ∃ t, E.textSig a = some t ∧ x.2.1 = x.2.2 ++ [t])
    {st : ScanState} (hkeys : ∀ p ∈ st.trace, ∀ x ∈ L, p.1 < x.1)
    (h : E.textRegions R a (L.foldl (fun st x => E.visit R a st (x.1, x.2.1)) st) =
      E.textRegions R a (L.foldl (fun st x => E.visit R a st (x.1, x.2.2)) st)) :
    ∀ x ∈ L,
      let before := (L.filter fun y => y.1 < x.1).foldl
        (fun st x => E.visit R a st (x.1, x.2.2)) st
      E.visit R a before (x.1, x.2.1) = E.visit R a before (x.1, x.2.2) := by
  induction L generalizing st with
  | nil => exact List.forall_mem_nil _
  | cons x rest ih =>
    obtain ⟨hfirst, hrest⟩ := List.pairwise_cons.1 hL
    have hbefore : ∀ p ∈ st.trace, p.1 < x.1 := fun p hp => hkeys p hp x List.mem_cons_self
    have hsame : E.visit R a st (x.1, x.2.1) = E.visit R a st (x.1, x.2.2) := by
      rcases hstep x List.mem_cons_self with heq | ⟨t, ht, happ⟩
      · rw [heq]
      · by_contra hne
        rw [happ] at hne
        obtain ⟨cf, hmem, htext, hno⟩ := exists_text_of_ne hkeep ht hbefore hne
        have hin : (x.1, cf.len, cf.format) ∈ E.textRegions R a
            ((x :: rest).foldl (fun st x => E.visit R a st (x.1, x.2.1)) st) := by
          refine ⟨(x.1, cf), ?_, htext, rfl⟩
          rw [List.foldl_cons, happ]
          exact (mem_trace_foldl (fun _ _ => rfl) rest _).1 hmem
        rw [h] at hin
        obtain ⟨p, hp, hptext, hpeq⟩ := hin
        have hkey : p.1 = x.1 := (congrArg Prod.fst hpeq).symm
        rw [List.foldl_cons] at hp
        rcases (mem_trace_foldl (fun _ _ => rfl) rest _).2 hp with hp | ⟨y, hy, hpy⟩
        · exact hno p.2 (hkey ▸ hp) (hkey ▸ hptext)
        · exact (hfirst y hy).ne (hkey.symm.trans hpy)
    intro y hy
    rcases List.mem_cons.1 hy with rfl | hy
    · rw [filter_first hL]
      exact hsame
    · rw [List.filter_cons_of_pos (by simpa using hfirst y hy)]
      rw [List.foldl_cons, List.foldl_cons, hsame] at h
      refine ih hrest (fun z hz => hstep z (List.mem_cons_of_mem x hz)) (fun p hp z hz => ?_) h y hy
      rcases mem_trace_visit.1 hp with hp | ⟨-, hpx, -⟩
      · exact hkeys p hp z (List.mem_cons_of_mem x hz)
      · rw [hpx]
        exact hfirst z hz

/-- **When the text regions do not depend on the chunks**: if nothing is emitted where a chunk
begins within text, and, as long as all files are kept, only then. -/
theorem textRegions_scanned {data : Bytes} (hR : R.Reads data) (hov : 511 ≤ E.overlap)
    (n : ℕ) :
    (E.Quiet R a n →
      E.textRegions R a (E.scanned R a n) = E.textRegions R a (E.scannedOnce R a n)) ∧
      (a.opts.keepCorrupted = true →
        E.textRegions R a (E.scanned R a n) = E.textRegions R a (E.scannedOnce R a n) →
          E.Quiet R a n) := by
  rw [scanned_eq, scannedOnce_eq hR hov]
  constructor
  · intro hquiet
    rw [foldl_eq_of_steps (ascending_steps n) fun x hx => ?_]
    rcases mem_steps hR hov hx with heq | ⟨k, hk, t, ht, hrestart, honce, hchunked⟩
    · rw [heq]
    · rw [honce, hchunked, ← onceBefore_eq hR hov]
      exact visit_eq_iff.2 (hquiet k hk x.1 t hrestart ht)
  · intro hkeep hregions k hk b t hrestart ht
    have hx := hrestart.mem_steps hR hov hk ht
    have hsteps := steps_of_textRegions_eq hkeep (ascending_steps n) (fun x hx =>
      (mem_steps hR hov hx).imp_right fun ⟨k, _, t, ht, _, honce, hchunked⟩ =>
        ⟨t, ht, by rw [honce, hchunked]⟩) (List.forall_mem_nil _) hregions _ hx
    dsimp only at hsteps
    rw [← onceBefore_eq hR hov] at hsteps
    exact visit_eq_iff.1 hsteps

end CarveEngine

/-! ## Text across a chunk boundary -/

namespace PlainText

open CarveEngine

/-- One past the end of a source whose text crosses the end of the first chunk. -/
def lateLen : ℕ := carveChunk + 512

/-- A byte of a source with 1024 bytes of text, half of it before the end of the first chunk. -/
def lateByte (x : ℕ) : UInt8 :=
  if carveChunk - 512 ≤ x ∧ x < lateLen then byteAt [0x61, 0x62, 0x20, 0x63] (x % 4) else 0

def lateReader : Reader := fun off n => ((List.range n).map fun k => lateByte (off + k), false)

lemma lateReader_bytes (off n : ℕ) :
    (lateReader off n).1 = (List.range n).map fun k => lateByte (off + k) := rfl

/-- A scan of that source for text. -/
def lateArgs : ScanArgs :=
  ⟨lateLen, 512, { CarveEngine.defaultOptions with sigIds := ["doc.txt"] }⟩

lemma lateReader_reads : lateReader.Reads ((List.range lateLen).map lateByte) := by
  intro off n
  apply List.map_congr_left
  intro k _
  rw [byteAt, List.getD_eq_getElem?_getD, List.getElem?_map]
  rcases Nat.lt_or_ge (off + k) lateLen with hin | hin
  · rw [List.getElem?_range hin, Option.map_some, Option.getD_some]
  · have hnone : (List.range lateLen)[off + k]? = none := by
      rw [List.getElem?_eq_none_iff, List.length_range]
      exact hin
    have hzero : lateByte (off + k) = 0 := if_neg fun h => not_lt.2 hin h.2
    rw [hnone, hzero]
    rfl

lemma scanEnd_late : lateArgs.scanEnd = lateLen := rfl

/-- What the text signature makes of the file start `b`. -/
def lateFile (b len : ℕ) : CarvedFile :=
  ⟨b, len, "doc.txt", "doc", "txt", .truncated, 56, ⟨none, none, none⟩⟩

/-- What is computed of that source. -/
lemma late_computed :
    (looksLikeText (List.replicate 512 0) = false ∧
      engine.textAt lateReader lateArgs (carveChunk - 512) = true ∧
      engine.textAt lateReader lateArgs carveChunk = true) ∧
    (engine.textSig lateArgs = some 1 ∧ textBlock lateArgs = 512 ∧
      lateArgs.scanStart + 0 * engine.chunk < lateArgs.scanEnd) ∧
    (engine.fileAt lateArgs (carveChunk - 512) [1]).run lateReader =
      some (lateFile (carveChunk - 512) 1024) ∧
    (engine.fileAt lateArgs carveChunk [1]).run lateReader = some (lateFile carveChunk 512) ∧
    (engine.runOne lateArgs.len lateArgs.opts carveChunk sig).run lateReader =
      some (lateFile carveChunk 512) := by
  decide +kernel

lemma looksLikeText_zero : looksLikeText (List.replicate 512 0) = false := late_computed.1.1

/-- A range without text. -/
lemma lateReader_zero {off n : ℕ} (h : ∀ k < n, lateByte (off + k) = 0) :
    (lateReader off n).1 = List.replicate n 0 := by
  rw [lateReader_bytes]
  refine List.eq_replicate_iff.2 ⟨?_, fun x hx => ?_⟩
  · rw [List.length_map, List.length_range]
  · obtain ⟨k, hk, rfl⟩ := List.mem_map.1 hx
    exact h k (List.mem_range.1 hk)

/-- Which blocks are text. -/
lemma textAt_late {b : ℕ} (hb : 512 ∣ b) (hend : b < lateLen) :
    engine.textAt lateReader lateArgs b = true ↔ b = carveChunk - 512 ∨ b = carveChunk := by
  have hchunk : carveChunk = 8388608 := rfl
  have hlate : lateLen = 8389120 := rfl
  constructor
  · intro h
    by_contra hne
    have hzero : (lateReader b (min 512 (lateArgs.scanEnd - b))).1 = List.replicate 512 0 := by
      have hlen : min 512 (lateArgs.scanEnd - b) = 512 := by
        rw [scanEnd_late]
        omega
      refine hlen.symm ▸ lateReader_zero fun k hk => if_neg ?_
      omega
    have hlook : engine.looksLikeText = looksLikeText := rfl
    rw [textAt, hzero, hlook, looksLikeText_zero] at h
    exact Bool.false_ne_true h
  · rintro (rfl | rfl)
    · exact late_computed.1.2.1
    · exact late_computed.1.2.2

/-- The bytes of that source. -/
def lateBytes : Bytes := [0x61, 0x62, 0x20, 0x63, 0]

lemma lateByte_mem (x : ℕ) : lateByte x ∈ lateBytes := by
  unfold lateByte
  split
  · have hmod := Nat.mod_lt x (show 0 < 4 by omega)
    generalize x % 4 = m at hmod ⊢
    interval_cases m <;> decide
  · decide

/-- No anchor occurs in it. -/
lemma anchorHits_late (a : ScanArgs) (start pos : ℕ) :
    engine.anchorHits start pos ((engine.window a pos).run lateReader) = [] := by
  have hanchors : ∀ r ∈ headerRefs engine.sigs,
      (r.2.anchor.head?.all fun b => decide (b ∉ lateBytes)) = true ∧ r.2.anchor ≠ [] := by
    decide
  apply List.eq_nil_iff_forall_not_mem.2
  intro p hp
  obtain ⟨c, hc, -⟩ := List.mem_filterMap.1 hp
  obtain ⟨h, i, hh, hocc, -⟩ := mem_scanBuffer.1 hc
  obtain ⟨hfirst, hne⟩ := hanchors _ hh
  obtain ⟨b, rest, hanchor⟩ := List.exists_cons_of_ne_nil hne
  have hmem : b ∈ (engine.window a pos).run lateReader := by
    have hb : b ∈ h.anchor := hanchor ▸ List.mem_cons_self
    rw [← hocc] at hb
    exact List.mem_of_mem_drop (List.mem_of_mem_take hb)
  rw [window, ReadProg.run_bytes, lateReader_bytes] at hmem
  obtain ⟨k, -, rfl⟩ := List.mem_map.1 hmem
  rw [show h.anchor = _ from hanchor] at hfirst
  simp only [List.head?_cons, Option.all_some, decide_eq_true_eq] at hfirst
  exact hfirst (lateByte_mem _)

lemma textSig_late : engine.textSig lateArgs = some 1 := late_computed.2.1.1

lemma textBlock_late : textBlock lateArgs = 512 := late_computed.2.1.2.1

/-- What the chunks collect: text begins in the last block of the first, and again in the second. -/
lemma sigsAt_late (k b : ℕ) : sigsAt (engine.collected lateArgs (lateArgs.scanStart +
    k * engine.chunk) ((engine.window lateArgs (lateArgs.scanStart + k * engine.chunk)).run
      lateReader)) b =
    if k = 0 ∧ b = carveChunk - 512 ∨ k = 1 ∧ b = carveChunk then [1] else [] := by
  have hchunk : engine.chunk = 8388608 := rfl
  have hcarve : carveChunk = 8388608 := rfl
  have hlate : lateLen = 8389120 := rfl
  have hstart : lateArgs.scanStart = 0 := rfl
  rw [collected, anchorHits_late, List.nil_append]
  by_cases hin : lateArgs.scanStart + k * engine.chunk ≤ b ∧
      b < lateArgs.scanStart + k * engine.chunk + engine.chunk
  · refine (sigsAt_text_chunk lateReader_reads engine_overlap hin.1 hin.2).trans ?_
    rw [textSig_late, textBlock_late, scanEnd_late]
    refine if_congr ?_ rfl rfl
    rw [hchunk, hstart] at hin ⊢
    constructor
    · rintro ⟨⟨hdvd, hend⟩, htext, -⟩
      have hb := (textAt_late hdvd hend).1 htext
      omega
    · rintro (⟨rfl, rfl⟩ | ⟨rfl, rfl⟩)
      · refine ⟨⟨by omega, by omega⟩, (textAt_late (by omega) (by omega)).2 (.inl rfl), ?_⟩
        intro _
        apply Bool.eq_false_iff.2
        intro htext
        have hb := (textAt_late (by omega) (by omega)).1 htext
        omega
      · exact ⟨⟨by omega, by omega⟩, (textAt_late (by omega) (by omega)).2 (.inr rfl),
          fun h => by omega⟩
  · rw [sigsAt_textPass, if_neg, if_neg]
    · rw [hchunk, hstart] at hin
      omega
    · intro h
      obtain ⟨-, hge, hlt, -⟩ := (mem_textProbes_iff textBlock_pos).1 h.1
      exact hin ⟨hge, hlt⟩

lemma candidates_late : engine.candidates lateReader lateArgs 2 lateArgs.scanStart =
    [(carveChunk - 512, [1]), (carveChunk, [1])] := by
  refine (ascending_candidates le_rfl).eq (by decide) fun b vs => ?_
  have hchunk : engine.chunk = 8388608 := rfl
  have hcarve : carveChunk = 8388608 := rfl
  have hlate : lateLen = 8389120 := rfl
  have hstart : lateArgs.scanStart = 0 := rfl
  rw [CarveEngine.candidates, mem_gather]
  simp only [chunkCandidates, (grouped_perOffset _).mem_iff, sigsAt_late, List.mem_cons,
    Prod.mk.injEq, List.not_mem_nil, or_false]
  constructor
  · rintro ⟨k, -, -, rfl, hne⟩
    split at hne
    · rename_i h
      rw [if_pos h]
      rcases h with ⟨-, rfl⟩ | ⟨-, rfl⟩
      · exact .inl ⟨rfl, rfl⟩
      · exact .inr ⟨rfl, rfl⟩
    · exact absurd rfl hne
  · rw [scanEnd_late]
    rintro (⟨rfl, rfl⟩ | ⟨rfl, rfl⟩)
    · exact ⟨0, by omega, by omega, (if_pos (.inl ⟨rfl, rfl⟩)).symm, List.cons_ne_nil _ _⟩
    · exact ⟨1, by omega, by omega, (if_pos (.inr ⟨rfl, rfl⟩)).symm, List.cons_ne_nil _ _⟩

/-- What is collected if the pass is made in one buffer: text begins once. -/
lemma sigsAt_late_once (k b : ℕ) : sigsAt (engine.collectedOnce lateReader lateArgs
    (lateArgs.scanStart + k * engine.chunk)) b =
      if k = 0 ∧ b = carveChunk - 512 then [1] else [] := by
  have hchunk : engine.chunk = 8388608 := rfl
  have hcarve : carveChunk = 8388608 := rfl
  have hlate : lateLen = 8389120 := rfl
  have hstart : lateArgs.scanStart = 0 := rfl
  have honce := sigsAt_textOnce (a := lateArgs) lateReader_reads engine_overlap (b := b)
    (by rw [hstart]; exact Nat.zero_le b)
  rw [textSig_late, textBlock_late, scanEnd_late] at honce
  rw [collectedOnce, anchorHits_late, List.nil_append,
    sigsAt_filter (q := fun x => lateArgs.scanStart + k * engine.chunk ≤ x &&
      x < lateArgs.scanStart + k * engine.chunk + engine.chunk), honce]
  simp only [Bool.and_eq_true, decide_eq_true_eq, hchunk, hstart]
  by_cases h : k = 0 ∧ b = carveChunk - 512
  · obtain ⟨rfl, rfl⟩ := h
    rw [if_pos ⟨by omega, by omega⟩, if_pos, if_pos ⟨rfl, rfl⟩]
    · rfl
    · refine ⟨⟨by omega, by omega⟩, (textAt_late (by omega) (by omega)).2 (.inl rfl), ?_⟩
      intro _
      apply Bool.eq_false_iff.2
      intro htext
      have hb := (textAt_late (by omega) (by omega)).1 htext
      omega
  · rw [if_neg h]
    split
    · apply if_neg
      intro htext
      obtain ⟨⟨hdvd, hend⟩, hat, hbefore⟩ := htext
      rcases (textAt_late hdvd hend).1 hat with rfl | rfl
      · omega
      · -- the block before is text
        have hprev := (textAt_late (b := carveChunk - 512) (by omega) (by omega)).2 (.inl rfl)
        rw [hbefore (by omega)] at hprev
        exact Bool.false_ne_true hprev
    · rfl

lemma candidatesOnce_late :
    engine.candidatesOnce lateReader lateArgs 2 = [(carveChunk - 512, [1])] := by
  refine (ascending_candidatesOnce lateReader_reads engine_overlap 2).eq (by decide) fun b vs => ?_
  rw [candidatesOnce, mem_gather, List.mem_singleton, Prod.mk.injEq]
  simp only [(grouped_perOffset _).mem_iff, sigsAt_late_once]
  constructor
  · rintro ⟨k, -, -, rfl, hne⟩
    split at hne
    · rename_i h
      rw [if_pos h]
      exact ⟨h.2, rfl⟩
    · exact absurd rfl hne
  · rintro ⟨rfl, rfl⟩
    exact ⟨0, by omega, late_computed.2.1.2.2, (if_pos ⟨rfl, rfl⟩).symm, List.cons_ne_nil _ _⟩

lemma fileAt_late : (engine.fileAt lateArgs (carveChunk - 512) [1]).run lateReader =
    some (lateFile (carveChunk - 512) 1024) ∧
      (engine.fileAt lateArgs carveChunk [1]).run lateReader = some (lateFile carveChunk 512) :=
  ⟨late_computed.2.2.1, late_computed.2.2.2.1⟩

/-- The chunks emit a region at the beginning of the second. -/
lemma late_mem_textRegions : (carveChunk, 512, "doc.txt") ∈
    engine.textRegions lateReader lateArgs (engine.scanned lateReader lateArgs 2) := by
  obtain ⟨hfirst, hsecond⟩ := fileAt_late
  have hvisit : engine.visit lateReader lateArgs .start (carveChunk - 512, [1]) =
      ⟨[(carveChunk - 512, lateFile (carveChunk - 512) 1024)], []⟩ := by
    rw [visit, hfirst]
    rfl
  refine ⟨(carveChunk, lateFile carveChunk 512), ?_, ⟨1, sig, textSig_late, rfl, ?_⟩, rfl⟩
  · rw [CarveEngine.scanned, candidates_late, List.foldl_cons, List.foldl_cons,
      List.foldl_nil, hvisit]
    exact mem_trace_visit.2 (.inr ⟨rfl, rfl, hsecond⟩)
  · exact late_computed.2.2.2.2

/-- Seen in one buffer, there is none. -/
lemma late_notMem_textRegions : (carveChunk, 512, "doc.txt") ∉
    engine.textRegions lateReader lateArgs (engine.scannedOnce lateReader lateArgs 2) := by
  rintro ⟨p, hp, -, hpeq⟩
  rw [scannedOnce, candidatesOnce_late, List.foldl_cons, List.foldl_nil] at hp
  rcases mem_trace_visit.1 hp with hp | ⟨-, hkey, -⟩
  · exact absurd hp (List.not_mem_nil)
  · have hkey' : carveChunk = carveChunk - 512 := (congrArg Prod.fst hpeq).trans hkey
    exact absurd hkey' (by decide)

end PlainText

namespace CarveEngine

open PlainText

/-- The rule, for that source. -/
theorem textRegions_scanned_late :
    (PlainText.engine.Quiet lateReader lateArgs 2 →
      PlainText.engine.textRegions lateReader lateArgs
          (PlainText.engine.scanned lateReader lateArgs 2) =
        PlainText.engine.textRegions lateReader lateArgs
          (PlainText.engine.scannedOnce lateReader lateArgs 2)) ∧
    (lateArgs.opts.keepCorrupted = true →
      PlainText.engine.textRegions lateReader lateArgs
          (PlainText.engine.scanned lateReader lateArgs 2) =
        PlainText.engine.textRegions lateReader lateArgs
          (PlainText.engine.scannedOnce lateReader lateArgs 2) →
      PlainText.engine.Quiet lateReader lateArgs 2) :=
  textRegions_scanned lateReader_reads engine_overlap 2

/-- Text that crosses the end of a chunk is begun once more. -/
theorem textRegions_scanned_counterexample : ¬ ∀ (E : CarveEngine) (R : Reader) (data : Bytes)
    (a : ScanArgs) (n : ℕ), R.Reads data → 511 ≤ E.overlap →
      E.textRegions R a (E.scanned R a n) = E.textRegions R a (E.scannedOnce R a n) := by
  intro h
  have hsame := h PlainText.engine _ _ lateArgs 2 lateReader_reads
    engine_overlap
  exact late_notMem_textRegions (hsame ▸ late_mem_textRegions)

end CarveEngine
end Reclaim