import Reclaim.Block.LbaRange
import Reclaim.Carve.Matcher

/-!
# What a scan of a buffer reports

`Matcher.scanBuffer` computes offsets in 64 bits: an offset behind the last becomes the last.  As
long as every byte of the buffer has an offset, no offset does, and the scan reports each header
once at a position: exactly where its pattern matches, if the pattern lies in the buffer, and
exactly where its anchor is found, if the edge of the buffer cuts the pattern.
-/

namespace Reclaim

open FileBytes

/-- Two elements of a list have two numbers. -/
lemma pairwise_zipIdx {α : Type} (l : List α) : l.zipIdx.Pairwise fun p q => p.2 ≠ q.2 := by
  rw [← List.pairwise_map (f := Prod.snd), List.zipIdx_map_snd]
  exact List.nodup_range' ..

/-- The automaton reports an occurrence once. -/
def Automaton.Once (ac : Automaton) : Prop := ∀ ps buf, (ac.findOverlapping ps buf).Nodup

lemma Automaton.once_naive : Automaton.naive.Once := fun ps buf => by
  refine List.nodup_flatMap.2 ⟨fun p _ => ?_, ?_⟩
  · refine List.Nodup.map (fun i j h => (Prod.mk.inj h).2) ?_
    unfold occurrences
    split
    · exact List.nodup_nil
    · exact List.nodup_range.filter _
  · refine (pairwise_zipIdx ps).imp fun {p q} hpq => List.disjoint_left.2 fun m hm hm' => ?_
    obtain ⟨i, -, rfl⟩ := List.mem_map.1 hm
    obtain ⟨j, -, h⟩ := List.mem_map.1 hm'
    exact hpq (Prod.mk.inj h).1.symm

/-! ## The headers of a table -/

section Headers

variable {sigs : List SigDef} {r : HeaderRef} {h h' : HeaderPat} {pid pid' : ℕ}

/-- A place in the table holds one header. -/
lemma headerRefs_inj (hh : (r, h) ∈ headerRefs sigs) (hh' : (r, h') ∈ headerRefs sigs) :
    h = h' := by
  obtain ⟨-, sig, hsig, hpat⟩ := mem_headerRefs.1 hh
  obtain ⟨-, sig', hsig', hpat'⟩ := mem_headerRefs.1 hh'
  obtain rfl := Option.some.inj (hsig.symm.trans hsig')
  exact Option.some.inj (hpat.symm.trans hpat')

/-- Every header of the table is there once. -/
lemma nodup_headerRefs (sigs : List SigDef) : (headerRefs sigs).Nodup := by
  have hplace : ∀ {sig : SigDef × ℕ} {pat : HeaderPat × ℕ} {x : HeaderRef × HeaderPat},
      (if pat.1.anchor.length < minAnchorLen then none else some (⟨sig.2, pat.2⟩, pat.1)) = some x →
        x.1 = ⟨sig.2, pat.2⟩ := fun {sig pat x} hx => by
    split at hx
    · cases hx
    · rw [← Option.some.inj hx]
  refine List.nodup_flatMap.2 ⟨fun sig _ => ?_, ?_⟩
  · refine List.pairwise_filterMap.2 ((pairwise_zipIdx _).imp fun hne x hx y hy hxy => hne ?_)
    have hplaces := (hplace hx).symm.trans ((congrArg Prod.fst hxy).trans (hplace hy))
    exact (HeaderRef.mk.inj hplaces).2
  · refine (pairwise_zipIdx sigs).imp fun hne => List.disjoint_left.2 fun x hx hy => hne ?_
    obtain ⟨pat, -, hx⟩ := List.mem_filterMap.1 hx
    obtain ⟨pat', -, hy⟩ := List.mem_filterMap.1 hy
    exact (HeaderRef.mk.inj ((hplace hx).symm.trans (hplace hy))).1

/-- Every anchor has one number. -/
lemma nodup_patterns (sigs : List SigDef) : (patterns sigs).Nodup := by
  have hstep : ∀ ps : List Bytes, ps.Nodup → ∀ h, (addPattern ps h).Nodup := fun ps hps h => by
    unfold addPattern
    split
    · exact hps
    · rename_i hnew
      exact hps.append (List.nodup_singleton _) (List.disjoint_singleton.2 hnew)
  unfold patterns
  generalize headerRefs sigs = l
  suffices hrun : ∀ ps : List Bytes, ps.Nodup →
    (l.foldl addPattern ps).Nodup from hrun [] List.nodup_nil
  induction l with
  | nil => exact fun _ h => h
  | cons h l ih => exact fun ps hps => ih _ (hstep ps hps h)

lemma patterns_inj {a : Bytes} (hpid : (patterns sigs)[pid]? = some a)
    (hpid' : (patterns sigs)[pid']? = some a) : pid = pid' := by
  obtain ⟨hlt, -⟩ := List.getElem?_eq_some_iff.1 hpid
  exact (List.getElem?_inj hlt (nodup_patterns sigs)).1 (hpid.trans hpid'.symm)

lemma mem_bucket : (r, h) ∈ bucket sigs pid ↔
    (r, h) ∈ headerRefs sigs ∧ (patterns sigs)[pid]? = some h.anchor := by
  rw [bucket, List.mem_filter, decide_eq_true_iff]

end Headers

/-! ## The candidates of an anchor -/

section Candidates

variable {ac : Automaton} {sigs : List SigDef} {base at' : ℕ} {buf : Bytes} {c : Candidate}
  {x : HeaderRef × HeaderPat}

/-- A candidate names its header and says where the anchor was. -/
lemma candidateAt_eq_some (hc : candidateAt base buf at' x = some c) :
    x.1 = ⟨c.sigIdx, c.headerIdx⟩ ∧ c.fileStart + x.2.offset + x.2.anchorPos = at' := by
  unfold candidateAt at hc
  dsimp only at hc
  split_ifs at hc with hpos hoff
  obtain rfl := Option.some.inj hc
  exact ⟨rfl, by dsimp only; omega⟩

/-- **A candidate is reported once.** -/
lemma nodup_scanBuffer (hac : ac.Once) : (scanBuffer ac sigs base buf).Nodup := by
  unfold scanBuffer
  refine List.nodup_flatMap.2 ⟨fun m _ => ?_, ?_⟩
  · -- one anchor: a header is in the bucket once
    have hbucket : (bucket sigs m.1).Nodup := (nodup_headerRefs sigs).filter _
    refine List.pairwise_filterMap.2
      (hbucket.pairwise_of_forall_ne fun x hx y hy hne c hc d hd hcd => hne ?_)
    obtain ⟨r, h⟩ := x
    obtain ⟨r', h'⟩ := y
    obtain ⟨rfl, -⟩ := candidateAt_eq_some hc
    obtain ⟨rfl, -⟩ := candidateAt_eq_some (hcd ▸ hd)
    rw [headerRefs_inj (mem_bucket.1 hx).1 (mem_bucket.1 hy).1]
  · -- two anchors: a candidate says which one it has, and where it was
    refine (hac _ _).pairwise_of_forall_ne fun m hm m' hm' hne =>
      List.disjoint_left.2 fun c hc hc' => hne ?_
    obtain ⟨⟨r, h⟩, hx, hc⟩ := List.mem_filterMap.1 hc
    obtain ⟨⟨r', h'⟩, hx', hc'⟩ := List.mem_filterMap.1 hc'
    obtain ⟨rfl, hpos⟩ := candidateAt_eq_some hc
    obtain ⟨rfl, hpos'⟩ := candidateAt_eq_some hc'
    obtain ⟨hmem, hpid⟩ := mem_bucket.1 hx
    obtain ⟨hmem', hpid'⟩ := mem_bucket.1 hx'
    obtain rfl := headerRefs_inj hmem hmem'
    exact Prod.ext (patterns_inj hpid hpid') (by omega)

end Candidates

/-! ## Windows -/

section Windows

variable {h : HeaderPat} {w buf a : Bytes} {base p i : ℕ}

/-- A window matches if it has the pattern's byte wherever the mask looks. -/
lemma HeaderPat.confirm_iff : h.confirm w = true ↔ h.bytes.length ≤ w.length ∧
    ∀ k < h.bytes.length, byteAt w k &&& byteAt h.mask k = byteAt h.bytes k &&& byteAt
      h.mask k := by
  unfold confirm
  split
  · exact iff_of_false Bool.false_ne_true fun hw => absurd hw.1 (by omega)
  · rename_i hlen
    have hzip : ((h.bytes.zip h.mask).zip w).length = h.bytes.length := by
      rw [List.length_zip, List.length_zip, h.mask_length, min_self]
      omega
    have hget : ∀ k, (hk : k < ((h.bytes.zip h.mask).zip w).length) →
        ((h.bytes.zip h.mask).zip w)[k] = ((byteAt h.bytes k, byteAt h.mask k), byteAt w k) :=
      fun k hk => by
        rw [hzip] at hk
        have hmask := h.mask_length
        rw [List.getElem_zip, List.getElem_zip, byteAt, byteAt, byteAt, List.getD_eq_getElem,
          List.getD_eq_getElem, List.getD_eq_getElem]
    rw [List.all_eq_true, List.forall_mem_iff_forall_getElem]
    refine ⟨fun hall => ⟨by omega, fun k hk => ?_⟩, fun hall k hk => ?_⟩
    · have hmatch := hall k (hzip ▸ hk)
      rw [hget k (hzip ▸ hk)] at hmatch
      exact eq_of_beq hmatch
    · rw [hget k hk]
      exact beq_iff_eq.2 (hall.2 k (hzip ▸ hk))

lemma occursAt_of_byteAt (hle : i + a.length ≤ buf.length)
    (hbytes : ∀ k < a.length, byteAt buf (i + k) = byteAt a k) : OccursAt a buf i := by
  apply ext_byteAt (by rw [List.length_take, List.length_drop]; omega)
  intro k hk
  rw [List.length_take] at hk
  have hk : k < a.length := lt_of_lt_of_le hk (min_le_left _ _)
  rw [byteAt_take, if_pos hk, byteAt_drop, hbytes k hk]

/-- The window of a header's pattern at `p` lies in the buffer. -/
def Whole (h : HeaderPat) (base : ℕ) (buf : Bytes) (p : ℕ) : Prop :=
  base ≤ p ∧ p + h.bytes.length ≤ base + buf.length

/-- The bytes of the buffer where a header's pattern at `p` would be. -/
def patternWindow (h : HeaderPat) (base : ℕ) (buf : Bytes) (p : ℕ) : Bytes :=
  (buf.drop (p - base)).take h.bytes.length

/-- A pattern that matches has its anchor where it should be. -/
lemma occursAt_anchor (hp : Whole h base buf p)
    (hw : h.confirm (patternWindow h base buf p) = true) :
    OccursAt h.anchor buf (p - base + h.anchorPos) := by
  obtain ⟨hbase, hend⟩ := hp
  obtain ⟨-, hbytes⟩ := HeaderPat.confirm_iff.1 hw
  have hanchor := h.anchor_le
  apply occursAt_of_byteAt (by omega)
  intro k hk
  have hmatch := hbytes (h.anchorPos + k) (by omega)
  have hones : (0xFF : UInt8) = -1 := rfl
  rw [patternWindow, byteAt_take, if_pos (by omega), byteAt_drop, h.literal k hk, h.spelled k hk,
    hones, UInt8.and_neg_one, UInt8.and_neg_one] at hmatch
  rw [Nat.add_assoc, hmatch]

end Windows

/-! ## The scan -/

namespace Matcher

/-- `scan_buffer`: the candidates in a buffer whose first byte is at `base`. -/
def scanBuffer (ac : Automaton) (sigs : List SigDef) (base : ℕ) (buf : Bytes) : List Candidate :=
  (ac.findOverlapping (patterns sigs) buf).flatMap fun m =>
    (bucket sigs m.1).filterMap (candidateAt base buf (saturatingAdd base m.2))

section Scan

variable {ac : Automaton} {sigs : List SigDef} {base : ℕ} {buf : Bytes}

/-- Where every byte of the buffer has an offset, no offset is cut. -/
lemma scanBuffer_eq (hfits : base + buf.length ≤ u64Max + 1) :
    scanBuffer ac sigs base buf = Reclaim.scanBuffer ac sigs base buf := by
  apply List.flatMap_congr
  intro m hm
  obtain ⟨a, -, hne, hocc⟩ := (ac.mem_iff _ _ m.1 m.2).1 hm
  have hlt : m.2 < buf.length := by
    by_contra hle
    rw [OccursAt, List.drop_eq_nil_of_le (not_lt.1 hle), List.take_nil] at hocc
    exact hne hocc.symm
  rw [saturatingAdd, min_eq_left (by omega)]

/-- The scan reports a header with its pattern at `p`. -/
def Reports (ac : Automaton) (sigs : List SigDef) (base : ℕ) (buf : Bytes) (r : HeaderRef)
    (h : HeaderPat) (p : ℕ) : Prop :=
  ∃ c ∈ scanBuffer ac sigs base buf,
    c.sigIdx = r.sigIdx ∧ c.headerIdx = r.headerIdx ∧ c.fileStart + h.offset = p

lemma reports_iff (hfits : base + buf.length ≤ u64Max + 1) {r : HeaderRef} {h : HeaderPat}
    (hh : (r, h) ∈ headerRefs sigs) {p : ℕ} : Reports ac sigs base buf r h p ↔
      h.offset ≤ p ∧ (∃ i, p + h.anchorPos = base + i ∧ OccursAt h.anchor buf i) ∧
        (Whole h base buf p → h.confirm (patternWindow h base buf p) = true) := by
  unfold Reports
  rw [scanBuffer_eq hfits]
  constructor
  · rintro ⟨⟨si, hi, start⟩, hc, rfl, rfl, rfl⟩
    obtain ⟨h', i, hh', hocc, hpos, hconfirm⟩ := mem_scanBuffer.1 hc
    obtain rfl := headerRefs_inj hh hh'
    dsimp only at hpos hconfirm ⊢
    exact ⟨by omega, ⟨i, hpos, hocc⟩, fun ⟨hbase, hend⟩ => hconfirm hbase (by omega)⟩
  · rintro ⟨hoff, ⟨i, hpos, hocc⟩, hconfirm⟩
    have hp : p - h.offset + h.offset = p := Nat.sub_add_cancel hoff
    refine ⟨⟨r.sigIdx, r.headerIdx, p - h.offset⟩, mem_scanBuffer.2 ⟨h, i, hh, hocc, ?_, ?_⟩,
      rfl, rfl, hp⟩
    · exact hp.symm ▸ hpos
    · dsimp only
      rw [hp]
      exact fun hbase hlen => hconfirm ⟨hbase, by omega⟩

/-- **A scan reports what there is.**  Nothing is reported twice; a header whose pattern would lie
in the buffer is reported where the pattern matches, one whose pattern the edge cuts where its
anchor is found, both only where the file does not begin before the source. -/
theorem scan_exact (hac : ac.Once) (hfits : base + buf.length ≤ u64Max + 1) :
    (scanBuffer ac sigs base buf).Nodup ∧
    ∀ r sig h, sigs[r.sigIdx]? = some sig → sig.headers[r.headerIdx]? = some h →
      minAnchorLen ≤ h.anchor.length → ∀ p,
        (Whole h base buf p → (Reports ac sigs base buf r h p ↔
          h.confirm (patternWindow h base buf p) = true ∧ h.offset ≤ p)) ∧
        (¬ Whole h base buf p → (Reports ac sigs base buf r h p ↔
          (∃ i, p + h.anchorPos = base + i ∧ OccursAt h.anchor buf i) ∧ h.offset ≤ p)) := by
  refine ⟨scanBuffer_eq hfits ▸ nodup_scanBuffer hac, fun r sig h hsig hpat hlen p => ?_⟩
  rw [reports_iff hfits (mem_headerRefs.2 ⟨hlen, sig, hsig, hpat⟩)]
  constructor
  · intro hw
    refine ⟨fun ⟨hoff, _, hconfirm⟩ => ⟨hconfirm hw, hoff⟩, fun ⟨hconfirm, hoff⟩ =>
      ⟨hoff, ⟨p - base + h.anchorPos, ?_, occursAt_anchor hw hconfirm⟩, fun _ => hconfirm⟩⟩
    have hbase := hw.1
    omega
  · intro hw
    exact ⟨fun h => ⟨h.2.1, h.1⟩, fun h => ⟨h.2, h.1, fun hwhole => absurd hwhole hw⟩⟩

/-- A signature whose pattern is two bytes at the second position. -/
def pairSig : SigDef where
  id := "test.pair"
  family := "test"
  extensions := ["bin"]
  headers := [.exact 1 [1, 2]]
  footer := none
  minSize := 0
  strategy := .fixed
  validator := none
  blockAligned := false
  footerAnchored := false

theorem scan_exact_pair : (scanBuffer .naive [pairSig] 5 [1, 2, 1, 2, 1]).Nodup ∧
    (Reports .naive [pairSig] 5 [1, 2, 1, 2, 1] ⟨0, 0⟩ (.exact 1 [1, 2]) 7 ↔
      (HeaderPat.exact 1 [1, 2]).confirm
        (patternWindow (.exact 1 [1, 2]) 5 [1, 2, 1, 2, 1] 7) = true ∧ 1 ≤ 7) := by
  obtain ⟨hnodup, hreports⟩ :=
    @scan_exact .naive [pairSig] 5 [1, 2, 1, 2, 1] Automaton.once_naive (by decide)
  exact ⟨hnodup, (hreports ⟨0, 0⟩ pairSig _ rfl rfl (by decide) 7).1 ⟨by decide, by decide⟩⟩

/-- Behind the last offset two places in the buffer are one. -/
theorem lastOffset_counterexample :
    ¬ (scanBuffer .naive [pairSig] u64Max [1, 2, 1, 2]).Nodup := by
  decide

end Scan

end Matcher
end Reclaim
