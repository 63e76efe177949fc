import Reclaim.Fs.ExtMap

/-!
# The classic block map of ext volumes

Twelve pointers and three trees of pointer blocks, of one, two and three levels; a pointer of zero
is a hole, of as many blocks as what it would point to.  The engine does not count the blocks of a
hole above the last level, so the logical numbers it collects are too small behind one; they still
increase, and the sort leaves the blocks in the order in which they were found.
-/

namespace Reclaim
namespace Ext

open FileBytes FileMap

/-- The blocks that `n` pointers name, the first for the logical block `start`. -/
def pointerMap (data : Bytes) (start n : ℕ) : List MappedBlock :=
  (List.range n).filterMap fun i =>
    if pointer data i = 0 then none else some ⟨start + i, pointer data i, true⟩

variable (read : ℕ → ℕ → Bytes) (sb : Superblock)

/-- The pointer blocks of a tree of `level` levels whose first block is `start`, in preorder, each
with the blocks it names. -/
def pointerNodes : ℕ → ℕ → ℕ → List (List MappedBlock)
  | 0, _, _ => []
  | level + 1, start, p =>
    if p = 0 then []
    else
      let data := read (p * sb.blockSize) sb.blockSize
      if level = 0 then [pointerMap data start (sb.blockSize / 4)]
      else
        [] :: (List.range (sb.blockSize / 4)).flatMap fun i =>
          pointerNodes level (start + i * (sb.blockSize / 4) ^ level) (pointer data i)

/-- The pointer blocks of a file. -/
def classicNodes (iBlock : Bytes) : List (List MappedBlock) :=
  let n := sb.blockSize / 4
  pointerNodes read sb 1 12 (pointer iBlock 12) ++
    pointerNodes read sb 2 (12 + n) (pointer iBlock 13) ++
      pointerNodes read sb 3 (12 + n + n ^ 2) (pointer iBlock 14)

variable {read sb}

/-! ## The map is in logical order -/

/-- The blocks increase, from `a` up to `b`. -/
def Within (a b : ℕ) (l : List MappedBlock) : Prop :=
  Increasing l ∧ ∀ x ∈ l, a ≤ x.logical ∧ x.logical < b

lemma Within.append {a b c : ℕ} {l l' : List MappedBlock} (h : Within a b l) (h' : Within b c l')
    (hab : a ≤ b) (hbc : b ≤ c) : Within a c (l ++ l') := by
  refine ⟨List.pairwise_append.2 ⟨h.1, h'.1, fun x hx y hy => ?_⟩, fun x hx => ?_⟩
  · have := (h.2 x hx).2
    have := (h'.2 y hy).1
    omega
  · rcases List.mem_append.1 hx with hx | hx
    · have := h.2 x hx
      omega
    · have := h'.2 x hx
      omega

lemma within_nil (a b : ℕ) : Within a b [] := ⟨List.Pairwise.nil, fun _ h => absurd h (by simp)⟩

/-- Windows of one width, one behind the other. -/
lemma within_flatMap_range {f : ℕ → List MappedBlock} {a w : ℕ} (n : ℕ)
    (hf : ∀ i < n, Within (a + i * w) (a + (i + 1) * w) (f i)) :
    Within a (a + n * w) ((List.range n).flatMap f) := by
  induction n with
  | zero => exact within_nil ..
  | succ n ih =>
    rw [List.range_succ, List.flatMap_append]
    refine (ih fun i hi => hf i (by omega)).append ?_ (by omega) ?_
    · simpa using hf n (by omega)
    · exact Nat.add_le_add_left (Nat.mul_le_mul_right _ (by omega)) _

lemma pointerMap_eq_flatMap (data : Bytes) (start n : ℕ) :
    pointerMap data start n = (List.range n).flatMap fun i =>
      if pointer data i = 0 then [] else [⟨start + i, pointer data i, true⟩] := by
  unfold pointerMap
  rw [List.filterMap_eq_flatMap_toList]
  congr 1
  funext i
  split <;> rfl

lemma within_pointerMap (data : Bytes) (start n : ℕ) :
    Within start (start + n) (pointerMap data start n) := by
  have := within_flatMap_range (a := start) (w := 1) n
    (f := fun i => if pointer data i = 0 then [] else [⟨start + i, pointer data i, true⟩])
    fun i _ => by
      split
      · exact within_nil ..
      · exact ⟨List.pairwise_singleton .., fun x hx => by
          rw [List.mem_singleton.1 hx]
          show start + i * 1 ≤ start + i ∧ start + i < start + (i + 1) * 1
          omega⟩
  rw [pointerMap_eq_flatMap]
  simpa using this

lemma flatten_flatMap {α ι : Type} (l : List ι) (N : ι → List (List α)) :
    (l.flatMap N).flatten = l.flatMap fun i => (N i).flatten := by
  induction l with
  | nil => rfl
  | cons i l ih => simp [ih]

variable (read sb) in
lemma within_pointerNodes (level : ℕ) :
    ∀ start p, Within start (start + (sb.blockSize / 4) ^ (level + 1))
      (pointerNodes read sb (level + 1) start p).flatten := by
  induction level with
  | zero =>
    intro start p
    rw [pointerNodes]
    split
    · exact within_nil ..
    · simpa using within_pointerMap ..
  | succ level ih =>
    intro start p
    rw [pointerNodes]
    split
    · exact within_nil ..
    · simp only [Nat.succ_ne_zero, if_false, List.flatten_cons, List.nil_append, flatten_flatMap]
      rw [Nat.pow_succ' (n := level + 1)]
      apply within_flatMap_range _
      intro i _
      rw [Nat.succ_mul, ← Nat.add_assoc]
      exact ih ..

/-- The classic map lists the blocks in logical order. -/
lemma increasing_classic (iBlock : Bytes) :
    Increasing (pointerMap iBlock 0 12 ++ (classicNodes read sb iBlock).flatten) := by
  unfold classicNodes
  simp only [List.flatten_append]
  have h0 := within_pointerMap iBlock 0 12
  have h1 := within_pointerNodes read sb 0 12 (pointer iBlock 12)
  have h2 := within_pointerNodes read sb 1 (12 + sb.blockSize / 4)
    (pointer iBlock 13)
  have h3 := within_pointerNodes read sb 2
    (12 + sb.blockSize / 4 + (sb.blockSize / 4) ^ 2) (pointer iBlock 14)
  simp only [Nat.zero_add, Nat.pow_one, Nat.reduceAdd] at h0 h1 h2 h3
  exact (h0.append ((h1.append h2 (by omega) (by omega)).append h3 (by omega) (by omega))
    (by omega) (by omega)).1

/-! ## What is collected -/

/-- The blocks of the nodes, without their places. -/
def phys (N : List (List MappedBlock)) : List (List ℕ) := N.map (List.map MappedBlock.phys)

/-- The walk visits the nodes `N`. -/
def Walk.Visits (w : Walk) (N : List (List MappedBlock)) (w' : Walk) : Prop :=
  Ext.Visits w.budget (w.out.map Prod.snd) (phys N) w'.budget (w'.out.map Prod.snd)

lemma phys_append (N N' : List (List MappedBlock)) : phys (N ++ N') = phys N ++ phys N' :=
  List.map_append

lemma Walk.Visits.length_le {w w' : Walk} {N : List (List MappedBlock)} (h : w.Visits N w') :
    w'.out.length ≤ maxFileBlocks + 1 := by
  simpa using Ext.Visits.length_le h

lemma Walk.Visits.append {w w' w'' : Walk} {N N' : List (List MappedBlock)} (h : w.Visits N w')
    (h' : w'.Visits N' w'') : w.Visits (N ++ N') w'' := by
  unfold Walk.Visits
  rw [phys_append]
  exact Ext.Visits.append h h'

/-- A walk that stays where it is, since there are too many blocks or no budget. -/
lemma Walk.visits_of_capped {w : Walk} {N : List (List MappedBlock)}
    (hw : w.out.length ≤ maxFileBlocks + 1) (h : maxFileBlocks < w.out.length ∨ w.budget = 0) :
    w.Visits N w := by
  unfold Walk.Visits
  rcases h with h | h
  · exact Ext.Visits.full (by simp; omega)
  · rw [h]
    exact Ext.Visits.exhausted (by simpa using hw)

/-- A loop that may stop when there are too many blocks. -/
lemma Walk.visits_untilFull {f : ℕ → Walk → Walk} {N : ℕ → List (List MappedBlock)} (l : List ℕ)
    (hf : ∀ i ∈ l, ∀ w : Walk, w.out.length ≤ maxFileBlocks + 1 → w.Visits (N i) (f i w)) :
    ∀ w : Walk, w.out.length ≤ maxFileBlocks + 1 → w.Visits (l.flatMap N) (untilFull f l w) := by
  induction l with
  | nil => exact fun w hw => Ext.Visits.nil (by simpa using hw)
  | cons i l ih =>
    intro w hw
    have hstep := hf i List.mem_cons_self w hw
    rw [List.flatMap_cons, untilFull]
    split
    · exact hstep.append (Walk.visits_of_capped hstep.length_le (Or.inl ‹_›))
    · exact hstep.append (ih (fun j hj => hf j (List.mem_cons_of_mem _ hj)) _ hstep.length_le)

/-- The blocks that a list of pointers adds. -/
def pushed (data : Bytes) (l : List ℕ) : List ℕ := (l.map (pointer data)).filter (· ≠ 0)

lemma pushed_cons (data : Bytes) (i : ℕ) (l : List ℕ) :
    pushed data (i :: l) = (if pointer data i ≠ 0 then [pointer data i] else []) ++
      pushed data l := by
  unfold pushed
  rw [List.map_cons, List.filter_cons]
  by_cases h : pointer data i = 0 <;> simp [h]

lemma map_snd_pushDataBlock (p : ℕ) (w : Walk) :
    (pushDataBlock p w).out.map Prod.snd = w.out.map Prod.snd ++ if p ≠ 0 then [p] else [] := by
  unfold pushDataBlock
  split <;> simp

lemma map_phys_pointerMap (data : Bytes) (start n : ℕ) :
    (pointerMap data start n).map MappedBlock.phys = pushed data (List.range n) := by
  rw [pointerMap_eq_flatMap, List.map_flatMap]
  unfold pushed
  generalize List.range n = l
  induction l with
  | nil => rfl
  | cons i l ih =>
    rw [List.flatMap_cons, ih, List.map_cons, List.filter_cons]
    by_cases h : pointer data i = 0 <;> simp [h]

/-- The pointers of one block. -/
lemma untilFull_pushDataBlock (data : Bytes) (l : List ℕ) :
    ∀ w : Walk, w.out.length ≤ maxFileBlocks →
      (untilFull (fun i w => pushDataBlock (pointer data i) w) l w).budget = w.budget ∧
        (untilFull (fun i w => pushDataBlock (pointer data i) w) l w).out.map Prod.snd =
          (w.out.map Prod.snd ++ pushed data l).take (maxFileBlocks + 1) := by
  induction l with
  | nil =>
    intro w hw
    refine ⟨rfl, ?_⟩
    simp only [untilFull, pushed, List.map_nil, List.filter_nil, List.append_nil]
    rw [List.take_of_length_le (by simp; omega)]
  | cons i l ih =>
    intro w hw
    have hout := map_snd_pushDataBlock (pointer data i) w
    have hlen : (pushDataBlock (pointer data i) w).out.length ≤ w.out.length + 1 := by
      have := congrArg List.length hout
      rw [List.length_append, List.length_map, List.length_map] at this
      split at this <;> simp at this <;> omega
    rw [untilFull, pushed_cons, ← List.append_assoc, ← hout]
    split
    · refine ⟨rfl, ?_⟩
      rw [List.take_append_of_le_length (by simp; omega),
        List.take_of_length_le (by simp; omega)]
    · exact ih _ (by omega)

variable (read sb) in
/-- A tree of pointer blocks is collected block by block. -/
theorem visits_walkIndirect (level : ℕ) :
    ∀ start p, p < 2 ^ 32 → ∀ w : Walk, w.out.length ≤ maxFileBlocks + 1 →
      w.Visits (pointerNodes read sb level start p) (walkIndirect read sb level p w) := by
  induction level with
  | zero =>
    intro start p _ w hw
    exact Ext.Visits.nil (by simpa using hw)
  | succ level ih =>
    intro start p hp w hw
    rw [pointerNodes, walkIndirect]
    by_cases h0 : p = 0
    · rw [if_pos h0, if_pos (Or.inl h0)]
      exact Ext.Visits.nil (by simpa using hw)
    by_cases hcap : maxFileBlocks < w.out.length ∨ w.budget = 0
    · rw [if_neg h0, if_pos (Or.inr hcap)]
      exact Walk.visits_of_capped hw hcap
    have hcaps : ¬ (p = 0 ∨ maxFileBlocks < w.out.length ∨ w.budget = 0) := by tauto
    have hsat : saturatingMul p sb.blockSize = p * sb.blockSize :=
      saturatingMul_of_le (mul_blockSize_le sb (by omega))
    rw [if_neg h0, if_neg hcaps]
    rw [not_or, not_lt] at hcap
    simp only [hsat]
    set data := read (p * sb.blockSize) sb.blockSize
    rcases Nat.eq_zero_or_pos level with rfl | hlevel
    · simp only [if_true]
      obtain ⟨hbud, hout⟩ := untilFull_pushDataBlock data (List.range (sb.blockSize / 4))
        { w with budget := w.budget - 1 } hcap.1
      unfold Walk.Visits
      rw [hbud, hout]
      refine ⟨?_, fun _ => rfl⟩
      have htake : ∀ l : List ℕ, [l].take w.budget = [l] := fun l =>
        List.take_of_length_le (by rw [List.length_singleton]; omega)
      simp only [phys, List.map_cons, List.map_nil, map_phys_pointerMap, htake,
        List.flatten_singleton]
    · simp only [Nat.ne_of_gt hlevel, if_false]
      have hloop := Walk.visits_untilFull (List.range (sb.blockSize / 4))
        (fun i _ w' hw' => ih (start + i * (sb.blockSize / 4) ^ level) (pointer data i)
          (leU32_lt ..) w' hw') { w with budget := w.budget - 1 } hw
      exact Ext.Visits.cons_nil hcap.2 hloop

/-! ## The collected numbers increase -/

/-- The logical numbers of the collected blocks increase and are below the next. -/
structure Walk.Labelled (w : Walk) : Prop where
  increasing : w.out.Pairwise fun a b => a.1 < b.1
  below : ∀ b ∈ w.out, b.1 < w.logical

lemma labelled_pushDataBlock {w : Walk} (hw : w.Labelled) (p : ℕ) :
    (pushDataBlock p w).Labelled := by
  unfold pushDataBlock
  split
  · refine ⟨List.pairwise_append.2 ⟨hw.increasing, List.pairwise_singleton .., ?_⟩, ?_⟩
    · intro a ha b hb
      rw [List.mem_singleton.1 hb]
      exact hw.below a ha
    · intro b hb
      rcases List.mem_append.1 hb with hb | hb
      · exact (hw.below b hb).trans (Nat.lt_succ_self _)
      · rw [List.mem_singleton.1 hb]
        exact Nat.lt_succ_self _
  · exact ⟨hw.increasing, fun b hb => (hw.below b hb).trans (Nat.lt_succ_self _)⟩

lemma labelled_untilFull {f : ℕ → Walk → Walk} (hf : ∀ i w, w.Labelled → (f i w).Labelled)
    (l : List ℕ) : ∀ w : Walk, w.Labelled → (untilFull f l w).Labelled := by
  induction l with
  | nil => exact fun _ h => h
  | cons i l ih =>
    intro w hw
    rw [untilFull]
    split
    · exact hf i w hw
    · exact ih _ (hf i w hw)

lemma labelled_walkIndirect (level : ℕ) :
    ∀ p, ∀ w : Walk, w.Labelled → (walkIndirect read sb level p w).Labelled := by
  induction level with
  | zero => exact fun _ _ h => h
  | succ level ih =>
    intro p w hw
    rw [walkIndirect]
    split
    · exact hw
    · refine labelled_untilFull (fun i w' hw' => ?_) _ _ ⟨hw.increasing, hw.below⟩
      split
      · exact labelled_pushDataBlock hw' _
      · exact ih _ _ hw'

lemma foldl_pushDataBlock (iBlock : Bytes) (l : List ℕ) :
    ∀ w : Walk, (l.foldl (fun w i => pushDataBlock (pointer iBlock i) w) w).budget = w.budget ∧
      (l.foldl (fun w i => pushDataBlock (pointer iBlock i) w) w).out.map Prod.snd =
        w.out.map Prod.snd ++ pushed iBlock l := by
  induction l with
  | nil => exact fun w => ⟨rfl, (List.append_nil _).symm⟩
  | cons i l ih =>
    intro w
    obtain ⟨hbud, hout⟩ := ih (pushDataBlock (pointer iBlock i) w)
    rw [List.foldl_cons, hbud, hout, map_snd_pushDataBlock, pushed_cons, List.append_assoc]
    exact ⟨rfl, rfl⟩

lemma labelled_foldl_pushDataBlock (iBlock : Bytes) (l : List ℕ) :
    ∀ w : Walk, w.Labelled →
      (l.foldl (fun w i => pushDataBlock (pointer iBlock i) w) w).Labelled := by
  induction l with
  | nil => exact fun _ h => h
  | cons i l ih => exact fun w hw => ih _ (labelled_pushDataBlock hw _)

/-- The classic map is collected in the order of the map, up to the caps. -/
theorem collectClassic_spec (iBlock : Bytes) (budget : ℕ) :
    (collectClassic read sb iBlock budget).map Prod.snd =
        (((pointerMap iBlock 0 12 ++ ((classicNodes read sb iBlock).take budget).flatten).take
          (maxFileBlocks + 1)).map MappedBlock.phys) ∧
      (collectClassic read sb iBlock budget).Pairwise fun a b => a.1 < b.1 := by
  set direct := (List.range 12).foldl (fun w i => pushDataBlock (pointer iBlock i) w)
    (⟨⟨budget, []⟩, 0⟩ : Walk) with hdirect
  have hlab : direct.Labelled := labelled_foldl_pushDataBlock iBlock _ _
    ⟨List.Pairwise.nil, fun _ h => absurd h (by simp)⟩
  obtain ⟨hbud, hout⟩ := foldl_pushDataBlock iBlock (List.range 12) ⟨⟨budget, []⟩, 0⟩
  rw [← hdirect] at hbud hout
  have hlen : direct.out.length ≤ maxFileBlocks + 1 := by
    have := congrArg List.length hout
    have hle : (pushed iBlock (List.range 12)).length ≤ 12 := by
      unfold pushed
      exact (List.length_filter_le ..).trans (by simp)
    simp only [List.length_map, List.map_nil, List.nil_append] at this
    unfold maxFileBlocks
    omega
  have h1 := visits_walkIndirect read sb 1 12 (pointer iBlock 12) (leU32_lt ..)
    direct hlen
  have h2 := visits_walkIndirect read sb 2 (12 + sb.blockSize / 4)
    (pointer iBlock 13) (leU32_lt ..) _ h1.length_le
  have h3 := visits_walkIndirect read sb 3
    (12 + sb.blockSize / 4 + (sb.blockSize / 4) ^ 2) (pointer iBlock 14) (leU32_lt ..) _
    h2.length_le
  have hall := ((h1.append h2).append h3).out
  refine ⟨?_, ?_⟩
  · show (walkIndirect read sb 3 (pointer iBlock 14) _).out.map Prod.snd = _
    rw [hall, hbud, hout, List.map_take, List.map_append, map_phys_pointerMap]
    simp only [List.map_nil, List.nil_append, phys, ← List.map_take, List.map_flatten]
    rfl
  · exact (labelled_walkIndirect 3 _ _ (labelled_walkIndirect 2 _ _
      (labelled_walkIndirect 1 _ _ hlab))).increasing

end Ext
end Reclaim
