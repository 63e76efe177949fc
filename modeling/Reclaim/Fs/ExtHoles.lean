import Reclaim.Foundation.Fields
import Reclaim.Fs.ExtContent

/-!
# Where the classic map of ext places its blocks

The walk along the pointers is a run over a list of steps: pointer blocks of one level, those above
them, and the holes that zero pointers to them leave.  The engine counts the blocks of the first
kind only, so behind a hole of the last kind its logical numbers are too small by the hole's width.
-/

namespace Reclaim
namespace Ext

open FileBytes FileMap

/-- A step of the walk along the pointers. -/
inductive MapStep where
  /-- A pointer of zero, for `width` blocks. -/
  | hole (width : ℕ)
  /-- A block of pointers to pointer blocks. -/
  | node
  /-- A block of pointers to the file's blocks. -/
  | leaf (data : Bytes)

section Steps

variable (read : ℕ → ℕ → Bytes) (sb : Superblock)

/-- The steps of a tree of pointer blocks of `level` levels. -/
def steps : ℕ → ℕ → List MapStep
  | 0, _ => []
  | level + 1, p =>
    if p = 0 then [.hole ((sb.blockSize / 4) ^ (level + 1))]
    else
      let data := read (p * sb.blockSize) sb.blockSize
      if level = 0 then [.leaf data]
      else .node :: (List.range (sb.blockSize / 4)).flatMap fun i => steps level (pointer data i)

/-- The steps of a file behind its direct pointers. -/
def classicSteps (iBlock : Bytes) : List MapStep :=
  steps read sb 1 (pointer iBlock 12) ++ (steps read sb 2 (pointer iBlock 13) ++
    steps read sb 3 (pointer iBlock 14))

end Steps

/-- How many blocks of the file the steps are for, with `n` pointers in a block. -/
def width (n : ℕ) : List MapStep → ℕ
  | [] => 0
  | .hole w :: S => w + width n S
  | .node :: S => width n S
  | .leaf _ :: S => n + width n S

/-- How many of them are in holes. -/
def lost : List MapStep → ℕ
  | [] => 0
  | .hole w :: S => w + lost S
  | .node :: S => lost S
  | .leaf _ :: S => lost S

/-- Where the holes begin, if the first step is for block `start`. -/
def holeStarts (n : ℕ) : ℕ → List MapStep → List ℕ
  | _, [] => []
  | start, .hole w :: S => start :: holeStarts n (start + w) S
  | start, .node :: S => holeStarts n start S
  | start, .leaf _ :: S => holeStarts n (start + n) S

/-- The blocks of each pointer block, each with how many blocks of holes precede it, `d` of them
before the steps. -/
def laidOut (n : ℕ) : ℕ → ℕ → List MapStep → List (List (MappedBlock × ℕ))
  | _, _, [] => []
  | start, d, .hole w :: S => laidOut n (start + w) (d + w) S
  | start, d, .node :: S => [] :: laidOut n start d S
  | start, d, .leaf data :: S =>
    (pointerMap data start n).map (·, d) :: laidOut n (start + n) d S

section Layout

variable {n : ℕ}

lemma width_append (S T : List MapStep) : width n (S ++ T) = width n S + width n T := by
  induction S with
  | nil => exact (Nat.zero_add _).symm
  | cons s S ih =>
    cases s with
    | hole w => rw [List.cons_append, width, width, ih, Nat.add_assoc]
    | node => rw [List.cons_append, width, width, ih]
    | leaf data => rw [List.cons_append, width, width, ih, Nat.add_assoc]

lemma laidOut_append (S T : List MapStep) : ∀ start d,
    laidOut n start d (S ++ T) = laidOut n start d S ++
      laidOut n (start + width n S) (d + lost S) T := by
  induction S with
  | nil => exact fun _ _ => rfl
  | cons s S ih =>
    intro start d
    cases s with
    | hole w =>
      rw [List.cons_append, laidOut, laidOut, ih, width, lost, Nat.add_assoc, Nat.add_assoc]
    | node => rw [List.cons_append, laidOut, laidOut, ih, width, lost, List.cons_append]
    | leaf data =>
      rw [List.cons_append, laidOut, laidOut, ih, width, lost, List.cons_append, Nat.add_assoc]

/-- The blocks and their places do not depend on what was lost before. -/
lemma map_fst_laidOut (S : List MapStep) : ∀ start d,
    (laidOut n start d S).map (List.map Prod.fst) =
      (laidOut n start 0 S).map (List.map Prod.fst) := by
  induction S with
  | nil => exact fun _ _ => rfl
  | cons s S ih =>
    intro start d
    cases s with
    | hole w => rw [laidOut, laidOut, ih, ih (start + w) (0 + w)]
    | node => rw [laidOut, laidOut, List.map_cons, List.map_cons, ih]
    | leaf data =>
      have hsame : ∀ d : ℕ, ((pointerMap data start n).map (·, d)).map Prod.fst =
          pointerMap data start n := by
        intro d
        rw [List.map_map]
        exact List.map_id _
      rw [laidOut, laidOut, List.map_cons, List.map_cons, ih, hsame, hsame]

/-- Lists of steps of one width, one behind the other. -/
lemma width_flatMap {f : ℕ → List MapStep} {w : ℕ} (hf : ∀ i, width n (f i) = w) (k : ℕ) :
    width n ((List.range k).flatMap f) = k * w := by
  induction k with
  | zero => exact (Nat.zero_mul _).symm
  | succ k ih =>
    rw [List.range_succ, List.flatMap_append, width_append, ih, List.flatMap_singleton, hf,
      Nat.succ_mul]

lemma blocks_flatMap {f : ℕ → List MapStep} {w start : ℕ} (hf : ∀ i, width n (f i) = w) (k d : ℕ) :
    (laidOut n start d ((List.range k).flatMap f)).map (List.map Prod.fst) =
      (List.range k).flatMap fun i =>
        (laidOut n (start + i * w) 0 (f i)).map (List.map Prod.fst) := by
  induction k with
  | zero => rfl
  | succ k ih =>
    rw [List.range_succ, List.flatMap_append, laidOut_append, List.map_append, ih,
      List.flatMap_append, List.flatMap_singleton, List.flatMap_singleton, width_flatMap hf,
      map_fst_laidOut (f k)]

variable (read : ℕ → ℕ → Bytes) (sb : Superblock)

lemma width_steps (level : ℕ) : ∀ p,
    width (sb.blockSize / 4) (steps read sb (level + 1) p) = (sb.blockSize / 4) ^ (level + 1) := by
  induction level with
  | zero =>
    intro p
    rw [steps]
    split
    · exact Nat.add_zero _
    · simp [width]
  | succ level ih =>
    intro p
    rw [steps]
    split
    · exact Nat.add_zero _
    · dsimp only
      rw [if_neg (Nat.succ_ne_zero level), width, width_flatMap (fun i => ih _), ← Nat.pow_succ']

/-- **The steps are those of the map**: their blocks are those of the pointer blocks. -/
lemma pointerNodes_eq (level : ℕ) : ∀ start p d,
    pointerNodes read sb (level + 1) start p =
      (laidOut (sb.blockSize / 4) start d (steps read sb (level + 1) p)).map
        (List.map Prod.fst) := by
  induction level with
  | zero =>
    intro start p d
    rw [pointerNodes, steps]
    split
    · rfl
    · dsimp only
      rw [if_pos rfl, if_pos rfl, laidOut, laidOut, List.map_singleton, List.map_map]
      exact congrArg (fun l => [l]) (List.map_id _).symm
  | succ level ih =>
    intro start p d
    rw [pointerNodes, steps]
    split
    · rfl
    · dsimp only
      rw [if_neg (Nat.succ_ne_zero level), if_neg (Nat.succ_ne_zero level), laidOut, List.map_cons,
        blocks_flatMap fun i => width_steps read sb level _]
      congr 2
      funext i
      exact ih _ _ 0

lemma classicNodes_eq (iBlock : Bytes) :
    classicNodes read sb iBlock =
      (laidOut (sb.blockSize / 4) 12 0 (classicSteps read sb iBlock)).map (List.map Prod.fst) := by
  unfold classicNodes classicSteps
  dsimp only
  rw [laidOut_append, laidOut_append, List.map_append, List.map_append, width_steps, width_steps,
    ← pointerNodes_eq, ← pointerNodes_eq, ← pointerNodes_eq, Nat.pow_one, List.append_assoc]

end Layout

/-! ## The walk as a run -/

/-- The walk takes no block up any more. -/
def Walk.Capped (w : Walk) : Prop := maxFileBlocks < w.out.length ∨ w.budget = 0

instance (w : Walk) : Decidable w.Capped := inferInstanceAs (Decidable (_ ∨ _))

/-- The pointers of one pointer block. -/
def pushPointers (n : ℕ) (data : Bytes) (w : Walk) : Walk :=
  untilFull (fun i w => pushDataBlock (pointer data i) w) (List.range n)
    { w with budget := w.budget - 1 }

/-- What the walk does with one step. -/
def runStep (n : ℕ) (w : Walk) : MapStep → Walk
  | .hole _ => w
  | .node => if w.Capped then w else { w with budget := w.budget - 1 }
  | .leaf data => if w.Capped then w else pushPointers n data w

section Run

variable {n : ℕ}

lemma foldl_runStep_of_capped {w : Walk} (h : w.Capped) (S : List MapStep) :
    S.foldl (runStep n) w = w := by
  induction S with
  | nil => rfl
  | cons s S ih =>
    have hstep : runStep n w s = w := by
      cases s with
      | hole width => rfl
      | node => exact if_pos h
      | leaf data => exact if_pos h
    rw [List.foldl_cons, hstep, ih]

/-- A loop that may stop when there are too many blocks, of a body that then does nothing. -/
lemma untilFull_eq_foldl {f : ℕ → Walk → Walk}
    (hf : ∀ i w, maxFileBlocks < w.out.length → f i w = w) (l : List ℕ) :
    ∀ w, untilFull f l w = l.foldl (fun w i => f i w) w := by
  induction l with
  | nil => exact fun _ => rfl
  | cons i l ih =>
    intro w
    rw [untilFull, List.foldl_cons]
    split
    · rename_i hfull
      have hstay : l.foldl (fun w i => f i w) (f i w) = f i w := by
        clear ih
        induction l with
        | nil => rfl
        | cons j l ihl => rw [List.foldl_cons, hf j _ hfull, ihl]
      exact hstay.symm
    · exact ih _

variable (read : ℕ → ℕ → Bytes) (sb : Superblock)

variable {sb} in
lemma walkIndirect_stay {level p : ℕ} {w : Walk} (h : p = 0 ∨ w.Capped) :
    walkIndirect read sb (level + 1) p w = w := by
  rw [walkIndirect]
  exact if_pos h

variable {sb} in
lemma walkIndirect_go {level p : ℕ} {w : Walk} (hp : p < 2 ^ 32) (h0 : p ≠ 0) (h : ¬ w.Capped) :
    walkIndirect read sb (level + 1) p w =
      untilFull
        (fun i w =>
          if level = 0 then pushDataBlock (pointer (read (p * sb.blockSize) sb.blockSize) i) w
          else walkIndirect read sb level (pointer (read (p * sb.blockSize) sb.blockSize) i) w)
        (List.range (sb.blockSize / 4)) { w with budget := w.budget - 1 } := by
  have hsat : saturatingMul p sb.blockSize = p * sb.blockSize :=
    saturatingMul_of_le (mul_blockSize_le sb (by omega))
  rw [walkIndirect, hsat]
  exact if_neg (not_or.2 ⟨h0, h⟩)

/-- **The walk is the run over its steps.** -/
lemma walkIndirect_eq (level : ℕ) : ∀ p, p < 2 ^ 32 → ∀ w : Walk,
    walkIndirect read sb (level + 1) p w =
      (steps read sb (level + 1) p).foldl (runStep (sb.blockSize / 4)) w := by
  induction level with
  | zero =>
    intro p hp w
    rw [steps]
    by_cases h0 : p = 0
    · rw [if_pos h0, walkIndirect_stay read (Or.inl h0)]
      rfl
    · rw [if_neg h0]
      dsimp only
      rw [if_pos rfl, List.foldl_cons, List.foldl_nil, runStep]
      by_cases hcap : w.Capped
      · rw [if_pos hcap, walkIndirect_stay read (Or.inr hcap)]
      · rw [if_neg hcap, walkIndirect_go read hp h0 hcap]
        simp only [if_true]
        rfl
  | succ level ih =>
    intro p hp w
    rw [steps]
    by_cases h0 : p = 0
    · rw [if_pos h0, walkIndirect_stay read (Or.inl h0)]
      rfl
    · rw [if_neg h0]
      dsimp only
      rw [if_neg (Nat.succ_ne_zero level), List.foldl_cons, runStep]
      by_cases hcap : w.Capped
      · rw [if_pos hcap, walkIndirect_stay read (Or.inr hcap), foldl_runStep_of_capped hcap]
      · have hbody : ∀ (data : Bytes) (i : ℕ) (w : Walk),
            walkIndirect read sb (level + 1) (pointer data i) w =
              (steps read sb (level + 1) (pointer data i)).foldl (runStep (sb.blockSize / 4)) w :=
          fun data i w => ih _ (leU32_lt ..) w
        rw [if_neg hcap, walkIndirect_go read hp h0 hcap, List.foldl_flatMap]
        simp only [Nat.succ_ne_zero, if_false, hbody]
        apply untilFull_eq_foldl
        intro i w' hfull
        exact foldl_runStep_of_capped (Or.inl hfull) _

/-- The blocks of a loop over pointers, the first one for block `c`. -/
def numbered (data : Bytes) (c k m : ℕ) : List (ℕ × ℕ) :=
  (List.range' k m).filterMap fun i =>
    if pointer data i = 0 then none else some (c + (i - k), pointer data i)

lemma numbered_succ (data : Bytes) (c k m : ℕ) :
    numbered data c k (m + 1) =
      (if pointer data k ≠ 0 then [(c, pointer data k)] else []) ++
        numbered data (c + 1) (k + 1) m := by
  have hrest : numbered data (c + 1) (k + 1) m = (List.range' (k + 1) m).filterMap fun i =>
      if pointer data i = 0 then none else some (c + (i - k), pointer data i) := by
    apply List.filterMap_congr
    intro i hi
    have hlow := (List.mem_range'_1.1 hi).1
    have hshift : c + 1 + (i - (k + 1)) = c + (i - k) := by omega
    rw [hshift]
  rw [hrest, numbered, List.range'_succ, List.filterMap_cons, Nat.sub_self, Nat.add_zero]
  by_cases h : pointer data k = 0 <;> simp [h]

lemma untilFull_numbered (data : Bytes) (m : ℕ) : ∀ k (w : Walk), w.out.length ≤ maxFileBlocks →
    (untilFull (fun i w => pushDataBlock (pointer data i) w) (List.range' k m) w).out =
        (w.out ++ numbered data w.logical k m).take (maxFileBlocks + 1) ∧
      ((untilFull (fun i w => pushDataBlock (pointer data i) w) (List.range' k m) w).out.length ≤
          maxFileBlocks →
        (untilFull (fun i w => pushDataBlock (pointer data i) w) (List.range' k m) w).logical =
          w.logical + m) := by
  induction m with
  | zero =>
    intro k w hw
    rw [List.range'_zero, untilFull, numbered, List.range'_zero, List.filterMap_nil,
      List.append_nil, List.take_of_length_le (by omega)]
    exact ⟨rfl, fun _ => rfl⟩
  | succ m ih =>
    intro k w hw
    have hout : (pushDataBlock (pointer data k) w).out =
        w.out ++ if pointer data k ≠ 0 then [(w.logical, pointer data k)] else [] := by
      unfold pushDataBlock
      split
      · rfl
      · exact (List.append_nil _).symm
    have hlen : (pushDataBlock (pointer data k) w).out.length ≤ w.out.length + 1 := by
      rw [hout, List.length_append]
      split <;> simp
    rw [List.range'_succ, untilFull, numbered_succ, ← List.append_assoc, ← hout]
    split
    · rename_i hfull
      rw [List.take_append_of_le_length (by omega), List.take_of_length_le (by omega)]
      exact ⟨rfl, fun h => absurd h (by omega)⟩
    · rename_i hroom
      obtain ⟨hih, hlog⟩ := ih (k + 1) (pushDataBlock (pointer data k) w) (by omega)
      refine ⟨hih, fun h => ?_⟩
      rw [hlog h, pushDataBlock, Nat.add_assoc, Nat.add_comm 1 m]

/-- A block with the number that the walk gives it: the lost ones are not counted. -/
def label (b : MappedBlock × ℕ) : ℕ × ℕ := (b.1.logical - b.2, b.1.phys)

lemma numbered_eq_label (data : Bytes) {start d : ℕ} (hd : d ≤ start) (n : ℕ) :
    numbered data (start - d) 0 n = ((pointerMap data start n).map (·, d)).map label := by
  unfold numbered pointerMap
  rw [List.map_map, List.map_filterMap, List.range_eq_range']
  apply List.filterMap_congr
  intro i _
  have hnum : start - d + (i - 0) = start + i - d := by omega
  rw [hnum]
  split
  · rfl
  · rfl

lemma budget_untilFull (f : ℕ → Walk → Walk) (hf : ∀ i w, (f i w).budget = w.budget) (l : List ℕ) :
    ∀ w, (untilFull f l w).budget = w.budget := by
  induction l with
  | nil => exact fun _ => rfl
  | cons i l ih =>
    intro w
    rw [untilFull]
    split
    · exact hf i w
    · rw [ih, hf]

/-- **What a run takes up**: the blocks that its steps lay out, under the walk's own numbers. -/
lemma visits_run (S : List MapStep) : ∀ (start d : ℕ) (w : Walk), d ≤ start →
    w.out.length ≤ maxFileBlocks + 1 → (¬ w.Capped → w.logical = start - d) →
      Visits w.budget w.out ((laidOut n start d S).map (List.map label))
        (S.foldl (runStep n) w).budget (S.foldl (runStep n) w).out := by
  induction S with
  | nil => exact fun _ _ w _ hw _ => Visits.nil hw
  | cons s S ih =>
    intro start d w hd hw hlog
    by_cases hcap : w.Capped
    · rw [foldl_runStep_of_capped hcap]
      exact visits_of_capped (c := w.toCollect) hw hcap
    · have hroom := not_or.1 hcap
      cases s with
      | hole width =>
        apply ih (start + width) (d + width) w (by omega) hw
        intro _
        rw [hlog hcap]
        omega
      | node =>
        rw [List.foldl_cons, runStep, if_neg hcap, laidOut, List.map_cons, List.map_nil]
        apply Visits.cons_nil hroom.2
        exact ih start d { w with budget := w.budget - 1 } hd hw fun _ => hlog hcap
      | leaf data =>
        obtain ⟨hout, hnext⟩ := untilFull_numbered data n 0 { w with budget := w.budget - 1 }
          (not_lt.1 hroom.1)
        rw [← List.range_eq_range'] at hout hnext
        have hbudget : (pushPointers n data w).budget = w.budget - 1 :=
          budget_untilFull (fun i w => pushDataBlock (pointer data i) w) (fun _ _ => rfl) _ _
        have hleaf : Visits w.budget w.out [((pointerMap data start n).map (·, d)).map label]
            (pushPointers n data w).budget (pushPointers n data w).out := by
          have htake : ∀ l : List (ℕ × ℕ), [l].take w.budget = [l] := fun l =>
            List.take_of_length_le (by rw [List.length_singleton]; omega)
          refine ⟨?_, fun _ => hbudget⟩
          rw [htake, List.flatten_singleton, ← numbered_eq_label data hd, ← hlog hcap]
          exact hout
        rw [List.foldl_cons, runStep, if_neg hcap, laidOut, List.map_cons]
        apply hleaf.append (N := [_])
        apply ih (start + n) d _ (by omega) hleaf.length_le
        intro hgo
        have hlogical : (pushPointers n data w).logical = w.logical + n :=
          hnext (not_lt.1 (not_or.1 hgo).1)
        rw [hlogical, hlog hcap]
        omega

/-- The twelve pointers of the inode. -/
lemma foldl_numbered (data : Bytes) (m : ℕ) : ∀ k (w : Walk),
    (List.range' k m).foldl (fun w i => pushDataBlock (pointer data i) w) w =
      ⟨⟨w.budget, w.out ++ numbered data w.logical k m⟩, w.logical + m⟩ := by
  induction m with
  | zero =>
    intro k w
    rw [List.range'_zero, List.foldl_nil, numbered, List.range'_zero, List.filterMap_nil,
      List.append_nil]
    rfl
  | succ m ih =>
    intro k w
    rw [List.range'_succ, List.foldl_cons, ih, numbered_succ, ← List.append_assoc]
    unfold pushDataBlock
    congr 1
    · congr 2
      split
      · rfl
      · exact (List.append_nil _).symm
    · exact Nat.add_right_comm ..

end Run

/-! ## An inode with a classic map -/

namespace Inode

variable (read : ℕ → ℕ → Bytes) (sb : Superblock) (i : Inode)

/-- The blocks within the caps, each with how many blocks of holes the walk has not counted. -/
def laid : List (MappedBlock × ℕ) :=
  ((pointerMap i.iBlock 0 12).map (·, 0) ++
    ((laidOut (sb.blockSize / 4) 12 0 (classicSteps read sb i.iBlock)).take
      maxMapNodes).flatten).take (maxFileBlocks + 1)

/-- Where the holes begin that zero pointers to pointer blocks leave. -/
def indirectHoles : List ℕ := holeStarts (sb.blockSize / 4) 12 (classicSteps read sb i.iBlock)

variable {read sb i}

lemma map_fst_laid (h : ¬ i.UsesTree) : (i.laid read sb).map Prod.fst = i.listed read sb := by
  have hdirect : ((pointerMap i.iBlock 0 12).map (·, 0)).map Prod.fst =
      pointerMap i.iBlock 0 12 := by
    rw [List.map_map]
    exact List.map_id _
  unfold laid listed direct nodes
  rw [if_neg h, if_neg h, classicNodes_eq, List.map_take, List.map_append, hdirect,
    List.map_flatten, List.map_take]

lemma collected_eq (h : ¬ i.UsesTree) : i.collected read sb = (i.laid read sb).map label := by
  have htree : ¬ (i.flags &&& extentsFl ≠ 0) := h
  have hdirect : (List.range 12).foldl (fun w k => pushDataBlock (pointer i.iBlock k) w)
      (⟨⟨maxMapNodes, []⟩, 0⟩ : Walk) =
      ⟨⟨maxMapNodes, ((pointerMap i.iBlock 0 12).map (·, 0)).map label⟩, 12⟩ := by
    rw [List.range_eq_range', foldl_numbered, List.nil_append]
    exact congrArg (fun l => (⟨⟨maxMapNodes, l⟩, 12⟩ : Walk))
      (numbered_eq_label i.iBlock (Nat.zero_le 0) 12)
  have hlen : (((pointerMap i.iBlock 0 12).map (·, 0)).map label).length ≤ maxFileBlocks + 1 := by
    have hmap : (pointerMap i.iBlock 0 12).length ≤ 12 :=
      (List.length_filterMap_le ..).trans (by rw [List.length_range])
    rw [List.length_map, List.length_map]
    unfold maxFileBlocks
    omega
  have hrun := visits_run (n := sb.blockSize / 4) (classicSteps read sb i.iBlock) 12 0
    ⟨⟨maxMapNodes, ((pointerMap i.iBlock 0 12).map (·, 0)).map label⟩, 12⟩ (by omega) hlen
    fun _ => rfl
  have hout := hrun.out
  unfold collected collectClassic
  rw [if_neg htree, hdirect]
  dsimp only
  rw [walkIndirect_eq read sb 2 (pointer i.iBlock 14) (leU32_lt ..),
    walkIndirect_eq read sb 1 (pointer i.iBlock 13) (leU32_lt ..),
    walkIndirect_eq read sb 0 (pointer i.iBlock 12) (leU32_lt ..), ← List.foldl_append,
    ← List.foldl_append]
  unfold laid
  rw [List.map_take, List.map_append, List.map_flatten, List.map_take]
  exact hout

end Inode

/-! ## Which numbers are right -/

/-- The holes have blocks. -/
def WideHoles (S : List MapStep) : Prop := ∀ w, MapStep.hole w ∈ S → 0 < w

variable {read : ℕ → ℕ → Bytes} {sb : Superblock}

lemma pointers_pos (sb : Superblock) : 0 < sb.blockSize / 4 := by
  obtain ⟨k, -, h⟩ := sb.valid
  have hpos : 0 < 2 ^ k := Nat.two_pow_pos k
  rw [h]
  omega

lemma wideHoles_steps (level : ℕ) : ∀ p, WideHoles (steps read sb level p) := by
  induction level with
  | zero => exact fun _ _ h => absurd h (by simp [steps])
  | succ level ih =>
    intro p w hw
    rw [steps] at hw
    split at hw
    · rw [List.mem_singleton, MapStep.hole.injEq] at hw
      rw [hw]
      exact Nat.pow_pos (pointers_pos sb)
    · dsimp only at hw
      split at hw
      · exact absurd hw (by simp)
      · rw [List.mem_cons, List.mem_flatMap] at hw
        obtain hnode | ⟨k, -, hk⟩ := hw
        · exact absurd hnode (by simp)
        · exact ih _ w hk

lemma wideHoles_classicSteps (iBlock : Bytes) : WideHoles (classicSteps read sb iBlock) := by
  intro w hw
  unfold classicSteps at hw
  rw [List.mem_append, List.mem_append] at hw
  obtain hw | hw | hw := hw
  · exact wideHoles_steps 1 _ w hw
  · exact wideHoles_steps 2 _ w hw
  · exact wideHoles_steps 3 _ w hw

lemma start_le_of_mem_holeStarts {n : ℕ} (S : List MapStep) : ∀ {start h : ℕ},
    h ∈ holeStarts n start S → start ≤ h := by
  induction S with
  | nil => exact fun h => absurd h (by simp [holeStarts])
  | cons s S ih =>
    intro start h hmem
    cases s with
    | hole w =>
      rw [holeStarts, List.mem_cons] at hmem
      obtain rfl | hmem := hmem
      · exact le_refl _
      · exact (Nat.le_add_right ..).trans (ih hmem)
    | node => exact ih hmem
    | leaf data => exact (Nat.le_add_right ..).trans (ih hmem)

/-- **What is lost before a block**: nothing more exactly if no hole begins before it. -/
lemma lost_iff {n : ℕ} (S : List MapStep) : WideHoles S → ∀ {start d : ℕ}, d ≤ start →
    ∀ x ∈ (laidOut n start d S).flatten,
      start ≤ x.1.logical ∧ d ≤ x.2 ∧ x.2 ≤ x.1.logical ∧
        (x.2 = d ↔ ∀ h ∈ holeStarts n start S, x.1.logical < h) := by
  induction S with
  | nil => exact fun _ _ _ _ x hx => absurd hx (by simp [laidOut])
  | cons s S ih =>
    intro hwide start d hd x hx
    have hwide' : WideHoles S := fun w hw => hwide w (List.mem_cons_of_mem _ hw)
    cases s with
    | hole w =>
      have hw := hwide w List.mem_cons_self
      obtain ⟨hstart, hlost, hle, -⟩ := ih hwide' (by omega) x hx
      refine ⟨by omega, by omega, hle, ?_⟩
      constructor
      · intro h
        omega
      · intro h
        have := h start List.mem_cons_self
        omega
    | node => exact ih hwide' hd x hx
    | leaf data =>
      rw [laidOut, List.flatten_cons, List.mem_append] at hx
      obtain hx | hx := hx
      · obtain ⟨b, hb, rfl⟩ := List.mem_map.1 hx
        obtain ⟨hlow, hhigh⟩ := (within_pointerMap data start n).2 b hb
        refine ⟨hlow, le_refl d, hd.trans hlow, ?_⟩
        constructor
        · intro _ h hh
          have := start_le_of_mem_holeStarts S hh
          exact lt_of_lt_of_le hhigh this
        · exact fun _ => rfl
      · obtain ⟨hstart, hrest⟩ := ih hwide' (by omega : d ≤ start + n) x hx
        exact ⟨by omega, hrest⟩

namespace Inode

variable {i : Inode}

lemma lost_iff_of_mem_laid {x : MappedBlock × ℕ} (hx : x ∈ i.laid read sb) :
    x.2 ≤ x.1.logical ∧ (x.2 = 0 ↔ ∀ h ∈ i.indirectHoles read sb, x.1.logical < h) := by
  have hx := List.mem_of_mem_take hx
  rw [List.mem_append] at hx
  obtain hx | hx := hx
  · obtain ⟨b, hb, rfl⟩ := List.mem_map.1 hx
    have hlt := ((within_pointerMap i.iBlock 0 12).2 b hb).2
    refine ⟨Nat.zero_le _, fun _ h hh => ?_, fun _ => rfl⟩
    have := start_le_of_mem_holeStarts _ hh
    show b.logical < h
    omega
  · have hx' : x ∈ (laidOut (sb.blockSize / 4) 12 0 (classicSteps read sb i.iBlock)).flatten :=
      ((List.take_sublist ..).flatten).subset hx
    exact (lost_iff _ (wideHoles_classicSteps i.iBlock) (by omega) x hx').2.2

/-- No zero pointer to a pointer block precedes a block that is taken up. -/
def NothingLost (read : ℕ → ℕ → Bytes) (sb : Superblock) (i : Inode) : Prop :=
  ∀ b ∈ i.listed read sb, ∀ h ∈ i.indirectHoles read sb, b.logical < h

/-- **The numbers are those of the map** exactly if nothing is lost before them. -/
lemma collected_prefix_iff (h : ¬ i.UsesTree) :
    i.collected read sb <+: (i.blocks read sb).map MappedBlock.pair ↔ i.NothingLost read sb := by
  have hfst : (i.laid read sb).map Prod.fst = i.listed read sb := map_fst_laid h
  have hblocks : (i.laid read sb).map (fun x => x.1.pair) <+:
      (i.blocks read sb).map MappedBlock.pair := by
    have hlisted : i.listed read sb <+: i.blocks read sb := listed_prefix
    have hpair := hlisted.map MappedBlock.pair
    rwa [← hfst, List.map_map] at hpair
  have hsame : i.collected read sb <+: (i.blocks read sb).map MappedBlock.pair ↔
      ∀ x ∈ i.laid read sb, label x = x.1.pair := by
    rw [collected_eq h, ← List.map_inj_left]
    constructor
    · intro hpre
      exact (List.prefix_of_prefix_length_le hpre hblocks (by simp)).eq_of_length (by simp)
    · exact fun heq => heq ▸ hblocks
  rw [hsame]
  unfold NothingLost
  rw [← hfst, List.forall_mem_map]
  apply forall₂_congr
  intro x hx
  obtain ⟨hle, hiff⟩ := lost_iff_of_mem_laid hx
  rw [← hiff]
  unfold label MappedBlock.pair
  rw [Prod.mk.injEq]
  omega

end Inode

/-! ## Where the blocks come to lie -/

/-- The byte at `x` of the blocks that are put together. -/
lemma getElem?_addresses {bs : ℕ} (hbs : 0 < bs) (L : List MappedBlock) : ∀ x,
    (addresses (L.map (MappedBlock.piece bs)))[x]? =
      (L[x / bs]?).map fun b => b.phys * bs + x % bs := by
  induction L with
  | nil => exact fun _ => rfl
  | cons b L ih =>
    intro x
    rw [List.map_cons, addresses_cons]
    show (List.range' (b.phys * bs) bs ++ addresses (L.map (MappedBlock.piece bs)))[x]? = _
    rcases lt_or_ge x bs with hx | hx
    · rw [List.getElem?_append_left (by rw [List.length_range']; exact hx),
        List.getElem?_range' hx, Nat.div_eq_of_lt hx, Nat.mod_eq_of_lt hx, List.getElem?_cons_zero,
        Option.map_some, Nat.one_mul]
    · obtain ⟨y, rfl⟩ := Nat.exists_eq_add_of_le hx
      rw [List.getElem?_append_right (by rw [List.length_range']; exact hx), List.length_range',
        Nat.add_sub_cancel_left, ih, Nat.add_div_left _ hbs, List.getElem?_cons_succ,
        Nat.add_mod_left]

lemma written_of_mem_pointerMap {data : Bytes} {start n : ℕ} {b : MappedBlock}
    (hb : b ∈ pointerMap data start n) : b.written = true := by
  obtain ⟨k, -, hk⟩ := List.mem_filterMap.1 hb
  split at hk
  · exact absurd hk (by simp)
  · rw [← Option.some.inj hk]

lemma written_of_mem_laidOut {n : ℕ} (S : List MapStep) : ∀ {start d : ℕ},
    ∀ x ∈ (laidOut n start d S).flatten, x.1.written = true := by
  induction S with
  | nil => exact fun x hx => absurd hx (by simp [laidOut])
  | cons s S ih =>
    intro start d x hx
    cases s with
    | hole w => exact ih x hx
    | node => exact ih x hx
    | leaf data =>
      rw [laidOut, List.flatten_cons, List.mem_append] at hx
      obtain hx | hx := hx
      · obtain ⟨b, hb, rfl⟩ := List.mem_map.1 hx
        exact written_of_mem_pointerMap hb
      · exact ih x hx

/-- In an increasing list, a block has as many before it as its number at most. -/
lemma Increasing.le_logical {L : List MappedBlock} (hL : Increasing L) :
    ∀ k (hk : k < L.length), k ≤ L[k].logical := by
  intro k
  induction k with
  | zero => exact fun _ => Nat.zero_le _
  | succ k ih =>
    intro hk
    have hlast := ih (by omega)
    have hnext := List.pairwise_iff_getElem.1 hL k (k + 1) (by omega) hk (by omega)
    omega

lemma Increasing.eq_of_logical {L : List MappedBlock} (hL : Increasing L) {b c : MappedBlock}
    (hb : b ∈ L) (hc : c ∈ L) (h : b.logical = c.logical) : b = c := by
  obtain ⟨p, hp, rfl⟩ := List.mem_iff_getElem.1 hb
  obtain ⟨q, hq, rfl⟩ := List.mem_iff_getElem.1 hc
  have hpq : p = q := by
    rcases lt_trichotomy p q with hlt | heq | hgt
    · have := List.pairwise_iff_getElem.1 hL p q hp hq hlt
      omega
    · exact heq
    · have := List.pairwise_iff_getElem.1 hL q p hq hp hgt
      omega
  subst hpq
  rfl

/-- The place of a byte of the file, by its block. -/
lemma places_iff {bs : ℕ} (hbs : 0 < bs) {L : List MappedBlock}
    (hwritten : ∀ b ∈ L, b.written = true) {x a : ℕ} :
    Places (L.map (MappedBlock.piece bs)) x a ↔
      ∃ b ∈ L, b.logical = x / bs ∧ a = b.phys * bs + x % bs := by
  have hholds : ∀ b : MappedBlock, (b.piece bs).Holds x ↔ b.logical = x / bs := by
    intro b
    unfold Piece.Holds MappedBlock.piece
    dsimp only
    rw [eq_comm, Nat.div_eq_iff hbs]
    omega
  have hoff : ∀ b : MappedBlock, b.logical = x / bs → x - b.logical * bs = x % bs := by
    intro b hb
    have hsplit := Nat.div_add_mod' x bs
    rw [hb]
    omega
  unfold Places
  constructor
  · rintro ⟨p, hp, -, hx, rfl⟩
    obtain ⟨b, hb, rfl⟩ := List.mem_map.1 hp
    refine ⟨b, hb, (hholds b).1 hx, ?_⟩
    rw [← hoff b ((hholds b).1 hx)]
    rfl
  · rintro ⟨b, hb, hx, rfl⟩
    refine ⟨b.piece bs, List.mem_map_of_mem hb, hwritten b hb, (hholds b).2 hx, ?_⟩
    rw [← hoff b hx]
    rfl

namespace Inode

variable {i : Inode}

/-- No hole precedes a block that the extents take in, and the caps leave no block of the file
out. -/
structure Packed (read : ℕ → ℕ → Bytes) (sb : Superblock) (i : Inode) : Prop where
  first : ∀ j, ∀ hj : j < (i.listed read sb).length, j * sb.blockSize < i.size →
    (i.listed read sb)[j].logical = j
  all : ∀ b ∈ i.blocks read sb, b.logical * sb.blockSize < i.size → b ∈ i.listed read sb

lemma written_blocks (h : ¬ i.UsesTree) : ∀ b ∈ i.blocks read sb, b.written = true := by
  intro b hb
  unfold blocks direct nodes at hb
  rw [if_neg h, if_neg h, classicNodes_eq, ← List.map_flatten, List.mem_append, List.mem_map] at hb
  obtain hb | ⟨x, hx, rfl⟩ := hb
  · exact written_of_mem_pointerMap hb
  · exact written_of_mem_laidOut _ x hx

/-- **The extents are the file, block for block, up to its size** exactly if they are packed. -/
lemma extents_placed_iff (h : ¬ i.UsesTree) :
    (∀ x < i.size, ∀ a, (extentAddresses (i.extents read sb))[x]? = some a ↔
      Places ((i.blocks read sb).map (MappedBlock.piece sb.blockSize)) x a) ↔
    i.Packed read sb := by
  have hbs := sb.blockSize_pos
  have hok : i.MapOk read sb :=
    ⟨fun ht => absurd ht h, fun ht => absurd ht h, fun ht => absurd ht h⟩
  have hpre : i.listed read sb <+: i.blocks read sb := listed_prefix
  have hinc : Increasing (i.blocks read sb) := hok.increasing_blocks
  have hbyte : ∀ x < i.size, (extentAddresses (i.extents read sb))[x]? =
      ((i.listed read sb)[x / sb.blockSize]?).map fun b =>
        b.phys * sb.blockSize + x % sb.blockSize := by
    intro x hx
    rw [extentAddresses_extents hok, List.getElem?_take_of_lt hx, getElem?_addresses hbs]
  have hget : ∀ j (hj : j < (i.listed read sb).length) (hj' : j < (i.blocks read sb).length),
      (i.listed read sb)[j] = (i.blocks read sb)[j] := fun j hj _ => hpre.getElem hj
  constructor
  · intro hplaced
    have hfirst : ∀ j, ∀ hj : j < (i.listed read sb).length, j * sb.blockSize < i.size →
        (i.listed read sb)[j].logical = j := by
      intro j
      induction j using Nat.strong_induction_on with
      | _ j ih =>
        intro hj hsize
        have hsome := hbyte _ hsize
        rw [Nat.mul_div_cancel _ hbs, List.getElem?_eq_getElem hj, Option.map_some] at hsome
        have hplace := (hplaced _ hsize _).1 hsome
        rw [places_iff hbs (written_blocks h), Nat.mul_div_cancel _ hbs] at hplace
        obtain ⟨b, hb, hlogical, -⟩ := hplace
        obtain ⟨k, hk, rfl⟩ := List.mem_iff_getElem.1 hb
        have hkj := hinc.le_logical k hk
        rcases Nat.lt_or_ge k j with hlt | hge
        · -- a block with fewer before it has its own number
          have hsmall : k * sb.blockSize < i.size :=
            (Nat.mul_le_mul_right _ hlt.le).trans_lt hsize
          have hown := ih k hlt (hlt.trans hj) hsmall
          rw [hget k (hlt.trans hj) hk, hlogical] at hown
          omega
        · obtain rfl : k = j := by omega
          rw [hget k hj hk, hlogical]
    refine ⟨hfirst, fun b hb hsize => ?_⟩
    have hplace : Places ((i.blocks read sb).map (MappedBlock.piece sb.blockSize))
        (b.logical * sb.blockSize) (b.phys * sb.blockSize) := by
      rw [places_iff hbs (written_blocks h), Nat.mul_div_cancel _ hbs, Nat.mul_mod_left]
      exact ⟨b, hb, rfl, rfl⟩
    have hsome := (hplaced _ hsize _).2 hplace
    rw [hbyte _ hsize, Nat.mul_div_cancel _ hbs, Option.map_eq_some_iff] at hsome
    obtain ⟨c, hc, -⟩ := hsome
    obtain ⟨hj, rfl⟩ := List.getElem?_eq_some_iff.1 hc
    have hmem := List.getElem_mem hj
    have hsame := hinc.eq_of_logical (hpre.subset hmem) hb (hfirst _ hj hsize)
    exact hsame ▸ hmem
  · rintro ⟨hfirst, hall⟩ x hx a
    have hblock : x / sb.blockSize * sb.blockSize < i.size :=
      (Nat.div_mul_le_self x sb.blockSize).trans_lt hx
    rw [hbyte x hx, places_iff hbs (written_blocks h), Option.map_eq_some_iff]
    constructor
    · rintro ⟨b, hb, rfl⟩
      obtain ⟨hj, rfl⟩ := List.getElem?_eq_some_iff.1 hb
      exact ⟨_, hpre.subset (List.getElem_mem hj), hfirst _ hj hblock, rfl⟩
    · rintro ⟨b, hb, hlogical, rfl⟩
      obtain ⟨k, hk, rfl⟩ := List.mem_iff_getElem.1 (hall b hb (by rwa [hlogical]))
      have hle : k ≤ x / sb.blockSize := by
        have hk' := hk.trans_le hpre.length_le
        have hle := hinc.le_logical k hk'
        rwa [← hget k hk hk', hlogical] at hle
      have hown := hfirst k hk ((Nat.mul_le_mul_right _ hle).trans_lt hblock)
      rw [hlogical] at hown
      rw [hown]
      exact ⟨_, List.getElem?_eq_getElem hk, rfl⟩

end Inode

/-- **What the classic map says of a block's place is kept** exactly if no zero pointer to a pointer
block precedes a block that is taken up, no hole precedes a block that the extents take in, and the
caps leave no block of the file out. -/
theorem classic_placed_iff (read : ℕ → ℕ → Bytes) (sb : Superblock) (i : Inode)
    (h : ¬ i.UsesTree) :
    (i.collected read sb <+: (i.blocks read sb).map MappedBlock.pair ∧
      ∀ x < i.size, ∀ a, (extentAddresses (i.extents read sb))[x]? = some a ↔
        Places ((i.blocks read sb).map (MappedBlock.piece sb.blockSize)) x a) ↔
    i.NothingLost read sb ∧ i.Packed read sb :=
  and_congr (Inode.collected_prefix_iff h) (Inode.extents_placed_iff h)

/-- Blocks of a kibibyte. -/
def kibibyte : Superblock where
  blockSize := 1024
  valid := ⟨0, by omega, rfl⟩

/-- A file of the block 7, whose other pointers are zero. -/
def oneBlock : Inode where
  mode := 0x81A4
  size := 1000
  flags := 0
  ctime := 0
  mtime := 0
  iBlock := leBytes 4 7 ++ List.replicate 56 0
  size_le := by decide
  length_iBlock := rfl

set_option maxRecDepth 4000 in
/-- A file without holes keeps its block in its place. -/
theorem oneBlock_placed :
    oneBlock.collected (fun _ _ => []) kibibyte <+:
        (oneBlock.blocks (fun _ _ => []) kibibyte).map MappedBlock.pair ∧
      ∀ x < 1000, ∀ a, (extentAddresses (oneBlock.extents (fun _ _ => []) kibibyte))[x]? = some a ↔
        Places ((oneBlock.blocks (fun _ _ => []) kibibyte).map (MappedBlock.piece 1024)) x a := by
  have hlisted : oneBlock.listed (fun _ _ => []) kibibyte = [⟨0, 7, true⟩] := rfl
  have hblocks : oneBlock.blocks (fun _ _ => []) kibibyte = [⟨0, 7, true⟩] := rfl
  have hholes : oneBlock.indirectHoles (fun _ _ => []) kibibyte = [12, 268, 65804] := rfl
  apply (classic_placed_iff (fun _ _ => []) kibibyte oneBlock (by decide)).2
  constructor
  · unfold Inode.NothingLost
    rw [hlisted, hholes]
    decide
  · constructor
    · intro j hj _
      have hj0 : j = 0 := by
        rw [hlisted, List.length_singleton] at hj
        omega
      subst hj0
      rfl
    · intro b hb _
      rwa [hlisted, ← hblocks]

/-- A file whose pointer to blocks is zero, and that to pointer blocks is 5. -/
def farBlock : Inode where
  mode := 0x81A4
  size := 300000
  flags := 0
  ctime := 0
  mtime := 0
  iBlock := List.replicate 52 0 ++ leBytes 4 5 ++ List.replicate 4 0
  size_le := by decide
  length_iBlock := rfl

/-- Block 5 names block 6, and that names block 7. -/
def farRead (off _n : ℕ) : Bytes := leBytes 4 (off / 1024 + 1) ++ List.replicate 1020 0

set_option maxRecDepth 8000 in
/-- The block 7 is the file's block 268, and the walk takes it up as block 12. -/
theorem farBlock_counterexample :
    ¬ (farBlock.collected farRead kibibyte <+:
        (farBlock.blocks farRead kibibyte).map MappedBlock.pair ∧
      ∀ x < 300000, ∀ a, (extentAddresses (farBlock.extents farRead kibibyte))[x]? = some a ↔
        Places ((farBlock.blocks farRead kibibyte).map (MappedBlock.piece 1024)) x a) := by
  rintro ⟨hfront, -⟩
  have hfirst : (farBlock.listed farRead kibibyte).head? = some ⟨268, 7, true⟩ := by rfl
  have hhole : (farBlock.indirectHoles farRead kibibyte).head? = some 12 := by rfl
  have hlost := (Inode.collected_prefix_iff (by decide)).1 hfront
  exact absurd (hlost _ (List.mem_of_mem_head? hfirst) _ (List.mem_of_mem_head? hhole)) (by decide)

end Ext
end Reclaim
