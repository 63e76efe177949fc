import Mathlib.Data.List.ModifyLast
import Reclaim.Fs.Fat

/-!
# Clusters as extents

`coalesce` joins clusters that follow each other and cuts the last extent to the size of the file.
What the extents hold is what the clusters hold, one after the other, cut to the size.
-/

namespace Reclaim

open FileBytes

section Coalesce

variable {offsetOf : ℕ → Option ℕ} {clusterSize : ℕ} {place : ℕ → ℕ} {clusters : List ℕ} {size : ℕ}

/-- The clusters are where `place` says, and the next cluster's place is behind each. -/
def Laid (offsetOf : ℕ → Option ℕ) (clusterSize : ℕ) (place : ℕ → ℕ) (clusters : List ℕ) : Prop :=
  ∀ c ∈ clusters, offsetOf c = some (place c) ∧ place (c + 1) = place c + clusterSize

/-- The addresses of the clusters' bytes. -/
def clusterAddresses (clusterSize : ℕ) (place : ℕ → ℕ) (clusters : List ℕ) : List ℕ :=
  clusters.flatMap fun c => List.range' (place c) clusterSize

/-- The extent of an open run. -/
def runExtent (run : Option (ℕ × ℕ × ℕ)) : List Extent := (run.map fun r => ⟨r.1, r.2.1⟩).toList

/-- The open run ends where the cluster behind its last one begins. -/
def RunFits (place : ℕ → ℕ) (run : Option (ℕ × ℕ × ℕ)) : Prop :=
  ∀ r ∈ run, r.1 + r.2.1 = place (r.2.2 + 1)

lemma forall_mem_some {α : Type} {p : α → Prop} {a : α} (h : p a) : ∀ r ∈ some a, p r :=
  fun _ hr => Option.some.inj hr ▸ h

lemma length_clusterAddresses :
    (clusterAddresses clusterSize place clusters).length = clusters.length * clusterSize := by
  rw [clusterAddresses, List.length_flatMap]
  simp

/-- What the lens sum up to is how many bytes there are. -/
lemma sum_len_eq (es : List Extent) : (es.map (·.len)).sum = (extentAddresses es).length := by
  rw [extentAddresses, List.length_flatMap]
  simp

lemma extentAddresses_append (es es' : List Extent) :
    extentAddresses (es ++ es') = extentAddresses es ++ extentAddresses es' :=
  List.flatMap_append ..

/-- One cluster less is needed for what one cluster leaves. -/
lemma divCeil_succ {remaining : ℕ} (hpos : 0 < clusterSize) (h : remaining ≠ 0) :
    divCeil remaining clusterSize =
      divCeil (remaining - min remaining clusterSize) clusterSize + 1 := by
  apply eq_of_forall_lt_iff
  intro i
  rw [lt_divCeil_iff hpos]
  cases i with
  | zero => omega
  | succ i =>
    rw [Nat.add_lt_add_iff_right, lt_divCeil_iff hpos, Nat.add_mul, Nat.one_mul]
    omega

/-- **A run of clusters** holds what its clusters hold. -/
lemma extentAddresses_clusterRuns (hpos : 0 < clusterSize)
    (hlaid : Laid offsetOf clusterSize place clusters) :
    ∀ remaining run, RunFits place run →
      extentAddresses (clusterRuns offsetOf clusterSize clusters remaining run) =
        extentAddresses (runExtent run) ++
          clusterAddresses clusterSize place (clusters.take (divCeil remaining clusterSize)) := by
  induction clusters with
  | nil =>
    intro remaining run _
    rw [clusterRuns, List.take_nil]
    exact (List.append_nil _).symm
  | cons c cs ih =>
    intro remaining run hrun
    obtain ⟨hoff, hplace⟩ := hlaid c List.mem_cons_self
    have hih := ih fun d hd => hlaid d (List.mem_cons_of_mem c hd)
    rw [clusterRuns, hoff]
    dsimp only
    split
    · rename_i hzero
      have hnone : divCeil 0 clusterSize = 0 := by
        rw [divCeil, Nat.zero_add]
        exact Nat.div_eq_of_lt (by omega)
      rw [hzero, hnone, List.take_zero]
      exact (List.append_nil _).symm
    · rename_i hne
      rw [divCeil_succ hpos hne, List.take_succ_cons, clusterAddresses, List.flatMap_cons,
        ← clusterAddresses]
      cases run with
      | none =>
        dsimp only
        rw [hih _ _ (forall_mem_some hplace.symm)]
        simp [runExtent]
      | some r =>
        obtain ⟨start, len, prev⟩ := r
        have hend : start + len = place (prev + 1) := hrun _ rfl
        dsimp only
        split
        · -- the cluster goes on where the run ends
          rename_i hnext
          have hlong : start + (len + clusterSize) = place (c + 1) := by
            rw [hplace, ← hnext, ← hend, Nat.add_assoc]
          rw [hih _ _ (forall_mem_some hlong)]
          have hjoin : List.range' start (len + clusterSize) =
              List.range' start len ++ List.range' (place c) clusterSize := by
            rw [← hnext, ← hend, List.range'_append_1]
          simp [runExtent, hjoin]
        · rw [extentAddresses_cons, hih _ _ (forall_mem_some hplace.symm)]
          simp [runExtent]

/-- An extent holds a cluster or more. -/
lemma le_len_clusterRuns : ∀ remaining run, (∀ r ∈ run, clusterSize ≤ r.2.1) →
    ∀ e ∈ clusterRuns offsetOf clusterSize clusters remaining run, clusterSize ≤ e.len := by
  have hopen : ∀ run : Option (ℕ × ℕ × ℕ), (∀ r ∈ run, clusterSize ≤ r.2.1) →
      ∀ e ∈ runExtent run, clusterSize ≤ e.len := by
    intro run hrun e he
    cases run with
    | none => cases he
    | some r =>
      obtain rfl := List.mem_singleton.1 he
      exact hrun r rfl
  induction clusters with
  | nil => exact fun _ run hrun => hopen run hrun
  | cons c cs ih =>
    intro remaining run hrun
    have hone : ∀ off : ℕ, ∀ r ∈ some (off, clusterSize, c), clusterSize ≤ r.2.1 := fun _ =>
      forall_mem_some le_rfl
    rw [clusterRuns]
    split
    · exact hopen run hrun
    · rename_i off _
      split
      · exact hopen run hrun
      · dsimp only
        cases run with
        | none => exact ih _ _ (hone off)
        | some r =>
          obtain ⟨start, len, prev⟩ := r
          dsimp only
          split
          · exact ih _ _ (forall_mem_some (Nat.le_add_left ..))
          · intro e he
            rcases List.mem_cons.1 he with rfl | he
            · exact hrun _ rfl
            · exact ih _ _ (hone off) e he

/-- Extents whose last one is cut hold what is left. -/
lemma extentAddresses_modifyLast {es : List Extent} {k : ℕ} (hk : ∀ e ∈ es, k ≤ e.len) :
    extentAddresses (es.modifyLast fun e => ⟨e.offset, e.len - k⟩) =
      (extentAddresses es).take ((extentAddresses es).length - k) := by
  rcases List.eq_nil_or_concat es with rfl | ⟨init, last, rfl⟩
  · simp [List.modifyLast, List.modifyLast.go]
  · have hlast := hk last (by simp)
    rw [List.concat_eq_append, List.modifyLast_concat, extentAddresses_append,
      extentAddresses_append, List.length_append]
    simp only [extentAddresses_cons, extentAddresses_nil, List.append_nil, List.length_range']
    rw [List.take_append, List.take_of_length_le (by omega),
      List.take_range'_of_length_ge (by omega)]
    congr 2
    omega

lemma extentAddresses_filter (es : List Extent) :
    extentAddresses (es.filter fun e => decide (0 < e.len)) = extentAddresses es := by
  induction es with
  | nil => rfl
  | cons e es ih =>
    rw [List.filter_cons]
    split
    · rw [extentAddresses_cons, extentAddresses_cons, ih]
    · rename_i hzero
      have hlen : e.len = 0 := by simpa using hzero
      rw [extentAddresses_cons, ih, hlen]
      rfl

/-- What is cut to a size is in the clusters that the size needs. -/
lemma take_clusterAddresses (hpos : 0 < clusterSize) :
    (clusterAddresses clusterSize place clusters).take size =
      (clusterAddresses clusterSize place (clusters.take (divCeil size clusterSize))).take
        size := by
  have hsplit : clusterAddresses clusterSize place clusters =
      clusterAddresses clusterSize place (clusters.take (divCeil size clusterSize)) ++
        clusterAddresses clusterSize place (clusters.drop (divCeil size clusterSize)) := by
    rw [clusterAddresses, clusterAddresses, clusterAddresses, ← List.flatMap_append,
      List.take_append_drop]
  rw [hsplit]
  by_cases hlen : divCeil size clusterSize ≤ clusters.length
  · have hsize := le_divCeil_mul hpos size
    rw [List.take_append_of_le_length]
    rwa [length_clusterAddresses, List.length_take, min_eq_left hlen]
  · have hnil : clusterAddresses clusterSize place [] = [] := rfl
    rw [List.drop_eq_nil_of_le (by omega), hnil, List.append_nil]

/-- **What coalesced clusters hold** is what they hold one after the other, cut to the size. -/
theorem extentAddresses_coalesceClusters (hpos : 0 < clusterSize)
    (hlaid : Laid offsetOf clusterSize place clusters) :
    extentAddresses (coalesceClusters offsetOf clusterSize clusters size) =
      (clusterAddresses clusterSize place clusters).take size := by
  have hruns := extentAddresses_clusterRuns hpos hlaid size none fun r hr => by cases hr
  have hlong : ∀ e ∈ clusterRuns offsetOf clusterSize clusters size none, clusterSize ≤ e.len :=
    le_len_clusterRuns size none fun r hr => by cases hr
  set es := clusterRuns offsetOf clusterSize clusters size none with hes
  have hneed : extentAddresses es = clusterAddresses clusterSize place
      (clusters.take (divCeil size clusterSize)) := hruns
  have hcut : (extentAddresses es).take size =
      (clusterAddresses clusterSize place clusters).take size := by
    rw [hneed]
    exact (take_clusterAddresses hpos).symm
  rw [coalesceClusters, extentAddresses_filter, ← hes, sum_len_eq, ← hcut]
  split
  · rename_i hlt
    -- less than a cluster is cut
    have hmost : (extentAddresses es).length < size + clusterSize := by
      have hdiv := Nat.div_mul_le_self (size + clusterSize - 1) clusterSize
      rw [hneed, length_clusterAddresses]
      calc (clusters.take (divCeil size clusterSize)).length * clusterSize
          ≤ divCeil size clusterSize * clusterSize :=
            Nat.mul_le_mul_right _ (List.length_take_le ..)
        _ < size + clusterSize := by
            rw [divCeil]
            omega
    rw [extentAddresses_modifyLast fun e he => by have := hlong e he; omega,
      Nat.sub_sub_self hlt.le]
  · rename_i hle
    exact (List.take_of_length_le (not_lt.1 hle)).symm

/-- What coalesced clusters hold is as much as they do, or the size if that is less. -/
lemma sum_coalesceClusters (hpos : 0 < clusterSize)
    (hlaid : Laid offsetOf clusterSize place clusters) :
    ((coalesceClusters offsetOf clusterSize clusters size).map (·.len)).sum =
      min size (clusters.length * clusterSize) := by
  rw [sum_len_eq, extentAddresses_coalesceClusters hpos hlaid, List.length_take,
    length_clusterAddresses]

end Coalesce
end Reclaim
