import Mathlib.Data.List.Sort
import Mathlib.Tactic

/-!
# Selections taken in pieces

Rows may be picked by a set of keys cut into pieces, one piece after the other, and sorted once all
are there.  Together the pieces give the rows that the whole set does exactly if no row is picked
twice, and the result is sorted as another order wants exactly if the two orders do not disagree on
what was picked.
-/

namespace Selection

variable {α κ : Type} [DecidableEq κ] (key : α → κ)

/-- The rows with one of the keys. -/
def pick (l : List α) (ks : List κ) : List α := l.filter fun a => decide (key a ∈ ks)

variable {key} {l : List α}

@[simp] lemma mem_pick {ks : List κ} {a : α} : a ∈ pick key l ks ↔ a ∈ l ∧ key a ∈ ks := by
  simp [pick]

lemma nodup_pick (hl : l.Nodup) (ks : List κ) : (pick key l ks).Nodup := hl.filter _

/-- No row has keys in two of the pieces. -/
def Apart (key : α → κ) (l : List α) (pieces : List (List κ)) : Prop :=
  pieces.Pairwise fun c d => ∀ a ∈ l, key a ∈ c → key a ∉ d

/-- **Picking piece by piece** gives each row once exactly if the pieces are apart. -/
theorem flatMap_pick_perm_iff (hl : l.Nodup) (pieces : List (List κ)) :
    (pieces.flatMap (pick key l)).Perm (pick key l pieces.flatten) ↔ Apart key l pieces := by
  have hnodup : (pieces.flatMap (pick key l)).Nodup ↔ Apart key l pieces := by
    rw [List.nodup_flatMap]
    constructor
    · rintro ⟨-, hdisj⟩
      refine hdisj.imp fun {c d} h a ha hc hd => ?_
      exact h (mem_pick.2 ⟨ha, hc⟩) (mem_pick.2 ⟨ha, hd⟩)
    · intro h
      refine ⟨fun c _ => nodup_pick hl c, h.imp fun {c d} h a hc hd => ?_⟩
      exact h a (mem_pick.1 hc).1 (mem_pick.1 hc).2 (mem_pick.1 hd).2
  constructor
  · exact fun h => hnodup.1 (h.symm.nodup (nodup_pick hl _))
  · intro h
    refine (List.perm_ext_iff_of_nodup (hnodup.2 h) (nodup_pick hl _)).2 fun a => ?_
    simp only [List.mem_flatMap, mem_pick, List.mem_flatten]
    constructor
    · rintro ⟨c, hc, ha, hk⟩
      exact ⟨ha, c, hc, hk⟩
    · rintro ⟨ha, c, hc, hk⟩
      exact ⟨c, hc, ha, hk⟩

section Orders

variable {r s : α → α → Prop} [DecidableRel r]

/-- **A list sorted by `r` is sorted by `s`**, which does not tell apart what `r` does not, exactly
if `s` agrees with `r` where `r` is strict. -/
theorem pairwise_insertionSort_iff [Std.Total r] [IsTrans α r]
    (hties : ∀ a b, r a b → r b a → s a b) :
    (l.insertionSort r).Pairwise s ↔ ∀ a ∈ l, ∀ b ∈ l, r a b → ¬ r b a → s a b := by
  have hsorted := List.pairwise_insertionSort r l
  constructor
  · intro h a ha b hb hab hba
    obtain ⟨i, hi, rfl⟩ := List.getElem_of_mem ((List.mem_insertionSort r).2 ha)
    obtain ⟨j, hj, rfl⟩ := List.getElem_of_mem ((List.mem_insertionSort r).2 hb)
    rcases lt_trichotomy i j with hij | rfl | hij
    · exact List.pairwise_iff_getElem.1 h i j hi hj hij
    · exact absurd hab hba
    · exact absurd (List.pairwise_iff_getElem.1 hsorted j i hj hi hij) hba
  · intro h
    refine hsorted.imp_of_mem fun {a b} ha hb hab => ?_
    by_cases hba : r b a
    · exact hties a b hab hba
    · exact h a ((List.mem_insertionSort r).1 ha) b ((List.mem_insertionSort r).1 hb) hab hba

end Orders

end Selection

/-!
## Binary search

`bisect` looks in `[lo, hi)` for an index at which `side` finds what is looked for.  `side` says of
an index whether that lies before it, at it or behind it, or nothing at all.
-/

/-- Binary search, in at most `fuel` steps. -/
def bisect (side : ℕ → Option Ordering) : ℕ → ℕ → ℕ → Option ℕ
  | 0, _, _ => none
  | fuel + 1, lo, hi =>
    if lo < hi then
      let mid := lo + (hi - lo) / 2
      match side mid with
      | some .lt => bisect side fuel lo mid
      | some .gt => bisect side fuel (mid + 1) hi
      | some .eq => some mid
      | none => none
    else none

/-- What the search finds is there. -/
lemma bisect_sound {side : ℕ → Option Ordering} (fuel : ℕ) {lo hi m : ℕ}
    (h : bisect side fuel lo hi = some m) : side m = some .eq := by
  induction fuel generalizing lo hi with
  | zero => exact absurd h (by simp [bisect])
  | succ fuel ih =>
    rw [bisect] at h
    split at h
    · dsimp only at h
      split at h
      · exact ih h
      · exact ih h
      · rename_i heq
        rwa [← Option.some.inj h]
      · exact absurd h (by simp)
    · exact absurd h (by simp)

/-- **The search finds the one index there is**, if everything else points to it. -/
lemma bisect_eq_some {side : ℕ → Option Ordering} {m : ℕ} (heq : side m = some .eq)
    (hgt : ∀ i < m, side i = some .gt) (fuel : ℕ) {lo hi : ℕ}
    (hlt : ∀ i, m < i → i < hi → side i = some .lt) (hlo : lo ≤ m) (hhi : m < hi)
    (hfuel : hi - lo ≤ fuel) : bisect side fuel lo hi = some m := by
  induction fuel generalizing lo hi with
  | zero => omega
  | succ fuel ih =>
    rw [bisect, if_pos (by omega)]
    dsimp only
    set mid := lo + (hi - lo) / 2 with hmid
    have hhalf : (hi - lo) / 2 < hi - lo := Nat.div_lt_self (by omega) (by omega)
    rcases lt_trichotomy mid m with hbefore | rfl | hbehind
    · rw [hgt mid hbefore]
      exact ih hlt (by omega) hhi (by omega)
    · rw [heq]
    · rw [hlt mid hbehind (by omega)]
      exact ih (fun i hi hle => hlt i hi (by omega)) hlo hbehind (by omega)
