import Mathlib.Tactic

/-!
# Loops that stop when the state is full

Items come in rounds, and in a round in groups.  A loop over a group stops behind an item that fills
the state, and the rounds stop before one for which the state is full.  The log says which items
were visited, each with the state it found: what every visit keeps is kept (`rounds_invariant`), no
item is visited more often than it comes (`roundsLog_sublist`), and if the state is not full in the
end, all were visited (`roundsLog_eq`).
-/

namespace CappedLoop

variable {σ α : Type} (visit : σ → α → σ) (full : σ → Bool)

/-- The items of a group, up to one that fills the state. -/
def loop : List α → σ → σ
  | [], s => s
  | a :: as, s => if full (visit s a) then visit s a else loop as (visit s a)

/-- The groups of a round in turn. -/
def groups : List (List α) → σ → σ
  | [], s => s
  | g :: gs, s => groups gs (loop visit full g s)

/-- Rounds, as long as the state is not full. -/
def rounds : List (List (List α)) → σ → σ
  | [], s => s
  | r :: rs, s => if full s then s else rounds rs (groups visit full r s)

/-- The items that the loop visits, each with the state before. -/
def loopLog : List α → σ → List (α × σ)
  | [], _ => []
  | a :: as, s => (a, s) :: if full (visit s a) then [] else loopLog as (visit s a)

/-- Those of the groups of a round. -/
def groupsLog : List (List α) → σ → List (α × σ)
  | [], _ => []
  | g :: gs, s => loopLog visit full g s ++ groupsLog gs (loop visit full g s)

/-- Those of all rounds. -/
def roundsLog : List (List (List α)) → σ → List (α × σ)
  | [], _ => []
  | r :: rs, s =>
    if full s then [] else groupsLog visit full r s ++ roundsLog rs (groups visit full r s)

variable {visit full} {I : σ → Prop} {s : σ}

section Steps

variable (a : α) (as : List α) (g : List α) (gs : List (List α)) (r : List (List α))
  (rs : List (List (List α)))

lemma loop_cons : loop visit full (a :: as) s =
    if full (visit s a) then visit s a else loop visit full as (visit s a) := rfl

lemma rounds_cons : rounds visit full (r :: rs) s =
    if full s then s else rounds visit full rs (groups visit full r s) := rfl

lemma loopLog_cons : loopLog visit full (a :: as) s =
    (a, s) :: if full (visit s a) then [] else loopLog visit full as (visit s a) := rfl

lemma groupsLog_cons : groupsLog visit full (g :: gs) s =
    loopLog visit full g s ++ groupsLog visit full gs (loop visit full g s) := rfl

lemma roundsLog_cons : roundsLog visit full (r :: rs) s =
    if full s then []
    else groupsLog visit full r s ++ roundsLog visit full rs (groups visit full r s) := rfl

end Steps

/-! ## What is kept -/

lemma loop_invariant {as : List α} (hs : I s)
    (h : ∀ e ∈ loopLog visit full as s, I e.2 → I (visit e.2 e.1)) : I (loop visit full as s) := by
  induction as generalizing s with
  | nil => exact hs
  | cons a as ih =>
    have hnext := h (a, s) List.mem_cons_self hs
    rw [loop_cons]
    split
    · exact hnext
    · rename_i hfull
      refine ih hnext fun e he => h e (List.mem_cons_of_mem _ ?_)
      rwa [if_neg hfull]

lemma groups_invariant {gs : List (List α)} (hs : I s)
    (h : ∀ e ∈ groupsLog visit full gs s, I e.2 → I (visit e.2 e.1)) :
    I (groups visit full gs s) := by
  induction gs generalizing s with
  | nil => exact hs
  | cons g gs ih =>
    have hnext := loop_invariant hs fun e he => h e (List.mem_append_left _ he)
    exact ih hnext fun e he => h e (List.mem_append_right _ he)

/-- **What every visit keeps** holds in the end. -/
lemma rounds_invariant {rs : List (List (List α))} (hs : I s)
    (h : ∀ e ∈ roundsLog visit full rs s, I e.2 → I (visit e.2 e.1)) :
    I (rounds visit full rs s) := by
  induction rs generalizing s with
  | nil => exact hs
  | cons r rs ih =>
    rw [rounds_cons]
    rw [roundsLog_cons] at h
    split
    · exact hs
    · rename_i hfull
      rw [if_neg hfull] at h
      have hnext := groups_invariant hs fun e he => h e (List.mem_append_left _ he)
      exact ih hnext fun e he => h e (List.mem_append_right _ he)

/-! ## What is visited -/

lemma loopLog_sublist (as : List α) (s : σ) :
    ((loopLog visit full as s).map Prod.fst).Sublist as := by
  induction as generalizing s with
  | nil => exact List.Sublist.slnil
  | cons a as ih =>
    rw [loopLog_cons, List.map_cons]
    split
    · exact (List.nil_sublist as).cons_cons a
    · exact (ih (visit s a)).cons_cons a

lemma groupsLog_sublist (gs : List (List α)) (s : σ) :
    ((groupsLog visit full gs s).map Prod.fst).Sublist gs.flatten := by
  induction gs generalizing s with
  | nil => exact List.Sublist.slnil
  | cons g gs ih =>
    rw [groupsLog_cons, List.map_append, List.flatten_cons]
    exact (loopLog_sublist g s).append (ih _)

/-- **No item is visited more often than it comes**, and they are visited in order. -/
lemma roundsLog_sublist (rs : List (List (List α))) (s : σ) :
    ((roundsLog visit full rs s).map Prod.fst).Sublist (rs.map List.flatten).flatten := by
  induction rs generalizing s with
  | nil => exact List.Sublist.slnil
  | cons r rs ih =>
    rw [roundsLog_cons, List.map_cons, List.flatten_cons]
    split
    · exact List.nil_sublist _
    · rw [List.map_append]
      exact (groupsLog_sublist r s).append (ih _)

lemma loopLog_eq {as : List α} (h : full (loop visit full as s) = false) :
    (loopLog visit full as s).map Prod.fst = as := by
  induction as generalizing s with
  | nil => rfl
  | cons a as ih =>
    rw [loop_cons] at h
    split at h
    · rename_i hfull
      exact absurd (h.symm.trans hfull) Bool.false_ne_true
    · rename_i hfull
      rw [loopLog_cons, if_neg hfull, List.map_cons, ih h]

/-- If the state is full from the beginning, nothing is visited. -/
lemma roundsLog_of_full {rs : List (List (List α))} (h : full s = true) :
    roundsLog visit full rs s = [] := by
  cases rs with
  | nil => rfl
  | cons r rs => rw [roundsLog_cons, if_pos h]

lemma full_loop (hmono : ∀ s a, full s = true → full (visit s a) = true) (as : List α)
    (h : full s = true) : full (loop visit full as s) = true := by
  cases as with
  | nil => exact h
  | cons a as =>
    rw [loop_cons, if_pos (hmono s a h)]
    exact hmono s a h

lemma full_groups (hmono : ∀ s a, full s = true → full (visit s a) = true)
    (gs : List (List α)) (h : full s = true) :
    full (groups visit full gs s) = true := by
  induction gs generalizing s with
  | nil => exact h
  | cons g gs ih => exact ih (full_loop hmono g h)

lemma groupsLog_eq (hmono : ∀ s a, full s = true → full (visit s a) = true)
    {gs : List (List α)} (h : full (groups visit full gs s) = false) :
    (groupsLog visit full gs s).map Prod.fst = gs.flatten := by
  induction gs generalizing s with
  | nil => rfl
  | cons g gs ih =>
    have hloop : full (loop visit full g s) = false :=
      Bool.eq_false_iff.2 fun hfull =>
        Bool.false_ne_true (h.symm.trans (full_groups hmono gs hfull))
    rw [groupsLog_cons, List.map_append, loopLog_eq hloop, ih h, List.flatten_cons]

/-- **All items are visited** if the state is not full in the end, and a visit never makes room. -/
lemma roundsLog_eq (hmono : ∀ s a, full s = true → full (visit s a) = true)
    {rs : List (List (List α))} (h : full (rounds visit full rs s) = false) :
    (roundsLog visit full rs s).map Prod.fst = (rs.map List.flatten).flatten := by
  have hrounds : ∀ rs s, full s = true → full (rounds visit full rs s) = true := by
    intro rs s hs
    cases rs with
    | nil => exact hs
    | cons r rs => rwa [rounds_cons, if_pos hs]
  induction rs generalizing s with
  | nil => rfl
  | cons r rs ih =>
    rw [rounds_cons] at h
    split at h
    · rename_i hfull
      exact absurd (h.symm.trans hfull) Bool.false_ne_true
    · rename_i hfull
      have hgroups : full (groups visit full r s) = false :=
        Bool.eq_false_iff.2 fun hf => Bool.false_ne_true (h.symm.trans (hrounds rs _ hf))
      rw [roundsLog_cons, if_neg hfull, List.map_append, groupsLog_eq hmono hgroups, ih h,
        List.map_cons, List.flatten_cons]

end CappedLoop
