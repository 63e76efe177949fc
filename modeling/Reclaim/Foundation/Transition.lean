import Mathlib.Tactic

/-!
# Transition systems with labelled steps

A system steps deterministically once its next action is chosen; whatever interleaves, fails or is
scheduled is in the choice of actions.  `Reaches` is what runs reach whose actions are all allowed
where they are taken, and `Reaches.invariant` the rule for what holds in all of it.
-/

namespace Transition

variable {σ α : Type}

/-- A system: where it may begin, and what an action does, if it can be taken. -/
structure System (σ α : Type) where
  init : σ → Prop
  step : σ → α → Option σ

/-- The states reached by runs whose actions are all allowed. -/
inductive Reaches (S : System σ α) (allowed : σ → α → Prop) : σ → Prop
  | init {s : σ} (h : S.init s) : Reaches S allowed s
  | step {s t : σ} (a : α) (h : Reaches S allowed s) (ha : allowed s a)
      (hstep : S.step s a = some t) : Reaches S allowed t

/-- Take the actions of a list in turn. -/
def System.runFrom (S : System σ α) (s : σ) : List α → Option σ
  | [] => some s
  | a :: rest => (S.step s a).bind fun t => S.runFrom t rest

variable {S : System σ α} {allowed : σ → α → Prop}

/-- What holds at the beginning and is kept by every allowed action holds wherever a run gets. -/
theorem Reaches.invariant {I : σ → Prop} (hinit : ∀ s, S.init s → I s)
    (hstep : ∀ s a t, I s → allowed s a → S.step s a = some t → I t) {s : σ}
    (h : Reaches S allowed s) : I s := by
  induction h with
  | init h => exact hinit _ h
  | step a _ ha hs ih => exact hstep _ a _ ih ha hs

lemma Reaches.mono {allowed' : σ → α → Prop} (hsub : ∀ s a, allowed s a → allowed' s a) {s : σ}
    (h : Reaches S allowed s) : Reaches S allowed' s := by
  induction h with
  | init h => exact .init h
  | step a _ ha hs ih => exact .step a ih (hsub _ a ha) hs

/-- A run of actions that are allowed anywhere. -/
lemma Reaches.of_run {s t : σ} (hs : Reaches S allowed s) (as : List α)
    (hall : ∀ a ∈ as, ∀ u, allowed u a) (h : S.runFrom s as = some t) : Reaches S allowed t := by
  induction as generalizing s with
  | nil => exact Option.some.inj h ▸ hs
  | cons a as ih =>
    obtain ⟨u, hu, hrest⟩ := Option.bind_eq_some_iff.1 h
    exact ih (hs.step a (hall a List.mem_cons_self s) hu)
      (fun b hb => hall b (List.mem_cons_of_mem a hb)) hrest

/-- A run that allows everything reaches what its actions lead to. -/
lemma Reaches.of_runFrom {s t : σ} (hs : Reaches S (fun _ _ => True) s) (as : List α)
    (h : S.runFrom s as = some t) : Reaches S (fun _ _ => True) t :=
  hs.of_run as (fun _ _ _ => trivial) h

/-- Two runs in turn. -/
lemma System.runFrom_append (s : σ) (as bs : List α) :
    S.runFrom s (as ++ bs) = (S.runFrom s as).bind fun t => S.runFrom t bs := by
  induction as generalizing s with
  | nil => rfl
  | cons a as ih =>
    rw [List.cons_append, System.runFrom, System.runFrom]
    cases S.step s a with
    | none => rfl
    | some u => exact ih u

end Transition

/-!
## Runs without end

A run that never ends takes one action after the other, its system's own moves and whatever else
happens.  It is fair if its own moves never cease.  The rule of descent: if no action raises a rank
and the system's own moves lower it until the goal is reached, a fair run reaches the goal.
-/

namespace Transition

variable {σ α : Type}

/-- A run without end. -/
structure EndlessRun (S : System σ α) where
  state : ℕ → σ
  act : ℕ → α
  step : ∀ i, S.step (state i) (act i) = some (state (i + 1))

namespace EndlessRun

variable {S : System σ α} (run : EndlessRun S) {moves : α → Prop}

/-- The moves never cease. -/
def Fair (moves : α → Prop) : Prop := ∀ n, ∃ i, n ≤ i ∧ moves (run.act i)

variable {run}

/-- **The rule of descent.** -/
theorem Fair.reaches (hfair : run.Fair moves) {β : Type} {r : β → β → Prop} (hr : WellFounded r)
    (rank : σ → β) {goal : σ → Prop} {n : ℕ}
    (hmove : ∀ i, n ≤ i → ¬ goal (run.state i) → moves (run.act i) →
      r (rank (run.state (i + 1))) (rank (run.state i)))
    (hother : ∀ i, n ≤ i → ¬ goal (run.state i) → ¬ moves (run.act i) →
      rank (run.state (i + 1)) = rank (run.state i) ∨
        r (rank (run.state (i + 1))) (rank (run.state i))) :
    ∃ i, n ≤ i ∧ goal (run.state i) := by
  by_contra hnever
  push Not at hnever
  -- no rank from `n` on lies below the least one
  obtain ⟨_, ⟨i, hi, rfl⟩, hmin⟩ :=
    hr.has_min ((fun i => rank (run.state i)) '' {i | n ≤ i}) ⟨_, n, le_refl n, rfl⟩
  have hleast : ∀ j, n ≤ j → ¬ r (rank (run.state j)) (rank (run.state i)) :=
    fun j hj => hmin _ ⟨j, hj, rfl⟩
  obtain ⟨j, hij, hj⟩ := hfair i
  have hstay : ∀ k, rank (run.state (i + k)) = rank (run.state i) := by
    intro k
    induction k with
    | zero => rfl
    | succ k ih =>
      have hk : n ≤ i + k := Nat.le_add_right_of_le hi
      have hnotBelow := hleast (i + k + 1) (Nat.le_succ_of_le hk)
      by_cases hmoves : moves (run.act (i + k))
      · exact absurd (ih ▸ hmove (i + k) hk (hnever _ hk) hmoves) hnotBelow
      · rcases hother (i + k) hk (hnever _ hk) hmoves with heq | hlt
        · exact heq.trans ih
        · exact absurd (ih ▸ hlt) hnotBelow
  obtain ⟨k, rfl⟩ := Nat.exists_eq_add_of_le hij
  have hk : n ≤ i + k := Nat.le_add_right_of_le hi
  exact hleast _ (Nat.le_succ_of_le hk) (hstay k ▸ hmove (i + k) hk (hnever _ hk) hj)

end EndlessRun

end Transition
