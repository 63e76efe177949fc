import Mathlib.Data.List.Basic
import Mathlib.Tactic.Lemma

/-!
# Commands that a crash may cut short

A `Cmd ω ε α` is a command over worlds `ω`: started in a world it passes through a list of
worlds, ends in one, and either returns an `α` or throws an `ε`.  The worlds it passes through
are the points at which a crash may strike, so what a crashed run leaves behind is any member of
`passed`, and what a finished run leaves behind is `final`.

`wp C E Q c w` is the weakest precondition of `c` at the world `w` with a *crash condition* `C`
for every world passed through, an *exceptional postcondition* `E` for an error and the world it
leaves, and a postcondition `Q` for a returned value and the final world.

`wp_bind` is an equivalence, so a command is verified by rewriting with the equations below and
citing one lemma for each primitive command.  `wp_forEach` is the invariant rule of a loop with
early return, and `Recovers.induction` the rule for a whole history of runs, each cut anywhere.
-/

namespace CrashLogic

/-- What a command does from one world: the worlds it passes through, in order, the world it
ends in, and what it returns or throws. -/
structure Outcome (ω ε α : Type) where
  passed : List ω
  final : ω
  result : Except ε α

/-- A command over worlds `ω` that throws errors `ε` and returns values `α`. -/
def Cmd (ω ε α : Type) : Type := ω → Outcome ω ε α

variable {ω ε α β σ ι : Type}

namespace Cmd

/-- Return a value without touching the world. -/
def ret (a : α) : Cmd ω ε α := fun w => ⟨[], w, .ok a⟩

/-- Throw an error without touching the world. -/
def fail (e : ε) : Cmd ω ε α := fun w => ⟨[], w, .error e⟩

/-- Read something off the world. -/
def gets (f : ω → α) : Cmd ω ε α := fun w => ⟨[], w, .ok (f w)⟩

/-- Change the world in one indivisible step. -/
def update (f : ω → α × ω) : Cmd ω ε α := fun w => ⟨[w], (f w).2, .ok (f w).1⟩

/-- Run a command and, when it returns, the command its value selects. -/
def andThen (c : Cmd ω ε α) (k : α → Cmd ω ε β) : Cmd ω ε β := fun w =>
  match (c w).result with
  | .ok a =>
    let rest := k a (c w).final
    ⟨(c w).passed ++ rest.passed, rest.final, rest.result⟩
  | .error e => ⟨(c w).passed, (c w).final, .error e⟩

instance : Monad (Cmd ω ε) where
  pure := ret
  bind := andThen

/-- Run a command for its effect and forget whether it failed. -/
def attempt (c : Cmd ω ε α) : Cmd ω ε Unit := fun w =>
  ⟨(c w).passed, (c w).final, .ok ()⟩

/-- Run the body for each item in turn, threading a state; the body ends the loop early by
returning `.inl`. -/
def forEach : List ι → (ι → σ → Cmd ω ε (α ⊕ σ)) → σ → Cmd ω ε (α ⊕ σ)
  | [], _, s => ret (.inr s)
  | i :: items, body, s => andThen (body i s) fun
    | .inl a => ret (.inl a)
    | .inr s' => forEach items body s'

/-- The worlds a run can leave behind, cut or not. -/
def leaves (c : Cmd ω ε α) (w : ω) : List ω := (c w).passed ++ [(c w).final]

end Cmd

/-! ## The weakest precondition -/

/-- Every world passed through satisfies `C`, an error and the world it leaves are related by
`E`, and a returned value and the final world by `Q`. -/
def wp (C : ω → Prop) (E : ε → ω → Prop) (Q : α → ω → Prop) (c : Cmd ω ε α) (w : ω) : Prop :=
  (∀ v ∈ (c w).passed, C v) ∧
    match (c w).result with
    | .ok a => Q a (c w).final
    | .error e => E e (c w).final

variable {C C' : ω → Prop} {E E' : ε → ω → Prop} {Q Q' : α → ω → Prop} {w : ω}

@[simp] lemma wp_pure (a : α) : wp C E Q (pure a : Cmd ω ε α) w ↔ Q a w := by
  simp [wp, pure, Cmd.ret]

@[simp] lemma wp_ret (a : α) : wp C E Q (Cmd.ret a : Cmd ω ε α) w ↔ Q a w := by
  simp [wp, Cmd.ret]

@[simp] lemma wp_fail (e : ε) : wp C E Q (Cmd.fail e : Cmd ω ε α) w ↔ E e w := by
  simp [wp, Cmd.fail]

@[simp] lemma wp_gets (f : ω → α) : wp C E Q (Cmd.gets f : Cmd ω ε α) w ↔ Q (f w) w := by
  simp [wp, Cmd.gets]

@[simp] lemma wp_update (f : ω → α × ω) :
    wp C E Q (Cmd.update f : Cmd ω ε α) w ↔ C w ∧ Q (f w).1 (f w).2 := by
  simp [wp, Cmd.update]

lemma wp_andThen {Q : β → ω → Prop} (c : Cmd ω ε α) (k : α → Cmd ω ε β) :
    wp C E Q (Cmd.andThen c k) w ↔ wp C E (fun a v => wp C E Q (k a) v) c w := by
  unfold wp Cmd.andThen
  cases (c w).result with
  | error e => simp
  | ok a =>
    constructor
    · rintro ⟨hpassed, hres⟩
      refine ⟨fun v hv => hpassed v (List.mem_append_left _ hv), ?_, hres⟩
      exact fun v hv => hpassed v (List.mem_append_right _ hv)
    · rintro ⟨hc, hk, hres⟩
      refine ⟨fun v hv => ?_, hres⟩
      exact (List.mem_append.1 hv).elim (hc v) (hk v)

@[simp] lemma wp_bind {Q : β → ω → Prop} (c : Cmd ω ε α) (k : α → Cmd ω ε β) :
    wp C E Q (c >>= k) w ↔ wp C E (fun a v => wp C E Q (k a) v) c w :=
  wp_andThen c k

/-- Rule of consequence: all three conditions may be weakened. -/
lemma wp_mono {c : Cmd ω ε α} (hC : ∀ v, C v → C' v) (hE : ∀ e v, E e v → E' e v)
    (hQ : ∀ a v, Q a v → Q' a v) (h : wp C E Q c w) : wp C' E' Q' c w := by
  obtain ⟨hpassed, hres⟩ := h
  refine ⟨fun v hv => hC v (hpassed v hv), ?_⟩
  cases hr : (c w).result with
  | ok a => rw [hr] at hres; exact hQ a _ hres
  | error e => rw [hr] at hres; exact hE e _ hres

/-- Only the postcondition is weakened. -/
lemma wp_post {c : Cmd ω ε α} (h : wp C E Q c w) (hQ : ∀ a v, Q a v → Q' a v) : wp C E Q' c w :=
  wp_mono (fun _ hv => hv) (fun _ _ hv => hv) hQ h

/-- Rule of conjunction: what is shown of a run in two proofs holds together. -/
lemma wp_and {c : Cmd ω ε α} (h : wp C E Q c w) (h' : wp C' E' Q' c w) :
    wp (fun v => C v ∧ C' v) (fun e v => E e v ∧ E' e v) (fun a v => Q a v ∧ Q' a v) c w := by
  obtain ⟨hpassed, hres⟩ := h
  obtain ⟨hpassed', hres'⟩ := h'
  refine ⟨fun v hv => ⟨hpassed v hv, hpassed' v hv⟩, ?_⟩
  cases hr : (c w).result with
  | ok a => rw [hr] at hres hres'; exact ⟨hres, hres'⟩
  | error e => rw [hr] at hres hres'; exact ⟨hres, hres'⟩

/-- A command whose failure is ignored owes its postcondition after a failure too. -/
lemma wp_attempt {Q : Unit → ω → Prop} {c : Cmd ω ε α}
    (h : wp C (fun _ => Q ()) (fun _ => Q ()) c w) : wp C E Q c.attempt w := by
  obtain ⟨hpassed, hres⟩ := h
  refine ⟨hpassed, ?_⟩
  show Q () (c w).final
  cases hr : (c w).result with
  | ok a => rw [hr] at hres; exact hres
  | error e => rw [hr] at hres; exact hres

/-- **The loop rule.**  `I items s` is what holds when `items` are still to come; a body that
returns early owes the postcondition of the whole loop. -/
lemma wp_forEach {body : ι → σ → Cmd ω ε (α ⊕ σ)} {Q : α ⊕ σ → ω → Prop}
    {I : List ι → σ → ω → Prop}
    (step : ∀ i items s w, I (i :: items) s w →
      wp C E (fun r v => match r with
        | .inl a => Q (.inl a) v
        | .inr s' => I items s' v) (body i s) w)
    (done : ∀ s w, I [] s w → Q (.inr s) w) :
    ∀ items s w, I items s w → wp C E Q (Cmd.forEach items body s) w := by
  intro items
  induction items with
  | nil => intro s w h; simpa [Cmd.forEach] using done s w h
  | cons i items ih =>
    intro s w h
    rw [Cmd.forEach, wp_andThen]
    apply wp_post (step i items s w h)
    intro r v hr
    cases r with
    | inl a => simpa using hr
    | inr s' => exact ih s' v hr

/-- The loop rule for a loop that counts: `I k` holds before index `k`. -/
lemma wp_forRange {body : ℕ → σ → Cmd ω ε (α ⊕ σ)} {Q : α ⊕ σ → ω → Prop}
    {I : ℕ → σ → ω → Prop} {n : ℕ}
    (step : ∀ k s w, k < n → I k s w →
      wp C E (fun r v => match r with
        | .inl a => Q (.inl a) v
        | .inr s' => I (k + 1) s' v) (body k s) w)
    (done : ∀ s w, I n s w → Q (.inr s) w) {s : σ} (h : I 0 s w) :
    wp C E Q (Cmd.forEach (List.range n) body s) w := by
  refine wp_forEach
    (I := fun items s w => ∃ k, items = List.range' k (n - k) ∧ k ≤ n ∧ I k s w) ?_ ?_ _ _ _
    ⟨0, by simp [List.range_eq_range'], Nat.zero_le _, h⟩
  · rintro i items s w ⟨k, hitems, hk, hI⟩
    obtain ⟨m, hm⟩ : ∃ m, n - k = m + 1 := by
      cases hnk : n - k with
      | zero => rw [hnk] at hitems; exact absurd hitems (by simp)
      | succ m => exact ⟨m, rfl⟩
    rw [hm, List.range'_succ, List.cons.injEq] at hitems
    obtain ⟨rfl, rfl⟩ := hitems
    apply wp_post (step i s w (by omega) hI)
    intro r v hr
    cases r with
    | inl a => exact hr
    | inr s' => exact ⟨i + 1, by rw [show n - (i + 1) = m by omega], by omega, hr⟩
  · rintro s w ⟨k, hitems, hk, hI⟩
    have hlen := congrArg List.length hitems
    simp only [List.length_nil, List.length_range'] at hlen
    obtain rfl : k = n := by omega
    exact done s w hI

/-! ## What a run leaves behind -/

lemma wp_returned {c : Cmd ω ε α} (h : wp C E Q c w) {a : α} (hr : (c w).result = .ok a) :
    Q a (c w).final := by
  have h2 := h.2
  rw [hr] at h2
  exact h2

lemma wp_thrown {c : Cmd ω ε α} (h : wp C E Q c w) {e : ε} (hr : (c w).result = .error e) :
    E e (c w).final := by
  have h2 := h.2
  rw [hr] at h2
  exact h2

/-- A command whose ends satisfy the crash condition too leaves only worlds in it. -/
lemma wp_leaves {c : Cmd ω ε α} (h : wp C (fun _ => C) (fun _ => C) c w) :
    ∀ v ∈ c.leaves w, C v := by
  intro v hv
  rcases List.mem_append.1 hv with hv | hv
  · exact h.1 v hv
  · obtain rfl := List.mem_singleton.1 hv
    cases hr : (c w).result with
    | ok a => exact wp_returned h hr
    | error e => exact wp_thrown h hr

/-! ## Histories of runs -/

/-- The worlds a history of runs can leave behind: it begins in a `start` world, each run is cut
anywhere or runs to its end, leaving a world the run is `allowed` to leave, and between two runs
the world may `drift`. -/
inductive Recovers (run : ι → Cmd ω ε α) (start : ω → Prop) (allowed : ι → ω → ω → Prop)
    (drift : ω → ω → Prop) : ω → Prop where
  | begin {w : ω} : start w → Recovers run start allowed drift w
  | ran {w v : ω} (i : ι) : Recovers run start allowed drift w → v ∈ (run i).leaves w →
      allowed i w v → Recovers run start allowed drift v
  | drifted {w v : ω} : Recovers run start allowed drift w → drift w v →
      Recovers run start allowed drift v

/-- **The recovery rule.**  A crash condition that holds at the start, that every run
re-establishes in each world it is allowed to leave, and that survives the drift holds after every
history. -/
theorem Recovers.induction {run : ι → Cmd ω ε α} {start : ω → Prop}
    {allowed : ι → ω → ω → Prop} {drift : ω → ω → Prop} (begins : ∀ w, start w → C w)
    (runs : ∀ i w, C w → ∀ v ∈ (run i).leaves w, allowed i w v → C v)
    (drifts : ∀ w v, C w → drift w v → C v) {w : ω}
    (h : Recovers run start allowed drift w) : C w := by
  induction h with
  | begin hw => exact begins _ hw
  | ran i _ hv ha ih => exact runs i _ ih _ hv ha
  | drifted _ hd ih => exact drifts _ _ ih hd

end CrashLogic
