import Reclaim.Foundation.FileBytes

/-!
# Programs that read

A `ReadProg α` reads ranges of a source, decides by what it gets what to read next, and returns an
`α`.  A read answers with bytes and a flag.  `run` answers from a reader that is always the same,
`exec` from one with a state of its own, and the two agree as long as the state does not show.
-/

namespace Reclaim

open FileBytes

/-- What a read of `len` bytes at an offset answers. -/
abbrev Reader := ℕ → ℕ → Bytes × Bool

/-- The reader answers with the bytes of `data`, zero past the end. -/
def Reader.Reads (R : Reader) (data : Bytes) : Prop := ∀ off n, (R off n).1 = slice data off n

/-- A reader over a buffer. -/
def memReader (data : Bytes) : Reader := fun off n => (slice data off n, false)

lemma memReader_reads (data : Bytes) : (memReader data).Reads data := fun _ _ => rfl

/-- A reader over a buffer takes what there is and fills up with zeros. -/
lemma memReader_eq (data : Bytes) : memReader data = fun off n =>
    ((data.drop off).take n ++ List.replicate (n - (data.length - off)) 0, false) := by
  funext off n
  refine congrArg (·, false) (ext_byteAt ?_ fun k hk => ?_)
  · simp only [length_slice, List.length_append, List.length_take, List.length_drop,
      List.length_replicate]
    omega
  · rw [length_slice] at hk
    rw [byteAt_slice, if_pos hk, byteAt_append, List.length_take, List.length_drop]
    split
    · rw [byteAt_take, if_pos hk, byteAt_drop]
    · rw [byteAt_replicate_zero, byteAt_of_length_le (by omega)]

/-- A program over reads. -/
inductive ReadProg (α : Type) where
  | ret (a : α)
  | read (offset len : ℕ) (k : Bytes × Bool → ReadProg α)

namespace ReadProg

variable {α β σ : Type}

/-- Run a program and go on with what it returns. -/
def bind : ReadProg α → (α → ReadProg β) → ReadProg β
  | .ret a, f => f a
  | .read offset len k, f => .read offset len fun r => (k r).bind f

instance : Monad ReadProg where
  pure := .ret
  bind := bind

/-- The bytes of a range. -/
def bytes (offset len : ℕ) : ReadProg Bytes := .read offset len fun r => .ret r.1

/-- Whether a range is flagged. -/
def flag (offset len : ℕ) : ReadProg Bool := .read offset len fun r => .ret r.2

/-- What the program returns over a reader. -/
def run (R : Reader) : ReadProg α → α
  | .ret a => a
  | .read offset len k => (k (R offset len)).run R

/-- What the program returns over a reader with a state, and the state behind it. -/
def exec (step : ℕ → ℕ → σ → (Bytes × Bool) × σ) : ReadProg α → σ → α × σ
  | .ret a, s => (a, s)
  | .read offset len k, s => (k (step offset len s).1).exec step (step offset len s).2

variable (R : Reader)

@[simp] lemma run_ret (a : α) : (ret a).run R = a := rfl

@[simp] lemma run_pure (a : α) : (pure a : ReadProg α).run R = a := rfl

@[simp] lemma run_bytes (offset len : ℕ) : (bytes offset len).run R = (R offset len).1 := rfl

@[simp] lemma run_flag (offset len : ℕ) : (flag offset len).run R = (R offset len).2 := rfl

@[simp] lemma run_bind (p : ReadProg α) (f : α → ReadProg β) :
    (p >>= f).run R = (f (p.run R)).run R := by
  induction p with
  | ret a => rfl
  | read offset len k ih => exact ih (R offset len)

@[simp] lemma run_ite {c : Prop} [Decidable c] (p q : ReadProg α) :
    (if c then p else q).run R = if c then p.run R else q.run R := by
  split <;> rfl

variable {R}

/-- Over a state whose answers are those of one reader, a program returns what it does over that,
and the state keeps answering so. -/
theorem exec_eq_run {step : ℕ → ℕ → σ → (Bytes × Bool) × σ} {I : σ → Prop}
    (h : ∀ s, I s → ∀ offset len, (step offset len s).1 = R offset len ∧ I (step offset len s).2)
    (p : ReadProg α) : ∀ s, I s → (p.exec step s).1 = p.run R ∧ I (p.exec step s).2 := by
  induction p with
  | ret a => exact fun s hs => ⟨rfl, hs⟩
  | read offset len k ih =>
    intro s hs
    obtain ⟨hans, hnext⟩ := h s hs offset len
    rw [exec, run, hans]
    exact ih (R offset len) _ hnext

end ReadProg
end Reclaim

/-!
## What a program returns, whatever it reads

`p.Ensures P` says that `P` holds of what `p` returns over every reader of a class.  A program is
verified by its shape: one rule for returning, reading, going on and branching.
-/

namespace Reclaim

open FileBytes

/-- A read of `len` bytes answers with no more. -/
def Reader.Bounded (R : Reader) : Prop := ∀ off len, (R off len).1.length ≤ len

lemma Reader.Reads.bounded {R : Reader} {data : Bytes} (h : R.Reads data) : R.Bounded :=
  fun off len => by
    rw [h off len, length_slice]

namespace ReadProg

variable {α β : Type} {P : α → Prop} {Q : β → Prop}

/-- `P` holds of what the program returns, over every bounded reader. -/
def Ensures (p : ReadProg α) (P : α → Prop) : Prop := ∀ R : Reader, R.Bounded → P (p.run R)

@[simp] lemma ensures_pure {a : α} : (pure a : ReadProg α).Ensures P ↔ P a :=
  ⟨fun h => h (fun _ _ => ([], false)) fun _ _ => Nat.zero_le _, fun h _ _ => h⟩

lemma Ensures.mono {P' : α → Prop} {p : ReadProg α} (h : p.Ensures P) (hle : ∀ a, P a → P' a) :
    p.Ensures P' := fun _ hR => hle _ (h _ hR)

/-- What is known of an intermediate result is known when the program goes on with it. -/
lemma Ensures.bind {p : ReadProg α} {f : α → ReadProg β} (h : p.Ensures P)
    (hf : ∀ a, P a → (f a).Ensures Q) : (p >>= f).Ensures Q := fun R hR => by
  rw [run_bind]
  exact hf _ (h R hR) R hR

/-- Nothing need be known of it. -/
lemma ensures_bind {p : ReadProg α} {f : α → ReadProg β} (hf : ∀ a, (f a).Ensures Q) :
    (p >>= f).Ensures Q :=
  Ensures.bind (P := fun _ => True) (fun _ _ => trivial) fun a _ => hf a

/-- A read answers with no more bytes than it asks for. -/
lemma ensures_bytes (offset len : ℕ) : (bytes offset len).Ensures fun b => b.length ≤ len :=
  fun _ hR => hR offset len

lemma ensures_ite {c : Prop} [Decidable c] {p q : ReadProg α} (hp : c → p.Ensures P)
    (hq : ¬ c → q.Ensures P) : (if c then p else q).Ensures P := by
  by_cases h : c
  · rw [if_pos h]
    exact hp h
  · rw [if_neg h]
    exact hq h

end ReadProg
end Reclaim
