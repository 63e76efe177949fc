import Reclaim.Carve.Engine
import Reclaim.Foundation.Fields

/-!
# The file that a validator sees

A validator reads from the start of its candidate on.  `Ctx.Sees` says which bytes it reads: those
of the source from there to its end, zeros behind.
-/

namespace Reclaim

open FileBytes

/-- The verdict accepts a complete file of `n` bytes. -/
def Verdict.IsFull (v : Verdict) (n : ℕ) : Prop :=
  v.accept = true ∧ v.validity = .full ∧ v.len = n

/-- The validator reads the bytes `g`, zeros behind them, and knows how many there are. -/
structure Ctx.Sees (ctx : Ctx) (R : Reader) (g : Bytes) : Prop where
  read : ∀ rel len, (ctx.read rel len).run R = slice g rel len
  available : ctx.available = min g.length ctx.maxLen

variable {R : Reader} {ctx : Ctx} {data g : Bytes} {n m : ℕ} {v : Verdict}

/-- A reader of a source shows the validator the source from the file start on. -/
lemma Ctx.sees (hR : R.Reads data) (hlen : ctx.sourceLen = data.length)
    (hu64 : data.length ≤ u64Max) : ctx.Sees R (data.drop ctx.fileStart) where
  read rel len := by
    rw [Ctx.read, ReadProg.run_bytes, hR]
    apply ext_byteAt (by simp)
    intro k hk
    rw [length_slice] at hk
    rw [byteAt_slice, byteAt_slice, if_pos hk, if_pos hk, byteAt_drop]
    unfold saturatingAdd
    by_cases hend : ctx.fileStart + rel ≤ u64Max
    · rw [min_eq_left hend, Nat.add_assoc]
    · -- an offset behind the last that there is reads zeros
      rw [byteAt_of_length_le (by omega), byteAt_of_length_le (by omega)]
  available := by rw [Ctx.available, hlen, List.length_drop]

lemma Ctx.Sees.available_le (h : ctx.Sees R g) : ctx.available ≤ g.length :=
  h.available ▸ min_le_left _ _

namespace Verdict

lemma not_isFull_rejected : ¬ rejected.IsFull n := fun h => absurd h.1 Bool.false_ne_true

lemma isFull_accepted {validity : Validity} {score : ℕ} :
    (accepted m validity score).IsFull n ↔ validity = .full ∧ m = n :=
  ⟨fun h => h.2, fun h => ⟨rfl, h⟩⟩

end Verdict
end Reclaim
