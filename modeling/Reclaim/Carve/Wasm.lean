import Reclaim.Carve.FileView

/-!
# WebAssembly modules

A module is a magic, a version and a list of sections, each an id, a LEB128 size and so many bytes.
Nothing ends the list, so the walk stops at the first bytes that begin no section.  Zeros do begin
one: an empty section with id 0.
-/

namespace Reclaim

open FileBytes

namespace Wasm

/-- `\0asm`. -/
def magic : Bytes := [0x00, 0x61, 0x73, 0x6D]

/-- The version. -/
def version : Bytes := [0x01, 0x00, 0x00, 0x00]

/-- `MAX`. -/
def maxSize : ℕ := 512 * 1024 * 1024

/-- The most sections that the walk goes through. -/
def maxSections : ℕ := 100000

/-- The loop of `read_uleb` from byte `i` on, `result` being the value of the bytes before. -/
def ulebFrom : Bytes → (i result : ℕ) → Option (ℕ × ℕ)
  | [], _, _ => none
  | byte :: rest, i, result =>
    -- a shift in 64 bits loses what is beyond them
    let result := result + byte.toNat % 128 * 2 ^ (7 * i) % 2 ^ 64
    if byte < 0x80 then some (result, i + 1) else ulebFrom rest (i + 1) result

/-- `read_uleb`: the value, and how many bytes it takes. -/
def readUleb (b : Bytes) : Option (ℕ × ℕ) := ulebFrom (b.take 10) 0 0

/-- The size of the section whose first bytes these are, and how many bytes the size takes. -/
def readIntro (intro : Bytes) : Option (ℕ × ℕ) :=
  match intro.head? with
  | some id => if id ≤ 13 then readUleb (intro.drop 1) else none
  | none => none

/-- What the walk returns where it stops. -/
def finish (pos : ℕ) : Verdict :=
  if pos < 8 then .rejected else { Verdict.accepted pos .full 85 with format := some "exec.wasm" }

/-- The sections from `pos` on, `fuel` at most. -/
def walk (ctx : Ctx) (cap : ℕ) : (fuel pos : ℕ) → ReadProg Verdict
  | 0, pos => pure (finish pos)
  | fuel + 1, pos =>
    if cap ≤ pos then pure (finish pos)
    else do
      let intro ← ctx.read pos 6
      match readIntro intro with
      | none => pure (finish pos)
      | some (size, n) =>
        let next := pos + 1 + n + size
        if cap < next then
          pure { Verdict.accepted cap .truncated 45 with format := some "exec.wasm" }
        else walk ctx cap fuel next

/-- `validate`. -/
def validate (ctx : Ctx) : ReadProg Verdict := do
  let head ← ctx.read 0 8
  if head.take 4 ≠ magic then pure .rejected
  else if (head.drop 4).take 4 ≠ version then pure .rejected
  else walk ctx (min ctx.available maxSize) maxSections 8

/-! ## The format -/

/-- The bytes are the LEB128 of a number, with or without leading zeros. -/
inductive IsUleb : Bytes → ℕ → Prop
  | last (b : UInt8) : b.toNat < 128 → IsUleb [b] b.toNat
  | more (b : UInt8) {rest : Bytes} {n : ℕ} : 128 ≤ b.toNat → IsUleb rest n →
      IsUleb (b :: rest) (b.toNat - 128 + 128 * n)

/-- A section. -/
structure Part where
  id : UInt8
  /-- The size as it is written. -/
  size : Bytes
  payload : Bytes
  id_le : id ≤ 13
  /-- A size of 32 bits takes five bytes at most. -/
  size_length : size.length ≤ 5
  size_eq : IsUleb size payload.length

/-- The bytes of a section. -/
def Part.bytes (s : Part) : Bytes := s.id :: (s.size ++ s.payload)

/-- The bytes of a list of sections. -/
def bytesOf (parts : List Part) : Bytes := parts.flatMap Part.bytes

/-- The bytes of a module. -/
def moduleBytes (parts : List Part) : Bytes := magic ++ (version ++ bytesOf parts)

/-- Bytes begin a section: an id, and a size of five bytes at most. -/
def StartsSection (b : Bytes) : Prop := (readIntro (slice b 0 6)).isSome = true

instance (b : Bytes) : Decidable (StartsSection b) :=
  inferInstanceAs (Decidable ((readIntro (slice b 0 6)).isSome = true))

/-! ## Sizes -/

section Sizes

variable {b x : Bytes} {i n result : ℕ}

lemma byte_lt_iff {b : UInt8} : b < 0x80 ↔ b.toNat < 128 := UInt8.lt_iff_toNat_lt

lemma IsUleb.length_pos (h : IsUleb b n) : 0 < b.length := by
  cases h with
  | last => exact Nat.one_pos
  | more => exact Nat.succ_pos _

/-- Seven bits that a shift does not lose. -/
lemma shifted_lt {m : ℕ} (hi : i ≤ 8) : m % 128 * 2 ^ (7 * i) < 2 ^ 64 := by
  have hpow : 2 ^ (7 * i) ≤ 2 ^ (7 * 8) := Nat.pow_le_pow_right (by omega) (by omega)
  have hmod : m % 128 ≤ 127 := by omega
  calc m % 128 * 2 ^ (7 * i) ≤ 127 * 2 ^ (7 * 8) := Nat.mul_le_mul hmod hpow
    _ < 2 ^ 64 := by omega

/-- A number is read, whatever follows it. -/
lemma ulebFrom_append (h : IsUleb b n) (hlen : i + b.length ≤ 9) :
    ulebFrom (b ++ x) i result = some (result + n * 2 ^ (7 * i), i + b.length) := by
  induction h generalizing i result with
  | last d hd =>
    rw [List.length_singleton] at hlen ⊢
    rw [List.singleton_append, ulebFrom, if_pos (byte_lt_iff.2 hd),
      Nat.mod_eq_of_lt (shifted_lt (by omega)), Nat.mod_eq_of_lt hd]
  | @more d rest m hd _ ih =>
    rw [List.length_cons] at hlen ⊢
    have hlt : d.toNat < 256 := d.toNat_lt
    have hmod : d.toNat % 128 = d.toNat - 128 := by omega
    rw [List.cons_append, ulebFrom, if_neg (byte_lt_iff.not.2 (not_lt.2 hd)),
      Nat.mod_eq_of_lt (shifted_lt (by omega)), hmod, ih (by omega), Nat.mul_add, pow_add]
    congr 2
    · ring
    · omega

lemma readUleb_append (h : IsUleb b n) (hlen : b.length ≤ 9) (hshort : (b ++ x).length ≤ 10) :
    readUleb (b ++ x) = some (n, b.length) := by
  rw [readUleb, List.take_of_length_le hshort, ulebFrom_append h (by omega)]
  simp

end Sizes

/-! ## The walk -/

section Walk

variable {R : Reader} {ctx : Ctx} {g T : Bytes} {cap fuel pos n : ℕ} {s : Part} {parts : List Part}

lemma Part.length_bytes (s : Part) : s.bytes.length = 1 + s.size.length + s.payload.length := by
  rw [Part.bytes, List.length_cons, List.length_append]
  omega

/-- The size of a section is read off its first bytes. -/
lemma Part.readIntro_bytes (s : Part) (x : Bytes) :
    readIntro (slice (s.bytes ++ x) 0 6) = some (s.payload.length, s.size.length) := by
  have hlen := s.size_length
  have hintro : slice (s.bytes ++ x) 0 6 =
      s.id :: (s.size ++ slice (s.payload ++ x) 0 (5 - s.size.length)) := by
    have hid := slice_append_add [s.id] (s.size ++ (s.payload ++ x)) 5
    have hsize := slice_append_add s.size (s.payload ++ x) (5 - s.size.length)
    rw [Nat.add_sub_cancel' hlen] at hsize
    rw [Part.bytes, List.cons_append, List.append_assoc, ← List.singleton_append]
    rw [hsize] at hid
    exact hid
  rw [hintro, readIntro]
  dsimp only [List.head?_cons]
  rw [if_pos s.id_le, List.drop_one, List.tail_cons]
  apply readUleb_append s.size_eq (by omega)
  rw [List.length_append, length_slice]
  omega

/-- **One section of the walk.** -/
lemma run_walk_part (h : ctx.Sees R g) (hg : g.drop pos = s.bytes ++ T)
    (hcap : pos + s.bytes.length ≤ cap) :
    (walk ctx cap (fuel + 1) pos).run R = (walk ctx cap fuel (pos + s.bytes.length)).run R := by
  have hlen := s.length_bytes
  have hnext : pos + 1 + s.size.length + s.payload.length = pos + s.bytes.length := by omega
  rw [walk, if_neg (by omega)]
  simp only [ReadProg.run_bind, h.read]
  rw [slice_eq_slice_drop, hg, s.readIntro_bytes]
  dsimp only
  rw [hnext, if_neg (by omega)]

/-- **The walk goes through the sections.** -/
lemma run_walk_parts (h : ctx.Sees R g) (hg : g.drop pos = bytesOf parts ++ T)
    (hcap : pos + (bytesOf parts).length ≤ cap) :
    (walk ctx cap (fuel + parts.length) pos).run R =
      (walk ctx cap fuel (pos + (bytesOf parts).length)).run R := by
  obtain ⟨-, hwalk⟩ := exists_walk_records (fun fuel pos (_ : Unit) =>
    (walk ctx cap fuel pos).run R) (fun s _ fuel pos _ x hx hle => ⟨(), run_walk_part h hx hle⟩)
    fuel () hg hcap
  exact hwalk

lemma isFull_finish : (finish pos).IsFull n ↔ 8 ≤ pos ∧ pos = n := by
  unfold finish
  split
  · exact iff_of_false Verdict.not_isFull_rejected (by omega)
  · rename_i hpos
    exact ⟨fun hf => ⟨not_lt.1 hpos, hf.2.2⟩, fun hf => ⟨rfl, rfl, hf.2⟩⟩

/-- The walk does not go back. -/
lemma le_of_walk_isFull (hf : ((walk ctx cap fuel pos).run R).IsFull n) : pos ≤ n := by
  induction fuel generalizing pos with
  | zero => exact (isFull_finish.1 hf).2.le
  | succ fuel ih =>
    rw [walk, ReadProg.run_ite] at hf
    split at hf
    · exact (isFull_finish.1 hf).2.le
    · simp only [ReadProg.run_bind] at hf
      cases hintro : readIntro ((ctx.read pos 6).run R) with
      | none =>
        rw [hintro] at hf
        exact (isFull_finish.1 hf).2.le
      | some r =>
        rw [hintro] at hf
        dsimp only at hf
        rw [ReadProg.run_ite] at hf
        split at hf
        · exact absurd hf.2.1 (by decide : Validity.truncated ≠ .full)
        · have := ih hf
          omega

/-- **Where the walk ends**: it stays at `pos` unless a section begins there. -/
lemma walk_isFull_here_iff (h : ctx.Sees R g) (hpos : 8 ≤ pos) :
    ((walk ctx cap fuel pos).run R).IsFull pos ↔
      fuel = 0 ∨ cap ≤ pos ∨ ¬ StartsSection (g.drop pos) := by
  cases fuel with
  | zero => exact iff_of_true (isFull_finish.2 ⟨hpos, rfl⟩) (.inl rfl)
  | succ fuel =>
    rw [walk, ReadProg.run_ite, StartsSection, ← slice_eq_slice_drop]
    split
    · rename_i hle
      exact iff_of_true (isFull_finish.2 ⟨hpos, rfl⟩) (.inr (.inl hle))
    · rename_i hlt
      simp only [ReadProg.run_bind, h.read]
      cases readIntro (slice g pos 6) with
      | none => exact iff_of_true (isFull_finish.2 ⟨hpos, rfl⟩) (.inr (.inr Bool.false_ne_true))
      | some r =>
        have hstart : ¬ (fuel + 1 = 0 ∨ cap ≤ pos ∨ ¬ (some r).isSome = true) := by
          simp [hlt]
        refine iff_of_false (fun hf => ?_) hstart
        dsimp only at hf
        rw [ReadProg.run_ite] at hf
        split at hf
        · exact absurd hf.2.1 (by decide : Validity.truncated ≠ .full)
        · have := le_of_walk_isFull hf
          omega

end Walk

/-! ## A module and what follows it -/

section Exact

variable {R : Reader} {ctx : Ctx} {parts : List Part} {T : Bytes}

/-- **When the length is right**: the walk has gone through all sections that it may, or the module
ends at the cap, or what follows it, with zeros behind, begins no section. -/
theorem module_exact_iff (h : ctx.Sees R (moduleBytes parts ++ T))
    (hcap : (moduleBytes parts).length ≤ min ctx.available maxSize)
    (hcount : parts.length ≤ maxSections) :
    ((validate ctx).run R).IsFull (moduleBytes parts).length ↔
      parts.length = maxSections ∨ (moduleBytes parts).length = min ctx.available maxSize ∨
        ¬ StartsSection T := by
  have hlen : (moduleBytes parts).length = 8 + (bytesOf parts).length := by
    simp only [moduleBytes, List.length_append]
    exact (Nat.add_assoc ..).symm
  have hhead : slice (moduleBytes parts ++ T) 0 8 = magic ++ version := by
    rw [moduleBytes, ← List.append_assoc, List.append_assoc]
    exact slice_append_length (magic ++ version) (bytesOf parts ++ T)
  have hbody : (moduleBytes parts ++ T).drop 8 = bytesOf parts ++ T := by
    rw [moduleBytes, ← List.append_assoc, List.append_assoc]
    exact List.drop_left' rfl
  have hbehind : (moduleBytes parts ++ T).drop (moduleBytes parts).length = T := List.drop_left
  obtain ⟨fuel, hfuel⟩ := Nat.exists_eq_add_of_le' hcount
  rw [validate]
  simp only [ReadProg.run_bind, ReadProg.run_ite, h.read, hhead]
  rw [if_neg (by decide), if_neg (by decide), hfuel, run_walk_parts h hbody (by omega), ← hlen,
    walk_isFull_here_iff h (by omega), hbehind]
  refine or_congr (by omega) (or_congr (by omega) Iff.rfl)

/-- `exec.wasm` of the catalog. -/
def sig : SigDef where
  id := "exec.wasm"
  family := "exec"
  extensions := ["wasm"]
  headers := [.exact 0 magic]
  footer := none
  minSize := 0
  strategy := .structural
  validator := some "wasm"
  blockAligned := true
  footerAnchored := false

/-- A section of one byte, whose size is written in two. -/
def smallPart : Part where
  id := 1
  size := [0x81, 0x00]
  payload := [0x00]
  id_le := by decide
  size_length := by decide
  size_eq := .more 0x81 (by decide) (.last 0x00 (by decide))

/-- Behind a module that other bytes follow the length is right. -/
theorem module_exact_other :
    ((validate ⟨16, 0, 1000, sig⟩).run
      (memReader (moduleBytes [smallPart] ++ [0xFF, 0, 0, 0]))).IsFull
      12 := by
  have hsees : Ctx.Sees ⟨16, 0, 1000, sig⟩ (memReader (moduleBytes [smallPart] ++ [0xFF, 0, 0, 0]))
      (moduleBytes [smallPart] ++ [0xFF, 0, 0, 0]) :=
    Ctx.sees (memReader_reads _) rfl (by decide)
  exact (module_exact_iff hsees (by decide) (by decide)).2 (.inr (.inr (by decide)))

/-- Four zeros behind a module are two sections more. -/
theorem zeroSlack_counterexample :
    ((validate ⟨16, 0, 1000, sig⟩).run
      (memReader (moduleBytes [smallPart] ++ List.replicate 4 0))).IsFull 16 ∧
    (moduleBytes [smallPart]).length = 12 := by
  refine ⟨⟨?_, ?_, ?_⟩, rfl⟩
  all_goals decide

end Exact

end Wasm
end Reclaim
