import Reclaim.Foundation.FileBytes

/-!
# File trees with aliases

A tree maps places to nodes, and a name resolves to a place: several names may resolve to one, as
under links or case folding.  A file carries a stamp that grows with every truncating write, so a
file that was overwritten differs from what it was even if its bytes do not.

`Keeps t t'` says that every file of `t` is in `t'` as it was; it is a preorder, directories never
break it, and a write keeps exactly what it does not land on.
-/

namespace FileTree

open FileBytes

/-- What is at a place. -/
inductive Node where
  | dir
  | file (bytes : Bytes) (stamp : ℕ)
  deriving DecidableEq, Repr

/-- What is at every place. -/
def Files (κ : Type) : Type := κ → Option Node

variable {ν κ : Type} [DecidableEq κ] (resolve : ν → κ)

namespace Files

/-- Put a node at a place. -/
def put (t : Files κ) (k : κ) (n : Node) : Files κ := fun k' => if k' = k then some n else t k'

/-- Something is at the place of a name. -/
def occupied (t : Files κ) (p : ν) : Bool := (t (resolve p)).isSome

/-- A file is at a place. -/
def isFile (t : Files κ) (k : κ) : Bool :=
  match t k with
  | some (.file _ _) => true
  | _ => false

/-- The bytes of the file at a place. -/
def fileAt (t : Files κ) (k : κ) : Option Bytes :=
  match t k with
  | some (.file d _) => some d
  | _ => none

/-- Make a directory where nothing is. -/
def mkdir (t : Files κ) (p : ν) : Files κ :=
    if t.occupied resolve p then t else t.put (resolve p) .dir

/-- Make the directories of a list, in order. -/
def mkdirs (t : Files κ) (ps : List ν) : Files κ := ps.foldl (mkdir resolve) t

/-- Make a directory and those above it, given nearest first; a file among them is an error. -/
def createDirAll (t : Files κ) (ancestors : List ν) : Option (Files κ) :=
  if ancestors.any fun p => t.isFile (resolve p) then none
  else some (t.mkdirs resolve ancestors.reverse)

/-- Create a file, or truncate the one that is there, and write to it; a directory is an error. -/
def write (t : Files κ) (p : ν) (d : Bytes) : Option (Files κ) :=
  match t (resolve p) with
  | some .dir => none
  | some (.file _ stamp) => some (t.put (resolve p) (.file d (stamp + 1)))
  | none => some (t.put (resolve p) (.file d 0))

/-- Every file of `t` is in `t'` as it was. -/
def Keeps (t t' : Files κ) : Prop := ∀ k d s, t k = some (.file d s) → t' k = some (.file d s)

variable {resolve} {t t' t'' : Files κ} {p : ν} {k : κ} {d : Bytes}

lemma put_self (t : Files κ) (k : κ) (n : Node) : t.put k n k = some n := if_pos rfl

lemma put_of_ne (t : Files κ) (n : Node) {k k' : κ} (h : k' ≠ k) : t.put k n k' = t k' := if_neg h

omit [DecidableEq κ] in
lemma occupied_eq_false : t.occupied resolve p = false ↔ t (resolve p) = none := by
  rw [occupied, Option.isSome_eq_false_iff, Option.isNone_iff_eq_none]

omit [DecidableEq κ] in
lemma isFile_iff : t.isFile k = true ↔ ∃ d s, t k = some (.file d s) := by
  unfold isFile
  constructor
  · intro h
    split at h
    · rename_i d s hk
      exact ⟨d, s, hk⟩
    · exact absurd h (by simp)
  · rintro ⟨d, s, hk⟩
    rw [hk]

lemma isFile_put_file (t : Files κ) (k k' : κ) (d : Bytes) (s : ℕ) :
    (t.put k (.file d s)).isFile k' = true ↔ k' = k ∨ t.isFile k' = true := by
  by_cases h : k' = k
  · subst h
    simp [isFile, put_self]
  · simp [isFile, put_of_ne _ _ h, h]

namespace Keeps

omit [DecidableEq κ]

lemma refl (t : Files κ) : Keeps t t := fun _ _ _ h => h

lemma trans (h : Keeps t t') (h' : Keeps t' t'') : Keeps t t'' := fun k d s hk =>
  h' k d s (h k d s hk)

lemma isFile (h : Keeps t t') (hk : t.isFile k = true) : t'.isFile k = true := by
  obtain ⟨d, s, hk⟩ := isFile_iff.1 hk
  exact isFile_iff.2 ⟨d, s, h k d s hk⟩

end Keeps

/-- Putting a node where nothing is keeps every file. -/
lemma keeps_put {n : Node} (h : t k = none) : Keeps t (t.put k n) := by
  intro k' d s hk
  rw [put_of_ne _ _ ?_]
  · exact hk
  · rintro rfl
    exact absurd (h.symm.trans hk) (by simp)

/-- Making directories keeps every file and makes none. -/
lemma keeps_mkdir (t : Files κ) (p : ν) : Keeps t (t.mkdir resolve p) := by
  unfold mkdir
  split
  · exact Keeps.refl t
  · rename_i h
    exact keeps_put (occupied_eq_false.1 (Bool.eq_false_iff.2 h))

lemma isFile_mkdir (t : Files κ) (p : ν) (k : κ) : (t.mkdir resolve p).isFile k = t.isFile k := by
  unfold mkdir
  split
  · rfl
  · rename_i h
    have hnone := occupied_eq_false.1 (Bool.eq_false_iff.2 h)
    by_cases hk : k = resolve p
    · subst hk
      simp [Files.isFile, put_self, hnone]
    · simp [Files.isFile, put_of_ne _ _ hk]

lemma keeps_mkdirs (t : Files κ) (ps : List ν) : Keeps t (t.mkdirs resolve ps) := by
  induction ps generalizing t with
  | nil => exact Keeps.refl t
  | cons p ps ih => exact (keeps_mkdir t p).trans (ih _)

lemma isFile_mkdirs (t : Files κ) (ps : List ν) (k : κ) :
    (t.mkdirs resolve ps).isFile k = t.isFile k := by
  induction ps generalizing t with
  | nil => rfl
  | cons p ps ih => exact (ih _).trans (isFile_mkdir t p k)

lemma createDirAll_eq_some {ps : List ν} (h : t.createDirAll resolve ps = some t') :
    t' = t.mkdirs resolve ps.reverse := by
  unfold createDirAll at h
  split at h
  · exact absurd h (by simp)
  · exact (Option.some.inj h).symm

/-- Making directories changes no file. -/
lemma file_mkdirs_iff (t : Files κ) (ps : List ν) (k : κ) (d : Bytes) (s : ℕ) :
    t.mkdirs resolve ps k = some (.file d s) ↔ t k = some (.file d s) := by
  constructor
  · intro h
    have hsame : (t.mkdirs resolve ps).isFile k = t.isFile k := isFile_mkdirs t ps k
    have hkeeps : t.Keeps (t.mkdirs resolve ps) := keeps_mkdirs t ps
    obtain ⟨d', s', hk⟩ := isFile_iff.1 (hsame.symm.trans (isFile_iff.2 ⟨d, s, h⟩))
    rw [hk, ← h]
    exact (hkeeps k d' s' hk).symm
  · exact keeps_mkdirs t ps k d s

/-- Making directories changes the bytes of no file. -/
lemma fileAt_mkdirs (t : Files κ) (ps : List ν) : (t.mkdirs resolve ps).fileAt = t.fileAt := by
  funext k
  have hiff : ∀ d s, t.mkdirs resolve ps k = some (.file d s) ↔ t k = some (.file d s) :=
    file_mkdirs_iff t ps k
  unfold fileAt
  split
  · rename_i d s hk
    rw [(hiff d s).1 hk]
  · rename_i hno
    split
    · rename_i d s hk
      exact absurd ((hiff d s).2 hk) (hno d s)
    · rfl

lemma fileAt_put_file (t : Files κ) (k k' : κ) (d : Bytes) (s : ℕ) :
    (t.put k (.file d s)).fileAt k' = if k' = k then some d else t.fileAt k' := by
  unfold fileAt put
  split_ifs <;> rfl

/-- A file that is put changes no bytes exactly when they were there before. -/
lemma fileAt_put_file_eq_iff (t : Files κ) (k : κ) (d : Bytes) (s : ℕ) :
    (t.put k (.file d s)).fileAt = t.fileAt ↔ t.fileAt k = some d := by
  constructor
  · intro h
    rw [← h, fileAt_put_file, if_pos rfl]
  · intro h
    funext k'
    rw [fileAt_put_file]
    split_ifs with hk
    · rw [hk, h]
    · rfl

lemma write_eq_none_iff : t.write resolve p d = none ↔ t (resolve p) = some .dir := by
  unfold write
  constructor
  · intro h
    split at h
    · assumption
    · exact absurd h (by simp)
    · exact absurd h (by simp)
  · intro h
    rw [h]

/-- A write that succeeds leaves its bytes at its place and nothing else. -/
lemma write_eq_some (h : t.write resolve p d = some t') :
    ∃ s, t' = t.put (resolve p) (.file d s) ∧ ∀ d' s', t (resolve p) = some (.file d' s') →
      s' < s := by
  unfold write at h
  split at h
  · exact absurd h (by simp)
  · rename_i d0 s0 hk
    refine ⟨s0 + 1, (Option.some.inj h).symm, fun d' s' hk' => ?_⟩
    have hsame := hk.symm.trans hk'
    simp only [Option.some.injEq, Node.file.injEq] at hsame
    omega
  · rename_i hk
    exact ⟨0, (Option.some.inj h).symm, fun d' s' hk' => absurd (hk.symm.trans hk') (by simp)⟩

lemma write_of_none (h : t (resolve p) = none) :
    t.write resolve p d = some (t.put (resolve p) (.file d 0)) := by
  unfold write
  rw [h]

/-- **A write keeps every file exactly when it lands on none.** -/
lemma keeps_write_iff (h : t.write resolve p d = some t') :
    Keeps t t' ↔ t.isFile (resolve p) = false := by
  obtain ⟨s, rfl, hs⟩ := write_eq_some h
  constructor
  · intro hk
    rw [Bool.eq_false_iff]
    intro hfile
    obtain ⟨d', s', hold⟩ := isFile_iff.1 hfile
    have hnew := hk _ d' s' hold
    rw [put_self, Option.some.injEq, Node.file.injEq] at hnew
    exact absurd (hs d' s' hold) (by omega)
  · intro hno k d' s' hk
    rw [put_of_ne _ _ ?_]
    · exact hk
    · rintro rfl
      exact absurd (isFile_iff.2 ⟨d', s', hk⟩) (by rw [hno]; simp)

end Files

end FileTree
