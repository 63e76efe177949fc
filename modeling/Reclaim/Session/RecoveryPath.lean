import Reclaim.Foundation.Text
import Reclaim.Session.Entries
import Reclaim.Foundation.PathText

/-!
# Where a result is recovered to

A filesystem entry is recovered under its own path, a carved file under one made of its family,
date, camera and name.  Either may be hostile, so `safeRelPath` takes it apart and keeps what
cannot lead out of the destination: `safeRelPath_safe` is what it guarantees of every component.
-/

namespace Reclaim

open Paths

/-- `char::is_control`. -/
def isControl (c : Char) : Bool := c.toNat < 0x20 || (0x7f ≤ c.toNat && c.toNat < 0xa0)

/-- `char::is_whitespace`. -/
def isWhitespace (c : Char) : Bool :=
  (0x9 ≤ c.toNat && c.toNat ≤ 0xd) || (0x2000 ≤ c.toNat && c.toNat ≤ 0x200a) ||
    [0x20, 0x85, 0xa0, 0x1680, 0x2028, 0x2029, 0x202f, 0x205f, 0x3000].contains c.toNat

/-- `str::trim`. -/
def trim (s : List Char) : List Char :=
  ((s.dropWhile isWhitespace).reverse.dropWhile isWhitespace).reverse

/-! ## Names of carved files -/

/-- Replace path-hostile characters so that a synthesized name is safe on disk. -/
def sanitize (s : String) : String :=
  let out := s.toList.map fun c =>
    if c = '/' ∨ c = '\\' ∨ c = ':' ∨ c = '\x00' ∨ isControl c then '_' else c
  let trimmed := trim out
  let out := if trimmed = [] ∨ trimmed = ['.'] ∨ trimmed = ['.', '.'] then "unnamed".toList
    else trimmed
  String.ofList (out.take 120)

/-- `format!("{n:016x}")`. -/
def hex16 (n : ℕ) : String :=
  let digits := Nat.toDigits 16 n
  String.ofList (List.replicate (16 - digits.length) '0' ++ digits)

/-- `Metadata::suggested_path`: a recovery path from what a file says about itself. -/
def suggestedPath (name date model : Option String) (family subtype : String) (offset : ℕ)
    (ext : String) : String :=
  let date := (date.map sanitize).getD "undated"
  let bucket := (model.map sanitize).getD (sanitize subtype)
  let stem := match name with
    | some n => sanitize n
    | none => "f" ++ hex16 offset
  let ext := if ext = "" then "bin" else ext
  family ++ "/" ++ date ++ "/" ++ bucket ++ "/" ++ stem ++ "." ++ ext

namespace CarvedRecord

/-- The recovery-relative path: the real one when there is one, else a synthesized one. -/
def synthPath (r : CarvedRecord) : String :=
  let subtype := ((r.format.toList.splitOn '.').getLast?.map String.ofList).getD r.format
  let synthesized := suggestedPath r.name r.date r.model r.family subtype r.offset r.ext
  match r.path with
  | some p => if p = "" then synthesized else p
  | none => synthesized

end CarvedRecord

/-! ## Paths below the destination -/

/-- A character that a component may not hold becomes an underscore. -/
def safeChar (c : Char) : Char := if c = '\x00' ∨ c = ':' ∨ isControl c then '_' else c

/-- A component that is kept. -/
def keptComponent (c : List Char) : Bool := c ≠ [] ∧ c ≠ ['.'] ∧ c ≠ ['.', '.']

/-- A path that cannot escape the destination; with `flat` only its last component. -/
def safeRelPath (synth : String) (flat : Bool) : List String :=
  let parts := synth.toList.splitOnP fun c => c == '/' || c == '\\'
  let comps := (parts.filter keptComponent).map fun c => String.ofList ((c.map safeChar).take 200)
  let out := if flat then comps.getLast?.toList else comps
  if out = [] then ["unnamed"] else out

/-- `out_rel_path`. -/
def outRelPath (r : CarvedRecord) (preserve flat : Bool) : List String :=
  safeRelPath r.synthPath (flat || !preserve)

/-- What every component of a recovery path is: a name of at most 200 characters that is neither
empty nor a step up or in place, and without separators and control characters. -/
structure SafeComponent (c : String) : Prop where
  ne_empty : c ≠ ""
  ne_dot : c ≠ "."
  ne_dotdot : c ≠ ".."
  length_le : c.toList.length ≤ 200
  chars : ∀ x ∈ c.toList, x ≠ '/' ∧ x ≠ '\\' ∧ x ≠ ':' ∧ isControl x = false

lemma safeChar_of_dot {c : Char} (h : safeChar c = '.') : c = '.' := by
  unfold safeChar at h
  split at h
  · exact absurd h (by decide)
  · exact h

lemma isControl_safeChar (c : Char) : isControl (safeChar c) = false := by
  unfold safeChar
  split
  · decide
  · rename_i h
    rw [not_or, not_or] at h
    exact Bool.eq_false_iff.2 h.2.2

/-- What is made of a part that is kept. -/
lemma safeComponent_of_part {c : List Char} (hkept : keptComponent c = true)
    (hsep : ∀ x ∈ c, x ≠ '/' ∧ x ≠ '\\') :
    SafeComponent (String.ofList ((c.map safeChar).take 200)) := by
  simp only [keptComponent, decide_eq_true_eq] at hkept
  obtain ⟨hne, hdot, hdotdot⟩ := hkept
  have hspell : ∀ cs : List Char, String.ofList ((c.map safeChar).take 200) = String.ofList cs →
      (c.map safeChar).take 200 = cs := fun cs h => by simpa using congrArg String.toList h
  refine ⟨fun h => ?_, fun h => ?_, fun h => ?_, ?_, fun x hx => ?_⟩
  · have h := hspell [] h
    simp [List.take_eq_nil_iff, hne] at h
  · -- a component that became a dot was one
    have h := hspell ['.'] h
    match c, hne, hdot with
    | [a], _, hdot =>
      simp only [List.map_cons, List.map_nil, List.take_succ_cons, List.take_nil,
        List.cons.injEq, and_true] at h
      exact hdot (by rw [safeChar_of_dot h])
    | a :: b :: rest, _, _ => simp at h
  · have h := hspell ['.', '.'] h
    match c, hne, hdotdot with
    | [a], _, _ => simp at h
    | [a, b], _, hdotdot =>
      simp only [List.map_cons, List.map_nil, List.take_succ_cons, List.take_nil,
        List.cons.injEq, and_true] at h
      exact hdotdot (by rw [safeChar_of_dot h.1, safeChar_of_dot h.2])
    | a :: b :: d :: rest, _, _ => simp at h
  · rw [String.toList_ofList]
    exact List.length_take_le _ _
  · rw [String.toList_ofList] at hx
    obtain ⟨y, hy, rfl⟩ := List.mem_map.1 (List.mem_of_mem_take hx)
    obtain ⟨h1, h2⟩ := hsep y hy
    refine ⟨?_, ?_, ?_, isControl_safeChar y⟩
    all_goals
      unfold safeChar
      split
      · decide
    · exact h1
    · exact h2
    · rename_i h
      rw [not_or, not_or] at h
      exact h.2.1

/-- **A recovery path stays below the destination**: it has a component, and every one is safe. -/
theorem safeRelPath_safe (synth : String) (flat : Bool) :
    safeRelPath synth flat ≠ [] ∧ ∀ c ∈ safeRelPath synth flat, SafeComponent c := by
  simp only [safeRelPath]
  set parts := synth.toList.splitOnP fun c => c == '/' || c == '\\' with hparts
  set comps := (parts.filter keptComponent).map fun c => String.ofList ((c.map safeChar).take 200)
    with hcomps
  have hsafe : ∀ c ∈ comps, SafeComponent c := by
    intro c hc
    obtain ⟨part, hpart, rfl⟩ := List.mem_map.1 hc
    obtain ⟨hmem, hkept⟩ := List.mem_filter.1 hpart
    apply safeComponent_of_part hkept
    intro x hx
    have := Text.eq_false_of_mem_splitOnP _ _ part hmem x hx
    simpa using this
  set out := if flat then comps.getLast?.toList else comps with hout
  have hsub : ∀ c ∈ out, c ∈ comps := by
    intro c hc
    rw [hout] at hc
    split at hc
    · exact List.mem_of_getLast? (Option.mem_toList.1 hc)
    · exact hc
  split
  · refine ⟨by simp, fun c hc => ?_⟩
    obtain rfl := List.mem_singleton.1 hc
    refine ⟨by decide, by decide, by decide, by decide, fun x hx => ?_⟩
    rw [show "unnamed".toList = ['u', 'n', 'n', 'a', 'm', 'e', 'd'] from rfl] at hx
    simp only [List.mem_cons, List.not_mem_nil, or_false] at hx
    rcases hx with rfl | rfl | rfl | rfl | rfl | rfl | rfl <;> decide
  · rename_i hne
    exact ⟨hne, fun c hc => hsafe c (hsub c hc)⟩

end Reclaim

/-!
## Recovery paths as paths

`safe_rel_path` returns a `PathBuf`, to which it pushes the components it keeps.  A component that
held a separator, or a step up, would be read back as something else, so the guarantee is stated for
the path as it is read: joined to any directory, it leads to one below it.
-/

namespace Reclaim

open PathText

/-- The path that `safe_rel_path` builds. -/
def safeRelPathBuf (synth : String) (flat : Bool) : PathBuf :=
  let parts := synth.toList.splitOnP fun c => c == '/' || c == '\\'
  let comps := (parts.filter keptComponent).map fun c => String.ofList ((c.map safeChar).take 200)
  let out : PathBuf :=
    if flat then
      match comps.getLast? with
      | some last => push [] last.toList
      | none => []
    else comps.foldl (fun out c => push out c.toList) []
  if out = [] then push out "unnamed".toList else out

lemma SafeComponent.isName {c : String} (h : SafeComponent c) : IsName c.toList where
  ne_nil heq := h.ne_empty (String.toList_injective heq)
  ne_dot heq := h.ne_dot (String.toList_injective heq)
  ne_dotdot heq := h.ne_dotdot (String.toList_injective heq)
  noSep hmem := (h.chars '/' hmem).1 rfl

/-- Pushing no name leaves the empty path, and pushing names does not. -/
lemma pushAll_eq_nil_iff {names : List (List Char)} (hnames : ∀ name ∈ names, IsName name) :
    pushAll [] names = [] ↔ names = [] := by
  constructor
  · intro hnil
    have hcomps : components (pushAll [] names) =
        [] ++ names.map fun name => .normal (String.ofList name) := components_pushAll hnames
    rw [hnil, List.nil_append] at hcomps
    exact List.map_eq_nil_iff.1 hcomps.symm
  · rintro rfl
    rfl

/-- The path is made of the components that are kept. -/
lemma safeRelPathBuf_eq (synth : String) (flat : Bool) :
    safeRelPathBuf synth flat = pushAll [] ((safeRelPath synth flat).map String.toList) := by
  have hsafe := (safeRelPath_safe synth flat).2
  unfold safeRelPathBuf safeRelPath at *
  dsimp only at *
  set comps := ((synth.toList.splitOnP fun c => c == '/' || c == '\\').filter keptComponent).map
    fun c => String.ofList ((c.map safeChar).take 200) with hcomps
  set kept := if flat then comps.getLast?.toList else comps with hkept
  have hout : (if flat then
      match comps.getLast? with
      | some last => push [] last.toList
      | none => []
    else comps.foldl (fun out c => push out c.toList) []) =
      pushAll [] (kept.map String.toList) := by
    rw [hkept, pushAll]
    cases flat with
    | false => exact List.foldl_map.symm
    | true => cases comps.getLast? <;> rfl
  rw [hout]
  by_cases hnone : kept = []
  · rw [hnone]
    rfl
  · have hnames : ∀ name ∈ kept.map String.toList, IsName name := by
      intro name hname
      obtain ⟨c, hc, rfl⟩ := List.mem_map.1 hname
      rw [if_neg hnone] at hsafe
      exact (hsafe c hc).isName
    rw [if_neg, if_neg hnone]
    rw [pushAll_eq_nil_iff hnames, List.map_eq_nil_iff]
    exact hnone

/-- **A recovery path stays below the directory it is joined to.**  It is not empty and not
absolute; read back, it consists of names, each safe and at most 200 characters long; and joined to
any directory it leads down from there by these names. -/
theorem safeRelPath_confined (synth : String) (flat : Bool) :
    safeRelPathBuf synth flat ≠ [] ∧ ¬ IsAbsolute (safeRelPathBuf synth flat) ∧
    components (safeRelPathBuf synth flat) = (safeRelPath synth flat).map .normal ∧
    safeRelPath synth flat ≠ [] ∧ (∀ c ∈ safeRelPath synth flat, SafeComponent c) ∧
    ∀ (dest : PathBuf) (cwd : List String),
      walk cwd (components (push dest (safeRelPathBuf synth flat))) =
        walk cwd (components dest) ++ safeRelPath synth flat := by
  obtain ⟨hne, hsafe⟩ := safeRelPath_safe synth flat
  have hnames : ∀ name ∈ (safeRelPath synth flat).map String.toList, IsName name := by
    intro name hname
    obtain ⟨c, hc, rfl⟩ := List.mem_map.1 hname
    exact (hsafe c hc).isName
  have hspell : ((safeRelPath synth flat).map String.toList).map
      (fun name => Component.normal (String.ofList name)) =
      (safeRelPath synth flat).map .normal := by
    rw [List.map_map]
    apply List.map_congr_left
    intro c _
    rw [Function.comp_apply, String.ofList_toList]
  rw [safeRelPathBuf_eq]
  refine ⟨?_, not_isAbsolute_pushAll (by decide) hnames, ?_, hne, hsafe, fun dest cwd => ?_⟩
  · rw [ne_eq, pushAll_eq_nil_iff hnames, List.map_eq_nil_iff]
    exact hne
  · rw [components_pushAll hnames, components_nil, List.nil_append, hspell]
  · rw [components_join dest hnames, hspell, walk_append, walk_names]

end Reclaim
