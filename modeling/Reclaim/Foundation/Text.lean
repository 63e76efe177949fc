import Mathlib.Data.List.TakeWhile
import Mathlib.Tactic

/-!
# Taking strings apart

Strings are lists of characters here.  `rsplitOnce` splits at the last occurrence of a character,
`stripPrefix` takes a prefix off, and `trimBoth` what stands at both ends.
-/

namespace Text

/-- The rest of a string after a prefix, if it has that prefix. -/
def stripPrefix (pre s : List Char) : Option (List Char) :=
  if pre <+: s then some (s.drop pre.length) else none

/-- Split at the last occurrence of a character. -/
def rsplitOnce (sep : Char) (s : List Char) : Option (List Char × List Char) :=
  let after := s.reverse.takeWhile (· != sep)
  if after.length = s.length then none
  else some (s.take (s.length - after.length - 1), after.reverse)

/-- Split at the last occurrence of a substring. -/
def rsplitOnceAt (sep s : List Char) : Option (List Char × List Char) :=
  ((List.range (s.length + 1)).reverse.find? fun i => sep.isPrefixOf (s.drop i)).map fun i =>
    (s.take i, s.drop (i + sep.length))

/-- Split at the first occurrence of a character. -/
def splitOnce (sep : Char) (s : List Char) : Option (List Char × List Char) :=
  match s.dropWhile (· != sep) with
  | [] => none
  | _ :: after => some (s.takeWhile (· != sep), after)

lemma stripPrefix_append (pre s : List Char) : stripPrefix pre (pre ++ s) = some s := by
  rw [stripPrefix, if_pos (List.prefix_append pre s), List.drop_left]

lemma takeWhile_reverse_append {sep : Char} {a b : List Char} (hb : sep ∉ b) :
    (a ++ sep :: b).reverse.takeWhile (· != sep) = b.reverse := by
  rw [List.reverse_append, List.reverse_cons, List.append_assoc, List.takeWhile_append_of_pos]
  · simp
  · intro c hc
    rw [bne_iff_ne]
    rintro rfl
    exact hb (List.mem_reverse.1 hc)

/-- Splitting before a part without the character. -/
lemma rsplitOnce_append {sep : Char} (a : List Char) {b : List Char} (hb : sep ∉ b) :
    rsplitOnce sep (a ++ sep :: b) = some (a, b) := by
  have hlen : (a ++ sep :: b).length = a.length + (b.length + 1) := by simp
  simp only [rsplitOnce]
  rw [takeWhile_reverse_append hb, List.length_reverse, hlen, if_neg (by omega),
    show a.length + (b.length + 1) - b.length - 1 = a.length by omega, List.take_left,
    List.reverse_reverse]

/-- A prefix that ends with its only separator is the part before the first separator. -/
lemma stripPrefix_upTo {sep : Char} {a b : List Char} (rest : List Char) (ha : sep ∉ a)
    (hb : sep ∉ b) :
    stripPrefix (a ++ [sep]) (b ++ sep :: rest) = if a = b then some rest else none := by
  have hfirst : ∀ {l r : List Char}, sep ∉ l → (l ++ sep :: r).takeWhile (· != sep) = l := by
    intro l r hl
    rw [List.takeWhile_append_of_pos]
    · simp
    · intro c hc
      rw [bne_iff_ne]
      rintro rfl
      exact hl hc
  split
  · rename_i hab
    subst hab
    rw [List.append_cons a sep rest]
    exact stripPrefix_append _ _
  · rename_i hab
    unfold stripPrefix
    rw [if_neg]
    rintro ⟨r, hr⟩
    rw [List.append_assoc, List.singleton_append] at hr
    exact hab ((hfirst ha).symm.trans ((congrArg (List.takeWhile (· != sep)) hr).trans (hfirst hb)))

/-- The parts between separators hold no separator. -/
lemma eq_false_of_mem_splitOnP {α : Type} (p : α → Bool) (l : List α) :
    ∀ part ∈ l.splitOnP p, ∀ x ∈ part, p x = false := by
  induction l with
  | nil =>
    intro part hpart x hx
    simp only [List.splitOnP_nil, List.mem_singleton] at hpart
    subst hpart
    exact absurd hx List.not_mem_nil
  | cons a l ih =>
    intro part hpart x hx
    rw [List.splitOnP_cons_eq_if_modifyHead] at hpart
    split at hpart
    · rcases List.mem_cons.1 hpart with rfl | hpart
      · exact absurd hx List.not_mem_nil
      · exact ih part hpart x hx
    · rename_i ha
      cases hsplit : l.splitOnP p with
      | nil => exact absurd hsplit (List.splitOnP_ne_nil p l)
      | cons first rest =>
        rw [hsplit, List.modifyHead_cons] at hpart
        rcases List.mem_cons.1 hpart with rfl | hpart
        · rcases List.mem_cons.1 hx with rfl | hx
          · exact Bool.eq_false_iff.2 ha
          · exact ih first (hsplit ▸ List.mem_cons_self) x hx
        · exact ih part (hsplit ▸ List.mem_cons_of_mem _ hpart) x hx

/-- What is left of a string without the characters of a kind at both of its ends. -/
def trimBoth (p : Char → Bool) (s : List Char) : List Char :=
  ((s.dropWhile p).reverse.dropWhile p).reverse

section TrimBoth

variable {p : Char → Bool}

lemma mem_of_mem_trimBoth {s : List Char} {c : Char} (hc : c ∈ trimBoth p s) : c ∈ s := by
  have h := (List.dropWhile_suffix p).subset (List.mem_reverse.1 hc)
  exact (List.dropWhile_suffix p).subset (List.mem_reverse.1 h)

lemma head?_dropWhile_eq {s : List Char} {c : Char} (h : (s.dropWhile p).head? = some c) :
    p c = false := by
  have hnot := List.head?_dropWhile_not p s
  rw [h] at hnot
  exact hnot

lemma getLast?_trimBoth {s : List Char} {c : Char} (h : (trimBoth p s).getLast? = some c) :
    p c = false := by
  rw [trimBoth, List.getLast?_reverse] at h
  exact head?_dropWhile_eq h

lemma head?_trimBoth {s : List Char} {c : Char} (h : (trimBoth p s).head? = some c) :
    p c = false := by
  obtain ⟨t, ht⟩ := List.dropWhile_suffix p (l := (s.dropWhile p).reverse)
  have hs : s.dropWhile p = trimBoth p s ++ t.reverse := by
    rw [trimBoth, ← List.reverse_append, ht, List.reverse_reverse]
  refine head?_dropWhile_eq (s := s) ?_
  rw [hs, List.head?_append, h]
  rfl

/-- Only what stands around a string is trimmed off, if it neither begins nor ends with more. -/
lemma trimBoth_append {before s after : List Char} (hbefore : ∀ c ∈ before, p c = true)
    (hafter : ∀ c ∈ after, p c = true) (hhead : ∀ c ∈ s.head?, p c = false)
    (hlast : ∀ c ∈ s.getLast?, p c = false) (hne : s ≠ []) :
    trimBoth p (before ++ (s ++ after)) = s := by
  have hkeep : ∀ l rest : List Char, l ≠ [] → (∀ c ∈ l.head?, p c = false) →
      (l ++ rest).dropWhile p = l ++ rest := by
    intro l rest hl hc
    obtain ⟨c, l, rfl⟩ := List.exists_cons_of_ne_nil hl
    rw [List.cons_append, List.dropWhile_cons_of_neg]
    rw [hc c rfl]
    decide
  rw [trimBoth, List.dropWhile_append_of_pos hbefore, hkeep s after hne hhead,
    List.reverse_append, List.dropWhile_append_of_pos fun c hc => hafter c (List.mem_reverse.1 hc)]
  have h := hkeep s.reverse [] (by simpa using hne) (by rwa [List.head?_reverse])
  rw [List.append_nil] at h
  rw [h, List.reverse_reverse]

end TrimBoth
end Text

/-!
## Paths

A path is a list of components, absolute or relative; `.` is kept only at the head of a relative
path, and empty components are dropped.  The ancestors of a path are its prefixes, itself first.
-/

namespace Paths

/-- A path. -/
structure FilePath where
  absolute : Bool
  comps : List String
  deriving DecidableEq, Repr

namespace FilePath

/-- The path a string spells. -/
def ofString (s : String) : FilePath :=
  let absolute := s.toList.head? == some '/'
  let parts := (s.toList.splitOn '/').filter fun c => !c.isEmpty
  let comps := match parts with
    | ['.'] :: rest => if absolute then rest else ['.'] :: rest
    | parts => parts
  match comps with
  | [] => ⟨absolute, []⟩
  | c :: rest => ⟨absolute, (c :: rest.filter (· != ['.'])).map String.ofList⟩

/-- The path without its final component. -/
def parent (p : FilePath) : Option FilePath :=
  if p.comps = [] then none else some { p with comps := p.comps.dropLast }

/-- The path and its ancestors, nearest first. -/
def ancestors (p : FilePath) : List FilePath :=
    p.comps.inits.reverse.map fun cs => { p with comps := cs }

/-- The path extended by relative components. -/
def join (p : FilePath) (rel : List String) : FilePath := { p with comps := p.comps ++ rel }

end FilePath

end Paths
