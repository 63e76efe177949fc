import Reclaim.Foundation.Text

/-!
# Paths as text

A path is a text, to which components are pushed one behind the other, and which is read back as a
list of components: a root, steps up and in place, and names.  `walk` follows such a list from a
directory, and so says where a path leads.

A name that is pushed arrives as the one more component it is (`components_push`), so that a path
built from names leads below the directory it is pushed to (`walk_pushAll`).
-/

namespace PathText

/-- A path, spelled out. -/
abbrev PathBuf := List Char

/-- What a path consists of. -/
inductive Component where
  | rootDir
  | curDir
  | parentDir
  | normal (name : String)
  deriving DecidableEq, Repr

/-- A path that begins at the root. -/
def IsAbsolute (p : PathBuf) : Prop := p.head? = some '/'

instance (p : PathBuf) : Decidable (IsAbsolute p) := inferInstanceAs (Decidable (_ = _))

/-- Extend a path: an absolute one replaces it, any other goes behind a separator. -/
def push (buf p : PathBuf) : PathBuf :=
  if IsAbsolute p then p
  else if buf = [] ∨ buf.getLast? = some '/' then buf ++ p
  else buf ++ '/' :: p

/-- What stands between two separators, if it counts. -/
def component (part : List Char) : Option Component :=
  if part = [] ∨ part = ['.'] then none
  else if part = ['.', '.'] then some .parentDir
  else some (.normal (String.ofList part))

/-- The components of a path. -/
def components (p : PathBuf) : List Component :=
  let parts := p.splitOn '/'
  let first : List Component :=
    if IsAbsolute p then [.rootDir] else if parts.head? = some ['.'] then [.curDir] else []
  first ++ parts.filterMap component

/-- One step along a path, from a directory given by the names that lead to it. -/
def step (dir : List String) : Component → List String
  | .rootDir => []
  | .curDir => dir
  | .parentDir => dir.dropLast
  | .normal name => dir ++ [name]

/-- Where a path leads. -/
def walk (dir : List String) (cs : List Component) : List String := cs.foldl step dir

/-- A name of a file or directory: a component that is neither a step up nor in place. -/
structure IsName (name : List Char) : Prop where
  ne_nil : name ≠ []
  ne_dot : name ≠ ['.']
  ne_dotdot : name ≠ ['.', '.']
  noSep : '/' ∉ name

/-- Names pushed one behind the other. -/
def pushAll (buf : PathBuf) (names : List (List Char)) : PathBuf := names.foldl push buf

section Names

variable {buf name : List Char} {names : List (List Char)}

lemma IsName.not_isAbsolute (h : IsName name) : ¬ IsAbsolute name :=
  fun habs => h.noSep (List.mem_of_mem_head? habs)

lemma IsName.component (h : IsName name) :
    PathText.component name = some (.normal (String.ofList name)) := by
  rw [PathText.component, if_neg, if_neg h.ne_dotdot]
  rintro (hnil | hdot)
  · exact h.ne_nil hnil
  · exact h.ne_dot hdot

lemma isAbsolute_append (hbuf : buf ≠ []) (rest : List Char) :
    IsAbsolute (buf ++ rest) ↔ IsAbsolute buf := by
  unfold IsAbsolute
  rw [List.head?_append_of_ne_nil _ hbuf]

/-- What stands behind a separator goes behind the components before it. -/
lemma components_append_sep (hbuf : buf ≠ []) (rest : List Char) :
    components (buf ++ '/' :: rest) = components buf ++ (rest.splitOn '/').filterMap component := by
  have hparts : (buf ++ '/' :: rest).splitOn '/' = buf.splitOn '/' ++ rest.splitOn '/' :=
    List.splitOn_append_cons_self buf rest
  have hfirst : (buf.splitOn '/' ++ rest.splitOn '/').head? = (buf.splitOn '/').head? :=
    List.head?_append_of_ne_nil _ (List.splitOn_ne_nil _ _)
  unfold components
  dsimp only
  rw [hparts, hfirst, List.filterMap_append, List.append_assoc]
  simp only [isAbsolute_append hbuf]

/-- The same behind the root. -/
lemma components_root (rest : List Char) :
    components ('/' :: rest) = .rootDir :: (rest.splitOn '/').filterMap component := by
  have hparts : ('/' :: rest).splitOn '/' = [] :: rest.splitOn '/' :=
    List.splitOn_append_cons_self [] rest
  have habs : IsAbsolute ('/' :: rest) := rfl
  unfold components
  dsimp only
  rw [hparts, if_pos habs, List.filterMap_cons_none rfl]
  rfl

/-- A relative path has only the components of its parts, but for a step in place at its head. -/
lemma components_relative {p : PathBuf} (hrel : ¬ IsAbsolute p)
    (hdot : (p.splitOn '/').head? ≠ some ['.']) :
    components p = (p.splitOn '/').filterMap component := by
  unfold components
  dsimp only
  rw [if_neg hrel, if_neg hdot, List.nil_append]

/-- Where nothing leads up, the components are names. -/
lemma filterMap_component {parts : List (List Char)} (hup : ['.', '.'] ∉ parts) :
    ∃ names : List String, parts.filterMap component = names.map .normal ∧
      ∀ part ∈ parts, part ≠ [] → part ≠ ['.'] → String.ofList part ∈ names := by
  induction parts with
  | nil => exact ⟨[], rfl, fun _ h => absurd h List.not_mem_nil⟩
  | cons part parts ih =>
    rw [List.mem_cons, not_or] at hup
    obtain ⟨names, hnames, hmem⟩ := ih hup.2
    by_cases hskip : part = [] ∨ part = ['.']
    · have hcomp : component part = none := if_pos hskip
      refine ⟨names, by rw [List.filterMap_cons_none hcomp, hnames], fun p hp h1 h2 => ?_⟩
      rcases List.mem_cons.1 hp with rfl | hp
      · exact absurd hskip (not_or.2 ⟨h1, h2⟩)
      · exact hmem p hp h1 h2
    · have hcomp : component part = some (.normal (String.ofList part)) := by
        rw [component, if_neg hskip, if_neg (Ne.symm hup.1)]
      refine ⟨String.ofList part :: names, ?_, fun p hp h1 h2 => ?_⟩
      · rw [List.filterMap_cons_some hcomp, hnames, List.map_cons]
      · rcases List.mem_cons.1 hp with rfl | hp
        · exact List.mem_cons_self
        · exact List.mem_cons_of_mem _ (hmem p hp h1 h2)

/-- A relative path that is not empty begins with a part that is not. -/
lemma exists_head_splitOn {s : List Char} (hne : s ≠ []) (hrel : ¬ IsAbsolute s) :
    ∃ part ∈ (s.splitOn '/').head?, part ≠ [] := by
  obtain ⟨c, rest, rfl⟩ := List.exists_cons_of_ne_nil hne
  have hc : (c == '/') = false := beq_false_of_ne fun h => hrel (congrArg some h)
  rw [List.splitOn_cons_eq_if_modifyHead, hc]
  obtain ⟨part, parts, hsplit⟩ := List.exists_cons_of_ne_nil (List.splitOn_ne_nil '/' rest)
  rw [hsplit]
  exact ⟨c :: part, rfl, List.cons_ne_nil _ _⟩

/-- **What is pushed to a directory goes behind the components of the directory.** -/
lemma components_push_relative {p : PathBuf} (hrel : ¬ IsAbsolute p)
    (hdot : (p.splitOn '/').head? ≠ some ['.']) :
    components (push buf p) = components buf ++ components p := by
  have hnil : (([] : List Char).splitOn '/').filterMap component = [] := rfl
  have hp := components_relative hrel hdot
  rw [push, if_neg hrel]
  split
  · rename_i hend
    rcases hend with rfl | hend
    · rfl
    · -- a directory that ends in a separator
      obtain ⟨front, rfl⟩ := List.getLast?_eq_some_iff.1 hend
      rw [List.append_assoc, List.singleton_append, hp]
      by_cases hfront : front = []
      · rw [hfront, List.nil_append, List.nil_append, components_root, components_root, hnil]
        rfl
      · rw [components_append_sep hfront, components_append_sep hfront, hnil, List.append_nil]
  · rename_i hend
    rw [not_or] at hend
    rw [components_append_sep hend.1, hp]

lemma IsName.splitOn (h : IsName name) : name.splitOn '/' = [name] :=
  List.splitOn_eq_singleton h.noSep

/-- A name that is pushed is one more component. -/
lemma components_push (h : IsName name) :
    components (push buf name) = components buf ++ [.normal (String.ofList name)] := by
  have hdot : (name.splitOn '/').head? ≠ some ['.'] := by
    rw [h.splitOn]
    exact fun heq => h.ne_dot (Option.some.inj heq)
  rw [components_push_relative h.not_isAbsolute hdot, components_relative h.not_isAbsolute hdot,
    h.splitOn, List.filterMap_cons_some h.component]
  rfl

lemma components_pushAll (hnames : ∀ name ∈ names, IsName name) :
    components (pushAll buf names) =
      components buf ++ names.map fun name => .normal (String.ofList name) := by
  induction names generalizing buf with
  | nil => rw [List.map_nil, List.append_nil]; rfl
  | cons name names ih =>
    have hrest : ∀ name ∈ names, IsName name := fun n hn => hnames n (List.mem_cons_of_mem _ hn)
    have hname : IsName name := hnames name List.mem_cons_self
    rw [pushAll, List.foldl_cons]
    rw [show names.foldl push (push buf name) = pushAll (push buf name) names from rfl, ih hrest,
      components_push hname, List.append_assoc, List.map_cons, List.singleton_append]

/-- Names lead down from a directory. -/
lemma walk_names (dir : List String) (names : List String) :
    walk dir (names.map .normal) = dir ++ names := by
  induction names generalizing dir with
  | nil => exact (List.append_nil dir).symm
  | cons name names ih =>
    rw [List.map_cons, walk, List.foldl_cons]
    refine (ih (dir ++ [name])).trans ?_
    rw [List.append_assoc]
    rfl

lemma walk_append (dir : List String) (cs cs' : List Component) :
    walk dir (cs ++ cs') = walk (walk dir cs) cs' := List.foldl_append

lemma not_isAbsolute_push (hbuf : ¬ IsAbsolute buf) (h : IsName name) :
    ¬ IsAbsolute (push buf name) := by
  rw [push, if_neg h.not_isAbsolute]
  by_cases hnil : buf = []
  · rw [if_pos (.inl hnil), hnil]
    exact h.not_isAbsolute
  · split
    · rwa [isAbsolute_append hnil]
    · rwa [isAbsolute_append hnil]

lemma not_isAbsolute_pushAll (hbuf : ¬ IsAbsolute buf) (hnames : ∀ name ∈ names, IsName name) :
    ¬ IsAbsolute (pushAll buf names) := by
  induction names generalizing buf with
  | nil => exact hbuf
  | cons name names ih =>
    exact ih (not_isAbsolute_push hbuf (hnames name List.mem_cons_self))
      fun n hn => hnames n (List.mem_cons_of_mem _ hn)

lemma components_nil : components [] = [] := rfl

/-- **Joining a path made of names to a directory** puts the names behind its components. -/
lemma components_join (dir : PathBuf) (hnames : ∀ name ∈ names, IsName name) :
    components (push dir (pushAll [] names)) =
      components dir ++ names.map fun name => .normal (String.ofList name) := by
  have hrel : ¬ IsAbsolute (pushAll [] names) := not_isAbsolute_pushAll (by decide) hnames
  have hcomps : components (pushAll [] names) =
      [] ++ names.map fun name => .normal (String.ofList name) := components_pushAll hnames
  rw [List.nil_append] at hcomps
  have hdot : ((pushAll [] names).splitOn '/').head? ≠ some ['.'] := by
    intro hdot
    have hcur : Component.curDir ∈ components (pushAll [] names) := by
      unfold components
      dsimp only
      rw [if_neg hrel, if_pos hdot]
      exact List.mem_append_left _ (List.mem_singleton_self _)
    rw [hcomps] at hcur
    obtain ⟨name, -, hname⟩ := List.mem_map.1 hcur
    exact absurd hname (by simp)
  rw [components_push_relative hrel hdot, hcomps]

end Names

end PathText
