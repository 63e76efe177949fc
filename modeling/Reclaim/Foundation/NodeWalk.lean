import Mathlib.Tactic

/-!
# Walks with a budget

A walk over the nodes of a tree that keeps a stack of the nodes to come and the pointers it has
followed, so that a node which several others point to is walked once.  Each node costs one of the
budget, and where that is used up the walk ends early.

A walk that has some of its budget left was not cut short, and a greater budget changes nothing but
what is left of it.
-/

namespace NodeWalk

variable {π ν ρ : Type} [DecidableEq π]

/-- The nodes of a tree as a walk sees them. -/
structure Nodes (π ν ρ : Type) where
  /-- The records of a leaf, or the pointers of an inner node. -/
  view : ν → List ρ ⊕ List π
  /-- The node that a pointer of a node leads to, if there is one to walk. -/
  child : ν → π → Option ν

/-- The pointers of an inner node in turn: one that was not followed before is noted, and its node
put on the stack. -/
def follow (child : π → Option ν) : List π → List π × List ν → List π × List ν
  | [], s => s
  | p :: ps, s =>
    if p ∈ s.1 then follow child ps s
    else
      follow child ps (p :: s.1, match child p with
        | some n => n :: s.2
        | none => s.2)

/-- The records that a walk visits, and what is left of its budget. -/
def walk (t : Nodes π ν ρ) : ℕ → List π × List ν → List ρ × ℕ
  | 0, _ => ([], 0)
  | b + 1, (_, []) => ([], b + 1)
  | b + 1, (seen, n :: stack) =>
    match t.view n with
    | .inl rs => (rs ++ (walk t b (seen, stack)).1, (walk t b (seen, stack)).2)
    | .inr ps => walk t b (follow (t.child n) ps (seen, stack))

variable (t : Nodes π ν ρ)

@[simp] lemma walk_zero (s : List π × List ν) : walk t 0 s = ([], 0) := rfl

@[simp] lemma walk_nil (b : ℕ) (seen : List π) : walk t b (seen, []) = ([], b) := by
  cases b with
  | zero => rfl
  | succ b => rfl

variable {t}

lemma walk_leaf {b : ℕ} {seen : List π} {n : ν} {stack : List ν} {rs : List ρ}
    (h : t.view n = .inl rs) : walk t (b + 1) (seen, n :: stack) =
      (rs ++ (walk t b (seen, stack)).1, (walk t b (seen, stack)).2) := by
  rw [walk, h]

lemma walk_inner {b : ℕ} {seen : List π} {n : ν} {stack : List ν} {ps : List π}
    (h : t.view n = .inr ps) : walk t (b + 1) (seen, n :: stack) =
      walk t b (follow (t.child n) ps (seen, stack)) := by
  rw [walk, h]

/-- **A walk with budget left visits what it visits with any greater budget.** -/
lemma walk_add {b : ℕ} {s : List π × List ν} (h : (walk t b s).2 ≠ 0) (k : ℕ) :
    walk t (b + k) s = ((walk t b s).1, (walk t b s).2 + k) := by
  induction b generalizing s with
  | zero => exact absurd rfl h
  | succ b ih =>
    obtain ⟨seen, stack⟩ := s
    cases stack with
    | nil => rw [walk_nil, walk_nil]
    | cons n stack =>
      rw [Nat.add_right_comm]
      cases hv : t.view n with
      | inl rs =>
        rw [walk_leaf hv] at h
        rw [walk_leaf hv, walk_leaf hv, ih h]
      | inr ps =>
        rw [walk_inner hv] at h
        rw [walk_inner hv, walk_inner hv, ih h]

/-! ## Every walk ends -/

/-- The nodes that are put on the stack are children. -/
lemma follow_stack (child : π → Option ν) (ps : List π) (s : List π × List ν) :
    ∃ cs, (follow child ps s).2 = cs ++ s.2 ∧ ∀ c ∈ cs, ∃ p, child p = some c := by
  induction ps generalizing s with
  | nil => exact ⟨[], rfl, fun c hc => absurd hc List.not_mem_nil⟩
  | cons p ps ih =>
    rw [follow]
    split
    · exact ih s
    · cases hp : child p with
      | none => exact ih (p :: s.1, s.2)
      | some n =>
        obtain ⟨cs, hcs, hchild⟩ := ih (p :: s.1, n :: s.2)
        refine ⟨cs ++ [n], by rw [hcs, List.append_assoc, List.singleton_append], fun c hc => ?_⟩
        rcases List.mem_append.1 hc with hc | hc
        · exact hchild c hc
        · exact ⟨p, by rw [hp, List.mem_singleton.1 hc]⟩

/-- With some budget the nodes on top of a stack are done with. -/
def Clears (t : Nodes π ν ρ) (top : List ν) : Prop :=
  ∀ seen rest, ∃ b seen', ∀ k, (walk t (b + k) (seen, top ++ rest)).2 = (walk t k (seen', rest)).2

lemma Clears.append {top more : List ν} (h : Clears t top) (h' : Clears t more) :
    Clears t (top ++ more) := by
  intro seen rest
  obtain ⟨b, seen', hb⟩ := h seen (more ++ rest)
  obtain ⟨b', seen'', hb'⟩ := h' seen' rest
  refine ⟨b + b', seen'', fun k => ?_⟩
  rw [List.append_assoc, Nat.add_assoc, hb, hb']

lemma clears_nil : Clears t [] := fun seen _ => ⟨0, seen, fun k => by rw [Nat.zero_add]; rfl⟩

lemma clears_of_forall {top : List ν} (h : ∀ n ∈ top, Clears t [n]) : Clears t top := by
  induction top with
  | nil => exact clears_nil
  | cons n top ih =>
    have hn : Clears t [n] := h n List.mem_cons_self
    exact hn.append (ih fun m hm => h m (List.mem_cons_of_mem n hm))

/-- Where children are of a lower rank, every node is done with in the end. -/
lemma clears_singleton {rank : ν → ℕ}
    (hrank : ∀ n p c, t.child n p = some c → rank c < rank n) (n : ν) : Clears t [n] := by
  induction hr : rank n using Nat.strong_induction_on generalizing n with
  | _ r ih =>
    intro seen rest
    cases hv : t.view n with
    | inl rs =>
      refine ⟨1, seen, fun k => ?_⟩
      rw [Nat.add_comm, List.singleton_append, walk_leaf hv]
    | inr ps =>
      obtain ⟨cs, hcs, hchild⟩ := follow_stack (t.child n) ps (seen, rest)
      have hclears : Clears t cs := clears_of_forall fun c hc => by
        obtain ⟨p, hp⟩ := hchild c hc
        exact ih (rank c) (hr ▸ hrank n p c hp) c rfl
      obtain ⟨b, seen', hb⟩ := hclears (follow (t.child n) ps (seen, rest)).1 rest
      refine ⟨b + 1, seen', fun k => ?_⟩
      rw [Nat.add_right_comm, List.singleton_append, walk_inner hv, ← hb, ← hcs]

/-- **With enough of a budget a walk is not cut short.** -/
lemma exists_walk_ne_zero {rank : ν → ℕ}
    (hrank : ∀ n p c, t.child n p = some c → rank c < rank n) (s : List π × List ν) :
    ∃ b, (walk t b s).2 ≠ 0 := by
  have hclears : Clears t s.2 := clears_of_forall fun n _ => clears_singleton hrank n
  obtain ⟨b, seen', hb⟩ := hclears s.1 []
  refine ⟨b + 1, ?_⟩
  have hend := hb 1
  rw [List.append_nil, walk_nil] at hend
  rw [hend]
  exact one_ne_zero

/-! ## What a walk visits and follows -/

/-- The records of a leaf; an inner node has none. -/
def Nodes.leafRecords (t : Nodes π ν ρ) (n : ν) : List ρ :=
  match t.view n with
  | .inl rs => rs
  | .inr _ => []

/-- The pointers of an inner node; a leaf has none. -/
def Nodes.pointers (t : Nodes π ν ρ) (n : ν) : List π :=
  match t.view n with
  | .inl _ => []
  | .inr ps => ps

/-- The nodes that a walk visits, and the pointers it has followed in the end. -/
def run (t : Nodes π ν ρ) : ℕ → List π × List ν → List ν × List π
  | 0, s => ([], s.1)
  | _ + 1, (seen, []) => ([], seen)
  | b + 1, (seen, n :: stack) =>
    let rest := match t.view n with
      | .inl _ => run t b (seen, stack)
      | .inr ps => run t b (follow (t.child n) ps (seen, stack))
    (n :: rest.1, rest.2)

lemma run_leaf {b : ℕ} {seen : List π} {n : ν} {stack : List ν} {rs : List ρ}
    (h : t.view n = .inl rs) : run t (b + 1) (seen, n :: stack) =
      (n :: (run t b (seen, stack)).1, (run t b (seen, stack)).2) := by
  rw [run, h]

lemma run_inner {b : ℕ} {seen : List π} {n : ν} {stack : List ν} {ps : List π}
    (h : t.view n = .inr ps) : run t (b + 1) (seen, n :: stack) =
      (n :: (run t b (follow (t.child n) ps (seen, stack))).1,
        (run t b (follow (t.child n) ps (seen, stack))).2) := by
  rw [run, h]

/-- **A walk visits the records of its leaves in turn**, and each node costs one. -/
lemma walk_eq_run (b : ℕ) (s : List π × List ν) :
    (walk t b s).1 = (run t b s).1.flatMap t.leafRecords ∧
      (run t b s).1.length + (walk t b s).2 = b := by
  induction b generalizing s with
  | zero => exact ⟨rfl, rfl⟩
  | succ b ih =>
    obtain ⟨seen, stack⟩ := s
    cases stack with
    | nil => exact ⟨rfl, Nat.zero_add _⟩
    | cons n stack =>
      cases hv : t.view n with
      | inl rs =>
        obtain ⟨hrecords, hcost⟩ := ih (seen, stack)
        have hn : t.leafRecords n = rs := by rw [Nodes.leafRecords, hv]
        rw [walk_leaf hv, run_leaf hv, List.flatMap_cons, hn, hrecords, List.length_cons]
        exact ⟨rfl, by omega⟩
      | inr ps =>
        obtain ⟨hrecords, hcost⟩ := ih (follow (t.child n) ps (seen, stack))
        have hn : t.leafRecords n = [] := by rw [Nodes.leafRecords, hv]
        rw [walk_inner hv, run_inner hv, List.flatMap_cons, hn, hrecords, List.length_cons]
        exact ⟨rfl, by omega⟩

/-- No pointer is followed twice, and none that was not one of the node's. -/
lemma follow_seen (child : π → Option ν) (ps : List π) (s : List π × List ν) (hs : s.1.Nodup) :
    (follow child ps s).1.Nodup ∧ (follow child ps s).1.length ≤ s.1.length + ps.length := by
  induction ps generalizing s with
  | nil => exact ⟨hs, le_rfl⟩
  | cons p ps ih =>
    rw [follow, List.length_cons]
    split
    · obtain ⟨hnodup, hlen⟩ := ih s hs
      exact ⟨hnodup, by omega⟩
    · rename_i hnew
      obtain ⟨hnodup, hlen⟩ := ih (p :: s.1, _) (List.nodup_cons.2 ⟨hnew, hs⟩)
      rw [List.length_cons] at hlen
      exact ⟨hnodup, by omega⟩

/-- **A walk follows no pointer twice**, and no more of them than the nodes it visits have. -/
lemma run_followed (b : ℕ) (s : List π × List ν) (hs : s.1.Nodup) :
    (run t b s).2.Nodup ∧ (run t b s).2.length ≤
      s.1.length + ((run t b s).1.map fun n => (t.pointers n).length).sum := by
  induction b generalizing s with
  | zero => exact ⟨hs, Nat.le_add_right ..⟩
  | succ b ih =>
    obtain ⟨seen, stack⟩ := s
    cases stack with
    | nil => exact ⟨hs, Nat.le_add_right ..⟩
    | cons n stack =>
      cases hv : t.view n with
      | inl rs =>
        obtain ⟨hnodup, hlen⟩ := ih (seen, stack) hs
        rw [run_leaf hv, List.map_cons, List.sum_cons]
        refine ⟨hnodup, hlen.trans ?_⟩
        dsimp only
        omega
      | inr ps =>
        have hn : t.pointers n = ps := by rw [Nodes.pointers, hv]
        obtain ⟨hseen, hmore⟩ := follow_seen (t.child n) ps (seen, stack) hs
        obtain ⟨hnodup, hlen⟩ := ih _ hseen
        rw [run_inner hv, List.map_cons, List.sum_cons, hn]
        refine ⟨hnodup, hlen.trans ?_⟩
        dsimp only at hmore ⊢
        omega

/-- What is true of the first nodes and goes over to children is true of all nodes visited. -/
lemma run_forall {P : ν → Prop} (hchild : ∀ n p c, P n → t.child n p = some c → P c) (b : ℕ)
    (s : List π × List ν) (hs : ∀ n ∈ s.2, P n) : ∀ n ∈ (run t b s).1, P n := by
  induction b generalizing s with
  | zero => exact fun n hn => absurd hn List.not_mem_nil
  | succ b ih =>
    obtain ⟨seen, stack⟩ := s
    cases stack with
    | nil => exact fun n hn => absurd hn List.not_mem_nil
    | cons n stack =>
      have hn : P n := hs n List.mem_cons_self
      have hstack : ∀ m ∈ stack, P m := fun m hm => hs m (List.mem_cons_of_mem n hm)
      cases hv : t.view n with
      | inl rs =>
        rw [run_leaf hv]
        exact List.forall_mem_cons.2 ⟨hn, ih (seen, stack) hstack⟩
      | inr ps =>
        rw [run_inner hv]
        refine List.forall_mem_cons.2 ⟨hn, ih _ fun m hm => ?_⟩
        obtain ⟨cs, hcs, hchildren⟩ := follow_stack (t.child n) ps (seen, stack)
        rw [hcs] at hm
        obtain hm | hm := List.mem_append.1 hm
        · obtain ⟨p, hp⟩ := hchildren m hm
          exact hchild n p m hn hp
        · exact hstack m hm

/-! ## Walks of trees -/

/-- The nodes of a stack are the roots of finite trees, with so many nodes, pointers and records in
all.  The nodes of an inner node come in the order in which a walk takes them from the stack. -/
inductive Grown (t : Nodes π ν ρ) : List ν → ℕ → List π → List ρ → Prop
  | nil : Grown t [] 0 [] []
  | leaf {n : ν} {stack : List ν} {k : ℕ} {ps : List π} {rs rest : List ρ}
      (hview : t.view n = .inl rs) (hstack : Grown t stack k ps rest) :
      Grown t (n :: stack) (k + 1) ps (rs ++ rest)
  | inner {n : ν} {stack cs : List ν} {k : ℕ} {ps qs : List π} {rs : List ρ}
      (hview : t.view n = .inr ps) (hchildren : ps.map (t.child n) = cs.map some)
      (hstack : Grown t (cs.reverse ++ stack) k qs rs) : Grown t (n :: stack) (k + 1) (ps ++ qs) rs

omit [DecidableEq π] in
lemma Grown.append {top more : List ν} {k l : ℕ} {ps qs : List π} {rs rest : List ρ}
    (h : Grown t top k ps rs) (h' : Grown t more l qs rest) :
    Grown t (top ++ more) (k + l) (ps ++ qs) (rs ++ rest) := by
  induction h with
  | nil => rwa [Nat.zero_add]
  | leaf hview hstack ih =>
    rw [Nat.add_right_comm, List.append_assoc]
    exact .leaf hview ih
  | inner hview hchildren hstack ih =>
    rw [Nat.add_right_comm, List.append_assoc]
    rw [List.append_assoc] at ih
    exact .inner hview hchildren ih

/-- Pointers that were not followed before, none of them twice, are all followed. -/
lemma follow_new {child : π → Option ν} {ps : List π} {cs : List ν}
    (hchildren : ps.map child = cs.map some) (hps : ps.Nodup) (s : List π × List ν)
    (hnew : ∀ p ∈ ps, p ∉ s.1) :
    follow child ps s = (ps.reverse ++ s.1, cs.reverse ++ s.2) := by
  induction ps generalizing cs s with
  | nil =>
    obtain rfl : cs = [] := List.map_eq_nil_iff.1 hchildren.symm
    rfl
  | cons p ps ih =>
    obtain ⟨c, cs, rfl⟩ : ∃ c cs', cs = c :: cs' := by
      cases cs with
      | nil => cases hchildren
      | cons c cs => exact ⟨c, cs, rfl⟩
    obtain ⟨hp, hchildren⟩ := List.cons.inj hchildren
    obtain ⟨hlater, hps⟩ := List.nodup_cons.1 hps
    have hnew' : ∀ q ∈ ps, q ∉ p :: s.1 := by
      intro q hq hmem
      obtain rfl | hmem := List.mem_cons.1 hmem
      · exact hlater hq
      · exact hnew q (List.mem_cons_of_mem p hq) hmem
    rw [follow, if_neg (hnew p List.mem_cons_self), hp, ih hchildren hps _ hnew']
    simp only [List.reverse_cons, List.append_assoc, List.singleton_append]

/-- **A walk of a tree with budget for all its nodes visits all its records**, each once. -/
lemma Grown.walk {stack : List ν} {k : ℕ} {ps : List π} {rs : List ρ} (h : Grown t stack k ps rs)
    (hps : ps.Nodup) (seen : List π) (hnew : ∀ p ∈ ps, p ∉ seen) (b : ℕ) :
    NodeWalk.walk t (k + b) (seen, stack) = (rs, b) := by
  induction h generalizing seen with
  | nil => rw [Nat.zero_add, walk_nil]
  | leaf hview hstack ih => rw [Nat.succ_add, walk_leaf hview, ih hps seen hnew]
  | @inner n stack cs k ps qs rs hview hchildren hstack ih =>
    obtain ⟨hnodup, hqs, hapart⟩ := List.nodup_append.1 hps
    have hfollow := follow_new hchildren hnodup (seen, stack)
      fun p hp => hnew p (List.mem_append_left qs hp)
    rw [Nat.succ_add, walk_inner hview, hfollow]
    refine ih hqs _ fun q hq hmem => ?_
    obtain hmem | hmem := List.mem_append.1 hmem
    · exact hapart q (List.mem_reverse.1 hmem) q hq rfl
    · exact hnew q (List.mem_append_right ps hq) hmem

end NodeWalk
