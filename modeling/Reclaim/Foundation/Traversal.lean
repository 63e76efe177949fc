import Mathlib.Logic.Relation
import Mathlib.Tactic

/-!
# Traversals with a stack

Items are taken from a stack.  One whose key was seen before is left out; any other is visited, and
its children are put on the stack.  A limit on the keys that are seen stops the traversal.

No key is visited twice, what is visited is linked to the stack, and unless the limit is exceeded
all that is linked is visited (`mem_visit_iff`).
-/

namespace Traversal

variable {α κ : Type} [DecidableEq κ] (key : α → κ) (children : α → List α) (limit : ℕ)

/-- The items that are visited, in turn; the last child is on top of the stack. -/
def visit (stack : List α) (seen : List κ) : List α :=
  match stack with
  | [] => []
  | a :: stack =>
    if limit < seen.length then []
    else if key a ∈ seen then visit stack seen
    else a :: visit ((children a).reverse ++ stack) (key a :: seen)
termination_by (limit + 1 - seen.length, stack.length)
decreasing_by
  · exact Prod.Lex.right _ (Nat.lt_succ_self _)
  · refine Prod.Lex.left _ _ ?_
    rw [List.length_cons]
    omega

variable {key children limit} {stack : List α} {seen : List κ}

@[simp] lemma visit_nil : visit key children limit [] seen = [] := by rw [visit]

lemma visit_of_limit (h : limit < seen.length) : visit key children limit stack seen = [] := by
  cases stack with
  | nil => exact visit_nil
  | cons a stack => rw [visit, if_pos h]

lemma visit_seen {a : α} (hlimit : seen.length ≤ limit) (h : key a ∈ seen) :
    visit key children limit (a :: stack) seen = visit key children limit stack seen := by
  rw [visit, if_neg (not_lt.2 hlimit), if_pos h]

lemma visit_new {a : α} (hlimit : seen.length ≤ limit) (h : key a ∉ seen) :
    visit key children limit (a :: stack) seen =
      a :: visit key children limit ((children a).reverse ++ stack) (key a :: seen) := by
  rw [visit, if_neg (not_lt.2 hlimit), if_neg h]

/-- **No key is visited twice**, and none that was seen before. -/
lemma nodup_visit (stack : List α) (seen : List κ) :
    ((visit key children limit stack seen).map key).Nodup ∧
      ∀ a ∈ visit key children limit stack seen, key a ∉ seen := by
  fun_induction visit key children limit stack seen with
  | case1 => exact ⟨List.nodup_nil, fun a ha => absurd ha List.not_mem_nil⟩
  | case2 => exact ⟨List.nodup_nil, fun a ha => absurd ha List.not_mem_nil⟩
  | case3 seen a stack _ _ ih => exact ih
  | case4 seen a stack _ hnew ih =>
    obtain ⟨hnodup, hseen⟩ := ih
    refine ⟨?_, fun b hb => ?_⟩
    · rw [List.map_cons, List.nodup_cons]
      refine ⟨fun hmem => ?_, hnodup⟩
      obtain ⟨b, hb, hkey⟩ := List.mem_map.1 hmem
      exact hseen b hb (hkey ▸ List.mem_cons_self)
    · obtain rfl | hb := List.mem_cons.1 hb
      · exact hnew
      · exact fun hmem => hseen b hb (List.mem_cons_of_mem _ hmem)

/-- The limit is exceeded by one key at most. -/
lemma length_visit_le (hseen : seen.length ≤ limit + 1) :
    (visit key children limit stack seen).length + seen.length ≤ limit + 1 := by
  fun_induction visit key children limit stack seen with
  | case1 => simpa using hseen
  | case2 => simpa using hseen
  | case3 seen a stack _ _ ih => exact ih hseen
  | case4 seen a stack hlimit hnew ih =>
    have hrest := ih (by rw [List.length_cons]; omega)
    rw [List.length_cons] at hrest ⊢
    omega

section Links

variable {Link : κ → κ → Prop}

/-- What is visited is linked to the stack. -/
lemma linked_of_mem_visit (hlink : ∀ a, ∀ c ∈ children a, Link (key a) (key c)) :
    ∀ b ∈ visit key children limit stack seen,
      ∃ a ∈ stack, Relation.ReflTransGen Link (key a) (key b) := by
  fun_induction visit key children limit stack seen with
  | case1 => exact fun b hb => absurd hb List.not_mem_nil
  | case2 => exact fun b hb => absurd hb List.not_mem_nil
  | case3 seen a stack _ _ ih =>
    intro b hb
    obtain ⟨c, hc, hpath⟩ := ih b hb
    exact ⟨c, List.mem_cons_of_mem a hc, hpath⟩
  | case4 seen a stack _ _ ih =>
    intro b hb
    obtain rfl | hb := List.mem_cons.1 hb
    · exact ⟨b, List.mem_cons_self, .refl⟩
    · obtain ⟨c, hc, hpath⟩ := ih b hb
      obtain hc | hc := List.mem_append.1 hc
      · exact ⟨a, List.mem_cons_self, .head (hlink a c (List.mem_reverse.1 hc)) hpath⟩
      · exact ⟨c, List.mem_cons_of_mem a hc, hpath⟩

/-- A key was seen before or is visited. -/
def Done (key : α → κ) (seen : List κ) (visited : List α) (k : κ) : Prop :=
  k ∈ seen ∨ k ∈ visited.map key

/-- Within the limit, the stack is done with, and so are the children of all that is visited. -/
lemma done_visit (h : (visit key children limit stack seen).length + seen.length ≤ limit) :
    let visited := visit key children limit stack seen
    (∀ a ∈ stack, Done key seen visited (key a)) ∧
      ∀ b ∈ visited, ∀ c ∈ children b, Done key seen visited (key c) := by
  fun_induction visit key children limit stack seen with
  | case1 =>
    exact ⟨fun a ha => absurd ha List.not_mem_nil, fun b hb => absurd hb List.not_mem_nil⟩
  | case2 seen a stack hlimit =>
    rw [List.length_nil] at h
    omega
  | case3 seen a stack _ hseen ih =>
    obtain ⟨hstack, hclosed⟩ := ih h
    refine ⟨fun b hb => ?_, hclosed⟩
    obtain rfl | hb := List.mem_cons.1 hb
    · exact .inl hseen
    · exact hstack b hb
  | case4 seen a stack _ hnew ih =>
    rw [List.length_cons] at h
    obtain ⟨hstack, hclosed⟩ := ih (by rw [List.length_cons]; omega)
    have hmore : ∀ k, Done key (key a :: seen)
        (visit key children limit ((children a).reverse ++ stack) (key a :: seen)) k →
        Done key seen
          (a :: visit key children limit ((children a).reverse ++ stack) (key a :: seen)) k := by
      rintro k (hk | hk)
      · obtain rfl | hk := List.mem_cons.1 hk
        · exact .inr List.mem_cons_self
        · exact .inl hk
      · exact .inr (List.mem_cons_of_mem _ hk)
    refine ⟨fun b hb => ?_, fun b hb c hc => ?_⟩
    · obtain rfl | hb := List.mem_cons.1 hb
      · exact .inr List.mem_cons_self
      · exact hmore _ (hstack b (List.mem_append_right _ hb))
    · obtain rfl | hb := List.mem_cons.1 hb
      · exact hmore _ (hstack c (List.mem_append_left _ (List.mem_reverse.2 hc)))
      · exact hmore _ (hclosed b hb c hc)

/-- **Within the limit exactly the keys are visited that are linked to the stack.** -/
theorem mem_visit_iff (hlink : ∀ a k, Link (key a) k ↔ ∃ c ∈ children a, key c = k)
    (h : (visit key children limit stack []).length ≤ limit) (k : κ) :
    k ∈ (visit key children limit stack []).map key ↔
      ∃ a ∈ stack, Relation.ReflTransGen Link (key a) k := by
  have hwithin : (visit key children limit stack []).length + ([] : List κ).length ≤ limit := h
  obtain ⟨hstack, hclosed⟩ := done_visit hwithin
  constructor
  · intro hk
    obtain ⟨b, hb, rfl⟩ := List.mem_map.1 hk
    exact linked_of_mem_visit (fun a c hc => (hlink a _).2 ⟨c, hc, rfl⟩) b hb
  · rintro ⟨a, ha, hpath⟩
    induction hpath with
    | refl => exact (hstack a ha).resolve_left List.not_mem_nil
    | tail _ hstep ih =>
      obtain ⟨b, hb, rfl⟩ := List.mem_map.1 ih
      obtain ⟨c, hc, rfl⟩ := (hlink b _).1 hstep
      exact (hclosed b hb c hc).resolve_left List.not_mem_nil

end Links

end Traversal
