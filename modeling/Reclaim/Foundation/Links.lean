import Mathlib.Data.Set.Card

/-!
# Following links

Each element has a link to another one, or none.  A walk along the links that stops after a number
of elements meets none of them twice if the links come to an end; if they do not, it does so exactly
if it stops before there are no new ones (`nodup_follow_iff`).
-/

namespace Reclaim
namespace Links

variable {α : Type} (next : α → Option α)

/-- The element `n` links behind `c`. -/
def after : ℕ → α → Option α
  | 0, c => some c
  | n + 1, c => (next c).bind (after n)

/-- The elements from `c` on, at most `cap` of them. -/
def follow : ℕ → α → List α
  | 0, _ => []
  | cap + 1, c =>
    c :: match next c with
      | none => []
      | some d => follow cap d

/-- The links from `c` on come to an end. -/
def Ends (c : α) : Prop := ∃ n, after next n c = none

/-- The elements that the links lead to from `c`, with `c` itself. -/
def reached (c : α) : Set α := {d | ∃ n, after next n c = some d}

variable {next} {c d : α} {cap i j k m n p : ℕ}

lemma after_zero : after next 0 c = some c := rfl

lemma after_succ : after next (n + 1) c = (next c).bind (after next n) := rfl

lemma follow_succ : follow next (cap + 1) c =
    c :: match next c with
      | none => []
      | some d => follow next cap d := rfl

lemma after_add (m n : ℕ) (c : α) :
    after next (m + n) c = (after next m c).bind (after next n) := by
  induction m generalizing c with
  | zero => rw [Nat.zero_add, after_zero, Option.bind_some]
  | succ m ih =>
    rw [Nat.add_right_comm, after_succ, after_succ, Option.bind_assoc]
    exact Option.bind_congr fun d _ => ih d

/-- Behind the end there is nothing. -/
lemma after_eq_none_of_le (h : after next m c = none) (hle : m ≤ n) : after next n c = none := by
  obtain ⟨k, rfl⟩ := Nat.exists_eq_add_of_le hle
  rw [after_add, h, Option.bind_none]

/-- What two elements are followed by is the same if they are. -/
lemma after_congr (h : after next i c = after next j c) (k : ℕ) :
    after next (i + k) c = after next (j + k) c := by
  rw [after_add, after_add, h]

lemma getElem?_follow (k : ℕ) :
    (follow next cap c)[k]? = if k < cap then after next k c else none := by
  induction cap generalizing k c with
  | zero => rfl
  | succ cap ih =>
    rw [follow_succ]
    cases k with
    | zero => rfl
    | succ k =>
      rw [List.getElem?_cons_succ, after_succ]
      cases next c with
      | none => exact (ite_self _).symm
      | some d =>
        refine (ih k).trans ?_
        simp only [Nat.add_lt_add_iff_right, Option.bind_some]

lemma length_follow_le (cap : ℕ) (c : α) : (follow next cap c).length ≤ cap := by
  rw [← List.getElem?_eq_none_iff, getElem?_follow, if_neg (Nat.lt_irrefl cap)]

lemma mem_follow : d ∈ follow next cap c ↔ ∃ k < cap, after next k c = some d := by
  rw [List.mem_iff_getElem?]
  apply exists_congr
  intro k
  rw [getElem?_follow]
  split
  · rename_i hk
    exact (and_iff_right hk).symm
  · rename_i hk
    exact iff_of_false (Option.some_ne_none _ ·.symm) fun h => hk h.1

lemma follow_take (n : ℕ) : (follow next cap c).take n = follow next (min n cap) c := by
  refine List.ext_getElem? fun k => ?_
  rw [List.getElem?_take, getElem?_follow, getElem?_follow]
  by_cases hn : k < n
  · rw [if_pos hn]
    exact if_congr (by omega) rfl rfl
  · rw [if_neg hn, if_neg (by omega)]

/-- A walk has so many elements if it may have them and the links lead so far. -/
lemma lt_length_follow_iff : n < (follow next cap c).length ↔ n < cap ∧ after next n c ≠ none := by
  rw [← not_le, ← List.getElem?_eq_none_iff, getElem?_follow]
  split
  · rename_i hn
    exact (and_iff_right hn).symm
  · rename_i hn
    exact iff_of_false (not_not_intro rfl) fun h => hn h.1

/-- Elements that return for the first time at `j` are all there are. -/
lemma exists_lt_after (hij : i < j) (h : after next i c = after next j c) (n : ℕ) :
    ∃ k < j, after next n c = after next k c := by
  induction n using Nat.strong_induction_on with
  | _ n ih =>
    by_cases hn : n < j
    · exact ⟨n, hn, rfl⟩
    · obtain ⟨k, hk, heq⟩ := ih (i + (n - j)) (by omega)
      refine ⟨k, hk, ?_⟩
      rw [← heq, ← Nat.add_sub_of_le (not_lt.1 hn)]
      simpa using (after_congr h (n - j)).symm

/-- Links that return do not end. -/
lemma not_ends_of_return (hij : i < j) (hi : after next i c = some d)
    (h : after next i c = after next j c) : ¬ Ends next c := by
  rintro ⟨n, hn⟩
  obtain ⟨k, hk, heq⟩ := exists_lt_after hij h n
  have hj := after_eq_none_of_le (heq.symm.trans hn) hk.le
  rw [hi, hj] at h
  cases h

/-- Elements that return are no more than there are before they do. -/
lemma encard_reached_le (hij : i < j) (h : after next i c = after next j c) :
    (reached next c).encard ≤ j := by
  classical
  have hsub : reached next c ⊆ ((follow next j c).toFinset : Set α) := by
    rintro e ⟨n, hn⟩
    obtain ⟨k, hk, heq⟩ := exists_lt_after hij h n
    rw [List.coe_toFinset]
    exact mem_follow.2 ⟨k, hk, heq.symm.trans hn⟩
  calc (reached next c).encard
      ≤ ((follow next j c).toFinset : Set α).encard := Set.encard_le_encard hsub
    _ = ((follow next j c).toFinset.card : ℕ∞) := Set.encard_coe_eq_coe_finsetCard _
    _ ≤ j := by
      exact_mod_cast (List.toFinset_card_le _).trans (length_follow_le j c)

/-- Links that do not end give as many elements as are asked for. -/
lemma length_follow (h : ¬ Ends next c) (cap : ℕ) : (follow next cap c).length = cap := by
  refine le_antisymm (length_follow_le cap c)
    (not_lt.1 fun hlt => h ⟨(follow next cap c).length, ?_⟩)
  have hnone := List.getElem?_eq_none_iff.2 (le_refl (follow next cap c).length)
  rwa [getElem?_follow, if_pos hlt] at hnone

/-- **A walk along links** meets no element twice exactly if the links end, or if it is not longer
than there are elements. -/
theorem nodup_follow_iff : (follow next cap c).Nodup ↔
    Ends next c ∨ (cap : ℕ∞) ≤ (reached next c).encard := by
  classical
  constructor
  · intro hnodup
    by_cases hends : Ends next c
    · exact .inl hends
    · refine .inr ?_
      have hsub : ((follow next cap c).toFinset : Set α) ⊆ reached next c := by
        intro d hd
        rw [List.coe_toFinset] at hd
        obtain ⟨k, -, hk⟩ := mem_follow.1 hd
        exact ⟨k, hk⟩
      calc (cap : ℕ∞) = ((follow next cap c).toFinset.card : ℕ∞) := by
            rw [List.toFinset_card_of_nodup hnodup, length_follow hends]
        _ = ((follow next cap c).toFinset : Set α).encard :=
            (Set.encard_coe_eq_coe_finsetCard _).symm
        _ ≤ (reached next c).encard := Set.encard_le_encard hsub
  · intro h
    refine List.nodup_iff_getElem?_ne_getElem?.2 fun i j hij hj heq => ?_
    have hcap := hj.trans_le (length_follow_le cap c)
    rw [getElem?_follow, getElem?_follow, if_pos (hij.trans hcap), if_pos hcap] at heq
    have hsome : after next j c = some ((follow next cap c)[j]) := by
      rw [← List.getElem?_eq_getElem hj, getElem?_follow, if_pos hcap]
    have hi := heq.trans hsome
    rcases h with hends | hcard
    · exact not_ends_of_return hij hi heq hends
    · have hle : (cap : ℕ∞) ≤ j := hcard.trans (encard_reached_le hij heq)
      exact absurd (Nat.cast_le.1 hle) (by omega)

/-! ## Walks with a test -/

section Walks

variable (good stop : α → Prop) [DecidablePred good] [DecidablePred stop] (entry : α → α)

/-- The link of a good element is its entry, unless the walk stops there. -/
def linkOf (c : α) : Option α := if good c ∧ ¬ stop c then some (entry c) else none

/-- A walk that tests each element before it takes it, and goes on to its entry if it does not
stop. -/
structure Walks (walk : ℕ → α → List α) : Prop where
  zero : ∀ c, walk 0 c = []
  succ : ∀ cap c, walk (cap + 1) c =
    if good c then if stop c then [c] else c :: walk cap (entry c) else []
  good_entry : ∀ c, good c → ¬ stop c → good (entry c)

variable {good stop entry} {walk : ℕ → α → List α}

/-- Such a walk is one along the links. -/
lemma Walks.eq_follow (h : Walks good stop entry walk) (hc : good c) :
    walk cap c = follow (linkOf good stop entry) cap c := by
  induction cap generalizing c with
  | zero => exact h.zero c
  | succ cap ih =>
    rw [h.succ, if_pos hc, follow_succ]
    by_cases hstop : stop c
    · rw [if_pos hstop, linkOf, if_neg fun hgo => hgo.2 hstop]
    · rw [if_neg hstop, linkOf, if_pos ⟨hc, hstop⟩, ih (h.good_entry c hc hstop)]

/-- The links of a walk lead to good elements. -/
lemma Walks.good_of_mem (h : Walks good stop entry walk) (hc : good c)
    (hd : d ∈ follow (linkOf good stop entry) cap c) : good d := by
  induction cap generalizing c with
  | zero => cases hd
  | succ cap ih =>
    rw [follow_succ] at hd
    rcases List.mem_cons.1 hd with rfl | hd
    · exact hc
    · by_cases hstop : stop c
      · rw [linkOf, if_neg fun hgo => hgo.2 hstop] at hd
        cases hd
      · rw [linkOf, if_pos ⟨hc, hstop⟩] at hd
        exact ih (h.good_entry c hc hstop) hd

lemma Walks.eq_nil (h : Walks good stop entry walk) (hc : ¬ good c) : walk cap c = [] := by
  cases cap with
  | zero => exact h.zero c
  | succ cap => rw [h.succ, if_neg hc]

lemma Walks.length_le (h : Walks good stop entry walk) : (walk cap c).length ≤ cap := by
  by_cases hc : good c
  · rw [h.eq_follow hc]
    exact length_follow_le cap c
  · rw [h.eq_nil hc]
    exact Nat.zero_le cap

/-- **A walk with a test** meets no element twice exactly if its links end, or if it is not longer
than there are elements. -/
lemma Walks.nodup_iff (h : Walks good stop entry walk) :
    (walk cap c).Nodup ↔ Ends (linkOf good stop entry) c ∨
      (cap : ℕ∞) ≤ (reached (linkOf good stop entry) c).encard := by
  by_cases hc : good c
  · rw [h.eq_follow hc]
    exact nodup_follow_iff
  · rw [h.eq_nil hc]
    refine iff_of_true List.nodup_nil (.inl ⟨1, ?_⟩)
    rw [after_succ, linkOf, if_neg fun hgo => hc hgo.1, Option.bind_none]

end Walks

/-! ## Walks that remember -/

section Visits

variable [DecidableEq α] (stop : α → Prop) [DecidablePred stop] (entry : α → α)

/-- The elements from `c` on, up to one where the walk stops or that it has seen, at most `cap` of
them. -/
def visits : ℕ → α → List α → List α
  | 0, _, _ => []
  | cap + 1, c, seen =>
    if stop c ∨ c ∈ seen then [] else c :: visits cap (entry c) (c :: seen)

/-- `cs` are linked one to the next from `c` on, and the walk stops behind them. -/
def Linked : α → List α → Prop
  | c, [] => stop c
  | c, d :: ds => c = d ∧ ¬ stop c ∧ Linked (entry c) ds

variable {stop entry} {seen cs : List α}

lemma visits_succ {cap : ℕ} {c : α} : visits stop entry (cap + 1) c seen =
    if stop c ∨ c ∈ seen then [] else c :: visits stop entry cap (entry c) (c :: seen) := rfl

lemma length_visits_le (cap : ℕ) (c : α) (seen : List α) :
    (visits stop entry cap c seen).length ≤ cap := by
  induction cap generalizing c seen with
  | zero => exact le_rfl
  | succ cap ih =>
    rw [visits_succ]
    split
    · exact Nat.zero_le _
    · exact Nat.succ_le_succ (ih (entry c) (c :: seen))

/-- **No element is visited twice**, and none that was seen before. -/
lemma nodup_visits (cap : ℕ) (c : α) (seen : List α) :
    (visits stop entry cap c seen).Nodup ∧ ∀ d ∈ visits stop entry cap c seen, d ∉ seen := by
  induction cap generalizing c seen with
  | zero => exact ⟨List.nodup_nil, fun d hd => absurd hd List.not_mem_nil⟩
  | succ cap ih =>
    obtain ⟨hnodup, hnew⟩ := ih (entry c) (c :: seen)
    rw [visits_succ]
    split
    · exact ⟨List.nodup_nil, fun d hd => absurd hd List.not_mem_nil⟩
    · rename_i hgo
      refine ⟨List.nodup_cons.2 ⟨fun hc => hnew c hc List.mem_cons_self, hnodup⟩, fun d hd => ?_⟩
      rcases List.mem_cons.1 hd with rfl | hd
      · exact fun hseen => hgo (.inr hseen)
      · exact fun hseen => hnew d hd (List.mem_cons_of_mem c hseen)

/-- A walk that stops of itself visits no more with a greater budget. -/
lemma visits_eq_of_length_lt {cap : ℕ} {c : α}
    (h : (visits stop entry cap c seen).length < cap) {more : ℕ} (hle : cap ≤ more) :
    visits stop entry more c seen = visits stop entry cap c seen := by
  induction cap generalizing c seen more with
  | zero => exact absurd h (Nat.not_lt_zero _)
  | succ cap ih =>
    obtain ⟨more, rfl⟩ : ∃ m, more = m + 1 := ⟨more - 1, by omega⟩
    rw [visits_succ] at h
    rw [visits_succ, visits_succ]
    split
    · rfl
    · rename_i hgo
      rw [if_neg hgo, List.length_cons] at h
      rw [ih (by omega) (by omega)]

/-- **A walk over `n` elements ends** before it has used up a greater budget. -/
lemma visits_eq_of_lt {seen : List ℕ} {stop : ℕ → Prop} [DecidablePred stop] {entry : ℕ → ℕ}
    {c n cap : ℕ} (hc : c < n) (hentry : ∀ d, entry d < n) (hcap : n < cap) :
    visits stop entry cap c seen = visits stop entry (n + 1) c seen := by
  have hlt : ∀ cap (c : ℕ) seen, c < n → ∀ d ∈ visits stop entry cap c seen, d < n := by
    intro cap
    induction cap with
    | zero => exact fun c seen _ d hd => absurd hd List.not_mem_nil
    | succ cap ih =>
      intro c seen hc d hd
      rw [visits_succ] at hd
      split at hd
      · exact absurd hd List.not_mem_nil
      · rcases List.mem_cons.1 hd with rfl | hd
        · exact hc
        · exact ih (entry c) (c :: seen) (hentry c) d hd
  have hsub : visits stop entry (n + 1) c seen ⊆ List.range n := fun d hd =>
    List.mem_range.2 (hlt (n + 1) c seen hc d hd)
  have hlen := ((nodup_visits (n + 1) c seen).1.subperm hsub).length_le
  rw [List.length_range] at hlen
  exact visits_eq_of_length_lt (by omega) (by omega)

/-- **Elements linked one to the next** are all visited, as many of them as the budget allows. -/
lemma visits_of_linked {cap : ℕ} {c : α} (h : Linked stop entry c cs) (hcs : cs.Nodup)
    (hnew : ∀ d ∈ cs, d ∉ seen) : visits stop entry cap c seen = cs.take cap := by
  induction cap generalizing c seen cs with
  | zero => rfl
  | succ cap ih =>
    rw [visits_succ]
    cases cs with
    | nil => rw [if_pos (.inl h), List.take_nil]
    | cons d ds =>
      obtain ⟨rfl, hgo, hrest⟩ := h
      obtain ⟨hc, hds⟩ := List.nodup_cons.1 hcs
      have hnew' : ∀ e ∈ ds, e ∉ c :: seen := by
        intro e he hmem
        rcases List.mem_cons.1 hmem with rfl | hmem
        · exact hc he
        · exact hnew e (List.mem_cons_of_mem c he) hmem
      rw [if_neg (not_or.2 ⟨hgo, hnew c List.mem_cons_self⟩), ih hrest hds hnew',
        List.take_succ_cons]

end Visits

end Links
end Reclaim
