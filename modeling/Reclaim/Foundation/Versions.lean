import Mathlib.Data.List.Nodup
import Mathlib.Logic.Function.Basic
import Mathlib.Tactic

/-!
# Versions of a record

A list in which several items may have one key, as they come in.  A table into which the items are
inserted keeps the last of each key; a loop that notes the keys it has dealt with takes the first.
-/

namespace Versions

variable {α β κ : Type} (key : α → κ)

/-- An item that no later one replaces. -/
def IsLast (l : List α) (a : α) : Prop :=
  ∃ older newer, l = older ++ a :: newer ∧ ∀ b ∈ newer, key b ≠ key a

/-- An item that no earlier one anticipates. -/
def IsFirst (l : List α) (a : α) : Prop :=
  ∃ earlier later, l = earlier ++ a :: later ∧ ∀ b ∈ earlier, key b ≠ key a

variable {key}

lemma not_isLast_nil (a : α) : ¬ IsLast key [] a := by
  rintro ⟨older, newer, h, -⟩
  simp at h

lemma not_isFirst_nil (a : α) : ¬ IsFirst key [] a := by
  rintro ⟨earlier, later, h, -⟩
  simp at h

/-- The item that comes in last stands, and of the others those with another key. -/
lemma isLast_concat {l : List α} {a b : α} :
    IsLast key (l ++ [b]) a ↔ a = b ∨ IsLast key l a ∧ key b ≠ key a := by
  constructor
  · rintro ⟨older, newer, h, hnew⟩
    rcases List.eq_nil_or_concat newer with rfl | ⟨newer, c, rfl⟩
    · exact .inl ((List.append_inj' h rfl).2 |> List.singleton_inj.1).symm
    · rw [List.concat_eq_append, ← List.cons_append, ← List.append_assoc] at h
      obtain ⟨rfl, hbc⟩ := List.append_inj' h rfl
      obtain rfl := List.singleton_inj.1 hbc
      rw [List.concat_eq_append] at hnew
      refine .inr ⟨⟨older, newer, rfl, fun x hx => hnew x (List.mem_append_left _ hx)⟩, ?_⟩
      exact hnew b (List.mem_append_right _ (List.mem_singleton_self b))
  · rintro (rfl | ⟨⟨older, newer, rfl, hnew⟩, hb⟩)
    · exact ⟨l, [], rfl, fun b hb => absurd hb List.not_mem_nil⟩
    · refine ⟨older, newer ++ [b], by rw [List.append_assoc, List.cons_append], fun x hx => ?_⟩
      rcases List.mem_append.1 hx with hx | hx
      · exact hnew x hx
      · rw [List.mem_singleton.1 hx]
        exact hb

/-- The item at the front is the first, and of the others those with another key. -/
lemma isFirst_cons {l : List α} {a b : α} :
    IsFirst key (b :: l) a ↔ a = b ∨ IsFirst key l a ∧ key b ≠ key a := by
  constructor
  · rintro ⟨earlier, later, h, hpre⟩
    cases earlier with
    | nil =>
      rw [List.nil_append] at h
      exact .inl (List.cons.inj h).1.symm
    | cons c earlier =>
      obtain ⟨rfl, rfl⟩ := List.cons.inj h
      exact .inr ⟨⟨earlier, later, rfl, fun x hx => hpre x (List.mem_cons_of_mem _ hx)⟩,
        hpre b List.mem_cons_self⟩
  · rintro (rfl | ⟨⟨earlier, later, rfl, hpre⟩, hb⟩)
    · exact ⟨[], l, rfl, fun b hb => absurd hb List.not_mem_nil⟩
    · refine ⟨b :: earlier, later, rfl, fun x hx => ?_⟩
      rcases List.mem_cons.1 hx with rfl | hx
      · exact hb
      · exact hpre x hx

lemma IsLast.mem {l : List α} {a : α} (h : IsLast key l a) : a ∈ l := by
  obtain ⟨older, newer, rfl, -⟩ := h
  exact List.mem_append_right _ List.mem_cons_self

lemma IsFirst.mem {l : List α} {a : α} (h : IsFirst key l a) : a ∈ l := by
  obtain ⟨earlier, later, rfl, -⟩ := h
  exact List.mem_append_right _ List.mem_cons_self

/-- Of the items of a key one is the last. -/
lemma exists_isLast {l : List α} {a : α} (ha : a ∈ l) : ∃ b, IsLast key l b ∧ key b = key a := by
  induction l using List.reverseRecOn with
  | nil => exact absurd ha List.not_mem_nil
  | append_singleton l c ih =>
    by_cases hc : key c = key a
    · exact ⟨c, isLast_concat.2 (.inl rfl), hc⟩
    · have ha' : a ∈ l := by
        obtain h | h := List.mem_append.1 ha
        · exact h
        · exact absurd (congrArg key (List.mem_singleton.1 h).symm) hc
      obtain ⟨b, hb, hkey⟩ := ih ha'
      exact ⟨b, isLast_concat.2 (.inr ⟨hb, fun h => hc (h.trans hkey)⟩), hkey⟩

/-- Where no key comes twice every item is the last of its key. -/
lemma isLast_of_nodup {l : List α} {a : α} (h : (l.map key).Nodup) (ha : a ∈ l) :
    IsLast key l a := by
  obtain ⟨older, newer, rfl⟩ := List.append_of_mem ha
  refine ⟨older, newer, rfl, fun b hb heq => ?_⟩
  rw [List.map_append, List.map_cons] at h
  have hnotin := (List.nodup_cons.1 h.of_append_right).1
  exact hnotin (heq ▸ List.mem_map_of_mem hb)

/-- The last of the items of one kind are the last items that are of the kind, if the kind is in the
key. -/
lemma isLast_filterMap {ι : Type} {f : α → Option β} {kind : β → ι} (emb : ι → κ)
    (hemb : Function.Injective emb) (hsome : ∀ a b, f a = some b → key a = emb (kind b))
    (hnone : ∀ a, f a = none → ∀ i, key a ≠ emb i) {l : List α} {b : β} :
    IsLast kind (l.filterMap f) b ↔ ∃ a, f a = some b ∧ IsLast key l a := by
  induction l using List.reverseRecOn with
  | nil => simp [not_isLast_nil]
  | append_singleton l c ih =>
    rw [List.filterMap_append]
    cases hc : f c with
    | none =>
      rw [List.filterMap_cons_none hc, List.filterMap_nil, List.append_nil, ih]
      refine exists_congr fun a => and_congr_right fun ha => ?_
      rw [isLast_concat]
      constructor
      · intro h
        refine .inr ⟨h, fun heq => hnone c hc (kind b) ?_⟩
        rw [heq, hsome a b ha]
      · rintro (rfl | h)
        · rw [hc] at ha
          cases ha
        · exact h.1
    | some d =>
      rw [List.filterMap_cons_some hc, List.filterMap_nil, isLast_concat, ih]
      constructor
      · rintro (rfl | ⟨⟨a, ha, hlast⟩, hne⟩)
        · exact ⟨c, hc, isLast_concat.2 (.inl rfl)⟩
        · refine ⟨a, ha, isLast_concat.2 (.inr ⟨hlast, fun heq => hne ?_⟩)⟩
          rw [hsome c d hc, hsome a b ha] at heq
          exact hemb heq
      · rintro ⟨a, ha, hlast⟩
        rcases isLast_concat.1 hlast with rfl | ⟨hlast, hne⟩
        · rw [hc] at ha
          exact .inl (Option.some.inj ha).symm
        · refine .inr ⟨⟨a, ha, hlast⟩, fun heq => hne ?_⟩
          rw [hsome c d hc, hsome a b ha, heq]

/-! ## Tables -/

/-- The table that the items are inserted into. -/
def table [DecidableEq κ] (key : α → κ) (l : List α) : κ → Option α :=
  l.foldl (fun m a => Function.update m (key a) (some a)) fun _ => none

/-- A table has the last item of each key. -/
lemma table_eq_some_iff [DecidableEq κ] {l : List α} {k : κ} {a : α} :
    table key l k = some a ↔ IsLast key l a ∧ key a = k := by
  induction l using List.reverseRecOn with
  | nil => simp [table, not_isLast_nil]
  | append_singleton l b ih =>
    have hstep : table key (l ++ [b]) = Function.update (table key l) (key b) (some b) := by
      unfold table
      rw [List.foldl_append]
      rfl
    rw [hstep, isLast_concat]
    by_cases hk : k = key b
    · subst hk
      rw [Function.update_self, Option.some.injEq]
      constructor
      · rintro rfl
        exact ⟨.inl rfl, rfl⟩
      · rintro ⟨rfl | ⟨-, hne⟩, heq⟩
        · rfl
        · exact absurd heq.symm hne
    · rw [Function.update_of_ne hk, ih]
      constructor
      · rintro ⟨h, rfl⟩
        exact ⟨.inr ⟨h, Ne.symm hk⟩, rfl⟩
      · rintro ⟨rfl | ⟨h, -⟩, heq⟩
        · exact absurd heq.symm hk
        · exact ⟨h, heq⟩

/-! ## Loops that note keys -/

/-- The items of which something can be built, unless they are to be skipped or their key is among
those noted; each notes its key. -/
def takeNoting [DecidableEq κ] (key : α → κ) (skip : α → Bool) (build : α → Option β) :
    List κ → List α → List (α × β)
  | _, [] => []
  | noted, a :: l =>
    if skip a = true ∨ key a ∈ noted then takeNoting key skip build noted l
    else
      match build a with
      | none => takeNoting key skip build noted l
      | some b => (a, b) :: takeNoting key skip build (key a :: noted) l

/-- The items that a loop would take if it noted nothing. -/
def takeable (skip : α → Bool) (build : α → Option β) (l : List α) : List α :=
  l.filter fun a => !skip a && (build a).isSome

lemma takeable_cons (skip : α → Bool) (build : α → Option β) (a : α) (l : List α) :
    takeable skip build (a :: l) =
      if skip a = false ∧ (build a).isSome = true then a :: takeable skip build l
      else takeable skip build l := by
  unfold takeable
  rw [List.filter_cons]
  simp

variable [DecidableEq κ] {skip : α → Bool} {build : α → Option β}

/-- Such a loop takes the first item of each key that is not noted before. -/
lemma mem_takeNoting {noted : List κ} {l : List α} {a : α} {b : β} :
    (a, b) ∈ takeNoting key skip build noted l ↔
      build a = some b ∧ key a ∉ noted ∧ IsFirst key (takeable skip build l) a := by
  induction l generalizing noted with
  | nil => simp [takeNoting, takeable, not_isFirst_nil]
  | cons c l ih =>
    rw [takeNoting, takeable_cons]
    split
    · rename_i hskip
      rw [ih]
      refine and_congr_right fun _ => and_congr_right fun hkey => ?_
      rcases hskip with hskip | hnoted
      · rw [if_neg (by simp [hskip])]
      · split
        · rw [isFirst_cons]
          constructor
          · intro h
            exact .inr ⟨h, fun heq => hkey (heq ▸ hnoted)⟩
          · rintro (rfl | h)
            · exact absurd hnoted hkey
            · exact h.1
        · rfl
    · rename_i hskip
      obtain ⟨hskip, hnoted⟩ := not_or.1 hskip
      cases hb : build c with
      | none =>
        dsimp only
        rw [if_neg (by simp), ih]
      | some d =>
        dsimp only
        rw [if_pos ⟨by simpa using hskip, rfl⟩, List.mem_cons, ih, isFirst_cons, Prod.mk.injEq]
        constructor
        · rintro (⟨rfl, rfl⟩ | ⟨hbuild, hkey, hfirst⟩)
          · exact ⟨hb, hnoted, .inl rfl⟩
          · rw [List.mem_cons, not_or] at hkey
            exact ⟨hbuild, hkey.2, .inr ⟨hfirst, Ne.symm hkey.1⟩⟩
        · rintro ⟨hbuild, hkey, rfl | ⟨hfirst, hne⟩⟩
          · rw [hb] at hbuild
            exact .inl ⟨rfl, (Option.some.inj hbuild).symm⟩
          · refine .inr ⟨hbuild, fun hmem => ?_, hfirst⟩
            rcases List.mem_cons.1 hmem with heq | hmem
            · exact hne heq.symm
            · exact hkey hmem

/-- No key is taken twice. -/
lemma nodup_takeNoting (key : α → κ) (noted : List κ) (l : List α) :
    ((takeNoting key skip build noted l).map fun p => key p.1).Nodup := by
  induction l generalizing noted with
  | nil => exact List.nodup_nil
  | cons c l ih =>
    rw [takeNoting]
    split
    · exact ih noted
    · cases hb : build c with
      | none => exact ih noted
      | some d =>
        refine List.nodup_cons.2 ⟨fun hmem => ?_, ih _⟩
        obtain ⟨⟨a, b⟩, hab, heq⟩ := List.mem_map.1 hmem
        exact (mem_takeNoting.1 hab).2.1 (List.mem_cons.2 (.inl heq))

end Versions
