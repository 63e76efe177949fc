import Mathlib.Data.List.Basic
import Mathlib.Tactic

/-!
# Queues of items with marks between them

A producer sends items in batches and after each batch a mark that says how far the batch goes.  The
consumer takes in items and, from time to time, acts on the last mark it saw.  `Covers` relates what
has been produced to the queue: whoever sees a mark has seen every item produced up to it.
-/

namespace MarkedQueue

variable {ι μ : Type}

/-- An item, or a mark. -/
inductive Message (ι μ : Type) where
  | item (i : ι)
  | mark (m : μ)

/-- The items of a queue. -/
def items : List (Message ι μ) → List ι
  | [] => []
  | .item i :: q => i :: items q
  | .mark _ :: q => items q

/-- The marks of a queue. -/
def marks : List (Message ι μ) → List μ
  | [] => []
  | .item _ :: q => marks q
  | .mark m :: q => m :: marks q

/-- A batch of items and the mark behind it. -/
def batch (is : List ι) (m : μ) : List (Message ι μ) := is.map .item ++ [.mark m]

@[simp] lemma items_append (q q' : List (Message ι μ)) : items (q ++ q') = items q ++ items q' := by
  induction q with
  | nil => rfl
  | cons x q ih => cases x <;> simp [items, ih]

@[simp] lemma marks_append (q q' : List (Message ι μ)) : marks (q ++ q') = marks q ++ marks q' := by
  induction q with
  | nil => rfl
  | cons x q ih => cases x <;> simp [marks, ih]

@[simp] lemma items_map_item (is : List ι) : items (is.map (Message.item (μ := μ))) = is := by
  induction is with
  | nil => rfl
  | cons i is ih => exact congrArg (i :: ·) ih

@[simp] lemma items_batch (is : List ι) (m : μ) : items (batch is m) = is := by
  rw [batch, items_append, items_map_item]
  exact List.append_nil is

@[simp] lemma marks_batch (is : List ι) (m : μ) : marks (batch is m) = [m] := by
  induction is with
  | nil => rfl
  | cons i is ih => exact ih

/-! ## Of each mark, given the items before it -/

section Along

variable (P Q : List ι → μ → Prop)

/-- `P` holds of each mark of the queue and the items before it, those in front of the queue
included. -/
def Along : List ι → List (Message ι μ) → Prop
  | _, [] => True
  | before, .item i :: q => Along (before ++ [i]) q
  | before, .mark m :: q => P before m ∧ Along before q

variable {P Q} {before before' : List ι} {q q' : List (Message ι μ)}

lemma along_append :
    Along P before (q ++ q') ↔ Along P before q ∧ Along P (before ++ items q) q' := by
  induction q generalizing before with
  | nil => simp [Along, items]
  | cons x q ih =>
    cases x with
    | item i => simp [Along, items, ih]
    | mark m => simp [Along, items, ih, and_assoc]

lemma along_map_item (is : List ι) : Along P before (is.map (Message.item (μ := μ))) := by
  induction is generalizing before with
  | nil => trivial
  | cons i is ih => exact ih

/-- A batch adds its mark. -/
lemma along_append_batch {is : List ι} {m : μ} :
    Along P before (q ++ batch is m) ↔ Along P before q ∧ P (before ++ items q ++ is) m := by
  rw [batch, along_append, along_append, items_map_item]
  exact ⟨fun h => ⟨h.1, h.2.2.1⟩, fun h => ⟨h.1, along_map_item is, h.2, trivial⟩⟩

lemma Along.mono (h : Along P before q)
    (hPQ : ∀ l, ∀ m ∈ marks q, P (before ++ l) m → Q (before' ++ l) m) : Along Q before' q := by
  induction q generalizing before before' with
  | nil => trivial
  | cons x q ih =>
    cases x with
    | item i =>
      have hrest : Along P (before ++ [i]) q := h
      refine ih hrest fun l m hm hP => ?_
      rw [List.append_assoc] at hP ⊢
      exact hPQ _ m hm hP
    | mark m =>
      refine ⟨?_, ih h.2 fun l m' hm' => hPQ l m' (List.mem_cons_of_mem _ hm')⟩
      have hfirst := hPQ [] m List.mem_cons_self
      rw [List.append_nil, List.append_nil] at hfirst
      exact hfirst h.1

end Along

/-! ## What a mark vouches for -/

variable (upTo : μ → ℕ) (done : ι → Prop)

/-- What has been produced, each item with the end of its batch, is done or in the queue; it is done
up to the last mark seen, and before each mark of the queue up to that. -/
structure Covers (log : List (ℕ × ι)) (seen : ℕ) (q : List (Message ι μ)) : Prop where
  handled : ∀ x ∈ log, x.1 ≤ seen → done x.2
  marked : Along (fun before m => ∀ x ∈ log, x.1 ≤ upTo m → done x.2 ∨ x.2 ∈ before) [] q
  onWay : ∀ x ∈ log, done x.2 ∨ x.2 ∈ items q

namespace Covers

variable {upTo done} {done' : ι → Prop} {log : List (ℕ × ι)} {q : List (Message ι μ)} {seen : ℕ}

/-- More may be done. -/
lemma mono (h : Covers upTo done log seen q) (hmore : ∀ i, done i → done' i) :
    Covers upTo done' log seen q where
  handled x hx hle := hmore _ (h.handled x hx hle)
  marked := h.marked.mono fun _ _ _ hP x hx hle => (hP x hx hle).imp_left (hmore _)
  onWay x hx := (h.onWay x hx).imp_left (hmore _)

/-- The consumer takes in an item. -/
lemma item {i : ι} (h : Covers upTo done log seen (.item i :: q)) :
    Covers upTo (fun j => done j ∨ j = i) log seen q where
  handled x hx hle := .inl (h.handled x hx hle)
  marked := by
    have hrest : Along (fun before m => ∀ x ∈ log, x.1 ≤ upTo m → done x.2 ∨ x.2 ∈ before) [i] q :=
      h.marked
    refine hrest.mono fun l m _ hP x hx hle => ?_
    simpa [or_assoc] using hP x hx hle
  onWay x hx := by
    rcases h.onWay x hx with hd | hd
    · exact .inl (.inl hd)
    · rcases List.mem_cons.1 hd with rfl | hd
      · exact .inl (.inr rfl)
      · exact .inr hd

/-- The consumer sees a mark. -/
lemma mark {m : μ} (h : Covers upTo done log seen (.mark m :: q)) :
    Covers upTo done log (upTo m) q where
  handled x hx hle := (h.marked.1 x hx hle).resolve_right List.not_mem_nil
  marked := h.marked.2
  onWay := h.onWay

/-- The producer appends a batch that ends behind all marks. -/
lemma append {stop : ℕ} {is : List ι} {m : μ} (h : Covers upTo done log seen q)
    (hseen : seen < stop) (hmarks : ∀ m ∈ marks q, upTo m < stop) :
    Covers upTo done (log ++ is.map (stop, ·)) seen (q ++ batch is m) := by
  have hnew : ∀ x ∈ is.map (Prod.mk stop), x.1 = stop ∧ x.2 ∈ is := fun x hx => by
    obtain ⟨i, hi, rfl⟩ := List.mem_map.1 hx
    exact ⟨rfl, hi⟩
  have hall : ∀ x ∈ log ++ is.map (Prod.mk stop), done x.2 ∨ x.2 ∈ items q ++ is := fun x hx => by
    rcases List.mem_append.1 hx with hx | hx
    · exact (h.onWay x hx).imp_right fun hq => List.mem_append_left _ hq
    · exact .inr (List.mem_append_right _ (hnew x hx).2)
  refine ⟨fun x hx hle => ?_, ?_, fun x hx => ?_⟩
  · rcases List.mem_append.1 hx with hx | hx
    · exact h.handled x hx hle
    · exact absurd hle (by rw [(hnew x hx).1]; omega)
  · refine along_append_batch.2
      ⟨h.marked.mono fun l m' hm' hP x hx hle => ?_, fun x hx _ => hall x hx⟩
    rcases List.mem_append.1 hx with hx | hx
    · exact hP x hx hle
    · exact absurd hle (by rw [(hnew x hx).1]; exact not_le.2 (hmarks m' hm'))
  · rw [items_append, items_batch]
    exact hall x hx

/-- Behind an empty queue everything is done. -/
lemma drained (h : Covers upTo done log seen []) : ∀ x ∈ log, done x.2 :=
  fun x hx => (h.onWay x hx).resolve_right List.not_mem_nil

end Covers

end MarkedQueue
