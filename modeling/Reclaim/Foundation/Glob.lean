import Mathlib.Tactic

/-!
# Globs over an encoding

A glob is a list of tokens: a letter, one letter whatever it is, or any letters.  It is cut into
pieces, letters and runs of wildcards, and a run takes letters by their weight: exactly so much, or
at least.  With weight one for each letter that is the meaning of the glob (`matches_iff_fits`).

Where letters are encoded by words, a glob can be matched against the encoded text, word for word.
That counts a wildcard as a letter of the words: a run takes letters by the length of their words
(`Code.matches_iff`).  So the two agree on the texts whose letters are all encoded by one letter
(`forall_pieces_iff`), and for the globs whose runs ask for no letter, or for one and any more
(`forall_text_iff`).
-/

namespace Reclaim
namespace Glob

variable {α β : Type}

/-! ## Globs and their pieces -/

/-- What a glob consists of. -/
inductive Token (α : Type) where
  | any
  | one
  | lit (a : α)

/-- **The meaning of a glob.** -/
inductive Matches : List (Token α) → List α → Prop
  | nil : Matches [] []
  | any {ts : List (Token α)} {s : List α} (run : List α) (h : Matches ts s) :
      Matches (.any :: ts) (run ++ s)
  | one {ts : List (Token α)} {s : List α} (a : α) (h : Matches ts s) :
      Matches (.one :: ts) (a :: s)
  | lit {ts : List (Token α)} {s : List α} (a : α) (h : Matches ts s) :
      Matches (.lit a :: ts) (a :: s)

/-- A letter, or a run of wildcards that asks for so many letters, and for any more if it says
so. -/
inductive Piece (α : Type) where
  | lit (a : α)
  | run (ones : ℕ) (any : Bool)

/-- A wildcard for one letter before the pieces. -/
def addOne : List (Piece α) → List (Piece α)
  | .run k b :: ps => .run (k + 1) b :: ps
  | ps => .run 1 false :: ps

/-- A wildcard for any letters before the pieces. -/
def addAny : List (Piece α) → List (Piece α)
  | .run k _ :: ps => .run k true :: ps
  | ps => .run 0 true :: ps

/-- The letters of a glob and its maximal runs of wildcards. -/
def pieces : List (Token α) → List (Piece α)
  | [] => []
  | .lit a :: ts => .lit a :: pieces ts
  | .one :: ts => addOne (pieces ts)
  | .any :: ts => addAny (pieces ts)

/-- A run that asks for `k` takes `n`. -/
def RunFits (k : ℕ) (b : Bool) (n : ℕ) : Prop := if b then k ≤ n else n = k

/-- The weight of letters. -/
def weight (w : α → ℕ) (r : List α) : ℕ := (r.map w).sum

/-- The pieces take the text, a run by the weight of the letters. -/
def Fits (w : α → ℕ) : List (Piece α) → List α → Prop
  | [], s => s = []
  | .lit a :: ps, s => ∃ t, s = a :: t ∧ Fits w ps t
  | .run k b :: ps, s => ∃ r t, s = r ++ t ∧ RunFits k b (weight w r) ∧ Fits w ps t

/-- Each letter weighs one. -/
def single : α → ℕ := fun _ => 1

section Meaning

variable {w : α → ℕ} {ps qs : List (Piece α)} {ts : List (Token α)} {s r t : List α} {k n : ℕ}
  {b : Bool}

@[simp] lemma weight_nil (w : α → ℕ) : weight w [] = 0 := rfl

@[simp] lemma weight_cons (w : α → ℕ) (a : α) (r : List α) :
    weight w (a :: r) = w a + weight w r := by
  rw [weight, List.map_cons, List.sum_cons, weight]

@[simp] lemma weight_single (r : List α) : weight single r = r.length := by
  induction r with
  | nil => rfl
  | cons a r ih => rw [weight_cons, ih, List.length_cons, Nat.add_comm, single]

lemma runFits_succ : RunFits (k + 1) b (n + 1) ↔ RunFits k b n := by
  cases b with
  | false => exact Nat.succ_inj
  | true => exact Nat.succ_le_succ_iff

lemma not_runFits_succ_zero : ¬ RunFits (k + 1) b 0 := by
  cases b with
  | false => exact (Nat.succ_ne_zero k).symm
  | true => exact Nat.not_succ_le_zero k

/-- A run that asks for one more takes one more. -/
lemma fits_run_succ : Fits single (.run (k + 1) b :: ps) s ↔
    ∃ a t, s = a :: t ∧ Fits single (.run k b :: ps) t := by
  constructor
  · rintro ⟨r, t, rfl, hr, ht⟩
    cases r with
    | nil => exact absurd hr not_runFits_succ_zero
    | cons a r =>
      rw [weight_single, List.length_cons, runFits_succ] at hr
      exact ⟨a, r ++ t, rfl, r, t, rfl, by rwa [weight_single], ht⟩
  · rintro ⟨a, -, rfl, r, t, rfl, hr, ht⟩
    rw [weight_single] at hr
    exact ⟨a :: r, t, rfl, by rwa [weight_single, List.length_cons, runFits_succ], ht⟩

/-- A run that asks for none takes none. -/
lemma fits_run_zero : Fits single (.run 0 false :: ps) s ↔ Fits single ps s := by
  constructor
  · rintro ⟨r, t, rfl, hr, ht⟩
    rw [weight_single] at hr
    obtain rfl := List.length_eq_zero_iff.1 hr
    exact ht
  · exact fun h => ⟨[], s, rfl, rfl, h⟩

lemma runFits_self (k : ℕ) (b : Bool) : RunFits k b k := by
  cases b with
  | false => exact rfl
  | true => exact le_rfl

lemma RunFits.le (h : RunFits k b n) : k ≤ n := by
  cases b with
  | false => exact h.ge
  | true => exact h

/-- A run that asks for any more takes any letters before. -/
lemma fits_run_any (b : Bool) : Fits single (.run k true :: ps) s ↔
    ∃ r t, s = r ++ t ∧ Fits single (.run k b :: ps) t := by
  constructor
  · rintro ⟨r, t, rfl, hr, ht⟩
    have hle : k ≤ r.length := (weight_single r).le.trans' hr.le
    refine ⟨r.take (r.length - k), r.drop (r.length - k) ++ t, ?_, r.drop (r.length - k), t, rfl,
      ?_, ht⟩
    · rw [← List.append_assoc, List.take_append_drop]
    · have hlen : weight single (r.drop (r.length - k)) = k := by
        rw [weight_single, List.length_drop]
        omega
      rw [hlen]
      exact runFits_self k b
  · rintro ⟨r, -, rfl, q, t, rfl, hq, ht⟩
    have hle := hq.le
    refine ⟨r ++ q, t, (List.append_assoc ..).symm, ?_, ht⟩
    rw [weight_single] at hle ⊢
    show k ≤ (r ++ q).length
    rw [List.length_append]
    omega

/-- A wildcard for one letter takes a letter. -/
lemma fits_addOne : Fits single (addOne ps) s ↔ ∃ a t, s = a :: t ∧ Fits single ps t := by
  have hnew : Fits single (.run 1 false :: ps) s ↔ ∃ a t, s = a :: t ∧ Fits single ps t := by
    rw [fits_run_succ]
    simp only [fits_run_zero]
  cases ps with
  | nil => exact hnew
  | cons p ps =>
    cases p with
    | lit a => exact hnew
    | run k b => exact fits_run_succ

/-- A wildcard for any letters takes some. -/
lemma fits_addAny : Fits single (addAny ps) s ↔ ∃ r t, s = r ++ t ∧ Fits single ps t := by
  have hnew : Fits single (.run 0 true :: ps) s ↔ ∃ r t, s = r ++ t ∧ Fits single ps t := by
    rw [fits_run_any false]
    simp only [fits_run_zero]
  cases ps with
  | nil => exact hnew
  | cons p ps =>
    cases p with
    | lit a => exact hnew
    | run k b => exact fits_run_any b

/-- **The meaning of a glob by its pieces**, each letter of weight one. -/
lemma matches_iff_fits : Matches ts s ↔ Fits single (pieces ts) s := by
  induction ts generalizing s with
  | nil =>
    constructor
    · rintro ⟨⟩
      exact rfl
    · rintro rfl
      exact .nil
  | cons c ts ih =>
    cases c with
    | any =>
      rw [pieces, fits_addAny]
      constructor
      · rintro (_ | ⟨r, h⟩)
        exact ⟨r, _, rfl, ih.1 h⟩
      · rintro ⟨r, t, rfl, h⟩
        exact .any r (ih.2 h)
    | one =>
      rw [pieces, fits_addOne]
      constructor
      · rintro (_ | _ | ⟨a, h⟩)
        exact ⟨a, _, rfl, ih.1 h⟩
      · rintro ⟨a, t, rfl, h⟩
        exact .one a (ih.2 h)
    | lit a =>
      constructor
      · rintro (_ | _ | _ | ⟨-, h⟩)
        exact ⟨_, rfl, ih.1 h⟩
      · rintro ⟨t, rfl, h⟩
        exact .lit a (ih.2 h)

end Meaning

/-! ## Weights -/

section Weights

variable {w : α → ℕ} {ps qs : List (Piece α)} {s r t : List α} {k n : ℕ} {b : Bool} {a x : α}

lemma weight_replicate (w : α → ℕ) (n : ℕ) (x : α) : weight w (List.replicate n x) = n * w x := by
  rw [weight, List.map_replicate, List.sum_replicate, smul_eq_mul]

lemma fits_append : Fits w (ps ++ qs) s ↔ ∃ r t, s = r ++ t ∧ Fits w ps r ∧ Fits w qs t := by
  induction ps generalizing s with
  | nil =>
    constructor
    · exact fun h => ⟨[], s, rfl, rfl, h⟩
    · rintro ⟨r, t, rfl, rfl, h⟩
      exact h
  | cons p ps ih =>
    cases p with
    | lit a =>
      constructor
      · rintro ⟨u, rfl, h⟩
        obtain ⟨r, t, rfl, hr, ht⟩ := ih.1 h
        exact ⟨a :: r, t, rfl, ⟨r, rfl, hr⟩, ht⟩
      · rintro ⟨-, t, rfl, ⟨r, rfl, hr⟩, ht⟩
        exact ⟨r ++ t, rfl, ih.2 ⟨r, t, rfl, hr, ht⟩⟩
    | run k b =>
      constructor
      · rintro ⟨q, u, rfl, hq, h⟩
        obtain ⟨r, t, rfl, hr, ht⟩ := ih.1 h
        exact ⟨q ++ r, t, (List.append_assoc ..).symm, ⟨q, r, rfl, hq, hr⟩, ht⟩
      · rintro ⟨-, t, rfl, ⟨q, r, rfl, hq, hr⟩, ht⟩
        exact ⟨q, r ++ t, List.append_assoc .., hq, ih.2 ⟨r, t, rfl, hr, ht⟩⟩

/-- A text for the pieces, with the letter `x` where a run asks for one. -/
def fill (x : α) : List (Piece α) → List α
  | [] => []
  | .lit a :: ps => a :: fill x ps
  | .run k _ :: ps => List.replicate k x ++ fill x ps

lemma fits_fill (hx : w x = 1) (ps : List (Piece α)) : Fits w ps (fill x ps) := by
  induction ps with
  | nil => exact rfl
  | cons p ps ih =>
    cases p with
    | lit a => exact ⟨_, rfl, ih⟩
    | run k b =>
      refine ⟨List.replicate k x, _, rfl, ?_, ih⟩
      rw [weight_replicate, hx, Nat.mul_one]
      exact runFits_self k b

lemma fill_append (x : α) (ps qs : List (Piece α)) :
    fill x (ps ++ qs) = fill x ps ++ fill x qs := by
  induction ps with
  | nil => rfl
  | cons p ps ih =>
    cases p with
    | lit a => rw [List.cons_append, fill, ih, fill, List.cons_append]
    | run k b => rw [List.cons_append, fill, ih, fill, List.append_assoc]

/-- A text has no fewer letters than the pieces ask for. -/
lemma length_fill_le (x : α) (h : Fits single ps s) : (fill x ps).length ≤ s.length := by
  induction ps generalizing s with
  | nil => exact Nat.zero_le _
  | cons p ps ih =>
    cases p with
    | lit a =>
      obtain ⟨t, rfl, ht⟩ := h
      exact Nat.succ_le_succ (ih ht)
    | run k b =>
      obtain ⟨r, t, rfl, hr, ht⟩ := h
      have hk := hr.le
      rw [weight_single] at hk
      rw [fill, List.length_append, List.length_append, List.length_replicate]
      exact Nat.add_le_add hk (ih ht)

/-- How many letters weigh one. -/
def lights (w : α → ℕ) (s : List α) : ℕ := s.countP fun a => w a = 1

lemma lights_append (w : α → ℕ) (r t : List α) : lights w (r ++ t) = lights w r + lights w t :=
  List.countP_append

lemma lights_replicate (hx : w x ≠ 1) (n : ℕ) : lights w (List.replicate n x) = 0 := by
  rw [lights, List.countP_replicate, if_neg (by simpa using hx)]

/-- Letters that weigh one in all are one letter. -/
lemma lights_of_weight (hpos : ∀ a, 0 < w a) (h : weight w r = 1) : lights w r = 1 := by
  cases r with
  | nil => cases h
  | cons a r =>
    rw [weight_cons] at h
    have ha := hpos a
    cases r with
    | nil =>
      rw [weight_nil] at h
      exact List.countP_singleton.trans (if_pos (by simpa using h))
    | cons c r =>
      have hc := hpos c
      rw [weight_cons] at h
      omega

/-- A text has no fewer light letters than the glob has. -/
lemma lights_fill_le (hx : w x ≠ 1) (h : Fits w ps s) : lights w (fill x ps) ≤ lights w s := by
  induction ps generalizing s with
  | nil => exact Nat.zero_le _
  | cons p ps ih =>
    cases p with
    | lit a =>
      obtain ⟨t, rfl, ht⟩ := h
      rw [fill, lights, List.countP_cons, lights, List.countP_cons]
      exact Nat.add_le_add_right (ih ht) _
    | run k b =>
      obtain ⟨r, t, rfl, -, ht⟩ := h
      rw [fill, lights_append, lights_append, lights_replicate hx, Nat.zero_add]
      exact (ih ht).trans (Nat.le_add_left ..)

lemma length_le_weight (hpos : ∀ a, 0 < w a) (s : List α) : s.length ≤ weight w s := by
  induction s with
  | nil => exact le_rfl
  | cons a s ih =>
    have ha := hpos a
    rw [List.length_cons, weight_cons]
    omega

/-- Letters that weigh as many as they are weigh one each. -/
lemma eq_one_of_weight (hpos : ∀ a, 0 < w a) (h : weight w s = s.length) : ∀ a ∈ s, w a = 1 := by
  induction s with
  | nil => exact fun a ha => absurd ha List.not_mem_nil
  | cons a s ih =>
    have ha := hpos a
    have hs := length_le_weight hpos s
    rw [weight_cons, List.length_cons] at h
    exact List.forall_mem_cons.2 ⟨by omega, ih (by omega)⟩

lemma fits_congr (h : ∀ a ∈ s, w a = 1) : Fits w ps s ↔ Fits single ps s := by
  induction ps generalizing s with
  | nil => exact Iff.rfl
  | cons p ps ih =>
    cases p with
    | lit a =>
      constructor
      · rintro ⟨t, rfl, ht⟩
        exact ⟨t, rfl, (ih (List.forall_mem_cons.1 h).2).1 ht⟩
      · rintro ⟨t, rfl, ht⟩
        exact ⟨t, rfl, (ih (List.forall_mem_cons.1 h).2).2 ht⟩
    | run k b =>
      have hweight : ∀ {r t}, s = r ++ t → weight w r = weight single r := by
        rintro r t rfl
        exact congrArg List.sum (List.map_congr_left fun a ha => h a (List.mem_append_left t ha))
      constructor
      · rintro ⟨r, t, rfl, hr, ht⟩
        rw [hweight rfl] at hr
        exact ⟨r, t, rfl, hr, (ih fun a ha => h a (List.mem_append_right r ha)).1 ht⟩
      · rintro ⟨r, t, rfl, hr, ht⟩
        rw [← hweight rfl] at hr
        exact ⟨r, t, rfl, hr, (ih fun a ha => h a (List.mem_append_right r ha)).2 ht⟩

lemma pieces_ones (n : ℕ) :
    pieces (List.replicate (n + 1) (.one : Token α)) = [.run (n + 1) false] := by
  induction n with
  | zero => rfl
  | succ n ih => rw [List.replicate_succ, pieces, ih, addOne]

/-- **By weight and by number the same globs take a text** exactly if its letters weigh one.  It is
enough to ask this of some globs, those with wildcards for one letter only among them. -/
lemma forall_pieces_iff (hpos : ∀ a, 0 < w a) {G : Set (List (Token α))}
    (hG : ∀ n, List.replicate n .one ∈ G) :
    (∀ ts ∈ G, (Fits w (pieces ts) s ↔ Fits single (pieces ts) s)) ↔ ∀ a ∈ s, w a = 1 := by
  refine ⟨fun h => ?_, fun h ts _ => fits_congr h⟩
  cases hs : s with
  | nil => exact fun a ha => absurd ha List.not_mem_nil
  | cons c t =>
    rw [← hs]
    -- as many wildcards for one letter as the text has letters
    have hlen : s.length = t.length + 1 := by rw [hs, List.length_cons]
    have hiff := h _ (hG (t.length + 1))
    rw [pieces_ones] at hiff
    obtain ⟨r, u, hr, hfits, rfl⟩ := hiff.2
      ⟨s, [], (List.append_nil s).symm, by rw [weight_single, hlen]; exact runFits_self _ _, rfl⟩
    rw [List.append_nil] at hr
    rw [← hr] at hfits
    exact eq_one_of_weight hpos (hlen ▸ hfits)

/-- The runs of the pieces ask for no letter, or for one and any more. -/
def Loose (ps : List (Piece α)) : Prop :=
  ∀ k b, Piece.run k b ∈ ps → k = 0 ∨ k = 1 ∧ b = true

/-- Such a run does not tell weight from number. -/
lemma runFits_weight_iff (hpos : ∀ a, 0 < w a) (h : k = 0 ∨ k = 1 ∧ b = true) (r : List α) :
    RunFits k b (weight w r) ↔ RunFits k b (weight single r) := by
  cases r with
  | nil => exact Iff.rfl
  | cons a r =>
    have ha := hpos a
    rw [weight_single, weight_cons, List.length_cons]
    rcases h with rfl | ⟨rfl, rfl⟩
    · cases b with
      | false => exact iff_of_false (by unfold RunFits; simp; omega) (Nat.succ_ne_zero _)
      | true => exact iff_of_true (Nat.zero_le _) (Nat.zero_le _)
    · exact iff_of_true (Nat.le_add_right_of_le ha) (Nat.le_add_left ..)

lemma fits_iff_of_loose (hpos : ∀ a, 0 < w a) (h : Loose ps) : Fits w ps s ↔ Fits single ps s := by
  induction ps generalizing s with
  | nil => exact Iff.rfl
  | cons p ps ih =>
    have hps : Loose ps := fun k b hk => h k b (List.mem_cons_of_mem p hk)
    cases p with
    | lit a =>
      simp only [Fits, ih hps]
    | run k b =>
      simp only [Fits, ih hps, runFits_weight_iff hpos (h k b List.mem_cons_self)]

/-- A run that asks for two or more takes fewer letters than it should. -/
lemma not_fits_of_two_le (hlight : ∃ a, w a = 1) (hheavy : ∃ a, w a = 2) {n : ℕ}
    (h : Piece.run (n + 2) b ∈ ps) : ∃ s, Fits w ps s ∧ ¬ Fits single ps s := by
  obtain ⟨x, hx⟩ := hlight
  obtain ⟨y, hy⟩ := hheavy
  obtain ⟨before, after, rfl⟩ := List.append_of_mem h
  refine ⟨fill x before ++ (y :: List.replicate n x ++ fill x after), ?_, fun hsingle => ?_⟩
  · refine fits_append.2 ⟨_, _, rfl, fits_fill hx before, _, _, rfl, ?_, fits_fill hx after⟩
    rw [weight_cons, weight_replicate, hx, hy, Nat.mul_one, Nat.add_comm]
    exact runFits_self _ _
  · have hlen := length_fill_le x hsingle
    simp only [fill_append, fill, List.length_append, List.length_cons,
      List.length_replicate] at hlen
    omega

/-- A wildcard for one letter on its own does not take a heavy one. -/
lemma not_fits_of_lone (hpos : ∀ a, 0 < w a) (hheavy : ∃ a, w a = 2)
    (h : Piece.run 1 false ∈ ps) : ∃ s, Fits single ps s ∧ ¬ Fits w ps s := by
  obtain ⟨y, hy⟩ := hheavy
  have hne : w y ≠ 1 := by omega
  obtain ⟨before, after, rfl⟩ := List.append_of_mem h
  have hsingle : single y = 1 := rfl
  refine ⟨_, fits_fill hsingle _, fun hfits => ?_⟩
  -- the letters of the glob are all the light ones that there are
  obtain ⟨r, -, heq, hbefore, q, t, rfl, hq, hafter⟩ := fits_append.1 hfits
  have hone := lights_of_weight hpos hq
  have hbefore := lights_fill_le hne hbefore
  have hafter := lights_fill_le hne hafter
  have hcount := congrArg (lights w) heq
  simp only [fill_append, fill, lights_append, lights_replicate hne] at hcount
  omega

/-- **By weight and by number pieces take the same texts** exactly if their runs ask for no letter,
or for one and any more. -/
lemma forall_text_iff (hpos : ∀ a, 0 < w a) (hlight : ∃ a, w a = 1) (hheavy : ∃ a, w a = 2) :
    (∀ s, Fits w ps s ↔ Fits single ps s) ↔ Loose ps := by
  refine ⟨fun h k b hk => ?_, fun h s => fits_iff_of_loose hpos h⟩
  match k, b, hk with
  | 0, _, _ => exact .inl rfl
  | 1, true, _ => exact .inr ⟨rfl, rfl⟩
  | 1, false, hk =>
    obtain ⟨s, hsingle, hw⟩ := not_fits_of_lone hpos hheavy hk
    exact absurd ((h s).2 hsingle) hw
  | n + 2, b, hk =>
    obtain ⟨s, hw, hsingle⟩ := not_fits_of_two_le hlight hheavy hk
    exact absurd ((h s).1 hw) hsingle

end Weights

/-! ## Encoded globs -/

/-- An encoding of letters by words that begin where a letter leads.  No word begins another. -/
structure Code (α β : Type) where
  enc : α → List β
  lead : β → Prop
  enc_eq : ∀ a, ∃ b t, enc a = b :: t ∧ lead b ∧ ∀ x ∈ t, ¬ lead x
  eq_of_isPrefix : ∀ {a c}, enc a <+: enc c → a = c

namespace Code

variable (C : Code α β)

/-- The encoded text. -/
def text (s : List α) : List β := s.flatMap C.enc

/-- The tokens for a token: a letter is the letters of its word. -/
def tokens : Token α → List (Token β)
  | .any => [.any]
  | .one => [.one]
  | .lit a => (C.enc a).map .lit

/-- The pieces for a piece. -/
def piece : Piece α → List (Piece β)
  | .lit a => (C.enc a).map .lit
  | .run k b => [.run k b]

/-- How long a word is. -/
def size (a : α) : ℕ := (C.enc a).length

variable {C} {ts : List (Token α)} {ps : List (Piece α)} {s : List α} {r t : List β}

lemma size_pos (a : α) : 0 < C.size a := by
  obtain ⟨b, u, h, -⟩ := C.enc_eq a
  rw [size, h]
  exact Nat.succ_pos _

lemma length_text (s : List α) : (C.text s).length = weight C.size s := List.length_flatMap

/-- Where a letter leads, the text is cut between two words. -/
lemma exists_cut (h : C.text s = r ++ t) (hlead : ∀ b ∈ t.head?, C.lead b) :
    ∃ r' t', s = r' ++ t' ∧ r = C.text r' ∧ t = C.text t' := by
  induction s generalizing r with
  | nil =>
    obtain ⟨rfl, rfl⟩ := List.append_eq_nil_iff.1 h.symm
    exact ⟨[], [], rfl, rfl, rfl⟩
  | cons a s ih =>
    have hcons : C.enc a ++ C.text s = r ++ t := by
      rw [← h, text, text, List.flatMap_cons]
    rcases List.append_eq_append_iff.1 hcons with ⟨u, rfl, hu⟩ | ⟨u, hu, rfl⟩
    · obtain ⟨r', t', rfl, rfl, rfl⟩ := ih hu
      exact ⟨a :: r', t', rfl, by rw [text, text, List.flatMap_cons], rfl⟩
    · -- the cut is in the word of `a`, or before it
      obtain ⟨b, v, hword, hb, hv⟩ := C.enc_eq a
      rw [hu] at hword
      cases r with
      | nil => exact ⟨[], a :: s, rfl, rfl, h.symm⟩
      | cons c r =>
        obtain ⟨rfl, hrest⟩ := List.cons.inj hword
        cases u with
        | nil =>
          refine ⟨[a], s, rfl, ?_, rfl⟩
          rw [text, List.flatMap_singleton, hu, List.append_nil]
        | cons x u =>
          have hx : x ∈ v := by
            rw [← hrest]
            exact List.mem_append_right r List.mem_cons_self
          exact absurd (hlead x rfl) (hv x hx)

/-! ### Pieces of an encoded glob -/

lemma pieces_word (word : List β) (us : List (Token β)) :
    pieces (word.map .lit ++ us) = word.map .lit ++ pieces us := by
  induction word with
  | nil => rfl
  | cons b word ih => rw [List.map_cons, List.cons_append, pieces, ih, List.map_cons,
      List.cons_append]

lemma addOne_flatMap (ps : List (Piece α)) :
    addOne (ps.flatMap C.piece) = (addOne ps).flatMap C.piece := by
  cases ps with
  | nil => rfl
  | cons p ps =>
    cases p with
    | lit a =>
      obtain ⟨b, u, h, -⟩ := C.enc_eq a
      simp [piece, addOne, h]
    | run k b => rfl

lemma addAny_flatMap (ps : List (Piece α)) :
    addAny (ps.flatMap C.piece) = (addAny ps).flatMap C.piece := by
  cases ps with
  | nil => rfl
  | cons p ps =>
    cases p with
    | lit a =>
      obtain ⟨b, u, h, -⟩ := C.enc_eq a
      simp [piece, addAny, h]
    | run k b => rfl

/-- The runs of an encoded glob are those of the glob. -/
lemma pieces_flatMap (ts : List (Token α)) :
    pieces (ts.flatMap C.tokens) = (pieces ts).flatMap C.piece := by
  induction ts with
  | nil => rfl
  | cons c ts ih =>
    cases c with
    | any =>
      rw [List.flatMap_cons, tokens, List.singleton_append, pieces, ih, addAny_flatMap, pieces]
    | one =>
      rw [List.flatMap_cons, tokens, List.singleton_append, pieces, ih, addOne_flatMap, pieces]
    | lit a => rw [List.flatMap_cons, tokens, pieces_word, ih, pieces, List.flatMap_cons, piece]

/-- No run stands directly before another. -/
def Apart : List (Piece α) → Prop
  | [] => True
  | .lit _ :: ps => Apart ps
  | .run _ _ :: ps => (∀ k b, ps.head? ≠ some (Piece.run k b)) ∧ Apart ps

lemma apart_addOne (h : Apart ps) : Apart (addOne ps) := by
  cases ps with
  | nil => exact ⟨(fun _ _ hk => nomatch hk), h⟩
  | cons p ps =>
    cases p with
    | lit a => exact ⟨(fun _ _ hk => nomatch hk), h⟩
    | run k b => exact h

lemma apart_addAny (h : Apart ps) : Apart (addAny ps) := by
  cases ps with
  | nil => exact ⟨(fun _ _ hk => nomatch hk), h⟩
  | cons p ps =>
    cases p with
    | lit a => exact ⟨(fun _ _ hk => nomatch hk), h⟩
    | run k b => exact h

lemma apart_pieces (ts : List (Token α)) : Apart (pieces ts) := by
  induction ts with
  | nil => exact trivial
  | cons c ts ih =>
    cases c with
    | any => exact apart_addAny ih
    | one => exact apart_addOne ih
    | lit a => exact ih

lemma fits_word {w : β → ℕ} {word t : List β} {qs : List (Piece β)} :
    Fits w (word.map .lit ++ qs) t ↔ ∃ u, t = word ++ u ∧ Fits w qs u := by
  induction word generalizing t with
  | nil => exact ⟨fun h => ⟨t, rfl, h⟩, fun ⟨u, ht, hu⟩ => ht ▸ hu⟩
  | cons b word ih =>
    rw [List.map_cons, List.cons_append]
    constructor
    · rintro ⟨t, rfl, ht⟩
      obtain ⟨u, rfl, hu⟩ := ih.1 ht
      exact ⟨u, rfl, hu⟩
    · rintro ⟨u, rfl, hu⟩
      exact ⟨word ++ u, rfl, ih.2 ⟨u, rfl, hu⟩⟩

/-- A text begins with the word of a letter exactly if it begins with the letter. -/
lemma text_eq_enc_append {a : α} {u : List β} (h : C.text s = C.enc a ++ u) :
    ∃ s', s = a :: s' ∧ u = C.text s' := by
  cases s with
  | nil =>
    obtain ⟨b, v, hword, -⟩ := C.enc_eq a
    rw [hword] at h
    cases h
  | cons c s =>
    rw [text, List.flatMap_cons] at h
    have heq : a = c := by
      rcases List.append_eq_append_iff.1 h with ⟨v, hv, -⟩ | ⟨v, hv, -⟩
      · exact (C.eq_of_isPrefix ⟨v, hv.symm⟩).symm
      · exact C.eq_of_isPrefix ⟨v, hv.symm⟩
    subst heq
    exact ⟨s, rfl, (List.append_cancel_left h).symm⟩

/-- What comes behind a run begins where a letter leads. -/
lemma lead_of_fits {u : List β} (hps : ∀ k b, ps.head? ≠ some (Piece.run k b))
    (h : Fits single (ps.flatMap C.piece) u) : ∀ b ∈ u.head?, C.lead b := by
  cases ps with
  | nil =>
    obtain rfl : u = [] := h
    exact fun b hb => by cases hb
  | cons p ps =>
    cases p with
    | lit a =>
      obtain ⟨v, rfl, -⟩ := fits_word.1 h
      obtain ⟨c, t, hword, hc, -⟩ := C.enc_eq a
      intro b hb
      rw [hword] at hb
      obtain rfl := Option.some.inj hb
      exact hc
    | run k b => exact absurd rfl (hps k b)

/-- **An encoded glob takes an encoded text** as the glob takes the text by the length of words. -/
lemma fits_flatMap (hps : Apart ps) :
    Fits single (ps.flatMap C.piece) (C.text s) ↔ Fits C.size ps s := by
  induction ps generalizing s with
  | nil =>
    cases s with
    | nil => exact iff_of_true rfl rfl
    | cons a s =>
      obtain ⟨b, u, h, -⟩ := C.enc_eq a
      refine iff_of_false (fun hnil => ?_) (List.cons_ne_nil a s)
      change C.text (a :: s) = [] at hnil
      rw [text, List.flatMap_cons, h] at hnil
      cases hnil
  | cons p ps ih =>
    rw [List.flatMap_cons]
    cases p with
    | lit a =>
      rw [piece, fits_word]
      constructor
      · rintro ⟨u, hu, hfits⟩
        obtain ⟨s', rfl, rfl⟩ := text_eq_enc_append hu
        exact ⟨s', rfl, (ih hps).1 hfits⟩
      · rintro ⟨s', rfl, hfits⟩
        exact ⟨C.text s', List.flatMap_cons, (ih hps).2 hfits⟩
    | run k b =>
      constructor
      · rintro ⟨r, t, hrt, hr, hfits⟩
        obtain ⟨r', t', rfl, rfl, rfl⟩ := exists_cut hrt (lead_of_fits hps.1 hfits)
        rw [weight_single, length_text] at hr
        exact ⟨r', t', rfl, hr, (ih hps.2).1 hfits⟩
      · rintro ⟨r, t, rfl, hr, hfits⟩
        refine ⟨C.text r, C.text t, List.flatMap_append, ?_, (ih hps.2).2 hfits⟩
        rwa [weight_single, length_text]

/-- **Matching an encoded glob** against an encoded text counts a wildcard as a letter of the
words. -/
lemma matches_iff : Matches (ts.flatMap C.tokens) (C.text s) ↔ Fits C.size (pieces ts) s := by
  rw [matches_iff_fits, pieces_flatMap, fits_flatMap (apart_pieces ts)]

end Code

end Glob
end Reclaim
