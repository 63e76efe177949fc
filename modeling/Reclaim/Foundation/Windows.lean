import Reclaim.Foundation.ReadProgram

/-!
# Reading in windows

A file that is too long for a buffer is read in windows.  A pattern may be cut by the end of a
window, so each window begins some bytes before the end of the one before.  `run_windows` is the
rule for such a loop: what holds of all bytes before the end of a window, and is kept by the next
window, holds of all bytes in the end.
-/

namespace Reclaim

open FileBytes

variable {σ : Type}

/-- Read windows of `win` bytes from `pos` to `cap`, `fuel` at most, each overlapping the one before
by `overlap` bytes; `step` is told where a window is and what it holds. -/
def windows (read : ℕ → ℕ → ReadProg Bytes) (win overlap cap : ℕ)
    (step : ℕ → Bytes → σ → ReadProg σ) : ℕ → ℕ → σ → ReadProg σ
  | 0, _, s => pure s
  | fuel + 1, pos, s =>
    if cap ≤ pos then pure s
    else do
      let want := min (cap - pos) win
      let buf ← read pos want
      if buf = [] then pure s
      else do
        let s ← step pos buf s
        if want < win then pure s
        else windows read win overlap cap step fuel (pos + (want - overlap)) s

section Rule

variable {R : Reader} {g : Bytes} {read : ℕ → ℕ → ReadProg Bytes} {win overlap cap a : ℕ}
  {step : ℕ → Bytes → σ → ReadProg σ} {P : ℕ → σ → Prop}

/-- Behind the cap nothing is read. -/
lemma windows_of_le {fuel pos : ℕ} {s : σ} (h : cap ≤ pos) :
    windows read win overlap cap step fuel pos s = pure s := by
  cases fuel with
  | zero => rfl
  | succ fuel => rw [windows, if_pos h]

/-- **The rule of windows.**  `P e s` says that `s` is right for the bytes from `a` to `e`; a window
begins at `a`, or `overlap` bytes before the end of the one before. -/
theorem run_windows (hread : ∀ pos n, (read pos n).run R = slice g pos n) (hwin : overlap < win)
    (hstep : ∀ pos e s, a ≤ pos → (pos = a ∧ e = a ∨ pos + overlap = e) → pos < cap → e ≤ cap →
      P e s →
      P (min cap (pos + win)) ((step pos (slice g pos (min (cap - pos) win)) s).run R))
    {fuel pos e : ℕ} {s : σ} (hfuel : cap ≤ pos + fuel) (ha : a ≤ pos)
    (hpos : pos = a ∧ e = a ∨ pos + overlap = e) (he : e ≤ cap) (h : P e s) :
    P cap ((windows read win overlap cap step fuel pos s).run R) := by
  induction fuel generalizing pos e s with
  | zero =>
    obtain rfl : e = cap := by omega
    exact h
  | succ fuel ih =>
    rw [windows, ReadProg.run_ite]
    split
    · obtain rfl : e = cap := by omega
      exact h
    · rename_i hlt
      have hnext := hstep pos e s ha hpos (not_le.1 hlt) he h
      have hne : slice g pos (min (cap - pos) win) ≠ [] :=
        List.ne_nil_of_length_pos (by rw [length_slice]; omega)
      simp only [ReadProg.run_bind, ReadProg.run_ite, hread, ReadProg.run_pure]
      rw [if_neg hne]
      split
      · have hcap : min cap (pos + win) = cap := by omega
        rwa [hcap] at hnext
      · have hfull : min cap (pos + win) = pos + (min (cap - pos) win - overlap) + overlap := by
          omega
        rw [hfull] at hnext
        exact ih (by omega) (by omega) (.inr rfl) (by omega) hnext

end Rule

/-! ## Occurrences of a pattern -/

/-- `memmem::find_iter`: the occurrences of a pattern, none of which overlaps the one before; the
first `skip` bytes are the rest of one. -/
def findIter (p : Bytes) : Bytes → (skip i : ℕ) → List ℕ
  | [], _, _ => []
  | _ :: rest, skip + 1, i => findIter p rest skip (i + 1)
  | b :: rest, 0, i =>
    if p.isPrefixOf (b :: rest) then i :: findIter p rest (p.length - 1) (i + 1)
    else findIter p rest 0 (i + 1)

/-- No occurrence of the pattern overlaps another. -/
def Unbordered (p : Bytes) : Prop := ∀ k < p.length, 0 < k → ¬ p.drop k <+: p

instance (p : Bytes) : Decidable (Unbordered p) :=
  inferInstanceAs (Decidable (∀ k < p.length, 0 < k → ¬ p.drop k <+: p))

section FindIter

variable {p : Bytes}

/-- Behind an occurrence the next one begins where it ends, at the earliest. -/
lemma Unbordered.le_of_prefix (h : Unbordered p) {buf : Bytes} (hfirst : p <+: buf) {j : ℕ}
    (hj : 0 < j) (hnext : p <+: buf.drop j) : p.length ≤ j := by
  by_contra hlt
  apply h j (not_le.1 hlt) hj
  obtain ⟨rest, rfl⟩ := hfirst
  rw [List.drop_append_of_le_length (by omega)] at hnext
  exact List.prefix_of_prefix_length_le (List.prefix_append _ _) hnext
    (by rw [List.length_drop]; omega)

/-- Only occurrences are found. -/
lemma prefix_of_mem_findIter {buf : Bytes} {skip i m : ℕ} (h : m ∈ findIter p buf skip i) :
    ∃ j, skip ≤ j ∧ m = i + j ∧ p <+: buf.drop j := by
  induction buf generalizing skip i with
  | nil => exact absurd h List.not_mem_nil
  | cons b rest ih =>
    have hlater : ∀ skip', m ∈ findIter p rest skip' (i + 1) →
        ∃ j, skip' + 1 ≤ j ∧ m = i + j ∧ p <+: (b :: rest).drop j := by
      intro skip' h
      obtain ⟨j, hle, rfl, hj⟩ := ih h
      exact ⟨j + 1, by omega, by omega, hj⟩
    cases skip with
    | succ skip => exact hlater skip h
    | zero =>
      rw [findIter] at h
      split at h
      · rename_i hpre
        rcases List.mem_cons.1 h with rfl | h
        · exact ⟨0, le_rfl, rfl, List.isPrefixOf_iff_prefix.1 hpre⟩
        · obtain ⟨j, -, hj⟩ := hlater _ h
          exact ⟨j, Nat.zero_le j, hj⟩
      · obtain ⟨j, -, hj⟩ := hlater _ h
        exact ⟨j, Nat.zero_le j, hj⟩

/-- An occurrence that no earlier one overlaps is found. -/
lemma mem_findIter_of_alone (hne : p ≠ []) {buf : Bytes} {skip : ℕ} (i : ℕ) {j : ℕ}
    (hskip : skip ≤ j) (hocc : p <+: buf.drop j)
    (halone : ∀ k < j, j < k + p.length → ¬ p <+: buf.drop k) : i + j ∈ findIter p buf skip i := by
  induction buf generalizing skip i j with
  | nil =>
    rw [List.drop_nil] at hocc
    exact absurd (List.prefix_nil.1 hocc) hne
  | cons b rest ih =>
    cases j with
    | zero =>
      obtain rfl := Nat.le_zero.1 hskip
      rw [List.drop_zero] at hocc
      rw [findIter, if_pos (List.isPrefixOf_iff_prefix.2 hocc)]
      exact List.mem_cons_self
    | succ j =>
      have hrest : ∀ skip', skip' ≤ j → i + (j + 1) ∈ findIter p rest skip' (i + 1) := by
        intro skip' hskip'
        have hmem := ih (i + 1) hskip' hocc fun k hk hlt => halone (k + 1) (by omega) (by omega)
        rwa [Nat.add_right_comm, Nat.add_assoc] at hmem
      cases skip with
      | succ skip => exact hrest skip (by omega)
      | zero =>
        rw [findIter]
        split
        · rename_i hpre
          have hpast := mt (halone 0 (Nat.succ_pos j))
            (not_not_intro (List.isPrefixOf_iff_prefix.1 hpre))
          exact List.mem_cons_of_mem i (hrest _ (by omega))
        · exact hrest 0 (Nat.zero_le j)

/-- All occurrences are found. -/
lemma mem_findIter (h : Unbordered p) (hne : p ≠ []) {buf : Bytes} (skip i : ℕ) {m : ℕ} :
    m ∈ findIter p buf skip i ↔ ∃ j, skip ≤ j ∧ m = i + j ∧ p <+: buf.drop j := by
  refine ⟨prefix_of_mem_findIter, ?_⟩
  rintro ⟨j, hskip, rfl, hj⟩
  refine mem_findIter_of_alone hne i hskip hj fun k hk hlt hocc => ?_
  have hnext : p <+: (buf.drop k).drop (j - k) := by
    rwa [List.drop_drop, Nat.add_sub_of_le hk.le]
  have hle := h.le_of_prefix hocc (Nat.sub_pos_of_lt hk) hnext
  omega

lemma lt_of_mem_findIter {buf : Bytes} {skip i m : ℕ} (h : m ∈ findIter p buf skip i) :
    i + skip ≤ m := by
  induction buf generalizing skip i with
  | nil => exact absurd h (List.not_mem_nil)
  | cons b rest ih =>
    cases skip with
    | succ skip =>
      have := ih h
      omega
    | zero =>
      rw [findIter] at h
      split at h
      · rcases List.mem_cons.1 h with rfl | h
        · exact le_rfl
        · have := ih h
          omega
      · have := ih h
        omega

/-- They come in order. -/
lemma pairwise_findIter (buf : Bytes) (skip i : ℕ) :
    (findIter p buf skip i).Pairwise (· < ·) := by
  induction buf generalizing skip i with
  | nil => exact List.Pairwise.nil
  | cons b rest ih =>
    cases skip with
    | succ skip => exact ih skip (i + 1)
    | zero =>
      rw [findIter]
      split
      · exact List.pairwise_cons.2
          ⟨fun m hm => lt_of_lt_of_le (by omega) (lt_of_mem_findIter hm), ih (p.length - 1) (i + 1)⟩
      · exact ih 0 (i + 1)

/-- An occurrence in a window. -/
lemma prefix_drop_slice {g : Bytes} {pos n m : ℕ} (hne : p ≠ []) :
    p <+: (slice g pos n).drop m ↔ m + p.length ≤ n ∧ slice g (pos + m) p.length = p := by
  have hlen : 0 < p.length := List.length_pos_of_ne_nil hne
  have htake : ∀ k, m + k ≤ n → ((slice g pos n).drop m).take k = slice g (pos + m) k := by
    intro k hk
    obtain ⟨d, rfl⟩ := Nat.exists_eq_add_of_le hk
    rw [Nat.add_assoc, slice_add, List.drop_left' (length_slice ..), take_slice _ _ (by omega)]
  constructor
  · intro h
    have hfit := h.length_le
    rw [List.length_drop, length_slice] at hfit
    refine ⟨by omega, ?_⟩
    rw [← htake _ (by omega), ← List.prefix_iff_eq_take.1 h]
  · rintro ⟨hfit, h⟩
    rw [List.prefix_iff_eq_take, htake _ hfit, h]

end FindIter

/-! ## The last occurrence -/

/-- The last occurrence of a pattern that begins at `a` or behind and ends at `e` or before. -/
def LastIn (p g : Bytes) (a e : ℕ) : Option ℕ → Prop
  | none => ∀ j, a ≤ j → j + p.length ≤ e → slice g j p.length ≠ p
  | some i => (a ≤ i ∧ i + p.length ≤ e ∧ slice g i p.length = p) ∧
      ∀ j, a ≤ j → j + p.length ≤ e → slice g j p.length = p → j ≤ i

/-- The last occurrence, the last window taken in. -/
def lastOr (p : Bytes) (pos : ℕ) (buf : Bytes) (last : Option ℕ) : Option ℕ :=
  ((findIter p buf 0 0).getLast?.map (pos + ·)).or last

section Last

variable {p g : Bytes} {a e pos n : ℕ} {last : Option ℕ}

lemma lastIn_nothing (hne : p ≠ []) : LastIn p g a a none := by
  intro j hj hle
  have hlen := List.length_pos_of_ne_nil hne
  omega

/-- There is one last occurrence. -/
lemma LastIn.unique {last' : Option ℕ} (h : LastIn p g a e last) (h' : LastIn p g a e last') :
    last = last' := by
  cases last with
  | none =>
    cases last' with
    | none => rfl
    | some i => exact absurd h'.1.2.2 (h i h'.1.1 h'.1.2.1)
  | some i =>
    cases last' with
    | none => exact absurd h.1.2.2 (h' i h.1.1 h.1.2.1)
    | some j => exact congrArg some (le_antisymm (h'.2 i h.1.1 h.1.2.1 h.1.2.2)
        (h.2 j h'.1.1 h'.1.2.1 h'.1.2.2))

/-- Where there is an occurrence, there is a last one. -/
lemma LastIn.exists_some (h : LastIn p g a e last) {j : ℕ} (ha : a ≤ j) (hle : j + p.length ≤ e)
    (hocc : slice g j p.length = p) : ∃ i, last = some i ∧ j ≤ i := by
  cases last with
  | none => exact absurd hocc (h j ha hle)
  | some i => exact ⟨i, rfl, h.2 j ha hle hocc⟩

/-- Two occurrences of a pattern without a border do not overlap. -/
lemma Unbordered.apart (h : Unbordered p) {i j : ℕ} (hi : slice g i p.length = p)
    (hj : slice g j p.length = p) (hlt : i < j) : i + p.length ≤ j := by
  by_cases hne : p = []
  · rw [hne]
    exact hlt.le
  obtain ⟨d, rfl⟩ := Nat.exists_eq_add_of_le hlt.le
  have hfirst : p <+: (slice g i (d + p.length)).drop 0 :=
    (prefix_drop_slice hne).2 ⟨by omega, by rwa [Nat.add_zero]⟩
  have hnext : p <+: (slice g i (d + p.length)).drop d := (prefix_drop_slice hne).2 ⟨le_rfl, hj⟩
  have := h.le_of_prefix hfirst (by omega) hnext
  omega

/-- **A window is taken in**, if it begins early enough that no occurrence is cut. -/
lemma LastIn.window (h : LastIn p g a e last) (hp : Unbordered p) (hne : p ≠ []) (hpos : a ≤ pos)
    (hcut : pos = a ∨ pos + p.length ≤ e + 1) (hle : e ≤ pos + n) :
    LastIn p g a (pos + n) (lastOr p pos (slice g pos n) last) := by
  have hmem : ∀ m, m ∈ findIter p (slice g pos n) 0 0 ↔
      m + p.length ≤ n ∧ slice g (pos + m) p.length = p := by
    intro m
    rw [mem_findIter hp hne 0 0]
    constructor
    · rintro ⟨j, -, hm, hj⟩
      obtain rfl : m = j := hm.trans (Nat.zero_add j)
      exact (prefix_drop_slice hne).1 hj
    · exact fun hj => ⟨m, Nat.zero_le m, (Nat.zero_add m).symm, (prefix_drop_slice hne).2 hj⟩
  -- an occurrence that begins before the window was known, and any other is in the window
  have hcases : ∀ j, a ≤ j → j + p.length ≤ pos + n → slice g j p.length = p →
      (j < pos ∧ j + p.length ≤ e) ∨ ∃ m ∈ findIter p (slice g pos n) 0 0, j = pos + m := by
    intro j haj hj hocc
    rcases lt_or_ge j pos with hlt | hge
    · exact .inl ⟨hlt, by omega⟩
    · obtain ⟨m, rfl⟩ := Nat.exists_eq_add_of_le hge
      exact .inr ⟨m, (hmem m).2 ⟨by omega, hocc⟩, rfl⟩
  unfold lastOr
  cases hlist : (findIter p (slice g pos n) 0 0).getLast? with
  | none =>
    have hnil := List.getLast?_eq_none_iff.1 hlist
    rw [hnil] at hcases
    cases last with
    | none =>
      intro j haj hj hocc
      rcases hcases j haj hj hocc with ⟨-, hold⟩ | ⟨m, hm, -⟩
      · exact h j haj hold hocc
      · exact absurd hm (List.not_mem_nil)
    | some i =>
      obtain ⟨⟨hai, hie, hocc⟩, hlast⟩ := h
      refine ⟨⟨hai, hie.trans hle, hocc⟩, fun j haj hj hocc => ?_⟩
      rcases hcases j haj hj hocc with ⟨-, hold⟩ | ⟨m, hm, -⟩
      · exact hlast j haj hold hocc
      · exact absurd hm (List.not_mem_nil)
  | some m =>
    obtain ⟨before, hsplit⟩ := List.getLast?_eq_some_iff.1 hlist
    have hm := (hmem m).1 (hsplit ▸ List.mem_append_right _ (List.mem_singleton_self m))
    have hin : a ≤ pos + m ∧ pos + m + p.length ≤ pos + n := by omega
    refine ⟨⟨hin.1, hin.2, hm.2⟩, fun j haj hj hocc => ?_⟩
    show j ≤ pos + m
    rcases hcases j haj hj hocc with ⟨hold, -⟩ | ⟨k, hk, rfl⟩
    · omega
    · have hord := pairwise_findIter (p := p) (slice g pos n) 0 0
      rw [hsplit] at hk hord
      rcases List.mem_append.1 hk with hk | hk
      · have := (List.pairwise_append.1 hord).2.2 k hk m (List.mem_singleton_self m)
        omega
      · rw [List.mem_singleton.1 hk]

end Last

end Reclaim
