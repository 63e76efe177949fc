import Reclaim.Carve.FileView
import Reclaim.Foundation.Windows

/-!
# XZ streams

The footer of an XZ stream ends with `YZ`.  The validator takes the last `YZ` within its cap for
that end, wherever it stands, and so reads behind the stream as it does inside.
-/

namespace Reclaim

open FileBytes

namespace Xz

/-- `HEADER`. -/
def header : Bytes := [0xFD, 0x37, 0x7A, 0x58, 0x5A, 0x00]

/-- `YZ`, the end of the footer. -/
def footerMagic : Bytes := [0x59, 0x5A]

/-- `CAP`. -/
def maxSize : ℕ := 512 * 1024 * 1024

/-- `WIN`. -/
def win : ℕ := 1048576

/-- The length of what is carved when no footer is found. -/
def maxSuspect : ℕ := 64 * 1024 * 1024

/-- The footers of a window at `pos`: the end of the last one so far. -/
def step (pos : ℕ) (buf : Bytes) (last : Option ℕ) : ReadProg (Option ℕ) :=
  pure ((findIter footerMagic buf 0 0).foldl (fun _ m => some (pos + m + 2)) last)

/-- `validate`. -/
def validate (ctx : Ctx) : ReadProg Verdict := do
  let head ← ctx.read 0 6
  if head ≠ header then pure .rejected
  else do
    let cap := min ctx.available maxSize
    let last ← windows ctx.read win 1 cap step cap 12 none
    let verdict : Verdict :=
      match last with
      | some stop => .accepted (min stop cap) .full 70
      | none => .accepted (min cap maxSuspect) .suspect 42
    pure { verdict with format := some "archive.xz" }

/-! ## What is found -/

section Found

variable {R : Reader} {ctx : Ctx} {g : Bytes} {cap pos n : ℕ} {last : Option ℕ}

lemma footerMagic_ne_nil : footerMagic ≠ [] := List.cons_ne_nil _ _

lemma footerMagic_unbordered : Unbordered footerMagic := by decide

lemma footerMagic_length : footerMagic.length = 2 := rfl

lemma foldl_some (f : ℕ → ℕ) (ms : List ℕ) :
    ms.foldl (fun _ m => some (f m)) last = (ms.getLast?.map f).or last := by
  induction ms generalizing last with
  | nil => rfl
  | cons m ms ih =>
    rw [List.foldl_cons, ih, List.getLast?_cons]
    cases ms.getLast? with
    | none => rfl
    | some m' => rfl

/-- **The windows find the last `YZ` that ends within the cap.** -/
lemma lastIn_windows (h : ctx.Sees R g) (hcap : 12 ≤ cap) : ∃ last,
    LastIn footerMagic g 12 cap last ∧
      (windows ctx.read win 1 cap step cap 12 none).run R = last.map (· + 2) := by
  refine run_windows (a := 12)
    (P := fun e s => ∃ last, LastIn footerMagic g 12 e last ∧ s = last.map (· + 2)) h.read
    (by decide) (fun pos e s ha hpos hlt hle hs => ?_) (Nat.le_add_left cap 12) le_rfl
    (.inl ⟨rfl, rfl⟩) hcap
    ⟨none, lastIn_nothing footerMagic_ne_nil, rfl⟩
  have hwin : win = 1048576 := rfl
  have hlen := footerMagic_length
  have hend : min cap (pos + win) = pos + min (cap - pos) win := by omega
  rw [hend]
  obtain ⟨last, hlast, rfl⟩ := hs
  refine ⟨_, hlast.window footerMagic_unbordered footerMagic_ne_nil ha (by omega) (by omega), ?_⟩
  rw [step, ReadProg.run_pure, foldl_some fun m => pos + m + 2, lastOr]
  cases (findIter footerMagic (slice g pos (min (cap - pos) win)) 0 0).getLast? with
  | none => rfl
  | some m => rfl

/-- **The validator is exact about the last `YZ`** within the cap. -/
lemma validate_isFull_last_iff (h : ctx.Sees R g) : ((validate ctx).run R).IsFull n ↔
    slice g 0 6 = header ∧
      ∃ i, LastIn footerMagic g 12 (min ctx.available maxSize) (some i) ∧ n = i + 2 := by
  set cap := min ctx.available maxSize with hcap
  have hlen := footerMagic_length
  unfold validate
  simp only [ReadProg.run_bind, ReadProg.run_ite, h.read, ReadProg.run_pure, ← hcap]
  by_cases hheader : slice g 0 6 = header
  · rw [if_neg (not_not.2 hheader), and_iff_right hheader]
    by_cases hshort : cap < 12
    · -- nothing is read
      rw [windows_of_le hshort.le, ReadProg.run_pure]
      refine iff_of_false (fun hf => absurd hf.2.1 (by decide : Validity.suspect ≠ .full)) ?_
      rintro ⟨i, hi, -⟩
      have := hi.1
      omega
    · obtain ⟨last, hlast, hrun⟩ := lastIn_windows h (not_lt.1 hshort)
      rw [hrun]
      cases last with
      | none =>
        refine iff_of_false (fun hf => absurd hf.2.1 (by decide : Validity.suspect ≠ .full)) ?_
        rintro ⟨i, hi, -⟩
        cases hlast.unique hi
      | some j =>
        have hj : min (j + 2) cap = j + 2 := min_eq_left hlast.1.2.1
        constructor
        · intro hf
          exact ⟨j, hlast, hf.2.2.symm.trans hj⟩
        · rintro ⟨i, hi, rfl⟩
          obtain rfl := Option.some.inj (hlast.unique hi)
          exact ⟨rfl, rfl, hj⟩
  · rw [if_pos hheader]
    exact iff_of_false Verdict.not_isFull_rejected fun hx => hheader hx.1

end Found

/-! ## A stream and what follows it -/

/-- A stream, as far as its ends show: the header magic, then the flags and their checksum, and the
`YZ` of the footer. -/
structure IsStream (F : Bytes) : Prop where
  header : header <+: F
  footer : footerMagic <:+ F
  /-- The footer is behind the 12 bytes of the header. -/
  long : 14 ≤ F.length

section Span

variable {R : Reader} {ctx : Ctx} {F T : Bytes}

/-- **When the length is right**: no `YZ` ends within the cap behind the stream, and if the stream
itself does not end within the cap, none does at all. -/
theorem stream_exact_iff (h : ctx.Sees R (F ++ T)) (hF : IsStream F) :
    (∀ n, ((validate ctx).run R).IsFull n → n = F.length) ↔
      (∀ i, F.length ≤ i → i + 2 ≤ min ctx.available maxSize →
        slice (F ++ T) i 2 ≠ footerMagic) ∧
      (F.length ≤ min ctx.available maxSize ∨ ∀ i, 12 ≤ i → i + 2 ≤ min ctx.available maxSize →
        slice (F ++ T) i 2 ≠ footerMagic) := by
  set cap := min ctx.available maxSize with hcap
  have hlen := footerMagic_length
  have hheader : slice (F ++ T) 0 6 = header := by
    obtain ⟨rest, rfl⟩ := hF.header
    rw [List.append_assoc]
    exact slice_append_length header (rest ++ T)
  have hfooter : slice (F ++ T) (F.length - 2) 2 = footerMagic := by
    obtain ⟨body, rfl⟩ := hF.footer
    rw [List.length_append, footerMagic_length, Nat.add_sub_cancel]
    exact slice_between body footerMagic T
  have hlong := hF.long
  have hfull : ∀ n, ((validate ctx).run R).IsFull n ↔
      ∃ i, LastIn footerMagic (F ++ T) 12 cap (some i) ∧ n = i + 2 := by
    intro n
    rw [validate_isFull_last_iff h]
    exact and_iff_right hheader
  have hlast : ∃ last, 12 ≤ cap → LastIn footerMagic (F ++ T) 12 cap last := by
    by_cases hshort : 12 ≤ cap
    · obtain ⟨last, hlast, -⟩ := lastIn_windows h hshort
      exact ⟨last, fun _ => hlast⟩
    · exact ⟨none, fun h => absurd h hshort⟩
  obtain ⟨last, hlast⟩ := hlast
  constructor
  · intro hexact
    -- an occurrence leads to a last one, which ends the stream
    have hends : ∀ i, 12 ≤ i → i + 2 ≤ cap → slice (F ++ T) i 2 = footerMagic →
        i + 2 ≤ F.length ∧ F.length ≤ cap := by
      intro i hi hle hocc
      obtain ⟨k, rfl, hik⟩ := (hlast (by omega)).exists_some hi hle hocc
      have hk := hexact _ ((hfull _).2 ⟨k, hlast (by omega), rfl⟩)
      have hkcap := (hlast (by omega)).1.2.1
      omega
    refine ⟨fun i hi hle hocc => ?_, ?_⟩
    · have := (hends i (by omega) hle hocc).1
      omega
    · by_cases hcapF : F.length ≤ cap
      · exact .inl hcapF
      · exact .inr fun i hi hle hocc => hcapF (hends i hi hle hocc).2
  · rintro ⟨hbehind, hinside⟩ n hn
    obtain ⟨i, hi, rfl⟩ := (hfull n).1 hn
    obtain ⟨⟨h12, hle, hocc⟩, hmax⟩ := hi
    rcases hinside with hcapF | hnone
    · have hge := hmax (F.length - 2) (by omega) (by omega) hfooter
      have hlt : i < F.length := by
        by_contra hge'
        exact hbehind i (not_lt.1 hge') hle hocc
      have hapart : i ≤ F.length - 2 := by
        by_contra hgt
        have := footerMagic_unbordered.apart hfooter hocc (not_le.1 hgt)
        omega
      omega
    · exact absurd hocc (hnone i h12 hle)

/-- `archive.xz` of the catalog. -/
def sig : SigDef where
  id := "archive.xz"
  family := "archive"
  extensions := ["xz"]
  headers := [.exact 0 header]
  footer := some ⟨footerMagic, 4 * 1024 * 1024 * 1024⟩
  minSize := 32
  strategy := .structural
  validator := some "xz"
  blockAligned := true
  footerAnchored := false

/-- The stream of an empty file: header, index and footer. -/
def emptyStream : Bytes :=
  [0xFD, 0x37, 0x7A, 0x58, 0x5A, 0x00, 0x00, 0x04, 0xE6, 0xD6, 0xB4, 0x46, 0x00, 0x00, 0x00, 0x00,
    0x1C, 0xDF, 0x44, 0x21, 0x1F, 0xB6, 0xF3, 0x7D, 0x01, 0x00, 0x00, 0x00, 0x00, 0x04, 0x59, 0x5A]

lemma emptyStream_isStream : IsStream emptyStream where
  header := by decide
  footer := by decide
  long := by decide

/-- Behind a stream that zeros follow the length is right. -/
theorem stream_exact_zeros : let F := emptyStream; let T : Bytes := List.replicate 8 0
    F.length = 32 ∧
      ∀ n, ((validate ⟨40, 0, 1000, sig⟩).run (memReader (F ++ T))).IsFull n → n = F.length := by
  intro F T
  have hF : F.length = 32 := by decide
  have hsees : Ctx.Sees ⟨40, 0, 1000, sig⟩ (memReader (F ++ T)) (F ++ T) :=
    Ctx.sees (memReader_reads _) (by decide) (by decide)
  have hcap : min (Ctx.available ⟨40, 0, 1000, sig⟩) maxSize = 40 := by decide
  refine ⟨hF, (stream_exact_iff hsees emptyStream_isStream).2
    ⟨fun i hi hle hocc => ?_, .inl (by rw [hcap, hF]; decide)⟩⟩
  have hzero : byteAt (slice (F ++ T) i 2) 0 = 0 := by
    rw [byteAt_slice, if_pos (by omega), byteAt_append, if_neg (by omega), byteAt_replicate_zero]
  rw [hocc] at hzero
  exact absurd hzero (by decide)

/-- Of two streams one behind the other the first one takes the length of both. -/
theorem twoStreams_counterexample : let F := emptyStream
    IsStream F ∧ ((validate ⟨64, 0, 1000, sig⟩).run (memReader (F ++ F))).IsFull 64 ∧
      F.length = 32 := by
  intro F
  have hsees : Ctx.Sees ⟨64, 0, 1000, sig⟩ (memReader (F ++ F)) (F ++ F) :=
    Ctx.sees (memReader_reads _) (by decide) (by decide)
  refine ⟨emptyStream_isStream,
    (validate_isFull_last_iff hsees).2 ⟨by decide, 62, ⟨by decide, ?_⟩, rfl⟩,
    rfl⟩
  intro j _ hj _
  have hcap : min (Ctx.available ⟨64, 0, 1000, sig⟩) maxSize = 64 := by decide
  rw [hcap, footerMagic_length] at hj
  omega

end Span

end Xz
end Reclaim
