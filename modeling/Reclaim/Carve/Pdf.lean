import Reclaim.Carve.FileView
import Reclaim.Foundation.Windows

/-!
# PDF files

A PDF file ends with an end marker, and so does each of its incremental updates.  The validator
takes the last marker within the size cap, whatever file it belongs to, and the line end behind it.
-/

namespace Reclaim

open FileBytes

namespace Pdf

/-- `%PDF-`. -/
def magic : Bytes := [0x25, 0x50, 0x44, 0x46, 0x2D]

/-- `EOF`, `%%EOF`. -/
def eof : Bytes := [0x25, 0x25, 0x45, 0x4F, 0x46]

/-- `startxref`. -/
def startxref : Bytes := [0x73, 0x74, 0x61, 0x72, 0x74, 0x78, 0x72, 0x65, 0x66]

/-- `MAX`. -/
def maxSize : ℕ := 512 * 1024 * 1024

/-- `WIN`. -/
def win : ℕ := 1048576

/-- The length of the line end that the two bytes behind a marker begin with. -/
def lineEnd (tail : Bytes) : ℕ :=
  if tail.head? = some 0x0D ∧ tail[1]? = some 0x0A then 2
  else if tail.head? = some 0x0A ∨ tail.head? = some 0x0D then 1
  else 0

/-- The markers of a window at `pos`: the end of the last one, and of the line that it is on. -/
def eachMarker (ctx : Ctx) (pos : ℕ) : List ℕ → Option ℕ → ReadProg (Option ℕ)
  | [], last => pure last
  | m :: ms, _ => do
    let stop := pos + m + eof.length
    let tail ← ctx.read stop 2
    eachMarker ctx pos ms (some (stop + lineEnd tail))

/-- One window: the end of the last marker so far, and whether `startxref` was seen. -/
def step (ctx : Ctx) (pos : ℕ) (buf : Bytes) (s : Option ℕ × Bool) :
    ReadProg (Option ℕ × Bool) := do
  let last ← eachMarker ctx pos (findIter eof buf 0 0) s.1
  pure (last, s.2 || (findBytes startxref buf).isSome)

/-- No marker was found, or too early. -/
def unfinished (cap : ℕ) : Verdict :=
  if cap < 64 then .rejected else .accepted cap .truncated 45

/-- `validate`. -/
def validate (ctx : Ctx) : ReadProg Verdict := do
  let head ← ctx.read 0 5
  if head ≠ magic then pure .rejected
  else do
    let cap := min ctx.available maxSize
    let s ← windows ctx.read win eof.length cap (step ctx) cap 0 (none, false)
    match s.1 with
    | some stop =>
      pure (if 64 ≤ stop then .accepted (min stop cap) .full (if s.2 then 90 else 72)
        else unfinished cap)
    | none => pure (unfinished cap)

/-! ## What is found -/

/-- Where a marker at `i` ends, with its line. -/
def markerEnd (g : Bytes) (i : ℕ) : ℕ := i + eof.length + lineEnd (slice g (i + eof.length) 2)

section Found

variable {R : Reader} {ctx : Ctx} {g : Bytes} {cap pos n i j : ℕ} {last : Option ℕ}

lemma lineEnd_le (tail : Bytes) : lineEnd tail ≤ 2 := by
  unfold lineEnd
  split
  · exact le_rfl
  split
  · exact Nat.le_succ 1
  · exact Nat.zero_le 2

lemma eof_ne_nil : eof ≠ [] := List.cons_ne_nil _ _

lemma eof_unbordered : Unbordered eof := by decide

lemma eof_length : eof.length = 5 := rfl

/-- Markers do not overlap, so they end in order. -/
lemma markerEnd_lt (h : i + eof.length ≤ j) : markerEnd g i < markerEnd g j := by
  have := lineEnd_le (slice g (i + eof.length) 2)
  have := eof_length
  unfold markerEnd
  omega

lemma run_eachMarker (h : ctx.Sees R g) (ms : List ℕ) :
    (eachMarker ctx pos ms last).run R =
      (ms.getLast?.map fun m => markerEnd g (pos + m)).or last := by
  induction ms generalizing last with
  | nil => rfl
  | cons m ms ih =>
    rw [eachMarker]
    simp only [ReadProg.run_bind, h.read]
    rw [ih, List.getLast?_cons]
    cases ms.getLast? with
    | none => rfl
    | some m' => rfl

/-- The markers up to `e` are taken in. -/
def Knows (g : Bytes) (e : ℕ) (s : Option ℕ × Bool) : Prop :=
  ∃ last, LastIn eof g 0 e last ∧ s.1 = last.map (markerEnd g)

/-- A window is taken in. -/
lemma knows_step (h : ctx.Sees R g) {e : ℕ} {s : Option ℕ × Bool} (hs : Knows g e s)
    (hpos : pos = 0 ∧ e = 0 ∨ pos + eof.length = e) (hle : e ≤ pos + n) :
    Knows g (pos + n) ((step ctx pos (slice g pos n) s).run R) := by
  obtain ⟨last, hlast, hs⟩ := hs
  refine ⟨lastOr eof pos (slice g pos n) last,
    hlast.window eof_unbordered eof_ne_nil (Nat.zero_le _) (by omega) hle, ?_⟩
  simp only [step, ReadProg.run_bind, run_eachMarker h, ReadProg.run_pure, hs, lastOr]
  cases (findIter eof (slice g pos n) 0 0).getLast? with
  | none => rfl
  | some m => rfl

/-- **The windows find the last marker that ends within the cap.** -/
lemma knows_windows (h : ctx.Sees R g) (cap : ℕ) :
    Knows g cap ((windows ctx.read win eof.length cap (step ctx) cap 0 (none, false)).run R) := by
  refine run_windows (a := 0) h.read (by decide) (fun pos e s _ hpos hlt hle hs => ?_)
    (Nat.le_add_left cap 0) le_rfl (.inl ⟨rfl, rfl⟩) (Nat.zero_le cap)
    ⟨none, lastIn_nothing eof_ne_nil, rfl⟩
  have hwin : win = 1048576 := rfl
  have hend : min cap (pos + win) = pos + min (cap - pos) win := by omega
  rw [hend]
  have := eof_length
  exact knows_step h hs hpos (by omega)

lemma not_isFull_unfinished : ¬ (unfinished cap).IsFull n := by
  unfold unfinished
  split
  · exact Verdict.not_isFull_rejected
  · exact fun h => absurd h.2.1 (by decide : Validity.truncated ≠ .full)

/-- **The validator is exact about the last marker**: a full file ends with the last one that ends
within the cap. -/
lemma validate_isFull_marker_iff (h : ctx.Sees R g) : ((validate ctx).run R).IsFull n ↔
    slice g 0 5 = magic ∧ ∃ i, LastIn eof g 0 (min ctx.available maxSize) (some i) ∧
      64 ≤ markerEnd g i ∧ n = min (markerEnd g i) (min ctx.available maxSize) := by
  unfold validate
  simp only [ReadProg.run_bind, ReadProg.run_ite, h.read]
  by_cases hmagic : slice g 0 5 = magic
  · rw [if_neg (not_not.2 hmagic)]
    obtain ⟨last, hlast, hs⟩ := knows_windows h (min ctx.available maxSize)
    generalize (windows ctx.read win eof.length _ (step ctx) _ 0 (none, false)).run R = s at hs ⊢
    rw [hs]
    cases last with
    | none =>
      apply iff_of_false not_isFull_unfinished
      rintro ⟨-, i, hi, -⟩
      cases hlast.unique hi
    | some j =>
      dsimp only [Option.map_some, ReadProg.run_pure]
      constructor
      · intro hfull
        split at hfull
        · rename_i hlong
          exact ⟨hmagic, j, hlast, hlong, hfull.2.2.symm⟩
        · exact absurd hfull not_isFull_unfinished
      · rintro ⟨-, i, hi, hlong, rfl⟩
        obtain rfl := Option.some.inj (hlast.unique hi)
        rw [if_pos hlong]
        exact ⟨rfl, rfl, rfl⟩
  · rw [if_pos hmagic]
    exact iff_of_false Verdict.not_isFull_rejected fun hx => hmagic hx.1

end Found

/-! ## A file and what follows it -/

/-- A file: it begins with the header and ends with its last marker. -/
structure IsPdf (F : Bytes) : Prop where
  header : magic <+: F
  trailer : eof <:+ F

section Span

variable {R : Reader} {ctx : Ctx} {F T : Bytes}

/-- The last marker of a file is where the file ends. -/
lemma IsPdf.slice_trailer (hF : IsPdf F) :
    eof.length ≤ F.length ∧ slice (F ++ T) (F.length - eof.length) eof.length = eof := by
  obtain ⟨body, rfl⟩ := hF.trailer
  rw [List.length_append, Nat.add_sub_cancel]
  exact ⟨Nat.le_add_left _ _, slice_between body eof T⟩

lemma IsPdf.slice_header (hF : IsPdf F) : slice (F ++ T) 0 5 = magic := by
  obtain ⟨rest, rfl⟩ := hF.header
  rw [List.append_assoc]
  exact slice_append_length magic (rest ++ T)

/-- The marker of a file ends with the line on which the file does. -/
lemma IsPdf.markerEnd_trailer (hF : IsPdf F) :
    markerEnd (F ++ T) (F.length - eof.length) = F.length + lineEnd (slice T 0 2) := by
  rw [markerEnd, Nat.sub_add_cancel (hF.slice_trailer (T := T)).1]
  exact congrArg (F.length + lineEnd ·) (slice_append_right F T 0 2)

/-- **The span of a file**: a full file ends with the last marker that ends within the cap, so it
goes beyond the line on which `F` ends exactly when a marker behind `F` ends there. -/
theorem validate_span (h : ctx.Sees R (F ++ T)) (hF : IsPdf F) :
    (∀ n, ((validate ctx).run R).IsFull n ↔
      ∃ i, LastIn eof (F ++ T) 0 (min ctx.available maxSize) (some i) ∧
        64 ≤ markerEnd (F ++ T) i ∧ n = min (markerEnd (F ++ T) i) (min ctx.available maxSize)) ∧
    ((∀ n, ((validate ctx).run R).IsFull n → n ≤ F.length + lineEnd (slice T 0 2)) ↔
      ∀ i, F.length ≤ i → i + eof.length ≤ min ctx.available maxSize →
        slice (F ++ T) i eof.length = eof → markerEnd (F ++ T) i < 64) := by
  have hfull : ∀ n, ((validate ctx).run R).IsFull n ↔ ∃ i, LastIn eof (F ++ T) 0
      (min ctx.available maxSize) (some i) ∧ 64 ≤ markerEnd (F ++ T) i ∧
        n = min (markerEnd (F ++ T) i) (min ctx.available maxSize) := by
    intro n
    rw [validate_isFull_marker_iff h]
    exact and_iff_right hF.slice_header
  obtain ⟨hlong, htrailer⟩ := hF.slice_trailer (T := T)
  refine ⟨hfull, ?_, ?_⟩
  · intro hspan i hi hcap hocc
    by_contra hlate
    obtain ⟨last, hlast, -⟩ := knows_windows h (min ctx.available maxSize)
    obtain ⟨k, rfl, hik⟩ := hlast.exists_some (Nat.zero_le i) hcap hocc
    have hends : markerEnd (F ++ T) i ≤ markerEnd (F ++ T) k := by
      rcases hik.lt_or_eq with hlt | rfl
      · exact (markerEnd_lt (eof_unbordered.apart hocc hlast.1.2.2 hlt)).le
      · exact le_rfl
    have hle := hspan _ ((hfull _).2 ⟨k, hlast, by omega, rfl⟩)
    have hline := lineEnd_le (slice T 0 2)
    have hlast := hlast.1.2.1
    have hk : k + eof.length ≤ markerEnd (F ++ T) k := Nat.le_add_right _ _
    have := eof_length
    omega
  · intro hbehind n hn
    obtain ⟨i, ⟨⟨-, hcap, hocc⟩, -⟩, hlate, rfl⟩ := (hfull n).1 hn
    refine (min_le_left _ _).trans ?_
    rw [← hF.markerEnd_trailer]
    rcases lt_trichotomy i (F.length - eof.length) with hlt | rfl | hgt
    · exact (markerEnd_lt (eof_unbordered.apart hocc htrailer hlt)).le
    · exact le_rfl
    · have hi := eof_unbordered.apart htrailer hocc hgt
      have := hbehind i (by omega) hcap hocc
      omega

end Span

/-- `doc.pdf` of the catalog. -/
def sig : SigDef where
  id := "doc.pdf"
  family := "doc"
  extensions := ["pdf"]
  headers := [.exact 0 magic]
  footer := some ⟨eof, maxSize⟩
  minSize := 64
  strategy := .structural
  validator := some "pdf"
  blockAligned := true
  footerAnchored := false

/-- The header and the marker of a file, with `n` zeros between. -/
def plain (n : ℕ) : Bytes := magic ++ (List.replicate n 0 ++ eof)

lemma length_plain (n : ℕ) : (plain n).length = n + 10 := by
  simp only [plain, List.length_append, List.length_replicate, magic, eof, List.length_cons,
    List.length_nil]
  omega

lemma plain_isPdf (n : ℕ) : IsPdf (plain n) where
  header := List.prefix_append _ _
  trailer := (List.suffix_append _ _).trans (List.suffix_append _ _)

/-- A file of 80 bytes with another one behind it. -/
def pairCtx : Ctx := ⟨160, 0, 1000, sig⟩

lemma pairCtx_sees : pairCtx.Sees (memReader (plain 70 ++ plain 70)) (plain 70 ++ plain 70) := by
  have hlen : (plain 70 ++ plain 70).length = 160 := by rw [List.length_append, length_plain]
  exact Ctx.sees (memReader_reads _) hlen.symm (hlen ▸ by decide)

/-- Of two files the first one spans both. -/
theorem validate_span_pair : (plain 70).length = 80 ∧ ¬ ∀ n,
    ((validate pairCtx).run (memReader (plain 70 ++ plain 70))).IsFull n →
      n ≤ (plain 70).length + lineEnd (slice (plain 70) 0 2) := by
  refine ⟨length_plain 70, fun h => ?_⟩
  have hbehind := (validate_span pairCtx_sees (plain_isPdf 70)).2.1 h
  exact absurd (hbehind 155 (by decide) (by decide) (by decide)) (by decide)

/-- The second of two files belongs to the first. -/
theorem twoFiles_counterexample : IsPdf (plain 70) ∧
    pairCtx.Sees (memReader (plain 70 ++ plain 70)) (plain 70 ++ plain 70) ∧
    ((validate pairCtx).run (memReader (plain 70 ++ plain 70))).IsFull 160 ∧
    (plain 70).length = 80 := by
  refine ⟨plain_isPdf 70, pairCtx_sees, ?_, length_plain 70⟩
  refine (validate_isFull_marker_iff pairCtx_sees).2
    ⟨by decide, 155, ⟨by decide, ?_⟩, by decide, by decide⟩
  intro j _ hj _
  have hcap : min pairCtx.available maxSize = 160 := by decide
  rw [hcap, eof_length] at hj
  omega

end Pdf
end Reclaim
