import Reclaim.Carve.Bounded
import Reclaim.Carve.Extents
import Reclaim.Carve.Gif
import Reclaim.Carve.Isobmff
import Reclaim.Carve.Jpeg
import Reclaim.Carve.Mkv
import Reclaim.Carve.Frames
import Reclaim.Carve.Ogg
import Reclaim.Carve.Pdf
import Reclaim.Carve.Png
import Reclaim.Carve.Tar
import Reclaim.Carve.TextLength
import Reclaim.Carve.Tiff
import Reclaim.Carve.Wasm
import Reclaim.Carve.Xz
import Reclaim.Carve.Zip
import Reclaim.Foundation.ReadProgram

/-!
# How far a validator reaches

A validator knows how many bytes there are, and the length that it returns should be within them.
Most of them see to it, whatever they read.  Some do not: each has a slack, by which the length that
it returns may be too great.  `Confines` says so of a validator, and is shown walk by walk with the
rules of `ReadProg.Ensures`.
-/

namespace Reclaim

open FileBytes ReadProg

/-- By how much the length of a verdict may be too great: that of a complete file, and that of
another. -/
structure Slack where
  full : ℕ
  other : ℕ

namespace Slack

/-- Within what there is. -/
def none : Slack := ⟨0, 0⟩

/-- The slack of a verdict. -/
def of (s : Slack) : Validity → ℕ
  | .full => s.full
  | _ => s.other

lemma of_le (s : Slack) (validity : Validity) : s.of validity ≤ max s.full s.other := by
  cases validity
  · exact le_max_left _ _
  · exact le_max_right _ _
  · exact le_max_right _ _

end Slack

/-- What the verdict accepts begins at the candidate and ends within `avail` bytes, but for the
slack. -/
def Verdict.Within (v : Verdict) (avail : ℕ) (s : Slack) : Prop :=
  v.accept = true → v.startOverride = .none ∧ v.len ≤ avail + s.of v.validity

/-- The validator keeps within what there is, but for a slack, whatever it reads. -/
def Confines (s : Slack) (v : Ctx → ReadProg Verdict) : Prop :=
  ∀ ctx : Ctx, 0 < ctx.available → (v ctx).Ensures fun r => r.Within ctx.available s

section Within

variable {v : Verdict} {avail len score : ℕ} {s : Slack} {validity : Validity}

lemma within_rejected : Verdict.rejected.Within avail s := fun h => absurd h Bool.false_ne_true

lemma within_accepted (h : len ≤ avail) : (Verdict.accepted len validity score).Within avail s :=
  fun _ => ⟨rfl, h.trans (Nat.le_add_right _ _)⟩

/-- A check that rejects. -/
lemma within_if {c : Prop} [Decidable c] (h : v.Within avail s) :
    (if c then .rejected else v).Within avail s := by
  split
  · exact within_rejected
  · exact h

/-- Within what there is, with any slack. -/
lemma Verdict.Within.loosen (h : v.Within avail .none) (s : Slack) :
    v.Within avail s := fun hacc => by
  have hzero : Slack.none.of v.validity = 0 := by
    cases v.validity <;> rfl
  obtain ⟨hstart, hle⟩ := h hacc
  exact ⟨hstart, by omega⟩

/-- A refined id and metadata leave the range as it is. -/
lemma Verdict.Within.refined (h : v.Within avail s) (format : Option String) (metadata : Metadata) :
    Verdict.Within { v with format := format, metadata := metadata } avail s := h

variable {ctx : Ctx} {full truncated cap least : ℕ} {format : Option String} {metadata : Metadata}

lemma within_fitted : (ctx.fitted len full truncated format).Within ctx.available s := by
  unfold Ctx.fitted
  split
  · rename_i hle
    exact (within_accepted hle).refined _ _
  · exact (within_accepted le_rfl).refined _ _

lemma within_bounded {format : String} :
    (ctx.bounded cap least score format metadata).Within ctx.available s :=
  within_if ((within_accepted (min_le_left _ _)).refined _ _)

end Within

/-! ## Heads

Validators that look at the head alone, and those that take the farthest end of a part. -/

section Heads

lemma confines_bmp : Confines .none Bmp.validate := fun ctx _ R _ => by
  simp only [Bmp.validate, run_bind, run_ite, run_pure]
  exact within_if (within_if within_fitted)

lemma within_finalize {ctx : Ctx} {total score : ℕ} {id : String} :
    (Riff.finalize ctx total id score).Within ctx.available .none :=
  within_if within_fitted

lemma confines_riff : Confines .none Riff.validate := fun ctx _ R _ => by
  simp only [Riff.validate, run_bind, run_ite, run_pure]
  split_ifs
  · exact within_finalize
  · exact within_rejected
  · split
    · exact within_finalize
    · exact within_rejected

lemma confines_iff : Confines .none Iff.validate := fun ctx _ R _ => by
  simp only [Iff.validate, run_bind, run_ite, run_pure]
  exact within_if (within_if (within_if within_fitted))

lemma confines_sevenz : Confines .none Sevenz.validate := fun ctx _ R _ => by
  simp only [Sevenz.validate, run_bind, run_ite, run_pure]
  exact within_if (within_if within_fitted)

lemma confines_sqlite : Confines .none Sqlite.validate := fun ctx _ R _ => by
  simp only [Sqlite.validate, run_bind, run_ite, run_pure]
  exact within_if (within_if (within_if (within_if within_fitted)))

lemma confines_iso : Confines .none IsoImage.validate := fun ctx _ R _ => by
  simp only [IsoImage.validate, run_bind, run_ite, run_pure]
  exact within_if (within_if (within_if within_fitted))

lemma confines_elf : Confines .none Elf.validate := fun ctx _ R _ => by
  simp only [Elf.validate, run_bind, run_ite, run_pure]
  exact within_if (within_if within_fitted)

lemma confines_pe : Confines .none Pe.validate := fun ctx _ R _ => by
  simp only [Pe.validate, run_bind, run_ite, run_pure]
  exact within_if (within_if (within_if (within_if (within_if within_fitted))))

lemma within_macho {ctx : Ctx} {stop score : ℕ} {id : String} :
    (Macho.finalize ctx stop id score).Within ctx.available .none :=
  within_if within_fitted

lemma confines_macho : Confines .none Macho.validate := fun ctx _ R _ => by
  simp only [Macho.validate, run_bind]
  split
  · simp only [Macho.fat, run_bind, run_ite, run_pure]
    split_ifs
    · exact (within_accepted (min_le_left _ _)).refined _ _
    · exact within_macho
  · simp only [Macho.thin, run_bind, run_ite, run_pure]
    split_ifs
    · exact within_rejected
    · exact within_macho
  · exact within_rejected

/-- An icon ends with its directory or with an image that is in the source. -/
lemma le_of_entries {ctx : Ctx} {R : Reader} {count stop m : ℕ} {l : List ℕ}
    (h : (Ico.entries ctx count l stop).run R = some m) (hstop : stop ≤ ctx.available ∨
      l ≠ [] ∧ stop = Ico.dirEnd count) : m ≤ ctx.available := by
  induction l generalizing stop with
  | nil =>
    obtain rfl : stop = m := Option.some.inj h
    exact hstop.resolve_right fun h => h.1 rfl
  | cons i rest ih =>
    rw [Ico.entries, run_bind, run_ite] at h
    set e := (ctx.read (6 + i * 16) 16).run R
    by_cases hok : Ico.Plausible count e ∧ Ico.entryStop e ≤ ctx.available
    · rw [if_neg (not_not.2 hok)] at h
      have hdir := Ico.dirEnd_le hok.1
      refine ih h (.inl (max_le ?_ hok.2))
      rcases hstop with hstop | ⟨-, rfl⟩
      · exact hstop
      · exact hdir.trans hok.2
    · rw [if_pos hok] at h
      exact absurd h (by simp)

lemma confines_ico : Confines .none Ico.validate := fun ctx _ R _ => by
  simp only [Ico.validate, run_bind, run_ite, run_pure]
  split_ifs with hmagic htype hcount
  · exact within_rejected
  · exact within_rejected
  · exact within_rejected
  · split
    · rename_i stop hstop
      refine within_accepted (le_of_entries hstop (.inr ⟨?_, rfl⟩))
      rw [ne_eq, List.range_eq_nil]
      exact fun h => hcount (.inl h)
    · exact within_rejected

lemma confines_gzip : Confines .none Gzip.validate := fun ctx _ R _ => by
  simp only [Gzip.validate, run_bind, run_ite, run_pure]
  exact within_if (within_if (within_if within_bounded))

lemma confines_bzip2 : Confines .none Bzip2.validate := fun ctx _ R _ => by
  simp only [Bzip2.validate, run_bind, run_ite, run_pure]
  exact within_if (within_if (within_if within_bounded))

lemma confines_zstd : Confines .none Zstd.validate := fun ctx _ R _ => by
  simp only [Zstd.validate, run_bind, run_ite, run_pure]
  exact within_if within_bounded

lemma confines_rar : Confines .none Rar.validate := fun ctx _ R _ => by
  simp only [Rar.validate, run_bind, run_ite, run_pure]
  exact within_if within_bounded

lemma confines_bplist : Confines .none Bplist.validate := fun ctx _ R _ => by
  simp only [Bplist.validate, run_bind, run_ite, run_pure]
  exact within_if within_bounded

lemma confines_ole2 : Confines .none Ole2.validate := fun ctx _ R _ => by
  simp only [Ole2.validate, run_bind, run_ite, run_pure]
  exact within_if (within_if (within_if within_bounded))

lemma confines_flac : Confines .none Flac.validate := fun ctx _ R _ => by
  simp only [Flac.validate, run_bind, run_ite, run_pure]
  refine within_if ?_
  split
  · exact within_rejected
  · rw [run_ite]
    exact within_if within_bounded

lemma confines_mkv : Confines .none Mkv.validate := fun ctx _ R _ => by
  simp only [Mkv.validate, run_bind, run_ite, run_pure]
  split_ifs
  · exact within_rejected
  · split
    · exact within_rejected
    · simp only [run_bind, run_ite, run_pure]
      split_ifs
      · exact (within_accepted ((min_le_left _ _).trans (min_le_left _ _))).refined _ _
      · split
        · exact within_rejected
        · rw [run_pure]
          split_ifs with hle
          · exact (within_accepted hle).refined _ _
          · exact (within_accepted le_rfl).refined _ _
        · exact (within_accepted (min_le_left _ _)).refined _ _

lemma confines_tiff : Confines .none Tiff.validate := fun ctx _ R _ => by
  simp only [Tiff.validate, run_bind]
  split
  · exact within_rejected
  · rw [run_bind, run_pure]
    unfold Tiff.verdict
    dsimp only
    have hle (stop : ℕ) : min stop (min ctx.available Tiff.maxSize) ≤ ctx.available :=
      (min_le_right _ _).trans (min_le_left _ _)
    split
    · exact within_rejected
    · split
      · exact (within_accepted (hle _)).refined _ _
      · exact (within_accepted (hle _)).refined _ _

end Heads

/-! ## Walks

A walk that checks where it goes next against its cap returns within the cap. -/

section Walks

variable {ctx : Ctx} {cap fuel pos : ℕ} {s : Slack}

/-- The cap of a format and what there is. -/
lemma min_available_le (ctx : Ctx) (m : ℕ) : min ctx.available m ≤ ctx.available := min_le_left _ _

lemma within_png_truncated {avail : ℕ} {first : Bool} (h : first = true ∨ pos ≤ avail) :
    (Png.truncated pos first).Within avail s := by
  unfold Png.truncated
  split
  · exact within_rejected
  · rename_i hreject
    exact within_accepted (h.resolve_left fun hfirst => hreject (.inl hfirst))

lemma ensures_png_walk {first suspect : Bool} (hcap : cap ≤ Png.maxSize)
    (h : first = true ∨ pos ≤ cap) :
    (Png.walk ctx cap fuel pos first suspect).Ensures fun r => r.Within cap .none := by
  have hsmall : Png.maxSize < u64Max := by decide
  induction fuel generalizing pos first suspect with
  | zero => exact ensures_pure.2 (within_png_truncated h)
  | succ fuel ih =>
    rw [Png.walk]
    refine ensures_bind fun hdr => ?_
    refine ensures_ite (fun _ => ensures_pure.2 (within_png_truncated h)) fun _ => ?_
    dsimp only
    refine ensures_ite (fun _ => ensures_pure.2 (within_png_truncated h)) fun hfits => ?_
    have hnext : pos + saturatingAdd 12 ((getBe 4 hdr 0).getD u32Max) ≤ cap := by
      unfold saturatingAdd at hfits ⊢
      omega
    refine ensures_ite (fun _ => ensures_pure.2 within_rejected) fun _ => ?_
    refine ensures_bind fun sum => ?_
    -- with the data of the chunk read or not
    refine ensures_ite (fun _ => ensures_bind fun body => ?_) fun _ => ensures_bind fun body => ?_
    all_goals
      refine ensures_ite (fun _ => ensures_pure.2 ?_) fun _ =>
        ensures_ite (fun _ => ensures_pure.2 ?_) fun _ => ih (.inr (not_lt.1 hfits))
      · exact within_if (within_png_truncated (.inr (by omega)))
      · split
        · exact within_accepted hnext
        · exact within_accepted hnext

lemma Verdict.Within.mono {v : Verdict} {a b : ℕ} (h : v.Within a s) (hle : a ≤ b) :
    v.Within b s := fun hacc =>
  ⟨(h hacc).1, (h hacc).2.trans (Nat.add_le_add_right hle _)⟩

/-- A walk within the cap is within what there is. -/
lemma ensures_available {p : ReadProg Verdict} {m : ℕ}
    (h : p.Ensures fun r => r.Within (min ctx.available m) s) :
    p.Ensures fun r => r.Within ctx.available s :=
  h.mono fun _ hr => hr.mono (min_available_le ctx m)

lemma confines_png : Confines .none Png.validate := fun ctx _ => by
  unfold Png.validate
  refine ensures_bind fun head => ensures_ite (fun _ => ensures_pure.2 within_rejected) fun _ => ?_
  exact ensures_available (ensures_png_walk (min_le_right _ _) (.inl rfl))

/-- A chain of boxes. -/
lemma ensures_isobmff_finish {openEnded : Bool} {seen : Isobmff.Seen} (h : pos ≤ cap) :
    (Isobmff.finish ctx openEnded pos seen).Ensures fun r => r.Within cap .none := by
  have hfinal : (Isobmff.finalize pos seen (if openEnded then .truncated else .full)).Within cap
      .none := (within_accepted h).refined _ _
  unfold Isobmff.finish
  refine ensures_ite (fun _ => ensures_pure.2 within_rejected) fun _ => ?_
  dsimp only
  split
  · exact ensures_pure.2 hfinal
  · exact ensures_bind fun metadata => ensures_pure.2 (hfinal.refined _ _)

lemma ensures_isobmff_walk {seen : Isobmff.Seen} (h : pos ≤ cap) :
    (Isobmff.walk ctx cap fuel pos seen).Ensures fun r => r.Within cap .none := by
  induction fuel generalizing pos seen with
  | zero => exact ensures_isobmff_finish h
  | succ fuel ih =>
    rw [Isobmff.walk]
    refine ensures_ite (fun _ => ensures_isobmff_finish h) fun _ => ensures_bind fun hdr => ?_
    dsimp only
    refine ensures_ite (fun _ => ensures_isobmff_finish h) fun _ => ?_
    refine ensures_ite (fun _ => ensures_isobmff_finish h) fun _ => ?_
    refine ensures_ite (fun _ => ensures_pure.2 ?_) fun hfits => ?_
    · exact within_if ((within_accepted h).refined _ _)
    · refine ensures_ite (fun _ => ensures_isobmff_finish h) fun _ => ensures_bind fun seen => ?_
      exact ensures_ite (fun _ => ensures_isobmff_finish (not_lt.1 hfits)) fun _ =>
        ih (not_lt.1 hfits)

lemma confines_isobmff : Confines .none Isobmff.validate := fun ctx _ => by
  unfold Isobmff.validate
  refine ensures_ite (fun _ => ensures_pure.2 within_rejected) fun _ => ?_
  exact ensures_available (ensures_isobmff_walk (Nat.zero_le _))

lemma ensures_tar_walk {zeroBlocks : ℕ} :
    (Tar.walk ctx cap fuel pos zeroBlocks).Ensures fun r => r.Within cap .none := by
  induction fuel generalizing pos zeroBlocks with
  | zero => exact ensures_pure.2 ((within_accepted (min_le_right _ _)).refined _ _)
  | succ fuel ih =>
    rw [Tar.walk]
    refine ensures_ite (fun _ => ensures_pure.2 ((within_accepted le_rfl).refined _ _))
      fun hfits => ensures_bind fun hdr => ?_
    refine ensures_ite (fun _ => ?_) fun _ => ensures_ite (fun _ => ensures_pure.2 ?_) fun _ => ih
    · refine ensures_ite (fun _ => ensures_pure.2 ?_) fun _ => ih
      exact (within_accepted (not_lt.1 hfits)).refined _ _
    · split
      · exact (within_accepted (by omega)).refined _ _
      · exact within_rejected

lemma confines_tar : Confines .none Tar.validate := fun ctx _ => by
  unfold Tar.validate
  refine ensures_bind fun head => ensures_ite (fun _ => ensures_pure.2 within_rejected) fun _ => ?_
  exact ensures_available ensures_tar_walk

lemma within_ogg_finish {id : String} : (Ogg.finish cap pos id).Within cap .none :=
  within_if ((within_accepted (min_le_right _ _)).refined _ _)

lemma ensures_ogg_walk {st : Bool × String} :
    (Ogg.walk ctx cap fuel pos st).Ensures fun r => r.Within cap .none := by
  induction fuel generalizing pos st with
  | zero => exact ensures_pure.2 within_ogg_finish
  | succ fuel ih =>
    rw [Ogg.walk]
    refine ensures_bind fun hdr => ?_
    refine ensures_ite (fun _ => ensures_pure.2 within_ogg_finish) fun _ => ?_
    refine ensures_bind fun segtab => ensures_bind fun id => ?_
    refine ensures_ite (fun _ => ensures_pure.2 ((within_accepted le_rfl).refined _ _))
      fun hfits => ensures_ite (fun _ => ensures_pure.2 ?_) fun _ => ih
    exact (within_accepted (not_lt.1 hfits)).refined _ _

lemma confines_ogg : Confines .none Ogg.validate := fun ctx _ => by
  unfold Ogg.validate
  refine ensures_bind fun head => ensures_ite (fun _ => ensures_pure.2 within_rejected) fun _ => ?_
  exact ensures_available ensures_ogg_walk

lemma confines_pdf : Confines .none Pdf.validate := fun ctx _ R _ => by
  have hcap := min_available_le ctx Pdf.maxSize
  have hunfinished : (Pdf.unfinished (min ctx.available Pdf.maxSize)).Within ctx.available .none :=
    within_if (within_accepted hcap)
  simp only [Pdf.validate, run_bind, run_ite, run_pure]
  refine within_if ?_
  split
  · rw [run_pure]
    split
    · exact within_accepted ((min_le_right _ _).trans hcap)
    · exact hunfinished
  · exact hunfinished

lemma confines_xz : Confines .none Xz.validate := fun ctx _ R _ => by
  have hcap := min_available_le ctx Xz.maxSize
  simp only [Xz.validate, run_bind, run_ite, run_pure]
  refine within_if ?_
  split
  · exact (within_accepted ((min_le_right _ _).trans hcap)).refined _ _
  · exact (within_accepted ((min_le_left _ _).trans hcap)).refined _ _

lemma confines_mp3 : Confines .none Mp3.validate := fun ctx _ R _ => by
  have hcap := min_available_le ctx Mp3.maxSize
  simp only [Mp3.validate, run_bind]
  split
  · exact within_rejected
  · simp only [run_bind, run_ite, run_pure]
    split
    · simp only [Mp3.loneTag, run_bind, run_ite, run_pure]
      split
      · exact (within_accepted ((min_le_right _ _).trans hcap)).refined _ _
      · exact within_rejected
    · exact (within_accepted ((min_le_right _ _).trans hcap)).refined _ _

lemma confines_mpegts : Confines .none MpegTs.validate := fun ctx _ R _ => by
  have hcap := min_available_le ctx MpegTs.maxSize
  simp only [MpegTs.validate, run_bind]
  split
  · exact within_rejected
  · simp only [run_bind, run_ite, run_pure]
    exact within_if (within_if
      ((within_accepted ((min_le_right _ _).trans hcap)).refined _ _))

end Walks

/-! ## Text, and signatures without a validator

What is found in a buffer lies in it, and the buffer is no longer than what was asked for. -/

section Buffers

variable {ctx : Ctx} {cap fuel pos : ℕ} {s : Slack}

lemma ensures_measure {printable : ℕ} (h : pos ≤ cap) :
    (PlainText.measure ctx cap fuel pos printable).Ensures fun r => r.1 ≤ cap := by
  induction fuel generalizing pos printable with
  | zero => exact ensures_pure.2 h
  | succ fuel ih =>
    rw [PlainText.measure]
    refine ensures_ite (fun _ => ensures_pure.2 h) fun hlt => ?_
    refine (ensures_bytes _ _).bind fun buf hbuf => ?_
    refine ensures_ite (fun _ => ensures_pure.2 h) fun _ => ?_
    obtain ⟨k, hk, hend, -, -⟩ := PlainText.walkWindow_stops buf 0 printable
    have hle : pos + (PlainText.walkWindow buf 0 0 printable).1 ≤ cap := by omega
    dsimp only
    split
    · exact ensures_ite (fun _ => ensures_pure.2 le_rfl) fun _ => ih (by omega)
    · exact ensures_ite (fun _ => ih hle) fun _ => ensures_pure.2 hle
    · exact ensures_pure.2 hle

lemma confines_text : Confines .none PlainText.validate := fun ctx _ => by
  unfold PlainText.validate
  dsimp only
  refine ensures_ite (fun _ => ensures_pure.2 within_rejected) fun _ => ensures_bind fun head => ?_
  refine ensures_ite (fun _ => ensures_pure.2 within_rejected) fun _ => ?_
  refine (ensures_measure (Nat.zero_le _)).bind fun r hr => ?_
  have hle := hr.trans (min_available_le ctx PlainText.maxRun)
  refine ensures_ite (fun _ => ensures_pure.2 within_rejected) fun _ => ensures_pure.2 ?_
  split
  · exact (within_accepted hle).refined _ _
  · exact (within_accepted hle).refined _ _

/-- A pattern that is found lies in the buffer. -/
lemma le_of_findBytes {pattern buf : Bytes} {m : ℕ} (h : findBytes pattern buf = some m) :
    m + pattern.length ≤ buf.length := by
  have hm := List.mem_range.1 (List.mem_of_find?_eq_some h)
  omega

lemma ensures_findFooter {footer : Bytes} {search : ℕ} :
    (findFooter ctx footer search fuel pos).Ensures fun r => ∀ stop ∈ r, stop ≤ search := by
  induction fuel generalizing pos with
  | zero => exact ensures_pure.2 (by simp)
  | succ fuel ih =>
    rw [findFooter]
    refine ensures_ite (fun _ => ensures_pure.2 (by simp)) fun hlt => ?_
    refine (ensures_bytes _ _).bind fun buf hbuf => ?_
    split
    · rename_i m hm
      have hle := le_of_findBytes hm
      refine ensures_pure.2 fun stop hstop => ?_
      obtain rfl := Option.some.inj hstop
      omega
    · exact ensures_ite (fun _ => ensures_pure.2 (by simp)) fun _ => ih

lemma confines_fallback : Confines .none fallback := fun ctx _ => by
  have hcapped {validity : Validity} : (Verdict.accepted (min ctx.available fallbackCap) validity
      30).Within ctx.available .none := within_accepted (min_available_le ctx fallbackCap)
  unfold fallback
  split
  · split
    · refine ensures_findFooter.bind fun r hr => ?_
      split
      · exact ensures_pure.2 (within_accepted ((hr _ rfl).trans (min_le_right _ _)))
      · exact ensures_pure.2 hcapped
    · exact ensures_pure.2 hcapped
  · exact ensures_ite (fun _ => ensures_pure.2 within_rejected) fun _ => ensures_pure.2 hcapped

end Buffers

/-! ## Those that reach further

A JPEG walk steps over a segment before it asks whether that is there, and what it returns of a file
that is cut short is where it stands.  A GIF walk does not ask about the first colour table, and a
module or an empty archive has its least size whatever there is. -/

section Slacks

variable {ctx : Ctx} {cap fuel pos : ℕ}

/-- A segment has less than `2 ^ 16` bytes. -/
def jpegSlack : Slack := ⟨0, 65535⟩

/-- The header and the largest colour table, and the first bytes behind them. -/
def gifSlack : Slack := ⟨781, 782⟩

/-- Magic and version. -/
def wasmSlack : Slack := ⟨7, 0⟩

/-- The end record of an empty archive. -/
def zipSlack : Slack := ⟨21, 0⟩

lemma ensures_nextMarker :
    (Jpeg.nextMarker ctx cap fuel pos).Ensures fun r => ∀ p ∈ r, p ≤ cap := by
  induction fuel generalizing pos with
  | zero => exact ensures_pure.2 (by simp)
  | succ fuel ih =>
    rw [Jpeg.nextMarker]
    refine ensures_ite (fun _ => ensures_pure.2 (by simp)) fun hlt => ?_
    refine (ensures_bytes _ _).bind fun buf hbuf => ?_
    refine ensures_ite (fun _ => ensures_pure.2 (by simp)) fun _ => ?_
    split
    · rename_i i hi
      have hrange := List.mem_range.1 (List.mem_of_find?_eq_some hi)
      refine ensures_pure.2 fun p hp => ?_
      obtain rfl := Option.some.inj hp
      omega
    · exact ensures_ite (fun _ => ensures_pure.2 (by simp)) fun _ => ih

lemma within_jpeg_truncated {sawSof : Bool} (h : pos ≤ cap + 65535) :
    (Jpeg.truncated pos sawSof).Within cap jpegSlack :=
  within_if fun _ => ⟨rfl, h⟩

lemma ensures_jpeg_walk {parseExif : Jpeg.ParseExif} {sawSof sawSos : Bool}
    {found : Metadata × Bool} (h : pos ≤ cap + 65535) :
    (Jpeg.walk ctx parseExif cap fuel pos sawSof sawSos found).Ensures
      fun r => r.Within cap jpegSlack := by
  induction fuel generalizing pos sawSof sawSos found with
  | zero => exact ensures_pure.2 (within_jpeg_truncated h)
  | succ fuel ih =>
    have hstop {b : Bool} : (pure (Jpeg.truncated pos b) : ReadProg Verdict).Ensures
        fun r => r.Within cap jpegSlack := ensures_pure.2 (within_jpeg_truncated h)
    rw [Jpeg.walk]
    refine ensures_ite (fun _ => hstop) fun hfits => ensures_bind fun m => ?_
    dsimp only
    have hseg : beU16 m 2 < 65536 := beField_lt 2 m 2
    have hnext : pos + 2 + beU16 m 2 ≤ cap + 65535 := by omega
    refine ensures_ite (fun _ => ?_) fun _ => ?_
    · refine ensures_nextMarker.bind fun r hr => ?_
      split
      · exact ih ((hr _ rfl).trans (Nat.le_add_right _ _))
      · exact hstop
    refine ensures_ite (fun _ => ensures_pure.2 ?_) fun _ => ?_
    · exact (within_accepted (by omega)).refined _ _
    refine ensures_ite (fun _ => ih (by omega)) fun _ => ?_
    refine ensures_ite (fun _ => ih (by omega)) fun _ => ?_
    refine ensures_ite (fun _ => hstop) fun _ => ?_
    refine ensures_ite (fun _ => ensures_ite (fun _ => hstop) fun _ => ?_) fun _ => ?_
    · refine ensures_nextMarker.bind fun r hr => ?_
      split
      · exact ih ((hr _ rfl).trans (Nat.le_add_right _ _))
      · exact ensures_pure.2 (within_jpeg_truncated hnext)
    refine ensures_ite (fun _ => ensures_ite (fun _ => hstop) fun _ => ih hnext) fun _ => ?_
    refine ensures_ite (fun _ => ensures_ite (fun _ => hstop) fun _ => ?_) fun _ => ?_
    · exact ensures_ite (fun _ => ensures_bind fun _ => ih hnext) fun _ =>
        ensures_bind fun _ => ih hnext
    · exact ensures_ite (fun _ => hstop) fun _ => ih hnext

lemma confines_jpeg (parseExif : Jpeg.ParseExif) :
    Confines jpegSlack (Jpeg.validate parseExif) := fun ctx _ => by
  unfold Jpeg.validate
  refine ensures_bind fun head => ensures_ite (fun _ => ensures_pure.2 within_rejected) fun _ => ?_
  dsimp only
  refine ensures_ite (fun _ => ensures_pure.2 within_rejected) fun hfour => ?_
  exact ensures_available (ensures_jpeg_walk (by omega))

lemma tableSize_le (packed : UInt8) : Gif.tableSize packed ≤ 768 := by
  unfold Gif.tableSize
  split
  · have hbits : (packed &&& 0x07).toNat ≤ 7 := by
      rw [UInt8.toNat_and]
      exact Nat.and_le_right
    have hpow : 2 ^ ((packed &&& 0x07).toNat + 1) ≤ 2 ^ 8 :=
      Nat.pow_le_pow_right (by omega) (by omega)
    omega
  · omega

lemma ensures_gif_walk (hcap : 0 < cap) (h : pos < cap ∨ pos ≤ 781) :
    (Gif.walk ctx cap fuel pos).Ensures fun r => r.Within cap gifSlack := by
  have htruncated {p : ℕ} (hp : p ≤ cap + 782) : (Gif.truncated p).Within cap gifSlack :=
    within_if fun _ => ⟨rfl, hp⟩
  induction fuel generalizing pos with
  | zero => exact ensures_pure.2 (htruncated (by omega))
  | succ fuel ih =>
    rw [Gif.walk]
    refine ensures_bind fun intro' => ensures_ite (fun _ => ensures_pure.2 ?_) fun _ => ?_
    · exact fun _ => ⟨rfl, show pos + 1 ≤ cap + 781 by omega⟩
    refine ensures_ite (fun _ => ensures_pure.2 (htruncated (by omega))) fun _ => ?_
    have hblock : (Gif.skipBlock ctx cap pos (byteAt intro' 0)).Ensures fun r => r.2 ≤ pos + 2 := by
      unfold Gif.skipBlock
      exact ensures_ite (fun _ => ensures_bind fun _ => ensures_pure.2 le_rfl) fun _ =>
        ensures_bind fun _ => ensures_bind fun _ => ensures_pure.2 (Nat.le_add_right _ _)
    refine hblock.bind fun r hr => ?_
    split
    · exact ensures_pure.2 (htruncated (by omega))
    · exact ensures_ite (fun _ => ensures_pure.2 (htruncated (by omega))) fun hlt =>
        ih (.inl (not_le.1 hlt))

lemma confines_gif : Confines gifSlack Gif.validate := fun ctx hpos => by
  unfold Gif.validate
  refine ensures_bind fun head => ensures_ite (fun _ => ensures_pure.2 within_rejected) fun _ => ?_
  have htable := tableSize_le (byteAt head 10)
  have hmax : 0 < Gif.maxSize := by decide
  exact ensures_available (ensures_gif_walk (lt_min hpos hmax) (.inr (by omega)))

lemma ensures_wasm_walk (hcap : 0 < cap) (h : pos ≤ cap ∨ pos ≤ 8) :
    (Wasm.walk ctx cap fuel pos).Ensures fun r => r.Within cap wasmSlack := by
  have hfinish {p : ℕ} (hp : p ≤ cap + 7) : (Wasm.finish p).Within cap wasmSlack :=
    within_if fun _ => ⟨rfl, hp⟩
  induction fuel generalizing pos with
  | zero => exact ensures_pure.2 (hfinish (by omega))
  | succ fuel ih =>
    rw [Wasm.walk]
    refine ensures_ite (fun _ => ensures_pure.2 (hfinish (by omega))) fun _ => ?_
    refine ensures_bind fun intro' => ?_
    split
    · exact ensures_pure.2 (hfinish (by omega))
    · exact ensures_ite (fun _ => ensures_pure.2 ((within_accepted le_rfl).refined _ _))
        fun hfits => ih (.inl (not_lt.1 hfits))

lemma confines_wasm : Confines wasmSlack Wasm.validate := fun ctx hpos => by
  unfold Wasm.validate
  refine ensures_bind fun head => ensures_ite (fun _ => ensures_pure.2 within_rejected) fun _ => ?_
  refine ensures_ite (fun _ => ensures_pure.2 within_rejected) fun _ => ?_
  have hmax : 0 < Wasm.maxSize := by decide
  exact ensures_available (ensures_wasm_walk (lt_min hpos hmax) (.inr le_rfl))

lemma confines_zip : Confines zipSlack Zip.validate := fun ctx hpos R _ => by
  have hcap := min_available_le ctx Zip.maxSize
  simp only [Zip.validate, run_bind, run_ite, run_pure]
  split
  · exact fun _ => ⟨rfl, show 22 ≤ ctx.available + 21 by omega⟩
  · refine within_if (Verdict.Within.refined ?_ _ _)
    split
    · split
      · exact within_accepted ((min_le_right _ _).trans hcap)
      · exact within_accepted ((min_le_right _ _).trans hcap)
    · exact within_accepted ((min_le_left _ _).trans hcap)

end Slacks
end Reclaim
