import Reclaim.Carve.Confined
import Reclaim.Carve.Bounded
import Reclaim.Carve.Range

/-!
# The registry of validators

The catalog names the validator of a signature, and the engine looks the name up.  With all
validators in place, what is known of each of them is known of the files that a scan emits: how far
they reach (`emitted_within`), and for the formats that say where they end, that the file ends there
(`sizes_dispatch`).
-/

namespace Reclaim

open FileBytes ReadProg

variable (parseExif : Jpeg.ParseExif)

/-- The validators. -/
def registry : List (String × (Ctx → ReadProg Verdict)) :=
  [("jpeg", Jpeg.validate parseExif), ("png", Png.validate), ("gif", Gif.validate),
    ("ico", Ico.validate), ("bmp", Bmp.validate), ("tiff", Tiff.validate),
    ("isobmff", Isobmff.validate), ("riff", Riff.validate), ("iff", Iff.validate),
    ("zip", Zip.validate), ("ole2", Ole2.validate), ("pdf", Pdf.validate),
    ("sqlite", Sqlite.validate), ("text", PlainText.validate), ("gzip", Gzip.validate),
    ("bzip2", Bzip2.validate), ("xz", Xz.validate), ("zstd", Zstd.validate),
    ("sevenz", Sevenz.validate), ("rar", Rar.validate), ("tar", Tar.validate),
    ("macho", Macho.validate), ("elf", Elf.validate), ("pe", Pe.validate),
    ("dmg", DmgTrailer.validate), ("bplist", Bplist.validate), ("mp3", Mp3.validate),
    ("flac", Flac.validate), ("ogg", Ogg.validate), ("mkv", Mkv.validate),
    ("mpegts", MpegTs.validate), ("iso", IsoImage.validate), ("wasm", Wasm.validate)]

/-- `dispatch`. -/
def dispatch (name : String) (ctx : Ctx) : ReadProg Verdict :=
  match (registry parseExif).lookup name with
  | some v => v ctx
  | none => pure .rejected

/-- `has_validator`. -/
def hasValidator (name : String) : Bool :=
  name ∈ ["jpeg", "png", "gif", "ico", "bmp", "tiff", "isobmff", "riff", "iff", "zip", "ole2",
    "pdf", "sqlite", "text", "gzip", "bzip2", "xz", "zstd", "sevenz", "rar", "tar", "macho", "elf",
    "pe", "dmg", "bplist", "mp3", "flac", "ogg", "mkv", "mpegts", "iso", "wasm"]

/-- What the engine takes for the validator of a name. -/
def validatorOf (name : String) : Option (Ctx → ReadProg Verdict) :=
  if hasValidator name then some (dispatch parseExif name) else none

variable {parseExif}

/-! ## How far the files of a scan reach -/

/-- The slack of a validator. -/
def slackOf (name : String) : Slack :=
  if name = "jpeg" then jpegSlack
  else if name = "gif" then gifSlack
  else if name = "wasm" then wasmSlack
  else if name = "zip" then zipSlack
  else .none

/-- Every validator but the one that moves the start keeps within its slack. -/
lemma confines_registry : ∀ p ∈ registry parseExif, p.1 ≠ "dmg" → Confines (slackOf p.1) p.2 := by
  have of {name : String} {s : Slack} {v : Ctx → ReadProg Verdict} (hs : slackOf name = s)
      (hv : Confines s v) : name ≠ "dmg" → Confines (slackOf name) v := fun _ => hs ▸ hv
  simp only [registry, List.forall_mem_cons]
  exact ⟨of (by simp [slackOf]) (confines_jpeg parseExif), of (by simp [slackOf]) confines_png,
    of (by simp [slackOf]) confines_gif, of (by simp [slackOf]) confines_ico,
    of (by simp [slackOf]) confines_bmp, of (by simp [slackOf]) confines_tiff,
    of (by simp [slackOf]) confines_isobmff, of (by simp [slackOf]) confines_riff,
    of (by simp [slackOf]) confines_iff, of (by simp [slackOf]) confines_zip,
    of (by simp [slackOf]) confines_ole2, of (by simp [slackOf]) confines_pdf,
    of (by simp [slackOf]) confines_sqlite, of (by simp [slackOf]) confines_text,
    of (by simp [slackOf]) confines_gzip, of (by simp [slackOf]) confines_bzip2,
    of (by simp [slackOf]) confines_xz, of (by simp [slackOf]) confines_zstd,
    of (by simp [slackOf]) confines_sevenz, of (by simp [slackOf]) confines_rar,
    of (by simp [slackOf]) confines_tar, of (by simp [slackOf]) confines_macho,
    of (by simp [slackOf]) confines_elf, of (by simp [slackOf]) confines_pe,
    fun h => absurd rfl h, of (by simp [slackOf]) confines_bplist,
    of (by simp [slackOf]) confines_mp3, of (by simp [slackOf]) confines_flac,
    of (by simp [slackOf]) confines_ogg, of (by simp [slackOf]) confines_mkv,
    of (by simp [slackOf]) confines_mpegts, of (by simp [slackOf]) confines_iso,
    of (by simp [slackOf]) confines_wasm, by simp⟩

/-- The two lists of names agree. -/
lemma hasValidator_iff {name : String} :
    hasValidator name = true ↔ ((registry parseExif).lookup name).isSome := by
  rw [List.lookup_isSome_iff]
  simp [hasValidator, registry]

lemma confines_dispatch {name : String} (hname : name ≠ "dmg") :
    Confines (slackOf name) (dispatch parseExif name) := fun ctx hpos => by
  unfold dispatch
  split
  · rename_i v hv
    obtain ⟨before, after, hsplit, -⟩ := List.lookup_eq_some_iff.1 hv
    exact confines_registry (name, v) (by rw [hsplit]; simp) hname ctx hpos
  · exact ensures_pure.2 within_rejected

/-- A disk image ends behind its trailer, and is not larger than the validator believes. -/
lemma dmg_reach {R : Reader} {ctx : Ctx} (h : ((DmgTrailer.validate ctx).run R).accept = true) :
    ∃ s, ((DmgTrailer.validate ctx).run R).startOverride = some s ∧
      s + ((DmgTrailer.validate ctx).run R).len = saturatingAdd ctx.fileStart 512 ∧
      ((DmgTrailer.validate ctx).run R).len < 64 * 1024 * 1024 * 1024 := by
  simp only [DmgTrailer.validate, run_bind, run_ite, run_pure] at h ⊢
  split at h
  · exact absurd h Bool.false_ne_true
  · rename_i hmagic
    split at h
    · rename_i hfit
      rw [if_neg hmagic, if_pos hfit]
      exact ⟨_, rfl, Nat.sub_add_cancel hfit.1, hfit.2.2⟩
    · exact absurd h Bool.false_ne_true

/-- The file ends in a source of `len` bytes and is within the cap, but for a slack, and if it is
taken for complete, but for that of complete files. -/
structure CarvedFile.Reaches (cf : CarvedFile) (len cap : ℕ) (s : Slack) : Prop where
  in_source : cf.offset + cf.len ≤ len + max s.full s.other
  in_cap : cf.len ≤ cap + max s.full s.other
  full : cf.validity = .full → cf.offset + cf.len ≤ len + s.full ∧ cf.len ≤ cap + s.full

/-- A disk image ends where the source does or less than its trailer behind, and knows no cap but
its own. -/
structure CarvedFile.ImageReaches (cf : CarvedFile) (len : ℕ) : Prop where
  in_source : cf.offset + cf.len < len + 512
  in_cap : cf.len < 64 * 1024 * 1024 * 1024

/-- How far a file of a signature reaches. -/
def ReachesBy (sig : SigDef) (len cap : ℕ) (cf : CarvedFile) : Prop :=
  if sig.validator = some "dmg" then cf.ImageReaches len
  else cf.Reaches len cap (slackOf (sig.validator.getD ""))

section Reach

variable {E : CarveEngine} {R : Reader} {opts : CarveOptions} {len fs cap : ℕ} {sig : SigDef}
  {cf : CarvedFile} {s : Slack} {v : Verdict} {io : Bool}

lemma full_of_carved (h : (E.carved fs sig v io).validity = .full) : v.validity = .full := by
  have hvalidity : (E.carved fs sig v io).validity =
      if io && v.validity == .full then .suspect else v.validity := rfl
  rw [hvalidity] at h
  split at h
  · exact absurd h (by decide)
  · exact h

/-- What a verdict is within, the file that is made of it reaches. -/
lemma reaches_carved (hacc : v.accept = true) (hv : v.Within (min (len - fs) cap) s)
    (hlt : fs < len) : (E.carved fs sig v io).Reaches len cap s := by
  obtain ⟨hstart, hle⟩ := hv hacc
  have hoffset : (E.carved fs sig v io).offset = fs := by
    show v.startOverride.getD fs = fs
    rw [hstart]
    rfl
  have hlen : (E.carved fs sig v io).len = v.len := rfl
  have hslack := s.of_le v.validity
  refine ⟨by omega, by omega, fun hfull => ?_⟩
  have hof : s.of v.validity = s.full := by
    rw [full_of_carved hfull]
    rfl
  omega

/-- Validators as the registry has them, and the fallback. -/
lemma judge_within (hE : E.validate = validatorOf parseExif) (hR : R.Bounded) {ctx : Ctx}
    (hpos : 0 < ctx.available) (hdmg : ctx.sig.validator ≠ some "dmg") :
    ((E.judge ctx).run R).Within ctx.available (slackOf (ctx.sig.validator.getD "")) := by
  unfold CarveEngine.judge
  rw [hE]
  cases hname : ctx.sig.validator with
  | none => exact confines_fallback ctx hpos R hR
  | some name =>
    have hne : name ≠ "dmg" := fun h => hdmg (h ▸ hname)
    dsimp only [Option.bind_some, Option.getD_some, validatorOf]
    by_cases hknown : hasValidator name = true
    · rw [if_pos hknown]
      exact confines_dispatch hne ctx hpos R hR
    · rw [if_neg hknown]
      exact (confines_fallback ctx hpos R hR).loosen _

/-- **What is made of a signature** reaches as far as its validator does. -/
lemma runOne_reaches (hE : E.validate = validatorOf parseExif) (hR : R.Bounded)
    (h : (E.runOne len opts fs sig).run R = some cf) : ReachesBy sig len opts.maxFileSize cf := by
  unfold CarveEngine.runOne at h
  dsimp only at h
  by_cases hzero : min (len - fs) opts.maxFileSize = 0
  · rw [if_pos hzero] at h
    exact absurd h (by simp)
  rw [if_neg hzero] at h
  set ctx : Ctx := ⟨len, fs, min (len - fs) opts.maxFileSize, sig⟩ with hctx
  have havailable : ctx.available = min (len - fs) opts.maxFileSize := by
    show min (len - fs) (min (len - fs) opts.maxFileSize) = _
    omega
  rw [run_bind, run_ite] at h
  by_cases hkeep : ((E.judge ctx).run R).accept = false ∨ ((E.judge ctx).run R).len = 0 ∨
      ((E.judge ctx).run R).len < sig.minSize
  · rw [if_pos hkeep] at h
    exact absurd h (by simp)
  rw [if_neg hkeep, run_bind] at h
  obtain rfl := Option.some.inj h
  have hacc : ((E.judge ctx).run R).accept = true :=
    Bool.eq_true_of_not_eq_false fun h => hkeep (.inl h)
  have hlt : fs < len := by omega
  unfold ReachesBy
  split
  · rename_i hdmg
    have hjudge : E.judge ctx = DmgTrailer.validate ctx := by
      have hknown : hasValidator "dmg" = true := by decide
      unfold CarveEngine.judge
      rw [hE, hctx, hdmg]
      dsimp only [Option.bind_some, validatorOf]
      rw [if_pos hknown]
      rfl
    rw [hjudge] at hacc ⊢
    obtain ⟨start, hstart, hsum, hmax⟩ := dmg_reach hacc
    have hle : saturatingAdd fs 512 ≤ fs + 512 := min_le_left _ _
    refine ⟨?_, hmax⟩
    show ((DmgTrailer.validate ctx).run R).startOverride.getD fs + _ < _
    rw [hstart, Option.getD_some]
    exact hsum.trans_lt (hle.trans_lt (by omega))
  · rename_i hdmg
    refine reaches_carved hacc ?_ hlt
    rw [← havailable]
    exact judge_within hE hR (by omega) hdmg

end Reach

/-! ## What a scan emits -/

section Emitted

variable {E : CarveEngine} {R : Reader} {a : ScanArgs} {cf : CarvedFile} {resumeFrom n : ℕ}

/-- **How far the files of a scan reach**: whatever the reads of the source answer, a file ends
within the source and is no larger than the cap, but for what its validator may overshoot. -/
theorem emitted_within (hE : E.validate = validatorOf parseExif) (hR : R.Bounded)
    (h : cf ∈ (E.scan a resumeFrom n).run R) :
    ∃ sig ∈ E.sigs, ReachesBy sig a.len a.opts.maxFileSize cf := by
  rw [CarveEngine.run_scan] at h
  obtain ⟨p, hp, rfl⟩ := List.mem_map.1 h
  obtain ⟨c, -, -, hfile⟩ := CarveEngine.mem_trace_start hp
  obtain ⟨i, -, sig, hsig, hone⟩ := CarveEngine.fileAt_cases hfile
  exact ⟨sig, List.mem_of_getElem? hsig, runOne_reaches hE hR hone⟩

/-- The eight bytes of an empty module. -/
def wasmSource : Bytes := Wasm.moduleBytes []

/-- An engine that knows modules, and all validators. -/
def wasmEngine : CarveEngine where
  automaton := .naive
  sigs := [Wasm.sig]
  validate := validatorOf fun _ _ => (.none, false)
  looksLikeText _ := false
  chunk := carveChunk
  chunk_pos := carveChunk_pos

/-- A scan with a cap of one byte. -/
def wasmArgs : ScanArgs := ⟨8, 512, { CarveEngine.defaultOptions with maxFileSize := 1 }⟩

/-- The file that the scan emits has the eight bytes that the source has, and seven more than the
cap allows. -/
theorem emitted_within_wasm : ∃ cf ∈ (wasmEngine.scan wasmArgs 0 1).run (memReader wasmSource),
    cf.len = 8 ∧ ∃ sig ∈ wasmEngine.sigs, ReachesBy sig 8 1 cf := by
  have hmem : ∃ cf ∈ (wasmEngine.scan wasmArgs 0 1).run (memReader wasmSource), cf.len = 8 := by
    decide +kernel
  obtain ⟨cf, hcf, hlen⟩ := hmem
  exact ⟨cf, hcf, hlen, emitted_within rfl (memReader_reads _).bounded hcf⟩

/-- A GIF header with the largest colour table. -/
def gifHead : Bytes :=
  [0x47, 0x49, 0x46, 0x38, 0x39, 0x61, 0, 0, 0, 0, 0x87, 0, 0] ++ List.replicate 768 0

/-- What a validator says of the first `avail` bytes of a source. -/
def judgeFirst (name : String) (avail : ℕ) (source : Bytes) : Verdict :=
  (dispatch (fun _ _ => (.none, false)) name ⟨source.length, 0, avail, Wasm.sig⟩).run
    (memReader source)

/-- Every slack is attained: by a JPEG whose first segment is the longest, two GIFs with the largest
colour table, an empty module and an empty archive. -/
theorem slacks_attained :
    (judgeFirst "jpeg" 4 [0xFF, 0xD8, 0xFF, 0xE0, 0xFF, 0xFF]).len = 4 + jpegSlack.other ∧
    (judgeFirst "gif" 1 (gifHead ++ [0x3B])).IsFull (1 + gifSlack.full) ∧
    (judgeFirst "gif" 1 (gifHead ++ [0x21])).len = 1 + gifSlack.other ∧
    (judgeFirst "wasm" 1 wasmSource).IsFull (1 + wasmSlack.full) ∧
    (judgeFirst "zip" 1 Zip.eocd).IsFull (1 + zipSlack.full) := by
  refine ⟨?_, ⟨?_, ?_, ?_⟩, ?_, ⟨?_, ?_, ?_⟩, ?_, ?_, ?_⟩
  all_goals decide +kernel

end Emitted

/-! ## Where the files of a sized format end -/

section Sized

/-- The formats that say where their file ends. -/
def sizedFormats : List (String × SizedFormat) :=
  [("bmp", Bmp.format), ("riff", Riff.format), ("iff", Iff.format), ("sevenz", Sevenz.format),
    ("sqlite", Sqlite.format), ("iso", IsoImage.format), ("elf", Elf.format), ("pe", Pe.format),
    ("macho", Macho.format), ("ico", Ico.format)]

/-- **Sized formats are carved to the byte**: the validator of the name takes a file for complete
exactly if its header and tables are those of the format and the source has all of it, up to the
farthest end of a part; and for cut short exactly if the source ends before. -/
theorem sizes_dispatch {name : String} {F : SizedFormat} (h : (name, F) ∈ sizedFormats) :
    F.Sizes (dispatch parseExif name) := by
  have hall : ∀ p ∈ sizedFormats, p.2.Sizes (dispatch parseExif p.1) := by
    simp only [sizedFormats, List.forall_mem_cons]
    exact ⟨Bmp.sizes, Riff.sizes, Iff.sizes, Sevenz.sizes, Sqlite.sizes, IsoImage.sizes, Elf.sizes,
      Pe.sizes, Macho.sizes, Ico.sizes, by simp⟩
  exact hall _ h

/-- A library for one architecture with one segment: its header, a segment command, and 12 bytes
that the segment has. -/
def machoFile : Bytes :=
  [0xCE, 0xFA, 0xED, 0xFE] ++ List.replicate 12 0 ++ [1, 0, 0, 0, 56, 0, 0, 0, 0, 0, 0, 0] ++
    ([1, 0, 0, 0, 56, 0, 0, 0] ++ List.replicate 24 0 ++ [84, 0, 0, 0, 12, 0, 0, 0] ++
      List.replicate 16 0) ++ List.replicate 12 0xAA

/-- It is carved with the bytes of its segment, and without those behind. -/
theorem sizes_dispatch_macho :
    (judgeFirst "macho" 1000 (machoFile ++ [1, 2, 3])).IsFull 96 ∧
      IsGreatest (Macho.format.ends (machoFile ++ [1, 2, 3])) 96 := by
  have hsees : Ctx.Sees ⟨99, 0, 1000, Wasm.sig⟩ (memReader (machoFile ++ [1, 2, 3]))
      (machoFile ++ [1, 2, 3]) := Ctx.sees (memReader_reads _) rfl (by decide)
  have hfull : (judgeFirst "macho" 1000 (machoFile ++ [1, 2, 3])).IsFull 96 := by
    refine ⟨?_, ?_, ?_⟩
    all_goals decide +kernel
  have hmem : ("macho", Macho.format) ∈ sizedFormats := by
    simp [sizedFormats]
  exact ⟨hfull, (((sizes_dispatch hmem).full hsees).1 hfull).2.1⟩

end Sized
end Reclaim
