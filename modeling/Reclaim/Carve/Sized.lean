import Mathlib.Order.Bounds.Basic
import Reclaim.Carve.FileView

/-!
# Formats that say where their file ends

Some headers carry the size of the file, and some have tables of parts from which the end of the
file is the farthest end of a part.  The validators of both accept what is there: all of the file if
the source has it, as truncated what there is of it if not.

A `SizedFormat` says of a format what its validator looks for and where the parts end, over the
bytes of the source and not over reads.  `Sizes` connects a validator to it.
-/

namespace Reclaim

open FileBytes

/-- The verdict accepts what there is, `n` bytes, of a file that is cut short. -/
def Verdict.IsTruncated (v : Verdict) (n : ℕ) : Prop :=
  v.accept = true ∧ v.validity = .truncated ∧ v.len = n

/-- What is accepted of a file of `total` bytes. -/
def Ctx.fitted (ctx : Ctx) (total full truncated : ℕ) (format : Option String) : Verdict :=
  if total ≤ ctx.available then { Verdict.accepted total .full full with format := format }
  else { Verdict.accepted ctx.available .truncated truncated with format := format }

/-! ## Sizes in a header -/

namespace Bmp

/-- The sizes of the known DIB headers. -/
def dibOk (dib : ℕ) : Bool := dib ∈ [12, 40, 52, 56, 64, 108, 124]

/-- `validate`. -/
def validate (ctx : Ctx) : ReadProg Verdict := do
  let head ← ctx.read 0 26
  if head[0]? ≠ some 0x42 ∨ head[1]? ≠ some 0x4D then pure .rejected
  else
    let size := leU32 head 2
    let dataOff := leU32 head 10
    let dib := leU32 head 14
    if !dibOk dib || size < 26 || dataOff < 26 || size < dataOff then pure .rejected
    else pure (ctx.fitted size 88 50 none)

end Bmp

namespace Riff

/-- The id that a form type stands for. -/
def formId (form : Bytes) : Option String :=
  if form = [0x57, 0x41, 0x56, 0x45] then some "audio.wav"
  else if form = [0x41, 0x56, 0x49, 0x20] then some "video.avi"
  else if form = [0x57, 0x45, 0x42, 0x50] then some "image.webp"
  else none

/-- `finalize`. -/
def finalize (ctx : Ctx) (total : ℕ) (id : String) (score : ℕ) : Verdict :=
  if total < 12 then .rejected else ctx.fitted total score (score - 35) (some id)

/-- `validate`. -/
def validate (ctx : Ctx) : ReadProg Verdict := do
  let head ← ctx.read 0 12
  if head.take 4 ≠ [0x52, 0x49, 0x46, 0x46] then
    -- a large WAV, of which only the magic is looked at
    if head.take 4 = [0x52, 0x46, 0x36, 0x34] then pure (finalize ctx u32Max "audio.wav" 60)
    else pure .rejected
  else
    match formId ((head.drop 8).take 4) with
    | some id => pure (finalize ctx (saturatingAdd (leU32 head 4) 8) id 88)
    | none => pure .rejected

end Riff

namespace Iff

/-- `validate`. -/
def validate (ctx : Ctx) : ReadProg Verdict := do
  let head ← ctx.read 0 12
  if head.take 4 ≠ [0x46, 0x4F, 0x52, 0x4D] then pure .rejected
  else
    let form := (head.drop 8).take 4
    if form ≠ [0x41, 0x49, 0x46, 0x46] ∧ form ≠ [0x41, 0x49, 0x46, 0x43] then pure .rejected
    else
      let total := saturatingAdd (beU32 head 4) 8
      if total < 12 then pure .rejected else pure (ctx.fitted total 88 50 (some "audio.aiff"))

end Iff

namespace Sevenz

/-- `MAGIC`. -/
def magic : Bytes := [0x37, 0x7A, 0xBC, 0xAF, 0x27, 0x1C]

/-- `validate`. -/
def validate (ctx : Ctx) : ReadProg Verdict := do
  let head ← ctx.read 0 32
  if head.take 6 ≠ magic then pure .rejected
  else
    let total := saturatingAdd (saturatingAdd 32 (leU64 head 12)) (leU64 head 20)
    if total < 32 then pure .rejected else pure (ctx.fitted total 90 50 none)

end Sevenz

namespace Sqlite

/-- `MAGIC`: `SQLite format 3` and a zero. -/
def magic : Bytes :=
  [0x53, 0x51, 0x4C, 0x69, 0x74, 0x65, 0x20, 0x66, 0x6F, 0x72, 0x6D, 0x61, 0x74, 0x20, 0x33, 0x00]

/-- The page size that the header field stands for. -/
def pageSize (raw : ℕ) : ℕ := if raw = 1 then 65536 else raw

/-- `validate`. -/
def validate (ctx : Ctx) : ReadProg Verdict := do
  let head ← ctx.read 0 100
  if head.take 16 ≠ magic then pure .rejected
  else
    let pageSize := pageSize (beU16 head 16)
    if pageSize < 512 ∨ ¬ pageSize.isPowerOfTwo then pure .rejected
    else
      let pageCount := beU32 head 28
      if pageCount = 0 then pure .rejected
      else if 2 < head.getD 18 9 ∨ 2 < head.getD 19 9 then pure .rejected
      else pure (ctx.fitted (saturatingMul pageSize pageCount) 92 55 none)

end Sqlite

namespace IsoImage

/-- `PVD`: where the primary volume descriptor is. -/
def pvd : ℕ := 32768

/-- `validate`. -/
def validate (ctx : Ctx) : ReadProg Verdict := do
  let desc ← ctx.read pvd 256
  if desc[0]? ≠ some 1 ∨ (desc.drop 1).take 5 ≠ [0x43, 0x44, 0x30, 0x30, 0x31] then pure .rejected
  else
    let vss := leU32 desc 80
    let lbs := leU16 desc 128
    if vss = 0 ∨ lbs = 0 ∨ ¬ lbs.isPowerOfTwo then pure .rejected
    else
      let total := saturatingMul vss lbs
      if total < pvd then pure .rejected
      else pure (ctx.fitted total 88 50 (some "archive.iso"))

end IsoImage

/-! ## What the bytes say -/

/-- What a validator looks for in the bytes of a file, and where the parts of the file end. -/
structure SizedFormat where
  Accepts : Bytes → Prop
  ends : Bytes → Set ℕ
  /-- A file that is cut short is kept as far as it goes. -/
  keepsCut : Prop

namespace SizedFormat

/-- A format whose header says the size. -/
def ofSize (accepts : Bytes → Prop) (size : Bytes → ℕ) : SizedFormat where
  Accepts := accepts
  ends g := {size g}
  keepsCut := True

/-- **What the validator of such a format accepts**: a file that ends where its last part does, if
the source has all of it, and what there is of it if not. -/
structure Sizes (F : SizedFormat) (v : Ctx → ReadProg Verdict) : Prop where
  full {R : Reader} {ctx : Ctx} {g : Bytes} {n : ℕ} (h : ctx.Sees R g) :
    ((v ctx).run R).IsFull n ↔ F.Accepts g ∧ IsGreatest (F.ends g) n ∧ n ≤ ctx.available
  truncated {R : Reader} {ctx : Ctx} {g : Bytes} {n : ℕ} (h : ctx.Sees R g) :
    ((v ctx).run R).IsTruncated n ↔
      F.keepsCut ∧ F.Accepts g ∧ (∃ e ∈ F.ends g, ctx.available < e) ∧ n = ctx.available

variable {F : SizedFormat} {v : Ctx → ReadProg Verdict} {R : Reader} {ctx : Ctx} {g : Bytes}
  {total full truncated n : ℕ} {format : Option String}

lemma isFull_fitted : (ctx.fitted total full truncated format).IsFull n ↔
    total ≤ ctx.available ∧ total = n := by
  rw [Ctx.fitted]
  split
  · rename_i hle
    exact ⟨fun h => ⟨hle, h.2.2⟩, fun h => ⟨rfl, rfl, h.2⟩⟩
  · rename_i hle
    exact iff_of_false (fun h => absurd h.2.1 (by decide : Validity.truncated ≠ .full))
      fun h => hle h.1

lemma isTruncated_fitted : (ctx.fitted total full truncated format).IsTruncated n ↔
    ctx.available < total ∧ n = ctx.available := by
  rw [Ctx.fitted]
  split
  · rename_i hle
    exact iff_of_false (fun h => absurd h.2.1 (by decide : Validity.full ≠ .truncated))
      fun h => absurd h.1 (not_lt.2 hle)
  · rename_i hle
    exact ⟨fun h => ⟨not_le.1 hle, h.2.2.symm⟩, fun h => ⟨rfl, rfl, h.2.symm⟩⟩

/-- A validator sizes its format if it accepts what is fitted, and is sure of nothing else. -/
lemma Sizes.of_fitted (hcut : F.keepsCut)
    (h : ∀ {R : Reader} {ctx : Ctx} {g : Bytes}, ctx.Sees R g →
      (F.Accepts g ∧ ∃ total full truncated format, IsGreatest (F.ends g) total ∧
        (v ctx).run R = ctx.fitted total full truncated format) ∨
      (¬ F.Accepts g ∧ ((v ctx).run R).validity = .suspect)) : F.Sizes v where
  full {R ctx g n} hs := by
    obtain ⟨hacc, total, _, _, _, htotal, hrun⟩ | ⟨hacc, hsuspect⟩ := h hs
    · rw [hrun, isFull_fitted]
      constructor
      · rintro ⟨hle, rfl⟩
        exact ⟨hacc, htotal, hle⟩
      · rintro ⟨-, hn, hle⟩
        obtain rfl := hn.unique htotal
        exact ⟨hle, rfl⟩
    · exact iff_of_false (fun hf => absurd (hf.2.1.symm.trans hsuspect) (by decide))
        fun hf => hacc hf.1
  truncated {R ctx g n} hs := by
    obtain ⟨hacc, total, _, _, _, htotal, hrun⟩ | ⟨hacc, hsuspect⟩ := h hs
    · rw [hrun, isTruncated_fitted]
      constructor
      · rintro ⟨hlt, hn⟩
        exact ⟨hcut, hacc, ⟨total, htotal.1, hlt⟩, hn⟩
      · rintro ⟨-, -, ⟨e, he, hlt⟩, hn⟩
        exact ⟨hlt.trans_le (htotal.2 he), hn⟩
    · exact iff_of_false (fun hf => absurd (hf.2.1.symm.trans hsuspect) (by decide))
        fun hf => hacc hf.2.1

/-- The rule for a size in the header. -/
lemma Sizes.of_size {accepts : Bytes → Prop} {size : Bytes → ℕ}
    (h : ∀ {R : Reader} {ctx : Ctx} {g : Bytes}, ctx.Sees R g →
      (accepts g ∧ ∃ full truncated format,
        (v ctx).run R = ctx.fitted (size g) full truncated format) ∨
      (¬ accepts g ∧ (v ctx).run R = .rejected)) : (ofSize accepts size).Sizes v :=
  .of_fitted trivial fun hs => (h hs).imp
    (fun ⟨hacc, full, truncated, format, hrun⟩ =>
      ⟨hacc, _, full, truncated, format, isGreatest_singleton, hrun⟩)
    fun ⟨hacc, hrun⟩ => ⟨hacc, by rw [hrun]; rfl⟩

end SizedFormat

namespace Bmp

/-- A bitmap: the magic, a known DIB header, and pixel data in the file. -/
def format : SizedFormat := .ofSize
  (fun g => byteAt g 0 = 0x42 ∧ byteAt g 1 = 0x4D ∧ dibOk (leValue (slice g 14 4)) ∧
    26 ≤ leValue (slice g 10 4) ∧ leValue (slice g 10 4) ≤ leValue (slice g 2 4))
  fun g => leValue (slice g 2 4)

lemma sizes : format.Sizes validate := .of_size fun {R ctx g} hs => by
  rw [validate]
  simp only [ReadProg.run_bind, ReadProg.run_ite, ReadProg.run_pure, hs.read, leU32]
  rw [leField_slice (by omega), leField_slice (by omega), leField_slice (by omega),
    getElem?_slice (by omega), getElem?_slice (by omega)]
  simp only [Nat.zero_add]
  split_ifs with hmagic hbad
  · refine .inr ⟨fun h => ?_, rfl⟩
    simp [h.1, h.2.1] at hmagic
  · refine .inr ⟨fun h => ?_, rfl⟩
    obtain ⟨-, -, hdib, hoff, hsize⟩ := h
    simp [hdib] at hbad
    omega
  · refine .inl ⟨?_, 88, 50, none, rfl⟩
    simp at hmagic hbad
    exact ⟨hmagic.1, hmagic.2, hbad.1.1.1, hbad.1.2, hbad.2⟩

end Bmp

namespace Riff

/-- A RIFF file of a known form. -/
def format : SizedFormat := .ofSize
  (fun g => slice g 0 4 = [0x52, 0x49, 0x46, 0x46] ∧ (formId (slice g 8 4)).isSome ∧
      4 ≤ leValue (slice g 4 4) ∨ slice g 0 4 = [0x52, 0x46, 0x36, 0x34])
  fun g => if slice g 0 4 = [0x52, 0x46, 0x36, 0x34] then u32Max else leValue (slice g 4 4) + 8

/-- A size of 32 bits and a bit more is far from the limit. -/
lemma saturatingAdd_field {x d : ℕ} (hx : x < 256 ^ 4) (hd : d ≤ 8) : saturatingAdd x d = x + d :=
  min_eq_left (by simp only [u64Max]; omega)

lemma sizes : format.Sizes validate := .of_size fun {R ctx g} hs => by
  have hlt : leValue (slice g 4 4) < 256 ^ 4 := (leValue_lt _).trans_eq (by rw [length_slice])
  rw [validate]
  simp only [ReadProg.run_bind, ReadProg.run_ite, ReadProg.run_pure, hs.read, leU32]
  rw [leField_slice (by omega), take_slice _ _ (by omega), take_drop_slice]
  simp only [Nat.zero_add, Nat.reduceSub, Nat.reduceLeDiff, min_eq_left]
  by_cases hriff : slice g 0 4 = [0x52, 0x49, 0x46, 0x46]
  · have hother : slice g 0 4 ≠ [0x52, 0x46, 0x36, 0x34] := by
      rw [hriff]
      decide
    rw [if_neg (not_not.2 hriff), if_neg hother]
    cases hform : formId (slice g 8 4) with
    | none =>
      refine .inr ⟨?_, rfl⟩
      rintro (⟨-, hsome, -⟩ | hlarge)
      · exact Bool.false_ne_true hsome
      · exact hother hlarge
    | some id =>
      dsimp only
      rw [saturatingAdd_field hlt le_rfl, ReadProg.run_pure, finalize]
      split_ifs with hsmall
      · refine .inr ⟨?_, rfl⟩
        rintro (⟨-, -, hle⟩ | hlarge)
        · omega
        · exact hother hlarge
      · exact .inl ⟨.inl ⟨hriff, rfl, by omega⟩, _, _, _, rfl⟩
  · rw [if_pos hriff]
    split_ifs with hlarge
    · exact .inl ⟨.inr hlarge, _, _, _, rfl⟩
    · exact .inr ⟨fun h => h.elim (fun h => hriff h.1) hlarge, rfl⟩

end Riff

namespace Iff

/-- An AIFF or AIFC file. -/
def format : SizedFormat := .ofSize
  (fun g => slice g 0 4 = [0x46, 0x4F, 0x52, 0x4D] ∧
    (slice g 8 4 = [0x41, 0x49, 0x46, 0x46] ∨ slice g 8 4 = [0x41, 0x49, 0x46, 0x43]) ∧
    4 ≤ leValue (slice g 4 4).reverse)
  fun g => leValue (slice g 4 4).reverse + 8

lemma sizes : format.Sizes validate := .of_size fun {R ctx g} hs => by
  have hlt : leValue (slice g 4 4).reverse < 256 ^ 4 :=
    (leValue_lt _).trans_eq (by rw [List.length_reverse, length_slice])
  rw [validate]
  simp only [ReadProg.run_bind, ReadProg.run_ite, ReadProg.run_pure, hs.read, beU32]
  rw [beField_slice (by omega), take_slice _ _ (by omega), take_drop_slice]
  simp only [Nat.zero_add]
  rw [Riff.saturatingAdd_field hlt le_rfl]
  split_ifs with hmagic hform hsmall
  · exact .inr ⟨fun h => hmagic h.1, rfl⟩
  · exact .inr ⟨fun h => h.2.1.elim hform.1 hform.2, rfl⟩
  · exact .inr ⟨fun h => absurd h.2.2 (by omega), rfl⟩
  · refine .inl ⟨⟨not_not.1 hmagic, ?_, by omega⟩, _, _, _, rfl⟩
    by_contra hneither
    exact hform (not_or.1 hneither)

end Iff

namespace Sevenz

/-- An archive: the magic alone.  The sizes of its parts are added as long as they fit. -/
def format : SizedFormat := .ofSize (fun g => slice g 0 6 = magic) fun g =>
  saturatingAdd (saturatingAdd 32 (leValue (slice g 12 8))) (leValue (slice g 20 8))

lemma sizes : format.Sizes validate := .of_size fun {R ctx g} hs => by
  rw [validate]
  simp only [ReadProg.run_bind, ReadProg.run_ite, ReadProg.run_pure, hs.read, leU64]
  rw [leField_slice (by omega), leField_slice (by omega), take_slice _ _ (by omega)]
  simp only [Nat.zero_add]
  split_ifs with hmagic hsmall
  · exact .inr ⟨fun h => hmagic h, rfl⟩
  · simp only [saturatingAdd, u64Max] at hsmall
    omega
  · exact .inl ⟨not_not.1 hmagic, _, _, _, rfl⟩

end Sevenz

namespace Sqlite

/-- The size of a page of a database. -/
def pageSizeAt (g : Bytes) : ℕ := pageSize (leValue (slice g 16 2).reverse)

/-- A database: pages of a possible size, at least one of them, of a known version. -/
def format : SizedFormat := .ofSize
  (fun g => slice g 0 16 = magic ∧ 512 ≤ pageSizeAt g ∧ (pageSizeAt g).isPowerOfTwo ∧
    leValue (slice g 28 4).reverse ≠ 0 ∧ byteAt g 18 ≤ 2 ∧ byteAt g 19 ≤ 2)
  fun g => pageSizeAt g * leValue (slice g 28 4).reverse

lemma pageSizeAt_le (g : Bytes) : pageSizeAt g ≤ 65536 := by
  have hlt : leValue (slice g 16 2).reverse < 256 ^ 2 :=
    (leValue_lt _).trans_eq (by rw [List.length_reverse, length_slice])
  unfold pageSizeAt pageSize
  split <;> omega

lemma sizes : format.Sizes validate := .of_size fun {R ctx g} hs => by
  have hlt : leValue (slice g 28 4).reverse < 256 ^ 4 :=
    (leValue_lt _).trans_eq (by rw [List.length_reverse, length_slice])
  have hmul := Nat.mul_le_mul (pageSizeAt_le g) hlt.le
  rw [validate]
  simp only [ReadProg.run_bind, ReadProg.run_ite, ReadProg.run_pure, hs.read, beU16, beU32,
    List.getD_eq_getElem?_getD]
  rw [beField_slice (by omega), beField_slice (by omega), take_slice _ _ (by omega),
    getElem?_slice (by omega), getElem?_slice (by omega)]
  simp only [Nat.zero_add, Option.getD_some]
  have hsat := min_eq_left (hmul.trans (by decide : 65536 * 256 ^ 4 ≤ u64Max))
  rw [← pageSizeAt, saturatingMul, hsat]
  split_ifs with hmagic hsize hcount hversion
  · exact .inr ⟨fun h => hmagic h.1, rfl⟩
  · exact .inr ⟨fun h => hsize.elim (not_lt.2 h.2.1) (not_not.2 h.2.2.1), rfl⟩
  · exact .inr ⟨fun h => h.2.2.2.1 hcount, rfl⟩
  · exact .inr ⟨fun h =>
      hversion.elim (UInt8.not_lt.2 h.2.2.2.2.1) (UInt8.not_lt.2 h.2.2.2.2.2), rfl⟩
  · obtain ⟨hsmall, hpow⟩ := not_or.1 hsize
    obtain ⟨hread, hwrite⟩ := not_or.1 hversion
    exact .inl ⟨⟨not_not.1 hmagic, not_lt.1 hsmall, not_not.1 hpow, hcount,
      UInt8.not_lt.1 hread, UInt8.not_lt.1 hwrite⟩, _, _, _, rfl⟩

end Sqlite

namespace IsoImage

/-- An image with a primary volume descriptor, whose size reaches behind what comes before that. -/
def format : SizedFormat := .ofSize
  (fun g => byteAt g pvd = 1 ∧ slice g (pvd + 1) 5 = [0x43, 0x44, 0x30, 0x30, 0x31] ∧
    (leValue (slice g (pvd + 128) 2)).isPowerOfTwo ∧
    pvd ≤ leValue (slice g (pvd + 80) 4) * leValue (slice g (pvd + 128) 2))
  fun g => leValue (slice g (pvd + 80) 4) * leValue (slice g (pvd + 128) 2)

lemma sizes : format.Sizes validate := .of_size fun {R ctx g} hs => by
  have hblocks : leValue (slice g (pvd + 80) 4) < 256 ^ 4 :=
    (leValue_lt _).trans_eq (by rw [length_slice])
  have hsize : leValue (slice g (pvd + 128) 2) < 256 ^ 2 :=
    (leValue_lt _).trans_eq (by rw [length_slice])
  have hmul := Nat.mul_le_mul hblocks.le hsize.le
  rw [validate]
  simp only [ReadProg.run_bind, ReadProg.run_ite, ReadProg.run_pure, hs.read, leU16, leU32]
  have hsat := min_eq_left (hmul.trans (by decide : 256 ^ 4 * 256 ^ 2 ≤ u64Max))
  rw [leField_slice (by omega), leField_slice (by omega), take_drop_slice,
    getElem?_slice (by omega), saturatingMul, hsat]
  simp only [Nat.add_zero, ne_eq, Option.some.injEq]
  split_ifs with hmagic hzero hsmall
  · exact .inr ⟨fun h => hmagic.elim (not_not.2 h.1) (not_not.2 h.2.1), rfl⟩
  · refine .inr ⟨fun ⟨_, _, hpow, hle⟩ => ?_, rfl⟩
    rcases hzero with hzero | hzero | hzero
    · rw [hzero, Nat.zero_mul] at hle
      exact absurd hle (by decide)
    · rw [hzero, Nat.mul_zero] at hle
      exact absurd hle (by decide)
    · exact hzero hpow
  · exact .inr ⟨fun h => absurd h.2.2.2 (not_le.2 hsmall), rfl⟩
  · obtain ⟨htype, hid⟩ := not_or.1 hmagic
    obtain ⟨-, hzero⟩ := not_or.1 hzero
    exact .inl ⟨⟨not_not.1 htype, not_not.1 hid, not_not.1 (not_or.1 hzero).2, not_lt.1 hsmall⟩,
      _, _, _, rfl⟩

end IsoImage
end Reclaim
