import Reclaim.Carve.FileView

/-!
# MP3 files

An MP3 file is a list of audio frames, each with a header of four bytes from which its length
follows.  A tag may stand before them and says how long it is, and a tag of 128 bytes behind them.
Nothing else ends the list, so the validator goes on as long as frames follow.
-/

namespace Reclaim

open FileBytes

namespace Mp3

/-- `MAX`. -/
def maxSize : ℕ := 1024 * 1024 * 1024

/-- `MAX_FRAMES`. -/
def maxFrames : ℕ := 5000000

/-- `BITRATE`: in thousands of bits a second, of version 1 and of the others. -/
def bitrates : List (List ℕ) :=
  [[0, 32, 40, 48, 56, 64, 80, 96, 112, 128, 160, 192, 224, 256, 320, 0],
    [0, 8, 16, 24, 32, 40, 48, 56, 64, 80, 96, 112, 128, 144, 160, 0]]

/-- `SRATE`: samples a second, of versions 1, 2 and 2.5. -/
def srates : List (List ℕ) :=
  [[44100, 48000, 32000, 0], [22050, 24000, 16000, 0], [11025, 12000, 8000, 0]]

/-- The rows of the tables for the bits that say the version. -/
def tablesOf (version : ℕ) : Option (ℕ × ℕ) :=
  if version = 3 then some (0, 0)
  else if version = 2 then some (1, 1)
  else if version = 0 then some (1, 2)
  else none

/-- `frame_len`: the length of a frame of Layer III. -/
def frameLen (h : Bytes) : Option ℕ := do
  let b1 ← h[1]?.map UInt8.toNat
  let b2 ← h[2]?.map UInt8.toNat
  let version := b1 / 8 % 4
  if b1 / 2 % 4 ≠ 1 then none
  else do
    let (vtab, srtab) ← tablesOf version
    let bitrate ← (bitrates[vtab]?).bind fun row => row[b2 / 16 % 16]?
    let srate ← (srates[srtab]?).bind fun row => row[b2 / 4 % 4]?
    if bitrate = 0 ∨ srate = 0 then none
    else
      let coeff := if version = 3 then 144000 else 72000
      some (coeff * bitrate / srate + b2 / 2 % 2)

/-- The bytes begin with the eleven set bits of a frame. -/
def Synced (h : Bytes) : Prop := h.getD 0 0 = 0xFF ∧ h.getD 1 0 &&& 0xE0 = 0xE0

instance (h : Bytes) : Decidable (Synced h) := inferInstanceAs (Decidable (_ ∧ _))

/-- `syncsafe`: a number of four times seven bits. -/
def syncsafe (b : Bytes) : ℕ :=
  let v i := (b.getD i 0).toNat % 128
  v 0 * 2 ^ 21 + v 1 * 2 ^ 14 + v 2 * 2 ^ 7 + v 3

/-- `ID3`. -/
def id3 : Bytes := [0x49, 0x44, 0x33]

/-- `TAG`. -/
def tag : Bytes := [0x54, 0x41, 0x47]

/-- The frames from `pos` on, `fuel` at most: how many there are, with `frames` before, and where
they end. -/
def walk (ctx : Ctx) (cap : ℕ) : (fuel pos frames : ℕ) → ReadProg (ℕ × ℕ)
  | 0, pos, frames => pure (frames, pos)
  | fuel + 1, pos, frames => do
    let h ← ctx.read pos 4
    if ¬ Synced h then pure (frames, pos)
    else
      match frameLen h with
      | none => pure (frames, pos)
      | some len =>
        if 4 ≤ len ∧ pos + len ≤ cap then walk ctx cap fuel (pos + len) (frames + 1)
        else pure (frames, pos)

/-- Where the frames begin: behind the tag if there is one. -/
def start (ctx : Ctx) (head : Bytes) : ReadProg (Option ℕ) :=
  if head.take 3 = id3 then do
    let s ← ctx.read 6 4
    pure (some (10 + syncsafe s))
  else if head.head? ≠ some 0xFF then pure none
  else pure (some 0)

/-- A file of which no two frames are found: the tag alone. -/
def loneTag (ctx : Ctx) (cap start : ℕ) : ReadProg Verdict := do
  let head ← ctx.read 0 3
  if 16 ≤ start ∧ head = id3 then
    pure { Verdict.accepted (min start cap) .suspect 40 with format := some "audio.mp3" }
  else pure .rejected

/-- What is accepted up to `pos`. -/
def finish (cap pos : ℕ) : Verdict :=
  { Verdict.accepted (min pos cap) (if pos ≤ cap then .full else .truncated) 80 with
    format := some "audio.mp3" }

/-- `validate`. -/
def validate (ctx : Ctx) : ReadProg Verdict := do
  let head ← ctx.read 0 10
  match ← start ctx head with
  | none => pure .rejected
  | some start =>
    let cap := min ctx.available maxSize
    let (frames, pos) ← walk ctx cap maxFrames start 0
    if frames < 2 then loneTag ctx cap start
    else do
      let behind ← ctx.read pos 3
      pure (finish cap (if behind = tag then pos + 128 else pos))

/-! ## The format -/

/-- A tag before the frames. -/
structure Intro where
  /-- Version and flags. -/
  kind : Bytes
  size : Bytes
  body : Bytes
  kind_length : kind.length = 3
  size_length : size.length = 4
  size_eq : syncsafe size = body.length

/-- A frame. -/
structure Frame where
  header : Bytes
  payload : Bytes
  header_length : header.length = 4
  synced : Synced header
  length_eq : frameLen header = some (4 + payload.length)

/-- A tag behind the frames. -/
structure Outro where
  body : Bytes
  body_length : body.length = 125

/-- The bytes of a tag before the frames. -/
def Intro.bytes (i : Intro) : Bytes := id3 ++ (i.kind ++ (i.size ++ i.body))

/-- The bytes of a frame. -/
def Frame.bytes (f : Frame) : Bytes := f.header ++ f.payload

/-- The bytes of a tag behind the frames. -/
def Outro.bytes (o : Outro) : Bytes := tag ++ o.body

/-- An MP3 file. -/
structure File where
  intro : Option Intro
  frames : List Frame
  outro : Option Outro

/-- The bytes of the parts that may be there. -/
def introBytes (i : Option Intro) : Bytes := i.elim [] Intro.bytes

def outroBytes (o : Option Outro) : Bytes := o.elim [] Outro.bytes

/-- The bytes of a file. -/
def File.bytes (f : File) : Bytes :=
  introBytes f.intro ++ (f.frames.flatMap Frame.bytes ++ outroBytes f.outro)

/-- Bytes begin a frame that ends within `room` bytes. -/
def StartsFrame (b : Bytes) (room : ℕ) : Prop :=
  Synced (slice b 0 4) ∧ ∃ len ∈ frameLen (slice b 0 4), 4 ≤ len ∧ len ≤ room

/-! ## The walk -/

section Walk

variable {R : Reader} {ctx : Ctx} {g t : Bytes} {cap fuel pos frames n m : ℕ} {f : Frame}

@[simp] lemma Frame.length_bytes (f : Frame) : f.bytes.length = 4 + f.payload.length := by
  rw [Frame.bytes, List.length_append, f.header_length]

/-- The first bytes of a frame are its header. -/
lemma Frame.slice_bytes (f : Frame) (x : Bytes) : slice (f.bytes ++ x) 0 4 = f.header := by
  rw [Frame.bytes, List.append_assoc, ← f.header_length]
  exact slice_append_length _ _

/-- **One frame of the walk.** -/
lemma run_walk_frame (h : ctx.Sees R g) (hg : g.drop pos = f.bytes ++ t)
    (hcap : pos + f.bytes.length ≤ cap) :
    (walk ctx cap (fuel + 1) pos frames).run R =
      (walk ctx cap fuel (pos + f.bytes.length) (frames + 1)).run R := by
  have hlen := f.length_bytes
  rw [walk]
  simp only [ReadProg.run_bind, h.read]
  rw [slice_eq_slice_drop, hg, f.slice_bytes, if_neg (not_not.2 f.synced), f.length_eq]
  dsimp only
  rw [if_pos ⟨by omega, by omega⟩, hlen]

/-- **The walk goes through the frames.** -/
lemma run_walk_frames (h : ctx.Sees R g) {fs : List Frame}
    (hg : g.drop pos = fs.flatMap Frame.bytes ++ t)
    (hcap : pos + (fs.flatMap Frame.bytes).length ≤ cap) :
    (walk ctx cap (n + fs.length) pos m).run R =
      (walk ctx cap n (pos + (fs.flatMap Frame.bytes).length) (m + fs.length)).run R := by
  induction fs generalizing pos m with
  | nil => rfl
  | cons f rest ih =>
    rw [List.flatMap_cons, List.append_assoc] at hg
    rw [List.flatMap_cons, List.length_append] at hcap ⊢
    have hrest : g.drop (pos + f.bytes.length) = rest.flatMap Frame.bytes ++ t := by
      rw [← List.drop_drop, hg, List.drop_left]
    rw [List.length_cons, ← Nat.add_assoc, run_walk_frame h hg (by omega),
      ih hrest (by omega)]
    congr 2 <;> omega

/-- Where no frame begins the walk stays. -/
lemma run_walk_here (h : ctx.Sees R g)
    (hstop : fuel = 0 ∨ ¬ StartsFrame (g.drop pos) (cap - pos)) :
    (walk ctx cap fuel pos frames).run R = (frames, pos) := by
  cases fuel with
  | zero => rfl
  | succ fuel =>
    have hnone := hstop.resolve_left (Nat.succ_ne_zero fuel)
    rw [walk]
    simp only [ReadProg.run_bind, ReadProg.run_ite, h.read]
    rw [slice_eq_slice_drop]
    split_ifs with hsync
    · cases hlen : frameLen (slice (g.drop pos) 0 4) with
      | none => rfl
      | some len =>
        dsimp only
        rw [if_neg]
        · rfl
        · exact fun hfits => hnone ⟨hsync, len, hlen, hfits.1, by omega⟩
    · rfl

/-- The walk does not go back. -/
lemma le_run_walk : pos ≤ ((walk ctx cap fuel pos frames).run R).2 := by
  induction fuel generalizing pos frames with
  | zero => exact le_rfl
  | succ fuel ih =>
    rw [walk]
    simp only [ReadProg.run_bind, ReadProg.run_ite]
    split_ifs
    · split
      · exact Nat.le_refl pos
      · rw [ReadProg.run_ite]
        split_ifs
        · exact (Nat.le_add_right _ _).trans ih
        · exact Nat.le_refl pos
    · exact Nat.le_refl pos

/-- Where a frame begins the walk goes on. -/
lemma lt_run_walk (h : ctx.Sees R g) (hstart : StartsFrame (g.drop pos) (cap - pos)) :
    pos < ((walk ctx cap (fuel + 1) pos frames).run R).2 := by
  obtain ⟨hsync, len, hlen, hfour, hroom⟩ := hstart
  rw [walk]
  simp only [ReadProg.run_bind, ReadProg.run_ite, h.read]
  rw [slice_eq_slice_drop, if_neg (not_not.2 hsync), hlen]
  dsimp only
  rw [if_pos ⟨hfour, by omega⟩]
  exact (Nat.lt_add_of_pos_right (by omega)).trans_le le_run_walk

end Walk

/-! ## A file and what follows it -/

section Exact

variable {R : Reader} {ctx : Ctx} {f : File} {g T : Bytes} {cap pos n : ℕ}

lemma isFull_finish : (finish cap pos).IsFull n ↔ pos ≤ cap ∧ pos = n := by
  unfold finish
  split_ifs with hle
  · exact ⟨fun hf => ⟨hle, (min_eq_left hle).symm.trans hf.2.2⟩, fun hf =>
      ⟨rfl, rfl, (min_eq_left hle).trans hf.2⟩⟩
  · exact iff_of_false (fun hf => absurd hf.2.1 (by decide : Validity.truncated ≠ .full))
      fun hf => hle hf.1

lemma not_isFull_loneTag : ¬ ((loneTag ctx cap pos).run R).IsFull n := by
  rw [loneTag]
  simp only [ReadProg.run_bind, ReadProg.run_ite, ReadProg.run_pure]
  split_ifs
  · exact fun hf => absurd hf.2.1 (by decide : Validity.suspect ≠ .full)
  · exact Verdict.not_isFull_rejected

lemma Intro.length_bytes (i : Intro) : i.bytes.length = 10 + i.body.length := by
  simp only [Intro.bytes, id3, List.length_append, List.length_cons, List.length_nil,
    i.kind_length, i.size_length]
  omega

lemma Outro.length_bytes (o : Outro) : o.bytes.length = 128 := by
  simp only [Outro.bytes, tag, List.length_append, List.length_cons, List.length_nil, o.body_length]

/-- A frame begins with a set byte. -/
lemma Frame.byteAt_bytes (f : Frame) (x : Bytes) : byteAt (f.bytes ++ x) 0 = 0xFF := by
  have hlen := f.header_length
  rw [byteAt_append, f.length_bytes, if_pos (by omega), Frame.bytes, byteAt_append,
    if_pos (by omega)]
  exact f.synced.1

/-- **Where the frames begin**: behind the tag, or at the first byte. -/
lemma run_start (i : Option Intro) (h : ctx.Sees R (introBytes i ++ T)) (hT : byteAt T 0 = 0xFF) :
    (start ctx (slice (introBytes i ++ T) 0 10)).run R = some (introBytes i).length := by
  rw [start]
  simp only [ReadProg.run_bind, ReadProg.run_ite, ReadProg.run_pure, h.read]
  rw [take_slice _ _ (by omega), List.head?_eq_getElem?, getElem?_slice (by omega), Nat.zero_add]
  cases i with
  | some i =>
    have hid : slice (introBytes (some i) ++ T) 0 3 = id3 := by
      rw [introBytes, Option.elim_some, Intro.bytes, List.append_assoc]
      exact slice_append_length id3 _
    have hsize : slice (introBytes (some i) ++ T) 6 4 = i.size := by
      have hbetween := slice_between (id3 ++ i.kind) i.size (i.body ++ T)
      rw [List.length_append, i.kind_length, i.size_length] at hbetween
      rw [← hbetween]
      simp [introBytes, Intro.bytes, id3]
    rw [if_pos hid, hsize, i.size_eq, introBytes, Option.elim_some, i.length_bytes]
  | none =>
    have hid : slice T 0 3 ≠ id3 := fun hid => by
      have hfirst := congrArg List.head? hid
      rw [List.head?_eq_getElem?, getElem?_slice (by omega), hT] at hfirst
      exact absurd hfirst (by decide)
    rw [introBytes, Option.elim_none, List.nil_append, if_neg hid, hT, if_neg (not_not.2 rfl)]
    rfl

/-- Where the frames end and no more begin, the validator looks for a tag. -/
lemma run_validate (h : ctx.Sees R g) {start frames : ℕ}
    (hstart : (Mp3.start ctx (slice g 0 10)).run R = some start)
    (hwalk : (walk ctx (min ctx.available maxSize) maxFrames start 0).run R = (frames, pos)) :
    (validate ctx).run R =
      if frames < 2 then (loneTag ctx (min ctx.available maxSize) start).run R
      else finish (min ctx.available maxSize) (if slice g pos 3 = tag then pos + 128 else pos) := by
  rw [validate]
  simp only [ReadProg.run_bind, h.read, hstart, hwalk, ReadProg.run_ite, ReadProg.run_pure]

/-- What the validator sees of a file: frames from `start` on, and `U` behind them. -/
structure Framed (ctx : Ctx) (R : Reader) (g : Bytes) (start : ℕ) (fs : List Frame) (U : Bytes) :
    Prop where
  sees : ctx.Sees R g
  starts : (Mp3.start ctx (slice g 0 10)).run R = some start
  frames : g.drop start = fs.flatMap Frame.bytes ++ U
  two_le : 2 ≤ fs.length
  le_max : fs.length ≤ maxFrames
  le_cap : start + (fs.flatMap Frame.bytes).length ≤ min ctx.available maxSize

namespace Framed

variable {start stop fuel : ℕ} {fs : List Frame} {U : Bytes} (d : Framed ctx R g start fs U)
include d

lemma behind : g.drop (start + (fs.flatMap Frame.bytes).length) = U := by
  rw [← List.drop_drop, d.frames, List.drop_left]

/-- The walk comes to the end of the frames with the fuel that is left. -/
lemma run_walk (hfuel : fuel + fs.length = maxFrames) :
    (walk ctx (min ctx.available maxSize) maxFrames start 0).run R =
      (walk ctx (min ctx.available maxSize) fuel (start + (fs.flatMap Frame.bytes).length)
        fs.length).run R := by
  have hrun := run_walk_frames (n := fuel) (m := 0) d.sees d.frames d.le_cap
  rwa [hfuel, Nat.zero_add] at hrun

/-- Where it stays there, the tag decides. -/
lemma run_validate_stay (hstay : fs.length = maxFrames ∨
      ¬ StartsFrame U (min ctx.available maxSize - (start + (fs.flatMap Frame.bytes).length))) :
    (validate ctx).run R = finish (min ctx.available maxSize)
      (if slice U 0 3 = tag then start + (fs.flatMap Frame.bytes).length + 128
        else start + (fs.flatMap Frame.bytes).length) := by
  obtain ⟨fuel, hfuel⟩ := Nat.exists_eq_add_of_le' d.le_max
  have hstop : fuel = 0 ∨ ¬ StartsFrame (g.drop (start + (fs.flatMap Frame.bytes).length))
      (min ctx.available maxSize - (start + (fs.flatMap Frame.bytes).length)) := by
    rw [d.behind]
    exact hstay.imp_left fun h => by omega
  have hwalk := (d.run_walk hfuel.symm).trans (run_walk_here d.sees hstop)
  rw [run_validate d.sees d.starts hwalk, if_neg (not_lt.2 d.two_le), slice_eq_slice_drop, d.behind]

/-- **When the frames are the file.** -/
lemma isFull_iff : ((validate ctx).run R).IsFull (start + (fs.flatMap Frame.bytes).length) ↔
    (fs.length = maxFrames ∨
      ¬ StartsFrame U (min ctx.available maxSize - (start + (fs.flatMap Frame.bytes).length))) ∧
      slice U 0 3 ≠ tag := by
  have hcap := d.le_cap
  by_cases hstay : fs.length = maxFrames ∨
      ¬ StartsFrame U (min ctx.available maxSize - (start + (fs.flatMap Frame.bytes).length))
  · rw [d.run_validate_stay hstay, isFull_finish]
    split_ifs with htag
    · exact iff_of_false (by omega) fun h => h.2 htag
    · exact iff_of_true ⟨hcap, rfl⟩ ⟨hstay, htag⟩
  · obtain ⟨hmax, hframe⟩ := not_or.1 hstay
    obtain ⟨fuel, hfuel⟩ := Nat.exists_eq_add_of_lt (lt_of_le_of_ne d.le_max hmax)
    have hlt : start + (fs.flatMap Frame.bytes).length <
        ((walk ctx (min ctx.available maxSize) maxFrames start 0).run R).2 := by
      rw [d.run_walk (by omega : fuel + 1 + fs.length = maxFrames)]
      exact lt_run_walk d.sees (by rw [d.behind]; exact not_not.1 hframe)
    refine iff_of_false (fun hf => ?_) fun h => hstay h.1
    generalize hwalk : (walk ctx (min ctx.available maxSize) maxFrames start 0).run R = w at hlt
    rw [run_validate d.sees d.starts hwalk] at hf
    split_ifs at hf
    · exact not_isFull_loneTag hf
    · have := (isFull_finish.1 hf).2
      omega
    · have := (isFull_finish.1 hf).2
      omega

/-- With a tag behind the frames, that is part of the file. -/
lemma isFull_tag (htag : slice U 0 3 = tag)
    (hcap : start + (fs.flatMap Frame.bytes).length + 128 ≤ min ctx.available maxSize) :
    ((validate ctx).run R).IsFull (start + (fs.flatMap Frame.bytes).length + 128) := by
  have hnone : ¬ StartsFrame U
      (min ctx.available maxSize - (start + (fs.flatMap Frame.bytes).length)) := fun hframe => by
    have hsync : byteAt U 0 = 0xFF := by
      have hfirst := hframe.1.1
      rwa [List.getD_eq_getElem?_getD, getElem?_slice (by omega)] at hfirst
    have hfirst := congrArg List.head? htag
    rw [List.head?_eq_getElem?, getElem?_slice (by omega), Nat.zero_add, hsync] at hfirst
    exact absurd hfirst (by decide)
  rw [d.run_validate_stay (.inr hnone), if_pos htag]
  exact isFull_finish.2 ⟨hcap, rfl⟩

end Framed

/-- **When the length is right**: the file ends with a tag, or the walk has gone through all frames
that it may, or what follows begins no frame that the cap leaves room for; and it does not begin
like the tag that the file does not have. -/
theorem file_exact_iff (f : File) (h : ctx.Sees R (f.bytes ++ T))
    (hcap : f.bytes.length ≤ min ctx.available maxSize) (htwo : 2 ≤ f.frames.length)
    (hcount : f.frames.length ≤ maxFrames) :
    ((validate ctx).run R).IsFull f.bytes.length ↔
      f.outro.isSome ∨ ((f.frames.length = maxFrames ∨
        ¬ StartsFrame T (min ctx.available maxSize - f.bytes.length)) ∧ slice T 0 3 ≠ tag) := by
  obtain ⟨intro, frames, outro⟩ := f
  dsimp only at htwo hcount ⊢
  have hbytes : (File.mk intro frames outro).bytes ++ T = introBytes intro ++
      (frames.flatMap Frame.bytes ++ (outroBytes outro ++ T)) := by
    simp only [File.bytes, List.append_assoc]
  have hlen : (File.mk intro frames outro).bytes.length =
      (introBytes intro).length + (frames.flatMap Frame.bytes).length +
        (outroBytes outro).length := by
    simp only [File.bytes, List.length_append, Nat.add_assoc]
  have hfirst : byteAt (frames.flatMap Frame.bytes ++ (outroBytes outro ++ T)) 0 = 0xFF := by
    cases frames with
    | nil => exact absurd htwo (by simp)
    | cons f rest =>
      rw [List.flatMap_cons, List.append_assoc]
      exact f.byteAt_bytes _
  rw [hbytes] at h
  have d : Framed ctx R _ _ frames (outroBytes outro ++ T) :=
    ⟨h, run_start intro h hfirst, List.drop_left, htwo, hcount, by omega⟩
  cases outro with
  | some o =>
    have hout : (outroBytes (some o)).length = 128 := o.length_bytes
    have htag : slice (outroBytes (some o) ++ T) 0 3 = tag := by
      rw [outroBytes, Option.elim_some, Outro.bytes, List.append_assoc]
      exact slice_append_length tag _
    rw [hlen, hout] at hcap ⊢
    exact iff_of_true (d.isFull_tag htag hcap) (.inl rfl)
  | none =>
    have hout : (outroBytes none).length = 0 := rfl
    rw [hlen, hout]
    exact d.isFull_iff.trans (or_iff_right Bool.false_ne_true).symm

/-- `audio.mp3` of the catalog. -/
def sig : SigDef where
  id := "audio.mp3"
  family := "audio"
  extensions := ["mp3"]
  headers := [.exact 0 id3, .exact 0 [0xFF, 0xFB], .exact 0 [0xFF, 0xFA], .exact 0 [0xFF, 0xF3],
    .exact 0 [0xFF, 0xF2], .exact 0 [0xFF, 0xE3]]
  footer := none
  minSize := 128
  strategy := .structural
  validator := some "mp3"
  blockAligned := true
  footerAnchored := false

/-- The shortest frame of version 2: 8 kbit a second at 24 kHz. -/
def shortFrame : Frame where
  header := [0xFF, 0xF3, 0x14, 0x00]
  payload := List.replicate 20 0x55
  header_length := rfl
  synced := by decide
  length_eq := by decide

/-- Two frames, and zeros behind them. -/
theorem mp3_zeros_exact :
    ((validate ⟨60, 0, 1000, sig⟩).run
      (memReader ((File.mk none [shortFrame, shortFrame] none).bytes ++
        List.replicate 12 0))).IsFull 48 := by
  have hsees : Ctx.Sees ⟨60, 0, 1000, sig⟩
      (memReader ((File.mk none [shortFrame, shortFrame] none).bytes ++ List.replicate 12 0))
      ((File.mk none [shortFrame, shortFrame] none).bytes ++ List.replicate 12 0) :=
    Ctx.sees (memReader_reads _) rfl (by decide)
  have hzero : ¬ StartsFrame (List.replicate 12 0) (min 60 maxSize - 48) := fun h =>
    absurd h.1 (by decide)
  exact (file_exact_iff _ hsees (by decide) (by decide) (by decide)).2
    (.inr ⟨.inr hzero, by decide⟩)

end Exact

end Mp3
end Reclaim

/-!
## MPEG transport streams

A transport stream is packets of 188 bytes, each with a sync byte first, or of 192 with four bytes
more before that.  Nothing says how many there are: the validator counts the packets up to the first
that does not begin as it should.
-/

namespace Reclaim

open FileBytes

namespace MpegTs

/-- `MAX`. -/
def maxSize : ℕ := 16 * 1024 * 1024 * 1024

/-- The most packets that are counted. -/
def maxPackets : ℕ := 50000000

/-- The size of a packet, by where the first sync byte is. -/
def strideOf (probe : Bytes) : Option ℕ :=
  if probe.head? = some 0x47 then some 188
  else if probe[4]? = some 0x47 then some 192
  else none

/-- Where the sync byte of a packet is. -/
def syncOff (stride : ℕ) : ℕ := if stride = 192 then 4 else 0

/-- The packets from `pos` on, `fuel` at most: how many there are, with `packets` before, and where
they end. -/
def walk (ctx : Ctx) (cap stride : ℕ) : (fuel pos packets : ℕ) → ReadProg (ℕ × ℕ)
  | 0, pos, packets => pure (packets, pos)
  | fuel + 1, pos, packets => do
    let b ← ctx.read (pos + syncOff stride) 1
    if b.head? ≠ some 0x47 then pure (packets, pos)
    else if cap < pos + stride then pure (packets + 1, cap)
    else walk ctx cap stride fuel (pos + stride) (packets + 1)

/-- `validate`. -/
def validate (ctx : Ctx) : ReadProg Verdict := do
  let probe ← ctx.read 0 (188 * 6)
  match strideOf probe with
  | none => pure .rejected
  | some stride =>
    if ¬ ∀ i < 5, probe[syncOff stride + i * stride]? = some 0x47 then pure .rejected
    else do
      let cap := min ctx.available maxSize
      let (packets, pos) ← walk ctx cap stride maxPackets 0 0
      if packets < 5 then pure .rejected
      else pure { Verdict.accepted (min pos cap) .full 80 with format := some "video.mpeg_ts" }

/-! ## The run of packets -/

/-- Packet `k` begins with a sync byte. -/
def Synced (g : Bytes) (stride k : ℕ) : Prop := byteAt g (k * stride + syncOff stride) = 0x47

instance (g : Bytes) (stride k : ℕ) : Decidable (Synced g stride k) :=
  inferInstanceAs (Decidable (_ = _))

/-- **The run**: `m` packets one after the other, the last of which may reach behind the cap, and
nothing more that is counted. -/
structure IsRun (g : Bytes) (cap stride m : ℕ) : Prop where
  synced : ∀ k < m, Synced g stride k
  before : ∀ k < m, k * stride ≤ cap
  ends : m = maxPackets ∨ ¬ Synced g stride m ∨ cap < m * stride
  le_max : m ≤ maxPackets

section Walk

variable {R : Reader} {ctx : Ctx} {g : Bytes} {cap stride fuel k m n : ℕ}

/-- There is one run. -/
lemma IsRun.unique (h : IsRun g cap stride m) (h' : IsRun g cap stride n) : m = n := by
  have hle : ∀ {m n}, IsRun g cap stride m → IsRun g cap stride n → m ≤ n := by
    intro m n hm hn
    by_contra hlt
    rcases hn.ends with hmax | hsync | hcap
    · exact hlt (hmax ▸ hm.le_max)
    · exact hsync (hm.synced n (not_le.1 hlt))
    · exact absurd (hm.before n (not_le.1 hlt)) (not_le.2 hcap)
  exact le_antisymm (hle h h') (hle h' h)

/-- **What the walk counts**, from a packet within the cap on. -/
lemma run_walk (h : ctx.Sees R g) (hsync : ∀ j < k, Synced g stride j)
    (hbefore : ∀ j ≤ k, j * stride ≤ cap) (hfuel : fuel + k = maxPackets) :
    ∃ m, IsRun g cap stride m ∧
      (walk ctx cap stride fuel (k * stride) k).run R = (m, min (m * stride) cap) := by
  induction fuel generalizing k with
  | zero =>
    refine ⟨k, ⟨hsync, fun j hj => hbefore j hj.le, .inl (by omega), by omega⟩, ?_⟩
    rw [min_eq_left (hbefore k le_rfl)]
    rfl
  | succ fuel ih =>
    rw [walk]
    simp only [ReadProg.run_bind, ReadProg.run_ite, ReadProg.run_pure, h.read]
    rw [List.head?_eq_getElem?, getElem?_slice (by omega), Nat.add_zero]
    have hstep : k * stride + stride = (k + 1) * stride := (Nat.succ_mul k stride).symm
    by_cases hk : Synced g stride k
    · have hsync' : ∀ j < k + 1, Synced g stride j := fun j hj =>
        (Nat.lt_succ_iff_lt_or_eq.1 hj).elim (hsync j) fun hjk => hjk ▸ hk
      rw [if_neg (not_not.2 (congrArg some hk)), hstep]
      split_ifs with hcap
      · refine ⟨k + 1, ⟨hsync', fun j hj => hbefore j (Nat.lt_succ_iff.1 hj), .inr (.inr hcap),
          by omega⟩, ?_⟩
        rw [min_eq_right hcap.le]
      · refine ih hsync' (fun j hj => ?_) (by omega)
        rcases Nat.le_succ_iff.1 hj with hj | rfl
        · exact hbefore j hj
        · exact not_lt.1 hcap
    · rw [if_pos fun heq => hk (Option.some.inj heq)]
      refine ⟨k, ⟨hsync, fun j hj => hbefore j hj.le, .inr (.inl hk), by omega⟩, ?_⟩
      rw [min_eq_left (hbefore k le_rfl)]

/-- **What is accepted**: a run of five packets or more, as complete up to the cap. -/
theorem isFull_iff (h : ctx.Sees R g) :
    ((validate ctx).run R).IsFull n ↔ ∃ stride m, strideOf (slice g 0 (188 * 6)) = some stride ∧
      5 ≤ m ∧ IsRun g (min ctx.available maxSize) stride m ∧
        n = min (m * stride) (min ctx.available maxSize) := by
  set cap := min ctx.available maxSize with hcap
  rw [validate]
  simp only [ReadProg.run_bind, h.read]
  cases hstride : strideOf (slice g 0 (188 * 6)) with
  | none => exact iff_of_false Verdict.not_isFull_rejected fun ⟨_, _, hsome, _⟩ => nomatch hsome
  | some stride =>
    have hle : stride ≤ 192 := by
      unfold strideOf at hstride
      split_ifs at hstride <;> obtain rfl := Option.some.inj hstride <;> decide
    have hoff : syncOff stride ≤ 4 := by
      unfold syncOff
      split <;> omega
    -- the probe reaches over the first five packets
    have hprobe : ∀ i < 5, (slice g 0 (188 * 6))[syncOff stride + i * stride]? = some 0x47 ↔
        Synced g stride i := fun i hi => by
      have hfar : i * stride ≤ 4 * 192 := Nat.mul_le_mul (by omega) hle
      rw [getElem?_slice (by omega), Option.some.injEq, Nat.zero_add, Nat.add_comm, Synced]
    obtain ⟨m, hrun, hwalk⟩ : ∃ m, IsRun g cap stride m ∧
        (walk ctx cap stride maxPackets (0 * stride) 0).run R = (m, min (m * stride) cap) :=
      run_walk h (fun j hj => absurd hj (Nat.not_lt_zero j))
        (fun j hj => by simp [Nat.le_zero.1 hj]) (Nat.add_zero maxPackets)
    rw [Nat.zero_mul] at hwalk
    have hmin : min (min (m * stride) cap) cap = min (m * stride) cap :=
      min_eq_left (min_le_right _ _)
    simp only [ReadProg.run_ite, ReadProg.run_bind, ReadProg.run_pure, ← hcap, hwalk,
      Option.some.injEq]
    split_ifs with hfive hfew
    · refine iff_of_false Verdict.not_isFull_rejected fun ⟨_, m', hs, hmany, hrun', _⟩ => ?_
      subst hs
      exact absurd (hrun.unique hrun') (by omega)
    · constructor
      · rintro ⟨-, -, rfl⟩
        exact ⟨stride, m, rfl, by omega, hrun, hmin⟩
      · rintro ⟨_, m', rfl, -, hrun', rfl⟩
        obtain rfl := hrun.unique hrun'
        exact ⟨rfl, rfl, hmin⟩
    · refine iff_of_false Verdict.not_isFull_rejected fun ⟨_, m', hs, hmany, hrun', _⟩ => ?_
      subst hs
      exact hfive fun i hi => (hprobe i hi).2 (hrun'.synced i (by omega))

end Walk

end MpegTs
end Reclaim
