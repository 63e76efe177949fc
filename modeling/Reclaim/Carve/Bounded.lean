import Reclaim.Carve.FileView
import Reclaim.Carve.Engine
import Reclaim.Foundation.LittleEndian

/-!
# Formats whose end is not looked for

The end of a compressed stream is where its decoder stops, and some containers have what sizes them
at their end.  Their validators look at the head alone and accept, as suspect, what there is up to a
bound of the format.
-/

namespace Reclaim

open FileBytes

/-- What is accepted of a file that ends nobody knows where. -/
def Ctx.bounded (ctx : Ctx) (cap least score : ℕ) (format : String) (metadata : Metadata) :
    Verdict :=
  let len := min ctx.available cap
  if len < least then .rejected
  else { Verdict.accepted len .suspect score with format := some format, metadata := metadata }

/-- No naming metadata. -/
def Metadata.none : Metadata := ⟨Option.none, Option.none, Option.none⟩

namespace Gzip

/-- `CAP`. -/
def cap : ℕ := 256 * 1024 * 1024

/-- Where the name is: behind the extra field if there is one. -/
def namePos (ctx : Ctx) (flg : UInt8) : ReadProg ℕ :=
  if flg &&& 0x04 ≠ 0 then do
    let xlen ← ctx.read 10 2
    pure (10 + (2 + leU16 xlen 0))
  else pure 10

/-- The original name, up to its first zero, each byte a character. -/
def nameOf (raw : Bytes) : Option String :=
  let name := raw.takeWhile fun b => b ≠ 0
  if name.isEmpty then none else some (String.ofList (name.map fun b => Char.ofNat b.toNat))

/-- The name that the header has if a flag says so. -/
def name (ctx : Ctx) (flg : UInt8) (pos : ℕ) : ReadProg (Option String) :=
  if flg &&& 0x08 ≠ 0 then do
    let raw ← ctx.read pos 256
    pure (nameOf raw)
  else pure none

/-- `validate`. -/
def validate (ctx : Ctx) : ReadProg Verdict := do
  let head ← ctx.read 0 10
  if head.take 3 ≠ [0x1F, 0x8B, 0x08] then pure .rejected
  else
    let flg := head.getD 3 0
    if flg &&& 0xE0 ≠ 0 then pure .rejected
    else
      let os := head.getD 9 0xFF
      if ¬ (os ≤ 13 ∨ os = 255) then pure .rejected
      else do
        let pos ← namePos ctx flg
        let name ← name ctx flg pos
        pure (ctx.bounded cap 18 42 "archive.gzip" ⟨name, none, none⟩)

end Gzip

namespace Bzip2

/-- `CAP`. -/
def cap : ℕ := 256 * 1024 * 1024

/-- The byte is a digit from 1 to 9. -/
def IsLevel (b : Option UInt8) : Prop := ∃ x ∈ b, 0x31 ≤ x ∧ x ≤ 0x39

instance (b : Option UInt8) : Decidable (IsLevel b) :=
  match b with
  | none => .isFalse fun ⟨_, h, _⟩ => nomatch h
  | some x => decidable_of_iff (0x31 ≤ x ∧ x ≤ 0x39) (by simp [IsLevel])

/-- `validate`. -/
def validate (ctx : Ctx) : ReadProg Verdict := do
  let head ← ctx.read 0 10
  if head.take 3 ≠ [0x42, 0x5A, 0x68] then pure .rejected
  else if ¬ IsLevel head[3]? then pure .rejected
  -- the magic of a block, or of the end of the stream
  else if (head.drop 4).take 6 ≠ [0x31, 0x41, 0x59, 0x26, 0x53, 0x59] ∧
      (head.drop 4).take 6 ≠ [0x17, 0x72, 0x45, 0x38, 0x50, 0x90] then pure .rejected
  else pure (ctx.bounded cap 14 42 "archive.bzip2" .none)

end Bzip2

namespace Zstd

/-- `MAGIC`. -/
def magic : Bytes := [0x28, 0xB5, 0x2F, 0xFD]

/-- `CAP`, and what is carved of it. -/
def cap : ℕ := min (4 * 1024 * 1024 * 1024) (64 * 1024 * 1024)

/-- `validate`. -/
def validate (ctx : Ctx) : ReadProg Verdict := do
  let head ← ctx.read 0 14
  if head.take 4 ≠ magic then pure .rejected
  else pure (ctx.bounded cap 8 42 "archive.zstd" .none)

end Zstd

namespace Rar

/-- `V4`. -/
def v4 : Bytes := [0x52, 0x61, 0x72, 0x21, 0x1A, 0x07, 0x00]

/-- `V5`. -/
def v5 : Bytes := [0x52, 0x61, 0x72, 0x21, 0x1A, 0x07, 0x01, 0x00]

/-- `CAP`, and what is carved of it. -/
def cap : ℕ := min (16 * 1024 * 1024 * 1024) (256 * 1024 * 1024)

/-- `validate`. -/
def validate (ctx : Ctx) : ReadProg Verdict := do
  let head ← ctx.read 0 8
  if head.take 7 ≠ v4 ∧ head.take 8 ≠ v5 then pure .rejected
  else pure (ctx.bounded cap 20 45 "archive.rar" .none)

end Rar

namespace Bplist

/-- `CAP`, and what is carved of it. -/
def cap : ℕ := min (64 * 1024 * 1024) (4 * 1024 * 1024)

/-- `bplist00`. -/
def magic : Bytes := [0x62, 0x70, 0x6C, 0x69, 0x73, 0x74, 0x30, 0x30]

/-- `validate`. -/
def validate (ctx : Ctx) : ReadProg Verdict := do
  let head ← ctx.read 0 8
  if head ≠ magic then pure .rejected
  else pure (ctx.bounded cap 40 45 "doc.bplist" .none)

end Bplist

namespace Ole2

/-- `MAGIC`. -/
def magic : Bytes := [0xD0, 0xCF, 0x11, 0xE0, 0xA1, 0xB1, 0x1A, 0xE1]

/-- The most that `numFat` sectors of the allocation table describe, with the header. -/
def upper (sectorSize numFat : ℕ) : ℕ :=
  saturatingAdd sectorSize (saturatingMul (saturatingMul numFat (sectorSize / 4)) sectorSize)

/-- `validate`. -/
def validate (ctx : Ctx) : ReadProg Verdict := do
  let head ← ctx.read 0 512
  if head.take 8 ≠ magic then pure .rejected
  else
    let sectorShift := leU16 head 30
    if sectorShift < 7 ∨ 12 < sectorShift then pure .rejected
    else
      let numFat := leU32 head 44
      if numFat = 0 ∨ 1000000 < numFat then pure .rejected
      else pure (ctx.bounded (upper (2 ^ sectorShift) numFat) 512 55 "doc.ole2" .none)

end Ole2

namespace Flac

/-- `CAP`. -/
def cap : ℕ := 2 * 1024 * 1024 * 1024

/-- The most metadata blocks that are gone through. -/
def maxBlocks : ℕ := 4096

/-- `fLaC`. -/
def magic : Bytes := [0x66, 0x4C, 0x61, 0x43]

/-- The metadata blocks from `pos` on, `fuel` at most, and whether this is the first: where they
end, if they are as they should be. -/
def blocks (ctx : Ctx) (cap : ℕ) : (fuel pos : ℕ) → (first : Bool) → ReadProg (Option ℕ)
  | 0, pos, _ => pure (some pos)
  | fuel + 1, pos, first => do
    let hdr ← ctx.read pos 4
    match hdr.head? with
    | none => pure (some pos)
    | some b0 =>
      -- the stream's own block comes first
      if first ∧ b0 &&& 0x7F ≠ 0 then pure none
      else
        let size := beU32 [0, hdr.getD 1 0, hdr.getD 2 0, hdr.getD 3 0] 0
        let next := pos + (4 + size)
        if cap < next then pure none
        else if b0 &&& 0x80 ≠ 0 then pure (some next)
        else blocks ctx cap fuel next false

/-- `validate`. -/
def validate (ctx : Ctx) : ReadProg Verdict := do
  let head ← ctx.read 0 4
  if head ≠ magic then pure .rejected
  else do
    match ← blocks ctx (min ctx.available cap) maxBlocks 4 true with
    | none => pure .rejected
    | some pos =>
      if pos < 42 then pure .rejected
      else pure (ctx.bounded cap 0 55 "audio.flac" .none)

end Flac
end Reclaim

/-!
## Disk images found by their trailer

A disk image ends with a trailer of 512 bytes, which is what the matcher finds.  The validator
computes the length of the image from the trailer's fields, and from that where the image begins:
it is the one validator that moves the start of a file.
-/

namespace Reclaim

open FileBytes

namespace DmgTrailer

/-- `koly`. -/
def magic : Bytes := [0x6B, 0x6F, 0x6C, 0x79]

/-- The length of the image that the trailer is of: the farthest extent it names, and itself. -/
def total (koly : Bytes) : ℕ :=
  saturatingAdd (max (max (saturatingAdd (beU64 koly 24) (beU64 koly 32))
    (saturatingAdd (beU64 koly 216) (beU64 koly 224)))
    (saturatingAdd (beU64 koly 32) (beU64 koly 48))) 512

/-- `validate`, of a candidate positioned at the trailer. -/
def validate (ctx : Ctx) : ReadProg Verdict := do
  let koly ← ctx.read 0 512
  if koly.take 4 ≠ magic then pure .rejected
  else
    let total := total koly
    let stop := saturatingAdd ctx.fileStart 512
    if total ≤ stop ∧ 512 ≤ total ∧ total < 64 * 1024 * 1024 * 1024 then
      pure { Verdict.accepted total .full 80 with
        format := some "archive.dmg"
        startOverride := some (stop - total) }
    else pure .rejected

/-- **The start is moved back, never forward**, and the file ends behind its trailer. -/
lemma validate_start {R : Reader} {ctx : Ctx} {s : ℕ}
    (h : ((validate ctx).run R).startOverride = some s) :
    s ≤ ctx.fileStart ∧ s + ((validate ctx).run R).len = saturatingAdd ctx.fileStart 512 := by
  rw [validate, ReadProg.run_bind] at h ⊢
  simp only [ReadProg.run_ite, ReadProg.run_pure] at h ⊢
  split_ifs at h ⊢ with hmagic hfit
  · exact absurd h (by simp [Verdict.rejected])
  · have hs : saturatingAdd ctx.fileStart 512 - total ((ctx.read 0 512).run R) = s :=
      Option.some.inj h
    have hstop : saturatingAdd ctx.fileStart 512 ≤ ctx.fileStart + 512 := min_le_left _ _
    show s ≤ _ ∧ s + total ((ctx.read 0 512).run R) = _
    omega
  · exact absurd h (by simp [Verdict.rejected])

/-- `archive.dmg` of the catalog. -/
def sig : SigDef where
  id := "archive.dmg"
  family := "archive"
  extensions := ["dmg"]
  headers := [.exact 0 magic]
  footer := none
  minSize := 512
  strategy := .structural
  validator := some "dmg"
  blockAligned := true
  footerAnchored := true

/-- An engine that knows disk images only. -/
def engine : CarveEngine where
  automaton := .naive
  sigs := [sig]
  validate name := if name = "dmg" then some validate else none
  looksLikeText _ := false
  chunk := carveChunk
  chunk_pos := carveChunk_pos

end DmgTrailer
end Reclaim
