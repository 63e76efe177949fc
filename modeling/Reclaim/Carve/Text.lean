import Reclaim.Carve.Engine
import Reclaim.Foundation.Unicode

/-!
# Text without a header

Plain text has no magic.  The engine's text pass offers the block boundaries where text begins, by
the look of their first bytes, and the validator walks from there to the first byte that is not
text.  It never moves the start.
-/

namespace Reclaim

open FileBytes

namespace PlainText

/-- `MAX`. -/
def maxRun : ℕ := 256 * 1024 * 1024

/-- `WIN`. -/
def win : ℕ := 64 * 1024

/-- `MIN_RUN`: shortest run accepted as a text file. -/
def minRun : ℕ := 32

/-- `is_ascii_text`. -/
def isAsciiText (b : UInt8) : Bool :=
  b == 0x09 || b == 0x0A || b == 0x0D || (0x20 ≤ b && b ≤ 0x7E)

/-- `is_ascii_alphabetic`, or a space. -/
def isLetter (b : UInt8) : Bool :=
  (0x41 ≤ b && b ≤ 0x5A) || (0x61 ≤ b && b ≤ 0x7A) || b == 0x20

/-- `looks_like_text`: long enough, not uniform, mostly printable, and with letters. -/
def looksLikeText (buf : Bytes) : Bool :=
  let printable := buf.countP fun b => isAsciiText b || 0x80 ≤ b
  let letters := buf.countP isLetter
  16 ≤ buf.length && !(buf.all fun b => some b == buf.head?) &&
    92 * buf.length ≤ 100 * printable && 20 * buf.length ≤ 100 * letters

/-- `utf8_len`: the length of the sequence that a first byte begins. -/
def utf8Len (lead : UInt8) : Option ℕ :=
  if 0xC2 ≤ lead ∧ lead ≤ 0xDF then some 2
  else if 0xE0 ≤ lead ∧ lead ≤ 0xEF then some 3
  else if 0xF0 ≤ lead ∧ lead ≤ 0xF4 then some 4
  else none

/-- `valid_utf8_seq`, of a first byte and as many bytes as it owes: well formed, and no control
character. -/
def validUtf8Seq : Bytes → Bool
  | lead :: next :: rest =>
    match Text.utf8Lead lead.toNat with
    | some (_, low, high) =>
      low ≤ next.toNat && next.toNat ≤ high && (rest.all fun b => 0x80 ≤ b && b ≤ 0xBF) &&
        !(lead == 0xC2 && next ≤ 0x9F)
    | none => false
  | _ => false

/-- How a window ends. -/
inductive WindowEnd where
  | whole
  /-- A byte that is not text. -/
  | binary
  /-- A sequence that the window cuts. -/
  | straddles
  deriving DecidableEq

/-- The characters of a window from position `i` on, the first `skip` bytes being the rest of one:
where it ends, how many there are, and how. -/
def walkWindow : Bytes → (skip i printable : ℕ) → ℕ × ℕ × WindowEnd
  | [], _, i, printable => (i, printable, .whole)
  | _ :: rest, skip + 1, i, printable => walkWindow rest skip (i + 1) printable
  | b :: rest, 0, i, printable =>
    if b < 0x80 then
      if isAsciiText b then walkWindow rest 0 (i + 1) (printable + 1) else (i, printable, .binary)
    else
      match utf8Len b with
      | none => (i, printable, .binary)
      | some n =>
        if n ≤ rest.length + 1 then
          if validUtf8Seq (b :: rest.take (n - 1)) then
            walkWindow rest (n - 1) (i + 1) (printable + 1)
          else (i, printable, .binary)
        else (i, printable, .straddles)

/-- The run of text from `pos` on, `fuel` windows at most: where it ends, how many characters it
has, and whether a byte that is not text ended it. -/
def measure (ctx : Ctx) (cap : ℕ) : ℕ → ℕ → ℕ → ReadProg (ℕ × ℕ × Bool)
  | 0, pos, printable => pure (pos, printable, false)
  | fuel + 1, pos, printable =>
    if cap ≤ pos then pure (pos, printable, false)
    else do
      let want := min (cap - pos) win
      let buf ← ctx.read pos want
      if buf = [] then pure (pos, printable, false)
      else
        let r := walkWindow buf 0 0 printable
        match r.2.2 with
        | .whole =>
          if want < win then pure (cap, r.2.1, false)
          else measure ctx cap fuel (pos + buf.length) r.2.1
        | .straddles =>
          -- the sequence is read again as the first of the next window
          if want = win ∧ 0 < r.1 then measure ctx cap fuel (pos + r.1) r.2.1
          else pure (pos + r.1, r.2.1, true)
        | .binary => pure (pos + r.1, r.2.1, true)

/-- `b"..."`. -/
def ascii (s : String) : Bytes := s.toList.map fun c => UInt8.ofNat c.toNat

/-- `refine`: the kind of text, by its first bytes. -/
def refine (head : Bytes) : String :=
  if (ascii "<?xml").isPrefixOf head then
    if (findBytes (ascii "<plist") head).isSome then "sys.plist_xml" else "doc.xml"
  else if (ascii "<html").isPrefixOf head || (ascii "<!DOCTYPE").isPrefixOf head then "doc.html"
  else if (ascii "\x7b").isPrefixOf head || (ascii "[").isPrefixOf head then "doc.json"
  else "doc.txt"

/-- `validate`. -/
def validate (ctx : Ctx) : ReadProg Verdict := do
  let cap := min ctx.available maxRun
  if cap < minRun then pure .rejected
  else do
    let head ← ctx.read 0 (min 512 cap)
    -- up to the first byte that no text has, for the zeros behind a short file
    let sampleEnd := (head.findIdx? fun b => b < 0x09).getD head.length
    if looksLikeText (head.take (max sampleEnd 1)) = false then pure .rejected
    else do
      let r ← measure ctx cap cap 0 0
      if r.1 < minRun ∨ 5 * r.2.1 < 3 * r.1 then pure .rejected
      else
        let bonus := if 98 * r.1 < 100 * r.2.1 then 6 else 0
        let verdict : Verdict :=
          if r.2.2 then .accepted r.1 .full (68 + bonus) else .accepted r.1 .truncated (50 + bonus)
        pure { verdict with format := some (refine head) }

/-- **The start stays where it is.** -/
lemma validate_start (R : Reader) (ctx : Ctx) :
    ((validate ctx).run R).startOverride = none := by
  unfold validate
  dsimp only
  split
  · rfl
  · simp only [ReadProg.run_bind]
    cases looksLikeText _ with
    | false => rfl
    | true =>
      rw [if_neg (by simp), ReadProg.run_bind]
      generalize (measure ctx _ _ 0 0).run R = r
      split
      · rfl
      · split <;> rfl

/-- `doc.txt` of the catalog: its headers are the byte order marks. -/
def sig : SigDef where
  id := "doc.txt"
  family := "doc"
  extensions := ["txt", "md", "csv", "log"]
  headers := [.exact 0 [0xEF, 0xBB, 0xBF], .exact 0 [0xFF, 0xFE], .exact 0 [0xFE, 0xFF]]
  footer := none
  minSize := 16
  strategy := .statistical
  validator := some "text"
  blockAligned := true
  footerAnchored := false

/-- `archive.iso` of the catalog, the signature with the longest span. -/
def isoSig : SigDef where
  id := "archive.iso"
  family := "archive"
  extensions := ["iso"]
  headers := [.exact 32769 [0x43, 0x44, 0x30, 0x30, 0x31]]
  footer := none
  minSize := 36 * 1024
  strategy := .structural
  validator := some "iso"
  blockAligned := true
  footerAnchored := false

/-- An engine that can validate text only. -/
def engine : CarveEngine where
  automaton := .naive
  sigs := [isoSig, sig]
  validate name := if name = "text" then some validate else none
  looksLikeText := looksLikeText
  chunk := carveChunk
  chunk_pos := carveChunk_pos

lemma engine_overlap : 511 ≤ engine.overlap := by decide

end PlainText
end Reclaim
