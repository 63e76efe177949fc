import Reclaim.Block.LbaRange
import Reclaim.Carve.Matcher
import Reclaim.Foundation.ReadProgram
import Reclaim.Session.Entries

/-!
# The carve engine

The engine reads a source chunk by chunk.  In each chunk it collects candidates, the file starts
that the matcher and the text pass believe in, and validates them in order: a validator reads at
will and says how long the file is and how sure it is of it.  A file carved in full claims its
range, and candidates strictly inside a claimed range are passed over.

Everything that reads is a `ReadProg`, so what the engine does is a function of what its reads
answer.  The validators are part of the engine's data: nothing here depends on what they do.
-/

namespace Reclaim

open FileBytes

/-- Options of a carve scan. -/
structure CarveOptions where
  /-- Byte-granular matching in every block. -/
  bruteForce : Bool
  /-- Block size for the alignment gate (0: sector size). -/
  blockSize : ℕ
  /-- Restrict to these families (empty: all). -/
  families : List String
  /-- Restrict to these signature ids (empty: all). -/
  sigIds : List String
  /-- Emit truncated and suspect results. -/
  keepCorrupted : Bool
  /-- Cap on any single carved file. -/
  maxFileSize : ℕ
  /-- Absolute byte range to scan (none: whole source). -/
  range : Option (ℕ × ℕ)
  deriving DecidableEq

/-- Naming metadata that a validator extracts. -/
structure Metadata where
  name : Option String
  date : Option String
  model : Option String
  deriving DecidableEq

/-- A file recovered by the carver. -/
structure CarvedFile where
  /-- Absolute byte offset of the file start. -/
  offset : ℕ
  len : ℕ
  format : String
  family : String
  ext : String
  validity : Validity
  score : ℕ
  metadata : Metadata
  deriving DecidableEq

/-- One past the end. -/
def CarvedFile.stop (cf : CarvedFile) : ℕ := saturatingAdd cf.offset cf.len

/-- Input to a validator. -/
structure Ctx where
  /-- Length of the source. -/
  sourceLen : ℕ
  fileStart : ℕ
  /-- Hard cap on the recovered length. -/
  maxLen : ℕ
  sig : SigDef

namespace Ctx

/-- Read `len` bytes at `rel` of the file. -/
def read (ctx : Ctx) (rel len : ℕ) : ReadProg Bytes :=
  ReadProg.bytes (saturatingAdd ctx.fileStart rel) len

/-- Bytes from the file start to the end of the source, capped. -/
def available (ctx : Ctx) : ℕ := min (ctx.sourceLen - ctx.fileStart) ctx.maxLen

end Ctx

/-- A validator's decision. -/
structure Verdict where
  accept : Bool
  len : ℕ
  validity : Validity
  score : ℕ
  /-- Refined signature id. -/
  format : Option String
  /-- The true file start of a footer-anchored format. -/
  startOverride : Option ℕ
  metadata : Metadata

namespace Verdict

/-- A rejection. -/
def rejected : Verdict := ⟨false, 0, .suspect, 0, none, none, ⟨none, none, none⟩⟩

/-- An acceptance. -/
def accepted (len : ℕ) (validity : Validity) (score : ℕ) : Verdict :=
  ⟨true, len, validity, score, none, none, ⟨none, none, none⟩⟩

end Verdict

/-- The carve engine over a catalog. -/
structure CarveEngine where
  automaton : Automaton
  sigs : List SigDef
  /-- `validators::dispatch`, for the names that have a validator. -/
  validate : String → Option (Ctx → ReadProg Verdict)
  /-- `text::looks_like_text` of a sample. -/
  looksLikeText : Bytes → Bool
  /-- Bytes read per sequential step. -/
  chunk : ℕ
  chunk_pos : 0 < chunk

/-- `CHUNK`. -/
def carveChunk : ℕ := 8 * 1024 * 1024

lemma carveChunk_pos : 0 < carveChunk := by decide

/-- `FALLBACK_CAP`: carve cap when a format cannot be sized. -/
def fallbackCap : ℕ := 1024 * 1024

/-! ## Extraction without a validator -/

/-- `memmem::find`: the first position of the pattern. -/
def findBytes (pattern buf : Bytes) : Option ℕ :=
  (List.range (buf.length + 1 - pattern.length)).find? fun i => OccursAt pattern buf i

/-- Size of a search window. -/
def footerWindow : ℕ := 2 ^ 20

/-- Search for the footer from `pos` on, `fuel` windows at most: where the file ends behind it. -/
def findFooter (ctx : Ctx) (footer : Bytes) (search : ℕ) : ℕ → ℕ → ReadProg (Option ℕ)
  | 0, _ => pure none
  | fuel + 1, pos =>
    if search ≤ pos then pure none
    else do
      let want := min (search - pos) footerWindow
      let buf ← ctx.read pos want
      match findBytes footer buf with
      | some m => pure (some (pos + m + footer.length))
      | none =>
        if want < footerWindow then pure none
        else findFooter ctx footer search fuel (pos + (want - max footer.length 1))

/-- `fallback`: extraction for signatures without a validator. -/
def fallback (ctx : Ctx) : ReadProg Verdict :=
  match ctx.sig.strategy with
  | .footer =>
    match ctx.sig.footer with
    | some ft => do
      let search := min ft.searchMax ctx.available
      match ← findFooter ctx ft.bytes search search 0 with
      | some stop => pure (.accepted stop .full 65)
      | none => pure (.accepted (min ctx.available fallbackCap) .truncated 30)
    | none => pure (.accepted (min ctx.available fallbackCap) .truncated 30)
  | _ =>
    if ctx.sig.footerAnchored then pure .rejected
    else pure (.accepted (min ctx.available fallbackCap) .suspect 30)

/-! ## Identifying a candidate -/

namespace CarveOptions

/-- `family_allowed`. -/
def familyAllowed (opts : CarveOptions) (family : String) : Bool :=
  opts.families.isEmpty || opts.families.contains family

/-- `sig_allowed`. -/
def sigAllowed (opts : CarveOptions) (sig : SigDef) : Bool :=
  (opts.families.isEmpty || opts.families.contains sig.family) &&
    (opts.sigIds.isEmpty || opts.sigIds.contains sig.id)

end CarveOptions

/-- `pick_better`: the higher score, then the longer file, then the first. -/
def pickBetter (best : Option CarvedFile) (new : CarvedFile) : Option CarvedFile :=
  match best with
  | none => some new
  | some c =>
    if c.score < new.score ∨ new.score = c.score ∧ c.len < new.len then some new else some c

namespace CarveEngine

variable (E : CarveEngine)

/-- Bytes read beyond a chunk. -/
def overlap : ℕ := max (maxHeaderSpan E.sigs) (maxAnchorLen E.sigs) - 1

/-- What `run_one` makes of a verdict, the flag of the head read given. -/
def carved (fileStart : ℕ) (sig : SigDef) (verdict : Verdict) (suspectIo : Bool) : CarvedFile :=
  let format := verdict.format.getD sig.id
  let named := E.sigs.find? fun s => s.id == format
  { offset := verdict.startOverride.getD fileStart
    len := verdict.len
    format := format
    family := (named.map (·.family)).getD sig.family
    ext := (named.map (·.primaryExt)).getD sig.primaryExt
    validity := if suspectIo && verdict.validity == .full then .suspect else verdict.validity
    score := verdict.score
    metadata := verdict.metadata }

/-- The verdict of a signature's validator, or of the fallback if it has none. -/
def judge (ctx : Ctx) : ReadProg Verdict :=
  match ctx.sig.validator.bind E.validate with
  | some v => v ctx
  | none => fallback ctx

/-- `run_one`: size and judge the file of one signature. -/
def runOne (len : ℕ) (opts : CarveOptions) (fileStart : ℕ) (sig : SigDef) :
    ReadProg (Option CarvedFile) :=
  let maxLen := min (len - fileStart) opts.maxFileSize
  if maxLen = 0 then pure none
  else do
    let verdict ← E.judge ⟨len, fileStart, maxLen, sig⟩
    if verdict.accept = false ∨ verdict.len = 0 ∨ verdict.len < sig.minSize then pure none
    else do
      -- the taint check looks at the head of the file
      let suspectIo ← ReadProg.flag (verdict.startOverride.getD fileStart) (min 512 verdict.len)
      pure (some (E.carved fileStart sig verdict suspectIo))

/-- The signatures of a candidate in turn, each validator once; the best result. -/
def identifyBest (len : ℕ) (opts : CarveOptions) (fileStart : ℕ) (aligned : Bool) :
    List ℕ → List String → Option CarvedFile → ReadProg (Option CarvedFile)
  | [], _, best => pure best
  | si :: rest, seen, best =>
    match E.sigs[si]? with
    | none => identifyBest len opts fileStart aligned rest seen best
    | some sig =>
      let name := sig.validator.getD ""
      if !opts.sigAllowed sig || (!opts.bruteForce && sig.blockAligned && !aligned) ||
          (name != "" && seen.contains name) then
        identifyBest len opts fileStart aligned rest seen best
      else do
        let seen := if name != "" then seen ++ [name] else seen
        match ← E.runOne len opts fileStart sig with
        | none => identifyBest len opts fileStart aligned rest seen best
        | some cf => identifyBest len opts fileStart aligned rest seen (pickBetter best cf)

/-- All bytes are the first. -/
def uniform (head : Bytes) : Bool := head.all fun b => some b == head.head?

/-- `identify_from`: the best result at a file start, given the signatures that believe in it. -/
def identifyFrom (len : ℕ) (opts : CarveOptions) (blockSize fileStart : ℕ) (sigIdxs : List ℕ) :
    ReadProg (Option CarvedFile) := do
  let aligned := blockSize == 0 || fileStart % blockSize == 0
  let blank ← if opts.bruteForce then pure false
    else do
      let head ← ReadProg.bytes fileStart 64
      pure (uniform head)
  if blank then pure none
  else E.identifyBest len opts fileStart aligned sigIdxs [] none

/-! ## Candidates of a chunk -/

/-- Block boundaries from `base` on, in the chunk and in the range. -/
def textProbes (base bs scanEnd : ℕ) : List ℕ :=
  ((List.range (E.chunk / bs + 1)).map fun i => divCeil base bs * bs + i * bs).filter fun b =>
    b < base + E.chunk && b < scanEnd

/-- The block at `rel` of the chunk begins text that the block before does not. -/
def textStarts (base bs : ℕ) (buf : Bytes) (b : ℕ) : Bool :=
  let rel := b - base
  E.looksLikeText ((buf.drop rel).take 512) &&
    (!(base + bs ≤ b) || !E.looksLikeText ((buf.drop (rel - bs)).take 512))

/-- `text_pass`: where text begins at a block boundary, with the text signature. -/
def textPass (opts : CarveOptions) (blockSize scanEnd base : ℕ) (buf : Bytes) : List (ℕ × ℕ) :=
  if !opts.familyAllowed "doc" && !opts.sigIds.contains "doc.txt" &&
      (!opts.families.isEmpty || !opts.sigIds.isEmpty) then []
  else
    match E.sigs.findIdx? fun s => s.id == "doc.txt" with
    | none => []
    | some textSig =>
      let bs := max blockSize 512
      ((E.textProbes base bs scanEnd).filter fun b => E.textStarts base bs buf b).map fun b =>
        (b, textSig)

/-- The anchor matches of the chunk at `pos` that belong to it: those that begin in it, and in the
first chunk those that begin before. -/
def anchorHits (scanStart pos : ℕ) (buf : Bytes) : List (ℕ × ℕ) :=
  (scanBuffer E.automaton E.sigs pos buf).filterMap fun c =>
    if (pos ≤ c.fileStart ∧ c.fileStart - pos < E.chunk) ∨ (c.fileStart < pos ∧ pos = scanStart)
    then some (c.fileStart, c.sigIdx) else none

/-- `BTreeMap::entry(..).or_default().push(..)`. -/
def pushAt (k v : ℕ) : List (ℕ × List ℕ) → List (ℕ × List ℕ)
  | [] => [(k, [v])]
  | (x, vs) :: rest =>
    if k < x then (k, [v]) :: (x, vs) :: rest
    else if k = x then (x, vs ++ [v]) :: rest
    else (x, vs) :: pushAt k v rest

/-- `per_offset`: the pairs grouped by file start, in order. -/
def perOffset (pairs : List (ℕ × ℕ)) : List (ℕ × List ℕ) :=
  pairs.foldl (fun m p => pushAt p.1 p.2 m) []

end CarveEngine

/-! ## Scanning -/

/-- Claimed ranges. -/
abbrev Claims := List (ℕ × ℕ)

/-- `suppressed`: the start is strictly inside a claimed range. -/
def suppressed (claims : Claims) (start : ℕ) : Bool :=
  claims.any fun c => c.1 < start && start < c.2

/-- `prune_claims`: forget what ends at or before the cursor, and keep the last 64. -/
def pruneClaims (claims : Claims) (cursor : ℕ) : Claims :=
  let kept := claims.filter fun c => cursor < c.2
  kept.drop (kept.length - 64)

/-- The claims after a file has been emitted at the candidate `fileStart`. -/
def claimsAfter (claims : Claims) (fileStart : ℕ) (cf : CarvedFile) : Claims :=
  pruneClaims
    (if cf.validity = .full ∧ 0 < cf.len then claims ++ [(cf.offset, cf.stop)] else claims)
    fileStart

/-- What a scan works on: the length and sector size of the source, and the options. -/
structure ScanArgs where
  len : ℕ
  sectorSize : ℕ
  opts : CarveOptions

namespace ScanArgs

variable (a : ScanArgs)

/-- The block size of the alignment gate. -/
def blockSize : ℕ := if a.opts.blockSize = 0 then max a.sectorSize 1 else a.opts.blockSize

def scanStart : ℕ :=
  match a.opts.range with
  | some r => min r.1 a.len
  | none => 0

def scanEnd : ℕ :=
  match a.opts.range with
  | some r => min r.2 a.len
  | none => a.len

end ScanArgs

namespace CarveEngine

variable (E : CarveEngine)

/-- All pairs of a file start and a signature that the chunk at `pos` collects. -/
def collected (a : ScanArgs) (pos : ℕ) (buf : Bytes) : List (ℕ × ℕ) :=
  E.anchorHits a.scanStart pos buf ++ E.textPass a.opts a.blockSize a.scanEnd pos buf

/-- The file at a candidate, unless it is not to be kept. -/
def fileAt (a : ScanArgs) (fileStart : ℕ) (sigIdxs : List ℕ) : ReadProg (Option CarvedFile) := do
  match ← E.identifyFrom a.len a.opts a.blockSize fileStart sigIdxs with
  | none => pure none
  | some cf => if !a.opts.keepCorrupted && cf.validity != .full then pure none else pure (some cf)

/-- Validate the candidates in order: the files emitted, and the claims behind. -/
def emitAll (a : ScanArgs) : List (ℕ × List ℕ) → Claims → ReadProg (List CarvedFile × Claims)
  | [], claims => pure ([], claims)
  | (fs, sigIdxs) :: rest, claims =>
    if suppressed claims fs then emitAll a rest claims
    else do
      match ← E.fileAt a fs sigIdxs with
      | none => emitAll a rest claims
      | some cf =>
        let r ← emitAll a rest (claimsAfter claims fs cf)
        pure (cf :: r.1, r.2)

/-- The bytes that the chunk at `pos` is searched in. -/
def window (a : ScanArgs) (pos : ℕ) : ReadProg Bytes :=
  ReadProg.bytes pos (min (a.scanEnd - pos) (E.chunk + E.overlap))

/-- One step of the scan: the chunk at `pos`. -/
def scanChunk (a : ScanArgs) (pos : ℕ) (claims : Claims) : ReadProg (List CarvedFile × Claims) := do
  let buf ← E.window a pos
  E.emitAll a (perOffset (E.collected a pos buf)) claims

/-! ## Block size -/

/-- `identify_one`: the best result of the signatures anchored at a file start. -/
def identifyOne (len : ℕ) (opts : CarveOptions) (fileStart blockSize : ℕ) :
    ReadProg (Option CarvedFile) := do
  let buf ← ReadProg.bytes fileStart (min (maxHeaderSpan E.sigs) (64 * 1024))
  let sigIdxs := (scanBuffer E.automaton E.sigs fileStart buf).filterMap fun c =>
    if c.fileStart = fileStart then some c.sigIdx else none
  E.identifyFrom len opts blockSize fileStart sigIdxs

/-- `CarveOptions::default`. -/
def defaultOptions : CarveOptions where
  bruteForce := false
  blockSize := 0
  families := []
  sigIds := []
  keepCorrupted := true
  maxFileSize := 4 * 1024 * 1024 * 1024
  range := none

/-- The offsets of the files found in full at the starts, up to twelve in all. -/
def sampleStarts (len sector : ℕ) : List ℕ → List ℕ → ReadProg (List ℕ)
  | [], offsets => pure offsets
  | fs :: rest, offsets => do
    match ← E.identifyOne len defaultOptions fs sector with
    | none => sampleStarts len sector rest offsets
    | some cf =>
      if cf.validity ≠ .full then sampleStarts len sector rest offsets
      else if 12 ≤ (offsets ++ [cf.offset]).length then pure (offsets ++ [cf.offset])
      else sampleStarts len sector rest (offsets ++ [cf.offset])

/-- The sampling pass over `n` chunks from `pos`. -/
def sample (len sector limit : ℕ) : ℕ → ℕ → List ℕ → ReadProg (List ℕ)
  | 0, _, offsets => pure offsets
  | n + 1, pos, offsets => do
    let buf ← ReadProg.bytes pos (min (limit - pos) (E.chunk + E.overlap))
    let starts := ((scanBuffer E.automaton E.sigs pos buf).filterMap fun c =>
      if pos ≤ c.fileStart ∧ c.fileStart - pos < E.chunk then some c.fileStart else none)
    let offsets ← E.sampleStarts len sector (starts.mergeSort.dedup) offsets
    if 12 ≤ offsets.length then pure offsets
    else sample len sector limit n (pos + E.chunk) offsets

/-- `infer_block_size`: the greatest common divisor of the first files' offsets. -/
def inferBlockSize (len sectorSize : ℕ) : ReadProg ℕ := do
  let sector := max sectorSize 1
  let limit := min len (128 * 1024 * 1024)
  let offsets ← E.sample len sector limit (divCeil limit E.chunk) 0 []
  if offsets.length < 3 then pure sector
  else
    let g := offsets.foldl Nat.gcd (offsets.headD 0)
    if g < sector ∨ g % sector ≠ 0 then pure sector
    else
      let clamped := max (min g (1024 * 1024)) sector
      pure (if clamped ≤ u32Max then clamped else sector)

end CarveEngine
end Reclaim
