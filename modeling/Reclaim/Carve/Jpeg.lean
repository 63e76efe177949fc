import Reclaim.Carve.Png

/-!
# JPEG files

A JPEG file is a sequence of markers between a start and an end marker: segments with a length,
markers that stand alone, and scans, whose header is followed by entropy-coded data in which a byte
`FF` is stuffed, starts a restart marker, or fills.  The validator skips segments by their length
and looks for the marker behind a scan window by window.

`validate_of_file` says that of every such file, whatever follows it, the whole is returned.
-/

namespace Reclaim

open FileBytes

namespace Jpeg

/-! ## The validator -/

/-- `MAX`: the largest file. -/
def maxSize : ℕ := 256 * 1024 * 1024

/-- `SCAN_WIN`: the window of the entropy scan. -/
def scanWin : ℕ := 2 ^ 20

/-- `MAX_MARKERS`: how often the walk goes on. -/
def maxMarkers : ℕ := 200000

/-- A restart marker. -/
def IsRestart (b : UInt8) : Prop := 0xD0 ≤ b ∧ b ≤ 0xD7

instance : DecidablePred IsRestart := fun b => inferInstanceAs (Decidable (0xD0 ≤ b ∧ b ≤ 0xD7))

/-- Behind a byte `FF`, the byte makes no marker that ends a scan. -/
def IsQuiet (b : UInt8) : Prop := b = 0x00 ∨ b = 0xFF ∨ IsRestart b

instance : DecidablePred IsQuiet := fun b =>
  inferInstanceAs (Decidable (b = 0x00 ∨ b = 0xFF ∨ IsRestart b))

/-- A marker that ends a scan is at position `i` of the buffer. -/
def MarkerAt (buf : Bytes) (i : ℕ) : Prop := byteAt buf i = 0xFF ∧ ¬ IsQuiet (byteAt buf (i + 1))

instance (buf : Bytes) : DecidablePred (MarkerAt buf) := fun i =>
  inferInstanceAs (Decidable (byteAt buf i = 0xFF ∧ ¬ IsQuiet (byteAt buf (i + 1))))

/-- `next_marker`: the next marker from `pos` on, `fuel` windows at most. -/
def nextMarker (ctx : Ctx) (cap : ℕ) : ℕ → ℕ → ReadProg (Option ℕ)
  | 0, _ => pure none
  | fuel + 1, pos =>
    if cap ≤ pos then pure none
    else do
      let want := min (cap - pos) scanWin
      let buf ← ctx.read pos want
      if buf = [] then pure none
      else match (List.range (buf.length - 1)).find? fun i => MarkerAt buf i with
        | some i => pure (some (pos + i))
        | none =>
          -- the last byte is read again, in case a marker straddles the windows
          if want < scanWin then pure none else nextMarker ctx cap fuel (pos + (want - 1))

/-- `truncated`: what a walk that stops at `pos` makes of the file. -/
def truncated (pos : ℕ) (sawSof : Bool) : Verdict :=
  if pos < 107 then .rejected else .accepted pos .truncated (if sawSof then 55 else 35)

/-- `parse_exif`, and whether it found anything: a thumbnail counts, too. -/
abbrev ParseExif := Bytes → ℕ → Metadata × Bool

/-- `extract_exif`: the metadata of an application segment, if it has any. -/
def extractExif (ctx : Ctx) (parseExif : ParseExif) (relOff segLen : ℕ) (found : Metadata × Bool) :
    ReadProg (Metadata × Bool) := do
  let payload ← ctx.read relOff (min segLen (128 * 1024))
  if payload.length < 8 ∨ payload.take 6 ≠ [0x45, 0x78, 0x69, 0x66, 0x00, 0x00] then pure found
  else pure (parseExif (payload.drop 6) (ctx.fileStart + relOff + 6))

/-- A frame header. -/
def IsSof (b : UInt8) : Prop := 0xC0 ≤ b ∧ b ≤ 0xCF ∧ b ≠ 0xC4 ∧ b ≠ 0xC8 ∧ b ≠ 0xCC

instance : DecidablePred IsSof := fun b =>
  inferInstanceAs (Decidable (0xC0 ≤ b ∧ b ≤ 0xCF ∧ b ≠ 0xC4 ∧ b ≠ 0xC8 ∧ b ≠ 0xCC))

/-- The markers from `pos` on, `fuel` steps at most. -/
def walk (ctx : Ctx) (parseExif : ParseExif) (cap : ℕ) :
    ℕ → ℕ → Bool → Bool → Metadata × Bool → ReadProg Verdict
  | 0, pos, sawSof, _, _ => pure (truncated pos sawSof)
  | fuel + 1, pos, sawSof, sawSos, found =>
    if cap < pos + 2 then pure (truncated pos sawSof)
    else do
      let m ← ctx.read pos 4
      let marker := byteAt m 1
      let seg := beU16 m 2
      if byteAt m 0 ≠ 0xFF then
        match ← nextMarker ctx cap cap pos with
        | some p => walk ctx parseExif cap fuel p sawSof sawSos found
        | none => pure (truncated pos sawSof)
      else if marker = 0xD9 then
        pure { Verdict.accepted (pos + 2) .full (if sawSof && sawSos then 96 else 82) with
          metadata := found.1 }
      else if marker = 0xFF then
        -- only one fill byte is consumed
        walk ctx parseExif cap fuel (pos + 1) sawSof sawSos found
      else if marker = 0x01 ∨ IsRestart marker then
        walk ctx parseExif cap fuel (pos + 2) sawSof sawSos found
      else if marker = 0xD8 then
        -- a second start is the next file
        pure (truncated pos sawSof)
      else if marker = 0xDA then
        if seg < 2 then pure (truncated pos sawSof)
        else match ← nextMarker ctx cap cap (pos + 2 + seg) with
          | some p => walk ctx parseExif cap fuel p sawSof true found
          | none => pure (truncated (pos + 2 + seg) sawSof)
      else if IsSof marker then
        if seg < 2 then pure (truncated pos true)
        else walk ctx parseExif cap fuel (pos + 2 + seg) true sawSos found
      else if marker = 0xE1 then
        if seg < 2 then pure (truncated pos sawSof)
        else do
          let found ← if found.2 then pure found
            else extractExif ctx parseExif (pos + 4) (seg - 2) found
          walk ctx parseExif cap fuel (pos + 2 + seg) sawSof sawSos found
      else if seg < 2 then pure (truncated pos sawSof)
      else walk ctx parseExif cap fuel (pos + 2 + seg) sawSof sawSos found

/-- `validate`. -/
def validate (parseExif : ParseExif) (ctx : Ctx) : ReadProg Verdict := do
  let head ← ctx.read 0 4
  if byteAt head 0 ≠ 0xFF ∨ byteAt head 1 ≠ 0xD8 then pure .rejected
  else
    let cap := min ctx.available maxSize
    if cap < 4 then pure .rejected
    else walk ctx parseExif cap maxMarkers 2 false false (⟨none, none, none⟩, false)

/-! ## The format -/

/-- A run of fill bytes. -/
def fillBytes (n : ℕ) : Bytes := List.replicate n 0xFF

/-- One item of entropy-coded data. -/
inductive Code where
  /-- A byte other than `FF`. -/
  | plain (b : UInt8) (h : b ≠ 0xFF)
  /-- A byte `FF`, stuffed with a zero. -/
  | stuffed
  /-- A restart marker behind fill bytes. -/
  | restart (fill : ℕ) (b : UInt8) (h : IsRestart b)

/-- The bytes of an item. -/
def Code.bytes : Code → Bytes
  | plain b _ => [b]
  | stuffed => [0xFF, 0x00]
  | restart fill b _ => fillBytes fill ++ [0xFF, b]

/-- A marker of a length-prefixed segment: none of those that stand alone, start or end the file, or
start a scan. -/
def IsSegment (b : UInt8) : Prop :=
  b ≠ 0x00 ∧ b ≠ 0x01 ∧ b ≠ 0xFF ∧ ¬ IsRestart b ∧ b ≠ 0xD8 ∧ b ≠ 0xD9 ∧ b ≠ 0xDA

instance : DecidablePred IsSegment := fun b => inferInstanceAs (Decidable (b ≠ 0x00 ∧ b ≠ 0x01 ∧
  b ≠ 0xFF ∧ ¬ IsRestart b ∧ b ≠ 0xD8 ∧ b ≠ 0xD9 ∧ b ≠ 0xDA))

/-- What lies between two fills. -/
inductive Body where
  /-- A length-prefixed segment. -/
  | segment (marker : UInt8) (payload : Bytes) (hmarker : IsSegment marker)
    (hlen : payload.length + 2 < 2 ^ 16)
  /-- A marker that stands alone. -/
  | alone (marker : UInt8) (hmarker : marker = 0x01 ∨ IsRestart marker)
  /-- A scan: its header, and entropy-coded data. -/
  | scan (header : Bytes) (hlen : header.length + 2 < 2 ^ 16) (entropy : List Code)

/-- A marker, the length of a segment, and its payload. -/
def segmentBytes (marker : UInt8) (payload : Bytes) : Bytes :=
  0xFF :: marker :: (beBytes 2 (payload.length + 2) ++ payload)

/-- The bytes of a body. -/
def Body.bytes : Body → Bytes
  | segment marker payload _ _ => segmentBytes marker payload
  | alone marker _ => [0xFF, marker]
  | scan header _ entropy => segmentBytes 0xDA header ++ entropy.flatMap Code.bytes

/-- A body and the fill bytes behind it. -/
structure Piece where
  body : Body
  fill : ℕ

/-- The bytes of a piece. -/
def Piece.bytes (p : Piece) : Bytes := p.body.bytes ++ fillBytes p.fill

/-- A JPEG file: the start marker, fill bytes, pieces, and the end marker. -/
structure File where
  fill : ℕ
  pieces : List Piece

/-- Pieces and the end marker. -/
def tailBytes (pieces : List Piece) : Bytes := pieces.flatMap Piece.bytes ++ [0xFF, 0xD9]

/-- The steps that the walk takes from a piece on to the end marker: one for a marker, and one for a
fill byte.  Behind a scan it passes fill bytes and restart markers with the entropy-coded data. -/
def steps : Bool → List Piece → ℕ
  | _, [] => 1
  | scanning, p :: rest =>
    match p.body with
    | .segment _ _ _ _ => 1 + p.fill + steps false rest
    | .scan _ _ _ => 1 + steps true rest
    | .alone marker _ =>
      if scanning = true ∧ IsRestart marker then steps true rest
      else 1 + p.fill + steps false rest

namespace File

/-- The bytes of a file. -/
def bytes (f : File) : Bytes := [0xFF, 0xD8] ++ (fillBytes f.fill ++ tailBytes f.pieces)

/-- A file is within the limits of the walk: a step is a marker, or a fill byte outside of scans. -/
structure InCaps (f : File) : Prop where
  size : f.bytes.length ≤ maxSize
  markers : f.fill + steps false f.pieces ≤ maxMarkers

end File

/-! ## Looking for a marker -/

section Scan

variable {R : Reader} {data : Bytes} {ctx : Ctx} {cap fuel pos p : ℕ}

/-- The first marker of a window. -/
lemma find_marker_eq_some {buf : Bytes} {i : ℕ} (hi : i + 1 < buf.length) (h : MarkerAt buf i)
    (hfirst : ∀ j < i, ¬ MarkerAt buf j) :
    ((List.range (buf.length - 1)).find? fun i => MarkerAt buf i) = some i := by
  rw [List.find?_range_eq_some]
  exact ⟨by simpa using h, List.mem_range.2 (by omega), fun j hj => by simpa using hfirst j hj⟩

lemma find_marker_eq_none {buf : Bytes} (h : ∀ i, i + 1 < buf.length → ¬ MarkerAt buf i) :
    ((List.range (buf.length - 1)).find? fun i => MarkerAt buf i) = none := by
  rw [List.find?_eq_none]
  intro i hi
  have := List.mem_range.1 hi
  simpa using h i (by omega)

/-- A window of the file shows its markers. -/
lemma markerAt_slice {off n i : ℕ} (hi : i + 1 < n) :
    MarkerAt (slice data off n) i ↔ MarkerAt data (off + i) := by
  unfold MarkerAt
  rw [byteAt_slice, byteAt_slice, if_pos (by omega), if_pos hi, Nat.add_assoc]

/-- **The scan finds the first marker**, in whichever window it lies and if it straddles two. -/
lemma run_nextMarker (hR : R.Reads data) (hu64 : ctx.fileStart + cap ≤ u64Max)
    (hfuel : cap ≤ fuel + pos) (hpos : pos ≤ p) (hcap : p + 1 < cap)
    (hmarker : MarkerAt data (ctx.fileStart + p))
    (hfirst : ∀ i, pos ≤ i → i < p → ¬ MarkerAt data (ctx.fileStart + i)) :
    (nextMarker ctx cap fuel pos).run R = some p := by
  induction fuel generalizing pos with
  | zero => omega
  | succ fuel ih =>
    have hwin : scanWin = 2 ^ 20 := rfl
    rw [nextMarker, if_neg (by omega), ReadProg.run_bind, Png.run_read hR (by omega)]
    set want := min (cap - pos) scanWin with hwant
    have hne : slice data (ctx.fileStart + pos) want ≠ [] := by
      intro h
      have := congrArg List.length h
      rw [length_slice, List.length_nil] at this
      omega
    rw [if_neg hne]
    by_cases hin : p + 1 < pos + want
    · have hfind : ((List.range ((slice data (ctx.fileStart + pos) want).length - 1)).find?
          fun i => MarkerAt (slice data (ctx.fileStart + pos) want) i) = some (p - pos) := by
        refine find_marker_eq_some (by rw [length_slice]; omega) ?_ fun j hj => ?_
        · rw [markerAt_slice (by omega), Nat.add_assoc, Nat.add_sub_cancel' hpos]
          exact hmarker
        · rw [markerAt_slice (by omega), Nat.add_assoc]
          exact hfirst _ (by omega) (by omega)
      rw [hfind]
      show some (pos + (p - pos)) = _
      rw [Nat.add_sub_cancel' hpos]
    · have hfind : ((List.range ((slice data (ctx.fileStart + pos) want).length - 1)).find?
          fun i => MarkerAt (slice data (ctx.fileStart + pos) want) i) = none := by
        apply find_marker_eq_none
        intro i hi
        rw [length_slice] at hi
        rw [markerAt_slice hi, Nat.add_assoc]
        exact hfirst _ (by omega) (by omega)
      rw [hfind]
      dsimp only
      -- the window is full, and the marker begins at its last byte or behind it
      rw [if_neg (by omega)]
      exact ih (by omega) (by omega) fun i hi => hfirst i (by omega)

end Scan

/-! ## Bytes that a scan passes -/

/-- Every byte `FF` is followed by one that makes no marker. -/
def Passed (bs : Bytes) : Prop :=
  ∀ i < bs.length, byteAt bs i = 0xFF → i + 1 < bs.length ∧ IsQuiet (byteAt bs (i + 1))

lemma Passed.append {a b : Bytes} (ha : Passed a) (hb : Passed b) : Passed (a ++ b) := by
  intro i hi hff
  rw [List.length_append] at hi ⊢
  rw [byteAt_append] at hff
  rw [byteAt_append]
  by_cases hlt : i < a.length
  · rw [if_pos hlt] at hff
    obtain ⟨hnext, hquiet⟩ := ha i hlt hff
    rw [if_pos hnext]
    exact ⟨by omega, hquiet⟩
  · rw [if_neg hlt] at hff
    obtain ⟨hnext, hquiet⟩ := hb (i - a.length) (by omega) hff
    rw [if_neg (by omega), show i + 1 - a.length = i - a.length + 1 by omega]
    exact ⟨by omega, hquiet⟩

@[simp] lemma length_fillBytes (n : ℕ) : (fillBytes n).length = n := List.length_replicate

lemma byteAt_fillBytes {n i : ℕ} (h : i < n) : byteAt (fillBytes n) i = 0xFF :=
  List.getD_replicate 0xFF h

lemma IsRestart.ne_ff {b : UInt8} (h : IsRestart b) : b ≠ 0xFF := by
  rintro rfl
  exact absurd h (by decide)

/-- A restart marker behind fill bytes is passed. -/
lemma passed_restart (fill : ℕ) {b : UInt8} (h : IsRestart b) :
    Passed (fillBytes fill ++ [0xFF, b]) := by
  intro i hi hff
  rw [List.length_append, length_fillBytes] at hi ⊢
  have hi : i < fill + 2 := hi
  show i + 1 < fill + 2 ∧ _
  rw [byteAt_append, length_fillBytes] at hff ⊢
  rcases Nat.lt_trichotomy (i + 1) fill with hlt | heq | hgt
  · rw [if_pos hlt, byteAt_fillBytes hlt]
    exact ⟨by omega, .inr (.inl rfl)⟩
  · rw [if_neg (by omega), heq, Nat.sub_self]
    exact ⟨by omega, .inr (.inl rfl)⟩
  · rw [if_neg (by omega)] at hff ⊢
    rcases Nat.eq_or_lt_of_le (by omega : fill ≤ i) with rfl | hlast
    · rw [show fill + 1 - fill = 1 by omega]
      exact ⟨by omega, .inr (.inr h)⟩
    · -- the last byte is the marker's
      rw [show i - fill = 1 by omega] at hff
      exact absurd hff h.ne_ff

lemma passed_code (c : Code) : Passed c.bytes := by
  cases c with
  | plain b h =>
    intro i hi hff
    obtain rfl : i = 0 := Nat.lt_one_iff.1 hi
    exact absurd hff h
  | stuffed =>
    intro i hi hff
    rcases i with _ | _ | i
    · exact ⟨Nat.lt_succ_self 1, .inl rfl⟩
    · exact absurd hff (by decide)
    · exact absurd hi (by rw [Code.bytes]; simp)
  | restart fill b h => exact passed_restart fill h

lemma passed_entropy (codes : List Code) : Passed (codes.flatMap Code.bytes) := by
  induction codes with
  | nil => exact fun i hi => absurd hi (Nat.not_lt_zero i)
  | cons c codes ih => exact (passed_code c).append ih

/-- The bytes lie in the file from `start` on. -/
def Lies (data : Bytes) (start : ℕ) (bs : Bytes) : Prop := slice data start bs.length = bs

lemma lies_append {data : Bytes} {start : ℕ} {a b : Bytes} :
    Lies data start (a ++ b) ↔ Lies data start a ∧ Lies data (start + a.length) b := by
  unfold Lies
  rw [List.length_append, slice_add]
  constructor
  · exact fun h => List.append_inj h (length_slice ..)
  · rintro ⟨ha, hb⟩
    rw [ha, hb]

lemma Lies.byteAt {data : Bytes} {start : ℕ} {bs : Bytes} (h : Lies data start bs) {i : ℕ}
    (hi : i < bs.length) : byteAt data (start + i) = byteAt bs i := by
  have hb := congrArg (FileBytes.byteAt · i) h
  simpa only [byteAt_slice, if_pos hi] using hb

/-! ## The steps of the walk -/

section Walk

variable {R : Reader} {data : Bytes} {ctx : Ctx} {parseExif : ParseExif} {cap fuel pos m : ℕ}
  {sawSof sawSos : Bool} {found : Metadata × Bool}

lemma not_isFull_truncated : ¬ (truncated pos sawSof).IsFull m := by
  unfold truncated
  split
  · exact Verdict.not_isFull_rejected
  · exact fun h => absurd h.2.1 (by decide : Validity.truncated ≠ .full)

/-- The four bytes that a step reads. -/
lemma byteAt_run_read (hR : R.Reads data) (hu64 : ctx.fileStart + cap ≤ u64Max)
    (hpos : pos + 2 ≤ cap) {i : ℕ} (hi : i < 4) :
    byteAt ((ctx.read pos 4).run R) i = byteAt data (ctx.fileStart + pos + i) := by
  rw [Png.run_read hR (by omega), byteAt_slice, if_pos hi]

/-- At the end marker the file is complete. -/
lemma walk_end (hR : R.Reads data) (hu64 : ctx.fileStart + cap ≤ u64Max) (hpos : pos + 2 ≤ cap)
    (hbytes : Lies data (ctx.fileStart + pos) [0xFF, 0xD9]) :
    ((walk ctx parseExif cap (fuel + 1) pos sawSof sawSos found).run R).IsFull m ↔ m = pos + 2 := by
  have hff := hbytes.byteAt (Nat.zero_lt_two)
  have hmarker := hbytes.byteAt (Nat.one_lt_two)
  rw [walk, if_neg (by omega), ReadProg.run_bind]
  simp only [byteAt_run_read hR hu64 hpos (Nat.zero_lt_succ 3),
    byteAt_run_read hR hu64 hpos (by omega : 1 < 4), hff, hmarker]
  exact ⟨fun h => h.2.2.symm, fun h => ⟨rfl, rfl, h.symm⟩⟩

/-- A fill byte is passed in one step. -/
lemma walk_fill (hR : R.Reads data) (hu64 : ctx.fileStart + cap ≤ u64Max) (hpos : pos + 2 ≤ cap)
    (hbytes : Lies data (ctx.fileStart + pos) [0xFF, 0xFF]) :
    (walk ctx parseExif cap (fuel + 1) pos sawSof sawSos found).run R =
      (walk ctx parseExif cap fuel (pos + 1) sawSof sawSos found).run R := by
  have hff := hbytes.byteAt (Nat.zero_lt_two)
  have hmarker := hbytes.byteAt (Nat.one_lt_two)
  rw [walk, if_neg (by omega), ReadProg.run_bind]
  simp only [byteAt_run_read hR hu64 hpos (Nat.zero_lt_succ 3),
    byteAt_run_read hR hu64 hpos (by omega : 1 < 4), hff, hmarker]
  rfl

/-- A marker that stands alone is passed in one step. -/
lemma walk_alone (hR : R.Reads data) (hu64 : ctx.fileStart + cap ≤ u64Max) (hpos : pos + 2 ≤ cap)
    {marker : UInt8} (hm : marker = 0x01 ∨ IsRestart marker)
    (hbytes : Lies data (ctx.fileStart + pos) [0xFF, marker]) :
    (walk ctx parseExif cap (fuel + 1) pos sawSof sawSos found).run R =
      (walk ctx parseExif cap fuel (pos + 2) sawSof sawSos found).run R := by
  have hff : byteAt data (ctx.fileStart + pos + 0) = 0xFF := hbytes.byteAt (Nat.zero_lt_two)
  have hmarker : byteAt data (ctx.fileStart + pos + 1) = marker := hbytes.byteAt (Nat.one_lt_two)
  have hne : marker ≠ 0xD9 ∧ marker ≠ 0xFF := by
    constructor
    all_goals
      rintro rfl
      exact absurd hm (by decide)
  rw [walk, if_neg (by omega), ReadProg.run_bind]
  simp only [byteAt_run_read hR hu64 hpos (Nat.zero_lt_succ 3),
    byteAt_run_read hR hu64 hpos (by omega : 1 < 4), hff, hmarker]
  rw [if_neg (by decide), if_neg hne.1, if_neg hne.2, if_pos hm]

/-- The length field of a segment that lies in the file. -/
lemma seg_of_lies (hR : R.Reads data) (hu64 : ctx.fileStart + cap ≤ u64Max) (hpos : pos + 2 ≤ cap)
    {marker : UInt8} {payload : Bytes} (hlen : payload.length + 2 < 2 ^ 16)
    (hbytes : Lies data (ctx.fileStart + pos) (segmentBytes marker payload)) :
    beU16 ((ctx.read pos 4).run R) 2 = payload.length + 2 := by
  have hfield : Lies data (ctx.fileStart + pos + 2) (beBytes 2 (payload.length + 2)) :=
    (lies_append.1 (lies_append (a := [0xFF, marker]).1 hbytes).2).1
  rw [Lies, length_beBytes] at hfield
  rw [Png.run_read hR (by omega), beU16, beField, if_pos (by rw [length_slice]),
    show (4 : ℕ) = 2 + 2 from rfl, slice_add, List.drop_left' (length_slice ..),
    List.take_of_length_le (length_slice ..).le, hfield]
  exact leValue_beBytes 2 _ (by omega)

/-- A segment is passed in one step, by its length. -/
lemma walk_segment (hR : R.Reads data) (hu64 : ctx.fileStart + cap ≤ u64Max) (hpos : pos + 2 ≤ cap)
    {marker : UInt8} {payload : Bytes} (hm : IsSegment marker) (hlen : payload.length + 2 < 2 ^ 16)
    (hbytes : Lies data (ctx.fileStart + pos) (segmentBytes marker payload)) :
    ∃ sof found', (walk ctx parseExif cap (fuel + 1) pos sawSof sawSos found).run R =
      (walk ctx parseExif cap fuel (pos + 2 + (payload.length + 2)) sof sawSos found').run R := by
  have hhead : 1 < (segmentBytes marker payload).length := by simp [segmentBytes]
  have hff : byteAt data (ctx.fileStart + pos + 0) = 0xFF := hbytes.byteAt (Nat.zero_lt_of_lt hhead)
  have hmarker : byteAt data (ctx.fileStart + pos + 1) = marker := hbytes.byteAt hhead
  have hseg := seg_of_lies hR hu64 hpos hlen hbytes
  obtain ⟨-, hone, hfill, hrestart, hsoi, heoi, hsos⟩ := hm
  have hshort : ¬ payload.length + 2 < 2 := by omega
  rw [walk, if_neg (by omega), ReadProg.run_bind]
  simp only [byteAt_run_read hR hu64 hpos (Nat.zero_lt_succ 3),
    byteAt_run_read hR hu64 hpos (by omega : 1 < 4), hff, hmarker, hseg]
  rw [if_neg (by decide), if_neg heoi, if_neg hfill, if_neg (not_or.2 ⟨hone, hrestart⟩),
    if_neg hsoi, if_neg hsos, if_neg hshort]
  by_cases hsof : IsSof marker
  · rw [if_pos hsof]
    exact ⟨true, found, rfl⟩
  · rw [if_neg hsof]
    by_cases happ : marker = 0xE1
    · rw [if_pos happ, if_neg hshort]
      cases hfound : found.2 with
      | true => exact ⟨sawSof, found, rfl⟩
      | false =>
        refine ⟨sawSof, (extractExif ctx parseExif (pos + 4) (payload.length + 2 - 2) found).run R,
          ?_⟩
        rw [if_neg (by decide), ReadProg.run_bind]
    · rw [if_neg happ, if_neg hshort]
      exact ⟨sawSof, found, rfl⟩

/-- A scan is passed in one step, to the marker behind its data. -/
lemma walk_scan (hR : R.Reads data) (hu64 : ctx.fileStart + cap ≤ u64Max) (hpos : pos + 2 ≤ cap)
    {header : Bytes} (hlen : header.length + 2 < 2 ^ 16)
    (hbytes : Lies data (ctx.fileStart + pos) (segmentBytes 0xDA header)) {p : ℕ}
    (hnext : (nextMarker ctx cap cap (pos + 2 + (header.length + 2))).run R = some p) :
    (walk ctx parseExif cap (fuel + 1) pos sawSof sawSos found).run R =
      (walk ctx parseExif cap fuel p sawSof true found).run R := by
  have hhead : 1 < (segmentBytes 0xDA header).length := by simp [segmentBytes]
  have hff : byteAt data (ctx.fileStart + pos + 0) = 0xFF := hbytes.byteAt (Nat.zero_lt_of_lt hhead)
  have hmarker : byteAt data (ctx.fileStart + pos + 1) = 0xDA := hbytes.byteAt hhead
  have hseg := seg_of_lies hR hu64 hpos hlen hbytes
  have hshort : ¬ header.length + 2 < 2 := by omega
  rw [walk, if_neg (by omega), ReadProg.run_bind]
  simp only [byteAt_run_read hR hu64 hpos (Nat.zero_lt_succ 3),
    byteAt_run_read hR hu64 hpos (by omega : 1 < 4), hff, hmarker, hseg]
  rw [if_neg (by decide), if_neg (by decide), if_neg (by decide), if_neg (by decide),
    if_neg (by decide), if_pos True.intro, if_neg hshort, ReadProg.run_bind, hnext]

/-- Fill bytes before a marker are passed one by one. -/
lemma walk_fillBytes (hR : R.Reads data) (hu64 : ctx.fileStart + cap ≤ u64Max) {fill : ℕ}
    (hpos : pos + fill + 2 ≤ cap) {rest : Bytes}
    (hbytes : Lies data (ctx.fileStart + pos) (fillBytes fill ++ 0xFF :: rest)) :
    ((walk ctx parseExif cap fuel pos sawSof sawSos found).run R).IsFull m ↔ fill ≤ fuel ∧
      ((walk ctx parseExif cap (fuel - fill) (pos + fill) sawSof sawSos found).run R).IsFull m := by
  induction fill generalizing pos fuel with
  | zero => simp
  | succ fill ih =>
    cases fuel with
    | zero =>
      apply iff_of_false not_isFull_truncated
      rintro ⟨hle, -⟩
      exact absurd hle (Nat.not_succ_le_zero fill)
    | succ fuel =>
      have hcons : fillBytes (fill + 1) ++ 0xFF :: rest =
        [0xFF] ++ (fillBytes fill ++ 0xFF :: rest) :=
        rfl
      have htail : Lies data (ctx.fileStart + (pos + 1)) (fillBytes fill ++ 0xFF :: rest) := by
        rw [hcons] at hbytes
        exact (lies_append.1 hbytes).2
      have htwo : Lies data (ctx.fileStart + pos) [0xFF, 0xFF] := by
        have hswap : fillBytes (fill + 1) ++ 0xFF :: rest =
          [0xFF, 0xFF] ++ (fillBytes fill ++ rest) := by
          rw [fillBytes, List.replicate_succ, List.cons_append, fillBytes]
          congr 1
          rw [show (0xFF : UInt8) :: rest = [0xFF] ++ rest from rfl, ← List.append_assoc,
            ← List.replicate_succ']
          rfl
        rw [hswap] at hbytes
        exact (lies_append.1 hbytes).1
      rw [walk_fill hR hu64 (by omega) htwo, ih (by omega) htail, Nat.add_sub_add_right,
        Nat.succ_le_succ_iff, show pos + 1 + fill = pos + (fill + 1) by omega]

/-- **Entropy-coded data is passed**, with the fill bytes behind it, to the marker there. -/
lemma run_nextMarker_of_passed (hR : R.Reads data) (hu64 : ctx.fileStart + cap ≤ u64Max)
    {passed rest : Bytes} {fill : ℕ} {marker : UInt8} (hpassed : Passed passed)
    (hmarker : ¬ IsQuiet marker) (hcap : pos + passed.length + fill + 2 ≤ cap)
    (hbytes : Lies data (ctx.fileStart + pos)
      (passed ++ (fillBytes fill ++ 0xFF :: marker :: rest))) :
    (nextMarker ctx cap cap pos).run R = some (pos + passed.length + fill) := by
  obtain ⟨hhead, htail⟩ := lies_append.1 hbytes
  obtain ⟨hfill, hnext⟩ := lies_append.1 htail
  rw [length_fillBytes] at hnext
  have hlong : 1 < ((0xFF : UInt8) :: marker :: rest).length := by simp
  have hff : byteAt data (ctx.fileStart + pos + passed.length + fill + 0) = 0xFF :=
    hnext.byteAt (Nat.zero_lt_of_lt hlong)
  have hmk : byteAt data (ctx.fileStart + pos + passed.length + fill + 1) = marker :=
    hnext.byteAt hlong
  have hfillAt : ∀ i ≤ fill, byteAt data (ctx.fileStart + pos + passed.length + i) = 0xFF := by
    intro i hi
    rcases Nat.lt_or_eq_of_le hi with hlt | rfl
    · rw [hfill.byteAt (by rwa [length_fillBytes]), byteAt_fillBytes hlt]
    · exact hff
  refine run_nextMarker hR hu64 (by omega) (by omega) (by omega) ?_ fun i hi hlt hat => ?_
  · rw [MarkerAt, show ctx.fileStart + (pos + passed.length + fill) =
      ctx.fileStart + pos + passed.length + fill by omega, hmk]
    exact ⟨hff, hmarker⟩
  · obtain ⟨hbyte, hloud⟩ := hat
    obtain ⟨k, rfl⟩ := Nat.exists_eq_add_of_le hi
    rw [← Nat.add_assoc] at hbyte hloud
    by_cases hin : k < passed.length
    · rw [hhead.byteAt hin] at hbyte
      obtain ⟨hk, hquiet⟩ := hpassed k hin hbyte
      rw [Nat.add_assoc, hhead.byteAt hk] at hloud
      exact hloud hquiet
    · -- a fill byte is followed by a byte `FF`
      have h := hfillAt (k - passed.length + 1) (by omega)
      rw [show ctx.fileStart + pos + passed.length + (k - passed.length + 1) =
        ctx.fileStart + pos + k + 1 by omega] at h
      rw [h] at hloud
      exact hloud (.inr (.inl rfl))

lemma one_le_steps (scanning : Bool) (pieces : List Piece) : 1 ≤ steps scanning pieces := by
  induction pieces generalizing scanning with
  | nil => exact le_refl 1
  | cons p rest ih =>
    rw [steps]
    cases p.body with
    | segment => exact (Nat.le_add_right 1 p.fill).trans (Nat.le_add_right _ _)
    | scan => exact Nat.le_add_right 1 _
    | alone marker =>
      dsimp only
      split
      · exact ih true
      · exact (Nat.le_add_right 1 p.fill).trans (Nat.le_add_right _ _)

/-- The end marker and every body begin with a byte `FF`. -/
lemma exists_tailBytes (pieces : List Piece) : ∃ rest, tailBytes pieces = 0xFF :: rest := by
  cases pieces with
  | nil => exact ⟨_, rfl⟩
  | cons p rest =>
    rw [tailBytes, List.flatMap_cons, Piece.bytes]
    cases p.body with
    | segment => exact ⟨_, rfl⟩
    | scan => exact ⟨_, rfl⟩
    | alone => exact ⟨_, rfl⟩

lemma tailBytes_cons (p : Piece) (rest : List Piece) :
    tailBytes (p :: rest) = p.body.bytes ++ (fillBytes p.fill ++ tailBytes rest) := by
  rw [tailBytes, List.flatMap_cons, Piece.bytes, List.append_assoc, List.append_assoc]
  rfl

/-- From a piece on, the walk gets to the end marker if it has the steps. -/
def Walks (R : Reader) (data : Bytes) (ctx : Ctx) (parseExif : ParseExif) (cap : ℕ)
    (pieces : List Piece) : Prop :=
  ∀ fuel pos sawSof sawSos found m, pos + (tailBytes pieces).length ≤ cap →
    Lies data (ctx.fileStart + pos) (tailBytes pieces) →
    (((walk ctx parseExif cap fuel pos sawSof sawSos found).run R).IsFull m ↔
      steps false pieces ≤ fuel ∧ m = pos + (tailBytes pieces).length)

/-- Behind entropy-coded data, the scan finds a marker from which the walk gets to the end. -/
def Scans (R : Reader) (data : Bytes) (ctx : Ctx) (parseExif : ParseExif) (cap : ℕ)
    (pieces : List Piece) : Prop :=
  ∀ passed fill pos, Passed passed → pos + passed.length + fill + (tailBytes pieces).length ≤ cap →
    Lies data (ctx.fileStart + pos) (passed ++ (fillBytes fill ++ tailBytes pieces)) →
    ∃ p, (nextMarker ctx cap cap pos).run R = some p ∧ ∀ fuel sawSof sawSos found m,
      ((walk ctx parseExif cap fuel p sawSof sawSos found).run R).IsFull m ↔
        steps true pieces ≤ fuel ∧ m = pos + passed.length + fill + (tailBytes pieces).length

/-- A scan stops at a marker that it does not pass. -/
lemma Walks.scans (hR : R.Reads data) (hu64 : ctx.fileStart + cap ≤ u64Max) {pieces : List Piece}
    (h : Walks R data ctx parseExif cap pieces) {marker : UInt8} {rest : Bytes}
    (htail : tailBytes pieces = 0xFF :: marker :: rest) (hmarker : ¬ IsQuiet marker)
    (hsteps : steps true pieces = steps false pieces) :
    Scans R data ctx parseExif cap pieces := by
  intro passed fill pos hpassed hcap hbytes
  have hlong : 2 ≤ (tailBytes pieces).length := by
    rw [htail]
    simp
  refine ⟨pos + passed.length + fill, ?_, fun fuel sawSof sawSos found m => ?_⟩
  · rw [htail] at hbytes
    exact run_nextMarker_of_passed hR hu64 hpassed hmarker (by omega) hbytes
  · have hlies := (lies_append.1 (lies_append.1 hbytes).2).2
    rw [length_fillBytes, Nat.add_assoc, Nat.add_assoc, ← Nat.add_assoc pos] at hlies
    rw [hsteps]
    exact h fuel _ sawSof sawSos found m (by omega) hlies

/-- A body without a scan is followed by fill bytes and the rest. -/
lemma Walks.after (hR : R.Reads data) (hu64 : ctx.fileStart + cap ≤ u64Max) {fill : ℕ}
    {rest : List Piece} (h : Walks R data ctx parseExif cap rest)
    (hcap : pos + fill + (tailBytes rest).length ≤ cap)
    (hbytes : Lies data (ctx.fileStart + pos) (fillBytes fill ++ tailBytes rest)) :
    ((walk ctx parseExif cap fuel pos sawSof sawSos found).run R).IsFull m ↔
      fill + steps false rest ≤ fuel ∧ m = pos + fill + (tailBytes rest).length := by
  have hlong : 2 ≤ (tailBytes rest).length := by
    rw [tailBytes, List.length_append]
    exact Nat.le_add_left 2 _
  obtain ⟨bs, htail⟩ := exists_tailBytes rest
  have hlies := (lies_append.1 hbytes).2
  rw [length_fillBytes, Nat.add_assoc] at hlies
  have hsteps := one_le_steps false rest
  rw [htail] at hbytes
  rw [walk_fillBytes hR hu64 (by omega) hbytes, h _ _ _ _ _ _ hcap hlies]
  omega

@[simp] lemma length_segmentBytes (marker : UInt8) (payload : Bytes) :
    (segmentBytes marker payload).length = 4 + payload.length := by
  rw [segmentBytes, List.length_cons, List.length_cons, List.length_append, length_beBytes]
  omega

lemma length_tailBytes_cons (p : Piece) (rest : List Piece) :
    (tailBytes (p :: rest)).length = p.body.bytes.length + p.fill + (tailBytes rest).length := by
  rw [tailBytes_cons, List.length_append, List.length_append, length_fillBytes, Nat.add_assoc]

/-- The bytes behind a body. -/
lemma lies_after {p : Piece} {rest : List Piece}
    (h : Lies data (ctx.fileStart + pos) (tailBytes (p :: rest))) :
    Lies data (ctx.fileStart + pos) p.body.bytes ∧
      Lies data (ctx.fileStart + (pos + p.body.bytes.length))
        (fillBytes p.fill ++ tailBytes rest) := by
  rw [tailBytes_cons, lies_append, Nat.add_assoc] at h
  exact h

/-- A walk without steps left ends. -/
lemma not_isFull_zero {pieces : List Piece} :
    ((walk ctx parseExif cap 0 pos sawSof sawSos found).run R).IsFull m ↔
      steps false pieces ≤ 0 ∧ m = pos + (tailBytes pieces).length :=
  iff_of_false not_isFull_truncated fun h => absurd (one_le_steps false pieces) (by omega)

lemma walks_segment (hR : R.Reads data) (hu64 : ctx.fileStart + cap ≤ u64Max) {fill : ℕ}
    {rest : List Piece} (h : Walks R data ctx parseExif cap rest) {marker : UInt8} {payload : Bytes}
    (hm : IsSegment marker) (hlen : payload.length + 2 < 2 ^ 16) :
    Walks R data ctx parseExif cap (⟨.segment marker payload hm hlen, fill⟩ :: rest) := by
  intro fuel pos sawSof sawSos found m hcap hbytes
  obtain ⟨hbody, hrest⟩ := lies_after hbytes
  have hbodyLen : (Body.segment marker payload hm hlen).bytes.length = 4 + payload.length :=
    length_segmentBytes ..
  cases fuel with
  | zero => exact not_isFull_zero
  | succ fuel =>
    rw [length_tailBytes_cons] at hcap ⊢
    rw [hbodyLen] at hrest hcap ⊢
    dsimp only at hrest hcap ⊢
    obtain ⟨sof, found', hstep⟩ : ∃ sof found',
        (walk ctx parseExif cap (fuel + 1) pos sawSof sawSos found).run R =
          (walk ctx parseExif cap fuel (pos + 2 + (payload.length + 2)) sof sawSos found').run R :=
      walk_segment hR hu64 (by omega) hm hlen hbody
    rw [hstep, show pos + 2 + (payload.length + 2) = pos + (4 + payload.length) by omega,
      h.after hR hu64 (by omega) hrest, steps]
    dsimp only
    omega

lemma walks_alone (hR : R.Reads data) (hu64 : ctx.fileStart + cap ≤ u64Max) {fill : ℕ}
    {rest : List Piece} (h : Walks R data ctx parseExif cap rest) {marker : UInt8}
    (hm : marker = 0x01 ∨ IsRestart marker) :
    Walks R data ctx parseExif cap (⟨.alone marker hm, fill⟩ :: rest) := by
  intro fuel pos sawSof sawSos found m hcap hbytes
  obtain ⟨hbody, hrest⟩ := lies_after hbytes
  have hbodyLen : (Body.alone marker hm).bytes.length = 2 := rfl
  cases fuel with
  | zero => exact not_isFull_zero
  | succ fuel =>
    rw [length_tailBytes_cons] at hcap ⊢
    rw [hbodyLen] at hrest hcap ⊢
    dsimp only at hrest hcap ⊢
    rw [walk_alone hR hu64 (by omega) hm hbody, h.after hR hu64 (by omega) hrest, steps]
    dsimp only
    rw [if_neg (by simp)]
    omega

lemma walks_scan (hR : R.Reads data) (hu64 : ctx.fileStart + cap ≤ u64Max) {fill : ℕ}
    {rest : List Piece} (h : Scans R data ctx parseExif cap rest) {header : Bytes}
    (hlen : header.length + 2 < 2 ^ 16) (entropy : List Code) :
    Walks R data ctx parseExif cap (⟨.scan header hlen entropy, fill⟩ :: rest) := by
  intro fuel pos sawSof sawSos found m hcap hbytes
  obtain ⟨hbody, hrest⟩ := lies_after hbytes
  obtain ⟨hheader, hentropy⟩ := lies_append.1 hbody
  have hbodyLen : (Body.scan header hlen entropy).bytes.length =
      4 + header.length + (entropy.flatMap Code.bytes).length := by
    rw [Body.bytes, List.length_append, length_segmentBytes]
  cases fuel with
  | zero => exact not_isFull_zero
  | succ fuel =>
    rw [length_tailBytes_cons] at hcap ⊢
    rw [hbodyLen] at hrest hcap ⊢
    dsimp only at hrest hcap ⊢
    rw [length_segmentBytes, Nat.add_assoc] at hentropy
    have hlies : Lies data (ctx.fileStart + (pos + (4 + header.length)))
        (entropy.flatMap Code.bytes ++ (fillBytes fill ++ tailBytes rest)) := by
      refine lies_append.2 ⟨hentropy, ?_⟩
      rwa [Nat.add_assoc ctx.fileStart, Nat.add_assoc pos]
    obtain ⟨p, hnext, hwalk⟩ := h _ _ _ (passed_entropy entropy) (by omega) hlies
    rw [show pos + (4 + header.length) = pos + 2 + (header.length + 2) by omega] at hnext
    rw [walk_scan hR hu64 (by omega) hlen hheader hnext, hwalk, steps]
    dsimp only
    omega

/-- **The walk gets to the end of every file**, if it has the steps. -/
lemma walks (hR : R.Reads data) (hu64 : ctx.fileStart + cap ≤ u64Max) (pieces : List Piece) :
    Walks R data ctx parseExif cap pieces ∧ Scans R data ctx parseExif cap pieces := by
  induction pieces with
  | nil =>
    have hwalks : Walks R data ctx parseExif cap [] := by
      intro fuel pos sawSof sawSos found m hcap hbytes
      cases fuel with
      | zero => exact not_isFull_zero
      | succ fuel =>
        rw [walk_end hR hu64 hcap hbytes]
        exact (and_iff_right (Nat.le_add_left 1 fuel)).symm
    exact ⟨hwalks, hwalks.scans hR hu64 rfl (by decide) rfl⟩
  | cons p rest ih =>
    obtain ⟨ihwalks, ihscans⟩ := ih
    obtain ⟨body, fill⟩ := p
    cases body with
    | segment marker payload hm hlen =>
      have hwalks : Walks R data ctx parseExif cap
          (⟨.segment marker payload hm hlen, fill⟩ :: rest) := walks_segment hR hu64 ihwalks hm hlen
      have hloud : ¬ IsQuiet marker := by
        rintro (h | h | h)
        · exact hm.1 h
        · exact hm.2.2.1 h
        · exact hm.2.2.2.1 h
      exact ⟨hwalks, hwalks.scans hR hu64 (tailBytes_cons _ _) hloud rfl⟩
    | scan header hlen entropy =>
      have hwalks : Walks R data ctx parseExif cap (⟨.scan header hlen entropy, fill⟩ :: rest) :=
        walks_scan hR hu64 ihscans hlen entropy
      exact ⟨hwalks, hwalks.scans hR hu64 (tailBytes_cons _ _) (by decide) rfl⟩
    | alone marker hm =>
      have hwalks : Walks R data ctx parseExif cap (⟨.alone marker hm, fill⟩ :: rest) :=
        walks_alone hR hu64 ihwalks hm
      by_cases hrestart : IsRestart marker
      · -- a restart marker behind a scan is passed with its data
        refine ⟨hwalks, fun passed before pos hpassed hcap hbytes => ?_⟩
        have hlength := length_tailBytes_cons ⟨.alone marker hm, fill⟩ rest
        rw [show (Piece.body ⟨.alone marker hm, fill⟩).bytes.length = 2 from rfl] at hlength
        dsimp only at hlength
        have hmore : (passed ++ (fillBytes before ++ [0xFF, marker])).length =
            passed.length + before + 2 := by
          rw [List.length_append, List.length_append, length_fillBytes, Nat.add_assoc]
          rfl
        have hlies : Lies data (ctx.fileStart + pos)
          ((passed ++ (fillBytes before ++ [0xFF, marker])) ++
            (fillBytes fill ++ tailBytes rest)) := by
          rw [tailBytes_cons] at hbytes
          simpa only [Body.bytes, List.append_assoc] using hbytes
        obtain ⟨p, hnext, hwalk⟩ := ihscans _ _ _
          (hpassed.append (passed_restart before hrestart)) (by omega) hlies
        refine ⟨p, hnext, fun fuel sawSof sawSos found m => ?_⟩
        rw [hwalk, steps, hmore, hlength]
        dsimp only
        rw [if_pos ⟨rfl, hrestart⟩]
        omega
      · have hloud : ¬ IsQuiet marker := by
          rcases hm with rfl | hm
          · decide
          · exact absurd hm hrestart
        refine ⟨hwalks, hwalks.scans hR hu64 (tailBytes_cons _ _) hloud ?_⟩
        simp only [steps, hrestart, and_false]

end Walk

/-! ## Whole files -/

section Whole

variable {R : Reader} {data before after : Bytes} {ctx : Ctx} {f : File}

/-- **When a file is returned whole**: within the size, exactly when the walk has the steps. -/
lemma validate_file_iff (parseExif : ParseExif) (hR : R.Reads data)
    (hdata : data = before ++ f.bytes ++ after) (hstart : ctx.fileStart = before.length)
    (hlen : ctx.sourceLen = data.length) (hu64 : data.length ≤ u64Max)
    (hsize : f.bytes.length ≤ maxSize) (hmax : f.bytes.length ≤ ctx.maxLen) :
    ((validate parseExif ctx).run R).IsFull f.bytes.length ↔
      f.fill + steps false f.pieces ≤ maxMarkers := by
  have htotal : data.length = before.length + f.bytes.length + after.length := by
    rw [hdata, List.length_append, List.length_append]
  have hlength : f.bytes.length = 2 + (f.fill + (tailBytes f.pieces).length) := by
    rw [File.bytes, List.length_append, List.length_append, length_fillBytes]
    rfl
  have hlong : 2 ≤ (tailBytes f.pieces).length := by
    rw [tailBytes, List.length_append]
    exact Nat.le_add_left 2 _
  have hlies : Lies data ctx.fileStart f.bytes := by
    rw [hdata, hstart]
    exact slice_between _ _ _
  obtain ⟨hhead, hrest⟩ := lies_append.1 hlies
  have havail : f.bytes.length ≤ min ctx.available maxSize := by
    rw [Ctx.available, hlen, hstart]
    omega
  have hcap : ctx.fileStart + min ctx.available maxSize ≤ u64Max := by
    have := min_le_left (ctx.sourceLen - ctx.fileStart) ctx.maxLen
    rw [Ctx.available]
    omega
  have hff : byteAt data (ctx.fileStart + 0 + 0) = 0xFF := hhead.byteAt Nat.zero_lt_two
  have hsoi : byteAt data (ctx.fileStart + 0 + 1) = 0xD8 := hhead.byteAt Nat.one_lt_two
  rw [validate, ReadProg.run_bind, byteAt_run_read hR hcap (by omega) (Nat.zero_lt_succ 3),
    byteAt_run_read hR hcap (by omega) (by omega), hff, hsoi, if_neg (by decide)]
  dsimp only
  rw [if_neg (by omega)]
  rw [List.length_cons, List.length_singleton] at hrest
  rw [(walks hR hcap f.pieces).1.after hR hcap (by omega) hrest]
  omega

/-- **Every JPEG file is returned whole**, whatever lies before and behind it: whatever its
segments hold, wherever a window ends, however many scans, restart markers and fill bytes it has. -/
theorem validate_of_file (parseExif : ParseExif) (hR : R.Reads data)
    (hdata : data = before ++ f.bytes ++ after) (hstart : ctx.fileStart = before.length)
    (hlen : ctx.sourceLen = data.length) (hu64 : data.length ≤ u64Max) (hcaps : f.InCaps)
    (hmax : f.bytes.length ≤ ctx.maxLen) :
    ((validate parseExif ctx).run R).IsFull f.bytes.length :=
  (validate_file_iff parseExif hR hdata hstart hlen hu64 hcaps.size hmax).2 hcaps.markers

end Whole

/-- `image.jpeg` of the catalog. -/
def jpegSig : SigDef where
  id := "image.jpeg"
  family := "image"
  extensions := ["jpg", "jpeg", "jpe"]
  headers := (HeaderPat.ofPattern 0 [some 0xFF, some 0xD8, some 0xFF, none]).toList
  footer := some ⟨[0xFF, 0xD9], 256 * 1024 * 1024⟩
  minSize := 107
  strategy := .structural
  validator := some "jpeg"
  blockAligned := true
  footerAnchored := false

/-- A comment that holds an end marker, and a scan with a stuffed byte and a restart marker. -/
def decoyFile : File where
  fill := 1
  pieces :=
    [⟨.segment 0xFE [0x00, 0xFF, 0xD9, 0x11] (by decide) (by decide), 0⟩,
      ⟨.scan [0x01, 0x02] (by decide)
        [.plain 0x11 (by decide), .stuffed, .restart 1 0xD0 (by decide),
          .plain 0x22 (by decide)], 2⟩]

/-- The file is returned whole, with an end marker behind it. -/
theorem validate_of_file_decoyFile :
    ((validate (fun _ _ => (⟨none, none, none⟩, false))
      ⟨([7] ++ decoyFile.bytes ++ [0xFF, 0xD9]).length, 1, 1000, jpegSig⟩).run
        (memReader ([7] ++ decoyFile.bytes ++ [0xFF, 0xD9]))).IsFull decoyFile.bytes.length :=
  validate_of_file _ (memReader_reads _) rfl rfl rfl (by decide) ⟨by decide, by decide⟩ (by decide)

end Jpeg
end Reclaim
