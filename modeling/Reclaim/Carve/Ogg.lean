import Reclaim.Carve.FileView

/-!
# Ogg streams

An Ogg stream is a list of pages.  Each page belongs to a bitstream, by its serial number, and says
whether it is the first or the last of it; the pages of several bitstreams interleave.  The
validator adds up pages to the first one that is the last of its bitstream, whichever that is.
-/

namespace Reclaim

open FileBytes

namespace Ogg

/-- `OggS`. -/
def magic : Bytes := [0x4F, 0x67, 0x67, 0x53]

/-- `MAX`. -/
def maxSize : ℕ := 2 * 1024 * 1024 * 1024

/-- `MAX_PAGES`. -/
def maxPages : ℕ := 5000000

/-- `refine`: the codec, by the first bytes of the first page. -/
def refine (payload : Bytes) : String :=
  -- OpusHead, or vorbis behind a byte
  if [0x4F, 0x70, 0x75, 0x73, 0x48, 0x65, 0x61, 0x64].isPrefixOf payload ||
      (payload.drop 1).take 6 == [0x76, 0x6F, 0x72, 0x62, 0x69, 0x73] then "audio.ogg"
  -- theora behind a byte
  else if (payload.drop 1).take 6 == [0x74, 0x68, 0x65, 0x6F, 0x72, 0x61] then "video.ogv"
  else "audio.ogg"

/-- The id so far, or what the first page says. -/
def readKind (ctx : Ctx) (first : Bool) (payloadPos : ℕ) (id : String) : ReadProg String :=
  if first then do
    let payload ← ctx.read payloadPos 8
    pure (refine payload)
  else pure id

/-- What the walk returns where there is no page. -/
def finish (cap pos : ℕ) (id : String) : Verdict :=
  if pos < 58 then .rejected
  else { Verdict.accepted (min pos cap) .truncated 55 with format := some id }

/-- The pages from `pos` on, `fuel` at most, with whether this is the first, and the id. -/
def walk (ctx : Ctx) (cap : ℕ) : (fuel pos : ℕ) → Bool × String → ReadProg Verdict
  | 0, pos, s => pure (finish cap pos s.2)
  | fuel + 1, pos, s => do
    let hdr ← ctx.read pos 27
    if hdr.take 4 ≠ magic then pure (finish cap pos s.2)
    else do
      let headerType := byteAt hdr 5
      let nsegs := (byteAt hdr 26).toNat
      let segtab ← ctx.read (pos + 27) nsegs
      let body := (segtab.map UInt8.toNat).sum
      let pageLen := 27 + nsegs + body
      let id ← readKind ctx s.1 (pos + 27 + nsegs) s.2
      let stop := pos + pageLen
      if cap < stop then
        pure { Verdict.accepted cap .truncated 45 with format := some id }
      -- end of stream
      else if headerType &&& 0x04 ≠ 0 then
        pure { Verdict.accepted stop .full 88 with format := some id }
      else walk ctx cap fuel stop (false, id)

/-- `validate`. -/
def validate (ctx : Ctx) : ReadProg Verdict := do
  let head ← ctx.read 0 4
  if head ≠ magic then pure .rejected
  else walk ctx (min ctx.available maxSize) maxPages 0 (true, "audio.ogg")

/-! ## The format -/

/-- A page. -/
structure Page where
  version : UInt8
  headerType : UInt8
  granule : Bytes
  /-- The bitstream that the page belongs to. -/
  serial : Bytes
  /-- Sequence number and checksum. -/
  check : Bytes
  /-- The lengths of the segments. -/
  segments : Bytes
  body : Bytes
  granule_length : granule.length = 8
  serial_length : serial.length = 4
  check_length : check.length = 8
  segments_lt : segments.length < 256
  body_length : body.length = (segments.map UInt8.toNat).sum

namespace Page

/-- The page begins its bitstream. -/
def Begins (p : Page) : Prop := p.headerType &&& 0x02 ≠ 0

/-- The page ends its bitstream. -/
def Ends (p : Page) : Prop := p.headerType &&& 0x04 ≠ 0

instance (p : Page) : Decidable p.Begins := inferInstanceAs (Decidable (_ ≠ _))

instance (p : Page) : Decidable p.Ends := inferInstanceAs (Decidable (_ ≠ _))

/-- The header of a page. -/
def header (p : Page) : Bytes :=
  [magic, [p.version, p.headerType], p.granule, p.serial, p.check,
    [UInt8.ofNat p.segments.length]].flatten

/-- The bytes of a page. -/
def bytes (p : Page) : Bytes := p.header ++ (p.segments ++ p.body)

lemma length_header (p : Page) : p.header.length = 27 := by
  simp [header, magic, p.granule_length, p.serial_length, p.check_length]

lemma length_bytes (p : Page) : p.bytes.length = 27 + p.segments.length + p.body.length := by
  rw [bytes, List.length_append, List.length_append, length_header]
  omega

lemma bytes_pos (p : Page) : 0 < p.bytes.length := by
  rw [length_bytes]
  omega

/-- The fields of the header. -/
lemma read_header (p : Page) : p.header.take 4 = magic ∧ byteAt p.header 5 = p.headerType ∧
    (byteAt p.header 26).toNat = p.segments.length := by
  refine ⟨rfl, rfl, ?_⟩
  have hlast : p.header =
    [magic, [p.version, p.headerType], p.granule, p.serial, p.check].flatten ++
      [UInt8.ofNat p.segments.length] := by
    simp [header]
  have hlen : [magic, [p.version, p.headerType], p.granule, p.serial, p.check].flatten.length =
      26 := by
    simp [magic, p.granule_length, p.serial_length, p.check_length]
  rw [hlast, byteAt_append, hlen, if_neg (lt_irrefl 26), Nat.sub_self]
  exact UInt8.toNat_ofNat_of_lt p.segments_lt

end Page

/-- The bytes of a list of pages. -/
def bytesOf (pages : List Page) : Bytes := pages.flatMap Page.bytes

/-! ## The walk -/

section Walk

variable {R : Reader} {ctx : Ctx} {g T : Bytes} {cap fuel pos n : ℕ} {p : Page} {pre : List Page}

lemma not_isFull_finish {id : String} : ¬ (finish cap pos id).IsFull n := by
  unfold finish
  split
  · exact Verdict.not_isFull_rejected
  · exact fun h => absurd h.2.1 (by decide : Validity.truncated ≠ .full)

/-- **One page of the walk.** -/
lemma run_walk_page (cap fuel : ℕ) (h : ctx.Sees R g) (hg : g.drop pos = p.bytes ++ T)
    (s : Bool × String) :
    ∃ id, (walk ctx cap (fuel + 1) pos s).run R =
      if cap < pos +
        p.bytes.length then { Verdict.accepted cap .truncated 45 with format := some id }
      else if p.Ends then
        { Verdict.accepted (pos + p.bytes.length) .full 88 with format := some id }
      else (walk ctx cap fuel (pos + p.bytes.length) (false, id)).run R := by
  obtain ⟨hmagic, htype, hsegs⟩ := p.read_header
  have hheader : slice g pos 27 = p.header := by
    have hfirst := slice_append_length p.header (p.segments ++ p.body ++ T)
    rw [p.length_header] at hfirst
    rw [slice_eq_slice_drop, hg, Page.bytes, List.append_assoc]
    exact hfirst
  have htable : slice g (pos + 27) p.segments.length = p.segments := by
    rw [slice_eq_slice_drop, ← List.drop_drop, hg, Page.bytes, List.append_assoc,
      List.drop_left' p.length_header, List.append_assoc, slice_append_length]
  have hstop : pos + (27 + p.segments.length + p.body.length) = pos + p.bytes.length := by
    rw [p.length_bytes]
  rw [walk]
  simp only [ReadProg.run_bind, ReadProg.run_ite, h.read, ReadProg.run_pure]
  rw [hheader, hmagic, htype, hsegs, htable, ← p.body_length, hstop, if_neg (not_not.2 rfl)]
  exact ⟨_, rfl⟩

/-- **The walk returns in full at the first page that ends a bitstream**, if it gets there. -/
lemma walk_isFull_page_iff (h : ctx.Sees R g) (hpre : ∀ q ∈ pre, ¬ q.Ends) (hp : p.Ends)
    (hg : g.drop pos = bytesOf (pre ++ [p]) ++ T) (s : Bool × String) :
    ((walk ctx cap fuel pos s).run R).IsFull n ↔ pre.length < fuel ∧
      pos + (bytesOf (pre ++ [p])).length ≤ cap ∧ n = pos + (bytesOf (pre ++ [p])).length := by
  have hcons : ∀ q rest, bytesOf (q :: rest) = q.bytes ++ bytesOf rest := fun q rest =>
    List.flatMap_cons
  induction pre generalizing pos fuel s with
  | nil =>
    rw [List.nil_append, hcons, List.append_assoc] at hg
    have hlen : (bytesOf ([] ++ [p])).length = p.bytes.length := by
      rw [List.nil_append, hcons, List.length_append]
      rfl
    rw [hlen]
    cases fuel with
    | zero => exact iff_of_false not_isFull_finish fun hx => absurd hx.1 (lt_irrefl 0)
    | succ fuel =>
      obtain ⟨id, hrun⟩ := run_walk_page cap fuel h hg s
      rw [hrun, if_pos hp]
      split
      · exact iff_of_false (fun hf => absurd hf.2.1 (by decide : Validity.truncated ≠ .full))
          (by omega)
      · rename_i hfit
        exact ⟨fun hf => ⟨Nat.succ_pos fuel, not_lt.1 hfit, hf.2.2.symm⟩,
          fun hx => ⟨rfl, rfl, hx.2.2.symm⟩⟩
  | cons q rest ih =>
    obtain ⟨hq, hrest⟩ := List.forall_mem_cons.1 hpre
    rw [List.cons_append, hcons, List.append_assoc] at hg
    rw [List.cons_append, hcons, List.length_append, List.length_cons]
    have hnext : g.drop (pos + q.bytes.length) = bytesOf (rest ++ [p]) ++ T := by
      rw [← List.drop_drop, hg, List.drop_left]
    cases fuel with
    | zero => exact iff_of_false not_isFull_finish fun hx => absurd hx.1 (Nat.not_lt_zero _)
    | succ fuel =>
      obtain ⟨id, hrun⟩ := run_walk_page cap fuel h hg s
      rw [hrun, if_neg hq]
      split
      · exact iff_of_false (fun hf => absurd hf.2.1 (by decide : Validity.truncated ≠ .full))
          (by omega)
      · refine (ih hrest hnext (false, id)).trans ?_
        omega

end Walk

/-! ## A stream and what follows it -/

/-- The page behind the pages `pre` is the last one of a bitstream that begins in the stream. -/
def EndsAt (pages pre : List Page) (p : Page) : Prop :=
  pre ++ [p] <+: pages ∧ p.Ends ∧ ∃ q ∈ pre ++ [p], q.Begins ∧ q.serial = p.serial

/-- The first `n` bytes have all pages of each bitstream up to its last one. -/
def Whole (pages : List Page) (n : ℕ) : Prop :=
  ∀ pre p, EndsAt pages pre p → (bytesOf (pre ++ [p])).length ≤ n

section Stream

variable {R : Reader} {ctx : Ctx} {pages pre pre' : List Page} {p q : Page} {T : Bytes}

lemma length_bytesOf_le (h : pre <+: pages) : (bytesOf pre).length ≤ (bytesOf pages).length := by
  obtain ⟨rest, rfl⟩ := h
  rw [bytesOf, bytesOf, List.flatMap_append, List.length_append]
  exact Nat.le_add_right _ _

lemma slice_magic (p : Page) (rest : List Page) (T : Bytes) :
    slice (bytesOf (p :: rest) ++ T) 0 4 = magic := by
  rw [bytesOf, List.flatMap_cons, Page.bytes, Page.header, List.flatten_cons, List.append_assoc,
    List.append_assoc, List.append_assoc]
  exact slice_append_length magic _

/-- Of two beginnings of a stream the one with more pages has more bytes. -/
lemma length_bytesOf_le_iff (hp : pre ++ [p] <+: pages) (hq : pre' ++ [q] <+: pages) :
    (bytesOf (pre' ++ [q])).length ≤ (bytesOf (pre ++ [p])).length ↔ pre'.length ≤ pre.length := by
  have hlen : ∀ (l : List Page) r, (l ++ [r]).length = l.length + 1 := fun l r =>
    List.length_append
  constructor
  · intro hle
    by_contra hlt
    -- the shorter beginning is one of what the longer one has before its last page
    have hpre : pre ++ [p] <+: pre' :=
      List.prefix_of_prefix_length_le hp ((List.prefix_append _ _).trans hq) (by rw [hlen]; omega)
    have hshort := length_bytesOf_le hpre
    have hlong : (bytesOf (pre' ++ [q])).length = (bytesOf pre').length + q.bytes.length := by
      rw [bytesOf, List.flatMap_append, List.length_append, List.flatMap_singleton]
      rfl
    have := q.bytes_pos
    omega
  · intro hle
    exact length_bytesOf_le (List.prefix_of_prefix_length_le hq hp (by rw [hlen, hlen]; omega))

/-- **When nothing is cut off**: the first page that ends a bitstream, if the walk gets to it, ends
the last of them. -/
theorem stream_whole_iff (h : ctx.Sees R (bytesOf pages ++ T)) :
    (∀ n, ((validate ctx).run R).IsFull n → Whole pages n) ↔
      ∀ pre p, pre ++ [p] <+: pages → p.Ends → (∀ q ∈ pre, ¬ q.Ends) → pre.length < maxPages →
        (bytesOf (pre ++ [p])).length ≤ min ctx.available maxSize →
          ∀ pre' q, EndsAt pages pre' q → pre'.length ≤ pre.length := by
  have hfull : ∀ pre p, pre ++ [p] <+: pages → p.Ends → (∀ q ∈ pre, ¬ q.Ends) → ∀ n,
      ((validate ctx).run R).IsFull n ↔ pre.length < maxPages ∧
        (bytesOf (pre ++ [p])).length ≤ min ctx.available maxSize ∧
          n = (bytesOf (pre ++ [p])).length := by
    intro pre p hpages hp hpre n
    obtain ⟨rest, rfl⟩ := hpages
    have hg : (bytesOf (pre ++ [p] ++ rest) ++ T).drop 0 =
        bytesOf (pre ++ [p]) ++ (bytesOf rest ++ T) := by
      rw [List.drop_zero, bytesOf, List.flatMap_append, List.append_assoc]
      rfl
    have hmagic : slice (bytesOf (pre ++ [p] ++ rest) ++ T) 0 4 = magic := by
      cases pre with
      | nil => exact slice_magic p rest T
      | cons q pre => exact slice_magic q _ T
    rw [validate]
    simp only [ReadProg.run_bind, ReadProg.run_ite, h.read]
    rw [hmagic, if_neg (not_not.2 rfl), walk_isFull_page_iff h hpre hp hg, Nat.zero_add]
  constructor
  · intro hwhole pre p hpages hp hpre hcount hcap pre' q hq
    have hle := hwhole _ ((hfull pre p hpages hp hpre _).2 ⟨hcount, hcap, rfl⟩) pre' q hq
    exact (length_bytesOf_le_iff hpages hq.1).1 hle
  · intro hfirst n hn pre' q hq
    -- the first page that ends a bitstream
    have hsome : (pages.find? fun p => decide p.Ends).isSome = true := by
      obtain ⟨hpre, hends, -⟩ := hq
      refine List.find?_isSome.2 ⟨q, hpre.subset ?_, decide_eq_true hends⟩
      exact List.mem_append_right _ (List.mem_singleton_self q)
    obtain ⟨p, hp⟩ := Option.isSome_iff_exists.1 hsome
    obtain ⟨hp, pre, post, hpages, hnone⟩ := List.find?_eq_some_iff_append.1 hp
    have hp : p.Ends := of_decide_eq_true hp
    have hpre : ∀ q ∈ pre, ¬ q.Ends := fun q hq => by simpa using hnone q hq
    have hsplit : pre ++ [p] <+: pages := ⟨post, by rw [hpages, List.append_assoc]; rfl⟩
    obtain ⟨hcount, hcap, rfl⟩ := (hfull pre p hsplit hp hpre n).1 hn
    exact (length_bytesOf_le_iff hsplit hq.1).2 (hfirst pre p hsplit hp hpre hcount hcap pre' q hq)

/-- `audio.ogg` of the catalog. -/
def sig : SigDef where
  id := "audio.ogg"
  family := "audio"
  extensions := ["ogg", "oga", "opus"]
  headers := [.exact 0 magic]
  footer := none
  minSize := 58
  strategy := .structural
  validator := some "ogg"
  blockAligned := true
  footerAnchored := false

lemma length_emptyBody : ([] : Bytes).length = (([] : Bytes).map UInt8.toNat).sum := rfl

/-- A page without body. -/
def emptyPage (headerType serial : UInt8) : Page where
  version := 0
  headerType := headerType
  granule := List.replicate 8 0
  serial := [serial, 0, 0, 0]
  check := List.replicate 8 0
  segments := []
  body := []
  granule_length := rfl
  serial_length := rfl
  check_length := rfl
  segments_lt := Nat.succ_pos 255
  body_length := length_emptyBody

/-- Two bitstreams, the second of which ends first. -/
def twoStreams : List Page := [emptyPage 2 1, emptyPage 2 2, emptyPage 4 2, emptyPage 4 1]

/-- One bitstream, of one page. -/
def oneStream : List Page := [emptyPage 6 1]

lemma oneStream_sees : Ctx.Sees ⟨31, 0, 1000, sig⟩ (memReader (bytesOf oneStream ++ magic))
    (bytesOf oneStream ++ magic) :=
  Ctx.sees (memReader_reads _) rfl (by decide)

/-- A single bitstream is not cut. -/
theorem stream_whole_one :
    ((validate ⟨31, 0, 1000, sig⟩).run (memReader (bytesOf oneStream ++ magic))).IsFull 27 ∧
      Whole oneStream 27 := by
  have hfull : ((validate ⟨31, 0, 1000, sig⟩).run
      (memReader (bytesOf oneStream ++ magic))).IsFull 27 := by
    refine ⟨?_, ?_, ?_⟩
    all_goals decide
  refine ⟨hfull, (stream_whole_iff oneStream_sees).2 (fun pre p _ _ _ _ _ pre' q hq => ?_) 27 hfull⟩
  have hone : pre'.length + 1 ≤ 1 := by
    have hle := hq.1.length_le
    rwa [List.length_append] at hle
  omega

/-- Of two bitstreams the one that ends last loses its last page. -/
theorem interleaved_counterexample :
    ((validate ⟨108, 0, 1000, sig⟩).run (memReader (bytesOf twoStreams ++ []))).IsFull 81 ∧
      ¬ Whole twoStreams 81 := by
  constructor
  · refine ⟨?_, ?_, ?_⟩
    all_goals decide
  · intro hwhole
    have hle := hwhole [emptyPage 2 1, emptyPage 2 2, emptyPage 4 2] (emptyPage 4 1)
      ⟨List.prefix_rfl, by decide, emptyPage 2 1, List.mem_cons_self .., by decide, rfl⟩
    exact absurd hle (by decide)

end Stream

end Ogg
end Reclaim
