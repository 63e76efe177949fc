import Reclaim.Carve.FileView
import Reclaim.Fs.Dates

/-!
# ISO base media files

An ISO base media file is a list of boxes, each with its size in 32 or in 64 bits and its type; the
first is `ftyp`.  Nothing ends the list.  The walk goes on as long as bytes look like a box, and how
it stops decides whether the file is complete: at bytes that are no box, or at the `ftyp` of the
next file, it is; at a box that runs out of the source, or up to its end, it is not.
-/

namespace Reclaim

open FileBytes

namespace Isobmff

/-- `MAX`. -/
def maxSize : ℕ := 16 * 1024 * 1024 * 1024

/-- `MAX_BOXES`. -/
def maxBoxes : ℕ := 2000000

/-- `ftyp`. -/
def ftypKind : Bytes := [0x66, 0x74, 0x79, 0x70]

/-- `moov`. -/
def moovKind : Bytes := [0x6D, 0x6F, 0x6F, 0x76]

/-- `mdat`. -/
def mdatKind : Bytes := [0x6D, 0x64, 0x61, 0x74]

/-- `mvhd`. -/
def mvhdKind : Bytes := [0x6D, 0x76, 0x68, 0x64]

/-- `is_ascii_alphanumeric`. -/
def isAlphanumeric (c : UInt8) : Bool :=
  (0x30 ≤ c && c ≤ 0x39) || (0x41 ≤ c && c ≤ 0x5A) || (0x61 ≤ c && c ≤ 0x7A)

/-- `is_box_type`, of four bytes. -/
def isBoxType (t : Bytes) : Bool :=
  t.length == 4 && t.all (fun c => (0x20 ≤ c && c ≤ 0x7E) || c == 0xA9) && t.any isAlphanumeric

/-- What the boxes say that the walk has passed. -/
structure Seen where
  ftyp : Bool
  moov : Bool
  mdat : Bool
  /-- The major brand. -/
  brand : Option Bytes
  /-- Where the content of the last `moov` begins and ends. -/
  moovRange : Option (ℕ × ℕ)

namespace Seen

/-- Nothing yet. -/
def nothing : Seen := ⟨false, false, false, none, none⟩

/-- The brand so far, or what stands at the content of a `ftyp`. -/
def readBrand (ctx : Ctx) (content : ℕ) (s : Seen) : ReadProg (Option Bytes) :=
  match s.brand with
  | some b => pure (some b)
  | none => do
    let b ← ctx.read content 4
    pure (if b.length < 4 then none else some (b.take 4))

/-- What a box adds, by its type, its content and its end. -/
def note (ctx : Ctx) (typ : Bytes) (content boxEnd : ℕ) (s : Seen) : ReadProg Seen :=
  if typ = ftypKind then do
    let brand ← s.readBrand ctx content
    pure { s with ftyp := true, brand := brand }
  else if typ = moovKind then
    pure { s with moov := true, moovRange := some (content, boxEnd) }
  else if typ = mdatKind then pure { s with mdat := true }
  else pure s

end Seen

/-- The brands of each id; every other brand is `video.mp4`. -/
def brands : List (String × List String) :=
  [("video.mov", ["qt  "]), ("raw.cr3", ["crx "]), ("raw.braw", ["braw"]),
    ("image.heif", ["heic", "heix", "hevc", "hevx", "heim", "heis", "hevm", "hevs", "mif1", "msf1",
      "avif", "avis"]),
    ("audio.m4a", ["M4A ", "M4B "])]

/-- `refine`: the id, by the major brand. -/
def refine (brand : Option Bytes) (sawMoov : Bool) : String :=
  match brand with
  | some b =>
    let named := brands.find? fun entry => entry.2.any fun name => name.toUTF8.toList == b
    (named.map Prod.fst).getD "video.mp4"
  | none => if sawMoov then "video.mov" else "video.mp4"

/-- `finalize`. -/
def finalize (len : ℕ) (s : Seen) (validity : Validity) : Verdict :=
  let base := if s.moov && s.mdat then 94 else if s.ftyp then 80 else 66
  let score := match validity with
    | .full => base
    | .truncated => base - 35
    | .suspect => base - 45
  { Verdict.accepted len validity score with format := some (refine s.brand s.moov) }

/-- `mac_epoch_to_date`: seconds since 1904, nothing before 1970. -/
def macEpochToDate (secs : ℕ) : Option String :=
  if secs < 2082844800 then none
  else some (dateOfDays (((secs - 2082844800) / 86400 : ℕ) : ℤ))

/-- `mvhd_meta`: the date of the first `mvhd` among the children from `pos` on, `fuel` at most. -/
def mvhdMeta (ctx : Ctx) (moovEnd : ℕ) : (fuel pos : ℕ) → ReadProg Metadata
  | 0, _ => pure ⟨none, none, none⟩
  | fuel + 1, pos =>
    if moovEnd < pos + 8 then pure ⟨none, none, none⟩
    else do
      let hdr ← ctx.read pos 8
      let size := beU32 hdr 0
      if size < 8 then pure ⟨none, none, none⟩
      else if (hdr.drop 4).take 4 = mvhdKind then do
        let body ← ctx.read (pos + 8) 20
        let ctime := if byteAt body 0 = 1 then beU64 body 4 else beU32 body 4
        pure ⟨none, macEpochToDate ctime, none⟩
      else mvhdMeta ctx moovEnd fuel (saturatingAdd pos size)

/-- What the walk returns where it stops; `openEnded` says that the last box goes on to the end of
the source. -/
def finish (ctx : Ctx) (openEnded : Bool) (pos : ℕ) (s : Seen) : ReadProg Verdict :=
  if pos = 0 ∨ (s.ftyp || s.moov || s.mdat) = false then pure .rejected
  else
    let v := finalize pos s (if openEnded then .truncated else .full)
    match s.moovRange with
    | none => pure v
    | some range => do
      let metadata ← mvhdMeta ctx range.2 4096 range.1
      pure { v with metadata := metadata }

/-- The type in a header. -/
def typeOf (hdr : Bytes) : Bytes := (hdr.drop 4).take 4

/-- The size in a header with `rest` bytes from it on, and how many bytes the header takes. -/
def sizeOf (hdr : Bytes) (rest : ℕ) : ℕ × ℕ :=
  if beU32 hdr 0 = 1 then (beU64 hdr 8, 16)
  -- up to the end of the source
  else if beU32 hdr 0 = 0 then (rest, 8)
  else (beU32 hdr 0, 8)

/-- The boxes from `pos` on, `fuel` at most. -/
def walk (ctx : Ctx) (cap : ℕ) : (fuel pos : ℕ) → Seen → ReadProg Verdict
  | 0, pos, s => finish ctx false pos s
  | fuel + 1, pos, s =>
    if cap < pos + 8 then finish ctx false pos s
    else do
      let hdr ← ctx.read pos 16
      let typ := typeOf hdr
      let size := sizeOf hdr (cap - pos)
      let boxEnd := saturatingAdd pos size.1
      if isBoxType typ = false then finish ctx false pos s
      else if size.1 < size.2 then finish ctx false pos s
      -- the source ends in the box
      else if cap < boxEnd then
        pure (if pos = 0 then .rejected else finalize pos s .truncated)
      -- the next file
      else if typ = ftypKind ∧ 0 < pos then finish ctx false pos s
      else do
        let s ← s.note ctx typ (pos + size.2) boxEnd
        if beU32 hdr 0 = 0 then finish ctx true boxEnd s
        else walk ctx cap fuel boxEnd s

/-- `validate`. -/
def validate (ctx : Ctx) : ReadProg Verdict :=
  let cap := min ctx.available maxSize
  if cap < 16 then pure .rejected
  else walk ctx cap maxBoxes 0 .nothing

/-! ## The format -/

/-- A box. -/
structure Box where
  /-- The type. -/
  kind : Bytes
  /-- The size is written in 64 bits. -/
  large : Bool
  payload : Bytes
  kind_isBoxType : isBoxType kind = true
  /-- The size can be written. -/
  size_lt : if large then 16 + payload.length < 256 ^ 8 else 8 + payload.length < 256 ^ 4

namespace Box

/-- The header of a box. -/
def header (b : Box) : Bytes :=
  if b.large then [beBytes 4 1, b.kind, beBytes 8 (16 + b.payload.length)].flatten
  else [beBytes 4 (8 + b.payload.length), b.kind].flatten

/-- The bytes of a box. -/
def bytes (b : Box) : Bytes := b.header ++ b.payload

end Box

/-- The bytes of a list of boxes. -/
def bytesOf (boxes : List Box) : Bytes := boxes.flatMap Box.bytes

/-- A file: boxes of which the first is `ftyp`, and no other. -/
structure IsoFile where
  first : Box
  others : List Box
  first_kind : first.kind = ftypKind
  others_kind : ∀ b ∈ others, b.kind ≠ ftypKind

/-- The bytes of a file. -/
def IsoFile.bytes (f : IsoFile) : Bytes := bytesOf (f.first :: f.others)

/-- How many boxes a file has. -/
def IsoFile.count (f : IsoFile) : ℕ := f.others.length + 1

/-- With `rest` bytes up to the cap, the bytes begin the header of a box. -/
def LooksLikeBox (rest : ℕ) (b : Bytes) : Prop :=
  8 ≤ rest ∧ isBoxType (typeOf (slice b 0 16)) = true ∧
    (sizeOf (slice b 0 16) rest).2 ≤ (sizeOf (slice b 0 16) rest).1

/-- The box whose header the bytes begin with runs out of the `rest` bytes. -/
def Overruns (rest : ℕ) (b : Bytes) : Prop :=
  LooksLikeBox rest b ∧ rest < (sizeOf (slice b 0 16) rest).1

/-- The bytes begin a file that fits at least its first box. -/
def StartsNext (rest : ℕ) (b : Bytes) : Prop :=
  LooksLikeBox rest b ∧ (sizeOf (slice b 0 16) rest).1 ≤ rest ∧ typeOf (slice b 0 16) = ftypKind

instance (rest : ℕ) (b : Bytes) : Decidable (LooksLikeBox rest b) :=
  inferInstanceAs (Decidable (_ ∧ _ ∧ _))

instance (rest : ℕ) (b : Bytes) : Decidable (Overruns rest b) :=
  inferInstanceAs (Decidable (_ ∧ _))

instance (rest : ℕ) (b : Bytes) : Decidable (StartsNext rest b) :=
  inferInstanceAs (Decidable (_ ∧ _ ∧ _))

/-! ## Headers -/

section Headers

namespace Box

lemma kind_length (b : Box) : b.kind.length = 4 := by
  have h := b.kind_isBoxType
  rw [isBoxType, Bool.and_eq_true, Bool.and_eq_true] at h
  exact eq_of_beq h.1.1

lemma length_header (b : Box) : b.header.length = if b.large then 16 else 8 := by
  unfold header
  split <;> simp [b.kind_length]

lemma length_bytes (b : Box) : b.bytes.length = b.header.length + b.payload.length :=
  List.length_append

lemma eight_le_length (b : Box) : 8 ≤ b.bytes.length := by
  rw [length_bytes, length_header]
  split <;> omega

/-- The type and the size of a box are read off its header, whatever follows the box. -/
lemma read_header (b : Box) (rest : ℕ) (x : Bytes) :
    typeOf (slice (b.bytes ++ x) 0 16) = b.kind ∧
      sizeOf (slice (b.bytes ++ x) 0 16) rest = (b.bytes.length, b.header.length) ∧
        beU32 (slice (b.bytes ++ x) 0 16) 0 ≠ 0 := by
  have hsize := b.size_lt
  have hkind := b.kind_length
  have htype : ∀ y : Bytes, y.length = 4 → ∀ z,
      typeOf (slice (y ++ (b.kind ++ z)) 0 16) = b.kind := by
    intro y hy z
    have hread : slice (y ++ (b.kind ++ z)) 0 16 = y ++ (b.kind ++ slice z 0 8) := by
      have hout := slice_append_add y (b.kind ++ z) 12
      have hin := slice_append_add b.kind z 8
      rw [hkind] at hin
      rw [hy, hin] at hout
      exact hout
    rw [typeOf, hread, List.drop_left' hy, List.take_left' hkind]
  rw [length_bytes, length_header, bytes, header, List.append_assoc]
  split
  · rename_i hlarge
    rw [if_pos hlarge] at hsize
    set read := slice ([beBytes 4 1, b.kind, beBytes 8 (16 + b.payload.length)].flatten ++
      (b.payload ++ x)) 0 16 with hread
    have hone : beField 4 read 0 = 1 :=
      beField_flatten 0 rfl rfl (by omega) (Nat.le_add_left 4 12) _
    have hlong : beField 8 read 8 = 16 + b.payload.length :=
      beField_flatten 2 rfl (by simp [hkind]) hsize (by omega) _
    refine ⟨?_, ?_, ?_⟩
    · rw [hread, List.flatten_cons, List.flatten_cons, List.append_assoc, List.append_assoc]
      exact htype (beBytes 4 1) (length_beBytes ..) _
    · rw [sizeOf, beU32, beU64, hone, hlong, if_pos rfl]
    · rw [beU32, hone]
      exact Nat.one_ne_zero
  · rename_i hlarge
    rw [if_neg hlarge] at hsize
    set read := slice ([beBytes 4 (8 + b.payload.length), b.kind].flatten ++ (b.payload ++ x)) 0 16
      with hread
    have hshort : beField 4 read 0 = 8 + b.payload.length :=
      beField_flatten 0 rfl rfl hsize (Nat.le_add_left 4 12) _
    refine ⟨?_, ?_, ?_⟩
    · rw [hread, List.flatten_cons, List.flatten_cons, List.append_assoc, List.append_assoc]
      exact htype (beBytes 4 _) (length_beBytes ..) _
    · rw [sizeOf, beU32, hshort, if_neg (by omega), if_neg (by omega)]
    · rw [beU32, hshort]
      omega

end Box
end Headers

/-! ## The walk -/

section Walk

variable {R : Reader} {ctx : Ctx} {g x T : Bytes} {cap fuel pos n : ℕ} {b : Box} {boxes : List Box}
  {s : Seen}

lemma capped_lt (ctx : Ctx) : min ctx.available maxSize < u64Max :=
  lt_of_le_of_lt (min_le_right _ _) (by decide)

/-- Below the cap no sum overflows. -/
lemma saturatingAdd_le_iff (hcap : cap < u64Max) : saturatingAdd pos n ≤ cap ↔ pos + n ≤ cap := by
  unfold saturatingAdd
  omega

/-- A `ftyp` stays seen. -/
lemma ftyp_note {typ : Bytes} {content boxEnd : ℕ} (h : s.ftyp = true ∨ typ = ftypKind) :
    ((s.note ctx typ content boxEnd).run R).ftyp = true := by
  unfold Seen.note
  split
  · simp only [ReadProg.run_bind, ReadProg.run_pure]
  · rename_i hne
    have hseen : s.ftyp = true := h.resolve_right hne
    split
    · exact hseen
    · split
      · exact hseen
      · exact hseen

/-- **One box of the walk.** -/
lemma run_walk_box (fuel : ℕ) (h : ctx.Sees R g) (hcap : cap < u64Max)
    (hg : g.drop pos = b.bytes ++ x) (hle : pos + b.bytes.length ≤ cap)
    (hkind : b.kind = ftypKind → pos = 0) (hs : s.ftyp = true ∨ b.kind = ftypKind) :
    ∃ s' : Seen, s'.ftyp = true ∧ (walk ctx cap (fuel + 1) pos s).run R =
      (walk ctx cap fuel (pos + b.bytes.length) s').run R := by
  obtain ⟨htype, hsize, hopen⟩ := b.read_header (cap - pos) x
  have hlen := b.length_bytes
  have hmin := b.eight_le_length
  have hend : saturatingAdd pos b.bytes.length = pos + b.bytes.length :=
    min_eq_left (by omega)
  have hfirst : ¬ (b.kind = ftypKind ∧ 0 < pos) := fun hx => by
    have := hkind hx.1
    omega
  refine ⟨(s.note ctx b.kind (pos + b.header.length) (pos + b.bytes.length)).run R,
    ftyp_note hs, ?_⟩
  rw [walk, if_neg (by omega)]
  simp only [ReadProg.run_bind, ReadProg.run_ite, h.read]
  rw [slice_eq_slice_drop, hg, htype, hsize, hend]
  simp only [b.kind_isBoxType]
  rw [if_neg Bool.false_ne_true.symm, if_neg (by omega), if_neg (by omega), if_neg hfirst,
    if_neg hopen]

/-- Where the walk stops, the file is complete if something of it was seen and nothing goes on to
the end of the source. -/
lemma isFull_finish {openEnded : Bool} :
    ((finish ctx openEnded pos s).run R).IsFull n ↔
      openEnded = false ∧ 0 < pos ∧ (s.ftyp || s.moov || s.mdat) = true ∧ pos = n := by
  rw [finish, ReadProg.run_ite]
  split
  · rename_i hnone
    apply iff_of_false Verdict.not_isFull_rejected
    intro hx
    obtain ⟨-, hpos, hseen, -⟩ := hx
    exact hnone.elim (by omega) fun hno => absurd (hseen.symm.trans hno) Bool.false_ne_true.symm
  · rename_i hsome
    obtain ⟨hpos, hseen⟩ := not_or.1 hsome
    have hv : ∀ v : Verdict, v.accept = true →
        v.validity = (if openEnded then .truncated else .full) → v.len = pos →
        (v.IsFull n ↔ openEnded = false ∧ 0 < pos ∧ (s.ftyp || s.moov || s.mdat) = true ∧
          pos = n) := by
      intro v haccept hvalidity hlen
      unfold Verdict.IsFull
      rw [haccept, hvalidity, hlen]
      cases openEnded with
      | true => simp
      | false => simp [Nat.pos_of_ne_zero hpos, Bool.not_eq_false _ ▸ hseen]
    cases hrange : s.moovRange with
    | none => exact hv _ rfl rfl rfl
    | some range =>
      simp only [ReadProg.run_bind, ReadProg.run_pure]
      exact hv _ rfl rfl rfl

lemma not_isFull_overrun :
    ¬ (if pos = 0 then Verdict.rejected else finalize pos s .truncated).IsFull n := by
  split
  · exact Verdict.not_isFull_rejected
  · exact fun hf => absurd hf.2.1 (by decide : Validity.truncated ≠ .full)

/-- A complete file ends where the walk is, or behind, and before the cap. -/
lemma bounds_of_walk_isFull (hcap : cap < u64Max) (hpos : pos ≤ cap)
    (hf : ((walk ctx cap fuel pos s).run R).IsFull n) : pos ≤ n ∧ n ≤ cap := by
  have hstop : ∀ {t : Seen}, ((finish ctx false pos t).run R).IsFull n → pos ≤ n ∧ n ≤ cap :=
    fun hx => by
      obtain ⟨-, -, -, rfl⟩ := isFull_finish.1 hx
      exact ⟨le_rfl, hpos⟩
  induction fuel generalizing pos s with
  | zero => exact hstop hf
  | succ fuel ih =>
    rw [walk] at hf
    simp only [ReadProg.run_bind, ReadProg.run_ite, ReadProg.run_pure] at hf
    split at hf
    · exact hstop hf
    · split at hf
      · exact hstop hf
      · split at hf
        · exact hstop hf
        · split at hf
          · exact absurd hf not_isFull_overrun
          · rename_i hend
            split at hf
            · exact hstop hf
            · split at hf
              · exact absurd (isFull_finish.1 hf).1 Bool.false_ne_true.symm
              · have hle : saturatingAdd pos _ ≤ cap := not_lt.1 hend
                have hadd := (saturatingAdd_le_iff hcap).1 hle
                obtain ⟨hmore, hless⟩ := ih hle hf fun hx => by
                  obtain ⟨-, -, -, rfl⟩ := isFull_finish.1 hx
                  exact ⟨le_rfl, hle⟩
                refine ⟨?_, hless⟩
                unfold saturatingAdd at hmore
                omega

/-- The walk stops at bytes that are no box, and at the next file. -/
lemma run_walk_stop (h : ctx.Sees R g) (hcap : cap < u64Max) (hpos : 0 < pos) (hle : pos ≤ cap)
    (hstop : ¬ LooksLikeBox (cap - pos) (g.drop pos) ∨ StartsNext (cap - pos) (g.drop pos)) :
    (walk ctx cap (fuel + 1) pos s).run R = (finish ctx false pos s).run R := by
  rw [walk]
  simp only [ReadProg.run_bind, ReadProg.run_ite, h.read]
  rw [slice_eq_slice_drop]
  rcases hstop with hno | ⟨⟨hroom, htype, hsize⟩, hfit, hkind⟩
  · split
    · rfl
    · rename_i hroom
      split
      · rfl
      · rename_i htype
        split
        · rfl
        · rename_i hsize
          exact absurd ⟨by omega, Bool.eq_true_of_not_eq_false htype, not_lt.1 hsize⟩ hno
  · have hend := (saturatingAdd_le_iff (n := (sizeOf _ (cap - pos)).1) hcap).2
      ((Nat.le_sub_iff_add_le' hle).1 hfit)
    rw [if_neg (by omega), if_neg (by rw [htype]; exact Bool.false_ne_true.symm),
      if_neg (not_lt.2 hsize), if_neg (not_lt.2 hend), if_pos ⟨hkind, hpos⟩]

/-- The walk stops at a box that runs out of the source. -/
lemma run_walk_overruns (h : ctx.Sees R g) (hcap : cap < u64Max) (hpos : 0 < pos) (hle : pos ≤ cap)
    (hover : Overruns (cap - pos) (g.drop pos)) :
    (walk ctx cap (fuel + 1) pos s).run R = finalize pos s .truncated := by
  obtain ⟨⟨hroom, htype, hsize⟩, hover⟩ := hover
  have hend := (saturatingAdd_le_iff (n := (sizeOf _ (cap - pos)).1) hcap).not.2
    ((Nat.le_sub_iff_add_le' hle).not.1 (not_le.2 hover))
  rw [walk]
  simp only [ReadProg.run_bind, ReadProg.run_ite, ReadProg.run_pure, h.read]
  rw [slice_eq_slice_drop, if_neg (by omega),
    if_neg (by rw [htype]; exact Bool.false_ne_true.symm), if_neg (not_lt.2 hsize),
    if_pos (not_le.1 hend), if_neg hpos.ne']

/-- A box that fits, and is not of the next file, moves the walk on. -/
lemma not_isFull_walk_on (h : ctx.Sees R g) (hcap : cap < u64Max) (hle : pos ≤ cap)
    (hlooks : LooksLikeBox (cap - pos) (g.drop pos)) (hover : ¬ Overruns (cap - pos) (g.drop pos))
    (hnext : ¬ StartsNext (cap - pos) (g.drop pos)) :
    ¬ ((walk ctx cap (fuel + 1) pos s).run R).IsFull pos := by
  have hfit : (sizeOf (slice (g.drop pos) 0 16) (cap - pos)).1 ≤ cap - pos :=
    not_lt.1 fun hlt => hover ⟨hlooks, hlt⟩
  have hkind : typeOf (slice (g.drop pos) 0 16) ≠ ftypKind := fun heq =>
    hnext ⟨hlooks, hfit, heq⟩
  obtain ⟨hroom, htype, hsize⟩ := hlooks
  have hheader : 8 ≤ (sizeOf (slice (g.drop pos) 0 16) (cap - pos)).2 := by
    unfold sizeOf
    split_ifs <;> simp
  have hend : saturatingAdd pos (sizeOf (slice (g.drop pos) 0 16) (cap - pos)).1 ≤ cap :=
    (saturatingAdd_le_iff hcap).2 (by omega)
  intro hf
  rw [walk] at hf
  simp only [ReadProg.run_bind, ReadProg.run_ite, h.read] at hf
  rw [slice_eq_slice_drop, if_neg (by omega),
    if_neg (by rw [htype]; exact Bool.false_ne_true.symm), if_neg (not_lt.2 hsize),
    if_neg (not_lt.2 hend), if_neg fun hx => hkind hx.1] at hf
  split at hf
  · exact absurd (isFull_finish.1 hf).1 Bool.false_ne_true.symm
  · have hmore := (bounds_of_walk_isFull hcap hend hf).1
    unfold saturatingAdd at hmore
    omega

/-- **Where the walk ends**: it stays at `pos` unless a box begins there that is not of the next
file. -/
lemma walk_isFull_here_iff (h : ctx.Sees R g) (hcap : cap < u64Max) (hpos : 0 < pos)
    (hle : pos ≤ cap) (hs : s.ftyp = true) :
    ((walk ctx cap fuel pos s).run R).IsFull pos ↔
      fuel = 0 ∨ ¬ LooksLikeBox (cap - pos) (g.drop pos) ∨ StartsNext (cap - pos) (g.drop pos) := by
  have hfinish : ((finish ctx false pos s).run R).IsFull pos :=
    isFull_finish.2 ⟨rfl, hpos, by rw [hs]; rfl, rfl⟩
  cases fuel with
  | zero => exact iff_of_true hfinish (.inl rfl)
  | succ fuel =>
    by_cases hstop : ¬ LooksLikeBox (cap - pos) (g.drop pos) ∨ StartsNext (cap - pos) (g.drop pos)
    · rw [run_walk_stop h hcap hpos hle hstop]
      exact iff_of_true hfinish (.inr hstop)
    · refine iff_of_false ?_ fun hx => hstop (hx.resolve_left (Nat.succ_ne_zero fuel))
      obtain ⟨hlooks, hnext⟩ := not_or.1 hstop
      by_cases hover : Overruns (cap - pos) (g.drop pos)
      · rw [run_walk_overruns h hcap hpos hle hover]
        exact fun hf => absurd hf.2.1 (by decide : Validity.truncated ≠ .full)
      · exact not_isFull_walk_on h hcap hle (not_not.1 hlooks) hover hnext

/-- **The walk goes through the first boxes of a file.** -/
lemma run_walk_file {f : IsoFile} {k : ℕ} (fuel : ℕ) (h : ctx.Sees R (f.bytes ++ T))
    (hcap : cap < u64Max) (hk : k ≤ f.others.length)
    (hle : (bytesOf (f.first :: f.others.take k)).length ≤ cap) :
    ∃ s : Seen, s.ftyp = true ∧ (walk ctx cap (fuel + (k + 1)) 0 .nothing).run R =
      (walk ctx cap fuel (bytesOf (f.first :: f.others.take k)).length s).run R := by
  have hsplit : f.bytes ++ T = f.first.bytes ++ (bytesOf (f.others.take k) ++
      (bytesOf (f.others.drop k) ++ T)) := by
    rw [← List.append_assoc (bytesOf _), bytesOf, bytesOf, ← List.flatMap_append,
      List.take_append_drop, ← List.append_assoc]
    rfl
  have hlen : (bytesOf (f.first :: f.others.take k)).length =
      f.first.bytes.length + (bytesOf (f.others.take k)).length := by
    rw [bytesOf, List.flatMap_cons, List.length_append]
    rfl
  rw [hlen] at hle ⊢
  obtain ⟨s, hs, hfirst⟩ := run_walk_box (s := .nothing) (fuel + k) h hcap
    (List.drop_zero.trans hsplit) (by omega) (fun _ => rfl) (.inr f.first_kind)
  rw [Nat.zero_add] at hfirst
  have hrest : (f.bytes ++ T).drop f.first.bytes.length =
      bytesOf (f.others.take k) ++ (bytesOf (f.others.drop k) ++ T) := by
    rw [hsplit, List.drop_left]
  obtain ⟨⟨s', hs'⟩, hothers⟩ := exists_walk_records
    (fun fuel pos (s : {s : Seen // s.ftyp = true}) => (walk ctx cap fuel pos s.1).run R)
    (fun b hb fuel pos s x hx hle => by
      have hkind := f.others_kind b (List.mem_of_mem_take hb)
      obtain ⟨s', hs', hbox⟩ := run_walk_box fuel h hcap hx hle (absurd · hkind) (.inl s.2)
      exact ⟨⟨s', hs'⟩, hbox⟩)
    fuel ⟨s, hs⟩ hrest hle
  rw [List.length_take, min_eq_left hk] at hothers
  exact ⟨s', hs', hfirst.trans hothers⟩

/-- Of more boxes than the walk may go through it leaves the last ones out. -/
lemma not_isFull_beyond {f : IsoFile} (h : ctx.Sees R (f.bytes ++ T)) (hcap : cap < u64Max)
    (hle : f.bytes.length ≤ cap) (hcount : maxBoxes < f.count) :
    ¬ ((walk ctx cap maxBoxes 0 .nothing).run R).IsFull f.bytes.length := by
  have hone : 1 ≤ maxBoxes := by decide
  have hk : maxBoxes - 1 < f.others.length := by
    rw [IsoFile.count] at hcount
    omega
  have hless : (bytesOf (f.first :: f.others.take (maxBoxes - 1))).length < f.bytes.length := by
    have hnext := (f.others[maxBoxes - 1]).eight_le_length
    rw [IsoFile.bytes]
    conv_rhs => rw [← List.take_append_drop (maxBoxes - 1) f.others, List.drop_eq_getElem_cons hk]
    simp only [bytesOf, List.flatMap_cons, List.flatMap_append, List.length_append]
    omega
  obtain ⟨s, -, hs⟩ := run_walk_file 0 h hcap hk.le (hless.le.trans hle)
  rw [Nat.zero_add, Nat.sub_add_cancel hone] at hs
  rw [hs]
  exact fun hf => hless.ne (isFull_finish.1 hf).2.2.2

end Walk

/-! ## A file and what follows it -/

section Exact

variable {R : Reader} {ctx : Ctx} {f : IsoFile} {T : Bytes}

/-- **When the length is right**: the file is not beyond what the walk may go through, and what
follows it, with zeros behind, is no box, or the next file.  Before a box that runs out of the
source the file is cut at its end all the same, but called incomplete. -/
theorem file_exact (h : ctx.Sees R (f.bytes ++ T)) :
    (((validate ctx).run R).IsFull f.bytes.length ↔
      16 ≤ min ctx.available maxSize ∧ f.bytes.length ≤ min ctx.available maxSize ∧
        (f.count = maxBoxes ∨ f.count < maxBoxes ∧
          (¬ LooksLikeBox (min ctx.available maxSize - f.bytes.length) T ∨
            StartsNext (min ctx.available maxSize - f.bytes.length) T))) ∧
    (16 ≤ min ctx.available maxSize → f.bytes.length ≤ min ctx.available maxSize →
      f.count < maxBoxes → Overruns (min ctx.available maxSize - f.bytes.length) T →
        ((validate ctx).run R).accept = true ∧ ((validate ctx).run R).validity = .truncated ∧
          ((validate ctx).run R).len = f.bytes.length) := by
  have hcap := capped_lt ctx
  set cap := min ctx.available maxSize with hcapdef
  have hbehind : (f.bytes ++ T).drop f.bytes.length = T := List.drop_left
  have hpos : 0 < f.bytes.length := by
    have hfirst := f.first.eight_le_length
    rw [IsoFile.bytes, bytesOf, List.flatMap_cons, List.length_append]
    omega
  have hwhole : bytesOf (f.first :: f.others.take f.others.length) = f.bytes := by
    rw [List.take_length]
    rfl
  have hrun : ∀ fuel, f.bytes.length ≤ cap → ∃ s : Seen, s.ftyp = true ∧
      (walk ctx cap (fuel + f.count) 0 .nothing).run R =
        (walk ctx cap fuel f.bytes.length s).run R := by
    intro fuel hle
    rw [← hwhole] at hle ⊢
    exact run_walk_file fuel h hcap le_rfl hle
  rw [validate, ← hcapdef, ReadProg.run_ite]
  split
  · rename_i hsmall
    exact ⟨iff_of_false Verdict.not_isFull_rejected fun hx => by omega, fun hx => by omega⟩
  · rename_i hlarge
    refine ⟨?_, fun _ hle hcount hover => ?_⟩
    · by_cases hle : f.bytes.length ≤ cap
      · by_cases hcount : f.count ≤ maxBoxes
        · obtain ⟨fuel, hfuel⟩ := Nat.exists_eq_add_of_le' hcount
          obtain ⟨s, hs, hwalk⟩ := hrun fuel hle
          rw [hfuel, hwalk, walk_isFull_here_iff h hcap hpos hle hs, hbehind]
          constructor
          · rintro (rfl | hstop)
            · exact ⟨not_lt.1 hlarge, hle, .inl (Nat.zero_add _).symm⟩
            · by_cases hzero : fuel = 0
              · exact ⟨not_lt.1 hlarge, hle, .inl (by omega)⟩
              · exact ⟨not_lt.1 hlarge, hle, .inr ⟨by omega, hstop⟩⟩
          · rintro ⟨-, -, hall | ⟨-, hstop⟩⟩
            · exact .inl (by omega)
            · exact .inr hstop
        · exact iff_of_false (not_isFull_beyond h hcap hle (not_le.1 hcount)) fun hx => by omega
      · exact iff_of_false (fun hf => hle (bounds_of_walk_isFull hcap (Nat.zero_le _) hf).2)
          fun hx => hle hx.2.1
    · obtain ⟨fuel, hfuel⟩ := Nat.exists_eq_add_of_lt hcount
      obtain ⟨s, -, hs⟩ := hrun (fuel + 1) hle
      rw [show maxBoxes = fuel + 1 + f.count by omega, hs,
        run_walk_overruns h hcap hpos hle (by rwa [hbehind])]
      exact ⟨rfl, rfl, rfl⟩

/-- `video.mp4` of the catalog. -/
def sig : SigDef where
  id := "video.mp4"
  family := "video"
  extensions := ["mp4", "m4v", "3gp", "3g2"]
  headers := (HeaderPat.ofPattern 0
    [none, none, none, none, some 0x66, some 0x74, some 0x79, some 0x70]).toList
  footer := none
  minSize := 32
  strategy := .structural
  validator := some "isobmff"
  blockAligned := true
  footerAnchored := false

/-- A `ftyp` with the brand `isom`. -/
def brandBox : Box where
  kind := ftypKind
  large := false
  payload := [0x69, 0x73, 0x6F, 0x6D, 0x00, 0x00, 0x02, 0x00]
  kind_isBoxType := rfl
  size_lt := by decide

/-- Media of two bytes, whose size is written in 64 bits. -/
def mediaBox : Box where
  kind := mdatKind
  large := true
  payload := [0x11, 0x22]
  kind_isBoxType := rfl
  size_lt := by decide

/-- A file of the two. -/
def mediaFile : IsoFile where
  first := brandBox
  others := [mediaBox]
  first_kind := rfl
  others_kind := fun b hb => by
    rw [List.mem_singleton.1 hb]
    exact (by decide : mdatKind ≠ ftypKind)

/-- Behind a file that zeros follow the length is right. -/
theorem file_exact_zeros :
    ((validate ⟨50, 0, 1000, sig⟩).run
      (memReader (mediaFile.bytes ++ List.replicate 16 0))).IsFull 34 := by
  have hsees : Ctx.Sees ⟨50, 0, 1000, sig⟩ (memReader (mediaFile.bytes ++ List.replicate 16 0))
      (mediaFile.bytes ++ List.replicate 16 0) :=
    Ctx.sees (memReader_reads _) rfl (by decide)
  exact (file_exact hsees).1.2 ⟨by decide, by decide, .inr ⟨by decide, .inl (by decide)⟩⟩

/-- The header of a box of 32 bytes. -/
def longHeader : Bytes := [0x00, 0x00, 0x00, 0x20] ++ mdatKind

/-- Behind a file the header of a box that is not there makes it incomplete. -/
theorem overrun_counterexample :
    ¬ ((validate ⟨42, 0, 1000, sig⟩).run (memReader (mediaFile.bytes ++ longHeader))).IsFull
        mediaFile.bytes.length ∧
      ∀ (b : Box) (x : Bytes), longHeader ≠ b.bytes ++ x := by
  constructor
  · rintro ⟨-, hfull, -⟩
    exact absurd hfull (by decide)
  · intro b x heq
    obtain ⟨-, hsize, -⟩ := b.read_header 0 x
    rw [← heq] at hsize
    have hthirty : b.bytes.length = 32 := (congrArg Prod.fst hsize).symm
    have hlen := congrArg List.length heq
    rw [List.length_append, hthirty] at hlen
    have : longHeader.length = 8 := rfl
    omega

end Exact

end Isobmff
end Reclaim
