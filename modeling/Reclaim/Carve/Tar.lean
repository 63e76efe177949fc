import Reclaim.Carve.FileView

/-!
# TAR archives

An archive is a list of members, each a header of 512 bytes and its data in blocks of 512 bytes, and
two blocks of zeros.  Sizes and checksums are numbers in text: octal digits, perhaps behind spaces,
or bytes behind a marker.  The validator reads octal digits only, and only from the first byte of a
field on; a number that it does not read is zero to it.
-/

namespace Reclaim

open FileBytes

namespace Tar

/-- `MAX`. -/
def maxSize : ℕ := 16 * 1024 * 1024 * 1024

/-- `MAX_RECORDS`. -/
def maxRecords : ℕ := 20000000

/-- An octal digit. -/
def isOctal (c : UInt8) : Bool := 0x30 ≤ c && c ≤ 0x37

/-- The number that octal digits are. -/
def octalValue (digits : Bytes) : ℕ := digits.foldl (fun v c => v * 8 + (c.toNat - 0x30)) 0

/-- `octal`: the digits with which a field begins. -/
def octal (b : Bytes) (off len : ℕ) : ℕ :=
  octalValue (((b.drop off).take len).takeWhile isOctal)

/-- The sum of the bytes of a header, the checksum field being spaces. -/
def headerSum (hdr : Bytes) : ℕ :=
  ((hdr.take 512).zipIdx.map fun x =>
    if 148 ≤ x.2 ∧ x.2 < 156 then 32 else x.1.toNat).sum

/-- `checksum_ok`. -/
def checksumOk (hdr : Bytes) : Bool :=
  if hdr.length < 512 then false else octal hdr 148 8 == headerSum hdr

/-- A verdict about an archive. -/
def verdict (len : ℕ) (validity : Validity) (score : ℕ) : Verdict :=
  { Verdict.accepted len validity score with format := some "archive.tar" }

/-- The records from `pos` on, `fuel` at most, behind `zeroBlocks` blocks of zeros. -/
def walk (ctx : Ctx) (cap : ℕ) : (fuel pos zeroBlocks : ℕ) → ReadProg Verdict
  | 0, pos, _ => pure (verdict (min pos cap) .truncated 50)
  | fuel + 1, pos, zeroBlocks =>
    if cap < pos + 512 then pure (verdict cap .truncated 45)
    else do
      let hdr ← ctx.read pos 512
      if hdr.all (· == 0) = true then
        if 2 ≤ zeroBlocks + 1 then pure (verdict (pos + 512) .full 88)
        else walk ctx cap fuel (pos + 512) (zeroBlocks + 1)
      else if checksumOk hdr = false then
        pure (if 512 ≤ pos then verdict pos .full 70 else .rejected)
      else walk ctx cap fuel (pos + (512 + divCeil (octal hdr 124 12) 512 * 512)) 0

/-- `validate`. -/
def validate (ctx : Ctx) : ReadProg Verdict := do
  let first ← ctx.read 0 512
  if checksumOk first = false then pure .rejected
  else walk ctx (min ctx.available maxSize) maxRecords 0 0

/-! ## The format -/

/-- A number in octal digits, behind spaces, up to a byte that is no digit or the end of the
field. -/
def SpellsOctal (field : Bytes) (n : ℕ) : Prop :=
  ∃ spaces digits tail, field = List.replicate spaces 0x20 ++ (digits ++ tail) ∧
    (∀ d ∈ digits, isOctal d = true) ∧ (∀ c, tail.head? = some c → isOctal c = false) ∧
      n = octalValue digits

/-- A number in bytes, behind the marker for it. -/
def SpellsBase256 (field : Bytes) (n : ℕ) : Prop :=
  ∃ bytes, field = 0x80 :: bytes ∧ n = leValue bytes.reverse

/-- A header. -/
structure Header where
  /-- Name, mode and owner. -/
  name : Bytes
  sizeField : Bytes
  mtime : Bytes
  sumField : Bytes
  /-- Type, link, magic, names and prefix. -/
  rest : Bytes
  /-- The size of the data. -/
  size : ℕ
  name_length : name.length = 124
  sizeField_length : sizeField.length = 12
  mtime_length : mtime.length = 12
  sumField_length : sumField.length = 8
  rest_length : rest.length = 356
  size_spelled : SpellsOctal sizeField size ∨ SpellsBase256 sizeField size
  /-- The checksum is the sum of the bytes, its own field being spaces. -/
  sum_spelled : SpellsOctal sumField
    (((name ++ (sizeField ++ mtime)).map UInt8.toNat).sum + 256 + (rest.map UInt8.toNat).sum)

namespace Header

/-- The fields before the checksum. -/
def front (h : Header) : Bytes := h.name ++ (h.sizeField ++ h.mtime)

/-- The checksum. -/
def sum (h : Header) : ℕ := (h.front.map UInt8.toNat).sum + 256 + (h.rest.map UInt8.toNat).sum

/-- The bytes of a header. -/
def bytes (h : Header) : Bytes := h.front ++ (h.sumField ++ h.rest)

lemma length_front (h : Header) : h.front.length = 148 := by
  rw [front, List.length_append, List.length_append, h.name_length, h.sizeField_length,
    h.mtime_length]

lemma length_bytes (h : Header) : h.bytes.length = 512 := by
  rw [bytes, List.length_append, List.length_append, length_front, h.sumField_length, h.rest_length]

end Header

/-! ## Numbers -/

section Numbers

variable {field b : Bytes} {n : ℕ}

/-- The number that a field begins with. -/
def fieldValue (field : Bytes) : ℕ := octalValue (field.takeWhile isOctal)

lemma fieldValue_eq_zero (h : field.takeWhile isOctal = []) : fieldValue field = 0 := by
  rw [fieldValue, h]
  rfl

lemma SpellsOctal.fieldValue (h : SpellsOctal field n) :
    fieldValue field = n ∨ fieldValue field = 0 := by
  obtain ⟨spaces, digits, tail, rfl, hdigits, htail, rfl⟩ := h
  cases spaces with
  | zero =>
    refine .inl (congrArg octalValue ?_)
    rw [List.replicate_zero, List.nil_append, List.takeWhile_append_of_pos hdigits]
    cases tail with
    | nil => rw [List.takeWhile_nil, List.append_nil]
    | cons c tail => rw [List.takeWhile_cons_of_neg (by rw [htail c rfl]; decide), List.append_nil]
  | succ spaces =>
    refine .inr (fieldValue_eq_zero ?_)
    rw [List.replicate_succ, List.cons_append, List.takeWhile_cons_of_neg (by decide)]

lemma SpellsBase256.fieldValue (h : SpellsBase256 field n) : fieldValue field = 0 := by
  obtain ⟨bytes, rfl, -⟩ := h
  exact fieldValue_eq_zero (List.takeWhile_cons_of_neg (by decide))

lemma Header.sizeField_value (h : Header) :
    fieldValue h.sizeField = h.size ∨ fieldValue h.sizeField = 0 := by
  rcases h.size_spelled with hs | hs
  · exact hs.fieldValue
  · exact .inr hs.fieldValue

lemma Header.sumField_value (h : Header) :
    fieldValue h.sumField = h.sum ∨ fieldValue h.sumField = 0 := h.sum_spelled.fieldValue

lemma octal_eq (hdr : Bytes) (off len : ℕ) :
    octal hdr off len = fieldValue ((hdr.drop off).take len) :=
  rfl

/-- The size field, as the validator reads it. -/
lemma Header.octal_size (h : Header) : octal h.bytes 124 12 = fieldValue h.sizeField := by
  rw [octal_eq, bytes, front, List.append_assoc, List.append_assoc, List.drop_left' h.name_length,
    List.take_left' h.sizeField_length]

/-- The checksum field. -/
lemma Header.octal_sum (h : Header) : octal h.bytes 148 8 = fieldValue h.sumField := by
  rw [octal_eq, bytes, List.drop_left' h.length_front, List.take_left' h.sumField_length]

/-- Part of a sum in which the index does not matter. -/
lemma sum_zipIdx {f : UInt8 × ℕ → ℕ} {v : UInt8 → ℕ} (i : ℕ)
    (hf : ∀ k < b.length, ∀ c, f (c, i + k) = v c) :
    ((b.zipIdx i).map f).sum = (b.map v).sum := by
  induction b generalizing i with
  | nil => rfl
  | cons c b ih =>
    rw [List.zipIdx_cons, List.map_cons, List.map_cons, List.sum_cons, List.sum_cons, ih (i + 1)]
    · rw [← hf 0 (Nat.succ_pos _) c]
      rfl
    · intro k hk d
      rw [← hf (k + 1) (Nat.succ_lt_succ hk) d, Nat.add_right_comm, Nat.add_assoc]

/-- The sum of a block in three parts. -/
lemma headerSum_parts {front mid rest : Bytes} (hfront : front.length = 148) (hmid : mid.length = 8)
    (hrest : rest.length = 356) : headerSum (front ++ (mid ++ rest)) =
      (front.map UInt8.toNat).sum + 256 + (rest.map UInt8.toNat).sum := by
  have hall : (front ++ (mid ++ rest)).take 512 = front ++ (mid ++ rest) := by
    apply List.take_of_length_le
    rw [List.length_append, List.length_append]
    omega
  rw [headerSum, hall, List.zipIdx_append, List.zipIdx_append, List.map_append, List.map_append,
    List.sum_append, List.sum_append, sum_zipIdx (v := UInt8.toNat),
    sum_zipIdx (v := fun _ => 32), sum_zipIdx (v := UInt8.toNat), List.map_const',
    List.sum_replicate, hmid, Nat.add_assoc]
  · rfl
  all_goals
    intro k hk c
    dsimp only
  · rw [if_neg (by omega)]
  · rw [if_pos (by omega)]
  · rw [if_neg (by omega)]

lemma Header.headerSum_bytes (h : Header) : headerSum h.bytes = h.sum :=
  headerSum_parts h.length_front h.sumField_length h.rest_length

/-- **The checksum is accepted exactly when its field is read right.** -/
lemma Header.checksumOk_iff (h : Header) :
    checksumOk h.bytes = true ↔ fieldValue h.sumField = h.sum := by
  rw [checksumOk, if_neg (by rw [h.length_bytes]; decide), h.octal_sum, h.headerSum_bytes,
    beq_iff_eq]

end Numbers

/-! ## Members -/

namespace Header

/-- The validator reads the checksum right. -/
def SumRead (h : Header) : Prop := fieldValue h.sumField = h.sum

/-- The validator reads the size right. -/
def SizeRead (h : Header) : Prop := fieldValue h.sizeField = h.size

instance (h : Header) : Decidable h.SumRead := inferInstanceAs (Decidable (_ = _))

instance (h : Header) : Decidable h.SizeRead := inferInstanceAs (Decidable (_ = _))

/-- What a member takes up. -/
def span (h : Header) : ℕ := 512 + divCeil h.size 512 * 512

/-- A header is not a block of zeros. -/
lemma bytes_not_zero (h : Header) : ¬ h.bytes.all (· == 0) = true := by
  obtain ⟨spaces, digits, tail, hfield, hdigits, -, hsum⟩ := h.sum_spelled
  cases digits with
  | nil =>
    have hzero : octalValue [] = 0 := rfl
    rw [hzero] at hsum
    omega
  | cons d digits =>
    intro hall
    have hd : d ∈ h.bytes := by
      refine List.mem_append_right _ (List.mem_append_left _ ?_)
      rw [hfield]
      exact List.mem_append_right _ (List.mem_append_left _ (List.mem_cons_self ..))
    have hdigit := hdigits d (List.mem_cons_self ..)
    rw [beq_iff_eq.1 (List.all_eq_true.1 hall d hd)] at hdigit
    exact absurd hdigit (by decide)

end Header

/-- A member: its data is as long as its header says. -/
structure Member where
  header : Header
  data : Bytes
  data_length : data.length = header.size

namespace Member

/-- The data and the zeros that fill its last block. -/
def body (m : Member) : Bytes :=
  m.data ++ List.replicate (divCeil m.header.size 512 * 512 - m.header.size) 0

/-- The bytes of a member. -/
def bytes (m : Member) : Bytes := m.header.bytes ++ m.body

lemma length_body (m : Member) : m.body.length = divCeil m.header.size 512 * 512 := by
  have hle := le_divCeil_mul (show 0 < 512 by omega) m.header.size
  rw [body, List.length_append, List.length_replicate, m.data_length]
  omega

lemma length_bytes (m : Member) : m.bytes.length = m.header.span := by
  rw [bytes, List.length_append, m.header.length_bytes, length_body, Header.span]

end Member

/-- What members with these headers take up. -/
def spanOf (hs : List Header) : ℕ := (hs.map Header.span).sum

/-- The bytes of a list of members. -/
def bytesOf (ms : List Member) : Bytes := ms.flatMap Member.bytes

/-- The bytes of an archive: the members, and two blocks of zeros. -/
def archiveBytes (ms : List Member) : Bytes := bytesOf ms ++ List.replicate 1024 0

lemma length_bytesOf (ms : List Member) :
    (bytesOf ms).length = spanOf (ms.map Member.header) := by
  rw [bytesOf, List.length_flatMap, spanOf, List.map_map]
  exact congrArg List.sum (List.map_congr_left fun m _ => m.length_bytes)

lemma length_archiveBytes (ms : List Member) :
    (archiveBytes ms).length = spanOf (ms.map Member.header) + 1024 := by
  rw [archiveBytes, List.length_append, length_bytesOf, List.length_replicate]

/-! ## The walk -/

section Walk

variable {R : Reader} {ctx : Ctx} {g x : Bytes} {cap fuel pos z n : ℕ} {m : Member}
  {pre : List Member}

lemma not_isFull_truncated {len score : ℕ} : ¬ (verdict len .truncated score).IsFull n :=
  fun h => absurd h.2.1 (by decide : Validity.truncated ≠ .full)

/-- A walk that has no block left returns no full archive. -/
lemma not_isFull_of_cap (h : cap < pos + 512) : ¬ ((walk ctx cap fuel pos z).run R).IsFull n := by
  cases fuel with
  | zero => exact not_isFull_truncated
  | succ fuel =>
    rw [walk, if_pos h]
    exact not_isFull_truncated

/-- **One header of the walk.** -/
lemma run_walk_header (h : ctx.Sees R g) (hg : g.drop pos = m.header.bytes ++ x) :
    (walk ctx cap (fuel + 1) pos z).run R =
      if cap < pos + 512 then verdict cap .truncated 45
      else if ¬ m.header.SumRead then if 512 ≤ pos then verdict pos .full 70 else .rejected
      else (walk ctx cap fuel
        (pos + (512 + divCeil (fieldValue m.header.sizeField) 512 * 512)) 0).run R := by
  have hread : slice g pos 512 = m.header.bytes := by
    have hfirst := slice_append_length m.header.bytes x
    rw [m.header.length_bytes] at hfirst
    rw [slice_eq_slice_drop, hg, hfirst]
  have hsum : checksumOk m.header.bytes = false ↔ ¬ m.header.SumRead := by
    rw [← Bool.not_eq_true, m.header.checksumOk_iff]
    rfl
  rw [walk, ReadProg.run_ite]
  apply if_congr Iff.rfl rfl
  simp only [ReadProg.run_bind, ReadProg.run_ite, h.read, ReadProg.run_pure]
  rw [hread, if_neg m.header.bytes_not_zero, m.header.octal_size]
  exact if_congr hsum rfl rfl

/-- **Headers that are read right are passed**, if the walk gets behind them. -/
lemma walk_isFull_read_iff (h : ctx.Sees R g)
    (hread : ∀ m ∈ pre, m.header.SumRead ∧ m.header.SizeRead) (hg : g.drop pos = bytesOf pre ++ x) :
    ((walk ctx cap fuel pos 0).run R).IsFull n ↔ pre.length ≤ fuel ∧
      ((walk ctx cap (fuel - pre.length) (pos + (bytesOf pre).length) 0).run R).IsFull n := by
  induction pre generalizing pos fuel with
  | nil => exact (and_iff_right (Nat.zero_le fuel)).symm
  | cons m rest ih =>
    obtain ⟨hm, hrest⟩ := List.forall_mem_cons.1 hread
    have hcons : bytesOf (m :: rest) = m.bytes ++ bytesOf rest := List.flatMap_cons
    rw [hcons, List.append_assoc] at hg
    rw [hcons, List.length_append, List.length_cons]
    cases fuel with
    | zero => exact iff_of_false not_isFull_truncated fun hx => absurd hx.1 (Nat.not_succ_le_zero _)
    | succ fuel =>
      have hhead : g.drop pos = m.header.bytes ++ (m.body ++ (bytesOf rest ++ x)) := by
        rw [hg, Member.bytes, List.append_assoc]
      rw [run_walk_header h hhead]
      split
      · rename_i hcap
        exact iff_of_false not_isFull_truncated fun hx => not_isFull_of_cap (by omega) hx.2
      · have hspan : 512 + divCeil (fieldValue m.header.sizeField) 512 * 512 = m.bytes.length := by
          rw [hm.2, m.length_bytes, Header.span]
        have hnext : g.drop (pos + m.bytes.length) = bytesOf rest ++ x := by
          rw [← List.drop_drop, hg, List.drop_left]
        rw [if_neg (not_not.2 hm.1), hspan]
        refine (ih hrest hnext).trans ?_
        rw [Nat.add_sub_add_right, Nat.add_assoc, Nat.succ_le_succ_iff]

/-- A block of zeros. -/
lemma run_walk_zeros (h : ctx.Sees R g) (hz : slice g pos 512 = List.replicate 512 0) :
    (walk ctx cap (fuel + 1) pos z).run R =
      if cap < pos + 512 then verdict cap .truncated 45
      else if 2 ≤ z + 1 then verdict (pos + 512) .full 88
      else (walk ctx cap fuel (pos + 512) (z + 1)).run R := by
  have hall : (List.replicate 512 (0 : UInt8)).all (· == 0) = true :=
    List.all_eq_true.2 fun c hc => beq_iff_eq.2 (List.eq_of_mem_replicate hc)
  rw [walk, ReadProg.run_ite]
  apply if_congr Iff.rfl rfl
  simp only [ReadProg.run_bind, ReadProg.run_ite, h.read, ReadProg.run_pure]
  rw [hz, if_pos hall]

/-- **The end of an archive**: behind two blocks of zeros. -/
lemma eq_of_isFull_end (h : ctx.Sees R g) (hg : g.drop pos = List.replicate 1024 0 ++ x)
    (hf : ((walk ctx cap fuel pos 0).run R).IsFull n) : n = pos + 1024 := by
  have hzero : ∀ k ≤ 512, slice g (pos + k) 512 = List.replicate 512 0 := by
    intro k hk
    rw [slice_eq_slice_drop, ← List.drop_drop, ← slice_eq_slice_drop, hg,
      slice_append_left k 512 (by rw [List.length_replicate]; omega)]
    exact slice_eq_replicate fun y _ _ => byteAt_replicate_zero 1024 y
  cases fuel with
  | zero => exact absurd hf not_isFull_truncated
  | succ fuel =>
    have hfirst := hzero 0 (Nat.zero_le 512)
    rw [Nat.add_zero] at hfirst
    rw [run_walk_zeros h hfirst] at hf
    split at hf
    · exact absurd hf not_isFull_truncated
    · rw [if_neg (by omega)] at hf
      cases fuel with
      | zero => exact absurd hf not_isFull_truncated
      | succ fuel =>
        rw [run_walk_zeros h (hzero 512 le_rfl)] at hf
        split at hf
        · exact absurd hf not_isFull_truncated
        · exact hf.2.2.symm

/-- A walk that lands in a block without octal digits returns what it has. -/
lemma isFull_of_noHeader (h : ctx.Sees R g) (hcap : pos + 512 ≤ cap) (hpos : 512 ≤ pos)
    (hdigits : ∀ c ∈ slice g pos 512, isOctal c = false) (hne : ∃ c ∈ slice g pos 512, c ≠ 0) :
    ((walk ctx cap (fuel + 1) pos z).run R).IsFull pos := by
  obtain ⟨c, hc, hc0⟩ := hne
  have hall : ¬ (slice g pos 512).all (· == 0) = true := fun hall =>
    hc0 (beq_iff_eq.1 (List.all_eq_true.1 hall c hc))
  have hsum : checksumOk (slice g pos 512) = false := by
    have hoctal : octal (slice g pos 512) 148 8 = 0 := by
      rw [octal_eq]
      apply fieldValue_eq_zero
      cases hfield : ((slice g pos 512).drop 148).take 8 with
      | nil => rfl
      | cons d rest =>
        have hd : d ∈ slice g pos 512 :=
          List.mem_of_mem_drop (List.mem_of_mem_take (hfield ▸ List.mem_cons_self ..))
        rw [List.takeWhile_cons_of_neg (by rw [hdigits d hd]; decide)]
    have hparts : slice g pos 512 =
        slice g pos 148 ++ (slice g (pos + 148) 8 ++ slice g (pos + 148 + 8) 356) := by
      rw [← slice_add, ← slice_add]
    have hpositive : headerSum (slice g pos 512) ≠ 0 := by
      rw [hparts, headerSum_parts (length_slice ..) (length_slice ..) (length_slice ..)]
      omega
    rw [checksumOk, if_neg (by rw [length_slice]; decide), hoctal, beq_eq_false_iff_ne]
    exact hpositive.symm
  rw [walk, if_neg (by omega)]
  simp only [ReadProg.run_bind, ReadProg.run_ite, h.read, ReadProg.run_pure]
  rw [if_neg hall, if_pos hsum, if_pos hpos]
  exact ⟨rfl, rfl, rfl⟩

end Walk

/-! ## An archive and what follows it -/

/-- Some header is read wrong where it matters: a checksum behind the first header, or a size,
within the limits of the walk. -/
def Misread (hs : List Header) : Prop :=
  ∃ pre h post, hs = pre ++ h :: post ∧ (∀ r ∈ pre, r.SumRead ∧ r.SizeRead) ∧
    ((pre ≠ [] ∧ ¬ h.SumRead ∧ pre.length < maxRecords ∧ spanOf pre + 512 ≤ maxSize) ∨
      (h.SumRead ∧ ¬ h.SizeRead ∧ pre.length + 1 < maxRecords ∧ spanOf pre + 1024 ≤ maxSize))

section Exact

variable {R : Reader} {ctx : Ctx} {ms : List Member} {T : Bytes} {n : ℕ}

/-- A size that is read wrong is read as zero. -/
lemma Header.fieldValue_of_not_sizeRead {h : Header} (hr : ¬ h.SizeRead) :
    fieldValue h.sizeField = 0 ∧ 0 < h.size := by
  rcases h.sizeField_value with hv | hv
  · exact absurd hv hr
  · refine ⟨hv, Nat.pos_of_ne_zero fun h0 => hr ?_⟩
    rw [SizeRead, hv, h0]

/-- Either all headers are read right, or there is a first one that is not. -/
lemma read_or_first (ms : List Member) :
    (∀ m ∈ ms, m.header.SumRead ∧ m.header.SizeRead) ∨
      ∃ pre m post, ms = pre ++ m :: post ∧ (∀ r ∈ pre, r.header.SumRead ∧ r.header.SizeRead) ∧
        ¬ (m.header.SumRead ∧ m.header.SizeRead) := by
  cases hfind : ms.find? fun m => decide (¬ (m.header.SumRead ∧ m.header.SizeRead)) with
  | none =>
    refine .inl fun m hm => ?_
    have := List.find?_eq_none.1 hfind m hm
    simpa using this
  | some m =>
    obtain ⟨hm, pre, post, hms, hpre⟩ := List.find?_eq_some_iff_append.1 hfind
    refine .inr ⟨pre, m, post, hms, fun r hr => ?_, of_decide_eq_true hm⟩
    have := hpre r hr
    simpa using this

/-- What the walk does not get wrong at the first header that is not read right. -/
lemma misread_of_isFull {g x : Bytes} {cap : ℕ} {pre : List Member} {m : Member}
    (h : ctx.Sees R g) (hcap : cap ≤ maxSize)
    (hread : ∀ r ∈ pre, r.header.SumRead ∧ r.header.SizeRead)
    (hm : ¬ (m.header.SumRead ∧ m.header.SizeRead)) (hg : g.drop 0 = bytesOf pre ++ (m.bytes ++ x))
    (hf : ((walk ctx cap maxRecords 0 0).run R).IsFull n) :
    (pre ≠ [] ∧ ¬ m.header.SumRead ∧ pre.length < maxRecords ∧
        (bytesOf pre).length + 512 ≤ maxSize) ∨
      (m.header.SumRead ∧ ¬ m.header.SizeRead ∧ pre.length + 1 < maxRecords ∧
        (bytesOf pre).length + 1024 ≤ maxSize) := by
  obtain ⟨hle, hf⟩ := (walk_isFull_read_iff h hread hg).1 hf
  have hhead : g.drop (0 + (bytesOf pre).length) = m.header.bytes ++ (m.body ++ x) := by
    rw [← List.drop_drop, hg, List.drop_left, Member.bytes, List.append_assoc]
  cases hfuel : maxRecords - pre.length with
  | zero =>
    rw [hfuel] at hf
    exact absurd hf not_isFull_truncated
  | succ fuel =>
    rw [hfuel, run_walk_header h hhead] at hf
    split at hf
    · exact absurd hf not_isFull_truncated
    · by_cases hsum : m.header.SumRead
      · have hsize : ¬ m.header.SizeRead := fun hs => hm ⟨hsum, hs⟩
        rw [if_neg (not_not.2 hsum), (Header.fieldValue_of_not_sizeRead hsize).1] at hf
        have hzero : divCeil 0 512 * 512 = 0 := by decide
        rw [hzero] at hf
        refine .inr ⟨hsum, hsize, ?_, ?_⟩
        · cases fuel with
          | zero => exact absurd hf not_isFull_truncated
          | succ fuel => omega
        · by_contra hbig
          exact not_isFull_of_cap (by omega) hf
      · rw [if_pos hsum] at hf
        refine .inl ⟨?_, hsum, by omega, by omega⟩
        rintro rfl
        rw [if_neg (by decide)] at hf
        exact Verdict.not_isFull_rejected hf

/-- The validator walks the archive if the first checksum is read right. -/
lemma run_validate (h : ctx.Sees R (archiveBytes ms ++ T)) {m : Member} (hm : ms.head? = some m) :
    (validate ctx).run R = if m.header.SumRead then
      (walk ctx (min ctx.available maxSize) maxRecords 0 0).run R else .rejected := by
  have hfirst : slice (archiveBytes ms ++ T) 0 512 = m.header.bytes := by
    cases ms with
    | nil => cases hm
    | cons r rest =>
      obtain rfl := Option.some.inj hm
      have hslice := slice_append_length r.header.bytes
        (r.body ++ (bytesOf rest ++ (List.replicate 1024 0 ++ T)))
      rw [r.header.length_bytes] at hslice
      rw [← hslice, archiveBytes, bytesOf, List.flatMap_cons, Member.bytes]
      simp only [List.append_assoc]
      rfl
  unfold validate
  simp only [ReadProg.run_bind, ReadProg.run_ite, h.read, hfirst]
  by_cases hsum : m.header.SumRead
  · rw [if_pos hsum, if_neg (by rw [m.header.checksumOk_iff.2 hsum]; decide)]
  · rw [if_neg hsum, if_pos (Bool.eq_false_iff.2 (m.header.checksumOk_iff.not.2 hsum))]
    rfl

/-- **The length is right** unless a header is misread. -/
lemma eq_of_isFull (h : ctx.Sees R (archiveBytes ms ++ T)) (hm : ¬ Misread (ms.map Member.header))
    (hf : ((validate ctx).run R).IsFull n) : n = (archiveBytes ms).length := by
  have hwalk : ((walk ctx (min ctx.available maxSize) maxRecords 0 0).run R).IsFull n := by
    unfold validate at hf
    simp only [ReadProg.run_bind, ReadProg.run_ite] at hf
    split at hf
    · exact absurd hf Verdict.not_isFull_rejected
    · exact hf
  have hbytes : (archiveBytes ms ++ T).drop 0 = bytesOf ms ++ (List.replicate 1024 0 ++ T) := by
    rw [List.drop_zero, archiveBytes, List.append_assoc]
  rcases read_or_first ms with hread | ⟨pre, m, post, hms, hread, hbad⟩
  · obtain ⟨-, hf⟩ := (walk_isFull_read_iff h hread hbytes).1 hwalk
    have hend : (archiveBytes ms ++ T).drop (0 + (bytesOf ms).length) =
        List.replicate 1024 0 ++ T := by
      rw [← List.drop_drop, hbytes, List.drop_left]
    rw [eq_of_isFull_end h hend hf, archiveBytes, List.length_append, List.length_replicate,
      Nat.zero_add]
  · have hsplit : bytesOf ms = bytesOf pre ++ (m.bytes ++ bytesOf post) := by
      rw [hms, bytesOf, List.flatMap_append, List.flatMap_cons]
      rfl
    rw [hsplit, List.append_assoc, List.append_assoc] at hbytes
    refine absurd ⟨pre.map Member.header, m.header, post.map Member.header, ?_, ?_, ?_⟩ hm
    · rw [hms, List.map_append, List.map_cons]
    · intro r hr
      obtain ⟨q, hq, rfl⟩ := List.mem_map.1 hr
      exact hread q hq
    · rw [← length_bytesOf, List.length_map, ne_eq, List.map_eq_nil_iff]
      exact misread_of_isFull h (min_le_right _ _) hread hbad hbytes hwalk

/-- `archive.tar` of the catalog. -/
def sig : SigDef where
  id := "archive.tar"
  family := "archive"
  extensions := ["tar"]
  headers := [.exact 257 [0x75, 0x73, 0x74, 0x61, 0x72]]
  footer := none
  minSize := 512
  strategy := .structural
  validator := some "tar"
  blockAligned := true
  footerAnchored := false

/-- A member whose data is all ones. -/
def onesMember (h : Header) : Member := ⟨h, List.replicate h.size 0xFF, List.length_replicate⟩

lemma map_onesMember (hs : List Header) : (hs.map onesMember).map Member.header = hs := by
  rw [List.map_map]
  exact List.map_id hs

/-- The first block of such data has no octal digits, and is not of zeros. -/
lemma onesMember_block {h : Header} (hsize : 0 < h.size) (x : Bytes) :
    (∀ c ∈ slice ((onesMember h).body ++ x) 0 512, isOctal c = false) ∧
      ∃ c ∈ slice ((onesMember h).body ++ x) 0 512, c ≠ 0 := by
  have hlen : 512 ≤ (onesMember h).body.length := by
    rw [Member.length_body]
    have : 0 < divCeil (onesMember h).header.size 512 := (lt_divCeil_iff (by omega)).2 (by simpa)
    omega
  have hblock : slice ((onesMember h).body ++ x) 0 512 = (onesMember h).body.take 512 := by
    rw [← take_slice _ _ hlen, slice_append_length]
  rw [hblock]
  constructor
  · intro c hc
    rcases List.mem_append.1 (List.mem_of_mem_take hc) with hc | hc
    · rw [List.eq_of_mem_replicate hc]
      decide
    · rw [List.eq_of_mem_replicate hc]
      decide
  · refine ⟨0xFF, ?_, by decide⟩
    obtain ⟨k, hk⟩ := Nat.exists_eq_succ_of_ne_zero hsize.ne'
    have hdata : (onesMember h).data = 0xFF :: List.replicate k 0xFF := by
      show List.replicate h.size 0xFF = _
      rw [hk]
      rfl
    rw [Member.body, hdata, List.cons_append, List.take_succ_cons]
    exact List.mem_cons_self ..

/-- A header that is misread makes the length wrong for some data. -/
lemma exists_wrong {hs : List Header} (hm : Misread hs)
    (h : ctx.Sees R (archiveBytes (hs.map onesMember) ++ T))
    (hmax : (archiveBytes (hs.map onesMember)).length ≤ ctx.available) :
    ∃ n < (archiveBytes (hs.map onesMember)).length, ((validate ctx).run R).IsFull n := by
  obtain ⟨pre, m, post, rfl, hread, hcase⟩ := hm
  have hlen := length_archiveBytes ((pre ++ m :: post).map onesMember)
  have hsum : spanOf (pre ++ m :: post) = spanOf pre + (m.span + spanOf post) := by
    simp only [spanOf, List.map_append, List.map_cons, List.sum_append, List.sum_cons]
  have hspan : 512 ≤ m.span := Nat.le_add_right ..
  rw [map_onesMember, hsum] at hlen
  set cap := min ctx.available maxSize with hcap
  have hpre : (bytesOf (pre.map onesMember)).length = spanOf pre := by
    rw [length_bytesOf, map_onesMember]
  have hread' : ∀ r ∈ pre.map onesMember, r.header.SumRead ∧ r.header.SizeRead := by
    intro r hr
    obtain ⟨q, hq, rfl⟩ := List.mem_map.1 hr
    exact hread q hq
  -- the first checksum is read right in both cases
  obtain ⟨r, hr, hsumr⟩ : ∃ r, ((pre ++ m :: post).map onesMember).head? = some r ∧
      r.header.SumRead := by
    cases pre with
    | nil =>
      refine ⟨onesMember m, rfl, ?_⟩
      rcases hcase with ⟨hne, -⟩ | ⟨hs, -⟩
      · exact absurd rfl hne
      · exact hs
    | cons q pre => exact ⟨onesMember q, rfl, (hread q (List.mem_cons_self ..)).1⟩
  obtain ⟨x, hbytes⟩ : ∃ x, (archiveBytes ((pre ++ m :: post).map onesMember) ++ T).drop 0 =
      bytesOf (pre.map onesMember) ++
        ((onesMember m).header.bytes ++ ((onesMember m).body ++ x)) := by
    refine ⟨bytesOf (post.map onesMember) ++ (List.replicate 1024 0 ++ T), ?_⟩
    rw [List.drop_zero, archiveBytes, bytesOf, List.map_append, List.map_cons, List.flatMap_append,
      List.flatMap_cons, Member.bytes]
    simp only [List.append_assoc]
    rfl
  have hhead : (archiveBytes ((pre ++ m :: post).map onesMember) ++ T).drop (spanOf pre) =
      (onesMember m).header.bytes ++ ((onesMember m).body ++ x) := by
    rw [← Nat.zero_add (spanOf pre), ← List.drop_drop, hbytes, ← hpre, List.drop_left]
  rw [run_validate h hr, if_pos hsumr, ← hcap]
  have hgoes : ∀ n, ((walk ctx cap maxRecords 0 0).run R).IsFull n ↔ pre.length ≤ maxRecords ∧
      ((walk ctx cap (maxRecords - pre.length) (spanOf pre) 0).run R).IsFull n := by
    intro n
    have hiff : ((walk ctx cap maxRecords 0 0).run R).IsFull n ↔ _ :=
      walk_isFull_read_iff h hread' hbytes
    rwa [List.length_map, hpre, Nat.zero_add] at hiff
  rcases hcase with ⟨hne, hbad, hcount, hfit⟩ | ⟨hgood, hbad, hcount, hfit⟩
  · refine ⟨spanOf pre, by omega, (hgoes _).2 ⟨hcount.le, ?_⟩⟩
    obtain ⟨fuel, hfuel⟩ := Nat.exists_eq_succ_of_ne_zero (Nat.sub_ne_zero_of_lt hcount)
    have hpos : 512 ≤ spanOf pre := by
      cases pre with
      | nil => exact absurd rfl hne
      | cons q pre => exact (Nat.le_add_right 512 _).trans (Nat.le_add_right q.span _)
    have hbad' : ¬ (onesMember m).header.SumRead := hbad
    rw [hfuel, run_walk_header h hhead, if_neg (by omega), if_pos hbad', if_pos hpos]
    exact ⟨rfl, rfl, rfl⟩
  · obtain ⟨hzero, hsize⟩ := Header.fieldValue_of_not_sizeRead hbad
    refine ⟨spanOf pre + 512, by omega, (hgoes _).2 ⟨by omega, ?_⟩⟩
    obtain ⟨fuel, hfuel⟩ : ∃ fuel, maxRecords - pre.length = fuel + 1 + 1 :=
      ⟨maxRecords - pre.length - 2, by omega⟩
    have hvalue : 512 + divCeil (fieldValue (onesMember m).header.sizeField) 512 * 512 = 512 := by
      show 512 + divCeil (fieldValue m.sizeField) 512 * 512 = 512
      rw [hzero]
      decide
    have hgood' : ¬ ¬ (onesMember m).header.SumRead := not_not.2 hgood
    have hblock : slice (archiveBytes ((pre ++ m :: post).map onesMember) ++ T) (spanOf pre + 512)
        512 = slice ((onesMember m).body ++ x) 0 512 := by
      rw [slice_eq_slice_drop, ← List.drop_drop, hhead,
        List.drop_left' (onesMember m).header.length_bytes]
    obtain ⟨hdigits, hne⟩ := onesMember_block hsize x
    rw [← hblock] at hdigits hne
    rw [hfuel, run_walk_header h hhead, if_neg (by omega), if_neg hgood', hvalue]
    exact isFull_of_noHeader h (by omega) (by omega) hdigits hne

/-- **When the length is right**: whatever the members hold and whatever follows, exactly if no
header is misread. -/
theorem tar_exact_iff (hs : List Header) (hlen : spanOf hs + 1024 ≤ u64Max) :
    (∀ (ms : List Member) (T : Bytes) (R : Reader) (ctx : Ctx), ms.map Member.header = hs →
      ctx.Sees R (archiveBytes ms ++ T) →
        ∀ n, ((validate ctx).run R).IsFull n → n = (archiveBytes ms).length) ↔ ¬ Misread hs := by
  constructor
  · intro hexact hm
    have hsize := length_archiveBytes (hs.map onesMember)
    rw [map_onesMember] at hsize
    set ctx : Ctx := ⟨(archiveBytes (hs.map onesMember)).length, 0,
      (archiveBytes (hs.map onesMember)).length, sig⟩ with hctx
    have hsees : ctx.Sees (memReader (archiveBytes (hs.map onesMember) ++ []))
        (archiveBytes (hs.map onesMember) ++ []) := by
      refine Ctx.sees (memReader_reads _) ?_ ?_
      · rw [List.append_nil]
      · rw [List.append_nil, hsize]
        exact hlen
    have havailable : (archiveBytes (hs.map onesMember)).length ≤ ctx.available := by
      rw [hsees.available, List.append_nil]
      exact (min_self _).ge
    obtain ⟨n, hlt, hn⟩ := exists_wrong hm hsees havailable
    exact absurd (hexact _ _ _ _ (map_onesMember hs) hsees n hn) hlt.ne
  · rintro hm ms T R ctx rfl h n hn
    exact eq_of_isFull h hm hn

/-- What is behind the checksum, with the magic `ustar`. -/
def smallRest : Bytes :=
  List.replicate 101 0 ++ ([0x75, 0x73, 0x74, 0x61, 0x72] ++ List.replicate 250 0)

lemma length_smallRest : smallRest.length = 356 := by
  rw [smallRest, List.length_append, List.length_append, List.length_replicate,
    List.length_replicate]
  rfl

lemma sum_smallRest : (smallRest.map UInt8.toNat).sum = 559 := by
  rw [smallRest, List.map_append, List.map_append, List.map_replicate, List.map_replicate,
    List.sum_append, List.sum_append, List.sum_replicate, List.sum_replicate]
  rfl

/-- A header of a member of one byte, by what its size and its checksum are. -/
def smallHeader (sizeField digits : Bytes) (h12 : sizeField.length = 12) (h6 : digits.length = 6)
    (hsize : SpellsOctal sizeField 1) (hdigits : ∀ d ∈ digits, isOctal d = true)
    (hsum : (sizeField.map UInt8.toNat).sum + 815 = octalValue digits) : Header where
  name := List.replicate 124 0
  sizeField := sizeField
  mtime := List.replicate 12 0
  sumField := digits ++ [0x00, 0x20]
  rest := smallRest
  size := 1
  name_length := List.length_replicate
  sizeField_length := h12
  mtime_length := List.length_replicate
  sumField_length := by rw [List.length_append, h6]; rfl
  rest_length := length_smallRest
  size_spelled := .inl hsize
  sum_spelled := by
    refine ⟨0, digits, [0x00, 0x20], rfl, hdigits, fun c hc => ?_, ?_⟩
    · obtain rfl := Option.some.inj hc
      rfl
    · rw [← hsum, sum_smallRest]
      simp only [List.map_append, List.map_replicate, List.sum_append, List.sum_replicate]
      show 124 • 0 + (_ + 12 • 0) + 256 + 559 = _
      rw [smul_zero, smul_zero]
      omega

lemma isOctal_of_all {digits : Bytes} (h : digits.all isOctal = true) :
    ∀ d ∈ digits, isOctal d = true := List.all_eq_true.1 h

lemma spells_zeros : SpellsOctal (List.replicate 10 0x30 ++ [0x31, 0x00]) 1 := by
  refine ⟨0, List.replicate 10 0x30 ++ [0x31], [0x00], rfl, isOctal_of_all rfl, fun c hc => ?_, rfl⟩
  obtain rfl := Option.some.inj hc
  rfl

lemma spells_spaces : SpellsOctal (List.replicate 10 0x20 ++ [0x31, 0x20]) 1 := by
  refine ⟨10, [0x31], [0x20], rfl, isOctal_of_all rfl, fun c hc => ?_, rfl⟩
  obtain rfl := Option.some.inj hc
  rfl

/-- The size has leading zeros. -/
def zerosHeader : Header :=
  smallHeader (List.replicate 10 0x30 ++ [0x31, 0x00]) [0x30, 0x30, 0x32, 0x35, 0x30, 0x30] rfl rfl
    spells_zeros (isOctal_of_all rfl) rfl

/-- The size has leading spaces. -/
def spacesHeader : Header :=
  smallHeader (List.replicate 10 0x20 ++ [0x31, 0x20]) [0x30, 0x30, 0x32, 0x33, 0x30, 0x30] rfl rfl
    spells_spaces (isOctal_of_all rfl) rfl

/-- A field that is not read as zero is read right. -/
lemma Header.sumRead_of_ne_zero {h : Header} (hne : fieldValue h.sumField ≠ 0) : h.SumRead :=
  h.sumField_value.resolve_right hne

lemma Header.sizeRead_of_ne_zero {h : Header} (hne : fieldValue h.sizeField ≠ 0) : h.SizeRead :=
  h.sizeField_value.resolve_right hne

lemma zerosHeader_read : zerosHeader.SumRead ∧ zerosHeader.SizeRead :=
  ⟨Header.sumRead_of_ne_zero (by decide), Header.sizeRead_of_ne_zero (by decide)⟩

lemma zerosHeader_not_misread : ¬ Misread [zerosHeader] := by
  rintro ⟨pre, h, post, hsplit, -, hcase⟩
  obtain rfl : zerosHeader = h := by
    have hmem : h ∈ [zerosHeader] := by
      rw [hsplit]
      exact List.mem_append_right _ (List.mem_cons_self ..)
    exact (List.mem_singleton.1 hmem).symm
  rcases hcase with ⟨-, hbad, -⟩ | ⟨-, hbad, -⟩
  · exact hbad zerosHeader_read.1
  · exact hbad zerosHeader_read.2

/-- An archive whose numbers have leading zeros. -/
theorem tar_exact_zeros : ¬ Misread [zerosHeader] ∧
    ∀ (ms : List Member) (T : Bytes) (R : Reader) (ctx : Ctx), ms.map Member.header =
      [zerosHeader] →
      ctx.Sees R (archiveBytes ms ++ T) →
        ∀ n, ((validate ctx).run R).IsFull n → n = (archiveBytes ms).length :=
  ⟨zerosHeader_not_misread, (tar_exact_iff [zerosHeader] (by decide)).2 zerosHeader_not_misread⟩

lemma spacesHeader_misread : Misread [spacesHeader] := by
  refine ⟨[], spacesHeader, [], rfl, fun r hr => absurd hr List.not_mem_nil, .inr ⟨?_, ?_, ?_, ?_⟩⟩
  · exact Header.sumRead_of_ne_zero (by decide)
  all_goals decide

/-- A size with leading spaces is read as zero, and the archive ends behind its first header. -/
theorem spaces_counterexample :
    ∃ n < (archiveBytes [onesMember spacesHeader]).length,
      ((validate ⟨2048, 0, 2048, sig⟩).run
        (memReader (archiveBytes [onesMember spacesHeader] ++ []))).IsFull n := by
  have hlen : (archiveBytes [onesMember spacesHeader]).length = 2048 := by
    rw [length_archiveBytes]
    rfl
  have hsees : Ctx.Sees ⟨2048, 0, 2048, sig⟩
      (memReader (archiveBytes [onesMember spacesHeader] ++ []))
      (archiveBytes [onesMember spacesHeader] ++ []) := by
    refine Ctx.sees (memReader_reads _) ?_ ?_
    · rw [List.append_nil, hlen]
    · rw [List.append_nil, hlen]
      decide
  exact exists_wrong spacesHeader_misread hsees hlen.le

end Exact

end Tar
end Reclaim
