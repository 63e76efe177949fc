import Reclaim.Carve.FileView
import Reclaim.Foundation.Checksums
import Reclaim.Foundation.LittleEndian
import Reclaim.Part.Gpt

/-!
# PNG files

A PNG file is a signature and a list of chunks, each with its length, its kind, its data and a
checksum of the two; the header chunk is the first, the end chunk the last.  The validator walks
the chunks, checks every sum, and stops behind the first end chunk.

`validate_isFull_iff` says that it is exact: it returns a full file of `n` bytes exactly when the
first `n` bytes are such a file, within the limits that the walk has.
-/

namespace Reclaim

open FileBytes

namespace Png

/-! ## The checksum -/

/-- One bit of the checksum. -/
def crcShift (c : UInt32) : UInt32 :=
  if c &&& 1 = 0 then c >>> 1 else (0xEDB88320 : UInt32) ^^^ (c >>> 1)

/-- `table`: eight bits of the checksum, for every byte. -/
def crcTable : List UInt32 := (List.range 256).map fun n => crcShift^[8] (UInt32.ofNat n)

/-- One byte of the checksum, by table. -/
def crcStep (c : UInt32) (b : UInt8) : UInt32 :=
  crcTable.getD ((c ^^^ b.toUInt32) &&& 0xFF).toNat 0 ^^^ (c >>> 8)

/-- `crc32`: the checksum by table. -/
def tableCrc (data : Bytes) : UInt32 := data.foldl crcStep 0xFFFFFFFF ^^^ 0xFFFFFFFF

/-- The polynomial. -/
def crcPoly : BitVec 32 := 0xEDB88320#32

lemma toBitVec_crcShift (c : UInt32) : (crcShift c).toBitVec = Crc.step crcPoly c.toBitVec := by
  have hbit : c &&& 1 = 0 ↔ c.toBitVec.getLsbD 0 = false := by
    rw [← UInt32.toBitVec_inj, UInt32.toBitVec_and]
    show c.toBitVec &&& 1#32 = 0#32 ↔ _
    rw [BitVec.and_one_eq_setWidth_ofBool_getLsbD]
    cases c.toBitVec.getLsbD 0 <;> decide
  unfold crcShift Crc.step
  by_cases h : c &&& 1 = 0
  · rw [if_pos h, hbit.1 h]
    rfl
  · rw [if_neg h, if_pos (by rwa [hbit, Bool.not_eq_false] at h)]
    rfl

/-- Bits are folded in by a mask in one of the repository's two routines. -/
lemma toBitVec_crcBit (c : UInt32) : (crcBit c).toBitVec = Crc.step crcPoly c.toBitVec := by
  have hmask : (0 - (c &&& 1)).toBitVec =
      if c.toBitVec.getLsbD 0 then BitVec.allOnes 32 else 0#32 := by
    rw [UInt32.toBitVec_sub, UInt32.toBitVec_and]
    show 0#32 - (c.toBitVec &&& 1#32) = _
    rw [BitVec.and_one_eq_setWidth_ofBool_getLsbD]
    cases c.toBitVec.getLsbD 0 <;> decide
  rw [crcBit, UInt32.toBitVec_xor, UInt32.toBitVec_and, hmask]
  show (c.toBitVec >>> 1) ^^^ (crcPoly &&& _) = _
  unfold Crc.step
  cases c.toBitVec.getLsbD 0
  · rw [if_neg (by decide), if_neg (by decide), BitVec.and_zero, BitVec.xor_zero]
  · rw [if_pos rfl, if_pos rfl, BitVec.and_allOnes, BitVec.xor_comm]

lemma toBitVec_iterate {f : UInt32 → UInt32}
    (hf : ∀ c, (f c).toBitVec = Crc.step crcPoly c.toBitVec) (n : ℕ) (c : UInt32) :
    (f^[n] c).toBitVec = (Crc.step crcPoly)^[n] c.toBitVec := by
  induction n generalizing c with
  | zero => rfl
  | succ n ih => rw [Function.iterate_succ_apply, Function.iterate_succ_apply, ih, hf]

/-- The table takes the place of eight steps. -/
lemma crcStep_eq (c : UInt32) (b : UInt8) : crcStep c b = crcByte c b := by
  have hidx : ((c ^^^ b.toUInt32) &&& 0xFF).toNat < 256 := by
    rw [UInt32.toNat_and]
    exact Nat.and_lt_two_pow (n := 8) _ (by decide)
  have hentry : crcTable.getD ((c ^^^ b.toUInt32) &&& 0xFF).toNat 0 =
      crcShift^[8] ((c ^^^ b.toUInt32) &&& 0xFF) := by
    rw [crcTable, List.getD_eq_getElem _ _ (by simpa using hidx), List.getElem_map,
      List.getElem_range, UInt32.ofNat_toNat]
  have hlow : ((c ^^^ b.toUInt32) &&& 0xFF).toBitVec = Crc.low 8 (c ^^^ b.toUInt32).toBitVec := rfl
  have hbyte : b.toUInt32.toBitVec >>> 8 = 0#32 := by
    rw [UInt8.toBitVec_toUInt32]
    apply BitVec.eq_of_getLsbD_eq
    intro i _
    rw [BitVec.getLsbD_ushiftRight, BitVec.getLsbD_setWidth, BitVec.getLsbD_of_ge _ _ (by omega)]
    simp
  rw [crcStep, hentry, crcByte, ← UInt32.toBitVec_inj, UInt32.toBitVec_xor,
    toBitVec_iterate toBitVec_crcShift, toBitVec_iterate toBitVec_crcBit, hlow,
    Crc.iterate_step_eq crcPoly 8 (c ^^^ b.toUInt32).toBitVec, UInt32.toBitVec_xor,
    BitVec.ushiftRight_xor_distrib, hbyte, BitVec.xor_zero]
  rfl

/-- **The checksum by table is the checksum bit by bit.** -/
theorem tableCrc_eq (data : Bytes) : tableCrc data = crc32 data := by
  have hstep : crcStep = crcByte := funext fun c => funext fun b => crcStep_eq c b
  rw [tableCrc, crc32, hstep]
  generalize data.foldl crcByte 0xFFFFFFFF = c
  rw [← UInt32.toBitVec_inj, UInt32.toBitVec_xor, UInt32.toBitVec_not]
  exact BitVec.xor_allOnes

/-! ## The validator -/

/-- `MAGIC`. -/
def magic : Bytes := [0x89, 0x50, 0x4E, 0x47, 0x0D, 0x0A, 0x1A, 0x0A]

/-- The kind of the header chunk. -/
def ihdr : Bytes := [0x49, 0x48, 0x44, 0x52]

/-- The kind of the end chunk. -/
def iend : Bytes := [0x49, 0x45, 0x4E, 0x44]

/-- `MAX`: the largest file. -/
def maxSize : ℕ := 256 * 1024 * 1024

/-- `CRC_CAP`: the most data of a chunk whose checksum is computed. -/
def crcCap : ℕ := 16 * 1024 * 1024

/-- `MAX_CHUNKS`. -/
def maxChunks : ℕ := 500000

/-- `truncated`: what a walk that stops at `pos` makes of the file. -/
def truncated (pos : ℕ) (first : Bool) : Verdict :=
  if first = true ∨ pos < 45 then .rejected else .accepted pos .truncated 60

/-- The chunks from `pos` on, `fuel` at most; `suspect` says that a checksum was not computed. -/
def walk (ctx : Ctx) (cap : ℕ) : ℕ → ℕ → Bool → Bool → ReadProg Verdict
  | 0, pos, first, _ => pure (truncated pos first)
  | fuel + 1, pos, first, suspect => do
    let hdr ← ctx.read pos 8
    if hdr.length < 8 then pure (truncated pos first)
    else
      let len := (getBe 4 hdr 0).getD u32Max
      let typ := (hdr.drop 4).take 4
      let chunkTotal := saturatingAdd 12 len
      if cap < saturatingAdd pos chunkTotal then pure (truncated pos first)
      else if first = true ∧ typ ≠ ihdr then pure .rejected
      else do
        let sum ← ctx.read (pos + 8 + len) 4
        let body ← if len ≤ crcCap then ctx.read (pos + 8) len else pure []
        if len ≤ crcCap ∧ some (tableCrc (typ ++ body)).toNat ≠ getBe 4 sum 0 then
          pure (if first then .rejected else truncated pos false)
        else
          let suspect := suspect || decide (crcCap < len)
          if typ = iend then
            pure (if suspect then .accepted (pos + chunkTotal) .suspect 70
              else .accepted (pos + chunkTotal) .full 97)
          else walk ctx cap fuel (saturatingAdd pos chunkTotal) false suspect

/-- `validate`. -/
def validate (ctx : Ctx) : ReadProg Verdict := do
  let head ← ctx.read 0 8
  if head ≠ magic then pure .rejected
  else walk ctx (min ctx.available maxSize) maxChunks 8 true false

/-! ## The format -/

/-- A chunk. -/
structure Chunk where
  kind : Bytes
  data : Bytes
  kind_length : kind.length = 4

namespace Chunk

lemma eq_of_kind {c : Chunk} {kind : Bytes} (h : c.kind = kind) (hk : kind.length = 4) :
    c = ⟨kind, c.data, hk⟩ := by
  subst h
  rfl

/-- The bytes of a chunk. -/
def bytes (c : Chunk) : Bytes :=
  beBytes 4 c.data.length ++ (c.kind ++ (c.data ++ beBytes 4 (crc32 (c.kind ++ c.data)).toNat))

lemma length_bytes (c : Chunk) : c.bytes.length = 12 + c.data.length := by
  rw [bytes, List.length_append, List.length_append, List.length_append, length_beBytes,
    length_beBytes, c.kind_length]
  omega

/-- The chunk that the bytes from `start` on would be, its checksum left aside. -/
def read (data : Bytes) (start : ℕ) : Chunk where
  kind := slice data (start + 4) 4
  data := slice data (start + 8) (leValue (slice data start 4).reverse)
  kind_length := length_slice ..

lemma length_data_read (data : Bytes) (start : ℕ) :
    (read data start).data.length = leValue (slice data start 4).reverse := length_slice ..

/-- **A chunk is there exactly when its checksum is right.** -/
lemma slice_eq_bytes_iff {data : Bytes} {start : ℕ} {c : Chunk} (hc : c.data.length < 256 ^ 4) :
    slice data start (12 + c.data.length) = c.bytes ↔ c = read data start ∧
      leValue (slice data (start + 8 + c.data.length) 4).reverse =
        (crc32 (c.kind ++ c.data)).toNat := by
  have hsplit : slice data start (12 + c.data.length) = slice data start 4 ++
      (slice data (start + 4) 4 ++ (slice data (start + 8) c.data.length ++
        slice data (start + 8 + c.data.length) 4)) := by
    rw [show 12 + c.data.length = 4 + (4 + (c.data.length + 4)) by omega, slice_add, slice_add,
      slice_add]
  have hsum : (crc32 (c.kind ++ c.data)).toNat < 256 ^ 4 := UInt32.toNat_lt _
  rw [hsplit, bytes]
  constructor
  · intro h
    obtain ⟨hlen, h⟩ := List.append_inj h (by simp)
    obtain ⟨hkind, h⟩ := List.append_inj h (by simp [c.kind_length])
    obtain ⟨hdata, hcrc⟩ := List.append_inj h (by simp)
    have hread : leValue (slice data start 4).reverse = c.data.length := by
      rw [hlen, leValue_beBytes 4 _ hc]
    refine ⟨?_, by rw [hcrc, leValue_beBytes 4 _ hsum]⟩
    cases c with
    | mk kind d hk =>
      simp only [read, Chunk.mk.injEq]
      exact ⟨hkind.symm, by rw [hread]; exact hdata.symm⟩
  · rintro ⟨heq, hcrc⟩
    have hkind : c.kind = slice data (start + 4) 4 := congrArg kind heq
    have hdata : c.data = slice data (start + 8) (leValue (slice data start 4).reverse) :=
      congrArg Chunk.data heq
    have hlen : leValue (slice data start 4).reverse = c.data.length := by
      rw [hdata, length_slice]
    have hfield : ∀ off, slice data off 4 = beBytes 4 (leValue (slice data off 4).reverse) := by
      intro off
      have := beBytes_leValue (slice data off 4)
      rw [length_slice] at this
      exact this.symm
    rw [hfield start, hlen, hfield (start + 8 + c.data.length), hcrc, ← hkind]
    congr 3
    rw [hlen] at hdata
    exact hdata.symm

end Chunk

/-- Chunks that the walk goes through: an end chunk is the last and there is no other, and every
checksum is computed. -/
def Closed : List Chunk → Prop
  | [] => False
  | c :: rest => c.data.length ≤ crcCap ∧ if c.kind = iend then rest = [] else Closed rest

/-- The bytes of a list of chunks. -/
def bytesOf (chunks : List Chunk) : Bytes := chunks.flatMap Chunk.bytes

lemma length_bytesOf_cons (c : Chunk) (rest : List Chunk) :
    (bytesOf (c :: rest)).length = 12 + c.data.length + (bytesOf rest).length := by
  rw [bytesOf, List.flatMap_cons, List.length_append, Chunk.length_bytes]
  rfl

/-- Chunks lie one after the other when the first is the one read there and the others follow. -/
lemma slice_eq_bytesOf_cons_iff {data : Bytes} {start : ℕ} {c : Chunk} {rest : List Chunk}
    (hc : c.data.length ≤ crcCap) :
    slice data start (bytesOf (c :: rest)).length = bytesOf (c :: rest) ↔
      c = Chunk.read data start ∧
      leValue (slice data (start + 8 + c.data.length) 4).reverse =
        (crc32 (c.kind ++ c.data)).toNat ∧
      slice data (start + (12 + c.data.length)) (bytesOf rest).length = bytesOf rest := by
  have hlt : c.data.length < 256 ^ 4 := lt_of_le_of_lt hc (by decide)
  have hcons : bytesOf (c :: rest) = c.bytes ++ bytesOf rest := List.flatMap_cons
  rw [length_bytesOf_cons, hcons, slice_add, ← and_assoc, ← Chunk.slice_eq_bytes_iff hlt]
  constructor
  · exact fun h => List.append_inj h (by rw [length_slice, Chunk.length_bytes])
  · rintro ⟨hfirst, hrest⟩
    rw [hfirst, hrest]

/-! ## What the walk finds -/

section Walk

variable {R : Reader} {data : Bytes} {ctx : Ctx} {cap n pos m : ℕ} {first suspect : Bool}

lemma not_isFull_truncated : ¬ (truncated pos first).IsFull m := by
  unfold truncated
  split
  · exact Verdict.not_isFull_rejected
  · exact fun h => absurd h.2.1 (by decide : Validity.truncated ≠ .full)

/-- A read of the file, as far as offsets go. -/
lemma run_read (hR : R.Reads data) {rel len : ℕ} (h : ctx.fileStart + rel ≤ u64Max) :
    (ctx.read rel len).run R = slice data (ctx.fileStart + rel) len := by
  rw [Ctx.read, ReadProg.run_bytes, hR, saturatingAdd, min_eq_left h]

/-- **One chunk of the walk.** -/
lemma run_walk_succ (hR : R.Reads data) (hu64 : ctx.fileStart + cap ≤ u64Max)
    (hcap : cap ≤ maxSize) (hpos : pos ≤ cap) :
    let c := Chunk.read data (ctx.fileStart + pos)
    let total := 12 + c.data.length
    (walk ctx cap (n + 1) pos first suspect).run R =
      if cap < pos + total then truncated pos first
      else if first = true ∧ c.kind ≠ ihdr then .rejected
      else if c.data.length ≤ crcCap ∧ (crc32 (c.kind ++ c.data)).toNat ≠
          leValue (slice data (ctx.fileStart + pos + 8 + c.data.length) 4).reverse then
        if first then .rejected else truncated pos false
      else if c.kind = iend then
        if suspect || decide (crcCap < c.data.length) then .accepted (pos + total) .suspect 70
        else .accepted (pos + total) .full 97
      else
        (walk ctx cap n (pos + total) false
          (suspect || decide (crcCap < c.data.length))).run R := by
  intro c total
  have hu64Max : u64Max = 2 ^ 64 - 1 := rfl
  have hmax : maxSize = 2 ^ 28 := rfl
  have hlen : (getBe 4 (slice data (ctx.fileStart + pos) 8) 0).getD u32Max = c.data.length := by
    rw [getBe, getRange, if_pos (by rw [length_slice]; omega), List.drop_zero,
      take_slice _ _ (by omega)]
    exact (Chunk.length_data_read ..).symm
  have hkind : ((slice data (ctx.fileStart + pos) 8).drop 4).take 4 = c.kind := by
    rw [show (8 : ℕ) = 4 + 4 from rfl, slice_add, List.drop_left' (length_slice ..),
      List.take_of_length_le (length_slice ..).le]
    rfl
  have hsmall : c.data.length < 2 ^ 32 := by
    rw [Chunk.length_data_read]
    exact (leValue_lt _).trans_eq (by rw [List.length_reverse, length_slice]; rfl)
  have htotal : saturatingAdd 12 c.data.length = total := min_eq_left (by omega)
  have hnext : saturatingAdd pos total = pos + total := min_eq_left (by omega)
  rw [walk, ReadProg.run_bind, run_read hR (by omega)]
  simp only [ReadProg.run_ite, ReadProg.run_bind, ReadProg.run_pure, length_slice, lt_irrefl,
    if_false, hlen, hkind, htotal, hnext]
  by_cases hfit : cap < pos + total
  · rw [if_pos hfit, if_pos hfit]
  · rw [if_neg hfit, if_neg hfit]
    have hbody : (ctx.read (pos + 8) c.data.length).run R = c.data := by
      rw [run_read hR (by omega), ← Nat.add_assoc, Chunk.length_data_read]
      rfl
    have hsum : getBe 4 ((ctx.read (pos + 8 + c.data.length) 4).run R) 0 =
        some (leValue (slice data (ctx.fileStart + pos + 8 + c.data.length) 4).reverse) := by
      rw [run_read hR (by omega), getBe, getRange, if_pos (by rw [length_slice]), List.drop_zero,
        take_slice _ _ le_rfl, Option.map_some, ← Nat.add_assoc, ← Nat.add_assoc]
    apply if_congr Iff.rfl rfl
    by_cases hle : c.data.length ≤ crcCap
    · rw [if_pos hle, hbody, hsum]
      refine if_congr ?_ rfl ?_
      · rw [tableCrc_eq, ne_eq, Option.some.injEq]
      · refine if_congr Iff.rfl ?_ rfl
        split <;> rfl
    · simp only [hle, false_and, if_false, ReadProg.run_ite, ReadProg.run_pure]

/-- Where no chunk fits, the walk ends. -/
lemma not_isFull_of_short (h : cap < pos + 12) (hcap : cap < u64Max) :
    ¬ ((walk ctx cap n pos first suspect).run R).IsFull m := by
  cases n with
  | zero => exact not_isFull_truncated
  | succ n =>
    have hover : ∀ len, cap < saturatingAdd pos (saturatingAdd 12 len) := by
      intro len
      have hu64 : u64Max = 2 ^ 64 - 1 := rfl
      simp only [saturatingAdd]
      omega
    rw [walk, ReadProg.run_bind, ReadProg.run_ite]
    by_cases hshort : ((ctx.read pos 8).run R).length < 8
    · rw [if_pos hshort]
      exact not_isFull_truncated
    · rw [if_neg hshort]
      dsimp only
      rw [ReadProg.run_ite, if_pos (hover _)]
      exact not_isFull_truncated

/-- A walk that has passed a checksum over returns no full file. -/
lemma not_isFull_suspect (hR : R.Reads data) (hu64 : ctx.fileStart + cap ≤ u64Max)
    (hcap : cap ≤ maxSize) (hpos : pos ≤ cap) :
    ¬ ((walk ctx cap n pos first true).run R).IsFull m := by
  induction n generalizing pos first with
  | zero => exact not_isFull_truncated
  | succ n ih =>
    rw [run_walk_succ hR hu64 hcap hpos]
    split_ifs with hfit _ _ _ _ hsuspect
    · exact not_isFull_truncated
    · exact Verdict.not_isFull_rejected
    · exact Verdict.not_isFull_rejected
    · exact not_isFull_truncated
    · exact fun h => absurd h.2.1 (by decide : Validity.suspect ≠ .full)
    · exact absurd hsuspect (by simp)
    · rw [Bool.true_or]
      exact ih (by omega)

/-- **What a walk returns in full**: chunks that lie one after the other from `pos` on. -/
lemma walk_isFull_iff (hR : R.Reads data) (hu64 : ctx.fileStart + cap ≤ u64Max)
    (hcap : cap ≤ maxSize) (hpos : pos ≤ cap) :
    ((walk ctx cap n pos first false).run R).IsFull m ↔ ∃ chunks, Closed chunks ∧
      chunks.length ≤ n ∧ (first = true → (chunks.head?.map Chunk.kind) = some ihdr) ∧
      slice data (ctx.fileStart + pos) (bytesOf chunks).length = bytesOf chunks ∧
      m = pos + (bytesOf chunks).length ∧ m ≤ cap := by
  induction n generalizing pos first with
  | zero =>
    apply iff_of_false not_isFull_truncated
    rintro ⟨chunks, hclosed, hlen, -⟩
    rw [List.eq_nil_of_length_eq_zero (by omega : chunks.length = 0)] at hclosed
    exact hclosed
  | succ n ih =>
    rw [run_walk_succ hR hu64 hcap hpos]
    set c := Chunk.read data (ctx.fileStart + pos) with hc
    constructor
    · intro h
      split_ifs at h with hfit hkind hsum _ hend hsuspect
      · exact absurd h not_isFull_truncated
      · exact absurd h Verdict.not_isFull_rejected
      · exact absurd h Verdict.not_isFull_rejected
      · exact absurd h not_isFull_truncated
      · exact absurd h.2.1 (by decide : Validity.suspect ≠ .full)
      · -- the end chunk
        rw [Bool.false_or, decide_eq_true_eq, not_lt] at hsuspect
        rw [not_and, not_not] at hsum hkind
        have hlen : (bytesOf [c]).length = 12 + c.data.length := length_bytesOf_cons c []
        refine ⟨[c], ⟨hsuspect, by rw [if_pos hend]⟩, Nat.le_add_left 1 n,
          fun hfirst => congrArg some (hkind hfirst), ?_, ?_⟩
        · exact (slice_eq_bytesOf_cons_iff hsuspect).2 ⟨hc, (hsum hsuspect).symm, rfl⟩
        · rw [hlen, ← h.2.2]
          exact ⟨rfl, not_lt.1 hfit⟩
      · -- a chunk before the end
        have hsmall : c.data.length ≤ crcCap := by
          by_contra hbig
          rw [Bool.false_or, decide_eq_true (not_le.1 hbig)] at h
          exact not_isFull_suspect hR hu64 hcap (not_lt.1 hfit) h
        rw [not_and, not_not] at hsum hkind
        rw [Bool.false_or, decide_eq_false (not_lt.2 hsmall)] at h
        obtain ⟨chunks, hclosed, hlen, -, hbytes, hm, hle⟩ := (ih (not_lt.1 hfit)).1 h
        have hcons := length_bytesOf_cons c chunks
        refine ⟨c :: chunks, ⟨hsmall, by rwa [if_neg hend]⟩, Nat.succ_le_succ hlen,
          fun hfirst => congrArg some (hkind hfirst), ?_, by omega, hle⟩
        rw [← Nat.add_assoc] at hbytes
        exact (slice_eq_bytesOf_cons_iff hsmall).2 ⟨hc, (hsum hsmall).symm, hbytes⟩
    · rintro ⟨chunks, hclosed, hlen, hfirst, hbytes, hm, hle⟩
      cases chunks with
      | nil => exact hclosed.elim
      | cons d rest =>
        obtain ⟨hsmall, hend⟩ := hclosed
        obtain ⟨hread, hsum, hrest⟩ := (slice_eq_bytesOf_cons_iff hsmall).1 hbytes
        obtain rfl : d = c := hread
        rw [length_bytesOf_cons] at hm
        rw [Nat.add_assoc] at hrest
        have hkind : ¬ (first = true ∧ c.kind ≠ ihdr) := by
          rintro ⟨hf, hne⟩
          exact hne (Option.some.inj (hfirst hf))
        rw [if_neg (by omega), if_neg hkind, if_neg (by rw [hsum]; simp), Bool.false_or,
          decide_eq_false (not_lt.2 hsmall)]
        by_cases hkindend : c.kind = iend
        · rw [if_pos hkindend] at hend
          subst hend
          rw [if_pos hkindend, if_neg (by decide), hm]
          exact ⟨rfl, rfl, rfl⟩
        · rw [if_neg hkindend] at hend ⊢
          have hnext : pos + (12 + c.data.length) ≤ cap := by omega
          have hfirst' : false = true → rest.head?.map Chunk.kind = some ihdr := fun h => by cases h
          refine (ih hnext).2 ⟨rest, hend, Nat.le_of_succ_le_succ hlen, hfirst', hrest, ?_, hle⟩
          omega

end Walk

/-! ## Exactness -/

/-- The lists that the walk goes through end with their only end chunk. -/
lemma closed_iff {chunks : List Chunk} :
    Closed chunks ↔ ∃ before last, chunks = before ++ [last] ∧ (∀ c ∈ before, c.kind ≠ iend) ∧
      last.kind = iend ∧ ∀ c ∈ chunks, c.data.length ≤ crcCap := by
  induction chunks with
  | nil => simp [Closed]
  | cons c rest ih =>
    rw [Closed]
    constructor
    · rintro ⟨hsmall, hend⟩
      by_cases hkind : c.kind = iend
      · rw [if_pos hkind] at hend
        subst hend
        exact ⟨[], c, rfl, by simp, hkind, by simpa using hsmall⟩
      · rw [if_neg hkind] at hend
        obtain ⟨before, last, rfl, hbefore, hlast, hall⟩ := ih.1 hend
        refine ⟨c :: before, last, rfl, ?_, hlast, ?_⟩
        · exact List.forall_mem_cons.2 ⟨hkind, hbefore⟩
        · exact List.forall_mem_cons.2 ⟨hsmall, hall⟩
    · rintro ⟨before, last, heq, hbefore, hlast, hall⟩
      obtain ⟨hsmall, hrest⟩ := List.forall_mem_cons.1 hall
      refine ⟨hsmall, ?_⟩
      cases before with
      | nil =>
        obtain ⟨rfl, rfl⟩ := List.cons.inj heq
        rw [if_pos hlast]
      | cons d before =>
        obtain ⟨rfl, rfl⟩ := List.cons.inj heq
        obtain ⟨hkind, hbefore⟩ := List.forall_mem_cons.1 hbefore
        rw [if_neg hkind]
        exact ih.2 ⟨before, last, rfl, hbefore, hlast, hrest⟩

/-- A PNG file. -/
structure File where
  /-- The data of the header chunk. -/
  header : Bytes
  chunks : List Chunk
  /-- The data of the end chunk. -/
  trailer : Bytes
  /-- The end chunk is the only one of its kind. -/
  other : ∀ c ∈ chunks, c.kind ≠ iend

namespace File

/-- All chunks of a file, in order. -/
def all (f : File) : List Chunk :=
  ⟨ihdr, f.header, rfl⟩ :: (f.chunks ++ [⟨iend, f.trailer, rfl⟩])

/-- The bytes of a file. -/
def bytes (f : File) : Bytes := magic ++ bytesOf f.all

/-- A file is within the limits of the walk. -/
structure InCaps (f : File) : Prop where
  size : f.bytes.length ≤ maxSize
  count : f.all.length ≤ maxChunks
  data : ∀ c ∈ f.all, c.data.length ≤ crcCap

lemma length_bytes (f : File) : f.bytes.length = 8 + (bytesOf f.all).length := List.length_append ..

end File

/-- The lists that begin with a header chunk are those of files. -/
lemma closed_header_iff {chunks : List Chunk} :
    (Closed chunks ∧ chunks.head?.map Chunk.kind = some ihdr) ↔
      ∃ f : File, chunks = f.all ∧ ∀ c ∈ f.all, c.data.length ≤ crcCap := by
  constructor
  · rintro ⟨hclosed, hhead⟩
    obtain ⟨before, last, rfl, hbefore, hlast, hall⟩ := closed_iff.1 hclosed
    cases before with
    | nil =>
      have hkind : last.kind = ihdr := Option.some.inj hhead
      exact absurd (hkind.symm.trans hlast) (by decide)
    | cons c before =>
      have hkind : c.kind = ihdr := Option.some.inj hhead
      obtain ⟨-, hbefore⟩ := List.forall_mem_cons.1 hbefore
      have hchunks : c :: before ++ [last] = File.all ⟨c.data, before, last.data, hbefore⟩ := by
        rw [File.all, ← Chunk.eq_of_kind hkind rfl, ← Chunk.eq_of_kind hlast rfl]
        rfl
      exact ⟨_, hchunks, by rwa [← hchunks]⟩
  · rintro ⟨f, rfl, hall⟩
    refine ⟨closed_iff.2 ⟨⟨ihdr, f.header, rfl⟩ :: f.chunks, ⟨iend, f.trailer, rfl⟩, rfl, ?_, rfl,
      hall⟩, rfl⟩
    exact List.forall_mem_cons.2 ⟨(by decide : ihdr ≠ iend), f.other⟩

section Exact

variable {R : Reader} {data : Bytes} {ctx : Ctx} {n : ℕ}

/-- **What the validator returns in full**: the files within its limits that are there. -/
lemma validate_isFull_iff (hR : R.Reads data) (hu64 : ctx.sourceLen ≤ u64Max) :
    ((validate ctx).run R).IsFull n ↔ ∃ f : File, f.InCaps ∧
      slice data ctx.fileStart f.bytes.length = f.bytes ∧ n = f.bytes.length ∧
        n ≤ ctx.available := by
  have hu64Max : u64Max = 2 ^ 64 - 1 := rfl
  have hmaxSize : maxSize = 2 ^ 28 := rfl
  have havail : ctx.available ≤ ctx.sourceLen - ctx.fileStart := min_le_left _ _
  rw [validate, ReadProg.run_bind, ReadProg.run_ite]
  by_cases hshort : min ctx.available maxSize < 8 + 12
  · refine iff_of_false ?_ ?_
    · split_ifs
      · exact Verdict.not_isFull_rejected
      · exact not_isFull_of_short hshort (by omega)
    · rintro ⟨f, hcaps, -, rfl, hle⟩
      have hsize := hcaps.size
      rw [f.length_bytes, File.all, length_bytesOf_cons] at hle hsize
      omega
  have hhead : (ctx.read 0 8).run R = slice data ctx.fileStart 8 := run_read hR (by omega)
  have hfile : ∀ f : File, slice data ctx.fileStart f.bytes.length = f.bytes ↔
      slice data ctx.fileStart 8 = magic ∧
        slice data (ctx.fileStart + 8) (bytesOf f.all).length = bytesOf f.all := by
    intro f
    rw [f.length_bytes, slice_add, File.bytes]
    constructor
    · exact fun h => List.append_inj h (length_slice ..)
    · rintro ⟨hmagic, hchunks⟩
      rw [hmagic, hchunks]
  rw [hhead]
  split_ifs with hmagic
  · apply iff_of_false Verdict.not_isFull_rejected
    rintro ⟨f, -, hbytes, -⟩
    exact hmagic ((hfile f).1 hbytes).1
  · rw [ne_eq, not_not] at hmagic
    rw [walk_isFull_iff hR (by omega) (min_le_right _ _) (by omega)]
    constructor
    · rintro ⟨chunks, hclosed, hcount, hfirst, hbytes, hn, hle⟩
      obtain ⟨f, rfl, hall⟩ := closed_header_iff.1 ⟨hclosed, hfirst rfl⟩
      rw [← f.length_bytes] at hn
      exact ⟨f, ⟨by omega, hcount, hall⟩, (hfile f).2 ⟨hmagic, hbytes⟩, hn, by omega⟩
    · rintro ⟨f, hcaps, hbytes, hn, hle⟩
      obtain ⟨hclosed, hfirst⟩ := closed_header_iff.2 ⟨f, rfl, hcaps.data⟩
      have hsize := hcaps.size
      rw [f.length_bytes] at hn hsize
      exact ⟨f.all, hclosed, hcaps.count, fun _ => hfirst, ((hfile f).1 hbytes).2, hn, by omega⟩

/-- **The validator is exact.**  Of a file within its limits, whatever lies before and behind it,
it returns the whole as full; and what it returns as full is such a file, every checksum right. -/
theorem validate_exact (ctx : Ctx) (hR : R.Reads data) (hlen : ctx.sourceLen = data.length)
    (hu64 : data.length ≤ u64Max) :
    (∀ (f : File) (before after : Bytes), data = before ++ f.bytes ++ after →
      ctx.fileStart = before.length → f.InCaps → f.bytes.length ≤ ctx.maxLen →
        ((validate ctx).run R).IsFull f.bytes.length) ∧
    ∀ n, ((validate ctx).run R).IsFull n →
      ∃ f : File, f.InCaps ∧ (data.drop ctx.fileStart).take n = f.bytes := by
  constructor
  · rintro f before after rfl hstart hcaps hmax
    refine (validate_isFull_iff hR (hlen.trans_le hu64)).2 ⟨f, hcaps, ?_, rfl, ?_⟩
    · rw [hstart, slice_between]
    · rw [Ctx.available, hlen, hstart, List.length_append, List.length_append]
      omega
  · intro n hfull
    obtain ⟨f, hcaps, hbytes, rfl, hle⟩ := (validate_isFull_iff hR (hlen.trans_le hu64)).1 hfull
    rw [Ctx.available, hlen] at hle
    refine ⟨f, hcaps, ?_⟩
    rw [← take_drop_padded, List.length_take, List.length_drop, min_eq_left (by omega),
      Nat.sub_self, List.replicate_zero, List.append_nil] at hbytes
    exact hbytes

end Exact

/-! ## Two end chunks -/

/-- `image.png` of the catalog. -/
def pngSig : SigDef where
  id := "image.png"
  family := "image"
  extensions := ["png"]
  headers := [.exact 0 magic]
  footer := some ⟨[0x49, 0x45, 0x4E, 0x44, 0xAE, 0x42, 0x60, 0x82], 256 * 1024 * 1024⟩
  minSize := 67
  strategy := .structural
  validator := some "png"
  blockAligned := true
  footerAnchored := false

/-- A file with a header and an empty end chunk. -/
def smallFile : File := ⟨[0, 0, 0, 16, 0, 0, 0, 16, 8, 0, 0, 0, 0], [], [], List.forall_mem_nil _⟩

lemma smallFile_inCaps : smallFile.InCaps where
  size := by decide
  count := by decide
  data := by
    rw [smallFile, File.all, List.nil_append, List.forall_mem_cons, List.forall_mem_singleton]
    exact ⟨by decide, by decide⟩

/-- The exactness of the validator at a small file between other bytes. -/
theorem validate_exact_smallFile :
    ((validate ⟨[9].length + smallFile.bytes.length + 2, 1, 1000, pngSig⟩).run
      (memReader ([9] ++ smallFile.bytes ++ [0, 0]))).IsFull smallFile.bytes.length ∧
    ∃ f : File, f.InCaps ∧ (([9] ++ smallFile.bytes ++ [0, 0]).drop 1).take
      smallFile.bytes.length = f.bytes := by
  have hsmall : smallFile.bytes.length = 45 := by decide
  have hlen : ([9] ++ smallFile.bytes ++ [0, 0]).length = 48 := by
    rw [List.length_append, List.length_append, hsmall]
    rfl
  have hexact := validate_exact ⟨[9].length + smallFile.bytes.length + 2, 1, 1000, pngSig⟩
    (memReader_reads ([9] ++ smallFile.bytes ++ [0, 0])) (by rw [hlen, hsmall]; rfl)
    (by rw [hlen]; decide)
  have hfull := hexact.1 smallFile [9] [0, 0] rfl rfl smallFile_inCaps (by rw [hsmall]; decide)
  exact ⟨hfull, hexact.2 _ hfull⟩

/-- **Behind its first end chunk a file is not read on**: with two of them it is cut. -/
theorem validate_exact_counterexample :
    let chunks := smallFile.all ++ [⟨iend, [], rfl⟩]
    let data := magic ++ bytesOf chunks
    let verdict := (validate ⟨data.length, 0, data.length, pngSig⟩).run (memReader data)
    verdict.IsFull 45 ∧ data.length = 57 ∧ ¬ verdict.IsFull data.length := by
  intro chunks data verdict
  have hlen : data.length = 57 := by decide
  have hdata : data = smallFile.bytes ++ Chunk.bytes ⟨iend, [], rfl⟩ := by
    rw [show data = magic ++ bytesOf (smallFile.all ++ [⟨iend, [], rfl⟩]) from rfl, bytesOf,
      List.flatMap_append, List.flatMap_singleton, File.bytes, bytesOf, List.append_assoc]
  have hsmall : smallFile.bytes.length = 45 := by decide
  have hslice : slice data 0 smallFile.bytes.length = smallFile.bytes := by
    rw [hdata]
    exact slice_between [] _ _
  have hfull : verdict.IsFull 45 := by
    refine (validate_isFull_iff (memReader_reads data) (by rw [hlen]; decide)).2
      ⟨smallFile, smallFile_inCaps, hslice, hsmall.symm, ?_⟩
    rw [Ctx.available, hlen]
    decide
  refine ⟨hfull, hlen, fun h => ?_⟩
  have := h.2.2.symm.trans hfull.2.2
  omega

end Png
end Reclaim
