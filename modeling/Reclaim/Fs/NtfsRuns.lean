import Reclaim.Foundation.Fields
import Reclaim.Fs.NtfsRecord

/-!
# Mapping pairs

The clusters of an attribute are listed as pairs of a length and a distance from the run before,
each in as few bytes as it fits in, or in more.  `decode_runs` reads such a list back, up to its
guards, and it reads nothing behind the end of its input.
-/

namespace Reclaim
namespace Ntfs

open FileBytes

/-! ## Encoding -/

/-- A run with the widths of its two fields. -/
structure Pair where
  run : Run
  lengthWidth : ℕ
  offsetWidth : ℕ

namespace Pair

/-- The cluster that the distance of the next run is counted from. -/
def base (prev : ℤ) (p : Pair) : ℤ := if p.run.sparse then prev else p.run.lcn

/-- What a pair is stored as behind a run at `prev`. -/
def bytes (prev : ℤ) (p : Pair) : Bytes :=
  if p.run.sparse then
    UInt8.ofNat p.lengthWidth :: leBytes p.lengthWidth p.run.length
  else
    UInt8.ofNat (p.lengthWidth + 16 * p.offsetWidth) :: (leBytes p.lengthWidth p.run.length ++
      leSignedBytes p.offsetWidth (p.run.lcn - prev))

/-- The fields fit in their widths, which a nibble holds, and in 64 bits. -/
structure Valid (prev : ℤ) (p : Pair) : Prop where
  lengthWidth_pos : 0 < p.lengthWidth
  lengthWidth_lt : p.lengthWidth < 16
  length_lt : p.run.length < 256 ^ min p.lengthWidth 8
  offset : if p.run.sparse then p.run.lcn = 0
    else 0 < p.offsetWidth ∧ p.offsetWidth < 16 ∧ p.run.lcn < 2 ^ 63 ∧
      -(256 ^ min p.offsetWidth 8 : ℕ) ≤ 2 * (p.run.lcn - prev) ∧
        2 * (p.run.lcn - prev) < (256 ^ min p.offsetWidth 8 : ℕ)

end Pair

/-- A list of pairs, the first behind a run at `prev`. -/
def encodeRuns : ℤ → List Pair → Bytes
  | _, [] => []
  | prev, p :: ps => p.bytes prev ++ encodeRuns (p.base prev) ps

/-- Each pair is valid behind the ones before it. -/
def ValidRuns : ℤ → List Pair → Prop
  | _, [] => True
  | prev, p :: ps => p.Valid prev ∧ ValidRuns (p.base prev) ps

/-- The runs that are listed: at most `guard`, and up to the run on disk with which there are
`left`. -/
def listed : (guard left : ℕ) → List Run → List Run
  | 0, _, _ => []
  | _, _, [] => []
  | guard + 1, left, r :: rs =>
    if r.sparse = false ∧ left ≤ 1 then [r] else r :: listed guard (left - 1) rs

/-! ## Decoding -/

variable {b : Bytes} {guard pos left k w : ℕ} {prev : ℤ} {p : Pair} {ps : List Pair}

/-- A field is read up to eight bytes of it. -/
lemma readLeUnsigned_eq : readLeUnsigned b pos w = leValue ((slice b pos w).take (min w 8)) := by
  rw [take_slice _ _ (min_le_left ..)]
  rfl

lemma readLeUnsigned_leBytes {n : ℕ} (hn : n < 256 ^ min w 8) (h : slice b pos w = leBytes w n) :
    readLeUnsigned b pos w = n := by
  have hwide : 256 ^ min w 8 ≤ 256 ^ w := Nat.pow_le_pow_right (by omega) (min_le_left ..)
  rw [readLeUnsigned_eq, h, leValue_take_leBytes (hn.trans_le hwide), Nat.mod_eq_of_lt hn]

lemma readLeSigned_leSignedBytes {d : ℤ} (hlow : -(256 ^ min w 8 : ℕ) ≤ 2 * d)
    (hhigh : 2 * d < (256 ^ min w 8 : ℕ)) (h : slice b pos w = leSignedBytes w d) :
    readLeSigned b pos w = d := by
  have hbits : 2 ^ (8 * min w 8) = 256 ^ min w 8 := Nat.pow_mul 2 8 (min w 8)
  rw [readLeSigned, readLeUnsigned_eq, h, hbits, bmod_leSignedBytes (min_le_left ..) hlow hhigh]

/-- The header of a pair holds its widths. -/
lemma header_eq {c : ℕ} (hw : w < 16) (hc : c < 16) :
    (UInt8.ofNat (w + 16 * c)).toNat = w + 16 * c :=
  UInt8.toNat_ofNat_of_lt (by change w + 16 * c < 256; omega)

/-- A hole goes on with the next pair. -/
lemma decodeRunsFrom_sparse {n : ℕ} (hw : 0 < w) (hw' : w < 16) (hn : n < 256 ^ min w 8)
    (hb : slice b pos (1 + w) = UInt8.ofNat w :: leBytes w n) (hlen : pos + (1 + w) ≤ b.length) :
    decodeRunsFrom b (guard + 1) pos prev left =
      ⟨0, n, true⟩ :: decodeRunsFrom b guard (pos + (1 + w)) prev (left - 1) := by
  have hsplit : (UInt8.ofNat w :: leBytes w n).length = 1 + w := by
    rw [List.length_cons, length_leBytes, Nat.add_comm]
  rw [← hsplit] at hb
  obtain ⟨hheader, hfield⟩ := slice_eq_cons_iff.1 hb
  rw [length_leBytes] at hfield
  have hnat : (byteAt b pos).toNat = w := by
    rw [hheader]
    exact UInt8.toNat_ofNat_of_lt (by change w < 256; omega)
  have hmod : w % 16 = w := Nat.mod_eq_of_lt hw'
  have hdiv : w / 16 = 0 := Nat.div_eq_of_lt hw'
  rw [decodeRunsFrom, if_pos (by omega)]
  dsimp only
  rw [hnat, hmod, hdiv, if_neg (by omega), if_pos rfl, readLeUnsigned_leBytes hn hfield,
    Nat.add_zero, Nat.add_assoc]

/-- A run on disk goes on with the next pair, unless it is the last one. -/
lemma decodeRunsFrom_run {n c lcn : ℕ} (hw : 0 < w) (hw' : w < 16) (hc : 0 < c) (hc' : c < 16)
    (hn : n < 256 ^ min w 8) (hlcn : lcn < 2 ^ 63)
    (hlow : -(256 ^ min c 8 : ℕ) ≤ 2 * (lcn - prev))
    (hhigh : 2 * (lcn - prev) < (256 ^ min c 8 : ℕ))
    (hb : slice b pos (1 + w + c) =
      UInt8.ofNat (w + 16 * c) :: (leBytes w n ++ leSignedBytes c (lcn - prev)))
    (hlen : pos + (1 + w + c) ≤ b.length) :
    decodeRunsFrom b (guard + 1) pos prev left =
      if left ≤ 1 then [⟨lcn, n, false⟩]
      else ⟨lcn, n, false⟩ :: decodeRunsFrom b guard (pos + (1 + w + c)) lcn (left - 1) := by
  have hsplit : (UInt8.ofNat (w + 16 * c) ::
      (leBytes w n ++ leSignedBytes c (lcn - prev))).length = 1 + w + c := by
    rw [List.length_cons, List.length_append, length_leBytes, length_leSignedBytes]
    omega
  rw [← hsplit] at hb
  obtain ⟨hheader, hfields⟩ := slice_eq_cons_iff.1 hb
  obtain ⟨hfield, hoffset⟩ := slice_eq_append_iff.1 hfields
  rw [length_leBytes] at hfield hoffset
  rw [length_leSignedBytes] at hoffset
  have hnat : (byteAt b pos).toNat = w + 16 * c := by rw [hheader, header_eq hw' hc']
  have hmod : (w + 16 * c) % 16 = w := by omega
  have hdiv : (w + 16 * c) / 16 = c := by omega
  have hsum : (prev + (lcn - prev)).bmod (2 ^ 64) = (lcn : ℤ) := by
    rw [add_sub_cancel]
    exact Int.bmod_eq_of_le_mul_two (by omega) (by omega)
  rw [decodeRunsFrom, if_pos (by omega)]
  dsimp only
  rw [hnat, hmod, hdiv, if_neg (by omega), if_neg (by omega), readLeUnsigned_leBytes hn hfield,
    readLeSigned_leSignedBytes hlow hhigh hoffset, hsum, if_neg (by omega), Int.toNat_natCast,
    Nat.add_assoc pos, Nat.add_assoc pos]

/-- **A pair is read back**, and the next one is behind it. -/
lemma decodeRunsFrom_pair (hp : p.Valid prev)
    (hb : slice b pos (p.bytes prev).length = p.bytes prev)
    (hlen : pos + (p.bytes prev).length ≤ b.length) :
    decodeRunsFrom b (guard + 1) pos prev left =
      if p.run.sparse = false ∧ left ≤ 1 then [p.run]
      else p.run :: decodeRunsFrom b guard (pos + (p.bytes prev).length) (p.base prev)
        (left - 1) := by
  have hoffset := hp.offset
  cases hsparse : p.run.sparse with
  | true =>
    rw [hsparse, if_pos rfl] at hoffset
    have hrun : p.run = ⟨0, p.run.length, true⟩ := by rw [← hoffset, ← hsparse]
    have hbytes : p.bytes prev = UInt8.ofNat p.lengthWidth :: leBytes p.lengthWidth p.run.length :=
      if_pos hsparse
    have hbase : p.base prev = prev := if_pos hsparse
    have hsize : (p.bytes prev).length = 1 + p.lengthWidth := by
      rw [hbytes, List.length_cons, length_leBytes, Nat.add_comm]
    rw [hsize] at hb hlen ⊢
    rw [decodeRunsFrom_sparse hp.lengthWidth_pos hp.lengthWidth_lt hp.length_lt
      (hb.trans hbytes) hlen,
      ← hrun, hbase, if_neg]
    exact fun h => absurd h.1 (by decide)
  | false =>
    rw [hsparse, if_neg Bool.false_ne_true] at hoffset
    obtain ⟨hc, hc', hlcn, hlow, hhigh⟩ := hoffset
    have hrun : p.run = ⟨p.run.lcn, p.run.length, false⟩ := by rw [← hsparse]
    have hbytes : p.bytes prev = UInt8.ofNat (p.lengthWidth + 16 * p.offsetWidth) ::
        (leBytes p.lengthWidth p.run.length ++ leSignedBytes p.offsetWidth (p.run.lcn - prev)) := by
      rw [Pair.bytes, hsparse, if_neg Bool.false_ne_true]
    have hbase : p.base prev = p.run.lcn := by rw [Pair.base, hsparse, if_neg Bool.false_ne_true]
    have hsize : (p.bytes prev).length = 1 + p.lengthWidth + p.offsetWidth := by
      rw [hbytes, List.length_cons, List.length_append, length_leBytes, length_leSignedBytes]
      omega
    rw [hsize] at hb hlen ⊢
    rw [decodeRunsFrom_run hp.lengthWidth_pos hp.lengthWidth_lt hc hc' hp.length_lt hlcn hlow hhigh
      (hb.trans hbytes) hlen, ← hrun, hbase]
    exact if_congr (and_iff_right rfl).symm rfl rfl

/-- **What is encoded is decoded**, up to the guards. -/
lemma decodeRunsFrom_encodeRuns (hvalid : ValidRuns prev ps)
    (hb : slice b pos (encodeRuns prev ps).length = encodeRuns prev ps)
    (hlen : pos + (encodeRuns prev ps).length ≤ b.length)
    (hend : byteAt b (pos + (encodeRuns prev ps).length) = 0) :
    decodeRunsFrom b guard pos prev left = listed guard left (ps.map (·.run)) := by
  induction ps generalizing guard pos prev left with
  | nil =>
    cases guard with
    | zero => rfl
    | succ guard =>
      have hzero : (byteAt b pos).toNat = 0 := congrArg UInt8.toNat hend
      rw [decodeRunsFrom]
      split
      · dsimp only
        rw [hzero, if_pos (.inl rfl)]
        rfl
      · rfl
  | cons p ps ih =>
    cases guard with
    | zero => rfl
    | succ guard =>
      obtain ⟨hp, hps⟩ := hvalid
      rw [encodeRuns, List.length_append, ← Nat.add_assoc] at hlen hend
      obtain ⟨hfirst, hrest⟩ := slice_eq_append_iff.1 hb
      rw [decodeRunsFrom_pair hp hfirst (by omega), ih hps hrest hlen hend]
      rfl

/-! ## The guards -/

variable {rs : List Run} {r : Run} {n : ℕ}

/-- A list that is not too long is listed as a whole. -/
lemma listed_eq (hguard : rs.length ≤ guard) (hleft : rs.length ≤ left) :
    listed guard left rs = rs := by
  induction rs generalizing guard left with
  | nil =>
    cases guard with
    | zero => rfl
    | succ guard => rfl
  | cons r rs ih =>
    rw [List.length_cons] at hguard hleft
    obtain ⟨guard, rfl⟩ := Nat.exists_eq_add_of_le' (Nat.le_of_add_left_le hguard)
    rw [listed]
    split
    · rename_i hlast
      have hnil : rs = [] := List.eq_nil_of_length_eq_zero (by omega)
      rw [hnil]
    · rw [ih (by omega) (by omega)]

/-- Of a list of runs on disk no more are listed than are left. -/
lemma length_listed_replicate (hr : r.sparse = false) (hleft : 0 < left) (hn : left ≤ n)
    (hguard : left ≤ guard) : (listed guard left (List.replicate n r)).length = left := by
  induction left, hleft using Nat.le_induction generalizing n guard with
  | base =>
    obtain ⟨n, rfl⟩ := Nat.exists_eq_add_of_le' hn
    obtain ⟨guard, rfl⟩ := Nat.exists_eq_add_of_le' hguard
    rw [List.replicate_succ, listed, if_pos ⟨hr, le_rfl⟩]
    rfl
  | succ left hpos ih =>
    obtain ⟨n, rfl⟩ := Nat.exists_eq_add_of_le' (Nat.le_of_add_left_le hn)
    obtain ⟨guard, rfl⟩ := Nat.exists_eq_add_of_le' (Nat.le_of_add_left_le hguard)
    rw [List.replicate_succ, listed, if_neg (by omega), List.length_cons, Nat.add_sub_cancel,
      ih (by omega) (by omega)]

/-- A pair takes two bytes or more. -/
lemma two_mul_length_le (h : ValidRuns prev ps) : 2 * ps.length ≤ (encodeRuns prev ps).length := by
  induction ps generalizing prev with
  | nil => exact Nat.zero_le _
  | cons p ps ih =>
    obtain ⟨hp, hps⟩ := h
    have hpos := hp.lengthWidth_pos
    have hpair : 1 + p.lengthWidth ≤ (p.bytes prev).length := by
      unfold Pair.bytes
      split
      · rw [List.length_cons, length_leBytes]
        omega
      · rw [List.length_cons, List.length_append, length_leBytes]
        omega
    have := ih hps
    rw [encodeRuns, List.length_append, List.length_cons]
    omega

/-- A run that 64 bits hold. -/
def Fits64 (r : Run) : Prop :=
  r.length < 2 ^ 64 ∧ if r.sparse then r.lcn = 0 else r.lcn < 2 ^ 63

/-- Fields of eight bytes hold any run, and the cluster that is counted from stays in range. -/
lemma valid_wide (hr : Fits64 r) (h0 : 0 ≤ prev) (h63 : prev < 2 ^ 63) :
    Pair.Valid prev ⟨r, 8, 8⟩ ∧ 0 ≤ Pair.base prev ⟨r, 8, 8⟩ ∧
      Pair.base prev ⟨r, 8, 8⟩ < 2 ^ 63 := by
  obtain ⟨hlength, hlcn⟩ := hr
  obtain ⟨lcn, length, sparse⟩ := r
  cases sparse with
  | true => exact ⟨⟨Nat.succ_pos 7, by norm_num, hlength, hlcn⟩, h0, h63⟩
  | false =>
    have hlcn' : lcn < 2 ^ 63 := hlcn
    have hbase : Pair.base prev ⟨⟨lcn, length, false⟩, 8, 8⟩ = lcn := rfl
    have hlow : -(256 ^ 8 : ℕ) ≤ 2 * ((lcn : ℤ) - prev) := by omega
    have hhigh : 2 * ((lcn : ℤ) - prev) < (256 ^ 8 : ℕ) := by omega
    refine ⟨⟨Nat.succ_pos 7, by norm_num, hlength, ?_⟩, by omega, by omega⟩
    exact ⟨Nat.succ_pos 7, by norm_num, hlcn', hlow, hhigh⟩

/-- **Every list of runs has an encoding**, in fields of eight bytes. -/
lemma validRuns_wide (hrs : ∀ r ∈ rs, Fits64 r) (h0 : 0 ≤ prev) (h63 : prev < 2 ^ 63) :
    ValidRuns prev (rs.map fun r => ⟨r, 8, 8⟩) := by
  induction rs generalizing prev with
  | nil => trivial
  | cons r rs ih =>
    obtain ⟨hr, h0, h63⟩ := valid_wide (hrs r List.mem_cons_self) h0 h63
    exact ⟨hr, ih (fun r' hr' => hrs r' (List.mem_cons_of_mem r hr')) h0 h63⟩

/-! ## Any bytes -/

/-- `read_le_unsigned`, of an input that is asked for its bytes. -/
def readField (byte : ℕ → UInt8) (off size : ℕ) : ℕ :=
  leValue ((List.range (min size 8)).map fun i => byte (off + i))

/-- `decode_runs` of an input of `len` bytes that is asked for each that is read. -/
def decodeReading (byte : ℕ → UInt8) (len : ℕ) :
    (guard pos : ℕ) → (lcn : ℤ) → (left : ℕ) → List Run
  | 0, _, _, _ => []
  | guard + 1, pos, lcn, left =>
    if pos < len then
      let header := (byte pos).toNat
      let lenSize := header % 16
      let offSize := header / 16
      if header = 0 ∨ lenSize = 0 ∨ len < pos + 1 + lenSize + offSize then []
      else
        let length := readField byte (pos + 1) lenSize
        let next := pos + 1 + lenSize + offSize
        if offSize = 0 then ⟨0, length, true⟩ :: decodeReading byte len guard next lcn (left - 1)
        else
          let delta :=
            (readField byte (pos + 1 + lenSize) offSize : ℤ).bmod (2 ^ (8 * min offSize 8))
          let lcn := (lcn + delta).bmod (2 ^ 64)
          if lcn < 0 then []
          else if left ≤ 1 then [⟨lcn.toNat, length, false⟩]
          else ⟨lcn.toNat, length, false⟩ :: decodeReading byte len guard next lcn (left - 1)
    else []

lemma readField_eq {byte : ℕ → UInt8} (hbyte : ∀ x < b.length, byte x = byteAt b x) {off size : ℕ}
    (h : off + size ≤ b.length) : readField byte off size = readLeUnsigned b off size := by
  refine congrArg leValue (List.map_congr_left fun i hi => hbyte _ ?_)
  have := List.mem_range.1 hi
  omega

/-- **Nothing behind the end is read**: it does not matter what the input says of it. -/
lemma decodeReading_eq {byte : ℕ → UInt8} (hbyte : ∀ x < b.length, byte x = byteAt b x) :
    ∀ guard pos lcn left,
      decodeReading byte b.length guard pos lcn left = decodeRunsFrom b guard pos lcn left := by
  intro guard
  induction guard with
  | zero => exact fun _ _ _ => rfl
  | succ guard ih =>
    intro pos lcn left
    rw [decodeReading, decodeRunsFrom]
    split
    · rename_i hpos
      dsimp only
      rw [hbyte pos hpos]
      split
      · rfl
      · rename_i hfields
        rw [readField_eq hbyte (by omega), readField_eq hbyte (by omega), ih, ih]
        rfl
    · rfl

/-- A run takes two bytes or more. -/
lemma two_mul_length_decodeRunsFrom :
    ∀ guard pos lcn left, 2 * (decodeRunsFrom b guard pos lcn left).length ≤ b.length - pos := by
  intro guard
  induction guard with
  | zero => exact fun _ _ _ => Nat.zero_le _
  | succ guard ih =>
    intro pos lcn left
    rw [decodeRunsFrom]
    split
    swap
    · exact Nat.zero_le _
    dsimp only
    split
    · exact Nat.zero_le _
    rename_i hfields
    -- what is left for the runs behind this one
    have hnext : ∀ lcn, 2 * (decodeRunsFrom b guard (pos + 1 + (byteAt b pos).toNat % 16 +
        (byteAt b pos).toNat / 16) lcn (left - 1)).length + 2 ≤ b.length - pos := fun lcn => by
      have := ih (pos + 1 + (byteAt b pos).toNat % 16 + (byteAt b pos).toNat / 16) lcn (left - 1)
      omega
    split
    · exact hnext lcn
    split
    · exact Nat.zero_le _
    split
    · rw [List.length_singleton]
      omega
    · exact hnext _

/-- An encoding that an end mark or the end of the input follows. -/
lemma decodeRuns_encodeRuns {tail : Bytes} (hvalid : ValidRuns 0 ps) (htail : byteAt tail 0 = 0) :
    decodeRuns (encodeRuns 0 ps ++ tail) = listed 100000 65537 (ps.map (·.run)) := by
  have hfirst : slice (encodeRuns 0 ps ++ tail) 0 (encodeRuns 0 ps).length = encodeRuns 0 ps :=
    slice_append_length _ _
  have hend : byteAt (encodeRuns 0 ps ++ tail) (0 + (encodeRuns 0 ps).length) = 0 := by
    rw [Nat.zero_add, byteAt_append, if_neg (Nat.lt_irrefl _), Nat.sub_self, htail]
  refine decodeRunsFrom_encodeRuns hvalid hfirst ?_ hend
  rw [List.length_append]
  omega

/-- **Mapping pairs.**  Of an encoding, with fields as wide as they fit in or wider, exactly the
list is decoded, up to the guards, which no list of up to 65537 runs and no input of up to 64 KiB
reaches; every list of runs has an encoding; and of any bytes the decoder lists as many runs as they
have room for, and what it is told of positions behind the end does not matter. -/
theorem decodeRuns_exact :
    (∀ ps tail, ValidRuns 0 ps → byteAt tail 0 = 0 →
      decodeRuns (encodeRuns 0 ps ++ tail) = listed 100000 65537 (ps.map (·.run)) ∧
        (ps.length ≤ 65537 ∨ (encodeRuns 0 ps).length ≤ 64 * 1024 →
          decodeRuns (encodeRuns 0 ps ++ tail) = ps.map (·.run))) ∧
    (∀ rs : List Run, (∀ r ∈ rs, Fits64 r) → ValidRuns 0 (rs.map fun r => ⟨r, 8, 8⟩)) ∧
    ∀ b : Bytes, 2 * (decodeRuns b).length ≤ b.length ∧
      ∀ byte : ℕ → UInt8, (∀ x < b.length, byte x = byteAt b x) →
        decodeReading byte b.length 100000 0 0 65537 = decodeRuns b := by
  refine ⟨fun ps tail hvalid htail => ?_, fun rs hrs => ?_, fun b => ⟨?_, fun byte hbyte => ?_⟩⟩
  · have hdecode := decodeRuns_encodeRuns hvalid htail
    refine ⟨hdecode, fun hshort => hdecode.trans (listed_eq ?_ ?_)⟩
    all_goals
      have hpairs := two_mul_length_le hvalid
      rw [List.length_map]
      omega
  · exact validRuns_wide hrs le_rfl (by norm_num)
  · exact two_mul_length_decodeRunsFrom 100000 0 0 65537
  · exact decodeReading_eq hbyte 100000 0 0 65537

/-- A run, a hole and a run before the first one, in narrow and in wide fields. -/
def threePairs : List Pair :=
  [⟨⟨1024, 24, false⟩, 1, 2⟩, ⟨⟨0, 8, true⟩, 1, 0⟩, ⟨⟨1000, 300, false⟩, 3, 9⟩]

theorem decodeRuns_exact_threePairs :
    decodeRuns (encodeRuns 0 threePairs ++ [0, 0xFF]) =
        [⟨1024, 24, false⟩, ⟨0, 8, true⟩, ⟨1000, 300, false⟩] ∧
      decodeRuns (encodeRuns 0 ([⟨2 ^ 62, 1, false⟩, ⟨0, 2 ^ 63, true⟩].map fun r => ⟨r, 8, 8⟩)) =
        [⟨2 ^ 62, 1, false⟩, ⟨0, 2 ^ 63, true⟩] ∧
      decodeReading (fun x => if x < 2 then 0x11 else 0xFF) 2 100000 0 0 65537 =
        decodeRuns [0x11, 0x11] := by
  obtain ⟨hdecode, hwide, hany⟩ := decodeRuns_exact
  refine ⟨?_, ?_, ?_⟩
  · have hvalid : ValidRuns 0 threePairs := by
      refine ⟨⟨?_, ?_, ?_, ?_⟩, ⟨?_, ?_, ?_, ?_⟩, ⟨?_, ?_, ?_, ?_⟩, trivial⟩
      all_goals decide
    exact (hdecode threePairs [0, 0xFF] hvalid rfl).2 (.inl (by decide))
  · have hfits : ∀ r ∈ [(⟨2 ^ 62, 1, false⟩ : Run), ⟨0, 2 ^ 63, true⟩], Fits64 r := by
      intro r hr
      simp only [List.mem_cons, List.not_mem_nil, or_false] at hr
      rcases hr with rfl | rfl
      · exact ⟨by norm_num, by norm_num⟩
      · exact ⟨by norm_num, by norm_num⟩
    have h := (hdecode _ [] (hwide _ hfits) rfl).2 (.inl (by decide))
    rwa [List.append_nil] at h
  · exact (hany [0x11, 0x11]).2 _ fun x hx => by
      have hx' : x < 2 := hx
      interval_cases x <;> rfl

/-- Of 65538 runs the last one is not listed. -/
theorem manyRuns_counterexample :
    ∃ rs : List Run, rs.length = 65538 ∧ ValidRuns 0 (rs.map fun r => ⟨r, 8, 8⟩) ∧
      (decodeRuns (encodeRuns 0 (rs.map fun r => ⟨r, 8, 8⟩))).length = 65537 := by
  have hvalid : ValidRuns 0
    ((List.replicate 65538 (⟨0, 1, false⟩ : Run)).map fun r => ⟨r, 8, 8⟩) := by
    refine validRuns_wide (fun r hr => ?_) le_rfl (by norm_num)
    rw [List.eq_of_mem_replicate hr]
    exact ⟨by norm_num, by norm_num⟩
  refine ⟨_, List.length_replicate, hvalid, ?_⟩
  have hdecode := decodeRuns_encodeRuns hvalid (rfl : byteAt [] 0 = 0)
  rw [List.append_nil, List.map_map] at hdecode
  rw [hdecode]
  exact (congrArg (fun rs => (listed 100000 65537 rs).length) (List.map_id _)).trans
    (length_listed_replicate rfl (by norm_num) (by norm_num) (by norm_num))

end Ntfs
end Reclaim
