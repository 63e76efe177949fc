import Reclaim.Block.MappedRight
import Reclaim.Foundation.LittleEndian
import Reclaim.Imaging.Leaf

/-!
# Images in files

The container openers map an image onto the file that it is in, all of whose bytes can be read.
What such a map gives for a position is then a matter of the file's bytes and of what its compressed
blocks decode to.

The decoders are those of other libraries.  What is asked of one is that its streams end by
themselves: it reads so much of what it is given, and the rest makes no difference.
-/

namespace Reclaim

open FileBytes

/-- An image file that is open, as a source. -/
def imageSource (id : String) (file : Bytes) (h : file.length ≤ u64Max) : BlockSource Unit where
  id := id
  len := file.length
  sectorSize := 512
  readAt _ off n :=
    let r := readFileAt file file.length 512 off n
    (⟨r.1, r.2⟩, ())
  vanished _ := false
  len_le := h
  sectorSize_le := sector512_le_u32Max
  filled _ off n := length_readFileAt file file.length 512 off n
  sectorCount_eq _ off n := by
    unfold readFileAt
    dsimp only
    split
    · rfl
    split
    · exact ReadResult.sectorCount_allBad _ _
    split
    · exact ReadResult.sectorCount_allBad _ _
    · exact ReadResult.sectorCount_markBadFromByte ..
  zeroFilled _ off n hin i hbad k hk := by
    subst hk
    by_cases hal : 512 ∣ off
    · by_cases hkn : k < n
      · refine absurd ?_ hbad
        have hst : (readFileAt file file.length 512 off n).2.status (k / 512) = _ :=
          status_readFileAt (Nat.succ_pos 511) hal hkn
        exact hst.trans (if_pos (by omega))
      · exact byteAt_of_length_le (by rw [length_readFileAt]; exact not_lt.1 hkn)
    · unfold readFileAt
      dsimp only
      by_cases hn : n = 0
      · rw [if_pos hn]
        exact byteAt_nil k
      · rw [if_neg hn, if_pos hal]
        exact byteAt_replicate_zero n k
  unaligned _ off n hal i hi := by
    unfold readFileAt
    have hal' : ¬512 ∣ off := hal
    dsimp only
    by_cases hn : n = 0
    · subst hn
      exact absurd hi (Nat.not_lt_zero i)
    · rw [if_neg hn, if_pos hal']
      exact ReadResult.status_allBad hi

/-- Every sector of an image file can be read. -/
def imageSectors (id : String) (file : Bytes) (h : file.length ≤ u64Max) :
    Sectorwise (imageSource id file h) where
  readable _ := true
  content := byteAt file
  status _ off n hal hin k hk := by
    refine iff_of_true ?_ rfl
    have hin' : off + n ≤ file.length := hin
    have hpos : 0 < 512 := by omega
    have hle : min ((k / 512 + 1) * 512) n ≤ n := min_le_right _ _
    exact (status_readFileAt hpos hal hk).trans (if_pos (by omega))
  bytes _ off n hal hin k hk _ := by
    have hin' : off + n ≤ file.length := hin
    exact (byteAt_readFileAt_eq hal hk).trans (if_pos (by omega))

/-- Read exactly `n` bytes, or nothing. -/
def readExact (file : Bytes) (off n : ℕ) : Option Bytes :=
  if n = 0 then some [] else getRange file off n

/-! ## Decoders -/

/-- A decoder of streams that end by themselves: what a stream decodes to, and how long it is. -/
structure StreamDecoder where
  read : Bytes → Option (Bytes × ℕ)
  length_le : ∀ src out n, read src = some (out, n) → n ≤ src.length
  ends : ∀ src src' out n, read src = some (out, n) → src.take n = src'.take n → n ≤ src'.length →
    read src' = some (out, n)

/-- `inflate`: the stream that a block begins with, unless more comes out than was asked for. -/
def StreamDecoder.inflate (dec : StreamDecoder) (src : Bytes) (hint : ℕ) : Option Bytes :=
  ((dec.read src).map (·.1)).filter fun out => decide (out.length ≤ min hint maxBlockOut + 1)

/-- No stream is the beginning of another. -/
lemma StreamDecoder.read_take_eq_none (dec : StreamDecoder) {src out : Bytes} {n m : ℕ}
    (h : dec.read src = some (out, n)) (hm : m < n) : dec.read (src.take m) = none := by
  cases hread : dec.read (src.take m) with
  | none => rfl
  | some r =>
    obtain ⟨out', n'⟩ := r
    have hle := dec.length_le _ _ _ hread
    rw [List.length_take] at hle
    have hall := dec.ends _ src _ _ hread (by rw [List.take_take, min_eq_left (by omega)])
      (by omega)
    rw [h] at hall
    have hn : n = n' := congrArg Prod.snd (Option.some.inj hall)
    omega

/-- A stream that is there as a whole is decoded, whatever follows it. -/
lemma StreamDecoder.read_of_take (dec : StreamDecoder) {src out : Bytes} {n m : ℕ}
    (h : dec.read src = some (out, n)) (hm : n ≤ m) : dec.read (src.take m) = some (out, n) := by
  have hle := dec.length_le _ _ _ h
  refine dec.ends _ _ _ _ h ?_ ?_
  · rw [List.take_take, min_eq_left hm]
  · rw [List.length_take]
    omega

/-- The streams of one stored block: its length and the complement of that, and the bytes. -/
def storedBlock : Bytes → Option (Bytes × ℕ)
  | 1 :: a :: b :: c :: d :: rest =>
    let len := leValue [a, b]
    if len + leValue [c, d] = 65535 ∧ len ≤ rest.length then some (rest.take len, 5 + len) else none
  | _ => none

lemma storedBlock_eq_some {src out : Bytes} {n : ℕ} (h : storedBlock src = some (out, n)) :
    ∃ a b c d rest, src = 1 :: a :: b :: c :: d :: rest ∧ n = 5 + leValue [a, b] ∧
      leValue [a, b] + leValue [c, d] = 65535 ∧ leValue [a, b] ≤ rest.length ∧
        out = rest.take (leValue [a, b]) := by
  unfold storedBlock at h
  split at h
  · rename_i a b c d rest
    dsimp only at h
    by_cases hok : leValue [a, b] + leValue [c, d] = 65535 ∧ leValue [a, b] ≤ rest.length
    · rw [if_pos hok] at h
      obtain ⟨rfl, rfl⟩ := Prod.mk.inj (Option.some.inj h)
      exact ⟨a, b, c, d, rest, rfl, rfl, hok.1, hok.2, rfl⟩
    · rw [if_neg hok] at h
      cases h
  · cases h

/-- A decoder of stored blocks. -/
def StreamDecoder.stored : StreamDecoder where
  read := storedBlock
  length_le src out n h := by
    obtain ⟨a, b, c, d, rest, rfl, rfl, -, hle, -⟩ := storedBlock_eq_some h
    rw [List.length_cons, List.length_cons, List.length_cons, List.length_cons, List.length_cons]
    omega
  ends src src' out n h htake hle := by
    obtain ⟨a, b, c, d, rest, rfl, rfl, hsum, hlen, rfl⟩ := storedBlock_eq_some h
    have hsplit : src' = src'.take (5 + leValue [a, b]) ++ src'.drop (5 + leValue [a, b]) :=
      (List.take_append_drop _ _).symm
    rw [← htake, Nat.add_comm 5] at hsplit
    rw [hsplit]
    have htaken : (rest.take (leValue [a, b])).length = leValue [a, b] :=
      List.length_take_of_le hlen
    simp only [List.take_succ_cons, List.cons_append, storedBlock]
    rw [if_pos ⟨hsum, by rw [List.length_append, htaken]; omega⟩, List.take_append_of_le_length
      htaken.ge, List.take_take, min_self, Nat.add_comm 5]

/-! ## Blocks of one size -/

/-- How much of `size` bytes is in block `i`. -/
def blockLen (size blockSize i : ℕ) : ℕ := min blockSize (size - i * blockSize)

/-- The pushes of one piece for each block. -/
def blockPieces (size blockSize : ℕ) (piece : ℕ → Piece) (i n : ℕ) : List (ℕ × Piece) :=
  (List.range' i n).map fun j => (blockLen size blockSize j, piece j)

/-- **Blocks of one size**, the last one cut: a position has its byte from its block. -/
lemma blockPieces_spec {B : ℕ → Option UInt8} {D : Codec → ℕ → ℕ → ℕ → Option Bytes}
    (size : ℕ) {blockSize : ℕ} (hpos : 0 < blockSize) (piece : ℕ → Piece) (n : ℕ) :
    ∀ i, totalOut (blockPieces size blockSize piece i n) =
        min (n * blockSize) (size - i * blockSize) ∧
      ∀ x < min (n * blockSize) (size - i * blockSize),
        pushed B D (blockPieces size blockSize piece i n) x =
          (piece (i + x / blockSize)).byte B D (blockLen size blockSize (i + x / blockSize))
            (x % blockSize) := by
  induction n with
  | zero =>
    intro i
    refine ⟨?_, fun x hx => by omega⟩
    change totalOut [] = _
    rw [totalOut_nil]
    omega
  | succ n ih =>
    intro i
    obtain ⟨htotal, hbyte⟩ := ih (i + 1)
    rw [Nat.succ_mul] at htotal hbyte
    have hcons : blockPieces size blockSize piece i (n + 1) =
        (blockLen size blockSize i, piece i) :: blockPieces size blockSize piece (i + 1) n := rfl
    have hlen : blockLen size blockSize i = min blockSize (size - i * blockSize) := rfl
    rw [hcons, totalOut_cons, htotal, Nat.succ_mul]
    refine ⟨by omega, fun x hx => ?_⟩
    rw [pushed]
    by_cases hin : x < blockLen size blockSize i
    · rw [if_pos hin, Nat.div_eq_of_lt (by omega), Nat.mod_eq_of_lt (by omega), Nat.add_zero]
    · obtain ⟨y, rfl⟩ := Nat.exists_eq_add_of_le (show blockSize ≤ x by omega)
      rw [if_neg hin, show blockSize + y - blockLen size blockSize i = y by omega,
        hbyte y (by omega), Nat.add_div_left _ hpos, Nat.add_mod_left,
        show i + 1 + y / blockSize = i + (y / blockSize + 1) by omega]

/-! ## Images mapped onto a file -/

/-- The most that is read of a compressed block. -/
def maxCompressed (outLen : ℕ) : ℕ := saturatingAdd (saturatingAdd outLen (outLen / 8)) (2 ^ 20)

/-- What a block of the file decodes to. -/
def fileBlock (inflate : Codec → Bytes → ℕ → Option Bytes) (file : Bytes) (codec : Codec)
    (pos clen outLen : ℕ) : Option Bytes :=
  decompress inflate codec ((file.drop pos).take (min clen (maxCompressed outLen))) outLen

/-- **A block that holds one stream** decodes to what is in the stream, if that is as long as it
should be and the stream is read to its end. -/
lemma fileBlock_stream {dec : StreamDecoder} {file out : Bytes} {codec : Codec} {pos n : ℕ}
    (hcodec : codec ≠ .raw ∧ codec ≠ .zero) (h : dec.read (file.drop pos) = some (out, n))
    (clen outLen : ℕ) :
    fileBlock (fun _ => dec.inflate) file codec pos clen outLen =
      if n ≤ min clen (maxCompressed outLen) ∧ out.length = outLen ∧
        outLen ≤ maxBlockOut then some out
      else none := by
  have hdecode : decompress (fun _ => dec.inflate) codec
      ((file.drop pos).take (min clen (maxCompressed outLen))) outLen =
      if maxBlockOut < outLen then none
      else (dec.inflate ((file.drop pos).take (min clen (maxCompressed outLen))) outLen).filter
        fun b => decide (b.length = outLen) := by
    cases codec with
    | raw => exact absurd rfl hcodec.1
    | zero => exact absurd rfl hcodec.2
    | _ => rfl
  unfold fileBlock
  rw [hdecode]
  by_cases hbig : maxBlockOut < outLen
  · rw [if_pos hbig, if_neg (fun h => absurd h.2.2 (by omega))]
  rw [if_neg hbig]
  unfold StreamDecoder.inflate
  by_cases hread : n ≤ min clen (maxCompressed outLen)
  · rw [dec.read_of_take h hread, Option.map_some]
    by_cases hlen : out.length = outLen
    · rw [if_pos ⟨hread, hlen, by omega⟩, Option.filter_some_pos (by simp; omega),
        Option.filter_some_pos (by simpa using hlen)]
    · rw [if_neg (fun h => hlen h.2.1)]
      apply Option.filter_eq_none_iff.2
      intro b hb
      obtain rfl : out = b := Option.some.inj (Option.eq_some_of_filter_eq_some hb)
      simpa using hlen
  · rw [dec.read_take_eq_none h (by omega), if_neg (fun h => hread h.1)]
    rfl

/-- An image that is mapped onto a file. -/
structure FileImage where
  file : Bytes
  inflate : Codec → Bytes → ℕ → Option Bytes
  pushes : List (ℕ × Piece)
  outLen : ℕ
  sectorSize : ℕ
  id : String
  file_le : file.length ≤ u64Max
  outLen_le : outLen ≤ u64Max

namespace FileImage

variable (im : FileImage)

/-- The image as it is put together. -/
def pushedImage : PushedImage Unit where
  backing := imageSource im.id im.file im.file_le
  sectors := imageSectors im.id im.file im.file_le
  inflate := im.inflate
  pushes := im.pushes
  outLen := im.outLen
  sectorSize := im.sectorSize
  id := im.id
  outLen_le := im.outLen_le

/-- The byte that the image has at a position. -/
def byte (x : ℕ) : Option UInt8 :=
  pushed (fun y => im.file[y]?) (fileBlock im.inflate im.file) im.pushes x

/-- A read of the image, after some others. -/
def readAt (history : List (ℕ × ℕ)) (off n : ℕ) : ReadOutcome :=
  (im.pushedImage.source.readAt im.inflate (im.pushedImage.after () history) off n).1

/-- The sector size that it is read with. -/
def sector : ℕ := im.pushedImage.source.sectorSize

/-- What can be had of some content is read, and the sectors of what cannot be had are bad. -/
structure Serves (content : ℕ → Option UInt8) : Prop where
  reads : ∀ history off n, im.sector ∣ off → off + n ≤ im.outLen →
    (∀ k < n, (content (off + k)).isSome = true) → (im.readAt history off n).buf.length = n ∧
      ∀ k < n, byteAt (im.readAt history off n).buf k = (content (off + k)).getD 0 ∧
        (im.readAt history off n).result.status (k / im.sector) = .good
  missing : ∀ history off n, im.sector ∣ off → off + n ≤ im.outLen → ∀ k < n,
    content (off + k) = none → byteAt (im.readAt history off n).buf k = 0 ∧
      (im.readAt history off n).result.status (k / im.sector) = .bad

/-- Every aligned read in the image has the bytes of some content, all good. -/
def ReadsAs (content : ℕ → UInt8) : Prop :=
  ∀ history off n, im.sector ∣ off → off + n ≤ im.outLen →
    (im.readAt history off n).buf.length = n ∧
      ∀ k < n, byteAt (im.readAt history off n).buf k = content (off + k) ∧
        (im.readAt history off n).result.status (k / im.sector) = .good

variable {im}

lemma sector_pos (im : FileImage) : 0 < im.sector := im.pushedImage.source.sectorSize_pos

lemma byte_sectors (im : FileImage) : im.pushedImage.sectors.byte = fun y => im.file[y]? := by
  funext y
  unfold Sectorwise.byte
  by_cases hy : y < im.file.length
  · rw [if_pos ⟨hy, rfl⟩, List.getElem?_eq_getElem hy]
    exact congrArg some (List.getD_eq_getElem _ _ hy)
  · rw [if_neg (fun h => hy h.1), List.getElem?_eq_none (not_lt.1 hy)]

/-- The bytes of a file in a range, as far as it goes. -/
lemma gather_getElem? (file : Bytes) {pos n : ℕ} (h : n ≤ file.length - pos) :
    gather (fun y => file[y]?) pos n = some ((file.drop pos).take n) := by
  symm
  refine eq_gather ?_ fun j hj => ?_
  · rw [List.length_take, List.length_drop]
    omega
  · have hin : pos + j < file.length := by omega
    rw [List.getElem?_eq_getElem hin, byteAt_take, if_pos hj, byteAt_drop]
    exact congrArg some (List.getD_eq_getElem _ _ hin).symm

lemma decoded_eq (im : FileImage) :
    im.pushedImage.source.decoded im.inflate im.pushedImage.sectors =
      fileBlock im.inflate im.file := by
  funext codec pos clen outLen
  change (gather im.pushedImage.sectors.byte pos (min (min clen (im.file.length - pos))
    (maxCompressed outLen))).bind (fun comp => decompress im.inflate codec comp outLen) = _
  rw [byte_sectors, gather_getElem? im.file (by omega), Option.bind_some, fileBlock]
  congr 1
  -- the file ends before what is not taken
  rw [List.take_eq_take_iff, List.length_drop]
  omega

lemma given_eq (im : FileImage) {off k : ℕ} (hal : im.sector ∣ off) (hin : off + k < im.outLen) :
    im.pushedImage.given off k = im.byte (off + k) := by
  refine (if_pos ⟨hal, hin⟩).trans ?_
  rw [byte_sectors]
  change pushed _ (im.pushedImage.source.decoded im.inflate im.pushedImage.sectors) _ _ = _
  rw [decoded_eq]
  rfl

/-- **What an image serves**, whatever was read before: what its pushes give. -/
lemma serves (im : FileImage) : im.Serves im.byte where
  reads history off n hal hin hall := by
    have hgiven : ∀ k < n, im.pushedImage.given off k = im.byte (off + k) := fun k hk =>
      im.given_eq hal (by omega)
    have hright := ((im.pushedImage.readsRight_iff () history off n).1).2
      (PushedImage.noneMixed_of_given fun k hk => by rw [hgiven k hk]; exact hall k hk)
    refine ⟨hright.filled, fun k hk => ⟨?_, ?_⟩⟩
    · have hbyte := hright.bytes k hk
      rw [hgiven k hk] at hbyte
      exact hbyte
    · have hj : k / im.sector < divCeil n im.sector := div_lt_divCeil im.sector_pos hk
      have hbad := hright.bad _ hj
      have hknown := hright.known _ hj
      change (im.readAt history off n).result.status (k / im.sector) ≠ .unread at hknown
      cases hst : (im.readAt history off n).result.status (k / im.sector) with
      | good => rfl
      | bad =>
        obtain ⟨k', hk', -, hnone⟩ := hbad.1 hst
        have hsome := hall k' hk'
        rw [← hgiven k' hk', hnone] at hsome
        exact absurd hsome (by simp)
      | unread => exact absurd hst hknown
  missing history off n hal hin k hk hnone := by
    obtain ⟨-, -, -, hlost, hstatus⟩ := readAt_spec im.pushedImage.denotes.tiles
      (im.pushedImage.fresh_after () history) off n
    have hnot : ¬ im.pushedImage.HadWith off n k := by
      rintro ⟨s, hs⟩
      have hsome := PushedImage.isSome_of_hadFrom hk hs
      rw [← PushedImage.given_of_hadFrom hs (show off + k < im.outLen by omega),
        im.given_eq hal (by omega), hnone] at hsome
      exact absurd hsome (by simp)
    refine ⟨hlost k hk hnot, ?_⟩
    exact (hstatus _ (div_lt_divCeil im.sector_pos hk)).1.2 ⟨k, hk, rfl, hnot⟩

lemma Serves.congr {content content' : ℕ → Option UInt8} (h : im.Serves content)
    (heq : ∀ x < im.outLen, content x = content' x) : im.Serves content' where
  reads history off n hal hin hall := by
    have hsame : ∀ k < n, content (off + k) = content' (off + k) := fun k hk => heq _ (by omega)
    obtain ⟨hlen, hread⟩ := h.reads history off n hal hin fun k hk => by
      rw [hsame k hk]
      exact hall k hk
    exact ⟨hlen, fun k hk => by rw [← hsame k hk]; exact hread k hk⟩
  missing history off n hal hin k hk hnone := by
    apply h.missing history off n hal hin k hk
    rw [heq _ (by omega)]
    exact hnone

/-- **An image reads as some content** exactly if its pushes give that, every byte of it. -/
theorem readsAs_iff (im : FileImage) (content : ℕ → UInt8) :
    im.ReadsAs content ↔ ∀ x < im.outLen, im.byte x = some (content x) := by
  have hss := im.sector_pos
  constructor
  · intro h x hx
    -- the sector of the position, as far as the image goes
    set off := x / im.sector * im.sector with hoff
    have hle : off ≤ x := Nat.div_mul_le_self _ _
    obtain ⟨-, hread⟩ := h [] off (x - off + 1) (Dvd.intro_left _ rfl) (by omega)
    have hall : ∀ k < x - off + 1, (im.byte (off + k)).isSome = true := by
      intro k hk
      by_contra hnone
      rw [Option.not_isSome_iff_eq_none] at hnone
      have hbad := (im.serves.missing [] off (x - off + 1) (Dvd.intro_left _ rfl) (by omega) k hk
        hnone).2
      rw [(hread k hk).2] at hbad
      exact absurd hbad (by decide)
    have hbyte := (hread (x - off) (by omega)).1
    have hserved := ((im.serves.reads [] off (x - off + 1) (Dvd.intro_left _ rfl) (by omega)
      hall).2 (x - off) (by omega)).1
    rw [hbyte] at hserved
    have hsome := hall (x - off) (by omega)
    rw [show off + (x - off) = x by omega] at hserved hsome
    obtain ⟨b, hb⟩ := Option.isSome_iff_exists.1 hsome
    rw [hb] at hserved ⊢
    exact congrArg some hserved.symm
  · intro h history off n hal hin
    have hbyte : ∀ k < n, im.byte (off + k) = some (content (off + k)) := fun k hk =>
      h _ (by omega)
    obtain ⟨hlen, hread⟩ := im.serves.reads history off n hal hin fun k hk => by
      rw [hbyte k hk]
      rfl
    refine ⟨hlen, fun k hk => ?_⟩
    have hk' := hread k hk
    rw [hbyte k hk] at hk'
    exact hk'

end FileImage

end Reclaim
