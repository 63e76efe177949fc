import Mathlib.Data.List.Defs
import Mathlib.Tactic
import Reclaim.Foundation.FileBytes

/-!
# Lossy decoding of names

Names on disk are UTF-8 or UTF-16 by convention only.  The parsers decode them with a replacement
character for what is not: one for each longest beginning of a sequence in UTF-8, one for each
surrogate without its other half in UTF-16.
-/

namespace Text

open FileBytes

/-- The character that stands for what could not be decoded. -/
def replacement : Char := Char.ofNat 0xFFFD

/-! ## UTF-8 -/

/-- The bytes owed after a first byte, and the least and the greatest that the next one may be; none
owed for a byte on its own, and `none` for a byte that begins nothing. -/
def utf8Lead (b : ℕ) : Option (ℕ × ℕ × ℕ) :=
  if b < 0x80 then some (0, 0x80, 0xBF)
  else if b < 0xC2 then none
  else if b < 0xE0 then some (1, 0x80, 0xBF)
  else if b = 0xE0 then some (2, 0xA0, 0xBF)
  else if b = 0xED then some (2, 0x80, 0x9F)
  else if b < 0xF0 then some (2, 0x80, 0xBF)
  else if b = 0xF0 then some (3, 0x90, 0xBF)
  else if b < 0xF4 then some (3, 0x80, 0xBF)
  else if b = 0xF4 then some (3, 0x80, 0x8F)
  else none

/-- The bits of a first byte that belong to the code point, when `owed` bytes follow. -/
def utf8Bits (b owed : ℕ) : ℕ :=
  if owed = 0 then b else if owed = 1 then b % 0x20 else if owed = 2 then b % 0x10 else b % 8

/-- `String::from_utf8_lossy`, inside a sequence: `owed` bytes are to come, the next of them between
`low` and `high`, and `acc` is the code point so far. -/
def utf8Decode : (owed low high acc : ℕ) → Bytes → List Char
  | owed, _, _, _, [] => if owed = 0 then [] else [replacement]
  | owed, low, high, acc, b :: bs =>
    if owed ≠ 0 ∧ low ≤ b.toNat ∧ b.toNat ≤ high then
      let acc := acc * 64 + b.toNat % 64
      if owed = 1 then Char.ofNat acc :: utf8Decode 0 0 0 0 bs
      else utf8Decode (owed - 1) 0x80 0xBF acc bs
    else
      (if owed = 0 then [] else [replacement]) ++
        match utf8Lead b.toNat with
        | none => replacement :: utf8Decode 0 0 0 0 bs
        | some (n, low, high) =>
          if n = 0 then Char.ofNat b.toNat :: utf8Decode 0 0 0 0 bs
          else utf8Decode n low high (utf8Bits b.toNat n) bs

/-- `String::from_utf8_lossy`. -/
def fromUtf8Lossy (b : Bytes) : String := String.ofList (utf8Decode 0 0 0 0 b)

/-- A byte in the middle of a sequence is taken if it is one that may come next. -/
lemma utf8Decode_owed {owed low high acc : ℕ} {b : UInt8} {n : ℕ} (bs : Bytes) (hb : b.toNat = n)
    (howed : owed ≠ 0) (hlow : low ≤ n) (hhigh : n ≤ high) :
    utf8Decode owed low high acc (b :: bs) =
      if owed = 1 then Char.ofNat (acc * 64 + n % 64) :: utf8Decode 0 0 0 0 bs
      else utf8Decode (owed - 1) 0x80 0xBF (acc * 64 + n % 64) bs := by
  rw [utf8Decode, if_pos ⟨howed, by omega, by omega⟩, hb]

/-- A first byte. -/
lemma utf8Decode_lead {b : UInt8} {n k low high : ℕ} (bs : Bytes) (hb : b.toNat = n)
    (hlead : utf8Lead n = some (k, low, high)) :
    utf8Decode 0 0 0 0 (b :: bs) =
      if k = 0 then Char.ofNat n :: utf8Decode 0 0 0 0 bs
      else utf8Decode k low high (utf8Bits n k) bs := by
  rw [utf8Decode, if_neg (by simp), hb, hlead]
  rfl

/-- A character is decoded from its own bytes, whatever comes behind them. -/
lemma utf8Decode_encodeChar (c : Char) (bs : Bytes) :
    utf8Decode 0 0 0 0 (String.utf8EncodeChar c ++ bs) = c :: utf8Decode 0 0 0 0 bs := by
  have hof : Char.ofNat c.val.toNat = c := Char.ofNat_toNat c
  have hrange : c.val.toNat < 0xD800 ∨ (0xDFFF < c.val.toNat ∧ c.val.toNat < 0x110000) := c.valid
  unfold String.utf8EncodeChar
  dsimp only
  generalize c.val.toNat = n at hof hrange
  have hbyte : ∀ m < 256, (UInt8.ofNat m).toNat = m := fun m hm => UInt8.toNat_ofNat_of_lt hm
  split
  · rename_i h1
    rw [List.singleton_append, utf8Decode_lead bs (hbyte n (by omega)) (k := 0) (if_pos (by omega)),
      if_pos rfl, hof]
  split
  · rename_i h1 h2
    have hlead : utf8Lead (n / 64 % 0x20 + 0xc0) = some (1, 0x80, 0xBF) := by
      rw [utf8Lead, if_neg (by omega), if_neg (by omega), if_pos (by omega)]
    rw [List.cons_append, List.singleton_append, utf8Decode_lead _ (hbyte _ (by omega)) hlead,
      if_neg one_ne_zero, utf8Decode_owed bs (hbyte _ (by omega)) one_ne_zero (by omega) (by omega),
      if_pos rfl]
    have hacc : utf8Bits (n / 64 % 0x20 + 0xc0) 1 * 64 + (n % 0x40 + 0x80) % 64 = n := by
      have : utf8Bits (n / 64 % 0x20 + 0xc0) 1 = (n / 64 % 0x20 + 0xc0) % 0x20 := rfl
      omega
    rw [hacc, hof]
  split
  · rename_i h1 h2 h3
    obtain ⟨low, high, hlead, hlow, hhigh⟩ : ∃ low high,
        utf8Lead (n / 4096 % 0x10 + 0xe0) = some (2, low, high) ∧
          low ≤ n / 64 % 0x40 + 0x80 ∧ n / 64 % 0x40 + 0x80 ≤ high := by
      unfold utf8Lead
      rw [if_neg (by omega), if_neg (by omega), if_neg (by omega)]
      split
      · exact ⟨_, _, rfl, by omega, by omega⟩
      split
      · exact ⟨_, _, rfl, by omega, by omega⟩
      · rw [if_pos (by omega)]
        exact ⟨_, _, rfl, by omega, by omega⟩
    have hacc : (utf8Bits (n / 4096 % 0x10 + 0xe0) 2 * 64 + (n / 64 % 0x40 + 0x80) % 64) * 64 +
        (n % 0x40 + 0x80) % 64 = n := by
      have : utf8Bits (n / 4096 % 0x10 + 0xe0) 2 = (n / 4096 % 0x10 + 0xe0) % 0x10 := rfl
      omega
    rw [List.cons_append, List.cons_append, List.singleton_append,
      utf8Decode_lead _ (hbyte _ (by omega)) hlead, if_neg (by omega),
      utf8Decode_owed _ (hbyte _ (by omega)) (by omega) hlow hhigh, if_neg (by omega),
      utf8Decode_owed bs (hbyte _ (by omega)) (by omega) (by omega) (by omega), if_pos rfl, hacc,
      hof]
  · rename_i h1 h2 h3
    obtain ⟨low, high, hlead, hlow, hhigh⟩ : ∃ low high,
        utf8Lead (n / 262144 % 8 + 0xf0) = some (3, low, high) ∧
          low ≤ n / 4096 % 0x40 + 0x80 ∧ n / 4096 % 0x40 + 0x80 ≤ high := by
      unfold utf8Lead
      rw [if_neg (by omega), if_neg (by omega), if_neg (by omega), if_neg (by omega),
        if_neg (by omega), if_neg (by omega)]
      split
      · exact ⟨_, _, rfl, by omega, by omega⟩
      split
      · exact ⟨_, _, rfl, by omega, by omega⟩
      · rw [if_pos (by omega)]
        exact ⟨_, _, rfl, by omega, by omega⟩
    have hacc : ((utf8Bits (n / 262144 % 8 + 0xf0) 3 * 64 + (n / 4096 % 0x40 + 0x80) % 64) * 64 +
        (n / 64 % 0x40 + 0x80) % 64) * 64 + (n % 0x40 + 0x80) % 64 = n := by
      have : utf8Bits (n / 262144 % 8 + 0xf0) 3 = (n / 262144 % 8 + 0xf0) % 8 := rfl
      omega
    rw [List.cons_append, List.cons_append, List.cons_append, List.singleton_append,
      utf8Decode_lead _ (hbyte _ (by omega)) hlead, if_neg (by omega),
      utf8Decode_owed _ (hbyte _ (by omega)) (by omega) hlow hhigh, if_neg (by omega),
      utf8Decode_owed _ (hbyte _ (by omega)) (by omega) (by omega) (by omega), if_neg (by omega),
      utf8Decode_owed bs (hbyte _ (by omega)) (by omega) (by omega) (by omega), if_pos rfl, hacc,
      hof]

/-- A character below 128 is one byte, and the bytes of another begin with one from 192 on and go on
with bytes between 128 and 191. -/
lemma utf8EncodeChar_eq (c : Char) :
    (∃ b : UInt8, String.utf8EncodeChar c = [b] ∧ b.toNat = c.toNat ∧ c.toNat < 128) ∨
      ∃ (b : UInt8) (t : Bytes), String.utf8EncodeChar c = b :: t ∧ 192 ≤ b.toNat ∧
        ∀ x ∈ t, 128 ≤ x.toNat ∧ x.toNat < 192 := by
  have hrange : c.val.toNat < 0x110000 := by
    have : c.val.toNat < 0xD800 ∨ (0xDFFF < c.val.toNat ∧ c.val.toNat < 0x110000) := c.valid
    omega
  have hval : c.toNat = c.val.toNat := rfl
  have hbyte : ∀ m < 256, (UInt8.ofNat m).toNat = m := fun m hm => UInt8.toNat_ofNat_of_lt hm
  unfold String.utf8EncodeChar
  dsimp only
  rw [hval]
  generalize c.val.toNat = n at hrange
  split
  · exact .inl ⟨_, rfl, hbyte n (by omega), by omega⟩
  split
  · refine .inr ⟨_, _, rfl, by rw [hbyte _ (by omega)]; omega, ?_⟩
    simp only [List.forall_mem_singleton, hbyte _ (by omega : n % 64 + 128 < 256)]
    omega
  split
  · refine .inr ⟨_, _, rfl, by rw [hbyte _ (by omega)]; omega, ?_⟩
    simp only [List.forall_mem_cons, List.not_mem_nil, false_implies, implies_true, and_true,
      hbyte _ (by omega : n % 64 + 128 < 256), hbyte _ (by omega : n / 64 % 64 + 128 < 256)]
    omega
  · refine .inr ⟨_, _, rfl, by rw [hbyte _ (by omega)]; omega, ?_⟩
    simp only [List.forall_mem_cons, List.not_mem_nil, false_implies, implies_true, and_true,
      hbyte _ (by omega : n % 64 + 128 < 256), hbyte _ (by omega : n / 64 % 64 + 128 < 256),
      hbyte _ (by omega : n / 4096 % 64 + 128 < 256)]
    omega

/-- No character's bytes begin with those of another. -/
lemma eq_of_utf8EncodeChar_isPrefix {a c : Char}
    (h : String.utf8EncodeChar a <+: String.utf8EncodeChar c) : a = c := by
  obtain ⟨t, ht⟩ := h
  have hdecode := utf8Decode_encodeChar c []
  rw [List.append_nil, ← ht, utf8Decode_encodeChar] at hdecode
  exact (List.cons.inj hdecode).1

/-- Text is decoded from its own bytes. -/
lemma utf8Decode_flatMap (cs : List Char) :
    utf8Decode 0 0 0 0 (cs.flatMap String.utf8EncodeChar) = cs := by
  induction cs with
  | nil => rfl
  | cons c cs ih => rw [List.flatMap_cons, utf8Decode_encodeChar, ih]

lemma toList_loop (b : ByteArray) (i : ℕ) (r : Bytes) :
    ByteArray.toList.loop b i r = r.reverse ++ b.data.toList.drop i := by
  induction h : b.size - i generalizing i r with
  | zero =>
    rw [ByteArray.toList.loop, if_neg (by omega), List.drop_of_length_le, List.append_nil]
    change b.size ≤ i
    omega
  | succ n ih =>
    have hi : i < b.data.toList.length := by
      change i < b.size
      omega
    rw [ByteArray.toList.loop, if_pos (by omega), ih (i + 1) _ (by omega),
      List.drop_eq_getElem_cons hi, List.reverse_cons, List.append_assoc]
    have hget : b.get! i = b.data.toList[i] := getElem!_pos b.data i hi
    rw [hget]
    rfl

/-- The bytes of a text. -/
lemma toList_toUTF8 (s : String) : s.toUTF8.toList = s.toList.flatMap String.utf8EncodeChar := by
  have h : s.toUTF8.toList = s.toUTF8.data.toList := toList_loop s.toUTF8 0 []
  rw [h, String.toUTF8_eq_toByteArray, ← String.utf8Encode_toList, List.utf8Encode,
    List.data_toByteArray]

/-- **What is written as UTF-8 is read back.** -/
lemma fromUtf8Lossy_toUTF8 (s : String) : fromUtf8Lossy s.toUTF8.toList = s := by
  rw [fromUtf8Lossy, toList_toUTF8, utf8Decode_flatMap, String.ofList_toList]

/-! ## UTF-16 -/

/-- `String::from_utf16_lossy`, as characters. -/
def utf16Decode : List ℕ → List Char
  | [] => []
  | u :: us =>
    if u < 0xD800 ∨ 0xE000 ≤ u then Char.ofNat u :: utf16Decode us
    else if 0xDC00 ≤ u then replacement :: utf16Decode us
    else
      match us with
      | [] => [replacement]
      | v :: vs =>
        if 0xDC00 ≤ v ∧ v < 0xE000 then
          Char.ofNat (0x10000 + (u - 0xD800) * 0x400 + (v - 0xDC00)) :: utf16Decode vs
        else replacement :: utf16Decode (v :: vs)

/-- `String::from_utf16_lossy`. -/
def fromUtf16Lossy (units : List ℕ) : String := String.ofList (utf16Decode units)

/-- `char::encode_utf16`. -/
def utf16EncodeChar (c : Char) : List ℕ :=
  if c.toNat < 0x10000 then [c.toNat]
  else [0xD800 + (c.toNat - 0x10000) / 0x400, 0xDC00 + (c.toNat - 0x10000) % 0x400]

/-- `str::encode_utf16`. -/
def utf16Encode (s : String) : List ℕ := s.toList.flatMap utf16EncodeChar

/-- A character is decoded from its own units, whatever comes behind them. -/
lemma utf16Decode_encodeChar (c : Char) (us : List ℕ) :
    utf16Decode (utf16EncodeChar c ++ us) = c :: utf16Decode us := by
  have hof : Char.ofNat c.toNat = c := Char.ofNat_toNat c
  have hrange : c.toNat < 0xD800 ∨ (0xDFFF < c.toNat ∧ c.toNat < 0x110000) := c.valid
  unfold utf16EncodeChar
  generalize c.toNat = n at hof hrange
  split
  · rw [List.singleton_append, utf16Decode.eq_def]
    dsimp only
    rw [if_pos (by omega), hof]
  · have hpair : 0x10000 + (0xD800 + (n - 0x10000) / 0x400 - 0xD800) * 0x400 +
        (0xDC00 + (n - 0x10000) % 0x400 - 0xDC00) = n := by omega
    rw [List.cons_append, List.singleton_append, utf16Decode, if_neg (by omega), if_neg (by omega),
      if_pos (by omega), hpair, hof]

/-- **What is written as UTF-16 is read back.** -/
lemma fromUtf16Lossy_encode (s : String) : fromUtf16Lossy (utf16Encode s) = s := by
  have hchars : ∀ cs : List Char, utf16Decode (cs.flatMap utf16EncodeChar) = cs := by
    intro cs
    induction cs with
    | nil => rfl
    | cons c cs ih => rw [List.flatMap_cons, utf16Decode_encodeChar, ih]
  rw [fromUtf16Lossy, utf16Encode, hchars, String.ofList_toList]

/-- A sequence that breaks off is one replacement, and what follows it is decoded. -/
example : utf8Decode 0 0 0 0 [0x61, 0xC3, 0xA9, 0xE2, 0x82, 0x62] =
    ['a', 'é', replacement, 'b'] := by decide

/-- Half of a pair is one replacement. -/
example : utf16Decode [0x61, 0xD83D, 0xDE00, 0xDC00] =
    ['a', Char.ofNat 0x1F600, replacement] := by decide

end Text
