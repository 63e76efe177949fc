import Reclaim.Carve.FileView
import Reclaim.Carve.Text

/-!
# How much of a file is text

A text is a list of characters: ASCII text bytes, and the UTF-8 of characters that are neither ASCII
nor control characters.  `measure` finds the longest text that the bytes begin with, wherever the
windows cut a character.
-/

namespace Reclaim

open FileBytes

namespace PlainText

/-! ## Characters -/

/-- A control character, of ASCII or behind it. -/
def IsControl (c : Char) : Prop :=
  c.val.toNat < 0x20 ∨ (0x7F ≤ c.val.toNat ∧ c.val.toNat ≤ 0x9F)

/-- The bytes of a character that a text may have. -/
def IsChar (u : Bytes) : Prop :=
  (∃ b, isAsciiText b = true ∧ u = [b]) ∨
    ∃ c : Char, 0x80 ≤ c.val.toNat ∧ ¬ IsControl c ∧ u = String.utf8EncodeChar c

/-- Text: characters, one after the other. -/
inductive IsText : Bytes → Prop
  | nil : IsText []
  | cons {u rest : Bytes} : IsChar u → IsText rest → IsText (u ++ rest)

section Characters

variable {b lead : UInt8} {u rest t x : Bytes} {n m : ℕ}

lemma isAsciiText_lt (h : isAsciiText b = true) : b < 0x80 := by
  simp only [isAsciiText, Bool.or_eq_true, beq_iff_eq, decide_eq_true_eq, Bool.and_eq_true,
    UInt8.le_iff_toNat_le] at h
  rw [UInt8.lt_iff_toNat_lt]
  rcases h with ((rfl | rfl) | rfl) | ⟨-, h⟩
  · decide
  · decide
  · decide
  · exact lt_of_le_of_lt h (by decide)

/-- `utf8_len`, by the numbers. -/
lemma utf8Len_eq_some_iff : utf8Len lead = some n ↔
    n = 2 ∧ 0xC2 ≤ lead.toNat ∧ lead.toNat ≤ 0xDF ∨ n = 3 ∧ 0xE0 ≤ lead.toNat ∧ lead.toNat ≤ 0xEF ∨
      n = 4 ∧ 0xF0 ≤ lead.toNat ∧ lead.toNat ≤ 0xF4 := by
  simp only [utf8Len, UInt8.le_iff_toNat_le, UInt8.reduceToNat]
  split_ifs with h2 h3 h4
  · rw [Option.some.injEq]
    omega
  · rw [Option.some.injEq]
    omega
  · rw [Option.some.injEq]
    omega
  · exact iff_of_false (by simp) (by omega)

/-- `valid_utf8_seq` takes a sequence apart: the second byte has bounds of its own. -/
lemma validUtf8Seq_iff {next : UInt8} :
    validUtf8Seq (lead :: next :: rest) = true ↔
      (∃ owed low high, Text.utf8Lead lead.toNat = some (owed, low, high) ∧ low ≤ next.toNat ∧
        next.toNat ≤ high) ∧ (∀ b ∈ rest, 0x80 ≤ b.toNat ∧ b.toNat ≤ 0xBF) ∧
      ¬ (lead.toNat = 0xC2 ∧ next.toNat ≤ 0x9F) := by
  rw [validUtf8Seq]
  cases hlead : Text.utf8Lead lead.toNat with
  | none => simp
  | some r =>
    obtain ⟨owed, low, high⟩ := r
    have hc2 : lead = 0xC2 ↔ lead.toNat = 0xC2 :=
      ⟨fun h => congrArg UInt8.toNat h, fun h => UInt8.toNat.inj h⟩
    simp only [Bool.and_eq_true, decide_eq_true_eq, List.all_eq_true, Bool.not_eq_true',
      Bool.and_eq_false_iff, beq_eq_false_iff_ne, decide_eq_false_iff_not, UInt8.le_iff_toNat_le,
      UInt8.reduceToNat, ne_eq, hc2, Option.some.injEq, Prod.mk.injEq]
    constructor
    · rintro ⟨⟨hnext, hrest⟩, hctl⟩
      refine ⟨⟨owed, low, high, ⟨rfl, rfl, rfl⟩, hnext⟩, hrest, ?_⟩
      tauto
    · rintro ⟨⟨_, _, _, ⟨rfl, rfl, rfl⟩, hnext⟩, hrest, hctl⟩
      refine ⟨⟨hnext, hrest⟩, ?_⟩
      tauto

lemma ofNat_eq_of_toNat (h : b.toNat = n) : UInt8.ofNat n = b := by
  rw [← h, UInt8.ofNat_toNat]

/-- What the byte behind a first one may be. -/
lemma exists_utf8Lead_iff {x y : ℕ} (hlow : 0xC2 ≤ x) (hhigh : x ≤ 0xF4) :
    (∃ owed low high, Text.utf8Lead x = some (owed, low, high) ∧ low ≤ y ∧ y ≤ high) ↔
      (0x80 ≤ y ∧ y ≤ 0xBF) ∧ (x = 0xE0 → 0xA0 ≤ y) ∧ (x = 0xED → y ≤ 0x9F) ∧
        (x = 0xF0 → 0x90 ≤ y) ∧ (x = 0xF4 → y ≤ 0x8F) := by
  have hsome : ∀ o l h : ℕ, (∃ owed low high, some (o, l, h) = some (owed, low, high) ∧ low ≤ y ∧
      y ≤ high) ↔ l ≤ y ∧ y ≤ h := by
    intro o l h
    constructor
    · rintro ⟨_, _, _, heq, hle⟩
      cases heq
      exact hle
    · exact fun hle => ⟨o, l, h, rfl, hle⟩
  rw [Text.utf8Lead, if_neg (by omega), if_neg (by omega)]
  -- a first byte below 0xE0, 0xE0, 0xED, another one below 0xF0, 0xF0, one below 0xF4, and 0xF4
  iterate 7
    split
    · rw [hsome]
      omega
  omega

/-- A sequence that the validator takes is a character. -/
lemma exists_char (hlen : utf8Len lead = some (lead :: rest).length)
    (hvalid : validUtf8Seq (lead :: rest) = true) :
    ∃ c : Char, 0x80 ≤ c.val.toNat ∧ ¬ IsControl c ∧
      lead :: rest = String.utf8EncodeChar c := by
  have hlead := utf8Len_eq_some_iff.1 hlen
  cases rest with
  | nil => cases hvalid
  | cons next rest =>
    obtain ⟨hnext, hrest, hctl⟩ := validUtf8Seq_iff.1 hvalid
    rw [exists_utf8Lead_iff (by omega) (by omega)] at hnext
    -- it is the character of its code point
    have hchar : ∀ (u : Bytes) (n : ℕ), 0xA0 ≤ n → (hv : n.isValidChar) →
        u = String.utf8EncodeChar (Char.ofNatAux n hv) →
        ∃ c : Char, 0x80 ≤ c.val.toNat ∧ ¬ IsControl c ∧ u = String.utf8EncodeChar c := by
      intro u n hn hv henc
      have hval : (Char.ofNatAux n hv).val.toNat = n := rfl
      refine ⟨_, by omega, ?_, henc⟩
      unfold IsControl
      omega
    have hbyte : ∀ {b : UInt8} {n : ℕ}, b.toNat = n → b = UInt8.ofNat n :=
      fun h => (ofNat_eq_of_toNat h).symm
    -- the bits of each byte that belong to the code point
    obtain ⟨y, hy⟩ := Nat.exists_eq_add_of_le hnext.1.1
    match rest, hlead with
    | [], hlead =>
      have hlead : 0xC2 ≤ lead.toNat ∧ lead.toNat ≤ 0xDF := by simpa using hlead
      obtain ⟨x, hx⟩ := Nat.exists_eq_add_of_le (show 0xC0 ≤ lead.toNat by omega)
      set n := x * 64 + y with hn
      have hv : n.isValidChar := .inl (by omega)
      apply hchar _ n (by omega) hv
      have hval : (Char.ofNatAux n hv).val.toNat = n := rfl
      unfold String.utf8EncodeChar
      dsimp only
      rw [hval, if_neg (by omega), if_pos (by omega)]
      simp only [List.cons.injEq, and_true]
      exact ⟨hbyte (by omega), hbyte (by omega)⟩
    | [third], hlead =>
      have hlead : 0xE0 ≤ lead.toNat ∧ lead.toNat ≤ 0xEF := by simpa using hlead
      have hthird := hrest third (List.mem_singleton_self third)
      obtain ⟨x, hx⟩ := Nat.exists_eq_add_of_le hlead.1
      obtain ⟨z, hz⟩ := Nat.exists_eq_add_of_le hthird.1
      set n := x * 4096 + y * 64 + z with hn
      have hv : n.isValidChar := by
        unfold Nat.isValidChar
        omega
      apply hchar _ n (by omega) hv
      have hval : (Char.ofNatAux n hv).val.toNat = n := rfl
      unfold String.utf8EncodeChar
      dsimp only
      rw [hval, if_neg (by omega), if_neg (by omega), if_pos (by omega)]
      simp only [List.cons.injEq, and_true]
      exact ⟨hbyte (by omega), hbyte (by omega), hbyte (by omega)⟩
    | [third, fourth], hlead =>
      have hlead : 0xF0 ≤ lead.toNat ∧ lead.toNat ≤ 0xF4 := by simpa using hlead
      have hthird := hrest third (List.mem_cons_self ..)
      have hfourth := hrest fourth (List.mem_cons_of_mem _ (List.mem_singleton_self fourth))
      obtain ⟨x, hx⟩ := Nat.exists_eq_add_of_le hlead.1
      obtain ⟨z, hz⟩ := Nat.exists_eq_add_of_le hthird.1
      obtain ⟨w, hw⟩ := Nat.exists_eq_add_of_le hfourth.1
      set n := x * 262144 + y * 4096 + z * 64 + w with hn
      have hv : n.isValidChar := by
        unfold Nat.isValidChar
        omega
      apply hchar _ n (by omega) hv
      have hval : (Char.ofNatAux n hv).val.toNat = n := rfl
      unfold String.utf8EncodeChar
      dsimp only
      rw [hval, if_neg (by omega), if_neg (by omega), if_neg (by omega)]
      simp only [List.cons.injEq, and_true]
      exact ⟨hbyte (by omega), hbyte (by omega), hbyte (by omega), hbyte (by omega)⟩
    | _ :: _ :: _ :: _, hlead =>
      simp only [List.length_cons] at hlead
      omega

/-- A character that is no control character is a sequence that the validator takes. -/
lemma encodeChar_valid {c : Char} (h : 0x80 ≤ c.val.toNat) (hctl : ¬ IsControl c) :
    ∃ lead rest, String.utf8EncodeChar c = lead :: rest ∧ 0x80 ≤ lead ∧
      utf8Len lead = some (lead :: rest).length ∧ validUtf8Seq (lead :: rest) = true := by
  have hrange : c.val.toNat < 0xD800 ∨ (0xDFFF < c.val.toNat ∧ c.val.toNat < 0x110000) := c.valid
  have hctl : ¬ (0x7F ≤ c.val.toNat ∧ c.val.toNat ≤ 0x9F) := fun hc => hctl (.inr hc)
  unfold String.utf8EncodeChar
  dsimp only
  generalize c.val.toNat = n at h hctl hrange
  have hbyte : ∀ m < 256, (UInt8.ofNat m).toNat = m := fun m hm => UInt8.toNat_ofNat_of_lt hm
  -- a sequence by its numbers
  have hseq : ∀ (x y : ℕ) (rest : Bytes), y < 256 →
      (rest.length = 0 ∧ 0xC2 ≤ x ∧ x ≤ 0xDF ∨ rest.length = 1 ∧ 0xE0 ≤ x ∧ x ≤ 0xEF ∨
        rest.length = 2 ∧ 0xF0 ≤ x ∧ x ≤ 0xF4) →
      ((0x80 ≤ y ∧ y ≤ 0xBF) ∧ (x = 0xE0 → 0xA0 ≤ y) ∧ (x = 0xED → y ≤ 0x9F) ∧
        (x = 0xF0 → 0x90 ≤ y) ∧ (x = 0xF4 → y ≤ 0x8F)) → ¬ (x = 0xC2 ∧ y ≤ 0x9F) →
      (∀ b ∈ rest, 0x80 ≤ b.toNat ∧ b.toNat ≤ 0xBF) →
      ∃ lead tail, UInt8.ofNat x :: UInt8.ofNat y :: rest = lead :: tail ∧ 0x80 ≤ lead ∧
        utf8Len lead = some (lead :: tail).length ∧ validUtf8Seq (lead :: tail) = true := by
    intro x y rest hy hx hnext hc2 hrest
    have hx' := hbyte x (by omega)
    refine ⟨_, _, rfl, ?_, utf8Len_eq_some_iff.2 ?_, validUtf8Seq_iff.2 ⟨?_, hrest, ?_⟩⟩
    · rw [UInt8.le_iff_toNat_le, hx']
      show 0x80 ≤ x
      omega
    · rw [hx', List.length_cons, List.length_cons]
      omega
    · rw [hx', hbyte y hy, exists_utf8Lead_iff (by omega) (by omega)]
      exact hnext
    · rwa [hx', hbyte y hy]
  rw [if_neg (by omega)]
  split
  · exact hseq _ _ [] (by omega) (by simp; omega) (by omega) (by omega) (by simp)
  split
  · apply hseq _ _ [_] (by omega) (by simp; omega) (by omega) (by omega)
    intro b hb
    rw [List.mem_singleton.1 hb, hbyte _ (by omega)]
    omega
  · apply hseq _ _ [_, _] (by omega) (by simp; omega) (by omega) (by omega)
    intro b hb
    rcases List.mem_cons.1 hb with rfl | hb
    · rw [hbyte _ (by omega)]
      omega
    · rw [List.mem_singleton.1 hb, hbyte _ (by omega)]
      omega

/-- **The characters, as the validator takes them.** -/
lemma isChar_iff : IsChar u ↔ (∃ b, isAsciiText b = true ∧ u = [b]) ∨
    ∃ lead rest, u = lead :: rest ∧ 0x80 ≤ lead ∧ utf8Len lead = some u.length ∧
      validUtf8Seq u = true := by
  refine or_congr Iff.rfl ⟨?_, ?_⟩
  · rintro ⟨c, hc, hctl, rfl⟩
    obtain ⟨lead, rest, henc, hlead, hlen, hvalid⟩ := encodeChar_valid hc hctl
    rw [henc]
    exact ⟨lead, rest, rfl, hlead, hlen, hvalid⟩
  · rintro ⟨lead, rest, rfl, -, hlen, hvalid⟩
    exact exists_char hlen hvalid

lemma IsChar.ne_nil (h : IsChar u) : u ≠ [] := by
  rcases isChar_iff.1 h with ⟨b, -, rfl⟩ | ⟨lead, rest, rfl, -⟩
  · exact List.cons_ne_nil _ _
  · exact List.cons_ne_nil _ _

/-- No character is the beginning of another. -/
lemma IsChar.eq_of_prefix (hu : IsChar u) (ht : IsChar t) (h : u ++ rest = t ++ x) : u = t := by
  refine (List.append_inj h ?_).1
  rcases isChar_iff.1 hu with ⟨b, hb, rfl⟩ | ⟨lead, tail, rfl, hlead, hlen, -⟩
  · rcases isChar_iff.1 ht with ⟨d, -, rfl⟩ | ⟨lead, tail, rfl, hlead, -⟩
    · rfl
    · obtain rfl := (List.cons.inj h).1
      exact absurd (isAsciiText_lt hb) (UInt8.not_lt.2 hlead)
  · rcases isChar_iff.1 ht with ⟨d, hd, rfl⟩ | ⟨first, more, rfl, -, hlen', -⟩
    · obtain rfl := (List.cons.inj h).1
      exact absurd (isAsciiText_lt hd) (UInt8.not_lt.2 hlead)
    · obtain rfl := (List.cons.inj h).1
      exact Option.some.inj (hlen.symm.trans hlen')

lemma IsText.append (h : IsText t) (hx : IsText x) : IsText (t ++ x) := by
  induction h with
  | nil => exact hx
  | cons hu _ ih =>
    rw [List.append_assoc]
    exact .cons hu ih

/-- What comes behind a text in a text is one. -/
lemma IsText.of_append (h : IsText t) (hx : IsText (t ++ x)) : IsText x := by
  induction h with
  | nil => exact hx
  | @cons u rest hu _ ih =>
    apply ih
    rw [List.append_assoc] at hx
    generalize hw : u ++ (rest ++ x) = w at hx
    cases hx with
    | nil => exact absurd (List.append_eq_nil_iff.1 hw).1 hu.ne_nil
    | cons hv hmore =>
      obtain rfl := hu.eq_of_prefix hv hw
      rwa [List.append_cancel_left hw]

/-- A text that is not empty begins with a character. -/
lemma IsText.exists_char (h : IsText t) (hne : t ≠ []) : ∃ u, IsChar u ∧ u <+: t := by
  cases h with
  | nil => exact absurd rfl hne
  | cons hu _ => exact ⟨_, hu, List.prefix_append _ _⟩

end Characters
/-! ## A window -/

/-- What is behind the end of a walk through a window, `rest` being the bytes of the window from
there on. -/
def StopsAt (rest : Bytes) : WindowEnd → Prop
  | .whole => rest = []
  | .binary => rest ≠ [] ∧ ∀ x u, IsChar u → ¬ u <+: rest ++ x
  | .straddles => rest ≠ [] ∧ rest.length < 4 ∧
      ∀ x u, IsChar u → u <+: rest ++ x → rest.length < u.length

section Window

variable {buf rest u x : Bytes} {b : UInt8} {skip i printable n : ℕ}

lemma walkWindow_skip (h : skip ≤ buf.length) :
    walkWindow buf skip i printable = walkWindow (buf.drop skip) 0 (i + skip) printable := by
  induction buf generalizing skip i with
  | nil =>
    obtain rfl := Nat.le_zero.1 h
    rfl
  | cons b rest ih =>
    cases skip with
    | zero => rfl
    | succ skip =>
      rw [walkWindow, ih (Nat.le_of_succ_le_succ h), List.drop_succ_cons, Nat.add_assoc,
        Nat.add_comm 1 skip]

/-- A character that begins with a byte of ASCII is that byte. -/
lemma IsChar.ascii (h : IsChar u) (hpre : u <+: b :: rest) (hb : b < 0x80) :
    isAsciiText b = true := by
  obtain ⟨more, hmore⟩ := hpre
  rcases isChar_iff.1 h with ⟨d, hd, rfl⟩ | ⟨lead, tail, rfl, hlead, -⟩
  · obtain rfl := (List.cons.inj hmore).1
    exact hd
  · obtain rfl := (List.cons.inj hmore).1
    exact absurd hb (UInt8.not_lt.2 hlead)

/-- A character that begins with any other byte is a sequence of the length that the byte says. -/
lemma IsChar.sequence (h : IsChar u) (hpre : u <+: b :: rest) (hb : ¬ b < 0x80) :
    utf8Len b = some u.length ∧ validUtf8Seq u = true := by
  obtain ⟨more, hmore⟩ := hpre
  rcases isChar_iff.1 h with ⟨d, hd, rfl⟩ | ⟨lead, tail, rfl, -, hlen, hvalid⟩
  · obtain rfl := (List.cons.inj hmore).1
    exact absurd (isAsciiText_lt hd) hb
  · obtain rfl := (List.cons.inj hmore).1
    exact ⟨hlen, hvalid⟩

/-- **A walk through a window** goes through characters, and stops where none is whole. -/
lemma walkWindow_stops (buf : Bytes) (i printable : ℕ) :
    ∃ k ≤ buf.length, (walkWindow buf 0 i printable).1 = i + k ∧ IsText (buf.take k) ∧
      StopsAt (buf.drop k) (walkWindow buf 0 i printable).2.2 := by
  induction hlen : buf.length using Nat.strong_induction_on generalizing buf i printable with
  | _ len ih =>
    cases buf with
    | nil => exact ⟨0, Nat.zero_le _, rfl, .nil, rfl⟩
    | cons b rest =>
      rw [List.length_cons] at hlen
      -- a character is passed, and the walk goes on behind it
      have hnext : ∀ m, 0 < m → m ≤ rest.length + 1 → IsChar ((b :: rest).take m) →
          ∃ k ≤ len, (walkWindow rest (m - 1) (i + 1) (printable + 1)).1 = i + k ∧
            IsText ((b :: rest).take k) ∧ StopsAt ((b :: rest).drop k)
              (walkWindow rest (m - 1) (i + 1) (printable + 1)).2.2 := by
        intro m hm hle hchar
        obtain ⟨m, rfl⟩ := Nat.exists_eq_succ_of_ne_zero hm.ne'
        rw [Nat.succ_sub_one, walkWindow_skip (by omega)]
        obtain ⟨k, hk, hend, htext, hstop⟩ := ih (rest.drop m).length
          (by rw [List.length_drop]; omega) (rest.drop m) (i + 1 + m) (printable + 1) rfl
        rw [List.length_drop] at hk
        refine ⟨m + 1 + k, by omega, by rw [hend]; omega, ?_, ?_⟩
        · rw [List.take_add, List.drop_succ_cons]
          exact .cons hchar htext
        · rwa [← List.drop_drop, List.drop_succ_cons]
      -- or the walk stops before it
      have hbinary : (∀ x u, IsChar u → ¬ u <+: b :: (rest ++ x)) →
          ∃ k ≤ len, i = i + k ∧ IsText ((b :: rest).take k) ∧
            StopsAt ((b :: rest).drop k) .binary :=
        fun h => ⟨0, Nat.zero_le _, rfl, .nil, List.cons_ne_nil _ _, h⟩
      rw [walkWindow]
      by_cases hb : b < 0x80
      · rw [if_pos hb]
        by_cases hascii : isAsciiText b = true
        · rw [if_pos hascii]
          exact hnext 1 Nat.one_pos (by omega) (.inl ⟨b, hascii, rfl⟩)
        · rw [if_neg hascii]
          exact hbinary fun x u hu hpre => hascii (hu.ascii hpre hb)
      · rw [if_neg hb]
        cases hn : utf8Len b with
        | none =>
          apply hbinary
          intro x u hu hpre
          rw [(hu.sequence hpre hb).1] at hn
          cases hn
        | some n =>
          have hfour : 2 ≤ n ∧ n ≤ 4 := by
            have := utf8Len_eq_some_iff.1 hn
            omega
          dsimp only
          by_cases hfit : n ≤ rest.length + 1
          · have htake : (b :: rest).take n = b :: rest.take (n - 1) := by
              rw [← Nat.sub_add_cancel (show 1 ≤ n by omega), List.take_succ_cons,
                Nat.add_sub_cancel]
            rw [if_pos hfit]
            by_cases hvalid : validUtf8Seq (b :: rest.take (n - 1)) = true
            · rw [if_pos hvalid]
              refine hnext n (by omega) hfit (isChar_iff.2 (.inr ⟨b, _, htake, ?_, ?_, ?_⟩))
              · exact UInt8.not_lt.1 hb
              · rw [hn, List.length_take, List.length_cons, min_eq_left hfit]
              · rwa [htake]
            · rw [if_neg hvalid]
              refine hbinary fun x u hu hpre => hvalid ?_
              obtain ⟨hlen', hu'⟩ := hu.sequence hpre hb
              obtain rfl := Option.some.inj (hn.symm.trans hlen')
              have htext : (b :: rest ++ x).take u.length = (b :: rest).take u.length :=
                List.take_append_of_le_length (by rwa [List.length_cons])
              rw [← htake, ← htext, List.cons_append, ← List.prefix_iff_eq_take.1 hpre]
              exact hu'
          · rw [if_neg hfit]
            refine ⟨0, Nat.zero_le _, rfl, .nil, List.cons_ne_nil _ _, ?_, fun x u hu hpre => ?_⟩
            · rw [List.drop_zero, List.length_cons]
              omega
            · have hlen' := (hu.sequence hpre hb).1
              rw [hn, Option.some.injEq] at hlen'
              rw [List.drop_zero, List.length_cons]
              omega

end Window

/-! ## The run -/

/-- How long a text the bytes begin with, looking at `cap` of them. -/
def IsTextLength (g : Bytes) (cap n : ℕ) : Prop := IsGreatest {n | n ≤ cap ∧ IsText (g.take n)} n

/-- The run goes to `pos`: all of it is text, and behind it no character ends before `cap`. -/
structure RunsTo (g : Bytes) (cap pos : ℕ) : Prop where
  le : pos ≤ cap
  text : IsText (g.take pos)
  stop : ∀ u, IsChar u → u <+: g.drop pos → cap < pos + u.length

section Run

variable {R : Reader} {ctx : Ctx} {g : Bytes} {cap pos fuel printable : ℕ}

lemma RunsTo.isTextLength (h : RunsTo g cap pos) (hcap : cap ≤ g.length) :
    IsTextLength g cap pos := by
  refine ⟨⟨h.le, h.text⟩, fun n hn => ?_⟩
  obtain ⟨hle, hn⟩ := hn
  by_contra hlt
  rw [← Nat.add_sub_cancel' (le_of_not_ge hlt), List.take_add] at hn
  have hmore := h.text.of_append hn
  have hlen : ((g.drop pos).take (n - pos)).length = n - pos := by
    rw [List.length_take, List.length_drop]
    omega
  obtain ⟨u, hu, hpre⟩ := hmore.exists_char (List.ne_nil_of_length_pos (by omega))
  have hstop := h.stop u hu (hpre.trans (List.take_prefix _ _))
  have hfit := hpre.length_le
  omega

/-- A range of the file that is not behind its end. -/
lemma slice_eq_take_drop {n : ℕ} (h : pos + n ≤ g.length) :
    slice g pos n = (g.drop pos).take n := by
  rw [← take_drop_padded, List.length_take, List.length_drop, min_eq_left (by omega), Nat.sub_self,
    List.replicate_zero, List.append_nil]

lemma RunsTo.of_text (h : IsText (g.take cap)) : RunsTo g cap cap where
  le := le_rfl
  text := h
  stop _ hu _ := Nat.lt_add_of_pos_right (List.length_pos_of_ne_nil hu.ne_nil)

/-- What `measure` returns is right: where the run ends, and whether that is before the cap. -/
def IsRun (g : Bytes) (cap : ℕ) (r : ℕ × ℕ × Bool) : Prop :=
  RunsTo g cap r.1 ∧ (r.2.2 = true ↔ r.1 < cap)

lemma IsRun.of_text (h : IsText (g.take cap)) : IsRun g cap (cap, printable, false) :=
  ⟨.of_text h, iff_of_false Bool.false_ne_true (lt_irrefl cap)⟩

/-- **The run**: it ends where the text does, and says so unless that is the cap. -/
lemma measure_isRun (printable : ℕ) (h : ctx.Sees R g) (hcap : cap ≤ g.length)
    (hfuel : cap ≤ pos + fuel)
    (hpos : pos ≤ cap) (htext : IsText (g.take pos)) :
    IsRun g cap ((measure ctx cap fuel pos printable).run R) := by
  have hwin : win = 65536 := rfl
  induction fuel generalizing pos printable with
  | zero =>
    obtain rfl : pos = cap := by omega
    exact .of_text htext
  | succ fuel ih =>
    rw [measure, ReadProg.run_ite]
    split
    · obtain rfl : pos = cap := by omega
      exact .of_text htext
    · rename_i hlt
      set want := min (cap - pos) win with hwant
      have hbuf : slice g pos want = (g.drop pos).take want := slice_eq_take_drop (by omega)
      have hlen : (slice g pos want).length = want := length_slice ..
      have hne : slice g pos want ≠ [] := List.ne_nil_of_length_pos (by omega)
      obtain ⟨k, hk, hend, hk', hstop⟩ := walkWindow_stops (slice g pos want) 0 printable
      simp only [ReadProg.run_bind, h.read, ReadProg.run_ite]
      rw [if_neg hne]
      -- the text goes on to the end of the walk, and what the window has left begins there
      have hgoes : IsText (g.take (pos + k)) := by
        rw [List.take_add]
        apply htext.append
        rwa [hbuf, List.take_take, min_eq_left (by omega)] at hk'
      have hrest : g.drop (pos + k) = (slice g pos want).drop k ++ g.drop (pos + want) := by
        rw [← List.drop_drop, ← List.take_append_drop want (g.drop pos), ← hbuf,
          List.drop_append_of_le_length hk, List.drop_drop]
      have hleft : ((slice g pos want).drop k).length = want - k := by rw [List.length_drop, hlen]
      generalize walkWindow (slice g pos want) 0 0 printable = r at hend hstop ⊢
      obtain ⟨i, characters, how⟩ := r
      obtain rfl : k = i := (hend.trans (Nat.zero_add k)).symm
      cases how with
      | whole =>
        have hall : k = want := by
          have hnil := List.length_eq_zero_iff.2 (show (slice g pos want).drop k = [] from hstop)
          omega
        rw [hall] at hgoes
        dsimp only
        rw [ReadProg.run_ite]
        split
        · have hcap' : pos + want = cap := by omega
          rw [hcap'] at hgoes
          exact .of_text hgoes
        · rw [hlen]
          exact ih _ (by omega) (by omega) hgoes
      | binary =>
        obtain ⟨hnil, hstop⟩ := hstop
        have hin : 0 < ((slice g pos want).drop k).length := List.length_pos_of_ne_nil hnil
        have hbefore : pos + k < cap := by omega
        refine ⟨⟨hbefore.le, hgoes, fun u hu hpre => ?_⟩, iff_of_true rfl hbefore⟩
        change u <+: g.drop (pos + k) at hpre
        rw [hrest] at hpre
        exact absurd hpre (hstop _ u hu)
      | straddles =>
        obtain ⟨hnil, hfour, hstop⟩ := hstop
        have hin : 0 < ((slice g pos want).drop k).length := List.length_pos_of_ne_nil hnil
        dsimp only
        rw [ReadProg.run_ite]
        split
        · exact ih _ (by omega) (by omega) hgoes
        · -- a window that is not full ends at the cap
          have hcap' : pos + want = cap := by omega
          have hbefore : pos + k < cap := by omega
          refine ⟨⟨hbefore.le, hgoes, fun u hu hpre => ?_⟩, iff_of_true rfl hbefore⟩
          change u <+: g.drop (pos + k) at hpre
          rw [hrest] at hpre
          have hcut := hstop _ u hu hpre
          change cap < pos + k + u.length
          omega

end Run

/-! ## The validator -/

section Validate

variable {R : Reader} {ctx : Ctx} {g : Bytes}

/-- A verdict that accepts is about the run. -/
lemma validate_accept (ha : ((validate ctx).run R).accept = true) :
    let cap := min ctx.available maxRun
    let r := (measure ctx cap cap 0 0).run R
    ((validate ctx).run R).len = r.1 ∧
    (((validate ctx).run R).validity = .full ↔ r.2.2 = true) := by
  intro cap r
  have hcap : min ctx.available maxRun = cap := rfl
  unfold validate at ha ⊢
  simp only [hcap, ReadProg.run_ite] at ha ⊢
  split at ha
  · cases ha
  · rename_i hlong
    simp only [ReadProg.run_bind, ReadProg.run_ite] at ha ⊢
    rw [if_neg hlong]
    split at ha
    · cases ha
    · rename_i hlook
      have hr : (measure ctx cap cap 0 0).run R = r := rfl
      rw [if_neg hlook, hr]
      rw [hr] at ha
      split at ha
      · cases ha
      · rename_i hshort
        rw [if_neg hshort]
        dsimp only [ReadProg.run_pure]
        cases hbinary : r.2.2 with
        | true => exact ⟨rfl, by simp [Verdict.accepted]⟩
        | false => exact ⟨rfl, by simp [Verdict.accepted]⟩

/-- **What the validator measures** is the longest text that the file begins with, up to the cap,
and whether it ends before the cap; the verdict has this length, and is full exactly then. -/
theorem measure_exact (h : ctx.Sees R g) :
    let cap := min ctx.available maxRun
    let r := (measure ctx cap cap 0 0).run R
    let v := (validate ctx).run R
    IsTextLength g cap r.1 ∧ (r.2.2 = true ↔ r.1 < cap) ∧
      (v.accept = true → v.len = r.1 ∧ (v.validity = .full ↔ r.2.2 = true)) := by
  intro cap r v
  have hcap : cap ≤ g.length := (min_le_left _ _).trans h.available_le
  obtain ⟨hrun, hbinary⟩ := measure_isRun 0 h hcap (Nat.le_add_left cap 0)
    (Nat.zero_le cap) IsText.nil
  exact ⟨hrun.isTextLength hcap, hbinary, validate_accept⟩

/-- A sequence that the end of the source cuts ends the text. -/
theorem measure_exact_cut :
    let g : Bytes := [0x61, 0xC3, 0xA9, 0xE2, 0x82]
    let ctx : Ctx := ⟨5, 0, 100, sig⟩
    (measure ctx 5 5 0 0).run (memReader g) = (3, 2, true) ∧ IsTextLength g 5 3 := by
  intro g ctx
  have hsees : ctx.Sees (memReader g) g := Ctx.sees (memReader_reads g) rfl (by decide)
  have hcap : min ctx.available maxRun = 5 := by decide
  have hrun : (measure ctx 5 5 0 0).run (memReader g) = (3, 2, true) := by decide
  have hexact := (measure_exact hsees).1
  rw [hcap, hrun] at hexact
  exact ⟨hrun, hexact⟩

end Validate

end PlainText
end Reclaim
