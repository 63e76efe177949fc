import Reclaim.Foundation.Glob
import Reclaim.Foundation.Unicode
import Reclaim.Session.Pages

/-!
# Globs on paths

`glob_match` matches the UTF-8 bytes of a pattern against those of a path.  A `?` is one character,
as the comment says, but takes one byte.  The bytes of a literal are those of its character, so the
matcher is that of the encoded glob: it decides what the pattern means for the paths of ASCII
characters, and for the patterns in which each run of wildcards has no `?`, or one beside a `*`.
-/

namespace Reclaim

open FileBytes Glob

/-- What a character of a pattern stands for. -/
def charToken (c : Char) : Token Char :=
  if c = '*' then .any else if c = '?' then .one else .lit c

/-- What a byte of a pattern stands for. -/
def byteToken (b : UInt8) : Token UInt8 :=
  if b = 0x2A then .any else if b = 0x3F then .one else .lit b

/-- The tokens of a pattern. -/
def globTokens (pat : String) : List (Token Char) := pat.toList.map charToken

/-- **What a pattern means**: `*` any characters, `?` one character, any other itself. -/
def GlobMeans (pat s : String) : Prop := Matches (globTokens pat) s.toList

/-! ## The matcher -/

section Matcher

variable {m : Bytes → Bool} {s : Bytes}

lemma anyRun_iff : anyRun m s = true ↔ ∃ r t, s = r ++ t ∧ m t = true := by
  induction s with
  | nil =>
    constructor
    · exact fun h => ⟨[], [], rfl, h⟩
    · rintro ⟨r, t, h, ht⟩
      obtain ⟨-, rfl⟩ := List.append_eq_nil_iff.1 h.symm
      exact ht
  | cons b s ih =>
    rw [anyRun, Bool.or_eq_true, ih]
    constructor
    · rintro (h | ⟨r, t, rfl, ht⟩)
      · exact ⟨[], _, rfl, h⟩
      · exact ⟨b :: r, t, rfl, ht⟩
    · rintro ⟨r, t, h, ht⟩
      cases r with
      | nil => exact .inl (h ▸ ht)
      | cons c r =>
        obtain ⟨-, rfl⟩ := List.cons.inj h
        exact .inr ⟨r, t, rfl, ht⟩

/-- The two calls for a `*`: behind it, or on it with one byte less. -/
lemma globBytes_star (pat s : Bytes) : globBytes (0x2A :: pat) s =
    (globBytes pat s || (!s.isEmpty && globBytes (0x2A :: pat) s.tail)) := by
  cases s with
  | nil => simp [globBytes, anyRun]
  | cons b s => simp [globBytes, anyRun]

/-- The matcher decides the meaning of the pattern's bytes. -/
lemma globBytes_iff (pat s : Bytes) : globBytes pat s = true ↔ Matches (pat.map byteToken) s := by
  induction pat generalizing s with
  | nil =>
    rw [globBytes, List.isEmpty_iff]
    constructor
    · rintro rfl
      exact .nil
    · rintro ⟨⟩
      rfl
  | cons p pat ih =>
    rw [List.map_cons]
    by_cases hany : p = 0x2A
    · unfold globBytes
      rw [if_pos hany, anyRun_iff, byteToken, if_pos hany]
      constructor
      · rintro ⟨r, t, rfl, ht⟩
        exact .any r ((ih t).1 ht)
      · rintro (_ | ⟨r, h⟩)
        exact ⟨r, _, rfl, (ih _).2 h⟩
    · unfold globBytes
      rw [if_neg hany, byteToken, if_neg hany]
      by_cases hone : p = 0x3F
      · rw [if_pos hone]
        cases s with
        | nil => exact iff_of_false Bool.false_ne_true nofun
        | cons b s =>
          simp only [hone, beq_self_eq_true, Bool.true_or, Bool.true_and, ih]
          constructor
          · exact .one b
          · rintro (_ | _ | ⟨_, h⟩)
            exact h
      · rw [if_neg hone]
        cases s with
        | nil => exact iff_of_false Bool.false_ne_true nofun
        | cons b s =>
          simp only [beq_eq_false_iff_ne.2 hone, Bool.false_or, Bool.and_eq_true, beq_iff_eq, ih]
          constructor
          · rintro ⟨rfl, h⟩
            exact .lit p h
          · rintro (_ | _ | _ | ⟨_, h⟩)
            exact ⟨rfl, h⟩

end Matcher

/-! ## Characters and bytes -/

/-- UTF-8: a character is led by its first byte. -/
def utf8Code : Code Char UInt8 where
  enc := String.utf8EncodeChar
  lead b := b.toNat < 128 ∨ 192 ≤ b.toNat
  enc_eq c := by
    rcases Text.utf8EncodeChar_eq c with ⟨b, h, hb, hc⟩ | ⟨b, t, h, hb, ht⟩
    · exact ⟨b, [], h, .inl (hb ▸ hc), fun x hx => absurd hx List.not_mem_nil⟩
    · refine ⟨b, t, h, .inr hb, fun x hx => ?_⟩
      have := ht x hx
      omega
  eq_of_isPrefix := Text.eq_of_utf8EncodeChar_isPrefix

lemma utf8_eq (s : String) : utf8 s = utf8Code.text s.toList := Text.toList_toUTF8 s

lemma size_utf8Code_eq_one_iff {c : Char} : utf8Code.size c = 1 ↔ c.toNat < 128 := by
  change (String.utf8EncodeChar c).length = 1 ↔ c.toNat < 128
  rw [String.length_utf8EncodeChar, Char.utf8Size_eq_one_iff, UInt32.le_iff_toNat_le]
  exact Nat.lt_succ_iff.symm

/-- The bytes of a character stand for what it stands for. -/
lemma map_byteToken (c : Char) :
    (String.utf8EncodeChar c).map byteToken = utf8Code.tokens (charToken c) := by
  by_cases hany : c = '*'
  · rw [hany]
    rfl
  by_cases hone : c = '?'
  · rw [hone]
    rfl
  -- no byte of another character is that of a wildcard
  have hlit : ∀ b ∈ String.utf8EncodeChar c, byteToken b = .lit b := by
    intro b hb
    have hne : b.toNat ≠ 0x2A ∧ b.toNat ≠ 0x3F := by
      rcases Text.utf8EncodeChar_eq c with ⟨x, h, hx, -⟩ | ⟨x, t, h, hx, ht⟩
      · rw [h] at hb
        obtain rfl := List.mem_singleton.1 hb
        rw [hx]
        exact ⟨fun h => hany (Char.toNat_inj.1 h), fun h => hone (Char.toNat_inj.1 h)⟩
      · rw [h] at hb
        rcases List.mem_cons.1 hb with rfl | hb
        · omega
        · have := ht b hb
          omega
    rw [byteToken, if_neg fun h => hne.1 (congrArg UInt8.toNat h),
      if_neg fun h => hne.2 (congrArg UInt8.toNat h)]
  rw [charToken, if_neg hany, if_neg hone, Code.tokens]
  exact List.map_congr_left hlit

lemma map_byteToken_utf8 (pat : String) :
    (utf8 pat).map byteToken = (globTokens pat).flatMap utf8Code.tokens := by
  rw [utf8_eq, Code.text, List.map_flatMap, globTokens, List.flatMap_map]
  exact congrArg (pat.toList.flatMap ·) (funext map_byteToken)

/-- **`glob_match`** counts the bytes for a run of wildcards. -/
lemma globMatch_iff (pat s : String) :
    globMatch pat s = true ↔ Glob.Fits utf8Code.size (pieces (globTokens pat)) s.toList := by
  rw [globMatch, globBytes_iff, map_byteToken_utf8, utf8_eq, Code.matches_iff]

lemma globMeans_iff (pat s : String) :
    GlobMeans pat s ↔ Glob.Fits single (pieces (globTokens pat)) s.toList := matches_iff_fits

/-- **`glob_match` decides what patterns mean**: every pattern on a path exactly if the path is
ASCII, and a pattern on every path exactly if each of its runs of wildcards has no `?`, or one
beside a `*`. -/
theorem glob_exact (pat s : String) :
    ((∀ pat, globMatch pat s = true ↔ GlobMeans pat s) ↔ ∀ c ∈ s.toList, c.toNat < 128) ∧
    ((∀ s, globMatch pat s = true ↔ GlobMeans pat s) ↔ Loose (pieces (globTokens pat))) := by
  simp only [globMatch_iff, globMeans_iff]
  constructor
  · have hones : ∀ n, List.replicate n .one ∈ Set.range globTokens := fun n =>
      ⟨String.ofList (List.replicate n '?'), by
        rw [globTokens, String.toList_ofList, List.map_replicate]
        rfl⟩
    have hiff := forall_pieces_iff (s := s.toList) utf8Code.size_pos hones
    rw [Set.forall_mem_range] at hiff
    rw [hiff]
    simp only [size_utf8Code_eq_one_iff]
  · rw [← forall_text_iff utf8Code.size_pos ⟨'a', rfl⟩ ⟨'é', rfl⟩]
    exact ⟨fun h cs => by simpa using h (String.ofList cs), fun h s => h s.toList⟩

/-- A `?` does not match the one character `é`, which it means. -/
theorem glob_counterexample : GlobMeans "?" "é" ∧ globMatch "?" "é" = false := by
  refine ⟨.one 'é' .nil, ?_⟩
  rw [← Bool.not_eq_true, globMatch_iff]
  rintro ⟨r, t, hr, hfits, rfl⟩
  rw [List.append_nil] at hr
  rw [← hr] at hfits
  have htwo : weight utf8Code.size "é".toList = 2 := rfl
  rw [htwo] at hfits
  exact absurd hfits (by decide : (2 : ℕ) ≠ 1)

end Reclaim
