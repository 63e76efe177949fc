import Reclaim.Block.Container
import Reclaim.Foundation.Unicode

/-!
# Descriptors of VMDK images

A descriptor is a small text.  Some of its lines say what an extent of the disk is: how it may be
accessed, how many sectors it has, of what kind it is, and in which file it is found and where.  The
name of the file is quoted, and may have white space in it.

`open_descriptor` takes such a line apart at white space.  `vmdkExtent_text` is what it makes of
one, and `vmdkExtents_text` what it makes of a whole text.
-/

namespace Reclaim

open FileBytes Text

namespace Vmdk

/-! ## Extent lines -/

/-- The access modes, as a line begins with them. -/
inductive Access where
  | rw
  | rdonly
  | noaccess
  deriving DecidableEq, Repr

def Access.text : Access → List Char
  | .rw => ['R', 'W']
  | .rdonly => ['R', 'D', 'O', 'N', 'L', 'Y']
  | .noaccess => ['N', 'O', 'A', 'C', 'C', 'E', 'S', 'S']

/-- What a line says of an extent. -/
structure Extent where
  access : Access
  sectors : ℕ
  kind : String
  /-- The file; a hole has none, and then the name is not written. -/
  name : String
  /-- Where in the file it begins, in sectors, if that is written. -/
  offset : Option ℕ
  kind_word : kind.toList ≠ [] ∧ ∀ c ∈ kind.toList, isWhitespace c = false
  name_line : '\n' ∉ name.toList
  deriving DecidableEq

namespace Extent

variable (e : Extent)

/-- How the file is written, and where the extent begins in it. -/
def fileText : List Char :=
  '"' :: e.name.toList ++ '"' :: (e.offset.elim [] fun n => ' ' :: Nat.toDigits 10 n)

/-- The line without the blanks around it. -/
def text : List Char :=
  e.access.text ++ ' ' :: (Nat.toDigits 10 e.sectors ++ ' ' ::
    (e.kind.toList ++ if e.kind = "ZERO" then [] else ' ' :: e.fileText))

end Extent

/-- White space within a line. -/
def Blank (s : List Char) : Prop := ∀ c ∈ s, isWhitespace c = true ∧ c ≠ '\n'

/-- The beginnings of an extent line. -/
def accessWords : List String := ["RW ", "RDONLY ", "NOACCESS "]

/-- What a line declares: an extent, with blanks around it, or nothing. -/
inductive Declares : List Char → Option Extent → Prop
  | extent {before after : List Char} (hbefore : Blank before) (hafter : Blank after) (e : Extent) :
      Declares (before ++ (e.text ++ after)) (some e)
  | other {line : List Char} (hline : '\n' ∉ line)
      (hnone : ¬ accessWords.any fun p => p.toList.isPrefixOf (trim line)) : Declares line none

/-- A descriptor: its lines, and what each of them declares.  All of it is read. -/
structure Descriptor where
  lines : List (List Char × Option Extent)
  declares : ∀ l ∈ lines, Declares l.1 l.2
  small : (utf8 (String.ofList (['\n'].intercalate (lines.map (·.1))))).length ≤ 64 * 1024

namespace Descriptor

variable (D : Descriptor)

/-- The file. -/
def bytes : Bytes := utf8 (String.ofList (['\n'].intercalate (D.lines.map (·.1))))

/-- The extents, in order. -/
def extents : List Extent := D.lines.filterMap (·.2)

end Descriptor

/-! ## Words -/

/-- `split_whitespace`. -/
def words (s : List Char) : List (List Char) := (s.splitOnP isWhitespace).filter (· ≠ [])

lemma isWhitespace_of_all {s : List Char} (h : (s.all fun c => !isWhitespace c) = true) :
    ∀ c ∈ s, isWhitespace c = false := by
  intro c hc
  simpa using List.all_eq_true.1 h c hc

/-- A name that is one word and has no quotes at its ends. -/
structure PlainName (name : String) : Prop where
  ne_nil : name.toList ≠ []
  word : ∀ c ∈ name.toList, isWhitespace c = false
  head : name.toList.head? ≠ some '"'
  last : name.toList.getLast? ≠ some '"'

instance (name : String) : Decidable (PlainName name) :=
  decidable_of_iff (name.toList ≠ [] ∧ (name.toList.all fun c => !isWhitespace c) = true ∧
      name.toList.head? ≠ some '"' ∧ name.toList.getLast? ≠ some '"')
    ⟨fun ⟨h1, h2, h3, h4⟩ => ⟨h1, isWhitespace_of_all h2, h3, h4⟩, fun ⟨h1, h2, h3, h4⟩ =>
      ⟨h1, List.all_eq_true.2 fun c hc => by rw [h2 c hc]; rfl, h3, h4⟩⟩

lemma words_word {w : List Char} (hne : w ≠ []) (hw : ∀ c ∈ w, isWhitespace c = false) :
    words w = [w] := by
  rw [words, List.splitOnP_eq_singleton hw]
  exact List.filter_cons_of_pos (p := (· ≠ [])) (decide_eq_true hne)

/-- The first word goes up to the first white space. -/
lemma words_cons {w : List Char} (hne : w ≠ []) (hw : ∀ c ∈ w, isWhitespace c = false)
    (rest : List Char) : words (w ++ ' ' :: rest) = w :: words rest := by
  rw [words, List.splitOnP_append_cons_of_forall_mem hw ' ' (by decide)]
  exact List.filter_cons_of_pos (p := (· ≠ [])) (decide_eq_true hne)

lemma isWhitespace_of_mem_words {s w : List Char} (hw : w ∈ words s) :
    ∀ c ∈ w, isWhitespace c = false :=
  eq_false_of_mem_splitOnP isWhitespace s w (List.mem_filter.1 hw).1

/-- A word without the quotes at its ends is a plain name, if it is one at all. -/
lemma plainName_trimBoth {s w : List Char} (hw : w ∈ words s)
    (hne : String.ofList (trimBoth (· == '"') w) ≠ "") :
    PlainName (String.ofList (trimBoth (· == '"') w)) := by
  refine ⟨fun hnil => hne (String.toList_eq_nil_iff.1 hnil), ?_, ?_, ?_⟩ <;>
    rw [String.toList_ofList]
  · exact fun c hc => isWhitespace_of_mem_words hw c (mem_of_mem_trimBoth hc)
  · exact fun h => absurd (head?_trimBoth h) (by decide)
  · exact fun h => absurd (getLast?_trimBoth h) (by decide)

/-- The quotes come off a plain name. -/
lemma PlainName.trimBoth_quoted {name : String} (h : PlainName name) :
    trimBoth (· == '"') ('"' :: name.toList ++ ['"']) = name.toList := by
  have hquote : ∀ c ∈ ['"'], (c == '"') = true := fun c hc => by
    rw [List.mem_singleton.1 hc]
    rfl
  refine trimBoth_append hquote hquote (fun c hc => ?_) (fun c hc => ?_) h.ne_nil
  · exact beq_false_of_ne fun hq => h.head (hq ▸ hc)
  · exact beq_false_of_ne fun hq => h.last (hq ▸ hc)

/-! ## Numbers -/

lemma isWhitespace_of_isDigit {c : Char} (h : c.isDigit = true) : isWhitespace c = false := by
  have hrange : 48 ≤ c.toNat ∧ c.toNat ≤ 57 := by
    simpa [Char.isDigit, UInt32.le_iff_toNat_le] using h
  obtain ⟨hlow, hhigh⟩ := hrange
  unfold isWhitespace
  simp only [List.contains_eq_mem, List.mem_cons, List.not_mem_nil, or_false, Bool.or_eq_false_iff,
    Bool.and_eq_false_iff, decide_eq_false_iff_not]
  omega

lemma isWhitespace_of_mem_toDigits {n : ℕ} : ∀ c ∈ Nat.toDigits 10 n, isWhitespace c = false :=
  fun _ hc => isWhitespace_of_isDigit (Nat.isDigit_of_mem_toDigits (by omega) (by omega) hc)

/-- A number is read back, if it is not too large. -/
lemma parseUnsigned_toDigits (max n : ℕ) :
    parseUnsigned max (Nat.toDigits 10 n) = if n ≤ max then some n else none := by
  have hne : Nat.toDigits 10 n ≠ [] := Nat.toDigits_ne_nil
  have hall : ∀ c ∈ Nat.toDigits 10 n, c.isDigit = true :=
    fun _ hc => Nat.isDigit_of_mem_toDigits (by omega) (by omega) hc
  have hdigits : parseDigits max (Nat.toDigits 10 n) = if n ≤ max then some n else none := by
    unfold parseDigits
    rw [if_neg, Nat.ofDigitChars_ten_toDigits]
    rw [not_or, not_not, List.all_eq_true]
    exact ⟨hne, hall⟩
  unfold parseUnsigned
  split
  · rename_i rest hplus
    exact absurd (hall '+' (hplus ▸ List.mem_cons_self)) (by decide)
  · exact hdigits

/-! ## What is made of a line -/

namespace Extent

variable (e : Extent)

/-- The name and the offset as the words behind the quotes have them. -/
def wordName : String := String.ofList (trimBoth (· == '"') ((words e.fileText)[0]?.getD []))

def wordOffset : ℕ := (((words e.fileText)[1]?).bind (parseUnsigned u64Max)).getD 0

/-- What `open_descriptor` makes of the line. -/
def read : Option VmdkExtent := vmdkExtent e.text

variable {e}

lemma wordName_plain (h : e.wordName ≠ "") : PlainName e.wordName := by
  unfold wordName at h ⊢
  cases hw : (words e.fileText)[0]? with
  | none =>
    rw [hw] at h
    exact absurd rfl h
  | some w =>
    rw [hw] at h
    exact plainName_trimBoth (List.mem_of_getElem? hw) h

/-- The words of the file's part, if the name is plain. -/
lemma words_fileText (h : PlainName e.name) :
    words e.fileText = ('"' :: e.name.toList ++ ['"']) :: e.offset.elim [] fun n =>
      [Nat.toDigits 10 n] := by
  have hquoted : ∀ c ∈ '"' :: e.name.toList ++ ['"'], isWhitespace c = false := by
    intro c hc
    rw [List.cons_append, List.mem_cons, List.mem_append, List.mem_singleton] at hc
    rcases hc with rfl | hc | rfl
    · decide
    · exact h.word c hc
    · decide
  have hne : '"' :: e.name.toList ++ ['"'] ≠ [] := List.cons_ne_nil _ _
  unfold fileText
  cases e.offset with
  | none => exact words_word hne hquoted
  | some n =>
    have happ : '"' :: e.name.toList ++ '"' :: ' ' :: Nat.toDigits 10 n =
        ('"' :: e.name.toList ++ ['"']) ++ ' ' :: Nat.toDigits 10 n := by
      rw [List.append_assoc, List.singleton_append]
    rw [Option.elim_some, happ, words_cons hne hquoted,
      words_word Nat.toDigits_ne_nil isWhitespace_of_mem_toDigits]
    rfl

lemma wordName_eq (h : PlainName e.name) : e.wordName = e.name := by
  rw [wordName, words_fileText h]
  exact (congrArg String.ofList h.trimBoth_quoted).trans (String.ofList_toList)

lemma wordOffset_eq (h : PlainName e.name) :
    e.wordOffset = if e.offset.getD 0 ≤ u64Max then e.offset.getD 0 else 0 := by
  rw [wordOffset, words_fileText h]
  cases e.offset with
  | none => rfl
  | some n =>
    change ((parseUnsigned u64Max (Nat.toDigits 10 n)).getD 0) = _
    rw [parseUnsigned_toDigits, Option.getD_some]
    split <;> rfl

lemma access_word : e.access.text ≠ [] ∧ ∀ c ∈ e.access.text, isWhitespace c = false := by
  cases e.access <;> exact ⟨List.cons_ne_nil _ _, isWhitespace_of_all (by decide)⟩

/-- A line begins and ends with no blank. -/
lemma text_ends : (∀ c ∈ e.text.head?, isWhitespace c = false) ∧
    (∀ c ∈ e.text.getLast?, isWhitespace c = false) ∧ e.text ≠ [] := by
  obtain ⟨hne, haccess⟩ := e.access_word
  refine ⟨fun c hc => ?_, fun c hc => ?_, by simp [text]⟩
  · rw [text, List.head?_append_of_ne_nil _ hne] at hc
    exact haccess c (List.mem_of_mem_head? hc)
  · have hsplit : e.text = (e.access.text ++ ' ' :: (Nat.toDigits 10 e.sectors ++ [' '])) ++
        (e.kind.toList ++ if e.kind = "ZERO" then [] else ' ' :: e.fileText) := by simp [text]
    rw [hsplit, List.getLast?_append_of_ne_nil _ (by simp [e.kind_word.1])] at hc
    split at hc
    · rw [List.append_nil] at hc
      exact e.kind_word.2 c (List.mem_of_getLast? hc)
    rw [List.getLast?_append_of_ne_nil _ (List.cons_ne_nil _ _), fileText] at hc
    cases hoff : e.offset with
    | none =>
      rw [hoff, Option.elim_none, ← List.cons_append, List.getLast?_concat] at hc
      rw [← Option.some.inj hc]
      decide
    | some n =>
      rw [hoff, Option.elim_some, ← List.cons_append,
        List.getLast?_append_of_ne_nil _ (List.cons_ne_nil _ _),
        show '"' :: ' ' :: Nat.toDigits 10 n = ['"', ' '] ++ Nat.toDigits 10 n from rfl,
        List.getLast?_append_of_ne_nil _ Nat.toDigits_ne_nil] at hc
      exact isWhitespace_of_mem_toDigits c (List.mem_of_getLast? hc)

/-- The blanks around a line make no difference. -/
lemma vmdkExtent_blank {before after : List Char} (hbefore : Blank before) (hafter : Blank after) :
    vmdkExtent (before ++ (e.text ++ after)) = e.read := by
  obtain ⟨hhead, hlast, hne⟩ := e.text_ends
  have htrim : trim (before ++ (e.text ++ after)) = trim e.text := by
    have h1 : trim (before ++ (e.text ++ after)) = e.text :=
      trimBoth_append (fun c hc => (hbefore c hc).1) (fun c hc => (hafter c hc).1) hhead hlast hne
    have h2 : trim ([] ++ (e.text ++ [])) = e.text :=
      trimBoth_append (fun _ h => absurd h List.not_mem_nil) (fun _ h => absurd h List.not_mem_nil)
        hhead hlast hne
    rw [List.nil_append, List.append_nil] at h2
    rw [h1, h2]
  unfold read vmdkExtent
  rw [htrim]

/-- **What is made of a line**: the words of it count, and the file's part may be more than two. -/
lemma read_eq (e : Extent) : e.read =
    if e.sectors ≤ u64Max then
      let bytes := min (e.sectors * 512) u64Max
      if e.kind = "ZERO" then some (.zero bytes)
      else if e.kind = "FLAT" ∨ e.kind = "VMFS" ∨ e.kind = "VMFSRAW" then
        if e.wordName = "" then none
        else some (.flat e.wordName (min (e.wordOffset * 512) u64Max) bytes)
      else if e.kind = "SPARSE" then if e.wordName = "" then none else some (.sparse e.wordName)
      else none
    else none := by
  obtain ⟨hhead, hlast, hne⟩ := e.text_ends
  have htrim : trim e.text = e.text := by
    have h : trim ([] ++ (e.text ++ [])) = e.text :=
      trimBoth_append (fun _ h => absurd h List.not_mem_nil) (fun _ h => absurd h List.not_mem_nil)
        hhead hlast hne
    rwa [List.nil_append, List.append_nil] at h
  have haccess : (["RW ", "RDONLY ", "NOACCESS "].any fun p => p.toList.isPrefixOf e.text) =
    true := by
    unfold text
    cases e.access <;> rfl
  have hwords : (e.text.splitOnP isWhitespace).filter (· ≠ []) =
      e.access.text :: Nat.toDigits 10 e.sectors :: e.kind.toList ::
        if e.kind = "ZERO" then [] else words e.fileText := by
    change words e.text = _
    unfold text
    rw [words_cons e.access_word.1 e.access_word.2,
      words_cons Nat.toDigits_ne_nil isWhitespace_of_mem_toDigits]
    split
    · rw [List.append_nil, words_word e.kind_word.1 e.kind_word.2]
    · rw [words_cons e.kind_word.1 e.kind_word.2]
  unfold read vmdkExtent
  rw [htrim]
  dsimp only
  rw [if_pos haccess, hwords]
  have hcount : ((some (Nat.toDigits 10 e.sectors)).bind (parseUnsigned u64Max)) =
      if e.sectors ≤ u64Max then some e.sectors else none := parseUnsigned_toDigits _ _
  simp only [List.getElem?_cons_succ, List.getElem?_cons_zero, Option.getD_some,
    String.ofList_toList, hcount]
  by_cases hfits : e.sectors ≤ u64Max
  · rw [if_pos hfits, if_pos hfits]
    dsimp only
    by_cases hzero : e.kind = "ZERO"
    · rw [if_pos hzero, if_pos hzero]
    rw [if_neg hzero, if_neg hzero, if_neg hzero]
    rfl
  · rw [if_neg hfits, if_neg hfits]

/-- The kinds of line of which something is made. -/
lemma read_cases {e : Extent} {x : VmdkExtent} (h : e.read = some x) :
    (e.kind = "ZERO" ∧ x = .zero (min (e.sectors * 512) u64Max)) ∨
    ((e.kind = "FLAT" ∨ e.kind = "VMFS" ∨ e.kind = "VMFSRAW") ∧ e.wordName ≠ "" ∧
      x = .flat e.wordName (min (e.wordOffset * 512) u64Max) (min (e.sectors * 512) u64Max)) ∨
    (e.kind = "SPARSE" ∧ e.wordName ≠ "" ∧ x = .sparse e.wordName) := by
  rw [read_eq] at h
  split at h
  · dsimp only at h
    split at h
    · exact .inl ⟨‹_›, (Option.some.inj h).symm⟩
    split at h
    · split at h
      · cases h
      · exact .inr (.inl ⟨‹_›, ‹_›, (Option.some.inj h).symm⟩)
    split at h
    · split at h
      · cases h
      · exact .inr (.inr ⟨‹_›, ‹_›, (Option.some.inj h).symm⟩)
    · cases h
  · cases h

lemma newline_not_mem_text (e : Extent) : '\n' ∉ e.text := by
  have hword : ∀ {w : List Char}, (∀ c ∈ w, isWhitespace c = false) → '\n' ∉ w := by
    intro w hw hmem
    exact absurd (hw _ hmem) (by decide)
  have hdigits : ∀ n, '\n' ∉ Nat.toDigits 10 n := fun n => hword isWhitespace_of_mem_toDigits
  have hfile : '\n' ∉ e.fileText := by
    unfold fileText
    cases e.offset <;> simp [e.name_line, hdigits]
  unfold text
  split <;> simp [hword e.access_word.2, hword e.kind_word.2, hdigits, hfile]

end Extent

/-! ## What is made of a descriptor -/

lemma Declares.newline_not_mem {line : List Char} {e : Option Extent} (h : Declares line e) :
    '\n' ∉ line := by
  cases h with
  | extent hbefore hafter e =>
    rw [List.mem_append, List.mem_append]
    rintro (hmem | hmem | hmem)
    · exact (hbefore _ hmem).2 rfl
    · exact e.newline_not_mem_text hmem
    · exact (hafter _ hmem).2 rfl
  | other hline hnone => exact hline

/-- A line gives what is made of the extent that it declares. -/
lemma Declares.vmdkExtent_eq {line : List Char} {e : Option Extent} (h : Declares line e) :
    vmdkExtent line = e.bind Extent.read := by
  cases h with
  | extent hbefore hafter e => exact Extent.vmdkExtent_blank hbefore hafter
  | other hline hnone =>
    unfold vmdkExtent
    exact if_neg hnone

namespace Descriptor

/-- **What is made of a descriptor**: what is made of its extents, in order. -/
lemma vmdkExtents_bytes (D : Descriptor) :
    vmdkExtents (fromUtf8Lossy (D.bytes.take (64 * 1024))) = D.extents.filterMap Extent.read := by
  have hlines : ∀ l ∈ D.lines.map (·.1), '\n' ∉ l := by
    intro l hl
    obtain ⟨line, hmem, rfl⟩ := List.mem_map.1 hl
    exact (D.declares line hmem).newline_not_mem
  have hread : (D.lines.map (·.1)).filterMap vmdkExtent = D.extents.filterMap Extent.read := by
    rw [List.filterMap_map, extents, List.filterMap_filterMap]
    exact List.filterMap_congr fun l hl => (D.declares l hl).vmdkExtent_eq
  have hall : D.bytes.take (64 * 1024) = D.bytes := List.take_of_length_le D.small
  rw [hall]
  have htext : fromUtf8Lossy D.bytes = _ := fromUtf8Lossy_toUTF8 _
  rw [htext, vmdkExtents, String.toList_ofList]
  by_cases hnil : D.lines.map (·.1) = []
  · rw [← hread, hnil]
    rfl
  · rw [List.splitOn_intercalate '\n' hlines hnil, hread]

end Descriptor

end Vmdk

end Reclaim
