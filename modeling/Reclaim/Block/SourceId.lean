import Reclaim.Foundation.Text

/-!
# Ids of sources

Every opener spells an id for the source it presents: what kind of source it is, the path or the
name it was opened under, and a number.  The number holds no colon, so the last colon is where the
path ends, whatever the path is; `text_injective` says that the spelling determines the id.
-/

namespace Reclaim

open Text

/-- How a container presents its guest, as far as its id says. -/
inductive Format where
  | dmg
  | sparseimage
  | vdi
  | vhdFixed
  | vhdDyn
  | vhdx
  | qcow2
  /-- A hosted sparse extent. -/
  | vmdk
  /-- Several extents of a descriptor. -/
  | vmdkFlat
  /-- Several segments of evidence. -/
  | ewf
  /-- One segment of evidence. -/
  | ewfSeg
  | split
  deriving DecidableEq, Repr

/-- What an id of the format begins with, up to the colon. -/
def Format.name : Format → String
  | .dmg => "dmg"
  | .sparseimage => "sparseimage"
  | .vdi => "vdi"
  | .vhdFixed => "vhd-fixed"
  | .vhdDyn => "vhd-dyn"
  | .vhdx => "vhdx"
  | .qcow2 => "qcow2"
  | .vmdk => "vmdk"
  | .vmdkFlat => "vmdk-flat"
  | .ewf => "ewf"
  | .ewfSeg => "ewf-seg"
  | .split => "split"

/-- What kind of source an id names. -/
inductive SourceTag where
  | image
  | device
  | container (format : Format)
  | zero
  | view
  deriving DecidableEq

/-- What an id of the kind begins with, up to the colon. -/
def SourceTag.name : SourceTag → String
  | .image => "image"
  | .device => "device"
  | .container f => f.name
  | .zero => "vmdk-zero"
  | .view => "view"

lemma SourceTag.name_injective : Function.Injective SourceTag.name := by
  intro a b h
  cases a with
  | container f =>
    cases b with
    | container g => cases f <;> cases g <;> first | rfl | exact absurd h (by decide)
    | _ => cases f <;> exact absurd h (by decide)
  | _ =>
    cases b with
    | container g => cases g <;> exact absurd h (by decide)
    | _ => first | rfl | exact absurd h (by decide)

lemma SourceTag.colon_notMem_name (t : SourceTag) : ':' ∉ t.name.toList := by
  cases t with
  | container f => cases f <;> decide
  | _ => decide

/-- The id of a source, by the opener that spelt it. -/
inductive SourceId where
  | image (path : String) (len : ℕ)
  | device (bsd : String) (len : ℕ)
  | container (format : Format) (path : String) (n : ℕ)
  /-- A zero extent of a VMDK descriptor. -/
  | zero (bytes : ℕ)
  /-- A window of another source. -/
  | view (inner : SourceId) (start len : ℕ)
  deriving DecidableEq, Repr

namespace SourceId

/-- The kind of source. -/
def tag : SourceId → SourceTag
  | .image _ _ => .image
  | .device _ _ => .device
  | .container f _ _ => .container f
  | .zero _ => .zero
  | .view _ _ _ => .view

/-- The id as `source.json` stores it. -/
def text : SourceId → String
  | .image path len => "image:" ++ path ++ ":" ++ toString len
  | .device bsd len => "device:" ++ bsd ++ ":" ++ toString len
  | .container f path n => f.name ++ ":" ++ path ++ ":" ++ toString n
  | .zero bytes => "vmdk-zero:" ++ toString bytes
  | .view inner start len => "view:" ++ inner.text ++ ":" ++ toString start ++ "+" ++ toString len

/-! ## Spelling and taking apart -/

lemma toList_toString (n : ℕ) : (toString n).toList = Nat.toDigits 10 n := Nat.toList_repr

lemma notMem_digits {c : Char} (hc : c.isDigit = false) (n : ℕ) : c ∉ (toString n).toList := by
  rw [toList_toString]
  intro h
  have := Nat.isDigit_of_mem_toDigits (by omega) (by omega) h
  exact absurd (hc.symm.trans this) (by decide)

/-- The part of a spelling between the first colon and the last. -/
def middle : SourceId → List Char
  | .image path _ => path.toList
  | .device bsd _ => bsd.toList
  | .container _ path _ => path.toList
  | .zero _ => []
  | .view inner _ _ => inner.text.toList

/-- What a spelling ends with, behind the last colon. -/
def tail : SourceId → List Char
  | .image _ n | .device _ n | .container _ _ n | .zero n => (toString n).toList
  | .view _ start len => (toString start).toList ++ '+' :: (toString len).toList

lemma colon_notMem_tail (id : SourceId) : ':' ∉ id.tail := by
  have hdigits := notMem_digits (c := ':') (by decide)
  cases id with
  | image _ n => exact hdigits n
  | device _ n => exact hdigits n
  | container _ _ n => exact hdigits n
  | zero n => exact hdigits n
  | view _ start len =>
    simp only [tail, List.mem_append, List.mem_cons, not_or]
    exact ⟨hdigits start, by decide, hdigits len⟩

/-- A spelling is its parts with colons between; a zero extent has one colon only. -/
lemma toList_text (id : SourceId) (hz : ∀ n, id ≠ .zero n) :
    id.text.toList = (id.tag.name ++ ":").toList ++ (id.middle ++ ':' :: id.tail) := by
  cases id with
  | zero n => exact absurd rfl (hz n)
  | _ => simp [text, tag, SourceTag.name, middle, tail]

/-- What is before the first colon of a spelling. -/
lemma takeWhile_text (id : SourceId) :
    id.text.toList.takeWhile (· != ':') = id.tag.name.toList := by
  have hsplit : ∃ rest, id.text.toList = id.tag.name.toList ++ ':' :: rest := by
    by_cases hz : ∃ n, id = .zero n
    · obtain ⟨n, rfl⟩ := hz
      exact ⟨(toString n).toList, by simp [text, tag, SourceTag.name]⟩
    · exact ⟨id.middle ++ ':' :: id.tail, by simp [toList_text id fun n h => hz ⟨n, h⟩]⟩
  obtain ⟨rest, hrest⟩ := hsplit
  rw [hrest, List.takeWhile_append_of_pos]
  · simp
  · intro c hc
    rw [bne_iff_ne]
    rintro rfl
    exact id.tag.colon_notMem_name hc

lemma tag_eq {a b : SourceId} (h : a.text = b.text) : a.tag = b.tag := by
  apply SourceTag.name_injective
  rw [← String.toList_inj, ← takeWhile_text, ← takeWhile_text, h]

/-- Spellings that agree agree in their parts. -/
lemma parts_eq {a b : SourceId} (h : a.text = b.text) (ha : ∀ n, a ≠ .zero n)
    (hb : ∀ n, b ≠ .zero n) : a.middle = b.middle ∧ a.tail = b.tail := by
  have hlist := congrArg String.toList h
  rw [toList_text a ha, toList_text b hb, tag_eq h] at hlist
  have hsplit := congrArg (rsplitOnce ':') (List.append_cancel_left hlist)
  rw [rsplitOnce_append _ (colon_notMem_tail a),
    rsplitOnce_append _ (colon_notMem_tail b)] at hsplit
  exact Prod.mk.inj (Option.some.inj hsplit)

lemma toString_inj {m n : ℕ} (h : (toString m).toList = (toString n).toList) : m = n := by
  rw [toList_toString, toList_toString] at h
  rw [← @Nat.ofDigitChars_ten_toDigits m, h, Nat.ofDigitChars_ten_toDigits]

/-- **The spelling determines the id.** -/
theorem text_injective : Function.Injective text := by
  intro a
  induction a with
  | image path n =>
    intro b h
    have htag := tag_eq h
    cases b with
    | image path' n' =>
      obtain ⟨hmid, htail⟩ := parts_eq h (by simp) (by simp)
      rw [toString_inj htail, String.toList_inj.1 hmid]
    | _ => exact absurd htag (by simp [tag])
  | device bsd n =>
    intro b h
    have htag := tag_eq h
    cases b with
    | device bsd' n' =>
      obtain ⟨hmid, htail⟩ := parts_eq h (by simp) (by simp)
      rw [toString_inj htail, String.toList_inj.1 hmid]
    | _ => exact absurd htag (by simp [tag])
  | container f path n =>
    intro b h
    have htag := tag_eq h
    cases b with
    | container f' path' n' =>
      obtain rfl : f = f' := by simpa [tag] using htag
      obtain ⟨hmid, htail⟩ := parts_eq h (by simp) (by simp)
      rw [toString_inj htail, String.toList_inj.1 hmid]
    | _ => exact absurd htag (by simp [tag])
  | zero n =>
    intro b h
    have htag := tag_eq h
    cases b with
    | zero n' =>
      have hlist := congrArg String.toList h
      simp only [text, String.toList_append] at hlist
      rw [toString_inj (List.append_cancel_left hlist)]
    | _ => exact absurd htag (by simp [tag])
  | view inner start len ih =>
    intro b h
    have htag := tag_eq h
    cases b with
    | view inner' start' len' =>
      obtain ⟨hinner, htail⟩ := parts_eq h (by simp) (by simp)
      simp only [middle, tail] at hinner htail
      obtain rfl := ih (String.toList_inj.1 hinner)
      -- the start and the length are apart at the plus
      have hplus := notMem_digits (c := '+') (by decide)
      have hsplit := congrArg (rsplitOnce '+') htail
      rw [rsplitOnce_append _ (hplus len), rsplitOnce_append _ (hplus len'), Option.some.injEq,
        Prod.mk.injEq] at hsplit
      rw [toString_inj hsplit.1, toString_inj hsplit.2]
    | _ => exact absurd htag (by simp [tag])

/-- A spelling is longer than the path in it. -/
lemma length_middle_lt (id : SourceId) (hz : ∀ n, id ≠ .zero n) :
    id.middle.length < id.text.toList.length := by
  rw [toList_text id hz]
  simp only [List.length_append, List.length_cons]
  omega

end SourceId

end Reclaim
