import Reclaim.Foundation.Fields

/-!
# Descriptor blocks of the journal

A descriptor block of jbd2 has a tag for each block that follows it, with the number of the block
that this is a copy of.  How long a tag is depends on three features of the journal, and a tag
without the mark for it is followed by an identifier of 16 bytes.
-/

namespace Reclaim
namespace Ext

open FileBytes

section Features

variable (jIncompat : ℕ)

/-- `JBD2_INCOMPAT_64BIT`. -/
def journal64Bit : Bool := jIncompat &&& 0x2 ≠ 0

/-- `JBD2_INCOMPAT_CSUM_V2`. -/
def journalCsumV2 : Bool := jIncompat &&& 0x8 ≠ 0

/-- `JBD2_INCOMPAT_CSUM_V3`. -/
def journalCsumV3 : Bool := jIncompat &&& 0x10 ≠ 0

/-- The length of a tag, without the identifier behind it. -/
def tagSize : ℕ :=
  if journalCsumV3 jIncompat then 16
  else (if journal64Bit jIncompat then 12 else 8) + if journalCsumV2 jIncompat then 2 else 0

/-- The flags of the tag at `p`. -/
def tagFlags (desc : Bytes) (p : ℕ) : ℕ :=
  if journalCsumV3 jIncompat then beU32 desc (p + 4) else beU16 desc (p + 6)

/-- The block number in the tag at `p`. -/
def tagBlock (desc : Bytes) (p : ℕ) : ℕ :=
  if journalCsumV3 jIncompat ∨ journal64Bit jIncompat then
    beU32 desc (p + 8) * 2 ^ 32 + beU32 desc p
  else beU32 desc p

/-- `JBD2_FLAG_SAME_UUID`. -/
def sameUuid (flags : ℕ) : Bool := flags &&& 0x2 ≠ 0

/-- `JBD2_FLAG_LAST_TAG`. -/
def lastTag (flags : ℕ) : Bool := flags &&& 0x8 ≠ 0

/-- The tags from `p` on; `left` more may be listed. -/
def tagsFrom (desc : Bytes) : (guard p left : ℕ) → List ℕ
  | 0, _, _ => []
  | guard + 1, p, left =>
    if p + tagSize jIncompat ≤ desc.length then
      let flags := tagFlags jIncompat desc p
      let adv := tagSize jIncompat + if sameUuid flags then 0 else 16
      if lastTag flags ∨ left ≤ 1 then [tagBlock jIncompat desc p]
      else tagBlock jIncompat desc p :: tagsFrom desc guard (p + adv) (left - 1)
    else []

/-- `parse_descriptor_tags`: the tag with which there are more than 4096 is the last one. -/
def parseDescriptorTags (desc : Bytes) : List ℕ := tagsFrom jIncompat desc 100000 12 4097

end Features

/-! ## Tags as they are written -/

/-- A tag of a descriptor block. -/
structure JournalTag where
  blocknr : ℕ
  flags : ℕ
  checksum : ℕ
  /-- The identifier that follows a tag that is not marked to have the same. -/
  uuid : Bytes
  length_uuid : uuid.length = 16

namespace JournalTag

variable (jIncompat : ℕ) (t : JournalTag)

/-- The tag fits the layout of the journal. -/
structure Fits : Prop where
  blocknr : t.blocknr < if journal64Bit jIncompat then 2 ^ 64 else 2 ^ 32
  flags : t.flags < if journalCsumV3 jIncompat then 2 ^ 32 else 2 ^ 16

/-- The fields of the tag, in their order. -/
def fields : List Bytes :=
  if journalCsumV3 jIncompat then
    [beBytes 4 (t.blocknr % 2 ^ 32), beBytes 4 t.flags, beBytes 4 (t.blocknr / 2 ^ 32),
      beBytes 4 t.checksum]
  else
    beBytes 4 (t.blocknr % 2 ^ 32) :: beBytes 2 t.checksum :: beBytes 2 t.flags ::
      ((if journal64Bit jIncompat then [beBytes 4 (t.blocknr / 2 ^ 32)] else []) ++
        if journalCsumV2 jIncompat then [beBytes 2 0] else [])

/-- The tag as it is stored. -/
def bytes : Bytes := (t.fields jIncompat).flatten ++ if sameUuid t.flags then [] else t.uuid

lemma length_fields : (t.fields jIncompat).flatten.length = tagSize jIncompat := by
  unfold fields tagSize
  cases journalCsumV3 jIncompat with
  | true => simp
  | false => cases journal64Bit jIncompat <;> cases journalCsumV2 jIncompat <;> simp

lemma length_bytes :
    (t.bytes jIncompat).length = tagSize jIncompat + if sameUuid t.flags then 0 else 16 := by
  rw [bytes, List.length_append, length_fields]
  split
  · rfl
  · rw [t.length_uuid]

variable {jIncompat t} {desc x : Bytes} {p : ℕ}

/-- **A tag is read back**, whatever follows it. -/
lemma read (h : t.Fits jIncompat) (hdesc : desc.drop p = t.bytes jIncompat ++ x) :
    tagFlags jIncompat desc p = t.flags ∧ tagBlock jIncompat desc p = t.blocknr := by
  have hblock := h.blocknr
  have hflags := h.flags
  have hsplit : desc.drop p =
      (t.fields jIncompat).flatten ++ ((if sameUuid t.flags then [] else t.uuid) ++ x) := by
    rw [hdesc, bytes, List.append_assoc]
  have hfield : ∀ {k n off : ℕ} (i : ℕ), 0 < k → (t.fields jIncompat)[i]? = some (beBytes k n) →
      ((t.fields jIncompat).take i).flatten.length = off → n < 256 ^ k →
      beField k desc (p + off) = n := by
    intro k n off i hk hi hoff hn
    rw [← beField_drop hk, hsplit]
    exact beField_parts i hi hoff hn
  have hmod : t.blocknr % 2 ^ 32 < 256 ^ 4 := Nat.mod_lt _ (by norm_num)
  have hjoin : t.blocknr / 2 ^ 32 * 2 ^ 32 + t.blocknr % 2 ^ 32 = t.blocknr :=
    Nat.div_add_mod' ..
  have hhigh : t.blocknr / 2 ^ 32 < 256 ^ 4 := by
    rw [Nat.div_lt_iff_lt_mul (by norm_num)]
    split at hblock <;> omega
  unfold tagFlags tagBlock
  cases hv3 : journalCsumV3 jIncompat with
  | true =>
    rw [hv3, if_pos rfl] at hflags
    have hparts : t.fields jIncompat = [beBytes 4 (t.blocknr % 2 ^ 32), beBytes 4 t.flags,
        beBytes 4 (t.blocknr / 2 ^ 32), beBytes 4 t.checksum] := by
      rw [fields, hv3, if_pos rfl]
    rw [if_pos rfl, if_pos (.inl rfl)]
    constructor
    · exact hfield 1 (by omega) (by rw [hparts]; rfl) (by rw [hparts]; rfl) hflags
    · have hlow : beU32 desc (p + 0) = _ :=
        hfield 0 (by omega) (by rw [hparts]; rfl) rfl hmod
      have hhi : beU32 desc (p + 8) = _ :=
        hfield 2 (by omega) (by rw [hparts]; rfl) (by rw [hparts]; rfl) hhigh
      rw [Nat.add_zero] at hlow
      rw [hlow, hhi, hjoin]
  | false =>
    rw [hv3, if_neg Bool.false_ne_true] at hflags
    have hparts : t.fields jIncompat =
        beBytes 4 (t.blocknr % 2 ^ 32) :: beBytes 2 t.checksum :: beBytes 2 t.flags ::
          ((if journal64Bit jIncompat then [beBytes 4 (t.blocknr / 2 ^ 32)] else []) ++
            if journalCsumV2 jIncompat then [beBytes 2 0] else []) := by
      rw [fields, hv3, if_neg Bool.false_ne_true]
    have hlow : beU32 desc (p + 0) = _ :=
      hfield 0 (by omega) (by rw [hparts]; rfl) rfl hmod
    rw [Nat.add_zero] at hlow
    rw [if_neg Bool.false_ne_true]
    constructor
    · exact hfield 2 (by omega) (by rw [hparts]; rfl) (by rw [hparts]; rfl) hflags
    · cases h64 : journal64Bit jIncompat with
      | true =>
        rw [h64, if_pos rfl] at hparts
        have hhi : beU32 desc (p + 8) = _ :=
          hfield 3 (by omega) (by rw [hparts]; rfl) (by rw [hparts]; rfl) hhigh
        rw [if_pos (.inr rfl), hlow, hhi, hjoin]
      | false =>
        rw [h64, if_neg Bool.false_ne_true] at hblock
        rw [if_neg (by simp), hlow, Nat.mod_eq_of_lt hblock]

end JournalTag

/-! ## The list of tags -/

/-- The tags up to the first one that is marked to be the last. -/
def uptoLast : List JournalTag → List JournalTag
  | [] => []
  | t :: ts => if lastTag t.flags then [t] else t :: uptoLast ts

section Blocks

variable {jIncompat : ℕ} {desc rest : Bytes} {p left guard : ℕ}

lemma tagSize_pos (jIncompat : ℕ) : 8 ≤ tagSize jIncompat := by
  unfold tagSize
  split
  · omega
  · split <;> omega

lemma tagsFrom_cons {t : JournalTag} (h : t.Fits jIncompat)
    (hdesc : desc.drop p = t.bytes jIncompat ++ rest) :
    tagsFrom jIncompat desc (guard + 1) p left =
      if lastTag t.flags ∨ left ≤ 1 then [t.blocknr]
      else t.blocknr ::
        tagsFrom jIncompat desc guard (p + (t.bytes jIncompat).length) (left - 1) := by
  obtain ⟨hflags, hblock⟩ := JournalTag.read h hdesc
  have hpos := tagSize_pos jIncompat
  have hlen := t.length_bytes jIncompat
  have hin : (t.bytes jIncompat).length ≤ desc.length - p := by
    rw [← List.length_drop, hdesc, List.length_append]
    exact Nat.le_add_right ..
  rw [tagsFrom, if_pos (by omega)]
  dsimp only
  rw [hflags, hblock, hlen]

/-- **The tags are listed** in order, up to the last one or the bounds; if none is the last, what
follows them is read on. -/
lemma tagsFrom_tags (tags : List JournalTag) : ∀ {p left guard : ℕ},
    (∀ t ∈ tags, t.Fits jIncompat) →
    desc.drop p = tags.flatMap (JournalTag.bytes jIncompat) ++ rest → 0 < left → left ≤ guard →
      ((uptoLast tags).map JournalTag.blocknr).take left <+: tagsFrom jIncompat desc guard p left ∧
        ((∃ t ∈ tags, lastTag t.flags = true) →
          tagsFrom jIncompat desc guard p left =
            ((uptoLast tags).map JournalTag.blocknr).take left) := by
  induction tags with
  | nil =>
    intro p left guard _ _ _ _
    rw [uptoLast, List.map_nil, List.take_nil]
    exact ⟨List.nil_prefix, fun ⟨_, h, _⟩ => absurd h List.not_mem_nil⟩
  | cons t tags ih =>
    intro p left guard hfits hdesc hleft hguard
    obtain ⟨guard, rfl⟩ := Nat.exists_eq_succ_of_ne_zero (by omega : guard ≠ 0)
    obtain ⟨left, rfl⟩ := Nat.exists_eq_succ_of_ne_zero (by omega : left ≠ 0)
    obtain ⟨hfirst, hothers⟩ := List.forall_mem_cons.1 hfits
    rw [List.flatMap_cons, List.append_assoc] at hdesc
    have hrest : desc.drop (p + (t.bytes jIncompat).length) =
        tags.flatMap (JournalTag.bytes jIncompat) ++ rest := by
      rw [← List.drop_drop, hdesc, List.drop_left]
    rw [Nat.succ_eq_add_one, tagsFrom_cons hfirst hdesc, uptoLast]
    by_cases hlast : lastTag t.flags = true
    · rw [if_pos hlast, if_pos (.inl hlast), List.map_cons, List.map_nil, List.take_succ_cons,
        List.take_nil]
      exact ⟨List.prefix_refl _, fun _ => rfl⟩
    · rw [if_neg hlast, List.map_cons, List.take_succ_cons]
      rcases Nat.eq_zero_or_pos left with rfl | hmore
      · rw [if_pos (.inr le_rfl), List.take_zero]
        exact ⟨List.prefix_refl _, fun _ => rfl⟩
      · obtain ⟨hfront, hall⟩ := ih hothers hrest hmore (show left ≤ guard by omega)
        rw [if_neg (by simp [hlast]; omega), Nat.add_sub_cancel]
        refine ⟨List.cons_prefix_cons.2 ⟨rfl, hfront⟩, fun hsome => ?_⟩
        obtain ⟨s, hs, hmark⟩ := hsome
        obtain rfl | hs := List.mem_cons.1 hs
        · exact absurd hmark hlast
        · rw [hall ⟨s, hs, hmark⟩]

/-- The loop ends before the guard, if there is a step for every eight bytes. -/
lemma tagsFrom_guard (extra : ℕ) (h : desc.length < p + 8 + 8 * guard) :
    tagsFrom jIncompat desc (guard + extra) p left = tagsFrom jIncompat desc guard p left := by
  have hpos := tagSize_pos jIncompat
  induction guard generalizing p left with
  | zero =>
    rw [Nat.zero_add]
    cases extra with
    | zero => rfl
    | succ extra =>
      have hstop : tagsFrom jIncompat desc (extra + 1) p left = [] := by
        rw [tagsFrom, if_neg (by omega)]
      exact hstop
  | succ guard ih =>
    have hsucc : guard + 1 + extra = guard + extra + 1 := by omega
    rw [hsucc, tagsFrom, tagsFrom]
    dsimp only
    split
    · split
      · rfl
      · rw [ih (by omega)]
    · rfl

/-- Each tag that is listed lies in the block. -/
lemma length_tagsFrom_le :
    tagSize jIncompat * (tagsFrom jIncompat desc guard p left).length ≤ desc.length - p := by
  induction guard generalizing p left with
  | zero => exact Nat.zero_le _
  | succ guard ih =>
    rw [tagsFrom]
    dsimp only
    split
    · rename_i hin
      split
      · rw [List.length_singleton]
        omega
      · rw [List.length_cons, Nat.mul_succ]
        have hrest := @ih (p + (tagSize jIncompat +
          if sameUuid (tagFlags jIncompat desc p) then 0 else 16)) (left - 1)
        omega
    · exact Nat.zero_le _

/-- The tags of a block, behind its header. -/
lemma parseDescriptorTags_tags (rest : Bytes) {header : Bytes} {tags : List JournalTag}
    (hheader : header.length = 12) (hfits : ∀ t ∈ tags, t.Fits jIncompat) :
    let desc := header ++ (tags.flatMap (JournalTag.bytes jIncompat) ++ rest)
    ((uptoLast tags).map JournalTag.blocknr).take 4097 <+: parseDescriptorTags jIncompat desc ∧
      ((∃ t ∈ tags, lastTag t.flags = true) →
        parseDescriptorTags jIncompat desc =
          ((uptoLast tags).map JournalTag.blocknr).take 4097) := by
  apply tagsFrom_tags tags hfits
  · rw [← hheader, List.drop_left]
  · omega
  · omega

end Blocks

/-- **A descriptor block is read**: the block numbers of the tags are returned in order, up to the
first tag that is marked to be the last and the bound on their number; if no tag is, they are the
first that are returned.  Of any block, the tags that are listed lie in it, and the loop ends by
itself after a step for every eight bytes. -/
theorem parseDescriptorTags_exact (jIncompat : ℕ) :
    (∀ (header rest : Bytes) (tags : List JournalTag), header.length = 12 →
      (∀ t ∈ tags, t.Fits jIncompat) →
      let desc := header ++ (tags.flatMap (JournalTag.bytes jIncompat) ++ rest)
      ((uptoLast tags).map JournalTag.blocknr).take 4097 <+: parseDescriptorTags jIncompat desc ∧
        ((∃ t ∈ tags, lastTag t.flags = true) →
          parseDescriptorTags jIncompat desc =
            ((uptoLast tags).map JournalTag.blocknr).take 4097)) ∧
    ∀ desc : Bytes,
      tagSize jIncompat * (parseDescriptorTags jIncompat desc).length ≤ desc.length - 12 ∧
        ∀ extra p left, tagsFrom jIncompat desc (desc.length / 8 + extra) p left =
          tagsFrom jIncompat desc (desc.length / 8) p left := by
  refine ⟨?_, fun desc => ⟨length_tagsFrom_le, fun extra p left => ?_⟩⟩
  · intro header rest tags hheader hfits
    exact parseDescriptorTags_tags rest hheader hfits
  · exact tagsFrom_guard extra (by omega)

/-- A tag for block 7. -/
def sevenTag (flags : ℕ) : JournalTag where
  blocknr := 7
  flags := flags
  checksum := 0
  uuid := List.replicate 16 0
  length_uuid := rfl

/-- A block of 4098 tags, the last of which is marked. -/
def manyTags : List JournalTag := List.replicate 4097 (sevenTag 0x2) ++ [sevenTag 0xA]

/-- No flags can be told from what is returned: an escaped block is listed like another.  And of
4098 tags one is left out. -/
theorem parseDescriptorTags_counterexample :
    (¬ ∃ flagsOf : List ℕ → List ℕ, ∀ t : JournalTag, t.Fits 0 → lastTag t.flags = true →
      flagsOf (parseDescriptorTags 0 (List.replicate 12 0 ++ t.bytes 0)) = [t.flags]) ∧
    parseDescriptorTags 0 (List.replicate 12 0 ++ manyTags.flatMap (JournalTag.bytes 0)) ≠
      manyTags.map JournalTag.blocknr := by
  have hfits : ∀ flags < 2 ^ 16, (sevenTag flags).Fits 0 := fun flags h =>
    ⟨show 7 < 2 ^ 32 by norm_num, h⟩
  have hread : ∀ tags : List JournalTag, (∀ t ∈ tags, t.Fits 0) →
      (∃ t ∈ tags, lastTag t.flags = true) →
      parseDescriptorTags 0 (List.replicate 12 0 ++ tags.flatMap (JournalTag.bytes 0)) =
        ((uptoLast tags).map JournalTag.blocknr).take 4097 := by
    intro tags hall hlast
    have hheader : (List.replicate 12 0 : Bytes).length = 12 := List.length_replicate
    have hlist := (parseDescriptorTags_tags [] hheader hall).2 hlast
    rw [← hlist, List.append_nil]
  constructor
  · rintro ⟨flagsOf, h⟩
    have hone : ∀ flags < 2 ^ 16, lastTag flags = true →
        parseDescriptorTags 0 (List.replicate 12 0 ++ (sevenTag flags).bytes 0) = [7] := by
      intro flags hlt hlast
      have hmark : lastTag (sevenTag flags).flags = true := hlast
      have hlist := hread [sevenTag flags] (by simpa using hfits flags hlt) (by simpa using hmark)
      rw [List.flatMap_singleton, uptoLast, if_pos hmark] at hlist
      exact hlist
    have hplain := h (sevenTag 0x8) (hfits 0x8 (by norm_num)) rfl
    have hescaped := h (sevenTag 0x9) (hfits 0x9 (by norm_num)) rfl
    rw [hone 0x8 (by norm_num) rfl] at hplain
    rw [hone 0x9 (by norm_num) rfl, hplain] at hescaped
    exact absurd hescaped (by decide)
  · have hall : ∀ t ∈ manyTags, t.Fits 0 := by
      intro t ht
      unfold manyTags at ht
      rw [List.mem_append, List.mem_replicate, List.mem_singleton] at ht
      obtain ⟨-, rfl⟩ | rfl := ht
      · exact hfits 0x2 (by norm_num)
      · exact hfits 0xA (by norm_num)
    have hlast : ∃ t ∈ manyTags, lastTag t.flags = true :=
      ⟨sevenTag 0xA, List.mem_append_right _ List.mem_cons_self, rfl⟩
    intro heq
    have hlength := congrArg List.length heq
    have hcount : manyTags.length = 4098 := by
      rw [manyTags, List.length_append, List.length_replicate, List.length_singleton]
    rw [hread manyTags hall hlast, List.length_take, List.length_map, List.length_map, hcount]
      at hlength
    omega

end Ext
end Reclaim
