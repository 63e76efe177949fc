import Reclaim.Foundation.LittleEndian

/-!
# Fields of a record

A record is its fields, one after the other, and a reader that has its bytes, or a part of a source
that begins with them, reads each field where those before it end.
-/

namespace Reclaim

open FileBytes

section Slices

variable (a b : Bytes) (k n : ℕ)

/-- A slice behind the first part. -/
lemma slice_append_right : slice (a ++ b) (a.length + k) n = slice b k n := by
  apply ext_byteAt (by simp)
  intro j hj
  rw [length_slice] at hj
  rw [byteAt_slice, byteAt_slice, if_pos hj, if_pos hj, byteAt_append, if_neg (by omega)]
  congr 1
  omega

/-- A slice that begins at a position is one of the bytes from there on. -/
lemma slice_eq_slice_drop : slice a k n = slice (a.drop k) 0 n := by
  apply ext_byteAt (by simp)
  intro j hj
  rw [length_slice] at hj
  rw [byteAt_slice, byteAt_slice, if_pos hj, if_pos hj, byteAt_drop, Nat.zero_add]

/-- The first part, and what follows it. -/
lemma slice_append_add : slice (a ++ b) 0 (a.length + n) = a ++ slice b 0 n := by
  have hfirst := slice_between [] a b
  rw [slice_add, Nat.zero_add]
  exact congrArg₂ (· ++ ·) hfirst (slice_append_right a b 0 n)

lemma slice_append_length : slice (a ++ b) 0 a.length = a :=
  slice_between [] a b

variable {a b} in
/-- The first part alone is read the same. -/
lemma slice_append_left (h : k + n ≤ a.length) : slice (a ++ b) k n = slice a k n :=
  slice_congr fun x _ hx => by rw [byteAt_append, if_pos (by omega)]

variable {a b} in
/-- Bytes stand at a position exactly if each part stands where those before it end. -/
lemma slice_eq_append_iff {g : Bytes} {pos : ℕ} : slice g pos (a ++ b).length = a ++ b ↔
    slice g pos a.length = a ∧ slice g (pos + a.length) b.length = b := by
  rw [List.length_append, slice_add]
  exact ⟨fun h => List.append_inj h (length_slice ..), fun h => congrArg₂ (· ++ ·) h.1 h.2⟩

variable {a} in
lemma slice_eq_cons_iff {g : Bytes} {pos : ℕ} {x : UInt8} :
    slice g pos (x :: a).length = x :: a ↔
      byteAt g pos = x ∧ slice g (pos + 1) a.length = a := by
  have hone : slice g pos [x].length = [x] ↔ byteAt g pos = x := by
    rw [slice, List.length_singleton, List.range_one, List.map_singleton, List.singleton_inj]
    rfl
  rw [← hone]
  exact slice_eq_append_iff (a := [x]) (b := a)

/-- A part of a range that has been read. -/
lemma take_drop_slice (f : Bytes) (off n d m : ℕ) :
    ((slice f off n).drop d).take m = slice f (off + d) (min m (n - d)) := by
  apply ext_byteAt (by simp)
  intro k hk
  rw [List.length_take, List.length_drop, length_slice] at hk
  rw [byteAt_take, if_pos (by omega), byteAt_drop, byteAt_slice, if_pos (by omega), byteAt_slice,
    if_pos (by omega), Nat.add_assoc]

/-- A byte of a range that has been read. -/
lemma getElem?_slice {f : Bytes} {off n d : ℕ} (h : d < n) :
    (slice f off n)[d]? = some (byteAt f (off + d)) := by
  rw [slice, List.getElem?_map, List.getElem?_range h]
  rfl

end Slices

/-- `n` in `len` bytes, the lowest first. -/
def leBytes (len n : ℕ) : Bytes := (beBytes len n).reverse

@[simp] lemma length_leBytes (len n : ℕ) : (leBytes len n).length = len := by
  rw [leBytes, List.length_reverse, length_beBytes]

section Widths

variable {k w n : ℕ}

/-- The first bytes are the number without its higher ones. -/
lemma leValue_take (b : Bytes) (k : ℕ) : leValue (b.take k) = leValue b % 256 ^ k := by
  induction k generalizing b with
  | zero => rw [List.take_zero, pow_zero, Nat.mod_one]; rfl
  | succ k ih =>
    cases b with
    | nil => exact (Nat.zero_mod _).symm
    | cons x b =>
      have hx := x.toNat_lt
      have hpos : 0 < 256 ^ k := Nat.pow_pos (by omega)
      rw [List.take_succ_cons, leValue_cons, leValue_cons, ih, Nat.pow_succ', Nat.mod_mul,
        Nat.add_mul_mod_self_left, Nat.mod_eq_of_lt hx, Nat.add_mul_div_left _ _ (by omega),
        Nat.div_eq_of_lt hx, Nat.zero_add]

lemma leValue_leBytes (hn : n < 256 ^ w) : leValue (leBytes w n) = n := leValue_beBytes w n hn

/-- A number that is written wider than it is read is read back if it fits. -/
lemma leValue_take_leBytes (hn : n < 256 ^ w) (k : ℕ) :
    leValue ((leBytes w n).take k) = n % 256 ^ k := by
  rw [leValue_take, leValue_leBytes hn]

/-- The bytes of a signed number, of which each byte more repeats the sign. -/
def leSignedBytes (w : ℕ) (d : ℤ) : Bytes := leBytes w (d % (256 ^ w : ℕ)).toNat

@[simp] lemma length_leSignedBytes (w : ℕ) (d : ℤ) : (leSignedBytes w d).length = w :=
  length_leBytes ..

/-- **A signed number is read back** from the bytes that it fits in. -/
lemma bmod_leSignedBytes {d : ℤ} (hk : k ≤ w) (hlow : -(256 ^ k : ℕ) ≤ 2 * d)
    (hhigh : 2 * d < (256 ^ k : ℕ)) :
    (leValue ((leSignedBytes w d).take k) : ℤ).bmod (256 ^ k) = d := by
  have hpos : (0 : ℤ) < (256 ^ w : ℕ) := by positivity
  have hnonneg := Int.emod_nonneg d hpos.ne'
  have hlt : (d % (256 ^ w : ℕ)).toNat < 256 ^ w := by
    have := Int.emod_lt_of_pos d hpos
    omega
  have hdvd : ((256 ^ k : ℕ) : ℤ) ∣ (256 ^ w : ℕ) :=
    Int.natCast_dvd_natCast.2 (Nat.pow_dvd_pow _ hk)
  rw [leSignedBytes, leValue_take_leBytes hlt, Int.natCast_emod, Int.toNat_of_nonneg hnonneg,
    Int.emod_emod_of_dvd d hdvd, Int.emod_bmod]
  exact Int.bmod_eq_of_le_mul_two (by omega) (by omega)

end Widths

section ReadFields

variable {a c : Bytes} {k len n off : ℕ}

/-- A field of the bytes that were read is one of the source. -/
lemma leField_slice (h : off + k ≤ len) (b : Bytes) (pos : ℕ) :
    leField k (slice b pos len) off = leValue (slice b (pos + off) k) := by
  obtain ⟨d, rfl⟩ := Nat.exists_eq_add_of_le h
  rw [leField, if_pos (by rw [length_slice]; exact h), Nat.add_assoc, slice_add,
    List.drop_left' (length_slice ..), take_slice _ _ (Nat.le_add_right k d)]

lemma beField_slice (h : off + k ≤ len) (b : Bytes) (pos : ℕ) :
    beField k (slice b pos len) off = leValue (slice b (pos + off) k).reverse := by
  obtain ⟨d, rfl⟩ := Nat.exists_eq_add_of_le h
  rw [beField, if_pos (by rw [length_slice]; exact h), Nat.add_assoc, slice_add,
    List.drop_left' (length_slice ..), take_slice _ _ (Nat.le_add_right k d)]

/-- **A field is read back**, whatever is before and behind it. -/
lemma leField_leBytes (hn : n < 256 ^ k) (h : a.length + k ≤ len) :
    leField k (slice (a ++ (leBytes k n ++ c)) 0 len) a.length = n := by
  have hfield := slice_append_length (leBytes k n) c
  rw [length_leBytes] at hfield
  rw [leField_slice h, Nat.zero_add, ← Nat.add_zero a.length, slice_append_right, hfield, leBytes,
    leValue_beBytes k n hn]

lemma beField_beBytes (hn : n < 256 ^ k) (h : a.length + k ≤ len) :
    beField k (slice (a ++ (beBytes k n ++ c)) 0 len) a.length = n := by
  have hfield := slice_append_length (beBytes k n) c
  rw [length_beBytes] at hfield
  rw [beField_slice h, Nat.zero_add, ← Nat.add_zero a.length, slice_append_right, hfield,
    leValue_beBytes k n hn]

/-- A record that is written out part by part, split at one of them. -/
lemma flatten_split {parts : List Bytes} {i : ℕ} {p : Bytes} (hi : parts[i]? = some p) :
    parts.flatten = (parts.take i).flatten ++ (p ++ (parts.drop (i + 1)).flatten) := by
  obtain ⟨hlt, rfl⟩ := List.getElem?_eq_some_iff.1 hi
  rw [← List.flatten_cons, ← List.drop_eq_getElem_cons hlt, ← List.flatten_append,
    List.take_append_drop]

/-- **A field of a record** that is written out part by part, with whatever follows the record. -/
lemma leField_flatten {parts : List Bytes} (i : ℕ) (hi : parts[i]? = some (leBytes k n))
    (hoff : (parts.take i).flatten.length = off) (hn : n < 256 ^ k) (h : off + k ≤ len)
    (x : Bytes) :
    leField k (slice (parts.flatten ++ x) 0 len) off = n := by
  subst hoff
  rw [flatten_split hi, List.append_assoc, List.append_assoc]
  exact leField_leBytes hn h

lemma beField_flatten {parts : List Bytes} (i : ℕ) (hi : parts[i]? = some (beBytes k n))
    (hoff : (parts.take i).flatten.length = off) (hn : n < 256 ^ k) (h : off + k ≤ len)
    (x : Bytes) :
    beField k (slice (parts.flatten ++ x) 0 len) off = n := by
  subst hoff
  rw [flatten_split hi, List.append_assoc, List.append_assoc]
  exact beField_beBytes hn h

/-- The first bytes of what was read. -/
lemma take_slice_append (h : a.length ≤ len) : (slice (a ++ c) 0 len).take a.length = a := by
  rw [take_slice _ _ h, slice_append_length]

end ReadFields

/-! ## Records one after the other -/

section Records

variable {ρ σ α : Type} {bytes : ρ → Bytes} {g t : Bytes} {lim : ℕ}

/-- **The rule of records.**  A walk that passes each record, with fuel for it and up to a limit,
passes all of them. -/
lemma exists_walk_records (walk : ℕ → ℕ → σ → α) {records : List ρ}
    (hstep : ∀ r ∈ records, ∀ fuel pos s x, g.drop pos = bytes r ++ x →
      pos + (bytes r).length ≤ lim →
      ∃ s', walk (fuel + 1) pos s = walk fuel (pos + (bytes r).length) s')
    (fuel : ℕ) {pos : ℕ} (s : σ) (hg : g.drop pos = records.flatMap bytes ++ t)
    (hlim : pos + (records.flatMap bytes).length ≤ lim) :
    ∃ s', walk (fuel + records.length) pos s =
      walk fuel (pos + (records.flatMap bytes).length) s' := by
  induction records generalizing pos s with
  | nil => exact ⟨s, rfl⟩
  | cons r rest ih =>
    obtain ⟨hfirst, hothers⟩ := List.forall_mem_cons.1 hstep
    rw [List.flatMap_cons, List.append_assoc] at hg
    rw [List.flatMap_cons, List.length_append] at hlim ⊢
    have hrest : g.drop (pos + (bytes r).length) = rest.flatMap bytes ++ t := by
      rw [← List.drop_drop, hg, List.drop_left]
    obtain ⟨s₁, h₁⟩ := hfirst (fuel + rest.length) pos s _ hg (by omega)
    obtain ⟨s₂, h₂⟩ := ih hothers s₁ hrest (by omega)
    refine ⟨s₂, ?_⟩
    rw [List.length_cons, ← Nat.add_assoc, h₁, h₂, Nat.add_assoc]

end Records
end Reclaim

/-!
## Fields of a record inside a buffer

A record begins somewhere in a buffer and is written part by part.  A field of it is what its part
wrote, whatever comes before and behind the record.
-/

namespace Reclaim

open FileBytes

section Fields

variable {k n off pos : ℕ}

lemma leField_drop (hk : 0 < k) (b : Bytes) :
    leField k (b.drop pos) off = leField k b (pos + off) := by
  unfold leField
  rw [List.length_drop, List.drop_drop]
  by_cases h : pos + off + k ≤ b.length
  · rw [if_pos h, if_pos (by omega)]
  · rw [if_neg h, if_neg (by omega)]

lemma beField_drop (hk : 0 < k) (b : Bytes) :
    beField k (b.drop pos) off = beField k b (pos + off) := by
  unfold beField
  rw [List.length_drop, List.drop_drop]
  by_cases h : pos + off + k ≤ b.length
  · rw [if_pos h, if_pos (by omega)]
  · rw [if_neg h, if_neg (by omega)]

variable {parts : List Bytes} {x : Bytes}

/-- **A part is read back** from what is written part by part. -/
lemma take_drop_parts (i : ℕ) {p : Bytes} (hi : parts[i]? = some p)
    (hoff : (parts.take i).flatten.length = off) :
    off + p.length ≤ (parts.flatten ++ x).length ∧
      ((parts.flatten ++ x).drop off).take p.length = p := by
  subst hoff
  rw [flatten_split hi]
  constructor
  · simp only [List.length_append]
    omega
  · rw [List.append_assoc, List.drop_left, List.append_assoc, List.take_left]

/-- A part of one byte. -/
lemma byteAt_parts (i : ℕ) {b : UInt8} (hi : parts[i]? = some [b])
    (hoff : (parts.take i).flatten.length = off) : byteAt parts.flatten off = b := by
  subst hoff
  rw [flatten_split hi, byteAt_append, if_neg (by simp), byteAt_append]
  simp [byteAt]

lemma leField_parts (i : ℕ) (hi : parts[i]? = some (leBytes k n))
    (hoff : (parts.take i).flatten.length = off) (hn : n < 256 ^ k) :
    leField k (parts.flatten ++ x) off = n := by
  obtain ⟨hlen, hpart⟩ := take_drop_parts (x := x) i hi hoff
  rw [length_leBytes] at hlen hpart
  rw [leField, if_pos hlen, hpart, leValue_leBytes hn]

lemma beField_parts (i : ℕ) (hi : parts[i]? = some (beBytes k n))
    (hoff : (parts.take i).flatten.length = off) (hn : n < 256 ^ k) :
    beField k (parts.flatten ++ x) off = n := by
  obtain ⟨hlen, hpart⟩ := take_drop_parts (x := x) i hi hoff
  rw [length_beBytes] at hlen hpart
  rw [beField, if_pos hlen, hpart, leValue_beBytes k n hn]

/-- A range of a part. -/
lemma getRange_parts (i : ℕ) {p : Bytes} (hi : parts[i]? = some p)
    (hoff : (parts.take i).flatten.length = pos) (h : off + n ≤ p.length) :
    getRange parts.flatten (pos + off) n = some ((p.drop off).take n) := by
  subst hoff
  have hdrop : ((parts.take i).flatten ++ (p ++ (parts.drop (i + 1)).flatten)).drop
      ((parts.take i).flatten.length + off) = p.drop off ++ (parts.drop (i + 1)).flatten := by
    rw [← List.drop_drop, List.drop_left, List.drop_append_of_le_length (by omega)]
  rw [flatten_split hi, getRange, if_pos (by simp only [List.length_append]; omega), hdrop,
    List.take_append_of_le_length (by rw [List.length_drop]; omega)]

/-- Records of one width, one behind the other: from the place of one on, it comes first. -/
lemma drop_flatMap {α : Type} {bytes : α → Bytes} {w : ℕ} (hw : ∀ a, (bytes a).length = w)
    {as : List α} {i : ℕ} {a : α} (ha : as[i]? = some a) (rest : Bytes) :
    ∃ x, (as.flatMap bytes ++ rest).drop (i * w) = bytes a ++ x := by
  induction as generalizing i with
  | nil => cases ha
  | cons first as ih =>
    rw [List.flatMap_cons, List.append_assoc]
    cases i with
    | zero =>
      obtain rfl := Option.some.inj ha
      rw [Nat.zero_mul, List.drop_zero]
      exact ⟨_, rfl⟩
    | succ i =>
      rw [Nat.succ_mul, Nat.add_comm, ← List.drop_drop, List.drop_left' (hw first)]
      exact ih ha

end Fields
end Reclaim
