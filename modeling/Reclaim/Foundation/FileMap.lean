import Reclaim.Foundation.FileBytes

/-!
# File maps

A file map says where the bytes of a file are: a list of pieces in logical order, each either stored
at an address or a hole.  The file's content is what its pieces say, a hole and everything between
and behind the pieces reading as zeros.

A reader that concatenates the pieces it takes, without their places, gives the content back exactly
when no byte of the file lies in a hole or in a piece that the reader leaves out or misplaces.
-/

namespace Reclaim
namespace FileMap

open FileBytes

/-- A run of consecutive bytes of a file. -/
structure Piece where
  /-- First byte of the file it holds. -/
  start : ℕ
  len : ℕ
  /-- The address of its first byte. -/
  addr : ℕ
  /-- It has been written; a piece that has not reads as zeros. -/
  stored : Bool
  /-- Where a reader takes it from. -/
  taken : ℕ
  deriving DecidableEq, Repr

namespace Piece

/-- The piece holds the byte `i` of the file. -/
def Holds (p : Piece) (i : ℕ) : Prop := p.start ≤ i ∧ i < p.start + p.len

instance (p : Piece) (i : ℕ) : Decidable (p.Holds i) := inferInstanceAs (Decidable (_ ∧ _))

/-- The piece is stored, and taken from where it is. -/
def Sound (p : Piece) : Prop := p.stored = true ∧ p.taken = p.addr

instance (p : Piece) : Decidable p.Sound := inferInstanceAs (Decidable (_ ∧ _))

end Piece

/-- The pieces follow one another. -/
def Ordered (ps : List Piece) : Prop := ps.Pairwise fun p q => p.start + p.len ≤ q.start

instance (ps : List Piece) : Decidable (Ordered ps) :=
  inferInstanceAs (Decidable (List.Pairwise ..))

/-- Byte `i` of the file is the one at the address `a`. -/
def Places (ps : List Piece) (i a : ℕ) : Prop :=
  ∃ p ∈ ps, p.stored = true ∧ p.Holds i ∧ a = p.addr + (i - p.start)

/-- The bytes are the first `n` of the mapped file, on a volume with the bytes `v`. -/
structure IsContent (ps : List Piece) (n : ℕ) (v : ℕ → UInt8) (f : Bytes) : Prop where
  length_eq : f.length = n
  stored : ∀ i < n, ∀ a, Places ps i a → byteAt f i = v a
  hole : ∀ i < n, (∀ a, ¬ Places ps i a) → byteAt f i = 0

/-- The addresses that the pieces are taken from, one after the other. -/
def addresses (ps : List Piece) : List ℕ := ps.flatMap fun p => List.range' p.taken p.len

@[simp] lemma addresses_nil : addresses [] = [] := rfl

@[simp] lemma addresses_cons (p : Piece) (ps : List Piece) :
    addresses (p :: ps) = List.range' p.taken p.len ++ addresses ps := rfl

variable {ps qs : List Piece} {p : Piece} {i a n c : ℕ}

lemma Ordered.tail (h : Ordered (p :: ps)) : Ordered ps := (List.pairwise_cons.1 h).2

/-- A byte is held by one piece. -/
lemma Ordered.eq_of_holds {q : Piece} (hps : Ordered ps) (hp : p ∈ ps) (hq : q ∈ ps)
    (hpi : p.Holds i) (hqi : q.Holds i) : p = q := by
  by_contra hne
  let R : Piece → Piece → Prop := fun x y => x.start + x.len ≤ y.start ∨ y.start + y.len ≤ x.start
  have : Std.Symm R := ⟨fun _ _ h => h.symm⟩
  have hR : ps.Pairwise R := hps.imp Or.inl
  have := hR.forall hp hq hne
  unfold Piece.Holds at hpi hqi
  omega

/-- A byte is in one place. -/
lemma Places.unique (hps : Ordered ps) {b : ℕ} (ha : Places ps i a) (hb : Places ps i b) :
    a = b := by
  obtain ⟨p, hp, -, hpi, rfl⟩ := ha
  obtain ⟨q, hq, -, hqi, rfl⟩ := hb
  rw [hps.eq_of_holds hp hq hpi hqi]

/-- A first piece that does not hold the byte says nothing of it. -/
lemma places_cons_of_not_holds (h : ¬ p.Holds i) : Places (p :: ps) i a ↔ Places ps i a := by
  constructor
  · rintro ⟨q, hq, hs, hqi, rfl⟩
    rcases List.mem_cons.1 hq with rfl | hq
    · exact absurd hqi h
    · exact ⟨q, hq, hs, hqi, rfl⟩
  · rintro ⟨q, hq, hs, hqi, rfl⟩
    exact ⟨q, List.mem_cons_of_mem _ hq, hs, hqi, rfl⟩

/-- What a map says is a matter of its pieces, not of their order. -/
lemma places_congr (h : ∀ p, p ∈ ps ↔ p ∈ qs) : Places ps i a ↔ Places qs i a := by
  unfold Places
  simp only [h]

lemma IsContent.congr {v : ℕ → UInt8} {f : Bytes} (h : ∀ p, p ∈ ps ↔ p ∈ qs)
    (hf : IsContent ps n v f) : IsContent qs n v f :=
  ⟨hf.length_eq, fun i hi a ha => hf.stored i hi a ((places_congr h).2 ha),
    fun i hi hn => hf.hole i hi fun a ha => hn a ((places_congr h).1 ha)⟩

/-! ## Reading the pieces one after the other -/

/-- The addresses `l` are those of the `n` bytes from byte `c` on. -/
def Follows (ps : List Piece) (c n : ℕ) (l : List ℕ) : Prop :=
  l.length = n ∧ ∀ k, ∀ h : k < l.length, Places ps (c + k) l[k]

lemma follows_append {m k : ℕ} {l l' : List ℕ} (h : l.length = m) :
    Follows ps c (m + k) (l ++ l') ↔ Follows ps c m l ∧ Follows ps (c + m) k l' := by
  subst h
  unfold Follows
  simp only [List.length_append, Nat.add_left_cancel_iff, true_and]
  refine ⟨fun ⟨hk, hat⟩ => ⟨fun j hj => ?_, hk, fun j hj => ?_⟩, fun ⟨hl, hk, hl'⟩ =>
    ⟨hk, fun j hj => ?_⟩⟩
  · simpa [List.getElem_append, hj] using hat j (by omega)
  · simpa [List.getElem_append, Nat.add_assoc] using hat (l.length + j) (by omega)
  · rw [List.getElem_append]
    split
    · exact hl j ‹_›
    · have := hl' (j - l.length) (by omega)
      rwa [show c + l.length + (j - l.length) = c + j by omega] at this

lemma follows_congr {l : List ℕ} (h : ∀ j, c ≤ j → ∀ b, Places ps j b ↔ Places qs j b) :
    Follows ps c n l ↔ Follows qs c n l := by
  unfold Follows
  refine and_congr_right fun _ => forall_congr' fun k => forall_congr' fun _ => ?_
  exact h (c + k) (by omega) _

/-- The bytes of a first piece follow each other at the place it is taken from if and only if it is
stored there. -/
lemma follows_range' (hps : Ordered (p :: ps)) {m : ℕ} (hm : 0 < m) (hmp : m ≤ p.len) :
    Follows (p :: ps) p.start m (List.range' p.taken m) ↔ p.Sound := by
  have hself : ∀ k < m, p.Holds (p.start + k) := fun k hk => ⟨by omega, by omega⟩
  constructor
  · rintro ⟨-, h⟩
    obtain ⟨q, hq, hs, hqi, ha⟩ := h 0 (by simpa using hm)
    obtain rfl := hps.eq_of_holds hq List.mem_cons_self hqi (hself 0 hm)
    refine ⟨hs, ?_⟩
    simpa using ha
  · rintro ⟨hs, ht⟩
    refine ⟨by simp, fun k hk => ⟨p, List.mem_cons_self, hs, ?_, ?_⟩⟩
    · exact hself k (by simpa using hk)
    · simp [ht]

/-- Every byte from `c` to `c + n` is in one of the pieces, which is sound. -/
def Covered (qs : List Piece) (c n : ℕ) : Prop :=
  ∀ i, c ≤ i → i < c + n → ∃ p ∈ qs, p.Sound ∧ p.Holds i

lemma covered_zero : Covered qs c 0 := fun _ _ _ => absurd ‹_› (by omega)

/-- A piece that holds nothing covers nothing. -/
lemma covered_cons_of_len_eq_zero (hp : p.len = 0) :
    Covered (p :: qs) c n ↔ Covered qs c n := by
  refine forall_congr' fun i => forall_congr' fun _ => forall_congr' fun _ => ?_
  simp only [List.mem_cons, exists_eq_or_imp]
  apply or_iff_right
  intro h
  have := h.2
  unfold Piece.Holds at this
  omega

/-- Inside the first piece. -/
lemma covered_cons_of_le (hord : Ordered (p :: qs)) (hn : 0 < n) (h : n ≤ p.len) :
    Covered (p :: qs) p.start n ↔ p.Sound := by
  constructor
  · intro hcov
    obtain ⟨q, hq, hs, hi⟩ := hcov p.start le_rfl (by omega)
    obtain rfl := hord.eq_of_holds hq List.mem_cons_self hi ⟨le_rfl, by omega⟩
    exact hs
  · intro hs i hi hin
    exact ⟨p, List.mem_cons_self, hs, hi, by omega⟩

/-- Beyond the first piece. -/
lemma covered_cons_add (hord : Ordered (p :: qs)) (hp : 0 < p.len) :
    Covered (p :: qs) p.start (p.len + n) ↔ p.Sound ∧ Covered qs (p.start + p.len) n := by
  constructor
  · intro hcov
    refine ⟨(covered_cons_of_le hord hp le_rfl).1 fun i hi hin => hcov i hi (by omega),
      fun i hi hin => ?_⟩
    obtain ⟨q, hq, hs, hqi⟩ := hcov i (by omega) (by omega)
    rcases List.mem_cons.1 hq with rfl | hq
    · exact absurd hqi.2 (by omega)
    · exact ⟨q, hq, hs, hqi⟩
  · rintro ⟨hs, hcov⟩ i hi hin
    by_cases hlt : i < p.start + p.len
    · exact ⟨p, List.mem_cons_self, hs, hi, hlt⟩
    · obtain ⟨q, hq, h⟩ := hcov i (by omega) (by omega)
      exact ⟨q, List.mem_cons_of_mem _ hq, h⟩

/-- A byte at or before a first piece that is not stored there is not stored at all. -/
lemma not_stored_at (hord : Ordered (p :: qs)) (hp : 0 < p.len) (hge : c ≤ p.start)
    (h : ¬ (p.start = c ∧ p.stored = true)) :
    ¬ ∃ q ∈ p :: qs, q.stored = true ∧ q.Holds c := by
  rintro ⟨q, hq, hs, hqc⟩
  have hlater := (List.pairwise_cons.1 hord).1
  rcases List.mem_cons.1 hq with rfl | hq
  · exact h ⟨le_antisymm hqc.1 hge, hs⟩
  · have := hlater q hq
    have := hqc.1
    omega

/-- A list of pieces of which a reader takes those that `keep` lets pass: what it reads is what the
map says exactly if all of it is in sound pieces.  The pieces `rs` behind are not read. -/
theorem follows_take_iff {keep : Piece → Bool} (hkeep : ∀ p, p.stored = true → keep p = true)
    (qs rs : List Piece) :
    ∀ c n, Ordered (qs ++ rs) → (∀ p ∈ qs ++ rs, c ≤ p.start) →
      (Follows (qs ++ rs) c n ((addresses (qs.filter keep)).take n) ↔ Covered qs c n) := by
  induction qs with
  | nil =>
    intro c n _ _
    rcases Nat.eq_zero_or_pos n with rfl | hn
    · exact ⟨fun _ => covered_zero, fun _ => ⟨by simp, by simp⟩⟩
    · constructor
      · rintro ⟨hlen, -⟩
        simp at hlen
        omega
      · intro h
        obtain ⟨p, hp, -⟩ := h c le_rfl (by omega)
        simp at hp
  | cons p qs ih =>
    intro c n hord hge
    rw [List.cons_append] at hord hge ⊢
    have hordq : Ordered (p :: qs) := hord.sublist ((List.sublist_append_left qs rs).cons_cons p)
    rcases Nat.eq_zero_or_pos n with rfl | hn
    · exact ⟨fun _ => covered_zero, fun _ => ⟨by simp, by simp⟩⟩
    rcases Nat.eq_zero_or_pos p.len with hzero | hpos
    · -- an empty piece holds nothing and adds nothing
      have hnot : ∀ j, ¬ p.Holds j := fun j hj => by
        unfold Piece.Holds at hj
        omega
      have haddr : addresses ((p :: qs).filter keep) = addresses (qs.filter keep) := by
        rw [List.filter_cons]
        split
        · simp [hzero]
        · rfl
      rw [haddr, follows_congr fun j _ b => places_cons_of_not_holds (hnot j),
        ih c n hord.tail fun q hq => hge q (List.mem_cons_of_mem _ hq),
        covered_cons_of_len_eq_zero hzero]
    by_cases hfirst : p.start = c ∧ p.stored = true
    · obtain ⟨rfl, hst⟩ := hfirst
      rw [List.filter_cons_of_pos (hkeep p hst), addresses_cons, List.take_append,
        List.length_range']
      by_cases hle : n ≤ p.len
      · rw [List.take_range'_of_length_ge hle, Nat.sub_eq_zero_of_le hle, List.take_zero,
          List.append_nil, follows_range' hord hn hle, covered_cons_of_le hordq hn hle]
      · obtain ⟨k, rfl⟩ := Nat.exists_eq_add_of_le (Nat.le_of_not_le hle)
        have hrest : ∀ j, p.start + p.len ≤ j → ∀ b,
            Places (p :: (qs ++ rs)) j b ↔ Places (qs ++ rs) j b := fun j hj b =>
          places_cons_of_not_holds fun h => absurd h.2 (by omega)
        rw [List.take_range'_of_length_le (by omega), Nat.add_sub_cancel_left,
          follows_append (List.length_range' ..), follows_range' hord hpos le_rfl,
          follows_congr hrest, covered_cons_add hordq hpos,
          ih (p.start + p.len) k hord.tail (List.pairwise_cons.1 hord).1]
    · -- byte `c` is in no stored piece
      have hc := not_stored_at hord hpos (hge p List.mem_cons_self) hfirst
      constructor
      · rintro ⟨hlen, hat⟩
        obtain ⟨q, hq, hs, hqc, -⟩ := hat 0 (by omega)
        exact absurd ⟨q, hq, hs, hqc⟩ hc
      · intro hcov
        obtain ⟨q, hq, hs, hqc⟩ := hcov c le_rfl (by omega)
        refine absurd ⟨q, ?_, hs.1, hqc⟩ hc
        rw [← List.cons_append]
        exact List.mem_append_left _ hq

/-! ## Whatever the volume holds -/

/-- Bytes read at the addresses are the file's whatever the volume holds exactly if the addresses
are those of its bytes. -/
theorem isContent_map_iff (hps : Ordered ps) {l : List ℕ} :
    (∀ v : ℕ → UInt8, IsContent ps n v (l.map v)) ↔ Follows ps 0 n l := by
  constructor
  · intro h
    have hlen : l.length = n := by simpa using (h fun _ => 0).length_eq
    refine ⟨hlen, fun k hk => ?_⟩
    rw [Nat.zero_add]
    have hbyte : ∀ v : ℕ → UInt8, byteAt (l.map v) k = v l[k] := fun v => by
      simp [byteAt, hk]
    have hsome : ∃ a, Places ps k a := by
      by_contra hnone
      have := (h fun _ => 1).hole k (by omega) (not_exists.1 hnone)
      rw [hbyte] at this
      exact absurd this (by decide)
    obtain ⟨a, ha⟩ := hsome
    -- a volume that tells the address `a` from all others
    have := (h fun x => if x = a then 1 else 0).stored k (by omega) a ha
    rw [hbyte] at this
    by_cases hka : l[k] = a
    · exact hka ▸ ha
    · simp [hka] at this
  · rintro ⟨hlen, hat⟩ v
    have hbyte : ∀ k, ∀ h : k < l.length, byteAt (l.map v) k = v l[k] := fun k h => by
      simp [byteAt, h]
    have hplace : ∀ k, ∀ h : k < l.length, Places ps k l[k] := fun k h => by
      simpa using hat k h
    refine ⟨by simpa using hlen, fun k hk a ha => ?_, fun k hk hnone => ?_⟩
    · rw [hbyte k (by omega), (hplace k (by omega)).unique hps ha]
    · exact absurd (hplace k (by omega)) (hnone _)

/-- Concatenating the pieces that are kept gives the content back, whatever the volume holds,
exactly if every byte is in a sound piece among those read. -/
theorem isContent_addresses_iff (keep : Piece → Bool)
    (hkeep : ∀ p, p.stored = true → keep p = true) (qs rs : List Piece) (n : ℕ)
    (hord : Ordered (qs ++ rs)) :
    (∀ v : ℕ → UInt8,
      IsContent (qs ++ rs) n v (((addresses (qs.filter keep)).take n).map v)) ↔
        Covered qs 0 n := by
  rw [isContent_map_iff hord, follows_take_iff hkeep qs rs 0 n hord fun _ _ => Nat.zero_le _]

/-- The same with another cut than the size: it has to leave the file its length. -/
theorem isContent_take_iff (keep : Piece → Bool)
    (hkeep : ∀ p, p.stored = true → keep p = true) (qs rs : List Piece) (n m : ℕ)
    (hord : Ordered (qs ++ rs)) :
    (∀ v : ℕ → UInt8,
      IsContent (qs ++ rs) n v (((addresses (qs.filter keep)).take m).map v)) ↔
        Covered qs 0 n ∧ min m (addresses (qs.filter keep)).length = n := by
  rw [isContent_map_iff hord,
    ← follows_take_iff hkeep qs rs 0 n hord fun _ _ => Nat.zero_le _]
  set l := addresses (qs.filter keep)
  have hcut : min m l.length = n → l.take m = l.take n := fun h => by
    rw [List.take_eq_take_iff]
    omega
  constructor
  · intro h
    have hlen : min m l.length = n := by simpa using h.1
    exact ⟨hcut hlen ▸ h, hlen⟩
  · rintro ⟨h, hlen⟩
    rwa [hcut hlen]

/-- What is covered is read in full. -/
lemma Covered.le_length {keep : Piece → Bool} (hkeep : ∀ p, p.stored = true → keep p = true)
    (hord : Ordered qs) (h : Covered qs 0 n) : n ≤ (addresses (qs.filter keep)).length := by
  have hf := (follows_take_iff hkeep qs [] 0 n (by simpa using hord)
    fun _ _ => Nat.zero_le _).2 h
  have hlen := hf.1
  rw [List.length_take] at hlen
  omega

/-! ## Cutting a map to a size -/

/-- The pieces, cut to the first `n` bytes of the file. -/
def clip (n : ℕ) (ps : List Piece) : List Piece :=
  ps.map fun p => { p with len := min p.len (n - p.start) }

lemma ordered_clip (h : Ordered ps) : Ordered (clip n ps) := by
  refine List.Pairwise.map _ ?_ h
  intro p q hpq
  show p.start + min p.len _ ≤ q.start
  omega

lemma holds_clip (hi : i < n) :
    ({ p with len := min p.len (n - p.start) } : Piece).Holds i ↔ p.Holds i := by
  simp only [Piece.Holds]
  omega

lemma places_clip (hi : i < n) : Places (clip n ps) i a ↔ Places ps i a := by
  unfold Places clip
  simp only [List.mem_map, exists_exists_and_eq_and, holds_clip hi]

lemma isContent_clip {v : ℕ → UInt8} {f : Bytes} :
    IsContent (clip n ps) n v f ↔ IsContent ps n v f := by
  constructor
  · rintro ⟨hlen, hs, hh⟩
    exact ⟨hlen, fun i hi a ha => hs i hi a ((places_clip hi).2 ha),
      fun i hi h => hh i hi fun a ha => h a ((places_clip hi).1 ha)⟩
  · rintro ⟨hlen, hs, hh⟩
    exact ⟨hlen, fun i hi a ha => hs i hi a ((places_clip hi).1 ha),
      fun i hi h => hh i hi fun a ha => h a ((places_clip hi).2 ha)⟩

lemma covered_clip : Covered (clip n ps) 0 n ↔ Covered ps 0 n := by
  refine forall_congr' fun i => forall_congr' fun _ => forall_congr' fun hi => ?_
  unfold clip
  simp only [List.mem_map, exists_exists_and_eq_and]
  exact exists_congr fun p => and_congr_right fun _ =>
    and_congr_right fun _ => holds_clip (by omega)

/-- Ordered pieces between `c` and `n` have no more than `n - c` addresses. -/
lemma length_addresses_le (keep : Piece → Bool) :
    ∀ c, Ordered ps → (∀ p ∈ ps, c ≤ p.start) → (∀ p ∈ ps, p.len ≤ n - p.start) →
      (addresses (ps.filter keep)).length ≤ n - c := by
  induction ps with
  | nil => simp
  | cons p ps ih =>
    intro c hord hge hle
    have hrest := ih (p.start + p.len) hord.tail (List.pairwise_cons.1 hord).1
      fun q hq => hle q (List.mem_cons_of_mem _ hq)
    have hp := hge p List.mem_cons_self
    have hlen := hle p List.mem_cons_self
    rw [List.filter_cons]
    split
    · rw [addresses_cons, List.length_append, List.length_range']
      omega
    · omega

end FileMap
end Reclaim
