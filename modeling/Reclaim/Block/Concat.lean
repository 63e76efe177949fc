import Reclaim.Block.MappedRight

/-!
# Parts end to end

A `ConcatSource` presents several sources as one.  Each of them counts up to its last whole sector,
and all are taken to have the sector size of the first.

Where they do, `concatenates` says that the parts so cut are read one behind the other, each sector
good where its part reports it good.
-/

namespace Reclaim

open FileBytes

variable {σ : Type}

/-- A part, and where it begins in the whole. -/
structure ConcatPart (σ : Type) where
  src : BlockSource σ
  start : ℕ
  len : ℕ

/-- Several sources presented end to end. -/
structure ConcatSource (σ : Type) where
  parts : List (ConcatPart σ)
  total : ℕ
  sectorSize : ℕ
  id : String

namespace ConcatSource

/-- What counts of a part. -/
def clamped (ss : ℕ) (p : BlockSource σ) : ℕ := p.len - p.len % ss

/-- A part goes behind the others, if anything counts of it. -/
def addPart (ss : ℕ) (acc : List (ConcatPart σ) × ℕ) (p : BlockSource σ) :
    List (ConcatPart σ) × ℕ :=
  if clamped ss p = 0 then acc
  else (acc.1 ++ [⟨p, acc.2, clamped ss p⟩], saturatingAdd acc.2 (clamped ss p))

/-- The sector size of the first part. -/
def sectorOf (parts : List (BlockSource σ)) : ℕ := (parts.head?.map BlockSource.sector).getD 512

/-- `ConcatSource::new`. -/
def new (parts : List (BlockSource σ)) (id : String) : ConcatSource σ :=
  let ss := sectorOf parts
  let list := parts.foldl (addPart ss) ([], 0)
  ⟨list.1, list.2, ss, id⟩

/-- The statuses of a part's sectors that are not good, in the result of the whole. -/
def propagate (ss done : ℕ) (r res : ReadResult) : ReadResult :=
  if r.anyBad || r.anyUnread then
    (List.range r.sectorCount).foldl
      (fun res i => if r.status i ≠ .good then markBadRange res ss (done + i * ss) ss else res) res
  else res

/-- The part that has a position; its end is a `u64`. -/
def partAt (c : ConcatSource σ) (cur : ℕ) : Option (ConcatPart σ) :=
  c.parts.find? fun p => decide (p.start ≤ cur ∧ cur < (p.start + p.len) % 2 ^ 64)

/-- The loop of `read_at`: what has been put in so far, from `done` on. -/
def readLoop (c : ConcatSource σ) (off total : ℕ) :
    ℕ → ℕ → Bytes × ReadResult → σ → (Bytes × ReadResult) × σ
  | 0, _, acc, s => (acc, s)
  | fuel + 1, done, acc, s =>
    if done < total then
      let cur := saturatingAdd off done
      let rest := markBadRange acc.2 c.sectorSize done (total - done)
      if c.total ≤ cur then ((acc.1, rest), s)
      else
        match c.partAt cur with
        | none => ((acc.1, rest), s)
        | some part =>
          let within := cur - part.start
          let want := min (part.len - within) (total - done)
          let r := part.src.readAt s within want
          c.readLoop off total fuel (done + want)
            (acc.1 ++ r.1.buf, propagate c.sectorSize done r.1.result acc.2) r.2
    else (acc, s)

/-- `read_at`. -/
def readAt (c : ConcatSource σ) (s : σ) (off n : ℕ) : ReadOutcome × σ :=
  let ss := c.sectorSize
  let count := divCeil n ss
  if n = 0 then (⟨[], ReadResult.good ss count⟩, s)
  else if ¬ ss ∣ off ∨ c.total ≤ off then (⟨List.replicate n 0, ReadResult.allBad ss count⟩, s)
  else
    let r := c.readLoop off n n 0 ([], ReadResult.good ss count) s
    (⟨r.1.1 ++ List.replicate (n - r.1.1.length) 0, r.1.2⟩, r.2)

end ConcatSource

/-! ## Parts with one sector size -/

/-- Parts that share the sector size of the first, and of which no more counts than a `u64`
holds. -/
structure PartList (σ : Type) where
  parts : List ((p : BlockSource σ) × Sectorwise p)
  id : String
  shared : ∀ p ∈ parts, p.1.sector = ConcatSource.sectorOf (parts.map (·.1))
  fits : (parts.map fun p => ConcatSource.clamped p.1.sector p.1).sum ≤ u64Max

/-- The byte that some parts have for a position, if it can be had. -/
def joinedByte (ss : ℕ) : List ((p : BlockSource σ) × Sectorwise p) → ℕ → Option UInt8
  | [], _ => none
  | p :: rest, x =>
    if x < ConcatSource.clamped ss p.1 then p.2.byte x
    else joinedByte ss rest (x - ConcatSource.clamped ss p.1)

namespace PartList

variable (l : PartList σ)

/-- The source of the parts. -/
def source : ConcatSource σ := ConcatSource.new (l.parts.map (·.1)) l.id

/-- The shared sector size. -/
def sector : ℕ := ConcatSource.sectorOf (l.parts.map (·.1))

/-- The byte of the whole at a position, if it can be had. -/
def byte (x : ℕ) : Option UInt8 := joinedByte l.sector l.parts x

/-- How much there is. -/
def length : ℕ := (l.parts.map fun p => ConcatSource.clamped l.sector p.1).sum

/-- The whole is the parts end to end: it has their length, and an aligned read has every byte that
can be had where it belongs, in sectors good exactly where it can. -/
structure Concatenates : Prop where
  total : l.source.total = l.length
  filled : ∀ s off n, l.sector ∣ off → (l.source.readAt s off n).1.buf.length = n
  bytes : ∀ s off n, l.sector ∣ off → ∀ k < n,
    byteAt (l.source.readAt s off n).1.buf k = (l.byte (off + k)).getD 0
  good : ∀ s off n, l.sector ∣ off → ∀ k < n,
    ((l.source.readAt s off n).1.result.status (k / l.sector) = .good ↔
      (l.byte (off + k)).isSome = true)

end PartList

/-! ## Looking up parts -/

namespace ConcatSource

/-- The parts from a position on. -/
def placed (ss : ℕ) : ℕ → List (BlockSource σ) → List (ConcatPart σ)
  | _, [] => []
  | cur, p :: rest =>
    if clamped ss p = 0 then placed ss cur rest
    else ⟨p, cur, clamped ss p⟩ :: placed ss (cur + clamped ss p) rest

/-- While the sum of the lengths is a `u64`, every part begins where the last one ends. -/
lemma foldl_addPart (ss : ℕ) (parts : List (BlockSource σ)) : ∀ acc : List (ConcatPart σ) × ℕ,
    acc.2 + (parts.map (clamped ss)).sum ≤ u64Max →
      parts.foldl (addPart ss) acc =
        (acc.1 ++ placed ss acc.2 parts, acc.2 + (parts.map (clamped ss)).sum) := by
  induction parts with
  | nil =>
    intro acc _
    simp [placed]
  | cons p rest ih =>
    intro acc h
    rw [List.map_cons, List.sum_cons] at h
    rw [List.foldl_cons, addPart, placed, List.map_cons, List.sum_cons]
    by_cases hzero : clamped ss p = 0
    · rw [if_pos hzero, if_pos hzero, ih acc (by omega), hzero, Nat.zero_add]
    · have hsat : saturatingAdd acc.2 (clamped ss p) = acc.2 + clamped ss p :=
        min_eq_left (by omega)
      rw [if_neg hzero, if_neg hzero, hsat, ih _ (by dsimp only; omega)]
      simp [Nat.add_assoc]

/-- The part that is found at a position has the bytes of the whole there. -/
lemma find_placed (ss : ℕ) (l : List ((p : BlockSource σ) × Sectorwise p)) : ∀ cur x, cur ≤ x →
    x < cur + (l.map fun p => clamped ss p.1).sum →
    cur + (l.map fun p => clamped ss p.1).sum ≤ u64Max → ∃ p ∈ l, ∃ start,
      (placed ss cur (l.map (·.1))).find? (fun q =>
        decide (q.start ≤ x ∧ x < (q.start + q.len) % 2 ^ 64)) =
          some ⟨p.1, start, clamped ss p.1⟩ ∧
      start ≤ x ∧ x < start + clamped ss p.1 ∧ (ss ∣ cur → ss ∣ start) ∧ cur ≤ start ∧
      ∀ y, start ≤ y → y < start + clamped ss p.1 →
        joinedByte ss l (y - cur) = p.2.byte (y - start) := by
  induction l with
  | nil =>
    intro cur x hle hlt _
    simp only [List.map_nil, List.sum_nil] at hlt
    omega
  | cons p l ih =>
    intro cur x hle hlt hfits
    rw [List.map_cons, List.sum_cons] at hlt hfits
    have hu : u64Max < 2 ^ 64 := by decide
    have hdvd : ss ∣ clamped ss p.1 := Nat.dvd_sub_mod _
    rw [List.map_cons, placed]
    by_cases hin : x < cur + clamped ss p.1
    · have hne : clamped ss p.1 ≠ 0 := by omega
      refine ⟨p, List.mem_cons_self, cur, ?_, hle, hin, fun hd => hd, le_rfl, fun y hy hlt => ?_⟩
      · rw [if_neg hne, List.find?_cons_of_pos]
        exact decide_eq_true ⟨hle, by rw [Nat.mod_eq_of_lt (by dsimp only; omega)]; exact hin⟩
      · rw [joinedByte, if_pos (by omega)]
    · obtain ⟨q, hq, start, hfind, h1, h2, h3, h4, h5⟩ := ih (cur + clamped ss p.1) x
        (not_lt.1 hin) (by omega) (by omega)
      refine ⟨q, List.mem_cons_of_mem p hq, start, ?_, h1, h2, fun hd => h3 (hd.add hdvd), by omega,
        fun y hy hlt => ?_⟩
      · split
        · rename_i hzero
          rw [hzero, Nat.add_zero] at hfind
          exact hfind
        · rw [List.find?_cons_of_neg]
          · exact hfind
          · rw [decide_eq_true_eq, Nat.mod_eq_of_lt (by dsimp only; omega)]
            exact fun h => hin h.2
      · rw [joinedByte, if_neg (by omega), ← h5 y hy hlt, Nat.sub_add_eq]

/-! ## Statuses -/

/-- The sectors that are marked for a part are those it does not report good. -/
lemma status_propagate {ss done : ℕ} (hss : 0 < ss) (hdone : ss ∣ done) (r res : ReadResult) {j : ℕ}
    (hj : j < res.sectorCount) :
    ((propagate ss done r res).status j = .bad ↔ res.status j = .bad ∨
      ∃ i < r.sectorCount, r.status i ≠ .good ∧ done / ss + i = j) ∧
    (res.status j ≠ .unread → (propagate ss done r res).status j ≠ .unread) := by
  have hsector : ∀ i, (∃ k, done + i * ss ≤ k ∧ k < done + i * ss + ss ∧ k / ss = j) ↔
      done / ss + i = j := by
    intro i
    obtain ⟨q, rfl⟩ := hdone
    rw [Nat.mul_div_cancel_left q hss]
    constructor
    · rintro ⟨k, h1, h2, rfl⟩
      symm
      rw [Nat.div_eq_iff hss, Nat.add_mul, Nat.mul_comm q]
      omega
    · rintro rfl
      refine ⟨ss * q + i * ss, le_rfl, by omega, ?_⟩
      rw [Nat.mul_comm ss q, ← Nat.add_mul, Nat.mul_div_cancel _ hss]
  have hfold : ∀ (is : List ℕ) (res : ReadResult), j < res.sectorCount →
      ((is.foldl (fun res i => if r.status i ≠ .good then markBadRange res ss (done + i * ss) ss
          else res) res).status j = .bad ↔
        res.status j = .bad ∨ ∃ i ∈ is, r.status i ≠ .good ∧ done / ss + i = j) ∧
      (res.status j ≠ .unread → (is.foldl (fun res i => if r.status i ≠ .good then
        markBadRange res ss (done + i * ss) ss else res) res).status j ≠ .unread) := by
    intro is
    induction is with
    | nil => exact fun res _ => ⟨by simp, fun h => h⟩
    | cons i is ih =>
      intro res hj
      rw [List.foldl_cons]
      by_cases hgood : r.status i = .good
      · rw [if_neg (not_not.2 hgood)]
        obtain ⟨h1, h2⟩ := ih res hj
        refine ⟨h1.trans (or_congr_right ?_), h2⟩
        simp [hgood]
      · rw [if_pos hgood]
        obtain ⟨h1, h2⟩ := ih (markBadRange res ss (done + i * ss) ss) (by simpa using hj)
        obtain ⟨h3, h4⟩ : ((markBadRange res ss (done + i * ss) ss).status j = .bad ↔
            res.status j = .bad ∨ ∃ k, done + i * ss ≤ k ∧ k < done + i * ss + ss ∧ k / ss = j) ∧
          (res.status j ≠ .unread → (markBadRange res ss (done + i * ss) ss).status j ≠ .unread) :=
            status_markBadRange hss hj
        refine ⟨h1.trans ?_, fun h => h2 (h4 h)⟩
        rw [h3, hsector]
        simp [hgood, or_assoc]
  unfold propagate
  split
  · obtain ⟨h1, h2⟩ := hfold (List.range r.sectorCount) res hj
    exact ⟨by simpa using h1, h2⟩
  · rename_i hall
    refine ⟨(or_iff_left ?_).symm, fun h => h⟩
    rintro ⟨i, hi, hbad, -⟩
    exact hall (ReadResult.any_of_status_ne_good hbad)

@[simp] lemma sectorCount_propagate (ss done : ℕ) (r res : ReadResult) :
    (propagate ss done r res).sectorCount = res.sectorCount := by
  unfold propagate
  split
  · generalize List.range r.sectorCount = is
    induction is generalizing res with
    | nil => rfl
    | cons i is ih =>
      rw [List.foldl_cons, ih]
      split
      · exact sectorCount_markBadRange ..
      · rfl
  · rfl

end ConcatSource

/-! ## Reading -/

namespace PartList

variable {l : PartList σ}

lemma sector_pos (l : PartList σ) : 0 < l.sector := by
  unfold sector ConcatSource.sectorOf
  cases l.parts.map (·.1) with
  | nil => exact Nat.succ_pos 511
  | cons p _ => exact p.sector_pos

lemma length_le (l : PartList σ) : l.length ≤ u64Max := by
  have heq : l.length = (l.parts.map fun p => ConcatSource.clamped p.1.sector p.1).sum := by
    unfold length
    rw [List.map_congr_left fun p hp => by rw [sector, ← l.shared p hp]]
  rw [heq]
  exact l.fits

lemma source_eq (l : PartList σ) : l.source =
    ⟨ConcatSource.placed l.sector 0 (l.parts.map (·.1)), l.length, l.sector, l.id⟩ := by
  have hsum : ((l.parts.map (·.1)).map (ConcatSource.clamped l.sector)).sum = l.length := by
    rw [List.map_map]
    rfl
  have hfold := ConcatSource.foldl_addPart l.sector (l.parts.map (·.1)) ([], 0) (by
    rw [hsum, Nat.zero_add]
    exact l.length_le)
  rw [hsum, Nat.zero_add, List.nil_append] at hfold
  unfold source ConcatSource.new
  dsimp only
  rw [show ConcatSource.sectorOf (l.parts.map (·.1)) = l.sector from rfl, hfold]

lemma dvd_length (l : PartList σ) : l.sector ∣ l.length :=
  List.dvd_sum fun n hn => by
    obtain ⟨p, -, rfl⟩ := List.mem_map.1 hn
    exact Nat.dvd_sub_mod _

/-- Nothing lies behind the parts. -/
lemma byte_eq_none {x : ℕ} (hx : l.length ≤ x) : l.byte x = none := by
  unfold byte
  unfold length at hx
  generalize l.parts = parts at hx
  induction parts generalizing x with
  | nil => rfl
  | cons p rest ih =>
    rw [List.map_cons, List.sum_cons] at hx
    rw [joinedByte, if_neg (by omega)]
    exact ih (by omega)

/-- The part that a position is found in, and its bytes in the whole. -/
lemma partAt_spec {x : ℕ} (hx : x < l.length) : ∃ p ∈ l.parts, ∃ start,
    l.source.partAt x = some ⟨p.1, start, ConcatSource.clamped l.sector p.1⟩ ∧
    start ≤ x ∧ x < start + ConcatSource.clamped l.sector p.1 ∧ l.sector ∣ start ∧
    ∀ y, start ≤ y → y < start + ConcatSource.clamped l.sector p.1 →
      l.byte y = p.2.byte (y - start) := by
  obtain ⟨p, hp, start, hfind, h1, h2, h3, -, h5⟩ := ConcatSource.find_placed l.sector l.parts 0 x
    (Nat.zero_le x) (by rw [Nat.zero_add]; exact hx) (by rw [Nat.zero_add]; exact l.length_le)
  refine ⟨p, hp, start, ?_, h1, h2, h3 (Nat.dvd_zero _), h5⟩
  rw [source_eq]
  exact hfind

/-- A request is read as far as `done`: every byte that can be had is there, and the sectors in
which one cannot are bad. -/
structure ReadTo (l : PartList σ) (off n done : ℕ) (acc : Bytes × ReadResult) : Prop where
  length : acc.1.length = done
  count : acc.2.sectorCount = divCeil n l.sector
  bytes : ∀ k < done, byteAt acc.1 k = (l.byte (off + k)).getD 0
  bad : ∀ j < divCeil n l.sector, acc.2.status j = .bad ↔
    j * l.sector < done ∧ l.byte (off + j * l.sector) = none
  known : ∀ j < divCeil n l.sector, acc.2.status j ≠ .unread
  boundary : l.sector ∣ done ∨ done = n

/-- **One part more**: what its source answers goes where it belongs. -/
lemma ReadTo.step {off n done : ℕ} {acc : Bytes × ReadResult} (h : l.ReadTo off n done acc)
    (hlt : done < n) (hal : l.sector ∣ off) (hdone : l.sector ∣ done)
    {p : (p : BlockSource σ) × Sectorwise p}
    (hp : p ∈ l.parts) {start want : ℕ} (hstart : l.sector ∣ start) (hle : start ≤ off + done)
    (hwant : want = min (ConcatSource.clamped l.sector p.1 - (off + done - start)) (n - done))
    (hbyte : ∀ y, start ≤ y → y < start + ConcatSource.clamped l.sector p.1 →
      l.byte y = p.2.byte (y - start)) (s : σ) :
    l.ReadTo off n (done + want) (acc.1 ++ (p.1.readAt s (off + done - start) want).1.buf,
      ConcatSource.propagate l.sector done (p.1.readAt s (off + done - start) want).1.result
        acc.2) := by
  have hss := l.sector_pos
  have hsec : p.1.sector = l.sector := l.shared p hp
  have hclamp : ConcatSource.clamped l.sector p.1 ≤ p.1.len := Nat.sub_le _ _
  have hdvd : l.sector ∣ ConcatSource.clamped l.sector p.1 := Nat.dvd_sub_mod _
  set within := off + done - start with hwithin
  have hwal : p.1.sector ∣ within := by
    rw [hsec]
    exact Nat.dvd_sub (hal.add hdone) hstart
  have hin : ∀ k < want, l.byte (off + (done + k)) = p.2.byte (within + k) := by
    intro k hk
    rw [hbyte _ (by omega) (by omega)]
    congr 1
    omega
  have hread : ∀ k < want, within + k < p.1.len := fun k hk => by omega
  have hstatus : ∀ k < want, ((p.1.readAt s within want).1.result.status (k / l.sector) = .good ↔
      (p.2.byte (within + k)).isSome = true) := by
    intro k hk
    have hst := p.2.status s within want hwal (by omega) k hk
    rw [hsec] at hst
    rw [hst, Sectorwise.byte]
    split
    · rename_i hcan
      rw [hsec] at hcan
      exact iff_of_true hcan.2 rfl
    · rename_i hcan
      rw [hsec] at hcan
      exact iff_of_false (fun h => hcan ⟨hread k hk, h⟩) (by simp)
  have hbytes : ∀ k < want, byteAt (p.1.readAt s within want).1.buf k =
      (p.2.byte (within + k)).getD 0 := by
    intro k hk
    cases hb : p.2.byte (within + k) with
    | some b =>
      rw [Sectorwise.byte] at hb
      split at hb
      · rename_i hcan
        rw [p.2.bytes s within want hwal (by omega) k hk hcan.2, Option.some.inj hb]
        rfl
      · cases hb
    | none =>
      have hbad : (p.1.readAt s within want).1.result.status (k / l.sector) ≠ .good := by
        rw [ne_eq, hstatus k hk, hb]
        simp
      apply p.1.zeroFilled s within want (by omega) _ hbad k
      rw [← hsec]
      rfl
  have hcount : (p.1.readAt s within want).1.result.sectorCount = divCeil want l.sector := by
    rw [p.1.sectorCount_eq, ← hsec]
    rfl
  obtain ⟨q, hq⟩ := hdone
  have hquot : done / l.sector = q := by rw [hq, Nat.mul_div_cancel_left _ hss]
  have hplace : ∀ i, (q + i) * l.sector = done + i * l.sector := fun i => by
    rw [Nat.add_mul, hq, Nat.mul_comm q]
  have hnew : ∀ j, (∃ i < (p.1.readAt s within want).1.result.sectorCount,
      (p.1.readAt s within want).1.result.status i ≠ .good ∧ done / l.sector + i = j) ↔
        done ≤ j * l.sector ∧ j * l.sector < done + want ∧ l.byte (off + j * l.sector) = none := by
    intro j
    rw [hcount, hquot]
    constructor
    · rintro ⟨i, hi, hbad, rfl⟩
      have hi' := (lt_divCeil_iff hss).1 hi
      rw [← Nat.mul_div_cancel i hss, ne_eq, hstatus _ hi', ← hin _ hi'] at hbad
      rw [hplace]
      exact ⟨by omega, by omega, by simpa using hbad⟩
    · rintro ⟨h1, h2, hnone⟩
      have hqj : q ≤ j := by
        refine Nat.le_of_mul_le_mul_right ?_ hss
        rw [Nat.mul_comm q, ← hq]
        exact h1
      obtain ⟨i, rfl⟩ := Nat.exists_eq_add_of_le hqj
      rw [hplace] at h2 hnone
      have hi : i * l.sector < want := by omega
      refine ⟨i, (lt_divCeil_iff hss).2 hi, ?_, rfl⟩
      have hst := hstatus _ hi
      rw [Nat.mul_div_cancel i hss, ← hin _ hi, hnone] at hst
      simp [hst]
  refine ⟨?_, ?_, fun k hk => ?_, fun j hj => ?_, fun j hj => ?_, ?_⟩
  · rw [List.length_append, h.length, p.1.filled]
  · rw [ConcatSource.sectorCount_propagate, h.count]
  · rw [byteAt_append, h.length]
    split
    · exact h.bytes k (by assumption)
    · rename_i hge
      obtain ⟨i, rfl⟩ := Nat.exists_eq_add_of_le (not_lt.1 hge)
      rw [Nat.add_sub_cancel_left, hbytes i (by omega), ← hin i (by omega)]
  · rw [(ConcatSource.status_propagate hss ⟨q, hq⟩ _ acc.2 (by rw [h.count]; exact hj)).1,
      h.bad j hj, hnew]
    constructor
    · rintro (⟨h1, hnone⟩ | ⟨-, h2, hnone⟩)
      · exact ⟨by omega, hnone⟩
      · exact ⟨h2, hnone⟩
    · rintro ⟨h2, hnone⟩
      rcases Nat.lt_or_ge (j * l.sector) done with h1 | h1
      · exact .inl ⟨h1, hnone⟩
      · exact .inr ⟨h1, h2, hnone⟩
  · exact (ConcatSource.status_propagate hss ⟨q, hq⟩ _ acc.2 (by rw [h.count]; exact hj)).2
      (h.known j hj)
  · rcases min_cases (ConcatSource.clamped l.sector p.1 - within) (n - done) with
      ⟨heq, -⟩ | ⟨heq, -⟩
    · rw [hwant, heq]
      exact .inl ((Dvd.intro q hq.symm).add (Nat.dvd_sub hdvd (hsec ▸ hwal)))
    · exact .inr (by omega)

/-- A request is read: what can be had is there, the rest is zero, in bad sectors. -/
structure Read (l : PartList σ) (off n : ℕ) (out : Bytes × ReadResult) : Prop where
  length : out.1.length ≤ n
  bytes : ∀ k < n, byteAt out.1 k = (l.byte (off + k)).getD 0
  bad : ∀ j < divCeil n l.sector, out.2.status j = .bad ↔ l.byte (off + j * l.sector) = none
  known : ∀ j < divCeil n l.sector, out.2.status j ≠ .unread

lemma ReadTo.whole {off n : ℕ} {acc : Bytes × ReadResult} (h : l.ReadTo off n n acc) :
    l.Read off n acc where
  length := h.length.le
  bytes := h.bytes
  bad j hj := (h.bad j hj).trans (and_iff_right ((lt_divCeil_iff l.sector_pos).1 hj))
  known := h.known

/-- A read that comes to the end of the parts has nothing for the rest of the request. -/
lemma ReadTo.stops {off n done : ℕ} {acc : Bytes × ReadResult} (h : l.ReadTo off n done acc)
    (hdone : l.sector ∣ done) (hlt : done < n) (hend : l.length ≤ off + done) :
    l.Read off n (acc.1, markBadRange acc.2 l.sector done (n - done)) := by
  have hss := l.sector_pos
  have hmark : ∀ j < divCeil n l.sector,
      ((markBadRange acc.2 l.sector done (n - done)).status j = .bad ↔ acc.2.status j = .bad ∨
        ∃ k, done ≤ k ∧ k < done + (n - done) ∧ k / l.sector = j) ∧
      (acc.2.status j ≠ .unread →
        (markBadRange acc.2 l.sector done (n - done)).status j ≠ .unread) :=
    fun j hj => status_markBadRange hss (by rw [h.count]; exact hj)
  refine ⟨h.length.trans_le hlt.le, fun k hk => ?_, fun j hj => ?_, fun j hj => ?_⟩
  · rcases Nat.lt_or_ge k done with hkd | hkd
    · exact h.bytes k hkd
    · rw [byteAt_of_length_le (h.length.trans_le hkd), byte_eq_none (by omega)]
      rfl
  · rw [(hmark j hj).1, h.bad j hj]
    have hjn := (lt_divCeil_iff hss).1 hj
    constructor
    · rintro (⟨-, hnone⟩ | ⟨k, h1, -, rfl⟩)
      · exact hnone
      · apply byte_eq_none
        obtain ⟨q, rfl⟩ := hdone
        have hq : q ≤ k / l.sector := (Nat.le_div_iff_mul_le hss).2 (by rwa [Nat.mul_comm])
        have := Nat.mul_le_mul_right l.sector hq
        rw [Nat.mul_comm q] at this
        omega
    · intro hnone
      rcases Nat.lt_or_ge (j * l.sector) done with h1 | h1
      · exact .inl ⟨h1, hnone⟩
      · exact .inr ⟨j * l.sector, h1, by omega, Nat.mul_div_cancel j hss⟩
  · exact (hmark j hj).2 (h.known j hj)

/-- **The loop of a read** goes through all parts that the request reaches. -/
lemma readLoop_read {off n : ℕ} (hal : l.sector ∣ off) (fuel : ℕ) :
    ∀ (done : ℕ) (acc : Bytes × ReadResult) (s : σ), done ≤ n → n ≤ done + fuel →
      l.ReadTo off n done acc → l.Read off n (l.source.readLoop off n fuel done acc s).1 := by
  have htotal : l.source.total = l.length := by rw [source_eq]
  have hsector : l.source.sectorSize = l.sector := rfl
  have hmax := l.length_le
  induction fuel with
  | zero =>
    intro done acc s hle hfuel h
    obtain rfl : done = n := by omega
    exact h.whole
  | succ fuel ih =>
    intro done acc s hle hfuel h
    rw [ConcatSource.readLoop]
    by_cases hlt : done < n
    · have hdone : l.sector ∣ done := h.boundary.resolve_right hlt.ne
      have hcur : saturatingAdd off done = min (off + done) u64Max := rfl
      rw [if_pos hlt, htotal, hsector]
      dsimp only
      by_cases hend : l.length ≤ off + done
      · rw [if_pos (by omega)]
        exact h.stops hdone hlt hend
      · have hsat : saturatingAdd off done = off + done := by omega
        obtain ⟨p, hp, start, hfind, hstart, hin, hdvd, hbyte⟩ := partAt_spec (not_le.1 hend)
        rw [hsat, if_neg hend, hfind]
        apply ih _ _ _ (by dsimp only; omega) (by dsimp only; omega)
        exact h.step hlt hal hdone hp hdvd hstart rfl hbyte s
    · rw [if_neg hlt]
      obtain rfl : done = n := by omega
      exact h.whole

/-- An aligned read reads the request, and fills the buffer. -/
lemma readAt_read (l : PartList σ) (s : σ) {off : ℕ} (hal : l.sector ∣ off) (n : ℕ) :
    (l.source.readAt s off n).1.buf.length = n ∧
      l.Read off n ((l.source.readAt s off n).1.buf, (l.source.readAt s off n).1.result) := by
  have hss := l.sector_pos
  have htotal : l.source.total = l.length := by rw [source_eq]
  have hsector : l.source.sectorSize = l.sector := rfl
  have hnone : divCeil 0 l.sector = 0 := Nat.div_eq_of_lt (by omega)
  unfold ConcatSource.readAt
  rw [htotal, hsector]
  dsimp only
  by_cases hn : n = 0
  · subst hn
    rw [if_pos rfl]
    refine ⟨rfl, le_rfl, fun k hk => ?_, fun j hj => ?_, fun j hj => ?_⟩
    all_goals omega
  rw [if_neg hn]
  by_cases hend : l.length ≤ off
  · rw [if_pos (.inr hend)]
    have hbad : ∀ j < divCeil n l.sector,
        (ReadResult.allBad l.sector (divCeil n l.sector)).status j = .bad := fun j hj =>
      ReadResult.status_allBad hj
    refine ⟨by simp, by simp, fun k hk => ?_, fun j hj => ?_, fun j hj => ?_⟩
    · rw [byte_eq_none (by omega)]
      simp
    · exact iff_of_true (hbad j hj) (byte_eq_none (by omega))
    · rw [hbad j hj]
      decide
  · rw [if_neg (by rw [not_or, not_not]; exact ⟨hal, hend⟩)]
    have hstart : l.ReadTo off n 0 ([], ReadResult.good l.sector (divCeil n l.sector)) := by
      refine ⟨rfl, rfl, fun k hk => ?_, fun j hj => ?_, fun j hj => ?_, .inl (Nat.dvd_zero _)⟩
      · omega
      · rw [ReadResult.status_good]
        exact iff_of_false (by decide) (by omega)
      · rw [ReadResult.status_good]
        decide
    have hread := readLoop_read hal n 0 _ s (Nat.zero_le n) (by omega) hstart
    have hfull : ∀ buf : Bytes, buf.length ≤ n →
        (buf ++ List.replicate (n - buf.length) 0).length = n := fun buf hle => by
      rw [List.length_append, List.length_replicate]
      omega
    have hlen := hfull _ hread.length
    refine ⟨hlen, hlen.le, fun k hk => ?_, hread.bad, hread.known⟩
    · rw [← hread.bytes k hk, byteAt_append]
      split
      · rfl
      · rename_i hge
        rw [byteAt_replicate_zero, byteAt_of_length_le (not_lt.1 hge)]

/-- Every sector lies in one part, so its bytes can be had together or not at all. -/
lemma isSome_byte_sector (l : PartList σ) {x y : ℕ} (h : x / l.sector = y / l.sector) :
    (l.byte x).isSome = (l.byte y).isSome := by
  have hss := l.sector_pos
  have hlt : ∀ {z : ℕ}, l.sector ∣ z → (x < z ↔ y < z) := by
    rintro z ⟨q, rfl⟩
    rw [Nat.mul_comm, ← Nat.div_lt_iff_lt_mul hss, h, Nat.div_lt_iff_lt_mul hss]
  by_cases hx : x < l.length
  · obtain ⟨p, hp, start, -, hstart, hin, hdvd, hbyte⟩ := partAt_spec hx
    have hclamp : l.sector ∣ ConcatSource.clamped l.sector p.1 := Nat.dvd_sub_mod _
    have hle : ConcatSource.clamped l.sector p.1 ≤ p.1.len := Nat.sub_le _ _
    have hystart : start ≤ y := not_lt.1 ((hlt hdvd).not.1 (not_lt.2 hstart))
    have hyin : y < start + ConcatSource.clamped l.sector p.1 := (hlt (hdvd.add hclamp)).1 hin
    have hsec : p.1.sector = l.sector := l.shared p hp
    have hsame : (x - start) / p.1.sector = (y - start) / p.1.sector := by
      obtain ⟨q, rfl⟩ := hdvd
      rw [hsec, Nat.sub_mul_div, Nat.sub_mul_div, h]
    rw [hbyte x hstart hin, hbyte y hystart hyin, Sectorwise.byte, Sectorwise.byte, hsame]
    by_cases hread : p.2.readable ((y - start) / p.1.sector) = true
    · rw [if_pos ⟨by omega, hread⟩, if_pos ⟨by omega, hread⟩]
      rfl
    · rw [if_neg (fun h => hread h.2), if_neg (fun h => hread h.2)]
  · rw [byte_eq_none (not_lt.1 hx), byte_eq_none (not_lt.1 ((hlt l.dvd_length).not.1 hx))]

/-- **Parts with one sector size are read one behind the other**, each up to its last whole
sector. -/
lemma concatenates (l : PartList σ) : l.Concatenates where
  total := by rw [source_eq]
  filled s off n hal := (l.readAt_read s hal n).1
  bytes s off n hal := (l.readAt_read s hal n).2.bytes
  good s off n hal k hk := by
    have hss := l.sector_pos
    have hj : k / l.sector < divCeil n l.sector := div_lt_divCeil hss hk
    have hread := (l.readAt_read s hal n).2
    have hsame : (off + k / l.sector * l.sector) / l.sector = (off + k) / l.sector := by
      obtain ⟨q, rfl⟩ := hal
      rw [Nat.mul_add_div hss, Nat.mul_add_div hss, Nat.mul_div_cancel _ hss]
    have hsome := l.isSome_byte_sector hsame
    have hbad := hread.bad _ hj
    have hknown := hread.known _ hj
    rw [← hsome]
    cases hst : (l.source.readAt s off n).1.result.status (k / l.sector) with
    | good =>
      rw [hst] at hbad
      refine iff_of_true rfl (Option.isSome_iff_ne_none.2 fun hnone => ?_)
      exact absurd (hbad.2 hnone) (by decide)
    | bad =>
      rw [hbad.1 hst]
      simp
    | unread => exact absurd hst hknown

end PartList

end Reclaim
