import Reclaim.Block.Contract

/-!
# Raw devices

A `RawDevice` reads with `pread`, and the device decides what every call brings: some of the bytes
asked for, none of them, or an error.  A read asks for all it wants at once, again for what is
missing, and from the first error on sector by sector, so that a sector that fails is zeroed and
reported bad on its own.

What it promises is decided by where the device stops handing out bytes.  `StopsAt` says so in terms
of the device's answers alone.
-/

namespace Reclaim

open FileBytes

/-- What a `pread` brings: so many bytes, or an error, which may say that the device is gone.  A
call that is interrupted is made again, and only the last of them counts. -/
inductive Pread where
  | ok (n : ℕ)
  | err (gone : Bool)
  deriving DecidableEq, Repr

/-- A raw device: its geometry, its medium, and the answer to each call of `pread`. -/
structure RawDevice where
  len : ℕ
  sectorSize : ℕ
  medium : ℕ → UInt8
  pread : ℕ → ℕ → ℕ → Pread
  sectorSize_pos : 0 < sectorSize
  len_le : len ≤ u64Max
  pread_le : ∀ c off n m, pread c off n = .ok m → m ≤ n

/-- What a device carries from read to read: the calls made of it, and whether it has vanished. -/
structure RawState where
  calls : ℕ
  vanished : Bool
  deriving Repr

namespace RawDevice

/-- The byte at a position of the device. -/
def content (dev : RawDevice) (x : ℕ) : Option UInt8 :=
  if x < dev.len then some (dev.medium x) else none

/-- A read in progress. -/
structure Sweep where
  calls : ℕ
  done : ℕ
  buf : Bytes
  result : ReadResult
  vanished : Bool

/-- Put the medium's bytes from `a` to `b` of the request into the buffer. -/
def fill (dev : RawDevice) (off a b : ℕ) (buf : Bytes) : Bytes :=
  writeAt buf a ((List.range (b - a)).map fun k => dev.medium (off + a + k))

/-- One sector on its own: all of it, or zeros and a bad sector. -/
def sweepSector (dev : RawDevice) (off avail : ℕ) (w : Sweep) : Sweep :=
  let sec := w.done / dev.sectorSize
  let a := sec * dev.sectorSize
  let b := min (a + dev.sectorSize) avail
  let spoilt := { w with
    calls := w.calls + 1, done := b, buf := writeAt w.buf a (List.replicate (b - a) 0),
    result := w.result.markBad sec }
  match dev.pread w.calls (off + a) (b - a) with
  | .ok m =>
    -- only a complete sector counts
    if m = b - a then
      { w with calls := w.calls + 1, done := b, buf := dev.fill off a b w.buf }
    else spoilt
  | .err gone => { spoilt with vanished := w.vanished || gone }

/-- The loop of `read_at`, which goes on sector by sector once a call has failed. -/
def sweep (dev : RawDevice) (off avail : ℕ) : ℕ → Bool → Sweep → Sweep
  | 0, _, w => w
  | fuel + 1, perSector, w =>
    if avail ≤ w.done then w
    else if perSector then dev.sweep off avail fuel true (dev.sweepSector off avail w)
    else
      match dev.pread w.calls (off + w.done) (avail - w.done) with
      | .ok 0 => { w with calls := w.calls + 1 }
      | .ok (m + 1) =>
        dev.sweep off avail fuel false { w with
          calls := w.calls + 1, done := w.done + (m + 1),
          buf := dev.fill off w.done (w.done + (m + 1)) w.buf }
      | .err gone =>
        dev.sweep off avail fuel true
          { w with calls := w.calls + 1, vanished := w.vanished || gone }

lemma sweep_of_le {dev : RawDevice} {off avail : ℕ} {w : Sweep} (h : avail ≤ w.done) (fuel : ℕ)
    (perSector : Bool) : dev.sweep off avail (fuel + 1) perSector w = w := if_pos h

lemma sweep_succ_true {dev : RawDevice} {off avail : ℕ} {w : Sweep} (h : ¬ avail ≤ w.done)
    (fuel : ℕ) : dev.sweep off avail (fuel + 1) true w =
      dev.sweep off avail fuel true (dev.sweepSector off avail w) := if_neg h

/-- `RawDevice::read_at`. -/
def readAt (dev : RawDevice) (s : RawState) (off n : ℕ) : ReadOutcome × RawState :=
  let count := divCeil n dev.sectorSize
  if n = 0 then (⟨[], ReadResult.good dev.sectorSize count⟩, s)
  else if ¬ dev.sectorSize ∣ off ∨ dev.len ≤ off then
    (⟨List.replicate n 0, ReadResult.allBad dev.sectorSize count⟩, s)
  else
    let avail := min n (dev.len - off)
    let w := dev.sweep off avail (avail + 1) false
      ⟨s.calls, 0, List.replicate n 0, ReadResult.good dev.sectorSize count, s.vanished⟩
    (⟨w.buf, w.result.markBadFromByte dev.sectorSize n w.done⟩, ⟨w.calls, w.vanished⟩)

/-! ## The device's answers -/

/-- The calls from `c₀` up to `c` hand out the first `e` of `avail` bytes at `off`. -/
inductive HandsOut (dev : RawDevice) (off avail c₀ : ℕ) : ℕ → ℕ → Prop
  | start : HandsOut dev off avail c₀ c₀ 0
  | more {c e m : ℕ} : HandsOut dev off avail c₀ c e → e < avail →
      dev.pread c (off + e) (avail - e) = .ok m → 0 < m → HandsOut dev off avail c₀ (c + 1) (e + m)

/-- The device hands out `e` bytes and then reports the end of the file, or an error. -/
def Halts (dev : RawDevice) (off avail c₀ c e : ℕ) (p : Pread) : Prop :=
  dev.HandsOut off avail c₀ c e ∧ e < avail ∧ dev.pread c (off + e) (avail - e) = p

/-- What `avail` bytes hold of a last sector is read by the call `c`. -/
def LastReads (dev : RawDevice) (off avail c : ℕ) : Prop :=
  dev.pread c (off + avail / dev.sectorSize * dev.sectorSize) (avail % dev.sectorSize) =
    .ok (avail % dev.sectorSize)

/-- The bytes up to `avail` are read, the last of them at once or, after an error, in the sector
they lie in. -/
def ReadsOut (dev : RawDevice) (off avail c₀ : ℕ) : Prop :=
  (∃ c, dev.HandsOut off avail c₀ c avail) ∨ ∃ c e gone, dev.Halts off avail c₀ c e (.err gone) ∧
    dev.LastReads off avail (c + 1 + (avail / dev.sectorSize - e / dev.sectorSize))

/-- The device stops handing out bytes after `e` of them. -/
def StopsAt (dev : RawDevice) (off avail c₀ e : ℕ) : Prop :=
  (∃ c, dev.Halts off avail c₀ c e (.ok 0)) ∨ e = avail ∧ dev.ReadsOut off avail c₀

/-! ### The answers determine where the device stops -/

variable {dev : RawDevice} {off avail n c₀ : ℕ}

namespace HandsOut

variable {c c' e e' : ℕ}

lemma le_calls (h : dev.HandsOut off avail c₀ c e) : c₀ ≤ c := by
  induction h with
  | start => exact le_rfl
  | more _ _ _ _ ih => omega

lemma le_avail (h : dev.HandsOut off avail c₀ c e) : e ≤ avail := by
  cases h with
  | start => exact Nat.zero_le _
  | more _ hlt hread _ =>
    have := dev.pread_le _ _ _ _ hread
    omega

/-- As many calls hand out as many bytes. -/
lemma unique (h : dev.HandsOut off avail c₀ c e) :
    ∀ e', dev.HandsOut off avail c₀ c e' → e = e' := by
  induction h with
  | start =>
    intro e' h'
    cases h' with
    | start => rfl
    | more hprev =>
      have := hprev.le_calls
      omega
  | more hprev _ hread _ ih =>
    intro e' h'
    cases h' with
    | start =>
      have := hprev.le_calls
      omega
    | more hprev' _ hread' _ =>
      obtain rfl := ih _ hprev'
      rw [Pread.ok.inj (hread.symm.trans hread')]

/-- Where another call is made, the last one brought bytes. -/
lemma goes_on (h : dev.HandsOut off avail c₀ c e) (h' : dev.HandsOut off avail c₀ c' e') :
    c < c' → e < avail ∧ ∃ m, dev.pread c (off + e) (avail - e) = .ok (m + 1) := by
  induction h' with
  | start =>
    intro hlt
    have := h.le_calls
    omega
  | @more c₁ e₁ m₁ hprev hlt hread hm ih =>
    intro hc
    rcases Nat.lt_or_ge c c₁ with h₁ | h₁
    · exact ih h₁
    · obtain rfl : c = c₁ := by omega
      obtain rfl := h.unique _ hprev
      obtain ⟨m, rfl⟩ := Nat.exists_eq_add_of_lt hm
      exact ⟨hlt, m, by rw [hread, Nat.zero_add]⟩

end HandsOut

/-- The calls after which no further bytes come are determined, and so is what they have brought. -/
lemma HandsOut.end_unique {c c' e e' : ℕ} (h : dev.HandsOut off avail c₀ c e)
    (h' : dev.HandsOut off avail c₀ c' e')
    (hend : e < avail → ∀ m, dev.pread c (off + e) (avail - e) ≠ .ok (m + 1))
    (hend' : e' < avail → ∀ m, dev.pread c' (off + e') (avail - e') ≠ .ok (m + 1)) :
    c = c' ∧ e = e' := by
  rcases Nat.lt_trichotomy c c' with hc | rfl | hc
  · obtain ⟨hlt, m, hread⟩ := h.goes_on h' hc
    exact absurd hread (hend hlt m)
  · exact ⟨rfl, h.unique _ h'⟩
  · obtain ⟨hlt, m, hread⟩ := h'.goes_on h hc
    exact absurd hread (hend' hlt m)

lemma Halts.ends {c e : ℕ} {p : Pread} (h : dev.Halts off avail c₀ c e p)
    (hp : ∀ m, p ≠ .ok (m + 1)) :
    e < avail → ∀ m, dev.pread c (off + e) (avail - e) ≠ .ok (m + 1) := by
  intro _ m hread
  exact hp m (h.2.2.symm.trans hread)

/-- A device that reads everything stops at the end of it. -/
lemma stopsAt_of_whole {c e : ℕ} (h : dev.HandsOut off avail c₀ c avail) :
    dev.StopsAt off avail c₀ e ↔ e = avail := by
  constructor
  · rintro (⟨c', h'⟩ | ⟨rfl, -⟩)
    · exact absurd (h.end_unique h'.1 (fun hlt => absurd hlt (lt_irrefl _))
        (h'.ends fun m => by simp)).2 h'.2.1.ne'
    · rfl
  · rintro rfl
    exact .inr ⟨rfl, .inl ⟨c, h⟩⟩

/-- A device that reports the end of the file stops there. -/
lemma stopsAt_of_eof {c e e' : ℕ} (h : dev.Halts off avail c₀ c e (.ok 0)) :
    dev.StopsAt off avail c₀ e' ↔ e' = e := by
  have hend := h.ends fun m => by simp
  constructor
  · rintro (⟨c', h'⟩ | ⟨rfl, ⟨c', h'⟩ | ⟨c', e'', gone, h', -⟩⟩)
    · exact (h'.1.end_unique h.1 (h'.ends fun m => by simp) hend).2
    · exact (h'.end_unique h.1 (fun hlt => absurd hlt (lt_irrefl _)) hend).2
    · obtain ⟨rfl, rfl⟩ := h'.1.end_unique h.1 (h'.ends fun m => by simp) hend
      exact absurd (h'.2.2.symm.trans h.2.2) (by simp)
  · rintro rfl
    exact .inl ⟨c, h⟩

/-- After an error at byte `e`, the device stops at the end of the request if the sector that lies
across it can be read on its own. -/
lemma stopsAt_of_error {c e e' : ℕ} {gone : Bool} (h : dev.Halts off avail c₀ c e (.err gone)) :
    dev.StopsAt off avail c₀ e' ↔ e' = avail ∧
      dev.LastReads off avail (c + 1 + (avail / dev.sectorSize - e / dev.sectorSize)) := by
  have hend := h.ends fun m => by simp
  constructor
  · rintro (⟨c', h'⟩ | ⟨rfl, ⟨c', h'⟩ | ⟨c', e'', gone', h', hlast⟩⟩)
    · obtain ⟨rfl, rfl⟩ := h'.1.end_unique h.1 (h'.ends fun m => by simp) hend
      exact absurd (h'.2.2.symm.trans h.2.2) (by simp)
    · exact absurd (h'.end_unique h.1 (fun hlt => absurd hlt (lt_irrefl _)) hend).2 h.2.1.ne'
    · obtain ⟨rfl, rfl⟩ := h'.1.end_unique h.1 (h'.ends fun m => by simp) hend
      exact ⟨rfl, hlast⟩
  · rintro ⟨rfl, hlast⟩
    exact .inr ⟨rfl, .inr ⟨c, e, gone, h, hlast⟩⟩

/-! ## The loop -/

/-- What a read in progress has: the medium's bytes up to `done`, but for the sectors it calls bad,
and zeros elsewhere.  It is done with the sectors it calls bad. -/
structure Sweep.Sound (dev : RawDevice) (off avail n : ℕ) (w : Sweep) : Prop where
  length : w.buf.length = n
  count : w.result.sectorCount = divCeil n dev.sectorSize
  byte : ∀ k < n, byteAt w.buf k =
    if k < w.done ∧ w.result.status (k / dev.sectorSize) = .good then dev.medium (off + k) else 0
  bad : ∀ i, w.result.status i ≠ .good → (i + 1) * dev.sectorSize ≤ w.done ∨ w.done = avail

lemma length_write {buf d : Bytes} {a b : ℕ} (hd : d.length = b - a) (hb : b ≤ buf.length) :
    (writeAt buf a d).length = buf.length := by
  by_cases h : d = []
  · rw [h, writeAt_nil]
  · have hpos : 0 < d.length := List.length_pos_iff.2 h
    rw [length_writeAt _ _ _ h]
    omega

lemma byteAt_fill {buf : Bytes} {a b k : ℕ} :
    byteAt (dev.fill off a b buf) k =
      if a ≤ k ∧ k < b then dev.medium (off + k) else byteAt buf k := by
  rw [fill, byteAt_writeAt, List.length_map, List.length_range]
  by_cases h : a ≤ k ∧ k < b
  · rw [if_pos (by omega), if_pos h]
    have hlt : k - a < b - a := by omega
    simp only [byteAt, List.getD_eq_getElem?_getD, List.getElem?_map, List.getElem?_range hlt,
      Option.map_some, Option.getD_some]
    congr 1
    omega
  · rw [if_neg (by omega), if_neg h]

namespace Sweep.Sound

variable {w : Sweep} {a b calls : ℕ} {vanished : Bool}

/-- A sector that is not behind `done` is good so far. -/
lemma good_of_lt (h : w.Sound dev off avail n) (hlt : w.done < avail) {i : ℕ}
    (hi : w.done < (i + 1) * dev.sectorSize) : w.result.status i = .good := by
  by_contra hbad
  rcases h.bad i hbad with h | h <;> omega

/-- Bytes that are read are the medium's. -/
lemma filled (h : w.Sound dev off avail n) (hlt : w.done < avail) (havail : avail ≤ n)
    (ha : a ≤ w.done) (hdone : w.done ≤ b) (hb : b ≤ avail)
    (hgood : ∀ k, a ≤ k → k < b → w.result.status (k / dev.sectorSize) = .good) :
    Sound dev off avail n ⟨calls, b, dev.fill off a b w.buf, w.result, vanished⟩ where
  length := by
    have hlen := h.length
    rw [← hlen]
    exact length_write (b := b) (by simp) (by omega)
  count := h.count
  byte k hk := by
    show byteAt (dev.fill off a b w.buf) k = _
    rw [byteAt_fill, h.byte k hk]
    by_cases hin : a ≤ k ∧ k < b
    · rw [if_pos hin, if_pos ⟨hin.2, hgood k hin.1 hin.2⟩]
    · rw [if_neg hin]
      exact if_congr (and_congr_left' (by dsimp only; omega)) rfl rfl
  bad i hi := .inl <| by
    rcases h.bad i hi with h | h
    · exact h.trans hdone
    · omega

/-- A sector that cannot be read is zeroed and bad. -/
lemma spoilt {sec : ℕ} (h : w.Sound dev off avail n) (hlt : w.done < avail) (havail : avail ≤ n)
    (hsec : w.done / dev.sectorSize = sec) (ha : a = sec * dev.sectorSize)
    (hb : b = min (a + dev.sectorSize) avail) :
    Sound dev off avail n ⟨calls, b, writeAt w.buf a (List.replicate (b - a) 0),
      w.result.markBad sec, vanished⟩ := by
  subst hsec
  have hss := dev.sectorSize_pos
  have hle : a ≤ w.done := ha ▸ Nat.div_mul_le_self _ _
  have hnext : w.done < a + dev.sectorSize := by
    have := Nat.lt_div_mul_add (a := w.done) hss
    omega
  have hsec : ∀ k, k / dev.sectorSize = w.done / dev.sectorSize ↔
      a ≤ k ∧ k < a + dev.sectorSize := fun k => by
    rw [Nat.div_eq_iff hss]
    omega
  have hin : w.done / dev.sectorSize < divCeil n dev.sectorSize := div_lt_divCeil hss (by omega)
  have hstatus : ∀ i, (w.result.markBad (w.done / dev.sectorSize)).status i =
      if w.done / dev.sectorSize = i then .bad else w.result.status i := fun i => by
    rw [ReadResult.status_markBad, h.count]
    refine if_congr (and_iff_left_of_imp ?_) rfl rfl
    rintro rfl
    exact hin
  refine ⟨?_, h.count, fun k hk => ?_, fun i hi => ?_⟩
  · have hlen := h.length
    rw [← hlen]
    exact length_write (b := b) (by simp) (by omega)
  · dsimp only
    rw [byteAt_writeAt, List.length_replicate, h.byte k hk, hstatus]
    by_cases hk' : a ≤ k ∧ k < a + (b - a)
    · rw [if_pos hk', byteAt_replicate_zero, if_pos ((hsec k).2 (by omega)).symm, if_neg]
      exact fun hbad => absurd hbad.2 (by decide)
    · rw [if_neg hk']
      by_cases hdone : k < w.done
      · rw [if_neg (show ¬ w.done / dev.sectorSize = k / dev.sectorSize from fun heq =>
          hk' (by have := (hsec k).1 heq.symm; omega))]
        exact if_congr (and_congr_left' (by omega)) rfl rfl
      · rw [if_neg (fun hlt => hdone hlt.1), if_neg]
        omega
  · dsimp only at hi ⊢
    rw [hstatus] at hi
    by_cases heq : w.done / dev.sectorSize = i
    · subst heq
      rw [Nat.add_mul, Nat.one_mul, ← ha]
      omega
    · rw [if_neg heq] at hi
      rcases h.bad i hi with h | h
      · exact .inl (h.trans (by omega))
      · omega

end Sweep.Sound

/-- **One sector on its own**: it is read and good, or zero and bad, and no other sector is
touched. -/
lemma sweepSector_spec {w : Sweep} {sec : ℕ} (h : w.Sound dev off avail n) (hlt : w.done < avail)
    (havail : avail ≤ n) (hsec : w.done / dev.sectorSize = sec) :
    (dev.sweepSector off avail w).Sound dev off avail n ∧
      (dev.sweepSector off avail w).done = min (sec * dev.sectorSize + dev.sectorSize) avail ∧
      (dev.sweepSector off avail w).calls = w.calls + 1 ∧
      ((dev.sweepSector off avail w).result.status sec = .good ↔
        dev.pread w.calls (off + sec * dev.sectorSize)
          (min (sec * dev.sectorSize + dev.sectorSize) avail - sec * dev.sectorSize) =
            .ok (min (sec * dev.sectorSize + dev.sectorSize) avail - sec * dev.sectorSize)) := by
  have hss := dev.sectorSize_pos
  have hle : sec * dev.sectorSize ≤ w.done := hsec ▸ Nat.div_mul_le_self _ _
  have hnext : w.done < sec * dev.sectorSize + dev.sectorSize := hsec ▸ Nat.lt_div_mul_add hss
  have hgood : w.result.status sec = .good := h.good_of_lt hlt (by rwa [Nat.add_mul, Nat.one_mul])
  have hin : sec < w.result.sectorCount := by
    rw [h.count, ← hsec]
    exact div_lt_divCeil hss (by omega)
  have hself : (w.result.markBad sec).status sec = .bad := by
    rw [ReadResult.status_markBad, if_pos ⟨rfl, hin⟩]
  have hbytes : ∀ k, sec * dev.sectorSize ≤ k →
      k < min (sec * dev.sectorSize + dev.sectorSize) avail →
        w.result.status (k / dev.sectorSize) = .good := by
    intro k hk hk'
    have hkeq : k / dev.sectorSize = sec := by
      rw [Nat.div_eq_iff hss]
      omega
    rw [hkeq, hgood]
  have hspoilt : ∀ calls vanished, Sweep.Sound dev off avail n
      ⟨calls, min (sec * dev.sectorSize + dev.sectorSize) avail,
        writeAt w.buf (sec * dev.sectorSize) (List.replicate
          (min (sec * dev.sectorSize + dev.sectorSize) avail - sec * dev.sectorSize) 0),
        w.result.markBad sec, vanished⟩ := fun calls vanished =>
    h.spoilt hlt havail hsec rfl rfl
  unfold sweepSector
  dsimp only
  rw [hsec]
  cases hread : dev.pread w.calls (off + sec * dev.sectorSize)
      (min (sec * dev.sectorSize + dev.sectorSize) avail - sec * dev.sectorSize) with
  | ok m =>
    dsimp only
    split
    · rename_i hm
      refine ⟨h.filled hlt havail hle (by omega) (min_le_right _ _) hbytes, rfl, rfl, ?_⟩
      rw [hm]
      exact iff_of_true hgood rfl
    · rename_i hm
      refine ⟨hspoilt _ _, rfl, rfl, ?_⟩
      rw [hself]
      exact iff_of_false (by decide) fun heq => hm (Pread.ok.inj heq)
  | err gone =>
    refine ⟨hspoilt _ _, rfl, rfl, ?_⟩
    dsimp only
    rw [hself]
    exact iff_of_false (by decide) (by simp)

/-- **Sector by sector**, a read gets to the end of the request, whatever fails on the way; of the
sector across that end it has what the device hands out for it on its own. -/
lemma sweep_perSector (havail : avail ≤ n) (fuel : ℕ) :
    ∀ w : Sweep, w.Sound dev off avail n → w.done < avail → avail ≤ w.done + fuel →
      (dev.sweep off avail fuel true w).Sound dev off avail n ∧
        (dev.sweep off avail fuel true w).done = avail ∧
        (avail % dev.sectorSize ≠ 0 →
          ((dev.sweep off avail fuel true w).result.status (avail / dev.sectorSize) = .good ↔
            dev.LastReads off avail
              (w.calls + (avail / dev.sectorSize - w.done / dev.sectorSize)))) := by
  have hss := dev.sectorSize_pos
  have hmod := Nat.div_add_mod' avail dev.sectorSize
  have hmlt := Nat.mod_lt avail hss
  induction fuel with
  | zero =>
    intro w _ hlt hle
    omega
  | succ fuel ih =>
    intro w h hlt hle
    obtain ⟨hsound, hdone, hcalls, hself⟩ := sweepSector_spec h hlt havail rfl
    have hnext : w.done < w.done / dev.sectorSize * dev.sectorSize + dev.sectorSize :=
      Nat.lt_div_mul_add hss
    rw [sweep_succ_true (by omega)]
    by_cases hend : avail ≤ w.done / dev.sectorSize * dev.sectorSize + dev.sectorSize
    · -- this was the last sector
      rw [min_eq_right hend] at hdone hself
      have hstop : dev.sweep off avail fuel true (dev.sweepSector off avail w) =
          dev.sweepSector off avail w := by
        cases fuel with
        | zero => rfl
        | succ fuel => exact sweep_of_le hdone.ge fuel true
      rw [hstop]
      refine ⟨hsound, hdone, fun hne => ?_⟩
      have hdm := Nat.div_mul_le_self w.done dev.sectorSize
      have hlast : avail / dev.sectorSize = w.done / dev.sectorSize := by
        have hne' : avail ≠ w.done / dev.sectorSize * dev.sectorSize + dev.sectorSize := by
          intro heq
          apply hne
          rw [heq, Nat.add_mod_right, Nat.mul_mod_left]
        rw [Nat.div_eq_iff hss]
        omega
      rw [hlast, hself, Nat.sub_self, LastReads, hlast]
      rw [hlast] at hmod
      rw [show avail - w.done / dev.sectorSize * dev.sectorSize = avail % dev.sectorSize by omega]
      rfl
    · rw [min_eq_left (by omega)] at hdone
      obtain ⟨hsound', hdone', hlast⟩ := ih _ hsound (by omega) (by omega)
      refine ⟨hsound', hdone', fun hne => ?_⟩
      rw [hlast hne, hcalls]
      have hquot : (dev.sweepSector off avail w).done / dev.sectorSize =
          w.done / dev.sectorSize + 1 := by
        rw [hdone, Nat.add_div_right _ hss, Nat.mul_div_cancel _ hss]
      have hle' : w.done / dev.sectorSize + 1 ≤ avail / dev.sectorSize := by
        rw [Nat.le_div_iff_mul_le hss, Nat.add_mul, Nat.one_mul]
        omega
      rw [hquot, show w.calls + 1 + (avail / dev.sectorSize - (w.done / dev.sectorSize + 1)) =
        w.calls + (avail / dev.sectorSize - w.done / dev.sectorSize) by omega]

/-- **The loop of a read.**  It ends where the device stops handing out bytes; if it ends in the
middle of a sector, then that sector is good exactly if the device does stop there. -/
lemma sweep_spec (havail : avail ≤ n) (fuel : ℕ) :
    ∀ w : Sweep, w.Sound dev off avail n → (∀ i, w.result.status i = .good) →
      dev.HandsOut off avail c₀ w.calls w.done → avail < w.done + fuel →
        (dev.sweep off avail fuel false w).Sound dev off avail n ∧
        (dev.sweep off avail fuel false w).done ≤ avail ∧
        (∀ e, dev.StopsAt off avail c₀ e → e = (dev.sweep off avail fuel false w).done) ∧
        ((dev.sweep off avail fuel false w).done % dev.sectorSize ≠ 0 →
          (dev.StopsAt off avail c₀ (dev.sweep off avail fuel false w).done ↔
            (dev.sweep off avail fuel false w).result.status
              ((dev.sweep off avail fuel false w).done / dev.sectorSize) = .good)) := by
  induction fuel with
  | zero =>
    intro w _ _ hout hlt
    have := hout.le_avail
    omega
  | succ fuel ih =>
    intro w h hgood hout hfuel
    by_cases hend : avail ≤ w.done
    · -- all of it was handed out
      rw [sweep_of_le hend]
      obtain ⟨calls, done, buf, result, vanished⟩ := w
      obtain rfl : done = avail := le_antisymm hout.le_avail hend
      exact ⟨h, le_rfl, fun e => (stopsAt_of_whole hout).1,
        fun _ => iff_of_true ((stopsAt_of_whole hout).2 rfl) (hgood _)⟩
    · have hlt : w.done < avail := not_le.1 hend
      rw [sweep, if_neg hend]
      simp only [Bool.false_eq_true, if_false]
      cases hread : dev.pread w.calls (off + w.done) (avail - w.done) with
      | ok m =>
        cases m with
        | zero =>
          have hhalt : dev.Halts off avail c₀ w.calls w.done (.ok 0) := ⟨hout, hlt, hread⟩
          exact ⟨⟨h.length, h.count, h.byte, h.bad⟩, hlt.le, fun e => (stopsAt_of_eof hhalt).1,
            fun _ => iff_of_true ((stopsAt_of_eof hhalt).2 rfl) (hgood _)⟩
        | succ m =>
          have hle := dev.pread_le _ _ _ _ hread
          exact ih _ (h.filled hlt havail le_rfl (by omega) (by omega) fun k _ _ => hgood _) hgood
            (hout.more hlt hread (Nat.succ_pos m)) (by dsimp only; omega)
      | err gone =>
        have hhalt : dev.Halts off avail c₀ w.calls w.done (.err gone) := ⟨hout, hlt, hread⟩
        have hfailed : Sweep.Sound dev off avail n
            { w with calls := w.calls + 1, vanished := w.vanished || gone } :=
          ⟨h.length, h.count, h.byte, h.bad⟩
        obtain ⟨hsound, hdone, hlast⟩ :=
          sweep_perSector havail fuel _ hfailed hlt (by dsimp only; omega)
        refine ⟨hsound, hdone.le, fun e he => ?_, fun hne => ?_⟩
        · rw [hdone]
          exact ((stopsAt_of_error hhalt).1 he).1
        · rw [hdone] at hne ⊢
          rw [hlast hne, stopsAt_of_error hhalt]
          exact ⟨fun he => he.2, fun he => ⟨rfl, he⟩⟩

/-- A read that is sound up to `done`, with the rest reported bad, keeps its promises exactly if the
sector that is cut there is bad already or holds only zeros. -/
lemma Sweep.Sound.honours_iff {w : Sweep} (h : w.Sound dev off avail n) (hal : dev.sectorSize ∣ off)
    (hdone : w.done ≤ min n (dev.len - off)) :
    Honours dev.sectorSize dev.len off n dev.content
        ⟨w.buf, w.result.markBadFromByte dev.sectorSize n w.done⟩ ↔
      (w.result.status (w.done / dev.sectorSize) = .good →
        ZeroTail dev.medium dev.sectorSize off n (off + w.done)) := by
  have hss := dev.sectorSize_pos
  have hstatus : ∀ k < n, (w.result.markBadFromByte dev.sectorSize n w.done).status
      (k / dev.sectorSize) = if w.done < min ((k / dev.sectorSize + 1) * dev.sectorSize) n then .bad
        else w.result.status (k / dev.sectorSize) := fun k hk => by
    rw [ReadResult.status_markBadFromByte, h.count]
    exact if_congr (and_iff_right (div_lt_divCeil hss hk)) rfl rfl
  have hsector : ∀ k, k < (k / dev.sectorSize + 1) * dev.sectorSize := fun k => by
    rw [Nat.add_mul, Nat.one_mul]
    exact Nat.lt_div_mul_add hss
  rw [honours_iff_zero (c := dev.medium)
    (p := fun k => k < w.done ∧ w.result.status (k / dev.sectorSize) = .good) h.length
    (fun k hk hh => ⟨by rw [h.byte k hk, if_pos hh], if_pos (by omega)⟩)
    (fun k hk hh => by rw [h.byte k hk, if_neg hh]), zeroTail_iff hss hal]
  · have hcut : ∀ k < w.done, w.done < min ((k / dev.sectorSize + 1) * dev.sectorSize) n →
        w.done / dev.sectorSize = k / dev.sectorSize := by
      intro k hk hlt
      have := Nat.div_mul_le_self k dev.sectorSize
      rw [Nat.div_eq_iff hss]
      rw [Nat.add_mul] at hlt
      omega
    constructor
    · intro hz hgood k hk hlt
      have hkn : k < n := by omega
      rw [hcut k hk hlt] at hgood
      refine hz k hkn ⟨hk, hgood⟩ ?_
      rw [hstatus k hkn, if_pos hlt]
      decide
    · intro hz k hk hh hbad
      rw [hstatus k hk] at hbad
      have hlt : w.done < min ((k / dev.sectorSize + 1) * dev.sectorSize) n := by
        by_contra hnot
        rw [if_neg hnot] at hbad
        exact hbad hh.2
      exact hz (by rw [hcut k hh.1 hlt]; exact hh.2) k hh.1 hlt
  · intro k hk hgood
    rw [hstatus k hk] at hgood
    have hlt : ¬ w.done < min ((k / dev.sectorSize + 1) * dev.sectorSize) n := fun hlt => by
      rw [if_pos hlt] at hgood
      exact absurd hgood (by decide)
    rw [if_neg hlt] at hgood
    have := hsector k
    exact ⟨⟨by omega, hgood⟩, by omega⟩

/-- **What a `RawDevice` promises.**  A read keeps its promises exactly if only zeros lie, in its
sector, before the byte at which the device stops handing out bytes. -/
theorem honours_iff_stops {s : RawState} (hal : dev.sectorSize ∣ off) :
    Honours dev.sectorSize dev.len off n dev.content (dev.readAt s off n).1 ↔
      ∀ e, dev.StopsAt off (min n (dev.len - off)) s.calls e →
        ZeroTail dev.medium dev.sectorSize off n (off + e) := by
  have hss := dev.sectorSize_pos
  unfold readAt
  dsimp only
  split
  · rename_i hn
    subst hn
    refine iff_of_true ⟨rfl, fun k hk => ?_, fun k hk => ?_, fun k hk => ?_⟩ fun e _ _ hlt => ?_
    all_goals omega
  split
  · rename_i hn hout
    apply iff_of_true (honours_of_allBad hss rfl)
    intro e he hlt
    have hlen : dev.len ≤ off := hout.resolve_left (not_not.2 hal)
    rcases he with ⟨c, -, hlt', -⟩ | ⟨rfl, -⟩ <;> omega
  · rename_i hn hin
    set avail := min n (dev.len - off) with havail
    set w := dev.sweep off avail (avail + 1) false ⟨s.calls, 0, List.replicate n 0,
      ReadResult.good dev.sectorSize (divCeil n dev.sectorSize), s.vanished⟩ with hw
    have hstart : Sweep.Sound dev off avail n ⟨s.calls, 0, List.replicate n 0,
        ReadResult.good dev.sectorSize (divCeil n dev.sectorSize), s.vanished⟩ :=
      ⟨by simp, rfl, fun k _ => by simp, fun i hi => absurd (ReadResult.status_good _ _ _) hi⟩
    obtain ⟨hsound, hdone, hstops, hmid⟩ :=
      sweep_spec (show avail ≤ n by omega) (avail + 1) _ hstart
      (fun i => ReadResult.status_good _ _ _) .start (by dsimp only; omega)
    rw [← hw] at hsound hdone hstops hmid
    rw [hsound.honours_iff hal (by omega)]
    by_cases hz : w.done % dev.sectorSize = 0
    · have hdvd : dev.sectorSize ∣ off + w.done := hal.add (Nat.dvd_of_mod_eq_zero hz)
      apply iff_of_true (fun _ => zeroTail_of_dvd hdvd)
      intro e he
      rw [hstops e he]
      exact zeroTail_of_dvd hdvd
    · rw [← hmid hz]
      constructor
      · intro h e he
        obtain rfl := hstops e he
        exact h he
      · exact fun h he => h _ he

end RawDevice

end Reclaim
