import Reclaim.Block.RawDevice

/-!
# Raw devices and interrupted calls

A `pread` that a signal interrupts is made again at once, in the whole request and sector by sector
alike.  Here the kernel interrupts every call as often as it likes before it answers, and the read
comes to what it comes to without interruptions.

What remains of a claim about raw reads is then decided by the answers.  A call that fails costs the
sectors that fail on their own and no others.  A call that reports the end of the file is final: it
costs every sector behind it, and leaves what was read of the sector it comes in.
-/

namespace Reclaim

open FileBytes

/-- What a call of `pread` comes to. -/
inductive Called where
  | interrupted
  | answered (p : Pread)
  deriving DecidableEq, Repr

/-- A raw device behind a kernel that interrupts calls: so many times before each is answered. -/
structure RawKernel where
  dev : RawDevice
  interrupts : ℕ → ℕ → ℕ → ℕ

/-- An aligned read of a device. -/
structure AlignedRead (dev : RawDevice) where
  off : ℕ
  n : ℕ
  aligned : dev.sectorSize ∣ off

namespace RawKernel

/-- The call `c`, made after it was interrupted `tries` times. -/
def call (k : RawKernel) (c tries off n : ℕ) : Called :=
  if tries < k.interrupts c off n then .interrupted else .answered (k.dev.pread c off n)

/-- The loop of `read_at`, with all the calls it makes. -/
def sweep (k : RawKernel) (off avail : ℕ) : ℕ → Bool → ℕ → RawDevice.Sweep → Option RawDevice.Sweep
  | 0, _, _, w => if avail ≤ w.done then some w else none
  | fuel + 1, perSector, tries, w =>
    if avail ≤ w.done then some w
    else if perSector then
      let a := w.done / k.dev.sectorSize * k.dev.sectorSize
      let b := min (a + k.dev.sectorSize) avail
      match k.call w.calls tries (off + a) (b - a) with
      | .interrupted => k.sweep off avail fuel true (tries + 1) w
      | .answered _ => k.sweep off avail fuel true 0 (k.dev.sweepSector off avail w)
    else
      match k.call w.calls tries (off + w.done) (avail - w.done) with
      | .interrupted => k.sweep off avail fuel false (tries + 1) w
      | .answered (.ok 0) => some { w with calls := w.calls + 1 }
      | .answered (.ok (m + 1)) =>
        k.sweep off avail fuel false 0 { w with
          calls := w.calls + 1, done := w.done + (m + 1),
          buf := k.dev.fill off w.done (w.done + (m + 1)) w.buf }
      | .answered (.err gone) =>
        k.sweep off avail fuel true 0 { w with
          calls := w.calls + 1, vanished := w.vanished || gone }

/-- `RawDevice::read_at`, if its loop is over after `fuel` rounds. -/
def readAt (k : RawKernel) (fuel : ℕ) (s : RawState) (off n : ℕ) :
    Option (ReadOutcome × RawState) :=
  let count := divCeil n k.dev.sectorSize
  if n = 0 then some (⟨[], ReadResult.good k.dev.sectorSize count⟩, s)
  else if ¬ k.dev.sectorSize ∣ off ∨ k.dev.len ≤ off then
    some (⟨List.replicate n 0, ReadResult.allBad k.dev.sectorSize count⟩, s)
  else
    (k.sweep off (min n (k.dev.len - off)) fuel false 0
      ⟨s.calls, 0, List.replicate n 0, ReadResult.good k.dev.sectorSize count, s.vanished⟩).map
      fun w => (⟨w.buf, w.result.markBadFromByte k.dev.sectorSize n w.done⟩, ⟨w.calls, w.vanished⟩)

/-- The read comes to an outcome. -/
def Reads (k : RawKernel) (s : RawState) (off n : ℕ) (out : ReadOutcome) : Prop :=
  ∃ fuel s', k.readAt fuel s off n = some (out, s')

end RawKernel

namespace RawDevice

/-- A sector of a read that lies in the device, and that the device reads whenever it is asked for
it alone. -/
structure Readable (dev : RawDevice) (off n j : ℕ) : Prop where
  asked : j * dev.sectorSize < n
  inside : off + min ((j + 1) * dev.sectorSize) n ≤ dev.len
  reads : ∀ c, dev.pread c (off + j * dev.sectorSize)
    (min ((j + 1) * dev.sectorSize) n - j * dev.sectorSize) =
      .ok (min ((j + 1) * dev.sectorSize) n - j * dev.sectorSize)

end RawDevice

namespace RawKernel

variable (k : RawKernel)

/-- A read terminates, its sectors are good with the bytes of the device or bad and zero, and those
that can be read are good whatever the others are. -/
structure ReadsSoundly (s : RawState) (r : AlignedRead k.dev) : Prop where
  terminates : ∃ out, k.Reads s r.off r.n out
  honours : ∀ out, k.Reads s r.off r.n out →
    Honours k.dev.sectorSize k.dev.len r.off r.n k.dev.content out
  status : ∀ out, k.Reads s r.off r.n out → ∀ j, out.result.status j = .good ∨
    out.result.status j = .bad
  isolated : ∀ out, k.Reads s r.off r.n out → ∀ j, k.dev.Readable r.off r.n j →
    out.result.status j = .good

/-- The answers let a read be sound: of the sector in which the device stops handing out bytes it
has handed out zeros only, and it reports no end of the file before a sector that can be read. -/
structure Settles (s : RawState) (r : AlignedRead k.dev) : Prop where
  zeros : ∀ e, k.dev.StopsAt r.off (min r.n (k.dev.len - r.off)) s.calls e →
    ZeroTail k.dev.medium k.dev.sectorSize r.off r.n (r.off + e)
  final : ∀ c e, k.dev.Halts r.off (min r.n (k.dev.len - r.off)) s.calls c e (.ok 0) →
    ∀ j, k.dev.Readable r.off r.n j → min ((j + 1) * k.dev.sectorSize) r.n ≤ e

variable {k} {off avail : ℕ}

/-! ## Interruptions -/

/-- More rounds than are needed change nothing. -/
lemma sweep_mono (fuel : ℕ) : ∀ (perSector : Bool) (tries : ℕ) (w w' : RawDevice.Sweep),
    k.sweep off avail fuel perSector tries w = some w' →
      ∀ more, k.sweep off avail (fuel + more) perSector tries w = some w' := by
  induction fuel with
  | zero =>
    intro perSector tries w w' h more
    rw [sweep] at h
    split at h
    · rename_i hend
      cases more with
      | zero => rw [sweep, if_pos hend, h]
      | succ more => rw [Nat.zero_add, sweep, if_pos hend, h]
    · cases h
  | succ fuel ih =>
    intro perSector tries w w' h more
    rw [show fuel + 1 + more = fuel + more + 1 by omega, sweep]
    rw [sweep] at h
    by_cases hend : avail ≤ w.done
    · rw [if_pos hend] at h ⊢
      exact h
    rw [if_neg hend] at h ⊢
    cases perSector with
    | true =>
      rw [if_pos rfl] at h ⊢
      dsimp only at h ⊢
      split at h
      · exact ih _ _ _ _ h more
      · exact ih _ _ _ _ h more
    | false =>
      rw [if_neg Bool.false_ne_true] at h ⊢
      split at h
      · exact ih _ _ _ _ h more
      · exact h
      · exact ih _ _ _ _ h more
      · exact ih _ _ _ _ h more

/-- What a read in progress asks for next. -/
def request (k : RawKernel) (off avail : ℕ) : Bool → RawDevice.Sweep → ℕ × ℕ
  | true, w =>
    (off + w.done / k.dev.sectorSize * k.dev.sectorSize,
      min (w.done / k.dev.sectorSize * k.dev.sectorSize + k.dev.sectorSize) avail -
        w.done / k.dev.sectorSize * k.dev.sectorSize)
  | false, w => (off + w.done, avail - w.done)

/-- How often it is interrupted. -/
def interruptions (k : RawKernel) (off avail : ℕ) (perSector : Bool) (w : RawDevice.Sweep) : ℕ :=
  k.interrupts w.calls (k.request off avail perSector w).1 (k.request off avail perSector w).2

/-- A call that is interrupted is made again, until it is answered. -/
lemma sweep_interrupted {w : RawDevice.Sweep} (hlt : w.done < avail) (perSector : Bool)
    (fuel t : ℕ) : t ≤ k.interruptions off avail perSector w →
      k.sweep off avail (fuel + t) perSector (k.interruptions off avail perSector w - t) w =
        k.sweep off avail fuel perSector (k.interruptions off avail perSector w) w := by
  induction t with
  | zero => exact fun _ => rfl
  | succ t ih =>
    intro ht
    have hagain := ih (by omega)
    have hcall : k.call w.calls (k.interruptions off avail perSector w - (t + 1))
        (k.request off avail perSector w).1 (k.request off avail perSector w).2 =
          .interrupted := if_pos (by
      change _ < k.interruptions off avail perSector w
      omega)
    have hnext : k.interruptions off avail perSector w - (t + 1) + 1 =
        k.interruptions off avail perSector w - t := by omega
    rw [← hagain, ← hnext, ← Nat.add_assoc, sweep, if_neg (not_le.2 hlt)]
    cases perSector with
    | true =>
      rw [if_pos rfl]
      dsimp only [request] at hcall ⊢
      rw [hcall]
    | false =>
      rw [if_neg Bool.false_ne_true]
      dsimp only [request] at hcall ⊢
      rw [hcall]

lemma sweepSector_done (dev : RawDevice) (w : RawDevice.Sweep) :
    (dev.sweepSector off avail w).done =
      min (w.done / dev.sectorSize * dev.sectorSize + dev.sectorSize) avail := by
  unfold RawDevice.sweepSector
  dsimp only
  split
  · split <;> rfl
  · rfl

/-- With enough rounds the loop is over, and has done what it does without interruptions. -/
lemma sweep_total (k : RawKernel) (off avail fuel : ℕ) : ∀ (perSector : Bool) (w : RawDevice.Sweep),
    avail + (if perSector then 0 else 1) ≤ w.done + fuel →
      ∃ rounds, k.sweep off avail rounds perSector 0 w =
        some (k.dev.sweep off avail fuel perSector w) := by
  induction fuel with
  | zero =>
    intro perSector w h
    exact ⟨0, if_pos (by omega)⟩
  | succ fuel ih =>
    intro perSector w h
    by_cases hend : avail ≤ w.done
    · exact ⟨0, by rw [sweep, RawDevice.sweep, if_pos hend, if_pos hend]⟩
    have hlt := not_le.1 hend
    -- the round in which the call is answered
    suffices hround : ∃ rounds, k.sweep off avail (rounds + 1) perSector
        (k.interruptions off avail perSector w) w =
          some (k.dev.sweep off avail (fuel + 1) perSector w) by
      obtain ⟨rounds, hround⟩ := hround
      have hagain := sweep_interrupted hlt perSector (rounds + 1) _
        (le_refl (k.interruptions off avail perSector w))
      rw [Nat.sub_self, hround] at hagain
      exact ⟨_, hagain⟩
    have hcall : k.call w.calls (k.interruptions off avail perSector w)
        (k.request off avail perSector w).1 (k.request off avail perSector w).2 =
          .answered (k.dev.pread w.calls (k.request off avail perSector w).1
            (k.request off avail perSector w).2) := if_neg (lt_irrefl _)
    cases perSector with
    | true =>
      have hnext := Nat.lt_div_mul_add (a := w.done) k.dev.sectorSize_pos
      obtain ⟨rounds, hrest⟩ := ih true (k.dev.sweepSector off avail w) (by
        rw [sweepSector_done]
        simp only [if_true] at h ⊢
        omega)
      refine ⟨rounds, ?_⟩
      rw [sweep, if_neg hend, if_pos rfl, RawDevice.sweep, if_neg hend, if_pos rfl]
      dsimp only [request] at hcall ⊢
      rw [hcall]
      exact hrest
    | false =>
      simp only [Bool.false_eq_true, if_false] at h
      dsimp only [request] at hcall
      rw [RawDevice.sweep, if_neg hend, if_neg Bool.false_ne_true]
      cases hread : k.dev.pread w.calls (off + w.done) (avail - w.done) with
      | ok m =>
        rw [hread] at hcall
        cases m with
        | zero => exact ⟨0, by rw [sweep, if_neg hend, if_neg Bool.false_ne_true, hcall]⟩
        | succ m =>
          have hone : ∀ rounds, k.sweep off avail (rounds + 1) false
              (k.interruptions off avail false w) w = k.sweep off avail rounds false 0 { w with
                calls := w.calls + 1, done := w.done + (m + 1),
                buf := k.dev.fill off w.done (w.done + (m + 1)) w.buf } := fun rounds => by
            rw [sweep, if_neg hend, if_neg Bool.false_ne_true, hcall]
          simp only [hone]
          apply ih
          simp only [Bool.false_eq_true, if_false]
          omega
      | err gone =>
        rw [hread] at hcall
        have hone : ∀ rounds, k.sweep off avail (rounds + 1) false
            (k.interruptions off avail false w) w = k.sweep off avail rounds true 0 { w with
              calls := w.calls + 1, vanished := w.vanished || gone } := fun rounds => by
          rw [sweep, if_neg hend, if_neg Bool.false_ne_true, hcall]
        simp only [hone]
        apply ih
        simp only [if_true]
        omega

/-- A read comes to the outcome that it has without interruptions. -/
lemma reads_iff_eq {s : RawState} {n : ℕ} {out : ReadOutcome} :
    k.Reads s off n out ↔ out = (k.dev.readAt s off n).1 := by
  unfold Reads readAt RawDevice.readAt
  dsimp only
  split
  · simp [eq_comm]
  split
  · simp [eq_comm]
  obtain ⟨rounds, hrounds⟩ := sweep_total k off (min n (k.dev.len - off))
    (min n (k.dev.len - off) + 1) false ⟨s.calls, 0, List.replicate n 0,
      ReadResult.good k.dev.sectorSize (divCeil n k.dev.sectorSize), s.vanished⟩
    (by simp)
  constructor
  · rintro ⟨fuel, s', h⟩
    obtain ⟨w, hw, hout⟩ := Option.map_eq_some_iff.1 h
    have hlong := sweep_mono _ _ _ _ _ hw rounds
    rw [Nat.add_comm, sweep_mono _ _ _ _ _ hrounds fuel] at hlong
    cases hlong
    exact (congrArg Prod.fst hout).symm
  · rintro rfl
    exact ⟨rounds, _, Option.map_eq_some_iff.2 ⟨_, hrounds, rfl⟩⟩

/-! ## What the loop makes of the sectors -/

lemma sweepSector_result (dev : RawDevice) (off avail : ℕ) (w : RawDevice.Sweep) :
    (dev.sweepSector off avail w).result = w.result ∨
      (dev.sweepSector off avail w).result = w.result.markBad (w.done / dev.sectorSize) ∧
        dev.pread w.calls (off + w.done / dev.sectorSize * dev.sectorSize)
          (min (w.done / dev.sectorSize * dev.sectorSize + dev.sectorSize) avail -
            w.done / dev.sectorSize * dev.sectorSize) ≠
          .ok (min (w.done / dev.sectorSize * dev.sectorSize + dev.sectorSize) avail -
            w.done / dev.sectorSize * dev.sectorSize) := by
  unfold RawDevice.sweepSector
  dsimp only
  split
  · rename_i m hread
    split
    · exact .inl rfl
    · rename_i hm
      exact .inr ⟨rfl, fun h => hm (Pread.ok.inj (hread.symm.trans h))⟩
  · rename_i hread
    exact .inr ⟨rfl, fun h => Pread.noConfusion (hread.symm.trans h)⟩

/-- What holds of the result and is kept where a sector is read on its own holds at the end. -/
lemma sweep_result (dev : RawDevice) (P : ReadResult → Prop)
    (hP : ∀ w, P w.result → P (dev.sweepSector off avail w).result) (fuel : ℕ) :
    ∀ (perSector : Bool) (w : RawDevice.Sweep), P w.result →
      P (dev.sweep off avail fuel perSector w).result := by
  induction fuel with
  | zero => exact fun _ _ h => h
  | succ fuel ih =>
    intro perSector w h
    rw [RawDevice.sweep]
    split
    · exact h
    cases perSector with
    | true => exact ih true _ (hP w h)
    | false =>
      rw [if_neg Bool.false_ne_true]
      split
      · exact h
      · exact ih false _ h
      · exact ih true _ h

/-- No sector is unread. -/
lemma sweep_read (dev : RawDevice) (fuel : ℕ) (perSector : Bool) (w : RawDevice.Sweep)
    (h : ∀ j, w.result.status j = .good ∨ w.result.status j = .bad) (j : ℕ) :
    (dev.sweep off avail fuel perSector w).result.status j = .good ∨
      (dev.sweep off avail fuel perSector w).result.status j = .bad := by
  refine sweep_result dev (fun r => ∀ j, r.status j = .good ∨ r.status j = .bad)
    (fun w hw j => ?_) fuel perSector w h j
  rcases sweepSector_result dev off avail w with hr | ⟨hr, -⟩
  · rw [hr]
    exact hw j
  · rw [hr, ReadResult.status_markBad]
    split
    · exact .inr rfl
    · exact hw j

/-- A sector that can be read is not reported bad on its own. -/
lemma sweep_readable (dev : RawDevice) {n j : ℕ} (hj : dev.Readable off n j)
    (havail : avail = min n (dev.len - off)) (fuel : ℕ) (perSector : Bool) (w : RawDevice.Sweep)
    (h : w.result.status j = .good) :
    (dev.sweep off avail fuel perSector w).result.status j = .good := by
  refine sweep_result dev (fun r => r.status j = .good) (fun w hw => ?_) fuel perSector w h
  rcases sweepSector_result dev off avail w with hr | ⟨hr, hfail⟩
  · rw [hr]
    exact hw
  · rw [hr, ReadResult.status_markBad, if_neg]
    · exact hw
    · rintro ⟨hsec, -⟩
      rw [hsec] at hfail
      have hin := hj.inside
      have hread := hj.reads w.calls
      have hend : min ((j + 1) * dev.sectorSize) n =
          min (j * dev.sectorSize + dev.sectorSize) avail := by
        rw [Nat.add_mul, Nat.one_mul] at hin ⊢
        omega
      rw [hend] at hread
      exact hfail hread

/-- Sector by sector, the loop gets to the end of the request. -/
lemma sweep_perSector_done (dev : RawDevice) (fuel : ℕ) : ∀ w : RawDevice.Sweep,
    w.done ≤ avail → avail ≤ w.done + fuel → (dev.sweep off avail fuel true w).done = avail := by
  induction fuel with
  | zero =>
    intro w hle h
    exact le_antisymm hle h
  | succ fuel ih =>
    intro w hle h
    rw [RawDevice.sweep]
    split
    · exact le_antisymm hle (by assumption)
    · have hnext := Nat.lt_div_mul_add (a := w.done) dev.sectorSize_pos
      rw [if_pos rfl]
      apply ih
      · rw [sweepSector_done]
        exact min_le_right _ _
      · rw [sweepSector_done]
        omega

/-- The loop gets to the end of the request, or to where the device reports the end of the file. -/
lemma sweep_done (dev : RawDevice) {c₀ : ℕ} (fuel : ℕ) : ∀ w : RawDevice.Sweep,
    dev.HandsOut off avail c₀ w.calls w.done → avail < w.done + fuel →
      (dev.sweep off avail fuel false w).done = avail ∨
        ∃ c, dev.Halts off avail c₀ c (dev.sweep off avail fuel false w).done (.ok 0) := by
  induction fuel with
  | zero =>
    intro w hout h
    have := hout.le_avail
    omega
  | succ fuel ih =>
    intro w hout h
    rw [RawDevice.sweep]
    split
    · exact .inl (le_antisymm hout.le_avail (by assumption))
    rename_i hend
    rw [if_neg Bool.false_ne_true]
    split
    · rename_i hread
      exact .inr ⟨w.calls, hout, not_le.1 hend, hread⟩
    · rename_i m hread
      exact ih _ (hout.more (not_le.1 hend) hread (Nat.succ_pos m)) (by dsimp only; omega)
    · exact .inl (sweep_perSector_done dev fuel _ hout.le_avail (by dsimp only; omega))

/-- No sector of a read is unread. -/
lemma readAt_read (dev : RawDevice) (s : RawState) (off n j : ℕ) :
    (dev.readAt s off n).1.result.status j = .good ∨
      (dev.readAt s off n).1.result.status j = .bad := by
  unfold RawDevice.readAt
  dsimp only
  split
  · exact .inl (ReadResult.status_good ..)
  split
  · rw [ReadResult.allBad, ReadResult.status_foldl_markBad]
    split
    · exact .inr rfl
    · exact .inl (ReadResult.status_good ..)
  · rw [ReadResult.status_markBadFromByte]
    split
    · exact .inr rfl
    · exact sweep_read dev _ _ _ (fun i => .inl (ReadResult.status_good ..)) j

/-- The sectors that can be read are good exactly if the device does not report the end of the file
before one of them. -/
lemma isolated_iff (dev : RawDevice) (s : RawState) (r : AlignedRead dev) :
    (∀ j, dev.Readable r.off r.n j → (dev.readAt s r.off r.n).1.result.status j = .good) ↔
      ∀ c e, dev.Halts r.off (min r.n (dev.len - r.off)) s.calls c e (.ok 0) →
        ∀ j, dev.Readable r.off r.n j → min ((j + 1) * dev.sectorSize) r.n ≤ e := by
  have hss := dev.sectorSize_pos
  have hasked : ∀ j, dev.Readable r.off r.n j → 0 < min ((j + 1) * dev.sectorSize) r.n ∧
      r.off < dev.len := by
    intro j hj
    have hlt := hj.asked
    have hin := hj.inside
    rw [Nat.add_mul, Nat.one_mul] at hin ⊢
    omega
  by_cases hnone : r.n = 0 ∨ dev.len ≤ r.off
  · -- there is no such sector
    refine iff_of_true (fun j hj => ?_) fun c e _ j hj => ?_
    all_goals
      obtain ⟨hpos, hlt⟩ := hasked j hj
      omega
  push Not at hnone
  set avail := min r.n (dev.len - r.off) with havail
  set w := dev.sweep r.off avail (avail + 1) false ⟨s.calls, 0, List.replicate r.n 0,
    ReadResult.good dev.sectorSize (divCeil r.n dev.sectorSize), s.vanished⟩ with hw
  have hread : (dev.readAt s r.off r.n).1.result =
      w.result.markBadFromByte dev.sectorSize r.n w.done := by
    rw [RawDevice.readAt, if_neg hnone.1, if_neg (by
      rw [not_or, not_not, not_le]
      exact ⟨r.aligned, hnone.2⟩)]
  have hcount : w.result.sectorCount = divCeil r.n dev.sectorSize :=
    sweep_result dev (·.sectorCount = divCeil r.n dev.sectorSize) (fun w h => by
      rcases sweepSector_result dev r.off avail w with hr | ⟨hr, -⟩
      · rw [hr, h]
      · rw [hr, ReadResult.sectorCount_markBad, h]) _ _ _ rfl
  have hstatus : ∀ j, dev.Readable r.off r.n j →
      ((dev.readAt s r.off r.n).1.result.status j = .good ↔
        min ((j + 1) * dev.sectorSize) r.n ≤ w.done) := by
    intro j hj
    have hgood : w.result.status j = .good :=
      sweep_readable dev hj havail _ _ _ (ReadResult.status_good ..)
    have hlt : j < divCeil r.n dev.sectorSize := (lt_divCeil_iff hss).2 hj.asked
    rw [hread, ReadResult.status_markBadFromByte, hcount, hgood]
    by_cases hcut : w.done < min ((j + 1) * dev.sectorSize) r.n
    · rw [if_pos ⟨hlt, hcut⟩]
      exact iff_of_false (by decide) (not_le.2 hcut)
    · rw [if_neg (fun h => hcut h.2)]
      exact iff_of_true rfl (not_lt.1 hcut)
  have hstart : RawDevice.Sweep.Sound dev r.off avail r.n ⟨s.calls, 0, List.replicate r.n 0,
      ReadResult.good dev.sectorSize (divCeil r.n dev.sectorSize), s.vanished⟩ :=
    ⟨by simp, rfl, fun k _ => by simp, fun i hi => absurd (ReadResult.status_good _ _ _) hi⟩
  obtain ⟨-, -, hstops, -⟩ := RawDevice.sweep_spec (show avail ≤ r.n by omega) (avail + 1) _ hstart
    (fun i => ReadResult.status_good _ _ _) .start (by dsimp only; omega)
  rw [← hw] at hstops
  constructor
  · intro h c e hhalts j hj
    rw [hstops e (.inl ⟨c, hhalts⟩)]
    exact (hstatus j hj).1 (h j hj)
  · intro h j hj
    rw [hstatus j hj]
    have hend : w.done = avail ∨ ∃ c, dev.Halts r.off avail s.calls c w.done (.ok 0) :=
      sweep_done dev (avail + 1) _ .start (by dsimp only; omega)
    rcases hend with hdone | ⟨c, hhalts⟩
    · have hin := hj.inside
      omega
    · exact h c w.done hhalts j hj

/-- **What a raw device makes of the kernel's answers.**  A read is sound, however often its calls
are interrupted, exactly if what is handed out of a sector before the end of the file is zero and
nothing that can be read lies behind that. -/
theorem readsSoundly_iff (s : RawState) (r : AlignedRead k.dev) :
    k.ReadsSoundly s r ↔ k.Settles s r := by
  have hhonours := RawDevice.honours_iff_stops (n := r.n) (s := s) r.aligned
  have hisolated := isolated_iff k.dev s r
  constructor
  · intro h
    have hreads := reads_iff_eq.2 (Eq.refl (k.dev.readAt s r.off r.n).1)
    exact ⟨hhonours.1 (h.honours _ hreads), hisolated.1 (h.isolated _ hreads)⟩
  · intro h
    refine ⟨⟨_, reads_iff_eq.2 rfl⟩, fun out hout => ?_, fun out hout => ?_, fun out hout => ?_⟩
    all_goals rw [reads_iff_eq.1 hout]
    · exact hhonours.2 h.zeros
    · exact readAt_read k.dev s r.off r.n
    · exact hisolated.2 h.final

/-! ## The end of the file in the middle of a sector -/

/-- A device of 512 bytes that hands out 100 of them and then reports the end of the file, with a
signal before each answer. -/
def cutKernel : RawKernel where
  dev :=
    { len := 512
      sectorSize := 512
      medium := fun _ => 7
      pread := fun c _ n => .ok (if c = 0 then min n 100 else 0)
      sectorSize_pos := by omega
      len_le := by decide
      pread_le := by
        intro c off n m h
        rw [← Pread.ok.inj h]
        split <;> omega }
  interrupts := fun _ _ _ => 1

/-- The sector is bad, and the 100 bytes are in the buffer. -/
theorem cutKernel_counterexample :
    ¬ ∀ (k : RawKernel) (s : RawState) (r : AlignedRead k.dev), k.ReadsSoundly s r := by
  intro h
  have hsound := h cutKernel ⟨0, false⟩ ⟨0, 512, Nat.dvd_zero _⟩
  have hreads : cutKernel.Reads ⟨0, false⟩ 0 512 (cutKernel.dev.readAt ⟨0, false⟩ 0 512).1 :=
    reads_iff_eq.2 rfl
  have hzero := (hsound.honours _ hreads).zeroFilled 0 (by decide) (by decide)
  exact absurd hzero (by decide)

end RawKernel

end Reclaim
