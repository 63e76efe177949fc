import Reclaim.Carve.Bounded

/-!
# The inferred block size

A sampling pass carves the beginning of the source and infers the block size from the offsets of
the files it finds in full: their greatest common divisor, at most 1 MiB.  A scan with that block
size passes over every candidate of a block-aligned signature that is not at a multiple of it.

`sample_accepted_iff` says when it passes over none of the files that the sampling pass found.  A
divisor above the limit is cut to the limit, which need not divide it; and the gate looks at the
candidate, while the divisor is one of the offsets, which a validator may have moved.
-/

namespace Reclaim

open FileBytes

/-- The gate of `identify_from`: a block-aligned signature is believed at block boundaries only. -/
def CarveOptions.gateRejects (opts : CarveOptions) (blockSize fileStart : ℕ)
    (sig : SigDef) : Bool :=
  !opts.bruteForce && sig.blockAligned && !(blockSize == 0 || fileStart % blockSize == 0)

lemma CarveOptions.gateRejects_eq_false_iff {opts : CarveOptions} {blockSize fileStart : ℕ}
    {sig : SigDef} (hpos : 0 < blockSize) : opts.gateRejects blockSize fileStart sig = false ↔
      opts.bruteForce = true ∨ (sig.blockAligned = true → blockSize ∣ fileStart) := by
  rw [CarveOptions.gateRejects, beq_false_of_ne hpos.ne', Bool.false_or, Nat.dvd_iff_mod_eq_zero]
  cases opts.bruteForce <;> cases sig.blockAligned <;> simp

/-- A file that the sampling pass finds in full: its candidate, the signature behind it, and the
file. -/
structure Sampled where
  fileStart : ℕ
  sig : SigDef
  file : CarvedFile

namespace CarveEngine

variable (E : CarveEngine)

/-! ## The sampling pass, with what it finds -/

/-- `pickBetter`, with the signatures behind the results. -/
def pickBetterBy (best : Option (CarvedFile × SigDef)) (new : CarvedFile × SigDef) :
    Option (CarvedFile × SigDef) :=
  match best with
  | none => some new
  | some c =>
    if c.1.score < new.1.score ∨ new.1.score = c.1.score ∧ c.1.len < new.1.len then some new
    else some c

/-- `identifyBest`, with the signature behind the result. -/
def identifyBestBy (len : ℕ) (opts : CarveOptions) (blockSize fileStart : ℕ) :
    List ℕ → List String → Option (CarvedFile × SigDef) → ReadProg (Option (CarvedFile × SigDef))
  | [], _, best => pure best
  | si :: rest, seen, best =>
    match E.sigs[si]? with
    | none => identifyBestBy len opts blockSize fileStart rest seen best
    | some sig =>
      let name := sig.validator.getD ""
      if !opts.sigAllowed sig || opts.gateRejects blockSize fileStart sig ||
          (name != "" && seen.contains name) then
        identifyBestBy len opts blockSize fileStart rest seen best
      else do
        let seen := if name != "" then seen ++ [name] else seen
        match ← E.runOne len opts fileStart sig with
        | none => identifyBestBy len opts blockSize fileStart rest seen best
        | some cf =>
          identifyBestBy len opts blockSize fileStart rest seen (pickBetterBy best (cf, sig))

/-- `identify_one`, with the signature behind the result. -/
def identifyOneBy (len : ℕ) (opts : CarveOptions) (fileStart blockSize : ℕ) :
    ReadProg (Option (CarvedFile × SigDef)) := do
  let buf ← ReadProg.bytes fileStart (min (maxHeaderSpan E.sigs) (64 * 1024))
  let sigIdxs := (scanBuffer E.automaton E.sigs fileStart buf).filterMap fun c =>
    if c.fileStart = fileStart then some c.sigIdx else none
  let blank ← if opts.bruteForce then pure false
    else do
      let head ← ReadProg.bytes fileStart 64
      pure (uniform head)
  if blank then pure none
  else E.identifyBestBy len opts blockSize fileStart sigIdxs [] none

/-- `sampleStarts`, with the files. -/
def sampledStarts (len sector : ℕ) : List ℕ → List Sampled → ReadProg (List Sampled)
  | [], files => pure files
  | fs :: rest, files => do
    match ← E.identifyOneBy len defaultOptions fs sector with
    | none => sampledStarts len sector rest files
    | some (cf, sig) =>
      if cf.validity ≠ .full then sampledStarts len sector rest files
      else
        let files := files ++ [⟨fs, sig, cf⟩]
        if 12 ≤ files.length then pure files else sampledStarts len sector rest files

/-- `sample`, with the files. -/
def sampled (len sector limit : ℕ) : ℕ → ℕ → List Sampled → ReadProg (List Sampled)
  | 0, _, files => pure files
  | n + 1, pos, files => do
    let buf ← ReadProg.bytes pos (min (limit - pos) (E.chunk + E.overlap))
    let starts := ((scanBuffer E.automaton E.sigs pos buf).filterMap fun c =>
      if pos ≤ c.fileStart ∧ c.fileStart - pos < E.chunk then some c.fileStart else none)
    let files ← E.sampledStarts len sector (starts.mergeSort.dedup) files
    if 12 ≤ files.length then pure files
    else sampled len sector limit n (pos + E.chunk) files

/-- What the sampling pass finds. -/
def sampleFiles (len sectorSize : ℕ) : ReadProg (List Sampled) :=
  let limit := min len (128 * 1024 * 1024)
  E.sampled len (max sectorSize 1) limit (divCeil limit E.chunk) 0 []

/-- The offsets of the files. -/
def offsets (files : List Sampled) : List ℕ := files.map fun f => f.file.offset

lemma length_offsets (files : List Sampled) : (offsets files).length = files.length :=
  List.length_map ..

section Traced

variable {E} {R : Reader} {len blockSize fileStart sector : ℕ} {opts : CarveOptions}

lemma map_pickBetterBy (best : Option (CarvedFile × SigDef)) (new : CarvedFile × SigDef) :
    (pickBetterBy best new).map Prod.fst = pickBetter (best.map Prod.fst) new.1 := by
  cases best with
  | none => rfl
  | some c =>
    rw [pickBetterBy, Option.map_some, pickBetter]
    split <;> rfl

/-- The signature is only noted. -/
lemma map_identifyBestBy (sis : List ℕ) (seen : List String) (best : Option (CarvedFile × SigDef)) :
    ((E.identifyBestBy len opts blockSize fileStart sis seen best).run R).map Prod.fst =
      (E.identifyBest len opts fileStart (blockSize == 0 || fileStart % blockSize == 0) sis seen
        (best.map Prod.fst)).run R := by
  induction sis generalizing seen best with
  | nil => rfl
  | cons si rest ih =>
    rw [identifyBestBy, identifyBest]
    cases E.sigs[si]? with
    | none => exact ih seen best
    | some sig =>
      dsimp only
      rw [CarveOptions.gateRejects, ReadProg.run_ite, ReadProg.run_ite]
      split
      · exact ih seen best
      · rw [ReadProg.run_bind, ReadProg.run_bind]
        cases (E.runOne len opts fileStart sig).run R with
        | none => exact ih _ best
        | some cf =>
          dsimp only
          rw [ih, map_pickBetterBy]

lemma map_identifyOneBy (fs : ℕ) :
    ((E.identifyOneBy len opts fs blockSize).run R).map Prod.fst =
      (E.identifyOne len opts fs blockSize).run R := by
  simp only [identifyOneBy, identifyOne, identifyFrom, ReadProg.run_bind, ReadProg.run_ite]
  split
  · exact map_identifyBestBy _ _ none
  · simp only [ReadProg.run_pure]
    cases uniform ((ReadProg.bytes fs 64).run R) with
    | true => rfl
    | false => exact map_identifyBestBy _ _ none

lemma map_sampledStarts (starts : List ℕ) (files : List Sampled) :
    offsets ((E.sampledStarts len sector starts files).run R) =
      (E.sampleStarts len sector starts (offsets files)).run R := by
  induction starts generalizing files with
  | nil => rfl
  | cons fs rest ih =>
    rw [sampledStarts, sampleStarts, ReadProg.run_bind, ReadProg.run_bind, ← map_identifyOneBy]
    cases (E.identifyOneBy len defaultOptions fs sector).run R with
    | none => exact ih files
    | some found =>
      obtain ⟨cf, sig⟩ := found
      have hadd : offsets (files ++ [⟨fs, sig, cf⟩]) = offsets files ++ [cf.offset] := by
        simp [offsets]
      simp only [Option.map_some]
      rw [ReadProg.run_ite, ReadProg.run_ite]
      split
      · exact ih files
      · rw [← hadd, length_offsets, ReadProg.run_ite]
        split
        · rfl
        · exact ih _

lemma map_sampled (limit n pos : ℕ) (files : List Sampled) :
    offsets ((E.sampled len sector limit n pos files).run R) =
      (E.sample len sector limit n pos (offsets files)).run R := by
  induction n generalizing pos files with
  | zero => rfl
  | succ n ih =>
    simp only [sampled, sample, ReadProg.run_bind, ReadProg.run_bytes, ← map_sampledStarts]
    generalize (E.sampledStarts len sector _ files).run R = found
    rw [length_offsets, ReadProg.run_ite, ReadProg.run_ite]
    split
    · rfl
    · exact ih _ _

/-! ## What the sampling pass accepts -/

/-- The signature behind the best result has passed the gate. -/
lemma identifyBestBy_accepted {sis : List ℕ} {seen : List String}
    {best : Option (CarvedFile × SigDef)}
    (hbest : ∀ c, best = some c → opts.gateRejects blockSize fileStart c.2 = false) :
    ∀ c, (E.identifyBestBy len opts blockSize fileStart sis seen best).run R = some c →
      opts.gateRejects blockSize fileStart c.2 = false := by
  induction sis generalizing seen best with
  | nil => exact hbest
  | cons si rest ih =>
    rw [identifyBestBy]
    cases E.sigs[si]? with
    | none => exact ih hbest
    | some sig =>
      dsimp only
      rw [ReadProg.run_ite]
      split
      · exact ih hbest
      · rename_i hpass
        rw [ReadProg.run_bind]
        cases (E.runOne len opts fileStart sig).run R with
        | none => exact ih hbest
        | some cf =>
          apply ih
          intro c hc
          have hgate : opts.gateRejects blockSize fileStart sig = false := by
            rw [Bool.or_eq_true, Bool.or_eq_true, not_or, not_or] at hpass
            exact Bool.eq_false_iff.2 hpass.1.2
          unfold pickBetterBy at hc
          split at hc
          · rw [← Option.some.inj hc]
            exact hgate
          · rename_i b
            split at hc
            · rw [← Option.some.inj hc]
              exact hgate
            · exact hbest c hc

lemma identifyOneBy_accepted {fs : ℕ} {c : CarvedFile × SigDef}
    (h : (E.identifyOneBy len opts fs blockSize).run R = some c) :
    opts.gateRejects blockSize fs c.2 = false := by
  simp only [identifyOneBy, ReadProg.run_bind, ReadProg.run_ite, ReadProg.run_pure] at h
  split at h
  · exact identifyBestBy_accepted (fun _ h => by cases h) c h
  · cases hblank : uniform ((ReadProg.bytes fs 64).run R) with
    | true =>
      rw [hblank] at h
      cases h
    | false =>
      rw [hblank] at h
      exact identifyBestBy_accepted (fun _ h => by cases h) c h

/-- Every file of the sample has passed the gate at the sector size. -/
def AllAccepted (sector : ℕ) (files : List Sampled) : Prop :=
  ∀ f ∈ files, defaultOptions.gateRejects sector f.fileStart f.sig = false

lemma sampledStarts_accepted {starts : List ℕ} {files : List Sampled}
    (h : AllAccepted sector files) :
    AllAccepted sector ((E.sampledStarts len sector starts files).run R) := by
  induction starts generalizing files with
  | nil => exact h
  | cons fs rest ih =>
    rw [sampledStarts, ReadProg.run_bind]
    cases hfound : (E.identifyOneBy len defaultOptions fs sector).run R with
    | none => exact ih h
    | some found =>
      obtain ⟨cf, sig⟩ := found
      have hmore : AllAccepted sector (files ++ [⟨fs, sig, cf⟩]) := by
        intro f hf
        rcases List.mem_append.1 hf with hf | hf
        · exact h f hf
        · obtain rfl := List.mem_singleton.1 hf
          exact identifyOneBy_accepted hfound
      dsimp only
      rw [ReadProg.run_ite]
      split
      · exact ih h
      · rw [ReadProg.run_ite]
        split
        · exact hmore
        · exact ih hmore

lemma sampled_accepted {limit n pos : ℕ} {files : List Sampled} (h : AllAccepted sector files) :
    AllAccepted sector ((E.sampled len sector limit n pos files).run R) := by
  induction n generalizing pos files with
  | zero => exact h
  | succ n ih =>
    rw [sampled, ReadProg.run_bind, ReadProg.run_bind, ReadProg.run_ite]
    split
    · exact sampledStarts_accepted h
    · exact ih (sampledStarts_accepted h)

end Traced

/-! ## The block size of a sample -/

/-- The greatest common divisor of the offsets. -/
def offsetsGcd (files : List Sampled) : ℕ :=
  (offsets files).foldl Nat.gcd ((offsets files).headD 0)

/-- The largest block size that is inferred. -/
def maxBlockSize : ℕ := 1024 * 1024

/-- The block size that a sample is the reason for. -/
def sampleBlockSize (sector : ℕ) (files : List Sampled) : ℕ :=
  if files.length < 3 ∨ offsetsGcd files < sector ∨ offsetsGcd files % sector ≠ 0 then sector
  else max (min (offsetsGcd files) maxBlockSize) sector

lemma run_inferBlockSize (R : Reader) (len sectorSize : ℕ) :
    (E.inferBlockSize len sectorSize).run R =
      sampleBlockSize (max sectorSize 1) ((E.sampleFiles len sectorSize).run R) := by
  simp only [inferBlockSize, ReadProg.run_bind, ReadProg.run_ite, ReadProg.run_pure]
  have hmap : (E.sample len (max sectorSize 1) (min len (128 * 1024 * 1024))
      (divCeil (min len (128 * 1024 * 1024)) E.chunk) 0 []).run R =
        offsets ((E.sampleFiles len sectorSize).run R) := (map_sampled _ _ _ []).symm
  rw [hmap, length_offsets]
  set files := (E.sampleFiles len sectorSize).run R
  have hgcd : (offsets files).foldl Nat.gcd ((offsets files).headD 0) = offsetsGcd files := rfl
  have hcap : maxBlockSize ≤ u32Max := by decide
  rw [hgcd, show 1024 * 1024 = maxBlockSize from rfl, sampleBlockSize]
  by_cases hfew : files.length < 3
  · rw [if_pos hfew, if_pos (.inl hfew)]
  · rw [if_neg hfew]
    by_cases hodd : offsetsGcd files < max sectorSize 1 ∨ offsetsGcd files % max sectorSize 1 ≠ 0
    · rw [if_pos hodd, if_pos (.inr hodd)]
    · rw [if_neg hodd, if_neg (not_or.2 ⟨hfew, hodd⟩)]
      split
      · rfl
      · -- only a sector size that is itself above the limit does not fit
        omega

lemma foldl_gcd_dvd (l : List ℕ) (a : ℕ) :
    l.foldl Nat.gcd a ∣ a ∧ ∀ x ∈ l, l.foldl Nat.gcd a ∣ x := by
  induction l generalizing a with
  | nil => exact ⟨dvd_rfl, fun x hx => absurd hx List.not_mem_nil⟩
  | cons b l ih =>
    obtain ⟨hacc, hall⟩ := ih (Nat.gcd a b)
    refine ⟨hacc.trans (Nat.gcd_dvd_left a b), fun x hx => ?_⟩
    rcases List.mem_cons.1 hx with rfl | hx
    · exact hacc.trans (Nat.gcd_dvd_right a x)
    · exact hall x hx

lemma offsetsGcd_dvd {files : List Sampled} {f : Sampled} (hf : f ∈ files) :
    offsetsGcd files ∣ f.file.offset :=
  (foldl_gcd_dvd _ _).2 _ (List.mem_map_of_mem hf)

/-- The files of a sample stay at block boundaries.  If the divisor is within the limit, this is
about the files whose start a validator has moved: their candidates have to be at multiples of it.
If the divisor is above the limit, all candidates have to be at multiples of the limit. -/
def StaysAligned (sector : ℕ) (files : List Sampled) : Prop :=
  files.length < 3 ∨ offsetsGcd files < sector ∨ offsetsGcd files % sector ≠ 0 ∨
    ∀ f ∈ files, f.sig.blockAligned = true →
      if offsetsGcd files ≤ maxBlockSize then
        f.file.offset ≠ f.fileStart → offsetsGcd files ∣ f.fileStart
      else sector < maxBlockSize → maxBlockSize ∣ f.fileStart

/-- **When a sample survives its own block size.**  For every engine, source and reader, the
gate of a scan with the inferred block size passes every file that the sampling pass found in full,
if and only if the scan is brute force or the sample stays aligned. -/
theorem sample_accepted_iff (R : Reader) (len sectorSize : ℕ) (opts : CarveOptions) :
    (∀ f ∈ (E.sampleFiles len sectorSize).run R, opts.gateRejects
        ((E.inferBlockSize len sectorSize).run R) f.fileStart f.sig = false) ↔
      opts.bruteForce = true ∨
        StaysAligned (max sectorSize 1) ((E.sampleFiles len sectorSize).run R) := by
  have haccepted : AllAccepted (max sectorSize 1) ((E.sampleFiles len sectorSize).run R) :=
    sampled_accepted fun f hf => absurd hf List.not_mem_nil
  rw [run_inferBlockSize]
  generalize (E.sampleFiles len sectorSize).run R = files at haccepted ⊢
  set sector := max sectorSize 1 with hsector
  have hpos : 0 < sector := by omega
  have hatSector : ∀ f ∈ files, f.sig.blockAligned = true → sector ∣ f.fileStart := by
    intro f hf hblock
    rcases (CarveOptions.gateRejects_eq_false_iff hpos).1 (haccepted f hf) with h | h
    · exact absurd h (by decide)
    · exact h hblock
  have hblockPos : 0 < sampleBlockSize sector files := by
    unfold sampleBlockSize
    split <;> omega
  simp only [CarveOptions.gateRejects_eq_false_iff hblockPos]
  by_cases hbrute : opts.bruteForce = true
  · exact iff_of_true (fun _ _ => .inl hbrute) (.inl hbrute)
  · simp only [hbrute, false_or, Bool.false_eq_true]
    unfold sampleBlockSize StaysAligned
    by_cases hsmall : files.length < 3 ∨ offsetsGcd files < sector ∨ offsetsGcd files % sector ≠ 0
    · rw [if_pos hsmall]
      exact iff_of_true hatSector (by tauto)
    · rw [if_neg hsmall]
      obtain ⟨hmany, hge, hmod⟩ : ¬ files.length < 3 ∧ ¬ offsetsGcd files < sector ∧
          ¬ offsetsGcd files % sector ≠ 0 := by tauto
      simp only [hmany, hge, hmod, false_or]
      refine forall_congr' fun f => forall_congr' fun hf => forall_congr' fun hblock => ?_
      by_cases hlimit : offsetsGcd files ≤ maxBlockSize
      · rw [if_pos hlimit, min_eq_left hlimit, max_eq_left (not_lt.1 hge)]
        constructor
        · exact fun h _ => h
        · intro h
          by_cases hmoved : f.file.offset = f.fileStart
          · exact hmoved ▸ offsetsGcd_dvd hf
          · exact h hmoved
      · rw [if_neg hlimit, min_eq_right (not_le.1 hlimit).le]
        rcases lt_or_ge sector maxBlockSize with hlt | hge
        · rw [max_eq_left hlt.le]
          exact ⟨fun h _ => h, fun h => h hlt⟩
        · rw [max_eq_right hge]
          exact iff_of_true (hatSector f hf hblock) fun h => absurd hge (not_le.2 h)

end CarveEngine

/-! ## Files 1.5 MiB apart -/

/-- How far the files lie from each other. -/
def spacing : ℕ := 1572864

/-- A trailer at every multiple of the spacing. -/
def spacedByte (x : ℕ) : UInt8 := if x < spacing then 0 else byteAt DmgTrailer.magic (x % spacing)

/-- A source with three of them. -/
def spacedReader : Reader := fun off n => ((List.range n).map fun k => spacedByte (off + k), false)

/-- The length of the source. -/
def spacedLen : ℕ := 3 * spacing + 512

/-- What is carved at a trailer. -/
def spacedFile (offset : ℕ) : CarvedFile where
  offset := offset
  len := 512
  format := "archive.dmg"
  family := "archive"
  ext := "dmg"
  validity := .full
  score := 80
  metadata := ⟨none, none, none⟩

lemma take_drop_map_range (f : ℕ → UInt8) {n i m : ℕ} (h : i + m ≤ n) :
    (((List.range n).map f).drop i).take m = (List.range m).map fun k => f (i + k) := by
  apply List.ext_getElem (by simp; omega)
  intro k hk hk'
  simp

/-- The magic lies at the multiples of the spacing. -/
lemma occursAt_spaced_iff {i : ℕ} :
    OccursAt DmgTrailer.magic (spacedReader 0 spacedLen).1 i ↔
      i = spacing ∨ i = 2 * spacing ∨ i = 3 * spacing := by
  have hspacing : spacing = 1572864 := rfl
  have hlen : spacedLen = 4719104 := rfl
  have hmagic : DmgTrailer.magic.length = 4 := rfl
  simp only [spacedReader, Nat.zero_add, OccursAt, hmagic]
  constructor
  · intro h
    have hin : i + 4 ≤ spacedLen := by
      have := congrArg List.length h
      rw [List.length_take, List.length_drop, List.length_map, List.length_range, hmagic] at this
      omega
    rw [take_drop_map_range _ hin] at h
    have hfirst : spacedByte i = 0x6B := congrArg (byteAt · 0) h
    unfold spacedByte at hfirst
    split at hfirst
    · exact absurd hfirst (by decide)
    · rename_i hge
      -- the first byte of the magic is the only one of its value
      have hmod : i % spacing = 0 := by
        rcases hr : i % spacing with _ | _ | _ | _ | r
        · rfl
        all_goals
          rw [hr] at hfirst
          exact absurd hfirst (by simp [DmgTrailer.magic, byteAt])
      rw [hspacing] at hmod hge ⊢
      omega
  · intro h
    rw [take_drop_map_range _ (by omega)]
    rcases h with rfl | rfl | rfl <;> decide

/-- What is found at a trailer, by evaluation. -/
lemma identify_spaced {fs : ℕ} (h : fs = spacing ∨ fs = 2 * spacing ∨ fs = 3 * spacing) :
    ∃ sig, (DmgTrailer.engine.identifyOneBy spacedLen CarveEngine.defaultOptions fs 512).run
      spacedReader = some (spacedFile fs, sig) ∧ sig.blockAligned = true := by
  have hmap : ((DmgTrailer.engine.identifyOneBy spacedLen CarveEngine.defaultOptions fs 512).run
      spacedReader).map (fun c => (c.1, c.2.blockAligned)) = some (spacedFile fs, true) := by
    rcases h with rfl | rfl | rfl <;> decide +kernel
  obtain ⟨⟨cf, sig⟩, hrun, hc⟩ := Option.map_eq_some_iff.1 hmap
  obtain ⟨rfl, hblock⟩ := Prod.mk.inj hc
  exact ⟨sig, hrun, hblock⟩

/-- The candidates of the sampling pass. -/
lemma spaced_starts : (((scanBuffer DmgTrailer.engine.automaton DmgTrailer.engine.sigs 0
      (spacedReader 0 spacedLen).1).filterMap fun c =>
        if 0 ≤ c.fileStart ∧ c.fileStart - 0 < carveChunk then some c.fileStart else none).mergeSort
      (· ≤ ·)).dedup = [spacing, 2 * spacing, 3 * spacing] := by
  have hspacing : spacing = 1572864 := rfl
  have hchunk : carveChunk = 8388608 := rfl
  have hrefs : headerRefs DmgTrailer.engine.sigs = [(⟨0, 0⟩, .exact 0 DmgTrailer.magic)] := rfl
  set starts := (scanBuffer DmgTrailer.engine.automaton DmgTrailer.engine.sigs 0
    (spacedReader 0 spacedLen).1).filterMap fun c =>
      if 0 ≤ c.fileStart ∧ c.fileStart - 0 < carveChunk then some c.fileStart else none with hstarts
  have hmem : ∀ fs, fs ∈ starts ↔ fs ∈ [spacing, 2 * spacing, 3 * spacing] := by
    intro fs
    simp only [hstarts, List.mem_filterMap, mem_scanBuffer, hrefs, List.mem_cons,
      List.not_mem_nil, or_false, Option.ite_none_right_eq_some, Option.some.injEq]
    rw [← occursAt_spaced_iff]
    constructor
    · rintro ⟨c, ⟨h, i, hh, hocc, hpos, -⟩, -, rfl⟩
      obtain ⟨-, rfl⟩ := Prod.mk.inj hh
      have hi : c.fileStart = i := by simpa [HeaderPat.exact] using hpos
      rw [hi]
      exact hocc
    · intro hocc
      refine ⟨⟨0, 0, fs⟩, ⟨.exact 0 DmgTrailer.magic, fs, rfl, hocc, ?_, fun _ _ => ?_⟩, ?_, rfl⟩
      · exact (Nat.add_zero fs).trans (Nat.zero_add fs).symm
      · have hwindow : (HeaderPat.exact 0 DmgTrailer.magic).confirm DmgTrailer.magic = true := by
          decide
        exact (congrArg _ hocc).trans hwindow
      · have := occursAt_spaced_iff.1 hocc
        show 0 ≤ fs ∧ fs - 0 < carveChunk
        omega
  refine @List.Perm.eq_of_pairwise _ (· ≤ ·) _ _ ?_ ?_ ?_ ?_
  · exact fun a b _ _ h h' => le_antisymm h h'
  · exact ((List.pairwise_mergeSort' (· ≤ ·) starts).sublist (List.dedup_sublist _))
  · decide
  · rw [List.perm_ext_iff_of_nodup (List.nodup_dedup _) (by decide)]
    intro fs
    rw [List.mem_dedup, List.mem_mergeSort, hmem]

/-- What the sampling pass finds. -/
lemma spaced_sample : ∃ sig₁ sig₂ sig₃, sig₁.blockAligned = true ∧
    (DmgTrailer.engine.sampleFiles spacedLen 512).run spacedReader =
      [⟨spacing, sig₁, spacedFile spacing⟩, ⟨2 * spacing, sig₂, spacedFile (2 * spacing)⟩,
        ⟨3 * spacing, sig₃, spacedFile (3 * spacing)⟩] := by
  obtain ⟨sig₁, h₁, hblock⟩ := identify_spaced (.inl rfl)
  obtain ⟨sig₂, h₂, -⟩ := identify_spaced (.inr (.inl rfl))
  obtain ⟨sig₃, h₃, -⟩ := identify_spaced (.inr (.inr rfl))
  refine ⟨sig₁, sig₂, sig₃, hblock, ?_⟩
  have hchunks : divCeil (min spacedLen (128 * 1024 * 1024)) DmgTrailer.engine.chunk = 0 + 1 := by
    decide
  have hwant : min (min spacedLen (128 * 1024 * 1024) - 0)
      (DmgTrailer.engine.chunk + DmgTrailer.engine.overlap) = spacedLen := by decide
  have hfull : ∀ fs, ¬ (spacedFile fs).validity ≠ .full := fun fs h => h rfl
  have hstarts := spaced_starts
  unfold CarveEngine.sampleFiles
  dsimp only
  rw [hchunks, CarveEngine.sampled, ReadProg.run_bind, ReadProg.run_bytes, hwant,
    ReadProg.run_bind, show DmgTrailer.engine.chunk = carveChunk from rfl, hstarts]
  simp only [CarveEngine.sampledStarts, ReadProg.run_bind, ReadProg.run_ite,
    show max 512 1 = 512 from rfl, h₁, h₂, h₃, hfull, if_false]
  rfl

/-- **Three files 1.5 MiB apart are passed over with the block size that they are the reason for**:
their divisor is cut to 1 MiB, which does not divide it. -/
theorem sample_accepted_counterexample :
    (DmgTrailer.engine.inferBlockSize spacedLen 512).run spacedReader = 1048576 ∧
      ¬ ∀ f ∈ (DmgTrailer.engine.sampleFiles spacedLen 512).run spacedReader,
        CarveEngine.defaultOptions.gateRejects
          ((DmgTrailer.engine.inferBlockSize spacedLen 512).run spacedReader) f.fileStart f.sig =
            false := by
  obtain ⟨sig₁, sig₂, sig₃, hblock, hsample⟩ := spaced_sample
  have hinfer : (DmgTrailer.engine.inferBlockSize spacedLen 512).run spacedReader = 1048576 := by
    rw [CarveEngine.run_inferBlockSize, hsample, CarveEngine.sampleBlockSize]
    have hgcd : CarveEngine.offsetsGcd [⟨spacing, sig₁, spacedFile spacing⟩,
        ⟨2 * spacing, sig₂, spacedFile (2 * spacing)⟩,
        ⟨3 * spacing, sig₃, spacedFile (3 * spacing)⟩] = spacing := by
      show Nat.gcd (Nat.gcd (Nat.gcd spacing spacing) (2 * spacing)) (3 * spacing) = spacing
      decide
    rw [hgcd]
    rfl
  refine ⟨hinfer, fun h => ?_⟩
  rw [hinfer, hsample] at h
  have hfirst := h ⟨spacing, sig₁, spacedFile spacing⟩ List.mem_cons_self
  rcases (CarveOptions.gateRejects_eq_false_iff (by omega)).1 hfirst with hbrute | haligned
  · exact absurd hbrute (by decide)
  · exact absurd (haligned hblock) (by decide : ¬ 1048576 ∣ spacing)

end Reclaim
