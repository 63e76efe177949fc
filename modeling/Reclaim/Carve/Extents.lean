import Mathlib.Order.Interval.Set.Basic
import Mathlib.Order.LatticeIntervals
import Reclaim.Carve.Sized

/-!
# Formats that end where their last part does

An icon, an executable or a library has tables of parts, each an offset and a size, and the
validators take the farthest end of a part for the end of the file.  For each of them `ends` says
where the parts end, as a set over the bytes of the file, and `sizes` that the loops of the
validator find its greatest element.
-/

namespace Reclaim

open FileBytes SizedFormat

/-- A loop over the entries of a table: the farthest of `stop` and of where the entries end. -/
def farthest (entry : ℕ → ReadProg (Option ℕ)) : List ℕ → (stop : ℕ) → ReadProg ℕ
  | [], stop => pure stop
  | i :: rest, stop => do
    match ← entry i with
    | some e => farthest entry rest (max stop e)
    | none => farthest entry rest stop

section Farthest

variable {S : Set ℕ} {stop : ℕ}

/-- An end more among others. -/
lemma union_first (S : Set ℕ) (last : ℕ) (P : ℕ → Prop) :
    S ∪ {e | last = e ∨ P e} = insert last S ∪ {e | P e} := by
  ext e
  simp only [Set.mem_union, Set.mem_ofPred_eq, Set.mem_insert_iff, @eq_comm _ e]
  tauto

/-- The greatest end, with one more. -/
lemma isGreatest_max (h : IsGreatest S stop) (last : ℕ) :
    IsGreatest (insert last S) (max stop last) := by
  rw [max_comm]
  exact h.insert last

/-- **What the loop finds.** -/
lemma isGreatest_farthest (R : Reader) (entry : ℕ → ReadProg (Option ℕ)) (l : List ℕ)
    (h : IsGreatest S stop) :
    IsGreatest (S ∪ {e | ∃ i ∈ l, (entry i).run R = some e}) ((farthest entry l stop).run R) := by
  induction l generalizing S stop with
  | nil => simpa [farthest] using h
  | cons i rest ih =>
    rw [farthest, ReadProg.run_bind]
    simp only [List.mem_cons, exists_eq_or_imp]
    cases hentry : (entry i).run R with
    | none =>
      simpa using ih h
    | some last =>
      simp only [Option.some.injEq]
      rw [union_first]
      exact ih (isGreatest_max h last)

end Farthest

/-! ## ELF -/

namespace Elf

/-- A field, in the byte order of the file. -/
def field (be : Bool) (k : ℕ) (b : Bytes) (off : ℕ) : Option ℕ :=
  if be then getBe k b off else getLe k b off

/-- What the validator takes from the header. -/
structure Header where
  is64 : Bool
  be : Bool
  phoff : ℕ
  shoff : ℕ
  phentsize : ℕ
  phnum : ℕ
  shentsize : ℕ
  shnum : ℕ

/-- The fields of the header, of either width. -/
def header (head : Bytes) : Header :=
  let is64 := head[4]? == some 2
  let be := head[5]? == some 2
  let f k off := (field be k head off).getD 0
  if is64 then ⟨is64, be, f 8 0x20, f 8 0x28, f 2 0x36, f 2 0x38, f 2 0x3A, f 2 0x3C⟩
  else ⟨is64, be, f 4 0x1C, f 4 0x20, f 2 0x2A, f 2 0x2C, f 2 0x2E, f 2 0x30⟩

namespace Header

variable (h : Header)

/-- Where the header ends. -/
def stop : ℕ := if h.is64 then 64 else 52

/-- Where the section headers end. -/
def sectionsStop : ℕ := saturatingAdd h.shoff (saturatingMul h.shnum h.shentsize)

/-- The program headers are looked at. -/
def HasSegments : Prop := 0 < h.phnum ∧ h.phnum < 65536 ∧ 8 ≤ h.phentsize

instance : Decidable h.HasSegments :=
  inferInstanceAs (Decidable (0 < h.phnum ∧ h.phnum < 65536 ∧ 8 ≤ h.phentsize))

/-- Where a program header is. -/
def segmentAt (i : ℕ) : ℕ := saturatingAdd h.phoff (saturatingMul i h.phentsize)

/-- Where the segment of a program header ends in the file. -/
def segmentStop (ph : Bytes) : Option ℕ :=
  if h.is64 then do
    let o ← field h.be 8 ph 8
    let s ← field h.be 8 ph 32
    some (saturatingAdd o s)
  else do
    let o ← field h.be 4 ph 4
    let s ← field h.be 4 ph 16
    some (saturatingAdd o s)

/-- The end of the segment that program header `i` is of. -/
def segment (ctx : Ctx) (i : ℕ) : ReadProg (Option ℕ) := do
  let ph ← ctx.read (h.segmentAt i) (min h.phentsize 64)
  pure (h.segmentStop ph)

end Header

/-- The magic. -/
def magic : Bytes := [0x7F, 0x45, 0x4C, 0x46]

/-- The end of the file: the farthest of all ends. -/
def stopOf (ctx : Ctx) (h : Header) : ReadProg ℕ :=
  let stop := max h.stop h.sectionsStop
  if h.HasSegments then farthest (h.segment ctx) (List.range h.phnum) stop else pure stop

/-- `validate`. -/
def validate (ctx : Ctx) : ReadProg Verdict := do
  let head ← ctx.read 0 64
  if head.take 4 ≠ magic then pure .rejected
  else do
    let stop ← stopOf ctx (header head)
    if stop < 52 then pure .rejected else pure (ctx.fitted stop 85 50 (some "exec.elf"))

/-- Where the header, the section headers and the segments end. -/
def ends (g : Bytes) : Set ℕ :=
  let h := header (slice g 0 64)
  {h.sectionsStop, h.stop} ∪ {e | h.HasSegments ∧ ∃ i < h.phnum,
    h.segmentStop (slice g (h.segmentAt i) (min h.phentsize 64)) = some e}

/-- An ELF file. -/
def format : SizedFormat where
  Accepts g := slice g 0 4 = magic
  ends := ends
  keepsCut := True

variable {R : Reader} {ctx : Ctx} {g : Bytes}

lemma isGreatest_stopOf (hs : ctx.Sees R g) :
    IsGreatest (ends g) ((stopOf ctx (header (slice g 0 64))).run R) := by
  rw [stopOf, ends]
  set h := header (slice g 0 64)
  have hpair : IsGreatest {h.sectionsStop, h.stop} (max h.stop h.sectionsStop) :=
    isGreatest_max isGreatest_singleton h.sectionsStop
  simp only [ReadProg.run_ite, ReadProg.run_pure]
  split_ifs with hsegments
  · convert isGreatest_farthest R (h.segment ctx) (List.range h.phnum) hpair using 2
    ext e
    simp [hsegments, Header.segment, hs.read]
  · convert hpair using 1
    simp [hsegments]

lemma sizes : format.Sizes validate := .of_fitted trivial fun {R ctx g} hs => by
  have hstop := isGreatest_stopOf hs
  rw [validate]
  simp only [ReadProg.run_bind, ReadProg.run_ite, ReadProg.run_pure, hs.read]
  rw [take_slice _ _ (by omega)]
  split_ifs with hmagic hsmall
  · exact .inr ⟨hmagic, rfl⟩
  · -- the header alone is as long
    have hle := hstop.2 (.inl (.inr rfl))
    unfold Header.stop at hle
    split at hle <;> omega
  · exact .inl ⟨not_not.1 hmagic, _, _, _, _, hstop, rfl⟩

end Elf

/-! ## PE -/

namespace Pe

/-- Where the image of a section ends in the file. -/
def sectionStop (sh : Bytes) : ℕ := saturatingAdd (leU32 sh 20) (leU32 sh 16)

/-- The end of section `i` of the table. -/
def sectionEnd (ctx : Ctx) (sectStart i : ℕ) : ReadProg (Option ℕ) := do
  let sh ← ctx.read (sectStart + i * 40) 40
  pure (some (sectionStop sh))

/-- `validate`. -/
def validate (ctx : Ctx) : ReadProg Verdict := do
  let dos ← ctx.read 0 64
  if dos[0]? ≠ some 0x4D ∨ dos[1]? ≠ some 0x5A then pure .rejected
  else
    let lfanew := leU32 dos 0x3C
    if lfanew < 64 ∨ 4096 < lfanew then pure .rejected
    else do
      let coff ← ctx.read lfanew 24
      if coff.take 4 ≠ [0x50, 0x45, 0x00, 0x00] then pure .rejected
      else
        let numSections := leU16 coff 6
        let optHdrSize := leU16 coff 20
        if numSections = 0 ∨ 96 < numSections then pure .rejected
        else do
          let sectStart := lfanew + 24 + optHdrSize
          let stop ← farthest (sectionEnd ctx sectStart) (List.range numSections)
            (sectStart + numSections * 40)
          if stop < 97 then pure .rejected else pure (ctx.fitted stop 85 50 (some "exec.pe"))

/-- Where the PE header is. -/
def headerAt (g : Bytes) : ℕ := leValue (slice g 0x3C 4)

/-- How many sections there are. -/
def numSections (g : Bytes) : ℕ := leValue (slice g (headerAt g + 6) 2)

/-- Where the section table is. -/
def tableAt (g : Bytes) : ℕ := headerAt g + 24 + leValue (slice g (headerAt g + 20) 2)

/-- A PE file: both magics, and a possible number of sections. -/
def format : SizedFormat where
  Accepts g := byteAt g 0 = 0x4D ∧ byteAt g 1 = 0x5A ∧ 64 ≤ headerAt g ∧ headerAt g ≤ 4096 ∧
    slice g (headerAt g) 4 = [0x50, 0x45, 0x00, 0x00] ∧ 0 < numSections g ∧ numSections g ≤ 96
  ends g := {tableAt g + numSections g * 40} ∪
    {e | ∃ i < numSections g, sectionStop (slice g (tableAt g + i * 40) 40) = e}
  keepsCut := True

variable {R : Reader} {ctx : Ctx} {g : Bytes}

lemma isGreatest_sections (hs : ctx.Sees R g) : IsGreatest (format.ends g)
    ((farthest (sectionEnd ctx (tableAt g)) (List.range (numSections g))
      (tableAt g + numSections g * 40)).run R) := by
  convert isGreatest_farthest R (sectionEnd ctx (tableAt g)) (List.range (numSections g))
    (isGreatest_singleton (a := tableAt g + numSections g * 40)) using 1
  ext e
  simp [format, sectionEnd, hs.read]

lemma sizes : format.Sizes validate := .of_fitted trivial fun {R ctx g} hs => by
  have hstop := isGreatest_sections hs
  rw [validate]
  simp only [ReadProg.run_bind, ReadProg.run_ite, ReadProg.run_pure, hs.read, leU16, leU32]
  rw [leField_slice (by omega), leField_slice (by omega), leField_slice (by omega),
    take_slice _ _ (by omega), getElem?_slice (by omega), getElem?_slice (by omega)]
  simp only [Nat.zero_add, ne_eq, Option.some.injEq]
  rw [← headerAt, ← numSections, ← tableAt]
  split_ifs with hmz hat hpe hcount hsmall
  · exact .inr ⟨fun h => hmz.elim (not_not.2 h.1) (not_not.2 h.2.1), rfl⟩
  · exact .inr ⟨fun h => hat.elim (not_lt.2 h.2.2.1) (not_lt.2 h.2.2.2.1), rfl⟩
  · exact .inr ⟨fun h => hcount.elim h.2.2.2.2.2.1.ne' (not_lt.2 h.2.2.2.2.2.2), rfl⟩
  · -- the section table alone is as long
    have hle : tableAt g + numSections g * 40 ≤ _ := hstop.2 (.inl rfl)
    have htable : headerAt g + 24 ≤ tableAt g := Nat.le_add_right _ _
    omega
  · obtain ⟨hm, hz⟩ := not_or.1 hmz
    obtain ⟨hlow, hhigh⟩ := not_or.1 hat
    obtain ⟨hzero, hmany⟩ := not_or.1 hcount
    exact .inl ⟨⟨not_not.1 hm, not_not.1 hz, not_lt.1 hlow, not_lt.1 hhigh, hpe,
      Nat.pos_of_ne_zero hzero, not_lt.1 hmany⟩, _, _, _, _, hstop, rfl⟩
  · exact .inr ⟨fun h => hpe h.2.2.2.2.1, rfl⟩

end Pe

/-! ## Mach-O -/

namespace Macho

/-- `MAX_CMDS`. -/
def maxCmds : ℕ := 100000

/-- `LC_SEGMENT`. -/
def lcSegment : ℕ := 0x1

/-- `LC_SEGMENT_64`. -/
def lcSegment64 : ℕ := 0x19

/-- What the magic stands for. -/
inductive Kind
  | fat
  /-- One architecture, big-endian or not, with 64 bits or not. -/
  | thin (be is64 : Bool)
  deriving DecidableEq

/-- The magics. -/
def kindOf (magic : Bytes) : Option Kind :=
  if magic = [0xCA, 0xFE, 0xBA, 0xBE] then some .fat
  else if magic = [0xFE, 0xED, 0xFA, 0xCE] then some (.thin true false)
  else if magic = [0xFE, 0xED, 0xFA, 0xCF] then some (.thin true true)
  else if magic = [0xCE, 0xFA, 0xED, 0xFE] then some (.thin false false)
  else if magic = [0xCF, 0xFA, 0xED, 0xFE] then some (.thin false true)
  else none

/-- `rd`, and zero where it has none. -/
def rd (be : Bool) (b : Bytes) (off : ℕ) : ℕ := if be then beU32 b off else leU32 b off

/-- `finalize`. -/
def finalize (ctx : Ctx) (stop : ℕ) (id : String) (score : ℕ) : Verdict :=
  if stop < 28 then .rejected else ctx.fitted stop score (score - 35) (some id)

/-- The command is that of a segment. -/
def IsSegment (cmd : ℕ) : Prop := cmd = lcSegment ∨ cmd = lcSegment64

instance (cmd : ℕ) : Decidable (IsSegment cmd) :=
  inferInstanceAs (Decidable (cmd = lcSegment ∨ cmd = lcSegment64))

/-- Where the segment of a command ends in the file. -/
def segmentStop (be : Bool) (cmd : ℕ) (seg : Bytes) : ℕ :=
  if cmd = lcSegment64 then
    if be then saturatingAdd (beU64 seg 40) (beU64 seg 48)
    else saturatingAdd (leU64 seg 40) (leU64 seg 48)
  else saturatingAdd (rd be seg 32) (rd be seg 36)

/-- The load commands from `pos` on, `n` at most: the farthest of `maxExtent` and of where the
segments end. -/
def commands (ctx : Ctx) (be : Bool) : (n pos maxExtent : ℕ) → ReadProg ℕ
  | 0, _, maxExtent => pure maxExtent
  | n + 1, pos, maxExtent => do
    let lc ← ctx.read pos 8
    let cmd := rd be lc 0
    let cmdsize := rd be lc 4
    if cmdsize < 8 then pure maxExtent
    else if IsSegment cmd then do
      let seg ← ctx.read pos 72
      commands ctx be n (saturatingAdd pos cmdsize) (max maxExtent (segmentStop be cmd seg))
    else commands ctx be n (saturatingAdd pos cmdsize) maxExtent

/-- Length of the header of one architecture. -/
def headerLen (is64 : Bool) : ℕ := if is64 then 32 else 28

/-- `thin`. -/
def thin (ctx : Ctx) (be is64 : Bool) : ReadProg Verdict := do
  let head ← ctx.read 0 (headerLen is64)
  let ncmds := rd be head 16
  let sizeofcmds := rd be head 20
  if ncmds = 0 ∨ maxCmds < ncmds then pure .rejected
  else do
    let stop ← commands ctx be ncmds (headerLen is64) (headerLen is64 + sizeofcmds)
    pure (finalize ctx stop "exec.macho" 85)

/-- Where an architecture of a fat file ends. -/
def archStop (a : Bytes) : ℕ := saturatingAdd (beU32 a 8) (beU32 a 12)

/-- The end of architecture `i` of the table. -/
def arch (ctx : Ctx) (i : ℕ) : ReadProg (Option ℕ) := do
  let a ← ctx.read (8 + i * 20) 20
  pure (some (archStop a))

/-- `fat`. -/
def fat (ctx : Ctx) : ReadProg Verdict := do
  let head ← ctx.read 0 8
  let nfat := beU32 head 4
  if nfat < 1 ∨ 32 < nfat then
    -- a Java class, which nothing says the size of
    pure { Verdict.accepted (min ctx.available (16 * 1024 * 1024)) .suspect 40 with
      format := some "exec.class" }
  else do
    let stop ← farthest (arch ctx) (List.range nfat) (8 + nfat * 20)
    pure (finalize ctx stop "exec.macho" 88)

/-- `validate`. -/
def validate (ctx : Ctx) : ReadProg Verdict := do
  let head ← ctx.read 0 8
  match kindOf (head.take 4) with
  | some .fat => fat ctx
  | some (.thin be is64) => thin ctx be is64
  | none => pure .rejected

/-! ### Where the parts end -/

/-- A field of four bytes of the file. -/
def fieldAt (be : Bool) (g : Bytes) (pos : ℕ) : ℕ := rd be (slice g pos 4) 0

/-- Where command `i` is. -/
inductive CommandAt (be : Bool) (g : Bytes) (start : ℕ) : (i pos : ℕ) → Prop
  | first : CommandAt be g start 0 start
  | next {i pos : ℕ} : CommandAt be g start i pos → 8 ≤ fieldAt be g (pos + 4) →
      CommandAt be g start (i + 1) (saturatingAdd pos (fieldAt be g (pos + 4)))

/-- Where the segments of `n` commands end. -/
def segmentEnds (be : Bool) (g : Bytes) (start n : ℕ) : Set ℕ :=
  {e | ∃ i < n, ∃ pos, CommandAt be g start i pos ∧ 8 ≤ fieldAt be g (pos + 4) ∧
    IsSegment (fieldAt be g pos) ∧ segmentStop be (fieldAt be g pos) (slice g pos 72) = e}

/-- The parts of a file of a kind. -/
def endsOf (g : Bytes) : Kind → Set ℕ
  | .fat => {8 + fieldAt true g 4 * 20} ∪
      {e | ∃ i < fieldAt true g 4, archStop (slice g (8 + i * 20) 20) = e}
  | .thin be is64 => {headerLen is64 + fieldAt be g 20} ∪
      segmentEnds be g (headerLen is64) (fieldAt be g 16)

/-- A file of a kind has a possible number of parts. -/
def PartsOk (g : Bytes) : Kind → Prop
  | .fat => 1 ≤ fieldAt true g 4 ∧ fieldAt true g 4 ≤ 32
  | .thin be _ => 0 < fieldAt be g 16 ∧ fieldAt be g 16 ≤ maxCmds

/-- A Mach-O file. -/
def format : SizedFormat where
  Accepts g := ∃ k, kindOf (slice g 0 4) = some k ∧ PartsOk g k
  ends g := {e | ∃ k, kindOf (slice g 0 4) = some k ∧ e ∈ endsOf g k}
  keepsCut := True

section Commands

lemma rd_slice (be : Bool) (g : Bytes) (pos : ℕ) {off len : ℕ} (h : off + 4 ≤ len) :
    rd be (slice g pos len) off = fieldAt be g (pos + off) := by
  unfold fieldAt rd beU32 leU32
  rw [beField_slice h, leField_slice h, beField_slice le_rfl, leField_slice le_rfl, Nat.add_zero]

variable {R : Reader} {ctx : Ctx} {g : Bytes} {be : Bool} {start i pos n m e : ℕ} {S : Set ℕ}

/-- The commands behind the first are those from where it ends on. -/
lemma commandAt_succ_iff : CommandAt be g start (i + 1) pos ↔
    8 ≤ fieldAt be g (start + 4) ∧
      CommandAt be g (saturatingAdd start (fieldAt be g (start + 4))) i pos := by
  constructor
  · intro h
    induction i generalizing pos with
    | zero =>
      obtain _ | ⟨hfirst, hsize⟩ := h
      obtain _ | _ := hfirst
      exact ⟨hsize, .first⟩
    | succ i ih =>
      obtain _ | ⟨hprev, hsize⟩ := h
      exact ⟨(ih hprev).1, .next (ih hprev).2 hsize⟩
  · rintro ⟨hsize, h⟩
    induction h with
    | first => exact .next .first hsize
    | next _ hnext ih => exact .next ih hnext

/-- The segments of `n + 1` commands: that of the first, and those of the others. -/
lemma mem_segmentEnds_succ : e ∈ segmentEnds be g start (n + 1) ↔
    8 ≤ fieldAt be g (start + 4) ∧
      (IsSegment (fieldAt be g start) ∧
          segmentStop be (fieldAt be g start) (slice g start 72) = e ∨
        e ∈ segmentEnds be g (saturatingAdd start (fieldAt be g (start + 4))) n) := by
  constructor
  · rintro ⟨i, hi, pos, hat, hsize, hseg⟩
    cases i with
    | zero =>
      obtain _ | _ := hat
      exact ⟨hsize, .inl hseg⟩
    | succ i =>
      obtain ⟨hfirst, hat⟩ := commandAt_succ_iff.1 hat
      exact ⟨hfirst, .inr ⟨i, Nat.lt_of_succ_lt_succ hi, pos, hat, hsize, hseg⟩⟩
  · rintro ⟨hfirst, hseg | ⟨i, hi, pos, hat, hrest⟩⟩
    · exact ⟨0, Nat.succ_pos n, start, .first, hfirst, hseg⟩
    · exact ⟨i + 1, Nat.succ_lt_succ hi, pos, commandAt_succ_iff.2 ⟨hfirst, hat⟩, hrest⟩

/-- **What the walk over the commands finds.** -/
lemma isGreatest_commands (be : Bool) (start n : ℕ) (hs : ctx.Sees R g) (h : IsGreatest S m) :
    IsGreatest (S ∪ segmentEnds be g start n) ((commands ctx be n start m).run R) := by
  induction n generalizing start m S with
  | zero =>
    have hnone : S ∪ segmentEnds be g start 0 = S := by
      simp [segmentEnds]
    rw [hnone]
    exact h
  | succ n ih =>
    rw [commands]
    simp only [ReadProg.run_bind, ReadProg.run_ite, ReadProg.run_pure, hs.read]
    rw [rd_slice _ _ _ (by omega), rd_slice _ _ _ (by omega)]
    simp only [Nat.add_zero]
    split_ifs with hsmall hseg
    · convert h using 1
      ext e
      rw [Set.mem_union, mem_segmentEnds_succ]
      exact or_iff_left fun he => absurd he.1 (not_le.2 hsmall)
    · have hset : segmentEnds be g start (n + 1) =
          {e | segmentStop be (fieldAt be g start) (slice g start 72) = e ∨
            e ∈ segmentEnds be g (saturatingAdd start (fieldAt be g (start + 4))) n} := by
        ext e
        simp only [mem_segmentEnds_succ, not_lt.1 hsmall, hseg, true_and, Set.mem_ofPred_eq]
      rw [hset, union_first]
      exact ih _ (isGreatest_max h _)
    · convert ih _ h using 1
      ext e
      simp only [Set.mem_union, mem_segmentEnds_succ, not_lt.1 hsmall, hseg, true_and, false_and,
        false_or]

end Commands

section Sizes

variable {R : Reader} {ctx : Ctx} {g : Bytes} {n : ℕ}

/-- What both kinds return. -/
lemma finalize_eq {stop score : ℕ} {id : String} (h : 28 ≤ stop) :
    finalize ctx stop id score = ctx.fitted stop score (score - 35) (some id) :=
  if_neg (not_lt.2 h)

lemma sizes : format.Sizes validate := .of_fitted trivial fun {R ctx g} hs => by
  have hends : ∀ k, kindOf (slice g 0 4) = some k → format.ends g = endsOf g k := by
    intro k hk
    ext e
    simp [format, hk]
  have hacc : ∀ k, kindOf (slice g 0 4) = some k → (format.Accepts g ↔ PartsOk g k) := by
    intro k hk
    simp [format, hk]
  rw [validate]
  simp only [ReadProg.run_bind, hs.read]
  rw [take_slice _ _ (by omega)]
  cases hkind : kindOf (slice g 0 4) with
  | none => exact .inr ⟨fun ⟨k, hk, _⟩ => by simp [hkind] at hk, rfl⟩
  | some k =>
    rw [hends k hkind, hacc k hkind]
    cases k with
    | fat =>
      have hstop := isGreatest_farthest R (arch ctx) (List.range (fieldAt true g 4))
        (isGreatest_singleton (a := 8 + fieldAt true g 4 * 20))
      have hset : endsOf g .fat = {8 + fieldAt true g 4 * 20} ∪
          {e | ∃ i ∈ List.range (fieldAt true g 4), (arch ctx i).run R = some e} := by
        ext e
        simp [endsOf, arch, hs.read]
      have hcount : beU32 (slice g 0 8) 4 = fieldAt true g 4 :=
        beField_slice (by omega) g 0
      dsimp only
      rw [← hset] at hstop
      rw [fat]
      simp only [ReadProg.run_bind, ReadProg.run_ite, ReadProg.run_pure, hs.read, hcount]
      split_ifs with hclass
      · exact .inr ⟨fun h => hclass.elim (not_lt.2 h.1) (not_lt.2 h.2), rfl⟩
      · obtain ⟨hlow, hhigh⟩ := not_or.1 hclass
        have hle : 8 + fieldAt true g 4 * 20 ≤ _ := hstop.2 (.inl rfl)
        exact .inl ⟨⟨not_lt.1 hlow, not_lt.1 hhigh⟩, _, _, _, _, hstop, finalize_eq (by omega)⟩
    | thin be is64 =>
      have hlen : 28 ≤ headerLen is64 := by
        cases is64 <;> decide
      have hstop := isGreatest_commands be (headerLen is64) (fieldAt be g 16) hs
        (isGreatest_singleton (a := headerLen is64 + fieldAt be g 20))
      dsimp only
      rw [thin]
      simp only [ReadProg.run_bind, ReadProg.run_ite, ReadProg.run_pure, hs.read]
      rw [rd_slice _ _ _ (by omega), rd_slice _ _ _ (by omega)]
      simp only [Nat.zero_add]
      split_ifs with hcount
      · exact .inr ⟨fun h => hcount.elim h.1.ne' (not_lt.2 h.2), rfl⟩
      · obtain ⟨hzero, hmany⟩ := not_or.1 hcount
        have hle : headerLen is64 + fieldAt be g 20 ≤ _ := hstop.2 (.inl rfl)
        exact .inl ⟨⟨Nat.pos_of_ne_zero hzero, not_lt.1 hmany⟩, _, _, _, _, hstop,
          finalize_eq (by omega)⟩

end Sizes

end Macho

/-! ## Icons

An icon is a directory and the images behind it.  Its magic is weak, so every entry of the directory
has to be plausible and to lie in the source: an icon that is cut short is no icon. -/

namespace Ico

/-- `MAX_ICON`. -/
def maxIcon : ℕ := 8 * 1024 * 1024

/-- The color depths. -/
def bppOk (bitcount : ℕ) : Bool := bitcount ∈ [0, 1, 2, 4, 8, 16, 24, 32]

/-- Where the directory of `count` entries ends. -/
def dirEnd (count : ℕ) : ℕ := 6 + count * 16

/-- Where the image of an entry ends. -/
def entryStop (e : Bytes) : ℕ := leU32 e 12 + leU32 e 8

/-- The entry is plausible: one plane, a color depth, and an image behind the directory. -/
def Plausible (count : ℕ) (e : Bytes) : Prop :=
  e.getD 3 0xFF = 0 ∧ leU16 e 4 ≤ 1 ∧ bppOk (leU16 e 6) ∧ dirEnd count ≤ leU32 e 12 ∧
    1 ≤ leU32 e 8 ∧ leU32 e 8 ≤ maxIcon

instance (count : ℕ) (e : Bytes) : Decidable (Plausible count e) :=
  inferInstanceAs (Decidable (_ ∧ _))

/-- The loop over the directory: the farthest of `stop` and of where the images end, if every entry
is plausible and its image in the source. -/
def entries (ctx : Ctx) (count : ℕ) : List ℕ → (stop : ℕ) → ReadProg (Option ℕ)
  | [], stop => pure (some stop)
  | i :: rest, stop => do
    let e ← ctx.read (6 + i * 16) 16
    if ¬ (Plausible count e ∧ entryStop e ≤ ctx.available) then pure none
    else entries ctx count rest (max stop (entryStop e))

/-- `validate`. -/
def validate (ctx : Ctx) : ReadProg Verdict := do
  let head ← ctx.read 0 6
  if head.take 2 ≠ [0, 0] then pure .rejected
  else if leU16 head 2 ≠ 1 ∧ leU16 head 2 ≠ 2 then pure .rejected
  else
    let count := leU16 head 4
    if count = 0 ∨ 32 < count then pure .rejected
    else do
      match ← entries ctx count (List.range count) (dirEnd count) with
      | some stop => pure (.accepted stop .full 72)
      | none => pure .rejected

/-- How many images there are. -/
def countOf (g : Bytes) : ℕ := leValue (slice g 4 2)

/-- An entry of the directory. -/
def entryAt (g : Bytes) (i : ℕ) : Bytes := slice g (6 + i * 16) 16

/-- An icon or a cursor. -/
def format : SizedFormat where
  Accepts g := slice g 0 2 = [0, 0] ∧ (leValue (slice g 2 2) = 1 ∨ leValue (slice g 2 2) = 2) ∧
    0 < countOf g ∧ countOf g ≤ 32 ∧ ∀ i < countOf g, Plausible (countOf g) (entryAt g i)
  ends g := {dirEnd (countOf g)} ∪ {e | ∃ i < countOf g, entryStop (entryAt g i) = e}
  keepsCut := False

variable {R : Reader} {ctx : Ctx} {g : Bytes} {count stop m : ℕ} {S : Set ℕ} {l : List ℕ}

/-- The loop ends if and only if all entries are as they should be. -/
lemma run_entries_isSome (hs : ctx.Sees R g) :
    ((entries ctx count l stop).run R).isSome ↔
      ∀ i ∈ l, Plausible count (entryAt g i) ∧ entryStop (entryAt g i) ≤ ctx.available := by
  induction l generalizing stop with
  | nil => simp [entries]
  | cons i rest ih =>
    rw [entries, ReadProg.run_bind, ReadProg.run_ite, hs.read, List.forall_mem_cons, ← entryAt]
    split_ifs with hok
    · rw [ih]
      exact ⟨fun h => ⟨hok, h⟩, fun h => h.2⟩
    · exact iff_of_false Bool.false_ne_true fun h => hok h.1

/-- What the loop finds. -/
lemma isGreatest_entries (hs : ctx.Sees R g) (h : IsGreatest S stop)
    (hm : (entries ctx count l stop).run R = some m) :
    IsGreatest (S ∪ {e | ∃ i ∈ l, entryStop (entryAt g i) = e}) m := by
  induction l generalizing S stop with
  | nil =>
    obtain rfl : stop = m := Option.some.inj hm
    simpa using h
  | cons i rest ih =>
    rw [entries, ReadProg.run_bind, ReadProg.run_ite, hs.read, ← entryAt] at hm
    by_cases hok : Plausible count (entryAt g i) ∧ entryStop (entryAt g i) ≤ ctx.available
    · rw [if_neg (not_not.2 hok)] at hm
      simp only [List.mem_cons, exists_eq_or_imp]
      rw [union_first]
      exact ih (isGreatest_max h _) hm
    · rw [if_pos hok] at hm
      exact absurd hm (by simp)

/-- The images are behind the directory. -/
lemma dirEnd_le {e : Bytes} (h : Plausible count e) : dirEnd count ≤ entryStop e :=
  h.2.2.2.1.trans (Nat.le_add_right _ _)

/-- **What the validator accepts**: every image is in the source. -/
lemma isFull_iff {n : ℕ} (hs : ctx.Sees R g) : ((validate ctx).run R).IsFull n ↔
    format.Accepts g ∧ IsGreatest (format.ends g) n ∧ n ≤ ctx.available := by
  have hends (hgreatest : IsGreatest (format.ends g) n) (hle : n ≤ ctx.available) :
      ∀ i ∈ List.range (countOf g), entryStop (entryAt g i) ≤ ctx.available := fun i hi =>
    (hgreatest.2 (.inr ⟨i, List.mem_range.1 hi, rfl⟩)).trans hle
  rw [validate]
  simp only [ReadProg.run_bind, ReadProg.run_ite, ReadProg.run_pure, hs.read, leU16]
  rw [leField_slice (by omega), leField_slice (by omega), take_slice _ _ (by omega), Nat.zero_add,
    Nat.zero_add, ← countOf]
  split_ifs with hmagic htype hcount
  · exact iff_of_false Verdict.not_isFull_rejected fun h => hmagic h.1.1
  · exact iff_of_false Verdict.not_isFull_rejected fun h => h.1.2.1.elim htype.1 htype.2
  · exact iff_of_false Verdict.not_isFull_rejected fun h =>
      hcount.elim h.1.2.2.1.ne' (not_lt.2 h.1.2.2.2.1)
  · have hall : ((entries ctx (countOf g) (List.range (countOf g)) (dirEnd (countOf g))).run
        R).isSome ↔ ∀ i ∈ List.range (countOf g), Plausible (countOf g) (entryAt g i) ∧
          entryStop (entryAt g i) ≤ ctx.available := run_entries_isSome hs
    cases hrun : (entries ctx (countOf g) (List.range (countOf g)) (dirEnd (countOf g))).run R with
    | none =>
      rw [hrun] at hall
      refine iff_of_false Verdict.not_isFull_rejected ?_
      rintro ⟨hacc, hgreatest, hle⟩
      exact Bool.false_ne_true (hall.2 fun i hi =>
        ⟨hacc.2.2.2.2 i (List.mem_range.1 hi), hends hgreatest hle i hi⟩)
    | some stop =>
      rw [hrun] at hall
      have hok := hall.1 rfl
      have hstop := isGreatest_entries hs (isGreatest_singleton (a := dirEnd (countOf g))) hrun
      simp only [List.mem_range] at hok hstop
      obtain ⟨hzero, hmany⟩ := not_or.1 hcount
      have hpos := Nat.pos_of_ne_zero hzero
      have hkind : leValue (slice g 2 2) = 1 ∨ leValue (slice g 2 2) = 2 := by
        by_contra hneither
        exact htype (not_or.1 hneither)
      have hacc : format.Accepts g := ⟨not_not.1 hmagic, hkind, hpos, not_lt.1 hmany,
        fun i hi => (hok i hi).1⟩
      have hle : stop ≤ ctx.available := by
        obtain hdir | ⟨i, hi, hlast⟩ := hstop.1
        · rw [hdir]
          exact (dirEnd_le (hok 0 hpos).1).trans (hok 0 hpos).2
        · rw [← hlast]
          exact (hok i hi).2
      constructor
      · rintro ⟨-, -, rfl⟩
        exact ⟨hacc, hstop, hle⟩
      · rintro ⟨-, hn, -⟩
        exact ⟨rfl, rfl, hstop.unique hn⟩

/-- No icon is cut short. -/
lemma validity_ne : ((validate ctx).run R).validity ≠ .truncated := by
  rw [validate]
  simp only [ReadProg.run_bind, ReadProg.run_ite, ReadProg.run_pure]
  have hrejected : Verdict.rejected.validity ≠ .truncated := by decide
  split_ifs
  · exact hrejected
  · exact hrejected
  · exact hrejected
  · split
    · exact (by decide : Validity.full ≠ .truncated)
    · exact hrejected

lemma sizes : format.Sizes validate where
  full := isFull_iff
  truncated _ := iff_of_false (fun h => validity_ne h.2.1) fun h => h.1

end Ico
end Reclaim
