import Reclaim.Foundation.CappedLoop
import Reclaim.Foundation.Unicode
import Reclaim.Foundation.Windows
import Reclaim.Structs.Anchors
import Reclaim.Foundation.Fields
import Reclaim.Fs.FatOpen
import Mathlib.Data.List.Sort

/-!
# The scan for lost volumes

The scan begins with the entries of the partition tables, and then sweeps the source in chunks for
the needles of the anchors.  A chunk is read with some bytes of the next one, and a needle belongs
to the chunk where it begins.  A proposal that begins where one of the same filesystem does is
dropped, or takes its place if its confidence is higher.  The sweep ends when there are too many
proposals.
-/

namespace Reclaim
namespace Structs

open FileBytes
open PlainText (ascii)

variable (src : Source)

/-! ## Partition tables -/

/-- `MAX_ENTRIES`. -/
def maxEntries : ℕ := 4096

/-- `fs_from_guid`: a hint for a partition type. -/
def fsFromGuid (guid : Bytes) : String × String :=
  if guid = [0xEF, 0x57, 0x34, 0x7C, 0x00, 0x00, 0xAA, 0x11, 0xAA, 0x11, 0x00, 0x30, 0x65, 0x43,
    0xEC, 0xAC] then ("apfs", "Apple APFS")
  else if guid = [0x00, 0x53, 0x46, 0x48, 0x00, 0x00, 0xAA, 0x11, 0xAA, 0x11, 0x00, 0x30, 0x65,
    0x43, 0xEC, 0xAC] then ("hfsplus", "Apple HFS+")
  else if guid = [0xA2, 0xA0, 0xD0, 0xEB, 0xE5, 0xB9, 0x33, 0x44, 0x87, 0xC0, 0x68, 0xB6, 0xB7,
    0x26, 0x99, 0xC7] then ("windows", "Microsoft basic data")
  else if guid = [0xAF, 0x3D, 0xC6, 0x0F, 0x83, 0x84, 0x72, 0x47, 0x8E, 0x79, 0x3D, 0x69, 0xD8,
    0x47, 0x7D, 0xE4] then ("ext", "Linux filesystem")
  else if guid = [0x28, 0x73, 0x2A, 0xC1, 0x1F, 0xF8, 0xD2, 0x11, 0xBA, 0x4B, 0x00, 0xA0, 0xC9,
    0x3E, 0xC9, 0x3B] then ("fat", "EFI system")
  else ("unknown", "unknown type")

/-- `utf16_name`: the units of a name up to the first zero. -/
def utf16Name (raw : Bytes) : Option String :=
  let units := ((List.range (raw.length / 2)).map fun i => leU16 raw (2 * i)).takeWhile (· ≠ 0)
  if units = [] then none else some (Text.fromUtf16Lossy units)

/-- The proposal for entry `i` of a table; none if it is not in use. -/
def gptEntry (backup : Bool) (lba i : ℕ) (ent : Bytes) : Option ProposedVolume :=
  if (ent.take 16).all (· == 0) then none
  else
    let first := leU64 ent 32
    let last := leU64 ent 40
    if first = 0 ∨ last < first then none
    else
      let guid := fsFromGuid (ent.take 16)
      let label := if backup then "backup GPT" else "GPT"
      let hint := guid.2
      let name := ((utf16Name ((ent.drop 56).take 72)).map fun n => " \"" ++ n ++ "\"").getD ""
      some
        { start := saturatingMul first lba
          len := saturatingMul (last - first + 1) lba
          fs := guid.1
          confidence := if backup then 17 / 20 else 9 / 10
          evidence := s!"{label} entry {i + 1} [{hint}]{name} @ LBA {first}..{last}" }

/-- The proposals for the entries of a table, up to one that is not in it. -/
def gptEntries (backup : Bool) (lba esize : ℕ) (table : Bytes) : List ℕ → List ProposedVolume
  | [] => []
  | i :: is =>
    match getRange table (i * esize) 128 with
    | none => []
    | some ent => (gptEntry backup lba i ent).toList ++ gptEntries backup lba esize table is

/-- The size of a logical block. -/
def lbaSize : ℕ := max src.sectorSize 512

/-- `parse_header`. -/
def parseHeader (hdrOff : ℕ) (backup : Bool) : List ProposedVolume :=
  let hdr := src.read hdrOff 96
  if getRange hdr 0 8 ≠ some (ascii "EFI PART") then []
  else
    let entriesLba := leU64 hdr 72
    let num := min (leU32 hdr 80) maxEntries
    let esize := leU32 hdr 84
    if esize < 128 ∨ num = 0 then []
    else
      let table := src.read (saturatingMul entriesLba (lbaSize src))
        (min (num * esize) (4 * 1024 * 1024))
      gptEntries backup (lbaSize src) esize table (List.range num)

/-- `scan_gpt`. -/
def scanGpt : List ProposedVolume :=
  parseHeader src (lbaSize src) false ++
    if lbaSize src ≤ src.len then parseHeader src (src.len - lbaSize src) true else []

/-! ## Proposals of one volume -/

/-- `starts_close`. -/
def startsClose (a b : ℕ) : Bool := max a b - min a b < 512

/-- The two are of one filesystem and start close to each other. -/
def sameVolume (p q : ProposedVolume) : Bool := p.fs == q.fs && startsClose p.start q.start

/-- `dedup_push`. -/
def dedupPush : List ProposedVolume → ProposedVolume → List ProposedVolume
  | [], pv => [pv]
  | e :: out, pv =>
    if sameVolume e pv then (if e.confidence < pv.confidence then pv else e) :: out
    else e :: dedupPush out pv

/-! ## The sweep -/

/-- `CHUNK`. -/
def chunkSize : ℕ := 1024 * 1024

/-- `OVERLAP`. -/
def chunkOverlap : ℕ := 4096

/-- `MAX_PROPOSALS`. -/
def maxProposals : ℕ := 4096

/-- Where the chunks begin. -/
def chunkStarts : List ℕ := (List.range (divCeil src.len chunkSize)).map (· * chunkSize)

/-- The hits of an anchor in the chunk at `cs`: where its needle begins in the chunk, and a volume
can begin before it. -/
def hits (a : FsAnchor) (cs : ℕ) : List ℕ :=
  let slice := src.read cs (min (chunkSize + chunkOverlap) (src.len - cs))
  (((findIter a.needle slice 0 0).filter fun rel =>
    !(chunkSize ≤ rel && cs + chunkSize < src.len)).map (cs + ·)).filter (a.internalOffset ≤ ·)

/-- What an anchor's validator proposes for a hit. -/
def proposals (h : FsAnchor × ℕ) : List ProposedVolume :=
  h.1.validate src (h.2 - h.1.internalOffset)

/-- A hit: its proposals are pushed. -/
def visitHit (out : List ProposedVolume) (h : FsAnchor × ℕ) : List ProposedVolume :=
  (proposals src h).foldl dedupPush out

/-- There are too many proposals. -/
def isFull (out : List ProposedVolume) : Bool := maxProposals ≤ out.length

/-- The hits of each anchor in each chunk. -/
def allHits : List (List (List (FsAnchor × ℕ))) :=
  (chunkStarts src).map fun cs => anchors.map fun a => (hits src a cs).map fun pos => (a, pos)

/-- The loops of `scan`: the proposals in the order in which they were found. -/
def sweep : List ProposedVolume :=
  CappedLoop.rounds (visitHit src) isFull (allHits src) (scanGpt src)

/-- The hits that the sweep visits, each with the proposals before. -/
def visited : List ((FsAnchor × ℕ) × List ProposedVolume) :=
  CappedLoop.roundsLog (visitHit src) isFull (allHits src) (scanGpt src)

/-- The needles and places that the sweep examines. -/
def examined : List (Bytes × ℕ) := (visited src).map fun e => (e.1.1.needle, e.1.2)

/-- The order of the proposals: the highest confidence first, then by start. -/
def bestFirst (p q : ProposedVolume) : Bool :=
  q.confidence < p.confidence ∨ (q.confidence = p.confidence ∧ p.start ≤ q.start)

/-- `scan`. -/
def scan : List ProposedVolume := (sweep src).mergeSort bestFirst

end Structs
end Reclaim

/-!
## What the scan proposes

The list is in order.  A proposal that is pushed is close to none of its filesystem that stays, but
one that takes the place of another can come close to a third, and the entries of partition tables
are not compared with each other at all.  The sweep visits a hit once, and all of them as long as
there are not too many proposals: chunks overlap by more than a needle, and a hit belongs to the
chunk in which it begins.
-/

namespace Reclaim
namespace Structs

open FileBytes
open PlainText (ascii)

/-! ## Order -/

lemma pairwise_scan (src : Source) : (scan src).Pairwise fun p q => bestFirst p q = true := by
  refine List.pairwise_mergeSort (fun p q r hpq hqr => ?_) (fun p q => ?_) _
  · simp only [bestFirst, decide_eq_true_eq] at hpq hqr ⊢
    rcases hpq with hpq | ⟨hpq, hstart⟩ <;> rcases hqr with hqr | ⟨hqr, hstart'⟩
    · exact .inl (hqr.trans hpq)
    · exact .inl (hqr ▸ hpq)
    · exact .inl (hpq ▸ hqr)
    · exact .inr ⟨hqr.trans hpq, hstart.trans hstart'⟩
  · simp only [bestFirst, Bool.or_eq_true, decide_eq_true_eq]
    rcases lt_trichotomy p.confidence q.confidence with h | h | h
    · exact .inr (.inl h)
    · rcases Nat.le_total p.start q.start with hle | hle
      · exact .inl (.inr ⟨h.symm, hle⟩)
      · exact .inr (.inr ⟨h, hle⟩)
    · exact .inl (.inl h)

/-! ## Starts -/

/-- No two proposals of one filesystem start close to each other. -/
def Apart (out : List ProposedVolume) : Prop := out.Pairwise fun p q => sameVolume p q = false

/-- If the proposal takes the place of a weaker one, it is close to no other of its filesystem. -/
def Settles (out : List ProposedVolume) (pv : ProposedVolume) : Prop :=
  ∀ e, out.find? (sameVolume pv) = some e → e.confidence < pv.confidence →
    out.countP (sameVolume pv) = 1

/-- The proposals settle one after the other. -/
def SettleAll : List ProposedVolume → List ProposedVolume → Prop
  | _, [] => True
  | out, pv :: pvs => Settles out pv ∧ SettleAll (dedupPush out pv) pvs

section Starts

variable {src : Source} {out pvs : List ProposedVolume} {p pv : ProposedVolume}

lemma sameVolume_comm (p q : ProposedVolume) : sameVolume p q = sameVolume q p := by
  have hfs : (p.fs == q.fs) = (q.fs == p.fs) := BEq.comm
  rw [sameVolume, sameVolume, startsClose, startsClose, max_comm, min_comm, hfs]

/-- A push adds nothing but the proposal. -/
lemma mem_of_mem_dedupPush (h : p ∈ dedupPush out pv) : p ∈ out ∨ p = pv := by
  induction out with
  | nil => exact .inr (List.mem_singleton.1 h)
  | cons e out ih =>
    rw [dedupPush] at h
    split at h
    · rcases List.mem_cons.1 h with rfl | h
      · split
        · exact .inr rfl
        · exact .inl List.mem_cons_self
      · exact .inl (List.mem_cons_of_mem e h)
    · rcases List.mem_cons.1 h with rfl | h
      · exact .inl List.mem_cons_self
      · exact (ih h).imp_left (List.mem_cons_of_mem e)

lemma length_le_dedupPush (out : List ProposedVolume) (pv : ProposedVolume) :
    out.length ≤ (dedupPush out pv).length := by
  induction out with
  | nil => exact Nat.zero_le _
  | cons e out ih =>
    rw [dedupPush]
    split
    · exact le_rfl
    · exact Nat.succ_le_succ ih

/-- **A push keeps the starts apart**, if the proposal settles. -/
lemma Apart.dedupPush (h : Apart out) (hpv : Settles out pv) : Apart (dedupPush out pv) := by
  induction out with
  | nil => exact List.pairwise_singleton ..
  | cons e out ih =>
    obtain ⟨he, hout⟩ := List.pairwise_cons.1 h
    rw [Structs.dedupPush]
    split
    · rename_i hclose
      rw [sameVolume_comm] at hclose
      by_cases hweak : e.confidence < pv.confidence
      · -- the proposal takes the place of `e`, the only one close to it
        have hone := hpv e (List.find?_cons_of_pos hclose) hweak
        rw [List.countP_cons_of_pos hclose] at hone
        have hnone := List.countP_eq_zero.1 (Nat.succ.inj hone)
        rw [if_pos hweak]
        exact List.pairwise_cons.2 ⟨fun q hq => Bool.eq_false_iff.2 (hnone q hq), hout⟩
      · rw [if_neg hweak]
        exact h
    · rename_i hfar
      have hfar' : ¬ sameVolume pv e = true := by rwa [sameVolume_comm]
      have hrest : Settles out pv := by
        intro f hf hweak
        have hcount := hpv f ((List.find?_cons_of_neg hfar').trans hf) hweak
        rwa [List.countP_cons_of_neg hfar'] at hcount
      refine List.pairwise_cons.2 ⟨fun q hq => ?_, ih hout hrest⟩
      rcases mem_of_mem_dedupPush hq with hq | rfl
      · exact he q hq
      · exact Bool.eq_false_iff.2 hfar

lemma Apart.foldl (h : Apart out) (hpvs : SettleAll out pvs) :
    Apart (pvs.foldl Structs.dedupPush out) := by
  induction pvs generalizing out with
  | nil => exact h
  | cons pv pvs ih => exact ih (h.dedupPush hpvs.1) hpvs.2

/-- **The sweep keeps the starts apart** if the entries of the partition tables are, and every
proposal settles. -/
lemma apart_scan (hgpt : Apart (scanGpt src))
    (h : ∀ e ∈ visited src, SettleAll e.2 (proposals src e.1)) : Apart (scan src) := by
  have hsweep : Apart (sweep src) :=
    CappedLoop.rounds_invariant hgpt fun e he hout => hout.foldl (h e he)
  refine (List.Perm.pairwise_iff (fun {p q} hpq => ?_) (List.mergeSort_perm _ _)).2 hsweep
  rwa [sameVolume_comm]

end Starts

/-! ## Lengths -/

section Lengths

variable {src : Source}

lemma mem_of_mem_foldl {out pvs : List ProposedVolume} {p : ProposedVolume}
    (h : p ∈ pvs.foldl dedupPush out) : p ∈ out ∨ p ∈ pvs := by
  induction pvs generalizing out with
  | nil => exact .inl h
  | cons pv pvs ih =>
    rcases ih h with h | h
    · rcases mem_of_mem_dedupPush h with h | rfl
      · exact .inl h
      · exact .inr List.mem_cons_self
    · exact .inr (List.mem_cons_of_mem pv h)

/-- What is visited are hits of the anchors. -/
lemma mem_anchors_of_mem_visited {e : (FsAnchor × ℕ) × List ProposedVolume} (he : e ∈ visited src) :
    e.1.1 ∈ anchors ∧ ∃ cs ∈ chunkStarts src, e.1.2 ∈ hits src e.1.1 cs := by
  have hlog : ((visited src).map Prod.fst).Sublist ((allHits src).map List.flatten).flatten :=
    CappedLoop.roundsLog_sublist (allHits src) (scanGpt src)
  have hmem := hlog.subset (List.mem_map_of_mem he)
  obtain ⟨l, hl, hmem⟩ := List.mem_flatten.1 hmem
  obtain ⟨r, hr, rfl⟩ := List.mem_map.1 hl
  obtain ⟨cs, hcs, rfl⟩ := List.mem_map.1 hr
  obtain ⟨g, hg, hmem⟩ := List.mem_flatten.1 hmem
  obtain ⟨a, ha, rfl⟩ := List.mem_map.1 hg
  obtain ⟨pos, hpos, heq⟩ := List.mem_map.1 hmem
  rw [← heq]
  exact ⟨ha, cs, hcs, hpos⟩

/-- **A proposal of the sweep** has a plausible length, if it has one and is not of F2FS. -/
lemma mem_scan {p : ProposedVolume} (hp : p ∈ scan src) : p ∈ scanGpt src ∨ Bounded src p := by
  have hall : ∀ q ∈ sweep src, q ∈ scanGpt src ∨ Bounded src q := by
    refine CappedLoop.rounds_invariant
      (I := fun out => ∀ q ∈ out, q ∈ scanGpt src ∨ Bounded src q) (fun q hq => .inl hq) ?_
    intro e he hout q hq
    rcases mem_of_mem_foldl hq with hq | hq
    · exact hout q hq
    · exact .inr (validate_bounded (mem_anchors_of_mem_visited he).1 _ q hq)
  exact hall p (List.mem_mergeSort.1 hp)

/-- The bound, where the check for a plausible length is one. -/
lemma Bounded.le {p : ProposedVolume} (h : Bounded src p) (hfs : p.fs ≠ "f2fs") (hlen : 0 < p.len)
    (hstart : 0 < p.start) (hmax : p.len < u64Max) :
    saturatingAdd p.start p.len ≤ saturatingMul src.len 2 := by
  rcases h with h | h | h
  · exact absurd h hfs
  · omega
  · have hle := (plausibleLen_iff.1 h).2
    have hlt : p.len < saturatingAdd p.start p.len := lt_min (by omega) hmax
    exact (le_max_iff.1 hle).resolve_right (not_le.2 hlt)

end Lengths

/-! ## Hits -/

section Hits

variable {src : Source} {a : FsAnchor} {cs pos m n off : ℕ}

/-- The needle is in the source at a place. -/
def Occurs (src : Source) (needle : Bytes) (pos : ℕ) : Prop :=
  pos + needle.length ≤ src.len ∧ src.read pos needle.length = needle

instance (src : Source) (needle : Bytes) (pos : ℕ) : Decidable (Occurs src needle pos) :=
  inferInstanceAs (Decidable (_ ∧ _))

/-- An occurrence in what was read. -/
lemma prefix_drop_read {needle : Bytes} (hne : needle ≠ []) (hn : off + n ≤ src.len) :
    needle <+: (src.read off n).drop m ↔ m + needle.length ≤ n ∧ Occurs src needle (off + m) := by
  have hlen : 0 < needle.length := List.length_pos_of_ne_nil hne
  rw [List.prefix_iff_eq_take]
  constructor
  · intro h
    have hfit := congrArg List.length h
    rw [List.length_take, List.length_drop, Source.read, Volume.length_read] at hfit
    exact ⟨by omega, by omega, (h.trans (src.take_drop_read (by omega))).symm⟩
  · rintro ⟨hfit, -, h⟩
    exact ((src.take_drop_read hfit).trans h).symm

lemma mem_chunkStarts :
    cs ∈ chunkStarts src ↔ ∃ i, i * chunkSize < src.len ∧ cs = i * chunkSize := by
  rw [chunkStarts, List.mem_map]
  simp only [List.mem_range, divCeil, chunkSize]
  constructor
  · rintro ⟨i, hi, rfl⟩
    exact ⟨i, by omega, rfl⟩
  · rintro ⟨i, hi, rfl⟩
    exact ⟨i, by omega, rfl⟩

lemma div_chunkSize (i : ℕ) {k : ℕ} (hk : k < chunkSize) : (i * chunkSize + k) / chunkSize = i := by
  rw [Nat.add_comm, Nat.add_mul_div_right k i (by decide), Nat.div_eq_of_lt hk, Nat.zero_add]

/-- **A hit** is an occurrence of the needle that begins in the chunk. -/
lemma of_mem_hits (ha : a ∈ anchors) (hcs : cs ∈ chunkStarts src) (h : pos ∈ hits src a cs) :
    Occurs src a.needle pos ∧ a.internalOffset ≤ pos ∧ pos / chunkSize = cs / chunkSize := by
  obtain ⟨i, hi, rfl⟩ := mem_chunkStarts.1 hcs
  have hne := needle_ne_nil ha
  have hlen := List.length_pos_of_ne_nil hne
  obtain ⟨h, hoff⟩ := List.mem_filter.1 h
  obtain ⟨rel, hrel, rfl⟩ := List.mem_map.1 h
  obtain ⟨hfound, hin⟩ := List.mem_filter.1 hrel
  obtain ⟨j, -, rfl, hj⟩ := prefix_of_mem_findIter hfound
  obtain ⟨hfit, hocc⟩ := (prefix_drop_read hne (by omega)).1 hj
  simp only [Bool.not_eq_true', Bool.and_eq_false_iff, decide_eq_false_iff_not] at hin
  rw [Nat.zero_add] at hin ⊢
  refine ⟨hocc, of_decide_eq_true (by rwa [Nat.zero_add] at hoff), ?_⟩
  rw [div_chunkSize i (by omega), Nat.mul_div_cancel i (by decide)]

/-- **An occurrence is a hit** of the chunk in which it begins, unless an earlier one of the chunk
overlaps it. -/
lemma mem_hits (ha : a ∈ anchors) (hocc : Occurs src a.needle pos) (hoff : a.internalOffset ≤ pos)
    (halone : ∀ q < pos, pos < q + a.needle.length → Occurs src a.needle q →
      q / chunkSize ≠ pos / chunkSize) :
    ∃ cs ∈ chunkStarts src, pos ∈ hits src a cs := by
  have hne := needle_ne_nil ha
  have hlen := List.length_pos_of_ne_nil hne
  have hshort := length_needle_le ha
  have hchunk : chunkSize = 1024 * 1024 := rfl
  have hover : chunkOverlap = 4096 := rfl
  have hend := hocc.1
  obtain ⟨i, rel, hlt, rfl⟩ : ∃ i rel, rel < chunkSize ∧ pos = i * chunkSize + rel :=
    ⟨pos / chunkSize, pos % chunkSize, Nat.mod_lt _ (by decide),
      (Nat.div_add_mod' pos chunkSize).symm⟩
  rw [div_chunkSize i hlt] at halone
  refine ⟨i * chunkSize, mem_chunkStarts.2 ⟨i, by omega, rfl⟩, ?_⟩
  have hfound : 0 + rel ∈ findIter a.needle (src.read (i * chunkSize)
      (min (chunkSize + chunkOverlap) (src.len - i * chunkSize))) 0 0 := by
    refine mem_findIter_of_alone hne 0 (Nat.zero_le _)
      ((prefix_drop_read hne (by omega)).2 ⟨by omega, hocc⟩) fun k hk hpast hat => ?_
    obtain ⟨-, hearlier⟩ := (prefix_drop_read hne (by omega)).1 hat
    exact halone _ (by omega) (by omega) hearlier (div_chunkSize i (by omega))
  rw [Nat.zero_add] at hfound
  refine List.mem_filter.2 ⟨List.mem_map.2 ⟨rel, List.mem_filter.2 ⟨hfound, ?_⟩, rfl⟩,
    decide_eq_true hoff⟩
  simp only [Bool.not_eq_true', Bool.and_eq_false_iff, decide_eq_false_iff_not]
  exact .inl (by omega)

lemma nodup_hits (src : Source) (a : FsAnchor) (cs : ℕ) : (hits src a cs).Nodup := by
  have hfound := (pairwise_findIter (p := a.needle) (src.read cs
    (min (chunkSize + chunkOverlap) (src.len - cs))) 0 0).imp ne_of_lt
  refine List.Nodup.filter _ (List.Nodup.map (fun x y h => Nat.add_left_cancel h) ?_)
  exact List.Nodup.filter _ hfound

/-- The hits of all chunks in one list. -/
lemma flatten_allHits (src : Source) : ((allHits src).map List.flatten).flatten =
    (chunkStarts src).flatMap fun cs =>
      anchors.flatMap fun a => (hits src a cs).map fun pos => (a, pos) := by
  rw [allHits, List.map_map, List.flatMap_def]
  rfl

lemma nodup_chunkStarts (src : Source) : (chunkStarts src).Nodup :=
  List.nodup_range.map fun _ _ h => Nat.eq_of_mul_eq_mul_right (by decide) h

/-- **A hit comes once**: the chunks in which two begin, or the anchors, are different. -/
lemma nodup_allHits (src : Source) : (((allHits src).map List.flatten).flatten).Nodup := by
  have hanchors : anchors.Nodup := List.Nodup.of_map _ nodup_needles
  rw [flatten_allHits, List.nodup_flatMap]
  refine ⟨fun cs _ => List.nodup_flatMap.2 ⟨fun a _ => ?_, ?_⟩, ?_⟩
  · exact (nodup_hits src a cs).map fun x y h => (Prod.mk.inj h).2
  · refine hanchors.imp fun {a b} hne => ?_
    intro h ha hb
    obtain ⟨x, -, rfl⟩ := List.mem_map.1 ha
    obtain ⟨y, -, heq⟩ := List.mem_map.1 hb
    exact hne (Prod.mk.inj heq).1.symm
  · refine (nodup_chunkStarts src).imp_of_mem fun {cs cs'} hcs hcs' hne => ?_
    intro h hmem hmem'
    obtain ⟨a, ha, hmem⟩ := List.mem_flatMap.1 hmem
    obtain ⟨b, hb, hmem'⟩ := List.mem_flatMap.1 hmem'
    obtain ⟨x, hx, rfl⟩ := List.mem_map.1 hmem
    obtain ⟨y, hy, heq⟩ := List.mem_map.1 hmem'
    obtain ⟨rfl, rfl⟩ := Prod.mk.inj heq
    have hchunk := (of_mem_hits ha hcs hx).2.2.symm.trans (of_mem_hits hb hcs' hy).2.2
    obtain ⟨i, -, rfl⟩ := mem_chunkStarts.1 hcs
    obtain ⟨j, -, rfl⟩ := mem_chunkStarts.1 hcs'
    rw [Nat.mul_div_cancel i (by decide), Nat.mul_div_cancel j (by decide)] at hchunk
    exact hne (by rw [hchunk])

/-- **Nothing is examined twice.** -/
lemma nodup_examined (src : Source) : (examined src).Nodup := by
  have hlog : ((visited src).map Prod.fst).Sublist ((allHits src).map List.flatten).flatten :=
    CappedLoop.roundsLog_sublist (allHits src) (scanGpt src)
  have hexamined : examined src = ((visited src).map Prod.fst).map fun h => (h.1.needle, h.2) := by
    rw [examined, List.map_map]
    rfl
  rw [hexamined]
  refine ((nodup_allHits src).sublist hlog).map_on fun h hh h' hh' heq => ?_
  obtain ⟨e, he, rfl⟩ := List.mem_map.1 hh
  obtain ⟨e', he', rfl⟩ := List.mem_map.1 hh'
  obtain ⟨hneedle, hpos⟩ := Prod.mk.inj heq
  exact Prod.ext (List.inj_on_of_nodup_map nodup_needles (mem_anchors_of_mem_visited he).1
    (mem_anchors_of_mem_visited he').1 hneedle) hpos

/-- A visit makes no room. -/
lemma isFull_visitHit (out : List ProposedVolume) (h : FsAnchor × ℕ) (hfull : isFull out = true) :
    isFull (visitHit src out h) = true := by
  have hgrow : ∀ (pvs out : List ProposedVolume),
      out.length ≤ (pvs.foldl dedupPush out).length := by
    intro pvs
    induction pvs with
    | nil => exact fun out => le_rfl
    | cons pv pvs ih => exact fun out => (length_le_dedupPush out pv).trans (ih _)
  simp only [isFull, decide_eq_true_eq] at hfull ⊢
  exact hfull.trans (hgrow _ out)

/-- **As long as there are not too many proposals**, the hits of all chunks are visited. -/
lemma mem_examined (ha : a ∈ anchors) (hroom : (scan src).length < maxProposals)
    (hcs : cs ∈ chunkStarts src) (hpos : pos ∈ hits src a cs) :
    (a.needle, pos) ∈ examined src := by
  have hnotFull : isFull (sweep src) = false := by
    rw [scan, List.length_mergeSort] at hroom
    exact decide_eq_false (not_le.2 hroom)
  have hall : (visited src).map Prod.fst = ((allHits src).map List.flatten).flatten :=
    CappedLoop.roundsLog_eq isFull_visitHit hnotFull
  have hmem : (a, pos) ∈ (visited src).map Prod.fst := by
    rw [hall, flatten_allHits]
    exact List.mem_flatMap.2 ⟨cs, hcs, List.mem_flatMap.2 ⟨a, ha, List.mem_map_of_mem hpos⟩⟩
  obtain ⟨e, he, heq⟩ := List.mem_map.1 hmem
  exact List.mem_map.2 ⟨e, he, by rw [heq]⟩

/-- All needles but one have no border. -/
lemma unbordered_needle (ha : a ∈ anchors) (hufs : a.needle ≠ [0x19, 0x01, 0x54, 0x19]) :
    Unbordered a.needle := by
  have hall : ∀ n ∈ anchors.map FsAnchor.needle, n ≠ [0x19, 0x01, 0x54, 0x19] → Unbordered n := by
    decide +kernel
  exact hall _ (List.mem_map_of_mem ha) hufs

/-- Occurrences of a needle without a border do not overlap. -/
lemma Occurs.le_of_unbordered {needle : Bytes} (h : Unbordered needle) (hne : needle ≠ []) {q : ℕ}
    (hq : Occurs src needle q) (hpos : Occurs src needle pos) (hlt : q < pos) :
    q + needle.length ≤ pos := by
  obtain ⟨d, rfl⟩ := Nat.exists_eq_add_of_le hlt.le
  have hend := hpos.1
  have hfirst : needle <+: (src.read q (d + needle.length)).drop 0 :=
    (prefix_drop_read hne (by omega)).2 ⟨by omega, hq⟩
  have hnext : needle <+: (src.read q (d + needle.length)).drop d :=
    (prefix_drop_read hne (by omega)).2 ⟨le_rfl, hpos⟩
  have hle := h.le_of_prefix hfirst (by omega) hnext
  omega

end Hits

/-! ## The scan -/

/-- An entry in use, of one sector. -/
def usedEntry : Bytes :=
  1 :: List.replicate 31 0 ++ leBytes 8 34 ++ leBytes 8 34 ++ List.replicate 80 0

/-- The header of a table of 4096 entries at LBA 2. -/
def fullHeader : Bytes :=
  ascii "EFI PART" ++ List.replicate 64 0 ++ leBytes 8 2 ++ leBytes 4 4096 ++ leBytes 4 128 ++
    List.replicate 8 0

/-- A table full of entries, and a superblock of XFS behind it. -/
def crowded : Source where
  len := 525824
  sectorSize := 512
  content x :=
    if x < 512 then 0
    else if x < 1024 then byteAt fullHeader (x - 512)
    else if x < 525312 then byteAt usedEntry ((x - 1024) % 128)
    else byteAt (ascii "XFSB") (x - 525312)

/-- Entries that are all in use are all proposed. -/
lemma length_gptEntries {backup : Bool} {lba esize : ℕ} {table : Bytes} {is : List ℕ}
    (h : ∀ i ∈ is, ∃ ent, getRange table (i * esize) 128 = some ent ∧
      (gptEntry backup lba i ent).isSome = true) :
    (gptEntries backup lba esize table is).length = is.length := by
  induction is with
  | nil => rfl
  | cons i is ih =>
    obtain ⟨ent, hent, hsome⟩ := h i List.mem_cons_self
    obtain ⟨pv, hpv⟩ := Option.isSome_iff_exists.1 hsome
    simp only [gptEntries, hent, hpv, Option.toList_some, List.singleton_append, List.length_cons]
    rw [ih fun j hj => h j (List.mem_cons_of_mem i hj)]

lemma gptEntry_isSome {backup : Bool} {lba i : ℕ} {ent : Bytes}
    (hused : (ent.take 16).all (· == 0) = false) (hfirst : leU64 ent 32 ≠ 0)
    (hlast : leU64 ent 32 ≤ leU64 ent 40) : (gptEntry backup lba i ent).isSome = true := by
  rw [gptEntry, if_neg (by simp [hused])]
  dsimp only
  rw [if_neg (by omega)]
  rfl

lemma read_crowded {i : ℕ} (hi : i < 4096) : crowded.read (1024 + i * 128) 128 = usedEntry := by
  have hlength : usedEntry.length = 128 := by decide +kernel
  apply ext_byteAt ((Volume.length_read ..).trans hlength.symm)
  intro k hk
  have hlt : k < 128 := hk.trans_eq (Volume.length_read ..)
  refine (Volume.byteAt_read _ _ hlt).trans ?_
  rw [Volume.byte, if_pos (by simp only [crowded]; omega)]
  simp only [crowded]
  rw [if_neg (by omega), if_neg (by omega), if_pos (by omega)]
  exact congrArg (byteAt usedEntry) (by omega)

/-- The entries fill the list. -/
lemma isFull_crowded : isFull (scanGpt crowded) = true := by
  have hheader : crowded.read 512 96 = fullHeader := by decide +kernel
  have hlength : (parseHeader crowded 512 false).length = 4096 := by
    have hfields : getRange fullHeader 0 8 = some (ascii "EFI PART") ∧ leU64 fullHeader 72 = 2 ∧
        leU32 fullHeader 80 = 4096 ∧ leU32 fullHeader 84 = 128 := by decide +kernel
    obtain ⟨hsig, hlba, hnum, hesize⟩ := hfields
    have hused : (usedEntry.take 16).all (· == 0) = false ∧ leU64 usedEntry 32 = 34 ∧
        leU64 usedEntry 40 = 34 := by decide +kernel
    obtain ⟨hguid, hfirst, hlast⟩ := hused
    rw [parseHeader, hheader, hsig, hlba, hnum, hesize, if_neg (not_not_intro rfl)]
    dsimp only
    rw [if_neg (by decide), length_gptEntries, List.length_range]
    · rfl
    · intro i hi
      have hlt : i < 4096 := List.mem_range.1 hi
      refine ⟨usedEntry, ?_, gptEntry_isSome hguid (by omega) (by omega)⟩
      have hread : getRange (crowded.read 1024 524288) (i * 128) 128 =
          some (crowded.read (1024 + i * 128) 128) := Volume.getRange_read _ (by omega)
      exact hread.trans (congrArg some (read_crowded hlt))
  have hle : 4096 ≤ (scanGpt crowded).length := by
    have hsize : lbaSize crowded = 512 := rfl
    rw [scanGpt, List.length_append, hsize, hlength]
    exact Nat.le_add_right _ _
  exact decide_eq_true hle

end Structs
end Reclaim
