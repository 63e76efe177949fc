import Reclaim.Session.Entries
import Reclaim.Session.RecoverFiles

/-!
# Whether a full recovery is whole

A recovered file is reported `full` when its record is and no read of it was flagged.  Nothing
compares the extents with the record's length, and a range behind the end of the source reads as
zeros without a flag.  So an entry without extents, whose one run is a hash of its path and its
length, comes out as a `full` file of zeros.

`reportedSoundly_iff` says exactly when the report of a file can be trusted, for every record,
source, destination and option.
-/

namespace Reclaim

open FileBytes FileTree Paths

variable {σ : Type}

/-! ## What the reads of a record return -/

/-- The content of extents, one behind the other. -/
def BlockSource.Stable.contents {src : BlockSource σ} (st : src.Stable)
    (es : List Extent) : Bytes :=
  es.flatMap fun e => (List.range e.len).map fun k => st.content (e.offset + k)

lemma length_readWindows (src : BlockSource σ) (ws : List (ℕ × ℕ)) (s : σ) :
    (readWindows src ws s).1.1.length = (ws.map Prod.snd).sum := by
  induction ws generalizing s with
  | nil => rfl
  | cons w ws ih =>
    obtain ⟨off, n⟩ := w
    simp only [readWindows, List.length_append, List.map_cons, List.sum_cons, ih,
      SourceReader.length_readFlags]

/-- Windows inside the source that read without a flag return its content. -/
lemma readWindows_content {src : BlockSource σ} (st : src.Stable) (ws : List (ℕ × ℕ)) (s : σ)
    (hin : ∀ w ∈ ws, w.1 + w.2 ≤ src.len) (hflag : (readWindows src ws s).1.2 = false) :
    (readWindows src ws s).1.1 =
      ws.flatMap fun w => (List.range w.2).map fun k => st.content (w.1 + k) := by
  induction ws generalizing s with
  | nil => rfl
  | cons w ws ih =>
    obtain ⟨off, n⟩ := w
    simp only [readWindows, Bool.or_eq_false_iff] at hflag ⊢
    rw [ih _ (fun w hw => hin w (List.mem_cons_of_mem _ hw)) hflag.2, List.flatMap_cons]
    congr 1
    apply ext_byteAt (by simp [SourceReader.length_readFlags])
    intro k hk
    rw [SourceReader.length_readFlags] at hk
    rw [SourceReader.byteAt_readFlags st (hin _ List.mem_cons_self) hflag.1 hk]
    simp [byteAt, hk]

namespace Extent

variable {e : Extent}

lemma copyChunk_pos : 0 < copyChunk := by decide

/-- The windows of an extent that ends below `2 ^ 64` do not wrap. -/
lemma windows_eq (h : e.offset + e.len ≤ u64Max) : e.windows =
    (List.range (divCeil e.len copyChunk)).map fun k =>
      (e.offset + k * copyChunk, min (e.len - k * copyChunk) copyChunk) := by
  apply List.map_congr_left
  intro k hk
  rw [List.mem_range, lt_divCeil_iff copyChunk_pos] at hk
  have hmax : u64Max < 2 ^ 64 := by decide
  rw [Nat.mod_eq_of_lt (by omega)]

/-- The windows of an extent have its length. -/
lemma sum_windows (e : Extent) : (e.windows.map Prod.snd).sum = e.len := by
  have hblocks := (byteAt_flatMap_blocks (N := e.len) copyChunk_pos
    (fun k => List.replicate (min (e.len - k * copyChunk) copyChunk) 0)
    (divCeil e.len copyChunk) fun k _ => by simp).1
  have hle := le_divCeil_mul copyChunk_pos e.len
  rw [min_eq_left hle, List.length_flatMap] at hblocks
  simpa [windows, Function.comp_def] using hblocks

/-- The content of an extent, window by window. -/
lemma windows_content {src : BlockSource σ} (st : src.Stable) (h : e.offset + e.len ≤ u64Max) :
    (e.windows.flatMap fun w => (List.range w.2).map fun k => st.content (w.1 + k)) =
      (List.range e.len).map fun k => st.content (e.offset + k) := by
  rw [windows_eq h, List.flatMap_map]
  obtain ⟨hlen, hbytes⟩ := byteAt_flatMap_blocks (N := e.len) copyChunk_pos
    (fun j => (List.range (min (e.len - j * copyChunk) copyChunk)).map fun k =>
      st.content (e.offset + j * copyChunk + k)) (divCeil e.len copyChunk) fun j _ => by simp
  have hle := le_divCeil_mul copyChunk_pos e.len
  rw [min_eq_left hle] at hlen hbytes
  apply ext_byteAt (by simp [hlen])
  intro x hx
  rw [hlen] at hx
  have hmod := Nat.div_add_mod' x copyChunk
  have hlt := Nat.mod_lt x copyChunk_pos
  have hin : x % copyChunk < min (e.len - x / copyChunk * copyChunk) copyChunk := by omega
  rw [hbytes x hx]
  simp only [byteAt, List.getD_eq_getElem?_getD, List.getElem?_map, List.getElem?_range hin,
    List.getElem?_range hx, Option.map_some, Option.getD_some]
  congr 1
  omega

end Extent

/-- The windows of extents have the lengths of the extents together. -/
lemma sum_flatMap_windows (es : List Extent) :
    ((es.flatMap Extent.windows).map Prod.snd).sum = (es.map (·.len)).sum := by
  induction es with
  | nil => rfl
  | cons e es ih =>
    rw [List.flatMap_cons, List.map_append, List.sum_append, Extent.sum_windows, ih, List.map_cons,
      List.sum_cons]

/-- The bytes of a record are as many as its extents add up to. -/
lemma length_recordBytes (src : BlockSource σ) (rec : CarvedRecord) (s : σ) :
    (recordBytes src rec s).length = (rec.extents.map (·.len)).sum := by
  rw [recordBytes, length_readWindows, sum_flatMap_windows]

/-- A record inside the source that reads without a flag is read as the source's content. -/
lemma recordBytes_content {src : BlockSource σ} (st : src.Stable) {rec : CarvedRecord} {s : σ}
    (hin : ∀ e ∈ rec.extents, e.offset + e.len ≤ src.len)
    (hflag : recordFlagged src rec s = false) :
    recordBytes src rec s = st.contents rec.extents := by
  have hu64 := src.len_le
  rw [recordBytes, readWindows_content st _ s ?_ hflag]
  · rw [BlockSource.Stable.contents, List.flatMap_assoc]
    apply List.flatMap_congr
    intro e he
    exact Extent.windows_content st ((hin e he).trans hu64)
  · intro w hw
    obtain ⟨e, he, hw⟩ := List.mem_flatMap.1 hw
    have hine := hin e he
    rw [Extent.windows_eq (hine.trans hu64)] at hw
    obtain ⟨k, hk, rfl⟩ := List.mem_map.1 hw
    rw [List.mem_range, lt_divCeil_iff Extent.copyChunk_pos] at hk
    dsimp only
    omega

/-! ## The report of one record -/

section Report

variable {B : Backend} {src : BlockSource σ} {env : RecoverEnv} {dest : FilePath}
  {opts : RecoverOpts} {records : List CarvedRecord} {w : RecoverWorld σ}

/-- What a record's file and its entry in the list look like once it is listed. -/
lemma recoverOne_listed {st : RecoverState σ} {rec : CarvedRecord} {i : ℕ} {f : RecoveredFile}
    (h : (recoverOne B src env dest opts st (rec, i)).summary.files = st.summary.files ++ [f]) :
    (∃ stamp, (recoverOne B src env dest opts st (rec, i)).world.tree
        (env.resolve (dest.join f.path)) =
          some (.file (recordBytes src rec st.world.src) stamp)) ∧
      (f.validity = .full ↔
        rec.validity = .full ∧ recordFlagged src rec st.world.src = false) := by
  have hskip : ∀ world, (RecoverState.mk (σ := σ) st.summary.skip world).summary.files =
      st.summary.files ++ [f] → False := by
    intro world hw
    have hlen := congrArg List.length hw
    simp [RecoverSummary.skip] at hlen
  simp only [recoverOne] at h ⊢
  split at h
  · exact (hskip _ h).elim
  · split at h
    · exact (hskip _ h).elim
    · rename_i rel _ hash suspect hcopied
      obtain ⟨hfile, -, hsuspect⟩ := writeExtent_of_ok hcopied
      obtain rfl := List.singleton_inj.1 (List.append_cancel_left h)
      refine ⟨hfile, ?_⟩
      dsimp only at hsuspect ⊢
      rw [← hsuspect]
      cases suspect with
      | false => simp
      | true =>
        by_cases hfull : rec.validity = .full
        · simp [hfull]
        · simp [hfull]

/-- A file holds its record: as many bytes as the record says, and all of them content of the
source. -/
structure HoldsWhole (src : BlockSource σ) (rec : CarvedRecord) (d : Bytes) : Prop where
  size : d.length = rec.len
  inside : ∀ e ∈ rec.extents, e.offset + e.len ≤ src.len
  content : ∀ st : src.Stable, d = st.contents rec.extents

/-- The file listed for a record holds it, or is not reported as full. -/
def ReportedSoundly (src : BlockSource σ) (env : RecoverEnv) (dest : FilePath)
    (t : Files FilePath) (rec : CarvedRecord) (f : RecoveredFile) : Prop :=
  ∃ d stamp, t (env.resolve (dest.join f.path)) = some (.file d stamp) ∧
    (f.validity = .full → HoldsWhole src rec d)

/-- **When a full recovery is whole.**  In every run, the file listed for record `i` holds it or is
marked, if and only if the record is not stored as full, or one of its reads is flagged, or its
extents add up to its length and lie inside the source. -/
theorem reportedSoundly_iff {i : ℕ} (hi : i < records.length) {f : RecoveredFile}
    (hf : (stateBefore B src env dest opts records w (i + 1)).summary.files =
      (stateBefore B src env dest opts records w i).summary.files ++ [f]) :
    ReportedSoundly src env dest (stateBefore B src env dest opts records w (i + 1)).world.tree
        records[i] f ↔
      (records[i].validity = .full →
        recordFlagged src records[i] (stateBefore B src env dest opts records w i).world.src =
          false →
        (records[i].extents.map (·.len)).sum = records[i].len ∧
          ∀ e ∈ records[i].extents, e.offset + e.len ≤ src.len) := by
  rw [stateBefore_succ hi] at hf ⊢
  obtain ⟨⟨stamp, hfile⟩, hvalid⟩ := recoverOne_listed hf
  constructor
  · rintro ⟨d, stamp', hd, hwhole⟩ hfull hflag
    have hsame := hfile.symm.trans hd
    simp only [Option.some.injEq, Node.file.injEq] at hsame
    have hholds := hwhole (hvalid.2 ⟨hfull, hflag⟩)
    refine ⟨?_, hholds.inside⟩
    rw [← hholds.size, ← hsame.1, length_recordBytes]
  · intro hsized
    refine ⟨_, stamp, hfile, fun hreport => ?_⟩
    obtain ⟨hfull, hflag⟩ := hvalid.1 hreport
    obtain ⟨hsum, hin⟩ := hsized hfull hflag
    exact ⟨(length_recordBytes _ _ _).trans hsum, hin, fun st => recordBytes_content st hin hflag⟩

end Report

/-! ## An entry without extents -/

/-- Recovering one record from `oneByte` to an empty destination `/d`. -/
def recoverSingle (rec : CarvedRecord) (n : ℕ) : RecoverState Unit :=
  stateBefore .plain oneByte (.quiet fun _ => []) ⟨true, ["d"]⟩ copyOnly [rec] emptyDest n

/-- The one byte of the source comes out whole. -/
theorem recoverByte_reportedSoundly : ∃ f, (recoverSingle (byteRecord "a") 1).summary.files = [f] ∧
    ReportedSoundly oneByte (.quiet fun _ => []) ⟨true, ["d"]⟩
      (recoverSingle (byteRecord "a") 1).world.tree (byteRecord "a") f := by
  have hfirst : 0 < [byteRecord "a"].length := Nat.one_pos
  refine ⟨_, rfl, (reportedSoundly_iff hfirst rfl).2 ?_⟩
  intro _ _
  have hinside : ∀ e ∈ (byteRecord "a").extents, e.offset + e.len ≤ oneByte.len := by decide
  exact ⟨rfl, hinside⟩

/-- A deleted file of one byte whose extents are lost. -/
def lostEntry : Entry where
  name := "x"
  kind := .file
  size := 1
  path := some "x"
  created := none
  modified := none
  extents := []
  state := .deleted
  contiguousAssumed := false

/-- The row it is stored as; the offset is the hash of its path. -/
def lostRow : EntryRow where
  path := "x"
  name := "x"
  state := "deleted"
  family := "file"
  ext := ""
  format := "file"
  offset := 12638214688346347271
  len := 1
  extents := []
  date := none
  contiguousAssumed := false

/-- **An entry without extents comes out as a full file of zeros.** -/
theorem lostEntry_counterexample : emit [] 0 lostEntry = some lostRow ∧
    ∃ f, (recoverSingle (lostRow.record .plain "src" "ntfs") 1).summary.files = [f] ∧
      f.validity = .full ∧
      (recoverSingle (lostRow.record .plain "src" "ntfs") 1).world.tree ⟨true, ["d", "x"]⟩ =
        some (.file [0] 0) ∧
      ¬ ReportedSoundly oneByte (.quiet fun _ => []) ⟨true, ["d"]⟩
        (recoverSingle (lostRow.record .plain "src" "ntfs") 1).world.tree
        (lostRow.record .plain "src" "ntfs") f := by
  have hrow : emit [] 0 lostEntry = some lostRow := by
    have hoff : pseudoOffset "x" = 12638214688346347271 := by decide +kernel
    simp [emit, lostEntry, lostRow, Entry.storedPath, hoff, extOf, familyForExt, lastComponent,
      EntryState.label, Text.rsplitOnce]
  refine ⟨hrow, _, rfl, rfl, by decide, ?_⟩
  rintro ⟨d, stamp, -, hwhole⟩
  have hin := (hwhole rfl).inside ⟨12638214688346347271, 1⟩ (by decide)
  exact absurd hin (by decide)

end Reclaim
