import Reclaim.Part.Scan
import Reclaim.Session.Labels

/-!
# The quick scan

`run_quick` takes the volumes that the partition scan reports one after the other.  It probes each
with every engine, opens it with the best, walks it and stores what the walk emits.  A volume that
cannot be opened is reported and passed over.  A walk that fails ends the run, and the volumes
behind it are never looked at.

The engines are a parameter here: what `probe`, `open` and `walk` of an engine may answer is all
that their interface allows.
-/

namespace Reclaim

open FileBytes KeyedTable

variable {σ : Type}

/-! ## Engines -/

/-- What a probe says of a volume. -/
structure EngineProbe where
  fsKind : String
  confidence : ℚ
  blockSize : ℕ

/-- An opened filesystem: what it says of itself, what its walk emits, and how the walk ends: with
the number of deleted entries, or an error. -/
structure FileSystem where
  kind : String
  blockSize : ℕ
  allocationBitmap : Option Bitmap
  emitted : List Entry
  walk : Except String ℕ

/-- A registered filesystem engine. -/
structure EngineDef where
  name : String
  probe : OffsetView → Option EngineProbe
  openView : OffsetView → EngineProbe → Except String FileSystem

/-- The best of the engines that recognise a volume; among equals the first. -/
def bestEngine (engines : List EngineDef) (view : OffsetView) : Option (EngineDef × EngineProbe) :=
  engines.foldl (fun best e =>
    match e.probe view with
    | some p =>
      if 1 / 2 ≤ p.confidence ∧ best.all (fun b => decide (b.2.confidence < p.confidence)) then
        some (e, p)
      else best
    | none => best) none

/-! ## The run -/

/-- What is reported while a run goes on. -/
inductive QuickEvent where
  | scheme (scheme : Scheme) (partitions : ℕ) (confidence : ℚ)
  | warning (msg : String)
  | found (id engine path : String) (size : ℕ)
  | passComplete (pass : String)

/-- The results table, and what a run has come to. -/
structure QuickRun where
  table : Rows
  volumesHandled : ℕ
  entries : ℕ
  deleted : ℕ
  bitmaps : List AbsBitmap
  events : List QuickEvent

namespace QuickRun

/-- Report an event. -/
def emit (st : QuickRun) (ev : QuickEvent) : QuickRun := { st with events := st.events ++ [ev] }

/-- Keep the bitmap of the volume at `start`. -/
def keepBitmap (st : QuickRun) (start : ℕ) (bitmap : Option Bitmap) : QuickRun :=
  { st with bitmaps := st.bitmaps ++ (bitmap.map fun bm => ⟨start, bm⟩).toList }

/-- Report the volume `w`, and keep its bitmap. -/
def announce (st : QuickRun) (engine : String) (w : ℕ × ℕ) (fs : FileSystem) : QuickRun :=
  (st.emit (.warning (engine ++ " volume at +" ++ toString w.1 ++ " (" ++ toString w.2 ++
    " bytes), cluster " ++ toString fs.blockSize))).keepBitmap w.1 fs.allocationBitmap

/-- Store the rows of a volume, and report them. -/
def store (B : Backend) (sourceId engine : String) (rows : List EntryRow) (deleted : ℕ)
    (st : QuickRun) : QuickRun where
  table := insertEntries B sourceId engine st.table rows
  volumesHandled := st.volumesHandled + 1
  entries := st.entries + rows.length
  deleted := st.deleted + deleted
  bitmaps := st.bitmaps
  events := st.events ++ rows.map (fun row =>
    .found (resultId B sourceId engine row.offset row.len) engine row.path row.len) ++
      [.passComplete engine]

end QuickRun

section Run

variable (B : Backend) (sigs : List SigDef) (sourceId : String) (engines : List EngineDef)
  (src : BlockSource σ)

/-- One volume: the error that ends the run, if there is one, and what has been done. -/
def quickVolume (w : ℕ × ℕ) (st : QuickRun) : Option String × QuickRun :=
  if w.2 = 0 then (none, st)
  else
    match OffsetView.new src w.1 w.2 with
    | .error _ => (none, st)
    | .ok view =>
      match bestEngine engines view with
      | none => (none, st)
      | some (engine, probe) =>
        match engine.openView view probe with
        | .error err => (none, st.emit (.warning (engine.name ++ " open failed at +" ++
            toString w.1 ++ ": " ++ err)))
        | .ok fs =>
          let st := st.announce engine.name w fs
          let rows := fs.emitted.filterMap (emit sigs w.1)
          match fs.walk with
          | .error e => (some (engine.name ++ " walk: " ++ e), st)
          | .ok deleted => (none, st.store B sourceId fs.kind rows deleted)

/-- The loop over the volumes. -/
def quickVolumes : List (ℕ × ℕ) → QuickRun → Option String × QuickRun
  | [], st => (none, st)
  | w :: ws, st =>
    match quickVolume B sigs sourceId engines src w st with
    | (some e, st') => (some e, st')
    | (none, st') => quickVolumes ws st'

/-- `run_quick` on a disk, with the results that were there before. -/
def runQuick (d : Medium σ) (s : σ) (t : Rows) : Option String × QuickRun :=
  let map := scanned d s
  let st : QuickRun := ⟨t, 0, 0, 0, [], [.scheme map.scheme map.entries.length map.confidence]⟩
  quickVolumes B sigs sourceId engines d.src (map.volumeWindows d.src.len) st

/-- The filesystem that a volume is opened as, if it is opened. -/
def openedAs (w : ℕ × ℕ) : Option FileSystem :=
  if w.2 = 0 then none
  else
    match OffsetView.new src w.1 w.2 with
    | .error _ => none
    | .ok view => (bestEngine engines view).bind fun b => (b.1.openView view b.2).toOption

/-- The volume is opened, and its walk fails. -/
def walkFails (w : ℕ × ℕ) : Bool := (openedAs engines src w).any fun fs => !fs.walk.isOk

/-- What the walk of a volume produces, if it does not fail. -/
def produced (w : ℕ × ℕ) : List WalkedEntry :=
  match openedAs engines src w with
  | some fs => if fs.walk.isOk then fs.emitted.map fun e => ⟨fs.kind, w.1, e⟩ else []
  | none => []

/-- A row has the id of the entry. -/
def Stored (t : Rows) (e : WalkedEntry) : Prop := e.id B sourceId ∈ keys CarvedRecord.id t.rows

/-- Every file that the walk of a volume produces is stored. -/
def KeepsOthers (ws : List (ℕ × ℕ)) (st : QuickRun) : Prop :=
  ∀ w ∈ ws, ∀ e ∈ produced engines src w, e.entry.kind ≠ .dir →
    Stored B sourceId (quickVolumes B sigs sourceId engines src ws st).2.table e

/-- The volumes up to the first whose walk fails. -/
def reached (ws : List (ℕ × ℕ)) : List (ℕ × ℕ) := ws.takeWhile fun w => !walkFails engines src w

/-- No volume behind a failing walk has anything new: the id of each of its files is taken already,
or is that of a file of a volume before. -/
def NothingNewBehind (ws : List (ℕ × ℕ)) (t : Rows) : Prop :=
  ∀ w ∈ ws.dropWhile fun w => !walkFails engines src w,
    ∀ e ∈ produced engines src w, e.entry.kind ≠ .dir → Stored B sourceId t e ∨
      ∃ v ∈ reached engines src ws, ∃ e' ∈ produced engines src v,
        e'.entry.kind ≠ .dir ∧ e'.id B sourceId = e.id B sourceId

end Run

section Proofs

variable {B : Backend} {sigs : List SigDef} {sourceId : String} {engines : List EngineDef}
  {src : BlockSource σ} {w : ℕ × ℕ} {ws : List (ℕ × ℕ)} {st : QuickRun}

/-- The four ways in which a volume is dealt with. -/
lemma quickVolume_cases (B : Backend) (sigs : List SigDef) (sourceId : String)
    (engines : List EngineDef) (src : BlockSource σ) (w : ℕ × ℕ) (st : QuickRun) :
    (openedAs engines src w = none ∧ ∃ evs, quickVolume B sigs sourceId engines src w st =
      (none, { st with events := st.events ++ evs })) ∨
    ∃ fs name, openedAs engines src w = some fs ∧ ∃ st', st'.table = st.table ∧
      quickVolume B sigs sourceId engines src w st =
        match fs.walk with
        | .error e => (some (name ++ " walk: " ++ e), st')
        | .ok deleted =>
          (none, st'.store B sourceId fs.kind (fs.emitted.filterMap (emit sigs w.1)) deleted) := by
  have hsame : (none, st) = ((none, { st with events := st.events ++ [] }) :
      Option String × QuickRun) := by rw [List.append_nil]
  unfold quickVolume openedAs
  by_cases hlen : w.2 = 0
  · rw [if_pos hlen, if_pos hlen]
    exact .inl ⟨rfl, [], hsame⟩
  · rw [if_neg hlen, if_neg hlen]
    cases OffsetView.new src w.1 w.2 with
    | error err => exact .inl ⟨rfl, [], hsame⟩
    | ok view =>
      dsimp only
      cases bestEngine engines view with
      | none => exact .inl ⟨rfl, [], hsame⟩
      | some b =>
        obtain ⟨engine, probe⟩ := b
        rw [Option.bind_some]
        dsimp only
        cases engine.openView view probe with
        | error err => exact .inl ⟨rfl, [_], rfl⟩
        | ok fs => exact .inr ⟨fs, engine.name, rfl, st.announce engine.name w fs, rfl, rfl⟩

/-- A volume whose walk does not fail is stored, and one whose walk fails ends the run. -/
lemma quickVolume_spec (B : Backend) (sigs : List SigDef) (sourceId : String)
    (engines : List EngineDef) (src : BlockSource σ) (w : ℕ × ℕ) (st : QuickRun) :
    if walkFails engines src w then
      (∃ e, (quickVolume B sigs sourceId engines src w st).1 = some e) ∧
        (quickVolume B sigs sourceId engines src w st).2.table = st.table
    else (quickVolume B sigs sourceId engines src w st).1 = none ∧
      (quickVolume B sigs sourceId engines src w st).2.table =
        storeWalk B sigs sourceId st.table (produced engines src w) := by
  unfold walkFails produced
  rcases quickVolume_cases B sigs sourceId engines src w st with
    ⟨hnone, evs, h⟩ | ⟨fs, name, hopen, st', htable, h⟩
  · rw [hnone, h]
    exact ⟨rfl, rfl⟩
  · rw [hopen, h]
    cases hwalk : fs.walk with
    | error e =>
      simp only [Option.any_some, hwalk, Except.isOk, Except.toBool, Bool.not_false, if_true]
      exact ⟨⟨_, rfl⟩, htable⟩
    | ok deleted =>
      simp only [Option.any_some, hwalk, Except.isOk, Except.toBool, Bool.not_true,
        Bool.false_eq_true, if_false, if_true, true_and]
      rw [QuickRun.store, htable]
      exact insertEntries_eq_storeWalk B sigs sourceId fs.kind st.table w.1 fs.emitted

lemma storeWalk_append (t : Rows) (walk walk' : List WalkedEntry) :
    storeWalk B sigs sourceId t (walk ++ walk') =
      storeWalk B sigs sourceId (storeWalk B sigs sourceId t walk) walk' := by
  unfold storeWalk
  rw [List.filterMap_append]
  exact Rows.ext (insertAll_append _ _ _)

/-- **A run stores the volumes up to the first whose walk fails.** -/
lemma table_quickVolumes (ws : List (ℕ × ℕ)) : ∀ st : QuickRun,
    (quickVolumes B sigs sourceId engines src ws st).2.table =
      storeWalk B sigs sourceId st.table
        ((reached engines src ws).flatMap (produced engines src)) := by
  induction ws with
  | nil => exact fun st => rfl
  | cons w ws ih =>
    intro st
    have hspec := quickVolume_spec B sigs sourceId engines src w st
    rw [quickVolumes, reached]
    by_cases hfails : walkFails engines src w = true
    · rw [if_pos hfails] at hspec
      obtain ⟨⟨e, herr⟩, htable⟩ := hspec
      rw [List.takeWhile_cons_of_neg (by simp [hfails])]
      cases hvol : quickVolume B sigs sourceId engines src w st with
      | mk err st' =>
        rw [hvol] at herr htable
        cases herr
        exact htable
    · rw [if_neg hfails] at hspec
      obtain ⟨herr, htable⟩ := hspec
      rw [List.takeWhile_cons_of_pos (by simp [hfails]), List.flatMap_cons, storeWalk_append]
      cases hvol : quickVolume B sigs sourceId engines src w st with
      | mk err st' =>
        rw [hvol] at herr htable
        cases herr
        refine (ih st').trans ?_
        rw [show st'.table = _ from htable]
        rfl

/-- Which files of a walk are stored. -/
lemma stored_storeWalk {t : Rows} {walk : List WalkedEntry} {e : WalkedEntry} :
    Stored B sourceId (storeWalk B sigs sourceId t walk) e ↔ Stored B sourceId t e ∨
      ∃ e' ∈ walk, e'.entry.kind ≠ .dir ∧ e'.id B sourceId = e.id B sourceId := by
  refine mem_keys_insertAll.trans (or_congr_right ?_)
  rw [mem_keys]
  constructor
  · rintro ⟨r, hr, hid⟩
    obtain ⟨e', he', hrec⟩ := mem_records.1 hr
    refine ⟨e', he', fun hdir => ?_, (WalkedEntry.record?_spec hrec).1.symm.trans hid⟩
    rw [WalkedEntry.record?_eq_none.2 hdir] at hrec
    exact absurd hrec (by simp)
  · rintro ⟨e', he', hfile, hid⟩
    obtain ⟨r, hrec⟩ : ∃ r, e'.record? B sigs sourceId = some r := e'.exists_record hfile
    exact ⟨r, mem_records.2 ⟨e', he', hrec⟩, (WalkedEntry.record?_spec hrec).1.trans hid⟩

end Proofs

/-- An engine that knows every volume, and whose walk fails on the one at the start of the disk. -/
def halfBroken : EngineDef where
  name := "fat"
  probe _ := some ⟨"fat", 1, 512⟩
  openView view _ := .ok
    { kind := "fat"
      blockSize := 512
      allocationBitmap := none
      emitted := [(hardLink "a").entry]
      walk := if view.start = 0 then .error "corrupt structure" else .ok 0 }

end Reclaim
