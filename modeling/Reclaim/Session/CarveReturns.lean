import Reclaim.Session.CarveRun
import Reclaim.Foundation.Transition

/-!
# The stored cursor

`RunKept` is what a property of the database and of a run has to survive, one condition for each thing
that the scan thread, the writer or a crash does; `RunKept.reaches` is the induction over whole
histories.  The first property it is used for is that the cursor that is stored vouches for files
that are stored.
-/

namespace Reclaim

open MarkedQueue Transition KeyedTable

/-! ## Invariants of a session -/

section Invariants

variable (E : CarveEngine) (B : Backend) (sourceId : String)

/-- The starts that are admitted, and the ways in which a chunk is read. -/
structure CarveRules where
  start : CarveStore → ScanArgs → Bool → (ℕ → Reader) → Prop
  read : (ℕ → Reader) → Prop

/-- Anything goes. -/
def CarveRules.free : CarveRules := ⟨fun _ _ _ _ => True, fun _ => True⟩

/-- The action keeps to the rules. -/
def CarveRules.Allows (rules : CarveRules) (w : CarveWorld) : CarveAct → Prop
  | .start a resume _ answer => rules.start w.db.now a resume answer
  | .scan _ answer => rules.read answer
  | _ => True

variable (rules : CarveRules) (J : Database → Prop) (I : Database → CarveRun → Prop)

/-- Whatever happens, `J` is kept of the database, and `I` of a run as long as its writer works. -/
structure RunKept : Prop where
  begin : ∀ {db a resume answer} (bs resumeFrom : ℕ) (log : List (ℕ × CarvedFile)), J db →
    rules.start db.now a resume answer → (∀ p, db.now.progress = some p → p.complete = false) →
    resumePoint E db.now a resume answer = (resumeFrom, bs, log) →
    I db (.begin (a.withBlockSize bs) resumeFrom log)
  scanNext : ∀ {db r answer}, I db r → rules.read answer → r.thread.outbox = [] →
    r.thread.outcome = none → r.thread.pos < r.args.scanEnd → I db (r.scanNext E answer)
  scanDone : ∀ {db r interrupted}, I db r → r.thread.outbox = [] →
    (interrupted = false → r.args.scanEnd ≤ r.thread.pos) → I db (r.scanDone interrupted)
  send : ∀ {db r m rest}, I db r → r.thread.outbox = m :: rest →
    I db { r with thread := { r.thread with outbox := rest }, channel := r.channel ++ [m] }
  item : ∀ {db r cf rest}, I db r → r.channel = .item cf :: rest →
    I db { r with channel := rest, pending := r.pending ++ [cf] }
  mark : ∀ {db r p rest}, I db r → r.channel = .mark p :: rest →
    I db { r with channel := rest, cur := p }
  flush : ∀ {db r}, J db → I db r →
    J (db.commit (db.now.insert B sourceId r.pending)) ∧
      I (db.commit (db.now.insert B sourceId r.pending)) { r with pending := [] }
  save : ∀ {db r}, J db → I db r → r.pending = [] →
    J (putProgress db r.row r.log) ∧
      I (putProgress db r.row r.log) { r with lastCkptScanned := r.cur.scanned }
  last : ∀ {db r o}, J db → I db r → r.pending = [] → r.channel = [] →
    r.thread.outcome = some o → J (putProgress db (r.lastRow o) r.log)
  crash : ∀ {db db' k}, J db → db.rollback k = some db' → J db'

/-- `J` of the database, and `I` of a run whose writer works. -/
structure RunHolds (w : CarveWorld) : Prop where
  db : J w.db
  run : ∀ r, w.phase = .running r → r.failed = false → I w.db r

variable {E B sourceId rules J I} {db : Database} {r : CarveRun}

lemma RunHolds.of_running {cancel : Bool} (hdb : J db) (hrun : r.failed = false → I db r) :
    RunHolds J I ⟨db, cancel, .running r⟩ :=
  ⟨hdb, fun r' hr' hworks => by
    obtain rfl : r = r' := CarvePhase.running.inj hr'
    exact hrun hworks⟩

lemma RunHolds.of_not_running {w : CarveWorld} (hdb : J w.db) (h : ∀ r, w.phase ≠ .running r) :
    RunHolds J I w := ⟨hdb, fun r hr => absurd hr (h r)⟩

namespace RunKept

variable (K : RunKept E B sourceId rules J I) {w w' : CarveWorld}

include K

/-- What is behind a flush that goes well. -/
lemma of_flush {ok : Bool} {db' : Database} (hdb : J db) (hr : I db r)
    (h : Reclaim.flush B sourceId ok db r.pending = some db') :
    J db' ∧ I db' { r with pending := [] } := by
  unfold Reclaim.flush at h
  split at h
  · rename_i hnone
    obtain rfl := Option.some.inj h
    exact ⟨hdb, by rwa [← hnone]⟩
  · split at h
    · obtain rfl := Option.some.inj h
      exact K.flush hdb hr
    · cases h

lemma of_stepCheckpoint (ans : DbAnswer) (hdb : J w.db) (hr : I w.db r) :
    RunHolds J I (stepCheckpoint B sourceId w r ans) := by
  unfold stepCheckpoint saveProgress
  cases hf : Reclaim.flush B sourceId ans.flushed w.db r.pending with
  | none => exact .of_running hdb fun h => absurd h (by simp [CarveRun.fail])
  | some db' =>
    obtain ⟨hdb', hr'⟩ := K.of_flush hdb hr hf
    cases ans.saved with
    | false => exact .of_running hdb' fun h => absurd h (by simp [CarveRun.fail])
    | true =>
      obtain ⟨hsaved, hrun⟩ := K.save hdb' hr' rfl
      exact .of_running hsaved fun _ => hrun

lemma of_stepScan {seen : Bool} {answer : ℕ → Reader} (hw : RunHolds J I w)
    (hphase : w.phase = .running r) (hread : rules.read answer)
    (h : stepScan E w r seen answer = some w') : RunHolds J I w' := by
  unfold stepScan at h
  split at h
  · cases h
  · rename_i hidle
    rw [not_or, not_or, Bool.not_eq_true, Option.isSome_eq_false_iff, Option.isNone_iff_eq_none,
      ne_eq, not_not] at hidle
    obtain ⟨hout, hbox, -⟩ := hidle
    have hrun := hw.run r hphase
    split at h
    · rename_i hend
      obtain rfl := Option.some.inj h
      exact .of_running hw.db fun hworks => K.scanDone (hrun hworks) hbox fun _ => hend
    · rename_i hend
      split at h
      · obtain rfl := Option.some.inj h
        exact .of_running hw.db fun hworks => K.scanDone (hrun hworks) hbox fun h => by cases h
      · obtain rfl := Option.some.inj h
        exact .of_running hw.db fun hworks =>
          K.scanNext (hrun hworks) hread hbox hout (not_le.1 hend)

lemma of_stepSend (hw : RunHolds J I w) (hphase : w.phase = .running r)
    (h : stepSend w r = some w') : RunHolds J I w' := by
  unfold stepSend at h
  split at h
  · cases h
  · rename_i m rest hbox
    dsimp only at h
    split at h
    · rename_i hfailed
      obtain rfl := Option.some.inj h
      exact .of_running hw.db fun hworks => absurd hworks (by simp [hfailed])
    · rename_i hworks
      split at h
      · obtain rfl := Option.some.inj h
        exact .of_running hw.db fun _ => K.send (hw.run r hphase (by simpa using hworks)) hbox
      · cases h

lemma of_stepRecv {due : Bool} {ans : DbAnswer} (hw : RunHolds J I w) (hphase : w.phase = .running r)
    (h : stepRecv B sourceId w r due ans = some w') : RunHolds J I w' := by
  unfold stepRecv at h
  split at h
  · cases h
  · rename_i hworks
    have hrun := hw.run r hphase (by simpa using hworks)
    split at h
    · cases h
    · rename_i cf rest hchan
      have hitem := K.item hrun hchan
      dsimp only at h
      split at h
      · obtain rfl := Option.some.inj h
        exact .of_running hw.db fun _ => hitem
      · split at h
        · obtain rfl := Option.some.inj h
          exact .of_running hw.db fun h => absurd h (by simp [CarveRun.fail])
        · rename_i db' hf
          obtain rfl := Option.some.inj h
          obtain ⟨hdb', hr'⟩ := K.of_flush hw.db hitem hf
          exact .of_running hdb' fun _ => hr'
    · rename_i p rest hchan
      have hmark := K.mark hrun hchan
      dsimp only at h
      split at h
      · obtain rfl := Option.some.inj h
        exact K.of_stepCheckpoint ans hw.db hmark
      · obtain rfl := Option.some.inj h
        exact .of_running hw.db fun _ => hmark

lemma of_stepFinish {vanished : Bool} {ans : DbAnswer} (hw : RunHolds J I w)
    (hphase : w.phase = .running r) (h : stepFinish B sourceId w r vanished ans = some w') :
    RunHolds J I w' := by
  unfold stepFinish at h
  split at h
  · cases h
  · rename_i hready
    rw [not_or, Bool.not_eq_true, ne_eq, not_not] at hready
    have hrun := hw.run r hphase hready.1
    obtain ⟨o, ho, hw'⟩ := Option.map_eq_some_iff.1 h
    unfold saveProgress at hw'
    cases hf : Reclaim.flush B sourceId ans.flushed w.db r.pending with
    | none =>
      rw [hf] at hw'
      subst hw'
      exact .of_not_running hw.db fun r h => by cases h
    | some db' =>
      obtain ⟨hdb', hr'⟩ := K.of_flush hw.db hrun hf
      rw [hf] at hw'
      cases hs : ans.saved with
      | false =>
        rw [hs] at hw'
        subst hw'
        exact .of_not_running hdb' fun r h => by cases h
      | true =>
        rw [hs] at hw'
        subst hw'
        exact .of_not_running (K.last (r := { r with pending := [] }) hdb' hr' rfl hready.2 ho) fun r h => by cases h

lemma of_startPhase {a : ScanArgs} {resume cancelled : Bool} {answer : ℕ → Reader} (hdb : J db)
    (hrule : rules.start db.now a resume answer) :
    RunHolds J I ⟨db, cancelled, startPhase E db.now a resume answer⟩ := by
  unfold startPhase
  cases hp : db.now.progress with
  | none => exact .of_running hdb fun _ => K.begin _ _ _ hdb hrule (by simp [hp]) rfl
  | some p =>
    dsimp only
    split
    · exact .of_not_running hdb fun r h => by cases h
    · rename_i hopen
      refine .of_running hdb fun _ => K.begin _ _ _ hdb hrule (fun q hq => ?_) rfl
      obtain rfl : p = q := Option.some.inj (hp.symm.trans hq)
      simpa using hopen

/-- One step. -/
lemma step {act : CarveAct} (hw : RunHolds J I w) (hrule : rules.Allows w act)
    (h : carveStep E B sourceId w act = some w') : RunHolds J I w' := by
  unfold carveStep at h
  split at h
  · cases h
  · obtain rfl := Option.some.inj h
    exact K.of_startPhase hw.db hrule
  · obtain rfl := Option.some.inj h
    exact ⟨hw.db, hw.run⟩
  · rename_i hphase
    exact K.of_stepScan hw hphase hrule h
  · rename_i hphase
    exact K.of_stepSend hw hphase h
  · split at h
    · cases h
    · obtain rfl := Option.some.inj h
      exact ⟨hw.db, hw.run⟩
  · rename_i hphase
    exact K.of_stepRecv hw hphase h
  · rename_i due ans r hphase
    split at h
    · cases h
    · rename_i hready
      rw [not_or, Bool.not_eq_true] at hready
      obtain rfl := Option.some.inj h
      cases due with
      | false => exact hw
      | true => exact K.of_stepCheckpoint ans hw.db (hw.run r hphase hready.1)
  · rename_i hphase
    exact K.of_stepFinish hw hphase h
  · split at h
    · obtain rfl := Option.some.inj h
      exact .of_not_running hw.db fun r h => by cases h
    · cases h
  · obtain ⟨db', hdb', rfl⟩ := Option.map_eq_some_iff.1 h
    exact .of_not_running (K.crash hw.db hdb') fun r h => by cases h
  · cases h

/-- **What is kept holds after every history that keeps to the rules.** -/
theorem reaches {t : Rows} (hinit : J (CarveWorld.fresh t).db)
    (h : Reaches (carveSystem E B sourceId t) rules.Allows w) : RunHolds J I w := by
  refine h.invariant (fun w hw => ?_) fun w act w' hw hrule hstep => K.step hw hrule hstep
  obtain rfl : w = .fresh t := hw
  exact .of_not_running hinit fun r hr => by cases hr

end RunKept

end Invariants

/-! ## What a stored cursor vouches for -/

section Cursor

variable {E : CarveEngine} (B : Backend) (sourceId : String)

/-- A row under the id of the file is stored. -/
def CarveStore.Has (v : CarveStore) (cf : CarvedFile) : Prop :=
  resultId B sourceId carveName cf.offset cf.len ∈ keys CarvedRecord.id v.rows.rows

/-- What the scan behind the progress row found in the chunks up to the cursor is stored, and once
the scan is complete all that it found. -/
def CarveStore.CursorSafe (v : CarveStore) : Prop :=
  ∀ p, v.progress = some p → ∀ x ∈ v.emitted, x.1 ≤ p.cursor ∨ p.complete = true →
    v.Has B sourceId x.2

/-- The writer and the messages on their way account for what the scan has found. -/
structure CarveRun.Accounted (db : Database) (r : CarveRun) : Prop where
  covers : Covers CarveProgress.cursor (fun cf => db.now.Has B sourceId cf ∨ cf ∈ r.pending) r.log
    r.cur.cursor (r.channel ++ r.thread.outbox)
  cur_le : r.cur.cursor ≤ r.thread.pos
  marks_le : ∀ m ∈ marks (r.channel ++ r.thread.outbox), m.cursor ≤ r.thread.pos
  /-- A scan that has returned has sent everything. -/
  sent : r.thread.outcome.isSome = true → r.thread.outbox = []

variable {B sourceId} {db db' : Database} {r : CarveRun} {v : CarveStore}

lemma CarveStore.has_insert {batch : List CarvedFile} {cf : CarvedFile} :
    (v.insert B sourceId batch).Has B sourceId cf ↔ v.Has B sourceId cf ∨
      resultId B sourceId carveName cf.offset cf.len ∈
        batch.map fun cf => resultId B sourceId carveName cf.offset cf.len := by
  unfold Has insert insertCarved Rows.insertRecords
  rw [mem_keys_insertAll, keys, keys, List.map_map]
  rfl

lemma CarveStore.has_of_pending {batch : List CarvedFile} {cf : CarvedFile}
    (h : v.Has B sourceId cf ∨ cf ∈ batch) : (v.insert B sourceId batch).Has B sourceId cf :=
  has_insert.2 (h.imp_right fun hmem => List.mem_map_of_mem hmem)

lemma CarveStore.CursorSafe.insert (h : v.CursorSafe B sourceId) (batch : List CarvedFile) :
    (v.insert B sourceId batch).CursorSafe B sourceId :=
  fun p hp x hx hle => has_of_pending (.inl (h p hp x hx hle))

lemma forall_versions_commit {P : CarveStore → Prop} :
    (∀ u ∈ (db.commit v).versions, P u) ↔ P v ∧ ∀ u ∈ db.versions, P u := List.forall_mem_cons

/-- After a crash the database is found in a state that it was in. -/
lemma versions_of_rollback {k : ℕ} (h : db.rollback k = some db') :
    ∀ u ∈ db'.versions, u ∈ db.versions := by
  unfold Database.rollback at h
  split at h
  · cases h
  · rename_i u past hdrop
    obtain rfl := Option.some.inj h
    exact fun x hx => List.drop_subset k _ (hdrop ▸ hx)

namespace CarveRun.Accounted

lemma begin {a : ScanArgs} {resume : Bool} {answer : ℕ → Reader} {bs resumeFrom : ℕ}
    {log : List (ℕ × CarvedFile)} (hdb : db.now.CursorSafe B sourceId)
    (hpt : resumePoint E db.now a resume answer = (resumeFrom, bs, log)) :
    (CarveRun.begin (a.withBlockSize bs) resumeFrom log).Accounted B sourceId db := by
  have hlog : ∀ x ∈ log, db.now.Has B sourceId x.2 := by
    unfold resumePoint at hpt
    split at hpt
    · rename_i p hp
      obtain ⟨rfl, -, rfl⟩ := hpt
      intro x hx
      obtain ⟨hmem, hle⟩ := List.mem_filter.1 hx
      exact hdb p hp x hmem (.inl (of_decide_eq_true hle))
    · obtain ⟨-, -, rfl⟩ := hpt
      exact fun x hx => absurd hx List.not_mem_nil
  refine ⟨⟨fun x hx _ => .inl (hlog x hx), trivial, fun x hx => .inl (.inl (hlog x hx))⟩,
    le_max_left _ _, fun m hm => absurd hm List.not_mem_nil, fun _ => rfl⟩

lemma scanNext {answer : ℕ → Reader} (h : r.Accounted B sourceId db) (hbox : r.thread.outbox = [])
    (hopen : r.thread.outcome = none) (hlt : r.thread.pos < r.args.scanEnd) :
    (r.scanNext E answer).Accounted B sourceId db := by
  have hchunk := E.chunk_pos
  have hcovers := h.covers
  have hmarks := h.marks_le
  have hcur := h.cur_le
  rw [hbox, List.append_nil] at hcovers hmarks
  have hstop : r.thread.pos < min (r.thread.pos + E.chunk) r.args.scanEnd := by omega
  refine ⟨hcovers.append (by omega) fun m hm => (hmarks m hm).trans_lt hstop,
    hcur.trans (Nat.le_add_right _ _), fun m hm => ?_, fun hsome => ?_⟩
  · show m.cursor ≤ r.thread.pos + E.chunk
    rw [CarveRun.scanNext, marks_append, marks_batch] at hm
    rcases List.mem_append.1 hm with hm | hm
    · exact (hmarks m hm).trans (Nat.le_add_right _ _)
    · obtain rfl := List.mem_singleton.1 hm
      exact min_le_left _ _
  · exact absurd hsome (by simp [CarveRun.scanNext, hopen])

lemma flush (h : r.Accounted B sourceId db) :
    { r with pending := [] }.Accounted B sourceId
      (db.commit (db.now.insert B sourceId r.pending)) :=
  ⟨h.covers.mono fun _ hcf => .inl (CarveStore.has_of_pending hcf), h.cur_le, h.marks_le, h.sent⟩

end CarveRun.Accounted

/-- **The cursor and the batches.** -/
lemma kept_accounted : RunKept E B sourceId .free
    (fun db => ∀ v ∈ db.versions, v.CursorSafe B sourceId)
    (fun db r => r.Accounted B sourceId db) where
  begin _ _ _ hdb _ _ hpt := .begin (hdb _ List.mem_cons_self) hpt
  scanNext h _ hbox hopen hlt := h.scanNext hbox hopen hlt
  scanDone h hbox _ := ⟨h.covers, h.cur_le, h.marks_le, fun _ => hbox⟩
  send {db r m rest} h hbox := by
    have hqueue : r.channel ++ [m] ++ rest = r.channel ++ r.thread.outbox := by
      rw [hbox, List.append_assoc]
      rfl
    refine ⟨hqueue ▸ h.covers, h.cur_le, hqueue ▸ h.marks_le, fun hsome => ?_⟩
    exact absurd (h.sent hsome) (by simp [hbox])
  item {db r cf rest} h hchan := by
    have hcovers := h.covers
    have hmarks := h.marks_le
    rw [hchan] at hcovers hmarks
    refine ⟨hcovers.item.mono fun c hc => ?_, h.cur_le, hmarks, h.sent⟩
    simpa [or_assoc] using hc
  mark {db r p rest} h hchan := by
    have hcovers := h.covers
    have hmarks := h.marks_le
    rw [hchan] at hcovers hmarks
    exact ⟨hcovers.mark, hmarks p List.mem_cons_self,
      fun m hm => hmarks m (List.mem_cons_of_mem _ hm), h.sent⟩
  flush hdb h := ⟨forall_versions_commit.2 ⟨(hdb _ List.mem_cons_self).insert _, hdb⟩, h.flush⟩
  save {db r} hdb h hnone := by
    refine ⟨forall_versions_commit.2 ⟨fun p hp x hx hle => ?_, hdb⟩, h.covers, h.cur_le,
      h.marks_le, h.sent⟩
    obtain rfl := Option.some.inj hp
    have hdone := h.covers.handled x hx (hle.resolve_right (by simp [CarveRun.row]))
    exact hdone.resolve_right (by simp [hnone])
  last {db r o} hdb h hnone hchan ho := by
    refine forall_versions_commit.2 ⟨fun p hp x hx _ => ?_, hdb⟩
    have hcovers := h.covers
    rw [hchan, h.sent (by simp [ho])] at hcovers
    exact (hcovers.drained x hx).resolve_right (by simp [hnone])
  crash hdb hroll v hv := hdb v (versions_of_rollback hroll v hv)

/-- **No file is lost below a stored cursor.**  Whatever the device answers, however the threads
interleave, whatever transactions fail and wherever runs are cancelled, crash and are started again:
in every state that the database may be found in, each file that the scan behind the progress row
found in a chunk that ends at or before the cursor has its row, and if the scan is marked complete
each file that it found at all. -/
theorem cursor_safe {t : Rows} {w : CarveWorld}
    (h : Reaches (carveSystem E B sourceId t) CarveRules.free.Allows w) {v : CarveStore}
    (hv : v ∈ w.db.versions) {p : ProgressRow} (hp : v.progress = some p)
    {x : ℕ × CarvedFile} (hx : x ∈ v.emitted) (hle : x.1 ≤ p.cursor ∨ p.complete = true) :
    ∃ row ∈ v.rows.rows, row.id = resultId B sourceId carveName x.2.offset x.2.len := by
  have hfresh : ∀ v ∈ (CarveWorld.fresh t).db.versions, v.CursorSafe B sourceId := fun v hv p hp => by
    obtain rfl := List.mem_singleton.1 hv
    cases hp
  have hw := kept_accounted.reaches hfresh h
  exact mem_keys.1 (hw.db v hv p hp x hx hle)

end Cursor

open LetterFiles in
theorem cursor_safe_letters : ∃ w, session.runFrom (.fresh .empty)
      (start apart :: firstChunk apart) = some w ∧
    ∃ p, w.db.now.progress = some p ∧ ∃ x ∈ w.db.now.emitted, x.1 ≤ p.cursor ∧
      ∃ row ∈ w.db.now.rows.rows,
        row.id = resultId .plain "source" carveName x.2.offset x.2.len := by
  have hrun : ((session.runFrom (.fresh .empty) (start apart :: firstChunk apart)).map fun w =>
      (w.db.now.progress.map (·.cursor), w.db.now.emitted.map Prod.fst)) =
      some (some 4, [4]) := by
    decide +kernel
  obtain ⟨w, hw, hvals⟩ := Option.map_eq_some_iff.1 hrun
  obtain ⟨hcursor, hends⟩ := Prod.mk.inj hvals
  obtain ⟨p, hp, hcur⟩ := Option.map_eq_some_iff.1 hcursor
  obtain ⟨x, hx, hend⟩ := List.mem_map.1 (hends ▸ List.mem_singleton_self 4)
  have hle : x.1 ≤ p.cursor := by rw [hend, hcur]
  have hreach : Reaches session CarveRules.free.Allows w := by
    refine (Reaches.init rfl).of_run _ (fun act _ u => ?_) hw
    cases act <;> trivial
  exact ⟨w, hw, p, hp, x, hx, hle, cursor_safe hreach List.mem_cons_self hp hx (.inl hle)⟩

end Reclaim

/-!
## A carve scan returns

The channel is bounded, so the scan thread may have to wait for the writer, and the writer waits for
the scan thread at the end.  A writer that fails drops its end of the channel before it joins the
thread, and what is sent from then on is lost without waiting.  So the two never wait for each
other (`never_stuck`), and as there is only so much to scan, `run_carve` returns
(`fair_returns`).
-/

namespace Reclaim

open MarkedQueue Transition

section Returns

variable {E : CarveEngine} {B : Backend} {sourceId : String} {w w' : CarveWorld} {r : CarveRun}

/-- What the two threads do themselves: everything but waiting, the flag, starts and crashes. -/
def CarveAct.Own : CarveAct → Prop
  | .scan _ _ | .send | .recv _ _ | .finish _ _ | .join => True
  | _ => False

/-- `run_carve` has returned, with a report or an error. -/
def CarveWorld.Returned (w : CarveWorld) : Prop := ∃ report, w.phase = .returned report

/-- A thread that has something to say can say it, if there is room or nobody to listen. -/
lemma send_enabled (hphase : w.phase = .running r) (hbox : r.thread.outbox ≠ [])
    (hroom : r.failed = true ∨ r.channel = []) :
    (carveStep E B sourceId w .send).isSome = true := by
  obtain ⟨m, rest, hm⟩ := List.exists_cons_of_ne_nil hbox
  rw [carveStep_send hphase]
  unfold stepSend
  rw [hm]
  dsimp only
  split_ifs with hfailed hlen
  · rfl
  · rfl
  · rw [hroom.resolve_left hfailed] at hlen
    exact absurd hlen (by simp [carveBatch])

/-- A thread that has nothing to say goes on. -/
lemma scan_enabled (hphase : w.phase = .running r) (hbox : r.thread.outbox = [])
    (hout : r.thread.outcome = none) (answer : ℕ → Reader) :
    (carveStep E B sourceId w (.scan false answer)).isSome = true := by
  rw [carveStep_scan hphase]
  unfold stepScan
  rw [hbox, hout]
  split_ifs <;> simp_all

/-- A writer that works receives what there is. -/
lemma recv_enabled (hphase : w.phase = .running r) (hworks : r.failed = false)
    (hchan : r.channel ≠ []) (ans : DbAnswer) :
    (carveStep E B sourceId w (.recv false ans)).isSome = true := by
  obtain ⟨m, rest, hm⟩ := List.exists_cons_of_ne_nil hchan
  rw [carveStep_recv hphase]
  unfold stepRecv
  rw [hworks, hm, if_neg Bool.false_ne_true]
  cases m with
  | item cf =>
    dsimp only
    split_ifs
    · rfl
    · cases flush B sourceId ans.flushed w.db (r.pending ++ [cf]) <;> rfl
  | mark p =>
    dsimp only
    split_ifs <;> rfl

/-- **No deadlock.**  As long as `run_carve` has not returned, one of its threads can go on, with
whatever answers the device and the database give. -/
lemma never_stuck (hphase : w.phase = .running r) (answer : ℕ → Reader) (ans : DbAnswer) :
    ∃ act ∈ [CarveAct.scan false answer, .send, .recv false ans, .finish false ans, .join],
      (carveStep E B sourceId w act).isSome = true := by
  by_cases hroom : r.failed = true ∨ r.channel = []
  · cases hout : r.thread.outcome with
    | none =>
      by_cases hbox : r.thread.outbox = []
      · exact ⟨_, by simp, scan_enabled hphase hbox hout answer⟩
      · exact ⟨.send, by simp, send_enabled hphase hbox hroom⟩
    | some o =>
      cases hfailed : r.failed with
      | true => exact ⟨.join, by simp, by simp [carveStep_join hphase, hfailed, hout]⟩
      | false =>
        have hchan := hroom.resolve_left (by simp [hfailed])
        refine ⟨.finish false ans, by simp, ?_⟩
        simp [carveStep_finish hphase, stepFinish, hfailed, hchan, hout]
  · obtain ⟨hworks, hchan⟩ := not_or.1 hroom
    exact ⟨.recv false ans, by simp, recv_enabled hphase (by simpa using hworks) hchan ans⟩

/-! ## What is left to do -/

/-- What is left to scan, and what is left to send and to receive. -/
def CarveRun.work (r : CarveRun) : ℕ × ℕ :=
  (if r.thread.outcome.isSome then 0 else r.args.scanEnd - r.thread.pos + 1,
    2 * r.thread.outbox.length + r.channel.length + if r.failed then 1 else 2)

/-- What is left to do in the run under way, if there is one. -/
def CarveWorld.work (w : CarveWorld) : ℕ × ℕ :=
  match w.phase with
  | .running r => r.work
  | _ => (0, 0)

/-- Less is left to do. -/
def LessWork : ℕ × ℕ → ℕ × ℕ → Prop := Prod.Lex (· < ·) (· < ·)

lemma lessWork_wf : WellFounded LessWork := wellFounded_lt.prod_lex wellFounded_lt

lemma lessWork_zero (r : CarveRun) : LessWork (0, 0) r.work := by
  have hpos : 0 < r.work.2 := by
    unfold CarveRun.work
    dsimp only
    split_ifs <;> omega
  rcases Nat.eq_zero_or_pos r.work.1 with hzero | hpos'
  · rw [← Prod.mk.eta (p := r.work), hzero]
    exact .right _ hpos
  · rw [← Prod.mk.eta (p := r.work)]
    exact .left _ _ hpos'

/-- A writer that fails leaves less to do, and so does one that receives. -/
lemma lessWork_fail (h : r.failed = false) : LessWork r.fail.work r.work := by
  refine .right _ ?_
  simp only [CarveRun.fail, h, List.length_nil]
  simp only [if_true, Bool.false_eq_true, if_false]
  omega

variable (B sourceId w r) in
lemma stepCheckpoint_cases (ans : DbAnswer) :
    (∃ db, stepCheckpoint B sourceId w r ans = writerFailed r db) ∨
      ∃ db, stepCheckpoint B sourceId w r ans =
        ⟨db, w.cancel, .running { r with pending := [], lastCkptScanned := r.cur.scanned }⟩ := by
  unfold stepCheckpoint
  rcases saveProgress B sourceId ans w.db r.pending r.row r.log with ⟨db, _ | _⟩
  · exact .inl ⟨db, rfl⟩
  · exact .inr ⟨db, rfl⟩

lemma lessWork_scan {seen : Bool} {answer : ℕ → Reader} (h : stepScan E w r seen answer = some w') :
    LessWork w'.work r.work := by
  unfold stepScan at h
  split at h
  · cases h
  · rename_i hidle
    rw [not_or, Bool.not_eq_true] at hidle
    have hdone : ∀ i, LessWork (r.scanDone i).work r.work := fun i => by
      refine .left _ _ ?_
      simp [CarveRun.scanDone, hidle.1]
    split at h
    · obtain rfl := Option.some.inj h
      exact hdone false
    · split at h
      · obtain rfl := Option.some.inj h
        exact hdone true
      · obtain rfl := Option.some.inj h
        have hchunk := E.chunk_pos
        refine .left _ _ ?_
        simp only [CarveRun.scanNext, hidle.1, Bool.false_eq_true, if_false]
        omega

lemma lessWork_send (h : stepSend w r = some w') : LessWork w'.work r.work := by
  unfold stepSend at h
  split at h
  · cases h
  · rename_i m rest hbox
    dsimp only at h
    split at h
    · obtain rfl := Option.some.inj h
      refine .right _ ?_
      simp only [hbox, List.length_cons]
      omega
    · split at h
      · obtain rfl := Option.some.inj h
        refine .right _ ?_
        simp only [hbox, List.length_cons, List.length_append, List.length_nil]
        omega
      · cases h

lemma lessWork_recv {due : Bool} {ans : DbAnswer} (h : stepRecv B sourceId w r due ans = some w') :
    LessWork w'.work r.work := by
  -- whatever else becomes of it, the message is gone
  have hless : ∀ {m rest pending cur last}, r.channel = m :: rest → LessWork
      { r with channel := rest, pending := pending, cur := cur, lastCkptScanned := last }.work
      r.work := fun hchan => by
    refine .right _ ?_
    simp only [hchan, List.length_cons]
    omega
  unfold stepRecv at h
  split at h
  · cases h
  · rename_i hworks
    rw [Bool.not_eq_true] at hworks
    split at h
    · cases h
    · rename_i cf rest hchan
      dsimp only at h
      split at h
      · obtain rfl := Option.some.inj h
        exact hless hchan
      · split at h
        · obtain rfl := Option.some.inj h
          exact lessWork_fail hworks
        · obtain rfl := Option.some.inj h
          exact hless hchan
    · rename_i p rest hchan
      dsimp only at h
      split at h
      · obtain rfl := Option.some.inj h
        rcases stepCheckpoint_cases B sourceId w { r with channel := rest, cur := p } ans with ⟨db, hdb⟩ | ⟨db, hdb⟩
        · rw [hdb]
          exact lessWork_fail hworks
        · rw [hdb]
          exact hless hchan
      · obtain rfl := Option.some.inj h
        exact hless hchan

lemma lessWork_finish {vanished : Bool} {ans : DbAnswer}
    (h : stepFinish B sourceId w r vanished ans = some w') : LessWork w'.work r.work := by
  unfold stepFinish at h
  split at h
  · cases h
  · obtain ⟨o, -, rfl⟩ := Option.map_eq_some_iff.1 h
    rcases saveProgress B sourceId ans w.db r.pending (r.lastRow o) r.log with ⟨db, _ | _⟩
    · exact lessWork_zero r
    · exact lessWork_zero r

/-- **An own move leaves less to do.** -/
lemma lessWork_of_own {act : CarveAct} (hphase : w.phase = .running r) (hown : act.Own)
    (h : carveStep E B sourceId w act = some w') : LessWork w'.work w.work := by
  rw [show w.work = r.work by rw [CarveWorld.work, hphase]]
  cases act with
  | scan => exact lessWork_scan (carveStep_scan hphase _ _ ▸ h)
  | send => exact lessWork_send (carveStep_send hphase ▸ h)
  | recv => exact lessWork_recv (carveStep_recv hphase _ _ ▸ h)
  | finish => exact lessWork_finish (carveStep_finish hphase _ _ ▸ h)
  | join =>
    rw [carveStep_join hphase] at h
    split at h
    · obtain rfl := Option.some.inj h
      exact lessWork_zero r
    · cases h
  | start => exact hown.elim
  | cancel => exact hown.elim
  | poll => exact hown.elim
  | timeout => exact hown.elim
  | crash => exact hown.elim

/-- Setting the flag and waiting leave no more to do. -/
lemma work_of_not_own {act : CarveAct} (hphase : w.phase = .running r) (hown : ¬ act.Own)
    (hcrash : ∀ k, act ≠ .crash k) (h : carveStep E B sourceId w act = some w') :
    w'.work = w.work ∨ LessWork w'.work w.work := by
  cases act with
  | cancel =>
    simp only [carveStep] at h
    obtain rfl := Option.some.inj h
    exact .inl rfl
  | poll vanished =>
    simp only [carveStep, hphase] at h
    split at h
    · cases h
    · obtain rfl := Option.some.inj h
      exact .inl (by simp only [CarveWorld.work, hphase])
  | timeout due ans =>
    have hwork : w.work = r.work := by rw [CarveWorld.work, hphase]
    rw [carveStep_timeout hphase] at h
    split at h
    · cases h
    · rename_i hready
      rw [not_or, Bool.not_eq_true] at hready
      obtain rfl := Option.some.inj h
      rw [hwork]
      cases due with
      | false => exact .inl hwork
      | true =>
        rw [if_pos rfl]
        rcases stepCheckpoint_cases B sourceId w r ans with
          ⟨db, hdb⟩ | ⟨db, hdb⟩
        · rw [hdb]
          exact .inr (lessWork_fail hready.1)
        · rw [hdb]
          exact .inl rfl
  | start =>
    simp only [carveStep, hphase] at h
    cases h
  | crash k => exact absurd rfl (hcrash k)
  | scan => exact absurd trivial hown
  | send => exact absurd trivial hown
  | recv => exact absurd trivial hown
  | finish => exact absurd trivial hown
  | join => exact absurd trivial hown

/-- A run under way stays so or returns, unless the process dies. -/
lemma running_or_returned {act : CarveAct} (hphase : w.phase = .running r)
    (hcrash : ∀ k, act ≠ .crash k) (h : carveStep E B sourceId w act = some w') :
    (∃ r', w'.phase = .running r') ∨ w'.Returned := by
  have hcheckpoint : ∀ r ans, ∃ r', (stepCheckpoint B sourceId w r ans).phase = .running r' :=
    fun r ans => by
      rcases stepCheckpoint_cases B sourceId w r ans with
        ⟨db, hdb⟩ | ⟨db, hdb⟩
      · exact ⟨_, by rw [hdb]; rfl⟩
      · exact ⟨_, by rw [hdb]⟩
  cases act with
  | start =>
    simp only [carveStep, hphase] at h
    cases h
  | cancel =>
    simp only [carveStep] at h
    obtain rfl := Option.some.inj h
    exact .inl ⟨r, hphase⟩
  | scan =>
    rw [carveStep_scan hphase] at h
    unfold stepScan at h
    split_ifs at h <;> obtain rfl := Option.some.inj h <;> exact .inl ⟨_, rfl⟩
  | send =>
    rw [carveStep_send hphase] at h
    unfold stepSend at h
    split at h
    · cases h
    · dsimp only at h
      split_ifs at h <;> obtain rfl := Option.some.inj h <;> exact .inl ⟨_, rfl⟩
  | poll =>
    simp only [carveStep, hphase] at h
    split at h
    · cases h
    · obtain rfl := Option.some.inj h
      exact .inl ⟨r, rfl⟩
  | recv due ans =>
    rw [carveStep_recv hphase] at h
    unfold stepRecv at h
    split at h
    · cases h
    · split at h
      · cases h
      · dsimp only at h
        split at h
        · obtain rfl := Option.some.inj h
          exact .inl ⟨_, rfl⟩
        · split at h <;> obtain rfl := Option.some.inj h <;> exact .inl ⟨_, rfl⟩
      · dsimp only at h
        split at h
        · obtain rfl := Option.some.inj h
          exact .inl (hcheckpoint _ ans)
        · obtain rfl := Option.some.inj h
          exact .inl ⟨_, rfl⟩
  | timeout due ans =>
    rw [carveStep_timeout hphase] at h
    split at h
    · cases h
    · obtain rfl := Option.some.inj h
      cases due with
      | false => exact .inl ⟨r, hphase⟩
      | true => exact .inl (hcheckpoint r ans)
  | finish vanished ans =>
    rw [carveStep_finish hphase] at h
    unfold stepFinish at h
    split at h
    · cases h
    · obtain ⟨o, -, rfl⟩ := Option.map_eq_some_iff.1 h
      rcases saveProgress B sourceId ans w.db r.pending (r.lastRow o) r.log with ⟨db, _ | _⟩
      · exact .inr ⟨_, rfl⟩
      · exact .inr ⟨_, rfl⟩
  | join =>
    rw [carveStep_join hphase] at h
    split at h
    · obtain rfl := Option.some.inj h
      exact .inr ⟨_, rfl⟩
    · cases h
  | crash k => exact absurd rfl (hcrash k)

/-- **`run_carve` returns.**  While it is under way one of its two threads can always go on; and if
they keep going, in whatever order, it returns, however the device answers and whichever
transactions fail. -/
theorem fair_returns {t : Rows} (run : EndlessRun (carveSystem E B sourceId t)) {n : ℕ}
    (hstart : (run.state n).phase = .running r) (hcrash : ∀ i k, run.act i ≠ .crash k) :
    (∀ i r', (run.state i).phase = .running r' → ∀ answer ans,
      ∃ act ∈ [CarveAct.scan false answer, .send, .recv false ans, .finish false ans, .join],
        (carveStep E B sourceId (run.state i) act).isSome = true) ∧
    (run.Fair CarveAct.Own → ∃ i, n ≤ i ∧ (run.state i).Returned) := by
  refine ⟨fun i r' hr' answer ans => never_stuck hr' answer ans, fun hfair => ?_⟩
  by_contra hnever
  push Not at hnever
  have hrunning : ∀ k, ∃ r', (run.state (n + k)).phase = .running r' := by
    intro k
    induction k with
    | zero => exact ⟨r, hstart⟩
    | succ k ih =>
      obtain ⟨r', hr'⟩ := ih
      have hstep := run.step (n + k)
      exact (running_or_returned hr' (hcrash _) hstep).resolve_right
        (hnever (n + (k + 1)) (Nat.le_add_right _ _))
  have hreturns : ∃ i, n ≤ i ∧ (run.state i).Returned := by
    refine hfair.reaches lessWork_wf CarveWorld.work (fun i hi _ hmove => ?_) fun i hi _ hother => ?_
    · obtain ⟨k, rfl⟩ := Nat.exists_eq_add_of_le hi
      obtain ⟨r', hr'⟩ := hrunning k
      exact lessWork_of_own hr' hmove (run.step (n + k))
    · obtain ⟨k, rfl⟩ := Nat.exists_eq_add_of_le hi
      obtain ⟨r', hr'⟩ := hrunning k
      exact work_of_not_own hr' hother (hcrash _) (run.step (n + k))
  obtain ⟨i, hi, hgoal⟩ := hreturns
  exact hnever i hi hgoal

end Returns

namespace LetterFiles

/-- A session whose database fails at the end of every run, however often it is started. -/
def retrying : EndlessRun session where
  state i :=
    if i % 3 = 0 then ⟨(CarveWorld.fresh .empty).db, false, .returned none⟩
    else if i % 3 = 1 then
      ⟨(CarveWorld.fresh .empty).db, false, .running (.begin (args 0) 0 [])⟩
    else
      ⟨(CarveWorld.fresh .empty).db, false,
        .running ((CarveRun.begin (args 0) 0 []).scanDone false)⟩
  act i :=
    if i % 3 = 0 then .start (args 0) true false fun _ => memReader []
    else if i % 3 = 1 then .scan false fun _ => memReader []
    else .finish false ⟨true, false⟩
  step i := by
    have hcases : i % 3 = 0 ∧ (i + 1) % 3 = 1 ∨ i % 3 = 1 ∧ (i + 1) % 3 = 2 ∨
        i % 3 = 2 ∧ (i + 1) % 3 = 0 := by omega
    rcases hcases with ⟨h, h'⟩ | ⟨h, h'⟩ | ⟨h, h'⟩ <;>
    · rw [h, h']
      rfl

theorem fair_returns_retrying : ∃ i, 1 ≤ i ∧ (retrying.state i).Returned := by
  have hcrash : ∀ i k, retrying.act i ≠ .crash k := fun i k => by
    unfold retrying
    dsimp only
    split_ifs <;> simp
  refine (fair_returns (n := 1) retrying rfl hcrash).2 fun n => ⟨3 * n + 1, by omega, ?_⟩
  have hmod : (3 * n + 1) % 3 = 1 := by omega
  unfold retrying
  dsimp only
  rw [hmod]
  trivial

end LetterFiles

end Reclaim
