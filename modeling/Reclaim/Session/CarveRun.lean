import Reclaim.Foundation.MarkedQueue
import Reclaim.Foundation.Transition
import Reclaim.Session.CarveRows

/-!
# A carve scan and the database it fills

`run_carve` scans on a thread of its own.  What the engine finds and how far it has come goes
through a bounded channel to the writer, which collects files into batches, stores each batch in one
transaction and now and then stores the cursor.  A run ends when the scan does, when it is
cancelled, or when the database fails it; a crash ends it anywhere and may also undo the last
commits, and the next run goes on from the cursor that is left.

The scan thread, the writer, the device and the crashes are interleaved in any order, and the device
answers every read as it likes.  `cursor_safe` says that all the same no file is lost below a stored
cursor: every order in which the batches and the cursor become durable keeps a cursor behind the
files it vouches for.
-/

namespace Reclaim

open MarkedQueue Transition KeyedTable

/-! ## The database -/

/-- `CarveProgress`. -/
structure CarveProgress where
  /-- How far the scan has come, for a resume. -/
  cursor : ℕ
  scanned : ℕ
  total : ℕ
  /-- Results found so far. -/
  found : ℕ

/-- The row of the carve engine in the table `progress`. -/
structure ProgressRow extends CarveProgress where
  complete : Bool
  blockSize : ℕ

/-- What is durable after a commit.  `emitted` is not stored: it is what the scan that wrote the
progress row had found by then, each file with the end of its chunk. -/
structure CarveStore where
  rows : Rows
  progress : Option ProgressRow
  emitted : List (ℕ × CarvedFile)

/-- The state after the last commit, and those before that a crash may fall back to. -/
structure Database where
  now : CarveStore
  past : List CarveStore

namespace Database

/-- A transaction commits. -/
def commit (db : Database) (v : CarveStore) : Database := ⟨v, db.now :: db.past⟩

/-- The last `k` commits are lost. -/
def rollback (db : Database) (k : ℕ) : Option Database :=
  match (db.now :: db.past).drop k with
  | [] => none
  | v :: past => some ⟨v, past⟩

/-- All states that the database may be found in. -/
def versions (db : Database) : List CarveStore := db.now :: db.past

end Database

/-- How the transactions of a step go: `insert_carved`, and `put_progress` behind it. -/
structure DbAnswer where
  flushed : Bool
  saved : Bool

section Writer

variable (B : Backend) (sourceId : String)

/-- The store after a batch. -/
def CarveStore.insert (v : CarveStore) (batch : List CarvedFile) : CarveStore :=
  { v with rows := insertCarved B sourceId carveName v.rows batch }

/-- `flush`: the batch in one transaction, or an error. -/
def flush (ok : Bool) (db : Database) (pending : List CarvedFile) : Option Database :=
  if pending = [] then some db
  else if ok then some (db.commit (db.now.insert B sourceId pending))
  else none

/-- `put_progress`, by a scan that has found `log`. -/
def putProgress (db : Database) (row : ProgressRow) (log : List (ℕ × CarvedFile)) : Database :=
  db.commit { db.now with progress := some row, emitted := log }

/-- `flush`, then `put_progress`: the database behind, and whether both went well. -/
def saveProgress (ans : DbAnswer) (db : Database) (pending : List CarvedFile) (row : ProgressRow)
    (log : List (ℕ × CarvedFile)) : Database × Bool :=
  match flush B sourceId ans.flushed db pending with
  | none => (db, false)
  | some db' => if ans.saved then (putProgress db' row log, true) else (db', false)

end Writer

/-! ## A run -/

/-- `Msg`: `Found` is an item, `Progress` a mark. -/
abbrev Msg := Message CarvedFile CarveProgress

/-- `BATCH`. -/
def carveBatch : ℕ := 1024

/-- `ONE_GIB`. -/
def oneGib : ℕ := 1024 * 1024 * 1024

/-- `ScanOutcome`. -/
structure ScanOutcome where
  cursor : ℕ
  found : ℕ
  interrupted : Bool

/-- `ScanReport`. -/
structure ScanReport where
  found : ℕ
  interrupted : Bool
  blockSize : ℕ
  complete : Bool
  vanished : Bool

/-- The scan thread. -/
structure ScanThread where
  pos : ℕ
  claims : Claims
  found : ℕ
  /-- What it has to say about the chunks before `pos` and has not sent. -/
  outbox : List Msg
  /-- What `scan` has returned. -/
  outcome : Option ScanOutcome

/-- A run of `run_carve`, its thread spawned.  `log` is what the scan has found so far, in this run
and, up to where this run began, in those that it resumes. -/
structure CarveRun where
  args : ScanArgs
  thread : ScanThread
  channel : List Msg
  pending : List CarvedFile
  /-- The last progress the writer has seen. -/
  cur : CarveProgress
  lastCkptScanned : ℕ
  /-- The writer has failed: the receiver is dropped and the thread is about to be joined. -/
  failed : Bool
  log : List (ℕ × CarvedFile)

/-- Where `run_carve` stands. -/
inductive CarvePhase where
  | idle
  | running (r : CarveRun)
  /-- It has returned, with a report unless with an error. -/
  | returned (report : Option ScanReport)

/-- A session on its database. -/
structure CarveWorld where
  db : Database
  cancel : Bool
  phase : CarvePhase

/-- What a program returns if its `i`th read is answered by `answer i`. -/
def ReadProg.answered {α : Type} (p : ReadProg α) (answer : ℕ → Reader) : α :=
  (p.exec (fun off n i => (answer i off n, i + 1)) 0).1

/-- What may happen next. -/
inductive CarveAct where
  /-- `run_carve` is called and spawns the scan. -/
  | start (a : ScanArgs) (resume cancelled : Bool) (answer : ℕ → Reader)
  /-- Someone sets the flag. -/
  | cancel
  /-- The scan thread looks at the flag, which may show late, and does the next chunk. -/
  | scan (seen : Bool) (answer : ℕ → Reader)
  /-- The scan thread sends a message. -/
  | send
  /-- The writer asks whether the device has vanished. -/
  | poll (vanished : Bool)
  /-- The writer receives a message; `due` if the checkpoint interval is over. -/
  | recv (due : Bool) (ans : DbAnswer)
  /-- The writer has waited in vain. -/
  | timeout (due : Bool) (ans : DbAnswer)
  /-- The channel is empty and closed: the thread is joined and the result stored. -/
  | finish (vanished : Bool) (ans : DbAnswer)
  /-- The thread is joined after an error. -/
  | join
  /-- The process dies, or the machine, and the last `k` commits with it. -/
  | crash (k : ℕ)

section Step

variable (E : CarveEngine) (B : Backend) (sourceId : String)

/-- The cursor to start from, the block size, and what has been found up to there. -/
def resumePoint (v : CarveStore) (a : ScanArgs) (resume : Bool) (answer : ℕ → Reader) :
    ℕ × ℕ × List (ℕ × CarvedFile) :=
  match resume, v.progress with
  | true, some p => (p.cursor, p.blockSize, v.emitted.filter fun x => x.1 ≤ p.cursor)
  | _, _ =>
    (0, if a.opts.blockSize ≠ 0 then a.opts.blockSize
      else (E.inferBlockSize a.len a.sectorSize).answered answer, [])

/-- The arguments of a scan with its block size. -/
def ScanArgs.withBlockSize (a : ScanArgs) (bs : ℕ) : ScanArgs :=
  { a with opts := { a.opts with blockSize := bs } }

/-- A run from a cursor on. -/
def CarveRun.begin (a : ScanArgs) (resumeFrom : ℕ) (log : List (ℕ × CarvedFile)) : CarveRun where
  args := a
  thread := ⟨max resumeFrom a.scanStart, [], 0, [], none⟩
  channel := []
  pending := []
  cur := ⟨resumeFrom, 0, a.len, 0⟩
  lastCkptScanned := 0
  failed := false
  log := log

/-- `run_carve`, up to the spawn of the scan. -/
def startPhase (v : CarveStore) (a : ScanArgs) (resume : Bool) (answer : ℕ → Reader) :
    CarvePhase :=
  match v.progress with
  | some p =>
    if p.complete then .returned (some ⟨v.rows.rows.length, false, p.blockSize, true, false⟩)
    else
      let pt := resumePoint E v a resume answer
      .running (.begin (a.withBlockSize pt.2.1) pt.1 pt.2.2)
  | none =>
    let pt := resumePoint E v a resume answer
    .running (.begin (a.withBlockSize pt.2.1) pt.1 pt.2.2)

namespace CarveRun

/-- The chunk at `pos`: what it adds to what there is to say, and the position behind. -/
def scanNext (r : CarveRun) (answer : ℕ → Reader) : CarveRun :=
  let t := r.thread
  let out := (E.scanChunk r.args t.pos t.claims).answered answer
  let stop := min (t.pos + E.chunk) r.args.scanEnd
  let found := t.found + out.1.length
  { r with
    thread := { t with
      pos := t.pos + E.chunk
      claims := out.2
      found := found
      outbox := batch out.1 ⟨stop, stop - r.args.scanStart,
        r.args.scanEnd - r.args.scanStart, found⟩ }
    log := r.log ++ out.1.map (stop, ·) }

/-- `scan` returns. -/
def scanDone (r : CarveRun) (interrupted : Bool) : CarveRun :=
  { r with thread := { r.thread with
      outcome := some ⟨min r.thread.pos r.args.scanEnd, r.thread.found, interrupted⟩ } }

/-- The writer gives up. -/
def fail (r : CarveRun) : CarveRun := { r with failed := true, channel := [] }

/-- The row of a checkpoint. -/
def row (r : CarveRun) : ProgressRow := ⟨r.cur, false, r.args.opts.blockSize⟩

/-- The row at the end. -/
def lastRow (r : CarveRun) (o : ScanOutcome) : ProgressRow where
  cursor := o.cursor
  scanned := min r.cur.total (max r.cur.scanned o.cursor)
  total := r.cur.total
  found := o.found
  complete := !o.interrupted
  blockSize := r.args.opts.blockSize

end CarveRun

variable (w : CarveWorld) (r : CarveRun)

/-- The scan thread does the next chunk or returns. -/
def stepScan (seen : Bool) (answer : ℕ → Reader) : Option CarveWorld :=
  if r.thread.outcome.isSome ∨ r.thread.outbox ≠ [] ∨ seen = true ∧ w.cancel = false then none
  else if r.args.scanEnd ≤ r.thread.pos then some { w with phase := .running (r.scanDone false) }
  else if seen then some { w with phase := .running (r.scanDone true) }
  else some { w with phase := .running (r.scanNext E answer) }

/-- The scan thread sends a message, if there is room; without a receiver it is lost. -/
def stepSend : Option CarveWorld :=
  match r.thread.outbox with
  | [] => none
  | m :: rest =>
    let sent := { r.thread with outbox := rest }
    if r.failed then some { w with phase := .running { r with thread := sent } }
    else if r.channel.length < carveBatch * 4 then
      some { w with phase := .running { r with thread := sent, channel := r.channel ++ [m] } }
    else none

/-- The writer fails: it cancels the scan and drops the receiver. -/
def writerFailed (db : Database) : CarveWorld := ⟨db, true, .running r.fail⟩

/-- The writer saves the cursor. -/
def stepCheckpoint (ans : DbAnswer) : CarveWorld :=
  match saveProgress B sourceId ans w.db r.pending r.row r.log with
  | (db, false) => writerFailed r db
  | (db, true) =>
    { w with
      db := db
      phase := .running { r with pending := [], lastCkptScanned := r.cur.scanned } }

/-- The writer receives a message. -/
def stepRecv (due : Bool) (ans : DbAnswer) : Option CarveWorld :=
  if r.failed then none
  else match r.channel with
    | [] => none
    | .item cf :: rest =>
      let r := { r with channel := rest, pending := r.pending ++ [cf] }
      if r.pending.length < carveBatch then some { w with phase := .running r }
      else match flush B sourceId ans.flushed w.db r.pending with
        | none => some (writerFailed r w.db)
        | some db => some { w with db := db, phase := .running { r with pending := [] } }
    | .mark p :: rest =>
      let r := { r with channel := rest, cur := p }
      if due ∨ oneGib ≤ p.scanned - r.lastCkptScanned then
        some (stepCheckpoint B sourceId w r ans)
      else some { w with phase := .running r }

/-- The scan has returned and the channel is empty. -/
def stepFinish (vanished : Bool) (ans : DbAnswer) : Option CarveWorld :=
  if r.failed ∨ r.channel ≠ [] then none
  else r.thread.outcome.map fun o =>
    match saveProgress B sourceId ans w.db r.pending (r.lastRow o) r.log with
    | (db, false) => { w with db := db, phase := .returned none }
    | (db, true) =>
      { w with
        db := db
        phase := .returned
          (some ⟨o.found, o.interrupted, r.args.opts.blockSize, !o.interrupted, vanished⟩) }

/-- What an action does, if it can happen. -/
def carveStep (w : CarveWorld) (act : CarveAct) : Option CarveWorld :=
  match act, w.phase with
  | .start _ _ _ _, .running _ => none
  | .start a resume cancelled answer, _ =>
    some { w with cancel := cancelled, phase := startPhase E w.db.now a resume answer }
  | .cancel, _ => some { w with cancel := true }
  | .scan seen answer, .running r => stepScan E w r seen answer
  | .send, .running r => stepSend w r
  | .poll vanished, .running r =>
    if r.failed then none else some { w with cancel := w.cancel || vanished }
  | .recv due ans, .running r => stepRecv B sourceId w r due ans
  | .timeout due ans, .running r =>
    if r.failed ∨ r.channel ≠ [] then none
    else some (if due then stepCheckpoint B sourceId w r ans else w)
  | .finish vanished ans, .running r => stepFinish B sourceId w r vanished ans
  | .join, .running r =>
    if r.failed ∧ r.thread.outcome.isSome then some { w with phase := .returned none } else none
  | .crash k, _ => (w.db.rollback k).map fun db => { w with db := db, phase := .idle }
  | _, _ => none

/-- A session that nothing has been carved in. -/
def CarveWorld.fresh (t : Rows) : CarveWorld := ⟨⟨⟨t, none, []⟩, []⟩, false, .idle⟩

/-- Carve scans in a session whose table holds `t` before. -/
def carveSystem (t : Rows) : System CarveWorld CarveAct where
  init w := w = .fresh t
  step := carveStep E B sourceId

/-! ### What an action does to a run under way -/

variable {E B sourceId w r}

section Running

variable (hphase : w.phase = .running r)

include hphase

lemma carveStep_scan (seen : Bool) (answer : ℕ → Reader) :
    carveStep E B sourceId w (.scan seen answer) = stepScan E w r seen answer := by
  cases w
  cases hphase
  rfl

lemma carveStep_send : carveStep E B sourceId w .send = stepSend w r := by
  cases w
  cases hphase
  rfl

lemma carveStep_recv (due : Bool) (ans : DbAnswer) :
    carveStep E B sourceId w (.recv due ans) = stepRecv B sourceId w r due ans := by
  cases w
  cases hphase
  rfl

lemma carveStep_finish (vanished : Bool) (ans : DbAnswer) :
    carveStep E B sourceId w (.finish vanished ans) = stepFinish B sourceId w r vanished ans := by
  cases w
  cases hphase
  rfl

lemma carveStep_join : carveStep E B sourceId w .join =
    if r.failed ∧ r.thread.outcome.isSome then some { w with phase := .returned none }
    else none := by
  cases w
  cases hphase
  rfl

lemma carveStep_timeout (due : Bool) (ans : DbAnswer) :
    carveStep E B sourceId w (.timeout due ans) =
      if r.failed ∨ r.channel ≠ [] then none
      else some (if due then stepCheckpoint B sourceId w r ans else w) := by
  cases w
  cases hphase
  rfl

end Running

end Step

/-! ## Two small sources -/

namespace LetterFiles

/-- Files that begin with two letters and end with the next `Z`. -/
def sig (id : String) (letter : UInt8) : SigDef where
  id := id
  family := "doc"
  extensions := ["let"]
  headers := [.exact 0 [letter, letter]]
  footer := some ⟨[90], 64⟩
  minSize := 0
  strategy := .footer
  validator := none
  blockAligned := false
  footerAnchored := false

/-- An engine that knows two such kinds and reads four bytes at a time. -/
def engine : CarveEngine where
  automaton := .naive
  sigs := [sig "doc.a" 65, sig "doc.b" 66]
  validate _ := none
  looksLikeText _ := false
  chunk := 4
  chunk_pos := Nat.succ_pos 3

/-- A scan of the first `len` bytes. -/
def args (len : ℕ) : ScanArgs :=
  ⟨len, 1, { CarveEngine.defaultOptions with bruteForce := true, blockSize := 1 }⟩

/-- One file behind the other. -/
def apart : FileBytes.Bytes := [65, 65, 1, 90, 66, 66, 1, 90]

/-- One file in the other. -/
def nested : FileBytes.Bytes := [65, 65, 1, 1, 66, 66, 1, 90]

/-- A session with an empty table. -/
def session : System CarveWorld CarveAct := carveSystem engine .plain "source" .empty

/-- Start, or resume. -/
def start (data : FileBytes.Bytes) : CarveAct := .start (args 8) true false fun _ => memReader data

/-- The first chunk is scanned and its cursor is stored, before the process dies. -/
def firstChunk (data : FileBytes.Bytes) : List CarveAct :=
  [.scan false fun _ => memReader data, .send, .send, .recv false ⟨true, true⟩,
    .recv true ⟨true, true⟩, .crash 0]

/-- The second chunk, and the end. -/
def secondChunk (data : FileBytes.Bytes) : List CarveAct :=
  [.scan false fun _ => memReader data, .send, .send, .recv false ⟨true, true⟩,
    .recv false ⟨true, true⟩, .scan false fun _ => memReader data, .finish false ⟨true, true⟩]

/-- A scan in two runs. -/
def twoRuns (data : FileBytes.Bytes) : List CarveAct :=
  start data :: firstChunk data ++ start data :: secondChunk data

end LetterFiles

end Reclaim
