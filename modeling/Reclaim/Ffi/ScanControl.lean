import Reclaim.Foundation.Transition

/-!
# Starting, pausing and resuming scans on one session directory

Any number of threads call the methods of any number of session handles on one directory.  A handle
has two slots under separate locks: the cancel flag of the pipeline started last, and the join
handle of its thread.  Every step that holds a lock is one action here, so a call is a few actions
with those of other calls in between; a pipeline runs from its spawn until it finishes.

`start_scan` checks nothing, and `resume_scan` checks only whether the join handle in its own
handle's slot belongs to a running thread.  So two pipelines can run at once: from two handles, from
two resumes that both check before either spawns, or after `wait` has taken the join handle.
`serial_safe` says that this is all: if a start, or a resume that passes its check, begins only
while no pipeline runs and no other such call is under way, one pipeline runs at a time and a pause
reaches it.
-/

namespace Reclaim

open Transition

/-- The slots of a session handle, each under a lock of its own. -/
structure Handle where
  /-- The flag stored last; flags and pipelines share their numbers. -/
  cancel : Option ℕ
  /-- The thread whose join handle is stored. -/
  scan : Option ℕ
  deriving DecidableEq

/-- Where a call stands. -/
inductive Call where
  | idle
  /-- `resume_scan` has passed its check and opens the source. -/
  | opening (h : ℕ)
  /-- `spawn_scan` has been entered. -/
  | entered (h : ℕ)
  /-- A new flag is in the handle; the thread is about to be spawned. -/
  | flagged (h id : ℕ)
  /-- The thread has been spawned; its join handle is about to be stored. -/
  | spawned (h id : ℕ)
  /-- `wait` has taken the join handle. -/
  | joining (id : ℕ)
  deriving DecidableEq

/-- A start or resume that has begun and not yet spawned its thread. -/
def Call.starting : Call → Bool
  | .opening _ | .entered _ | .flagged _ _ => true
  | _ => false

/-- The handles on the directory, the pipelines, and the call each thread is in.  Handles not made
yet are empty. -/
structure Directory where
  handles : ℕ → Handle
  nextHandle : ℕ
  /-- The cancel flags. -/
  flag : ℕ → Bool
  /-- The handle a pipeline was started through. -/
  owner : ℕ → ℕ
  running : ℕ → Bool
  nextId : ℕ
  call : ℕ → Call

namespace Directory

/-- A directory that nothing has been done with. -/
def fresh : Directory where
  handles _ := ⟨none, none⟩
  nextHandle := 0
  flag _ := false
  owner _ := 0
  running _ := false
  nextId := 0
  call _ := .idle

/-- `is_scanning`: the thread whose join handle is stored has not finished. -/
def isScanning (d : Directory) (h : ℕ) : Bool :=
  match (d.handles h).scan with
  | some id => d.running id
  | none => false

/-- The thread moves on in its call. -/
def setCall (d : Directory) (t : ℕ) (c : Call) : Directory :=
  { d with call := Function.update d.call t c }

end Directory

/-- What one thread, or one pipeline, may do next. -/
inductive ScanAct where
  | openSession (t : ℕ)
  /-- `start_scan`, after it has opened the source, makes a handle and enters `spawn_scan`. -/
  | startScan (t : ℕ)
  /-- `resume_scan` asks `is_scanning`. -/
  | resumeCheck (t h : ℕ)
  /-- `resume_scan` opens the source. -/
  | openSource (t : ℕ) (ok : Bool)
  /-- `spawn_scan` stores a new flag. -/
  | storeFlag (t : ℕ)
  /-- `spawn_scan` spawns the thread. -/
  | spawn (t : ℕ) (ok : Bool)
  /-- `spawn_scan` stores the join handle. -/
  | storeHandle (t : ℕ)
  /-- `pause` or `stop`. -/
  | signalCancel (t h : ℕ)
  /-- `wait` takes the join handle. -/
  | takeHandle (t h : ℕ)
  /-- `wait` returns, the thread having finished. -/
  | join (t : ℕ)
  | isScanning (t h : ℕ)
  /-- A pipeline finishes. -/
  | finish (id : ℕ)
  deriving DecidableEq

/-- What an action does, if the thread is there. -/
def scanStep (d : Directory) : ScanAct → Option Directory
  | .openSession t =>
    if d.call t = .idle then some { d with nextHandle := d.nextHandle + 1 } else none
  | .startScan t =>
    if d.call t = .idle then
      some { d.setCall t (.entered d.nextHandle) with nextHandle := d.nextHandle + 1 }
    else none
  | .resumeCheck t h =>
    if d.call t = .idle ∧ h < d.nextHandle then
      some (if d.isScanning h then d else d.setCall t (.opening h))
    else none
  | .openSource t ok =>
    match d.call t with
    | .opening h => some (d.setCall t (if ok then .entered h else .idle))
    | _ => none
  | .storeFlag t =>
    match d.call t with
    | .entered h => some { d.setCall t (.flagged h d.nextId) with
        handles := Function.update d.handles h { d.handles h with cancel := some d.nextId }
        flag := Function.update d.flag d.nextId false
        nextId := d.nextId + 1 }
    | _ => none
  | .spawn t ok =>
    match d.call t with
    | .flagged h id =>
      some (if ok then { d.setCall t (.spawned h id) with
          owner := Function.update d.owner id h
          running := Function.update d.running id true }
        else d.setCall t .idle)
    | _ => none
  | .storeHandle t =>
    match d.call t with
    | .spawned h id => some { d.setCall t .idle with
        handles := Function.update d.handles h { d.handles h with scan := some id } }
    | _ => none
  | .signalCancel t h =>
    if d.call t = .idle ∧ h < d.nextHandle then
      match (d.handles h).cancel with
      | some id => some { d with flag := Function.update d.flag id true }
      | none => some d
    else none
  | .takeHandle t h =>
    if d.call t = .idle ∧ h < d.nextHandle then
      match (d.handles h).scan with
      | some id => some { d.setCall t (.joining id) with
          handles := Function.update d.handles h { d.handles h with scan := none } }
      | none => some d
    else none
  | .join t =>
    match d.call t with
    | .joining id => if d.running id then none else some (d.setCall t .idle)
    | _ => none
  | .isScanning t h => if d.call t = .idle ∧ h < d.nextHandle then some d else none
  | .finish id =>
    if d.running id then some { d with running := Function.update d.running id false } else none

/-- The calls on one directory. -/
def scanSystem : System Directory ScanAct where
  init d := d = Directory.fresh
  step := scanStep

/-! ## One start at a time -/

namespace Directory

/-- No pipeline runs and no start or resume is under way. -/
def Quiet (d : Directory) : Prop :=
  (∀ p, d.running p = false) ∧ ∀ t, (d.call t).starting = false

/-- A start, or a resume that passes its check, begins in quiet. -/
def Serial (d : Directory) : ScanAct → Prop
  | .startScan _ => d.Quiet
  | .resumeCheck _ h => d.isScanning h = false → d.Quiet
  | _ => True

/-- At most one pipeline runs. -/
def Single (d : Directory) : Prop := ∀ p q, d.running p = true → d.running q = true → p = q

/-- A pause or stop made now sets the flag of every pipeline running through its handle. -/
def PauseReaches (d : Directory) : Prop :=
  ∀ t h d', scanStep d (.signalCancel t h) = some d' →
    ∀ p, d.running p = true → d.owner p = h → d'.flag p = true

/-- What serial starts keep. -/
structure Orderly (d : Directory) : Prop where
  /-- One call at most is about to spawn. -/
  starter : ∀ t u, (d.call t).starting = true → (d.call u).starting = true → t = u
  /-- Nothing runs while one is. -/
  waits : ∀ t, (d.call t).starting = true → ∀ p, d.running p = false
  single : d.Single
  /-- The flag of a call about to spawn is the one in its handle. -/
  flagged : ∀ t h id, d.call t = .flagged h id → (d.handles h).cancel = some id
  /-- The flag of a running pipeline is the one in its handle. -/
  owned : ∀ p, d.running p = true → (d.handles (d.owner p)).cancel = some p

variable {d d' : Directory}

@[simp] lemma call_setCall (t u : ℕ) (c : Call) :
    (d.setCall t c).call u = if u = t then c else d.call u := by
  simp [setCall, Function.update_apply]

@[simp] lemma running_setCall (t : ℕ) (c : Call) : (d.setCall t c).running = d.running := rfl
@[simp] lemma handles_setCall (t : ℕ) (c : Call) : (d.setCall t c).handles = d.handles := rfl
@[simp] lemma owner_setCall (t : ℕ) (c : Call) : (d.setCall t c).owner = d.owner := rfl

/-- Orderliness says nothing of which join handles are stored, nor of the flags' values. -/
lemma Orderly.congr (hi : d.Orderly) (hcall : d'.call = d.call) (hrun : d'.running = d.running)
    (hown : d'.owner = d.owner) (hcancel : ∀ h, (d'.handles h).cancel = (d.handles h).cancel) :
    d'.Orderly where
  starter t u := by
    rw [hcall]
    exact hi.starter t u
  waits t := by
    rw [hcall, hrun]
    exact hi.waits t
  single p q := by
    rw [hrun]
    exact hi.single p q
  flagged t h id := by
    rw [hcall, hcancel]
    exact hi.flagged t h id
  owned p := by
    rw [hrun, hown, hcancel]
    exact hi.owned p

/-- A thread that leaves its call, or moves on without being about to spawn, keeps order. -/
lemma Orderly.leave (hi : d.Orderly) {t : ℕ} {c : Call} (hc : c.starting = false) :
    (d.setCall t c).Orderly where
  starter u v hu hv := by
    simp only [call_setCall] at hu hv
    split_ifs at hu hv with h₁ h₂ h₂
    · exact h₁.trans h₂.symm
    · exact absurd hu (by simp [hc])
    · exact absurd hv (by simp [hc])
    · exact hi.starter u v hu hv
  waits u hu := by
    simp only [call_setCall] at hu
    split_ifs at hu with h₁
    · exact absurd hu (by simp [hc])
    · exact hi.waits u hu
  single := hi.single
  flagged u h id hu := by
    simp only [call_setCall] at hu
    split_ifs at hu with h₁
    · exact absurd hc (by simp [hu, Call.starting])
    · exact hi.flagged u h id hu
  owned := hi.owned

/-- A call that begins in quiet, or goes on as the one that began, keeps order. -/
lemma Orderly.enter (hi : d.Orderly) {t : ℕ} {c : Call} (hrun : ∀ p, d.running p = false)
    (hothers : ∀ u, (d.call u).starting = true → u = t)
    (hflag : ∀ h id, c = .flagged h id → (d.handles h).cancel = some id) :
    (d.setCall t c).Orderly where
  starter u v hu hv := by
    have honly : ∀ w, ((d.setCall t c).call w).starting = true → w = t := by
      intro w hw
      rw [call_setCall] at hw
      split_ifs at hw with h₁
      · exact h₁
      · exact hothers w hw
    exact (honly u hu).trans (honly v hv).symm
  waits _ _ p := hrun p
  single := hi.single
  flagged u h id hu := by
    simp only [call_setCall] at hu
    split_ifs at hu with h₁
    · exact hflag h id hu
    · exact hi.flagged u h id hu
  owned := hi.owned

lemma Orderly.others (hi : d.Orderly) {t : ℕ} (ht : (d.call t).starting = true) :
    ∀ u, (d.call u).starting = true → u = t := fun u hu => hi.starter u t hu ht

/-- A new flag for a call that has entered `spawn_scan`. -/
lemma Orderly.storeFlag (hi : d.Orderly) {t h : ℕ} (ht : d.call t = .entered h) {f : ℕ → Bool} :
    Orderly { d.setCall t (.flagged h d.nextId) with
      handles := Function.update d.handles h { d.handles h with cancel := some d.nextId }
      flag := f
      nextId := d.nextId + 1 } := by
  have hstart : (d.call t).starting = true := by rw [ht]; rfl
  have hrun := hi.waits t hstart
  refine ⟨fun u v hu hv => ?_, fun _ _ p => hrun p, hi.single, fun u h' id hu => ?_,
    fun p hp => absurd hp (by simp [hrun p])⟩
  · have honly : ∀ w, ((d.setCall t (.flagged h d.nextId)).call w).starting = true → w = t := by
      intro w hw
      rw [call_setCall] at hw
      split_ifs at hw with h₁
      · exact h₁
      · exact hi.others hstart w hw
    exact (honly u hu).trans (honly v hv).symm
  · change (d.setCall t (.flagged h d.nextId)).call u = _ at hu
    rw [call_setCall] at hu
    split_ifs at hu with h₁
    · injection hu with hh hid
      subst hh hid
      simp
    · have hu' : (d.call u).starting = true := by rw [hu]; rfl
      exact absurd (hi.others hstart u hu') h₁

/-- The thread of a call that is about to spawn starts. -/
lemma Orderly.spawn (hi : d.Orderly) {t h id : ℕ} (ht : d.call t = .flagged h id) :
    Orderly { d.setCall t (.spawned h id) with
      owner := Function.update d.owner id h
      running := Function.update d.running id true } := by
  have hstart : (d.call t).starting = true := by rw [ht]; rfl
  have hrun := hi.waits t hstart
  have hnone : ∀ u, ((d.setCall t (.spawned h id)).call u).starting = false := by
    intro u
    rw [call_setCall]
    split_ifs with h₁
    · rfl
    · by_contra hu
      exact h₁ (hi.others hstart u (by simpa using hu))
  have honly : ∀ p, Function.update d.running id true p = true → p = id := by
    intro p hp
    rw [Function.update_apply] at hp
    split_ifs at hp with h₁
    · exact h₁
    · exact absurd hp (by simp [hrun p])
  refine ⟨fun u _ hu => absurd ((hnone u).symm.trans hu) Bool.false_ne_true,
    fun u hu => absurd ((hnone u).symm.trans hu) Bool.false_ne_true,
    fun p q hp hq => (honly p hp).trans (honly q hq).symm, fun u h' id' hu => ?_, fun p hp => ?_⟩
  · have hcall := hnone u
    change (d.setCall t (.spawned h id)).call u = _ at hu
    rw [hu] at hcall
    cases hcall
  · rw [honly p hp]
    simpa using hi.flagged t h id ht

lemma Orderly.finish (hi : d.Orderly) (id : ℕ) :
    Orderly { d with running := Function.update d.running id false } := by
  have hsub : ∀ p, Function.update d.running id false p = true → d.running p = true := by
    intro p hp
    rw [Function.update_apply] at hp
    split_ifs at hp
    exact hp
  refine ⟨hi.starter, fun t ht p => ?_, fun p q hp hq => hi.single p q (hsub p hp) (hsub q hq),
    hi.flagged, fun p hp => hi.owned p (hsub p hp)⟩
  by_contra hp
  exact absurd (hsub p (by simpa using hp)) (by simp [hi.waits t ht p])

/-- **Serial steps keep order.** -/
lemma Orderly.step (hi : d.Orderly) {a : ScanAct} (ha : d.Serial a) (hs : scanStep d a = some d') :
    d'.Orderly := by
  cases a with
  | openSession t =>
    simp only [scanStep] at hs
    split at hs <;> cases hs
    exact hi.congr rfl rfl rfl fun _ => rfl
  | startScan t =>
    simp only [scanStep] at hs
    split at hs <;> cases hs
    obtain ⟨hrun, hcalls⟩ := ha
    have hent := hi.enter (t := t) (c := .entered d.nextHandle) hrun
      (fun u hu => absurd hu (by simp [hcalls u])) (fun _ _ h => by cases h)
    exact hent.congr rfl rfl rfl fun _ => rfl
  | resumeCheck t h =>
    simp only [scanStep] at hs
    split at hs <;> cases hs
    split
    · exact hi
    · rename_i hnot
      obtain ⟨hrun, hcalls⟩ := ha (by simpa using hnot)
      exact hi.enter hrun (fun u hu => absurd hu (by simp [hcalls u])) fun _ _ h => by cases h
  | openSource t ok =>
    simp only [scanStep] at hs
    split at hs <;> cases hs
    rename_i h ht
    have hstart : (d.call t).starting = true := by rw [ht]; rfl
    cases ok with
    | true => exact hi.enter (hi.waits t hstart) (hi.others hstart) fun _ _ h => by cases h
    | false => exact hi.leave rfl
  | storeFlag t =>
    simp only [scanStep] at hs
    split at hs <;> cases hs
    rename_i h ht
    exact hi.storeFlag ht
  | spawn t ok =>
    simp only [scanStep] at hs
    split at hs <;> cases hs
    rename_i h id ht
    cases ok with
    | true => exact hi.spawn ht
    | false => exact hi.leave rfl
  | storeHandle t =>
    simp only [scanStep] at hs
    split at hs <;> cases hs
    rename_i h id ht
    have hl := hi.leave (t := t) (c := .idle) rfl
    refine hl.congr rfl rfl rfl fun h' => ?_
    by_cases hh : h' = h
    · subst hh
      simp
    · simp [hh]
  | signalCancel t h =>
    simp only [scanStep] at hs
    split at hs
    · split at hs <;> cases hs
      · exact hi.congr rfl rfl rfl fun _ => rfl
      · exact hi
    · cases hs
  | takeHandle t h =>
    simp only [scanStep] at hs
    split at hs
    · split at hs <;> cases hs
      · rename_i id _
        have hl := hi.leave (t := t) (c := .joining id) rfl
        refine hl.congr rfl rfl rfl fun h' => ?_
        by_cases hh : h' = h
        · subst hh
          simp
        · simp [hh]
      · exact hi
    · cases hs
  | join t =>
    simp only [scanStep] at hs
    split at hs
    · split at hs <;> cases hs
      exact hi.leave rfl
    · cases hs
  | isScanning t h =>
    simp only [scanStep] at hs
    split at hs <;> cases hs
    exact hi
  | finish id =>
    simp only [scanStep] at hs
    split at hs <;> cases hs
    exact hi.finish id

lemma orderly_fresh : fresh.Orderly where
  starter t u h := by cases h
  waits t h := by cases h
  single p q h := by cases h
  flagged t h id hc := by cases hc
  owned p h := by cases h

/-- In order, a pause sets the flag of the pipeline that runs through its handle. -/
lemma Orderly.pauseReaches (hi : d.Orderly) : d.PauseReaches := by
  intro t h d' hs p hp hown
  have hcancel := hi.owned p hp
  simp only [scanStep] at hs
  split at hs
  · rw [hown] at hcancel
    rw [hcancel] at hs
    cases hs
    simp
  · cases hs

end Directory

/-- **One scan at a time.**  In every run in which a start, or a resume that passes its check,
begins only while no pipeline runs on the directory and no other start or resume is under way, at
most one pipeline runs at any time, and a pause or stop sets the flag of the pipeline that runs
through its handle. -/
theorem serial_safe (d : Directory) (h : Reaches scanSystem Directory.Serial d) :
    d.Single ∧ d.PauseReaches := by
  have hi : d.Orderly := by
    apply h.invariant
    · intro s hs
      rw [show s = Directory.fresh from hs]
      exact Directory.orderly_fresh
    · intro s a t hs ha hstep
      exact hs.step ha hstep
  exact ⟨hi.single, hi.pauseReaches⟩

/-- A directory on which the scan started first is running. -/
def startedOnce : Directory where
  handles := Function.update (fun _ => ⟨none, none⟩) 0 ⟨some 0, none⟩
  nextHandle := 1
  flag := Function.update (fun _ => false) 0 false
  owner := Function.update (fun _ => 0) 0 0
  running := Function.update (fun _ => false) 0 true
  nextId := 1
  call := Function.update (Function.update (Function.update (fun _ => .idle) 0 (.entered 0)) 0
    (.flagged 0 0)) 0 (.spawned 0 0)

/-- One start, up to its spawn, is a serial run. -/
theorem startedOnce_safe : startedOnce.Single ∧ startedOnce.PauseReaches := by
  apply serial_safe
  have hinit : Reaches scanSystem Directory.Serial Directory.fresh := .init rfl
  have hstart := Reaches.step (ScanAct.startScan 0) hinit ⟨fun _ => rfl, fun _ => rfl⟩ rfl
  have hflag := Reaches.step (ScanAct.storeFlag 0) hstart trivial rfl
  exact Reaches.step (ScanAct.spawn 0 true) hflag trivial rfl

/-- Two threads that each start a scan on the directory have two pipelines running. -/
theorem twoStarts_counterexample :
    ¬ ∀ d, Reaches scanSystem (fun _ _ => True) d → d.Single ∧ d.PauseReaches := by
  intro h
  have hinit : Reaches scanSystem (fun _ _ => True) Directory.fresh := .init rfl
  have hrun := hinit.of_runFrom [.startScan 0, .storeFlag 0, .spawn 0 true, .storeHandle 0,
    .startScan 1, .storeFlag 1, .spawn 1 true] rfl
  exact absurd ((h _ hrun).1 0 1 rfl rfl) (by omega)

end Reclaim
