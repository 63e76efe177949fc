import Mathlib.Logic.Relation
import Reclaim.Foundation.LittleEndian
import Reclaim.Fs.FreeSpace
import Reclaim.Fs.Extents

/-!
# Walking a volume

An engine walks the structures of a volume and hands entries to a sink, counting them as it does.
The options say which states are asked for and how many entries there may be at most.

No engine looks back at what it has emitted but at the number.  So a walk is a path of emissions,
and if each of them may happen where it happens, the walk keeps to its options.
-/

namespace Reclaim

open FileBytes

/-! ## The volume -/

/-- A volume: its bytes, of which `len` are there. -/
structure Volume where
  len : ℕ
  content : ℕ → UInt8

namespace Volume

/-- A byte of the volume, zero behind its end. -/
def byte (v : Volume) (x : ℕ) : UInt8 := if x < v.len then v.content x else 0

/-- `read` of the engines: `n` bytes, zeros where the volume has none. -/
def read (v : Volume) (off n : ℕ) : Bytes := (List.range n).map fun k => v.byte (off + k)

/-- The volume with the given bytes. -/
def ofBytes (b : Bytes) : Volume := ⟨b.length, byteAt b⟩

@[simp] lemma length_read (v : Volume) (off n : ℕ) : (v.read off n).length = n := by simp [read]

/-- A volume reads as the bytes it was made of. -/
lemma read_ofBytes (b : Bytes) : (ofBytes b).read 0 b.length = b := by
  apply ext_byteAt (length_read ..)
  intro x hx
  rw [length_read] at hx
  simp [read, byteAt, List.getD_eq_getElem?_getD, hx, ofBytes, byte]

lemma byteAt_read (v : Volume) (off : ℕ) {n k : ℕ} (hk : k < n) :
    byteAt (v.read off n) k = v.byte (off + k) := by
  simp [read, byteAt, List.getD_eq_getElem?_getD, hk]

/-- What stands between two parts of a volume is read behind the first. -/
lemma read_ofBytes_append (front mid back : Bytes) :
    (ofBytes (front ++ mid ++ back)).read front.length mid.length = mid := by
  apply ext_byteAt (length_read ..)
  intro x hx
  rw [length_read] at hx
  rw [byteAt_read _ _ hx, byte, ofBytes]
  dsimp only
  rw [if_pos (by simp only [List.length_append]; omega), List.append_assoc, byteAt_append,
    if_neg (by omega), Nat.add_sub_cancel_left, byteAt_append, if_pos hx]

end Volume

/-! ## Options and statistics -/

/-- Options of a walk. -/
structure WalkOpts where
  includeLive : Bool
  includeDeleted : Bool
  /-- Hard cap on entries emitted. -/
  maxEntries : ℕ
  /-- Include the sealed system volume of an APFS container. -/
  includeSystemVolume : Bool

/-- The options ask for entries of a state. -/
def WalkOpts.includes (opts : WalkOpts) : EntryState → Bool
  | .live => opts.includeLive
  | .deleted | .orphaned | .historical => opts.includeDeleted

/-- Statistics of a walk. -/
structure WalkStats where
  emitted : ℕ
  live : ℕ
  deleted : ℕ
  deriving DecidableEq, Repr

/-- The statistics that a list of entries has. -/
def WalkStats.of (es : List Entry) : WalkStats where
  emitted := es.length
  live := es.countP fun e => decide (e.state = .live)
  deleted := es.countP fun e => decide (e.state ≠ .live)

/-- What a walk has come to: its statistics, and what the sink was given. -/
structure Walked where
  stats : WalkStats
  sink : List Entry

namespace Walked

/-- `WalkStats::default()`, and nothing emitted. -/
def start : Walked := ⟨⟨0, 0, 0⟩, []⟩

/-- `emit`: an entry counted by its state and given to the sink. -/
def emit (w : Walked) (e : Entry) : Walked where
  stats :=
    { emitted := w.stats.emitted + 1
      live := if e.state = .live then w.stats.live + 1 else w.stats.live
      deleted := if e.state = .live then w.stats.deleted else w.stats.deleted + 1 }
  sink := w.sink ++ [e]

/-- The entries of a list, one after the other. -/
def emitAll (w : Walked) (es : List Entry) : Walked := es.foldl emit w

@[simp] lemma emit_emitted (w : Walked) (e : Entry) :
    (w.emit e).stats.emitted = w.stats.emitted + 1 := rfl

@[simp] lemma emit_sink (w : Walked) (e : Entry) : (w.emit e).sink = w.sink ++ [e] := rfl

@[simp] lemma emitAll_nil (w : Walked) : w.emitAll [] = w := rfl

@[simp] lemma emitAll_cons (w : Walked) (e : Entry) (es : List Entry) :
    w.emitAll (e :: es) = (w.emit e).emitAll es := rfl

@[simp] lemma emitAll_sink (w : Walked) (es : List Entry) :
    (w.emitAll es).sink = w.sink ++ es := by
  induction es generalizing w with
  | nil => exact (List.append_nil _).symm
  | cons e es ih => rw [emitAll_cons, ih, emit_sink, List.append_assoc, List.singleton_append]

/-- An entry takes one place of those that are left. -/
lemma emit_take (w : Walked) (e : Entry) (es : List Entry) {n : ℕ} (hroom : w.stats.emitted < n) :
    (w.emit e).sink ++ es.take (n - (w.emit e).stats.emitted) =
      w.sink ++ (e :: es).take (n - w.stats.emitted) := by
  obtain ⟨k, rfl⟩ := Nat.exists_eq_add_of_lt hroom
  have hleft : w.stats.emitted + k + 1 - w.stats.emitted = k + 1 := by omega
  have hnext : w.stats.emitted + k + 1 - (w.emit e).stats.emitted = k := by
    rw [emit_emitted]
    omega
  rw [hleft, hnext, List.take_succ_cons, emit_sink, List.append_assoc, List.singleton_append]

/-- The statistics are those of the entries in the sink. -/
def Counted (w : Walked) : Prop := w.stats = WalkStats.of w.sink

lemma counted_start : Counted start := rfl

lemma Counted.emit {w : Walked} (h : w.Counted) (e : Entry) : (w.emit e).Counted := by
  unfold Counted Walked.emit WalkStats.of at *
  rw [h]
  by_cases hlive : e.state = .live
  · simp [hlive]
  · simp [hlive]

lemma Counted.emitAll {w : Walked} (h : w.Counted) (es : List Entry) : (w.emitAll es).Counted := by
  induction es generalizing w with
  | nil => exact h
  | cons e es ih => exact ih (h.emit e)

lemma Counted.emitted {w : Walked} (h : w.Counted) : w.stats.emitted = w.sink.length := by
  rw [h]
  rfl

/-- A walk keeps to its options: there are not too many entries, all of states that are asked for,
and the statistics count them. -/
structure Limited (opts : WalkOpts) (w : Walked) : Prop where
  bounded : w.sink.length ≤ opts.maxEntries
  asked : ∀ e ∈ w.sink, opts.includes e.state = true
  counted : w.Counted

end Walked

/-! ## Walks as paths of emissions -/

/-- An entry may be emitted: there is room for it, and its state is asked for. -/
def MayEmit (opts : WalkOpts) (w : Walked) (e : Entry) : Prop :=
  w.stats.emitted < opts.maxEntries ∧ opts.includes e.state = true

/-- One walk goes on to another by emissions that may happen. -/
def Emits (may : Walked → Entry → Prop) : Walked → Walked → Prop :=
  Relation.ReflTransGen fun w w' => ∃ e, may w e ∧ w' = w.emit e

namespace Emits

variable {may : Walked → Entry → Prop} {w w' : Walked}

lemma refl (w : Walked) : Emits may w w := Relation.ReflTransGen.refl

lemma trans {w'' : Walked} (h : Emits may w w') (h' : Emits may w' w'') : Emits may w w'' :=
  Relation.ReflTransGen.trans h h'

lemma emit {e : Entry} (h : may w e) : Emits may w (w.emit e) :=
  Relation.ReflTransGen.single ⟨e, h, rfl⟩

lemma mono {may' : Walked → Entry → Prop} (hm : ∀ w e, may w e → may' w e)
    (h : Emits may w w') : Emits may' w w' :=
  Relation.ReflTransGen.mono (fun a _ ⟨e, he, hab⟩ => ⟨e, hm a e he, hab⟩) w w' h

/-- A loop emits if each of its rounds does. -/
lemma foldl {σ ι : Type} {f : σ → ι → σ} (walked : σ → Walked) (l : List ι)
    (h : ∀ s, ∀ i ∈ l, Emits may (walked s) (walked (f s i))) (s : σ) :
    Emits may (walked s) (walked (l.foldl f s)) := by
  induction l generalizing s with
  | nil => exact refl _
  | cons i l ih =>
    have hstep := h s i List.mem_cons_self
    exact hstep.trans (ih (fun t j hj => h t j (List.mem_cons_of_mem i hj)) (f s i))

/-- What one emission keeps, all keep. -/
lemma invariant (P : Walked → Prop) (hP : ∀ w e, P w → may w e → P (w.emit e))
    (h : Emits may w w') (hw : P w) : P w' := by
  induction h with
  | refl => exact hw
  | tail _ hstep ih =>
    obtain ⟨e, he, rfl⟩ := hstep
    exact hP _ e ih he

lemma counted (h : Emits may w w') (hw : w.Counted) : w'.Counted :=
  h.invariant Walked.Counted (fun _ e hc _ => hc.emit e) hw

/-- What has been emitted stays. -/
lemma kept (h : Emits may w w') : w.sink <+: w'.sink :=
  h.invariant (w.sink <+: ·.sink) (fun _ e hv _ => hv.trans ⟨[e], rfl⟩) (List.prefix_refl _)

lemma emitted_le (h : Emits may w w') : w.stats.emitted ≤ w'.stats.emitted :=
  h.invariant (w.stats.emitted ≤ ·.stats.emitted) (fun _ _ hv _ => Nat.le_succ_of_le hv) le_rfl

end Emits

/-- A walk of which every emission may happen keeps to its options. -/
lemma limited_of_emits {opts : WalkOpts} {w w' : Walked} (h : Emits (MayEmit opts) w w')
    (hw : w.Limited opts) : w'.Limited opts := by
  refine h.invariant (Walked.Limited opts) (fun w e hl hmay => ⟨?_, ?_, hl.counted.emit e⟩) hw
  · have hroom := hmay.1
    rw [hl.counted.emitted] at hroom
    rw [Walked.emit_sink, List.length_append]
    exact hroom
  · intro e' he'
    rcases List.mem_append.1 he' with hold | hnew
    · exact hl.asked e' hold
    · rw [List.mem_singleton.1 hnew]
      exact hmay.2

/-- Nothing is within all limits. -/
lemma limited_start (opts : WalkOpts) : Walked.start.Limited opts :=
  ⟨Nat.zero_le _, fun _ he => absurd he List.not_mem_nil, Walked.counted_start⟩

end Reclaim
