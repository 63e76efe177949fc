import Reclaim.Fs.ExFatDirs

/-!
# Entry sets among damaged ones

The scan of an exFAT directory goes on behind a set by the count in its first entry, also where the
set is deleted or damaged.  `liveSets_exact` says which live sets it comes to: those that are not
reached into by the count of what is before them.
-/

namespace Reclaim
namespace ExFat

open FileBytes

/-! ## Live sets and what is between them -/

/-- A live set lies at `p`: a File entry and a Stream entry in use, and the entries it counts. -/
structure LiveAt (dir : Bytes) (p : ℕ) (s : EntrySet) : Prop where
  file : byteAt dir p = 0x85
  stream : byteAt dir (p + 32) = 0xC0
  read : readSet dir p = some s
  counted : 2 ≤ s.secondary
  inside : s.stop p ≤ dir.length

/-- Live sets, each behind any entries but the end mark. -/
inductive Interleaved (dir : Bytes) : ℕ → List (ℕ × EntrySet) → Prop
  | nil (i : ℕ) : Interleaved dir i []
  | cons {i m : ℕ} {s : EntrySet} {sets : List (ℕ × EntrySet)}
      (gap : ∀ k < m, byteAt dir (i + 32 * k) ≠ 0) (live : LiveAt dir (i + 32 * m) s)
      (behind : Interleaved dir (s.stop (i + 32 * m)) sets) :
      Interleaved dir i ((i + 32 * m, s) :: sets)

/-- A File entry before a Stream entry: a set is read there. -/
def setAt (dir : Bytes) (i : ℕ) : Option EntrySet :=
  if (byteAt dir i).toNat % 128 = 0x05 then readSet dir i else none

/-- The entries from `i` on, up to `p`, are single ones and sets as long as they say. -/
inductive WholeSets (dir : Bytes) (p : ℕ) : ℕ → Prop
  | done : WholeSets dir p p
  | single {i : ℕ} (none : setAt dir i = none) (rest : WholeSets dir p (i + 32)) : WholeSets dir p i
  | set {i : ℕ} {s : EntrySet} (some : setAt dir i = some s) (rest : WholeSets dir p (s.stop i)) :
      WholeSets dir p i

/-- What is before each live set is whole. -/
def GapsWhole (dir : Bytes) : ℕ → List (ℕ × EntrySet) → Prop
  | _, [] => True
  | i, (p, s) :: sets => WholeSets dir p i ∧ GapsWhole dir (s.stop p) sets

/-! ## What the scan comes to -/

variable {dir : Bytes} {fuel i p : ℕ} {s : EntrySet} {sets : List (ℕ × EntrySet)}

lemma lt_stop (i : ℕ) (s : EntrySet) : i + 32 ≤ s.stop i := by
  unfold EntrySet.stop
  omega

lemma setsFrom_single (hi : i + 32 ≤ dir.length) (hmark : byteAt dir i ≠ 0)
    (h : setAt dir i = none) : setsFrom dir (fuel + 1) i = setsFrom dir fuel (i + 32) := by
  unfold setAt at h
  rw [setsFrom, if_pos hi, if_neg hmark]
  split
  · rename_i hfile
    rw [if_pos hfile] at h
    rw [h]
  · rfl

lemma setsFrom_set (hi : i + 32 ≤ dir.length) (hmark : byteAt dir i ≠ 0)
    (h : setAt dir i = some s) :
    setsFrom dir (fuel + 1) i = (i, s) :: setsFrom dir fuel (s.stop i) := by
  unfold setAt at h
  split at h
  · rename_i hfile
    rw [setsFrom, if_pos hi, if_neg hmark, if_pos hfile, h]
    rfl
  · cases h

lemma LiveAt.setAt_eq (h : LiveAt dir p s) : setAt dir p = some s := by
  rw [setAt, h.file]
  exact h.read

lemma LiveAt.mark_ne (h : LiveAt dir p s) : byteAt dir p ≠ 0 := by
  rw [h.file]
  decide

/-- **The scan comes to a set only behind whole ones.** -/
lemma wholeSets_of_mem : ∀ {i}, (p, s) ∈ setsFrom dir fuel i → WholeSets dir p i := by
  induction fuel with
  | zero => exact fun h => absurd h List.not_mem_nil
  | succ fuel ih =>
    intro i h
    by_cases hi : i + 32 ≤ dir.length
    swap
    · rw [setsFrom_nil hi] at h
      exact absurd h List.not_mem_nil
    by_cases hmark : byteAt dir i = 0
    · rw [setsFrom, if_pos hi, if_pos hmark] at h
      exact absurd h List.not_mem_nil
    cases hset : setAt dir i with
    | none =>
      rw [setsFrom_single hi hmark hset] at h
      exact .single hset (ih h)
    | some t =>
      rw [setsFrom_set hi hmark hset] at h
      rcases List.mem_cons.1 h with heq | h
      · obtain ⟨rfl, -⟩ := Prod.mk.inj heq
        exact .done
      · exact .set hset (ih h)

/-- There are enough rounds for what is left of the directory. -/
def Enough (dir : Bytes) (fuel i : ℕ) : Prop := dir.length < i + 32 * fuel

lemma Enough.succ {j : ℕ} (h : Enough dir fuel i) (hi : i + 32 ≤ dir.length) (hj : i + 32 ≤ j) :
    ∃ fuel', fuel = fuel' + 1 ∧ Enough dir fuel' j := by
  unfold Enough at *
  cases fuel with
  | zero => omega
  | succ fuel => exact ⟨fuel, rfl, by omega⟩

lemma WholeSets.le (h : WholeSets dir p i) : i ≤ p := by
  induction h with
  | done => exact le_rfl
  | single _ _ ih => omega
  | set _ _ ih => exact (Nat.le_of_add_right_le (lt_stop _ _)).trans ih

/-- **Behind whole sets the scan comes to what follows them.** -/
lemma WholeSets.exists_setsFrom (h : WholeSets dir p i) :
    ∀ {fuel m}, p = i + 32 * m → p + 32 ≤ dir.length → (∀ k < m, byteAt dir (i + 32 * k) ≠ 0) →
      Enough dir fuel i → ∃ before fuel', setsFrom dir fuel i = before ++ setsFrom dir fuel' p ∧
        Enough dir fuel' p ∧ ∀ q ∈ before, q.1 < p := by
  induction h with
  | done => exact fun _ _ _ henough => ⟨[], _, rfl, henough, fun q hq => absurd hq List.not_mem_nil⟩
  | @single i hnone hrest ih =>
    intro fuel m hp hlen hmarks henough
    have hle := hrest.le
    obtain ⟨m, rfl⟩ := Nat.exists_eq_add_of_lt (by omega : 0 < m)
    obtain ⟨fuel, rfl, hmore⟩ := henough.succ (by omega) (le_refl (i + 32))
    have hgap : ∀ k < m, byteAt dir (i + 32 + 32 * k) ≠ 0 := fun k hk => by
      have h := hmarks (k + 1) (by omega)
      rwa [Nat.mul_succ, ← Nat.add_assoc, Nat.add_right_comm] at h
    obtain ⟨before, fuel', heq, hfuel, hbefore⟩ := ih (by omega) hlen hgap hmore
    have hmark : byteAt dir i ≠ 0 := hmarks 0 (by omega)
    refine ⟨before, fuel', ?_, hfuel, hbefore⟩
    rw [setsFrom_single (by omega) hmark hnone, heq]
  | @set i s hset hrest ih =>
    intro fuel m hp hlen hmarks henough
    have hle := hrest.le
    have hstop := lt_stop i s
    obtain ⟨m, rfl⟩ : ∃ m', m = 1 + max s.secondary 1 + m' := by
      apply Nat.exists_eq_add_of_le
      unfold EntrySet.stop at hle
      omega
    obtain ⟨fuel, rfl, hmore⟩ := henough.succ (by omega) hstop
    have hgap : ∀ k < m, byteAt dir (s.stop i + 32 * k) ≠ 0 := fun k hk => by
      have h := hmarks (1 + max s.secondary 1 + k) (by omega)
      rwa [Nat.mul_add, ← Nat.add_assoc] at h
    obtain ⟨before, fuel', heq, hfuel, hbefore⟩ :=
      ih (by unfold EntrySet.stop; omega) hlen hgap hmore
    have hmark : byteAt dir i ≠ 0 := hmarks 0 (by omega)
    refine ⟨(i, s) :: before, fuel', ?_, hfuel, fun q hq => ?_⟩
    · rw [setsFrom_set (by omega) hmark hset, heq, List.cons_append]
    · rcases List.mem_cons.1 hq with rfl | hq
      · exact (Nat.lt_of_succ_le (by omega)).trans_le hle
      · exact hbefore q hq

lemma Interleaved.le (h : Interleaved dir i sets) : ∀ q ∈ sets, i ≤ q.1 := by
  induction h with
  | nil => exact fun q hq => absurd hq List.not_mem_nil
  | @cons i m s sets _ _ _ ih =>
    intro q hq
    have hstop := lt_stop (i + 32 * m) s
    rcases List.mem_cons.1 hq with rfl | hq
    · exact Nat.le_add_right ..
    · have := ih q hq
      omega

/-- **A live set is come to exactly if what is before it is whole.** -/
lemma mem_setsFrom_iff (h : Interleaved dir i sets) : ∀ {fuel}, Enough dir fuel i →
    ((∀ q ∈ sets, q ∈ setsFrom dir fuel i) ↔ GapsWhole dir i sets) := by
  induction h with
  | nil => exact fun _ => iff_of_true (fun q hq => absurd hq List.not_mem_nil) trivial
  | @cons i m s sets gap live behind ih =>
    intro fuel henough
    have hstop := lt_stop (i + 32 * m) s
    have hlen := live.inside
    rw [List.forall_mem_cons, GapsWhole]
    have hcome : WholeSets dir (i + 32 * m) i → ∃ before fuel',
        setsFrom dir fuel i =
          before ++ (i + 32 * m, s) :: setsFrom dir fuel' (s.stop (i + 32 * m)) ∧
          Enough dir fuel' (s.stop (i + 32 * m)) ∧ ∀ q ∈ before, q.1 < i + 32 * m := by
      intro hwhole
      obtain ⟨before, fuel', heq, hfuel, hbefore⟩ :=
        hwhole.exists_setsFrom rfl (by omega) gap henough
      obtain ⟨fuel', rfl, hmore⟩ := hfuel.succ (by omega) hstop
      rw [setsFrom_set (by omega) live.mark_ne live.setAt_eq] at heq
      exact ⟨before, fuel', heq, hmore, hbefore⟩
    constructor
    · rintro ⟨hmem, hrest⟩
      have hwhole := wholeSets_of_mem hmem
      obtain ⟨before, fuel', heq, hmore, hbefore⟩ := hcome hwhole
      refine ⟨hwhole, (ih hmore).1 fun q hq => ?_⟩
      have hbehind := behind.le q hq
      have hq' := hrest q hq
      rw [heq] at hq'
      rcases List.mem_append.1 hq' with hq' | hq'
      · have := hbefore q hq'
        omega
      rcases List.mem_cons.1 hq' with rfl | hq'
      · exact absurd hbehind (by omega)
      · exact hq'
    · rintro ⟨hwhole, hrest⟩
      obtain ⟨before, fuel', heq, hmore, -⟩ := hcome hwhole
      rw [heq]
      refine ⟨List.mem_append_right _ List.mem_cons_self, fun q hq => ?_⟩
      exact List.mem_append_right _ (List.mem_cons_of_mem _ ((ih hmore).2 hrest q hq))

/-! ## What is emitted -/

variable (fs : ExFat)

/-- The options ask for the entry of a set; that of a directory has a name of its own. -/
def Asked (opts : WalkOpts) (s : EntrySet) : Prop :=
  opts.includes s.state = true ∧ (s.isDir = true → s.name ≠ "" ∧ s.name ≠ "." ∧ s.name ≠ "..")

instance (opts : WalkOpts) (s : EntrySet) : Decidable (Asked opts s) :=
  inferInstanceAs (Decidable (_ ∧ _))

/-- The entries of a directory's sets. -/
def setEntries (opts : WalkOpts) (parent : String) (sets : List (ℕ × EntrySet)) : List Entry :=
  (sets.filter fun p => decide (Asked opts p.2)).map fun p =>
    fs.setEntry p.2 (FatFs.childPath parent p.2.name)

variable {fs} {opts : WalkOpts}

lemma setEntries_cons {parent : String} :
    fs.setEntries opts parent ((i, s) :: sets) =
      if Asked opts s then
        fs.setEntry s (FatFs.childPath parent s.name) :: fs.setEntries opts parent sets
      else fs.setEntries opts parent sets := by
  unfold setEntries
  rw [List.filter_cons]
  split
  · rename_i hasked
    rw [if_pos (of_decide_eq_true hasked), List.map_cons]
  · rename_i hasked
    rw [if_neg fun h => hasked (decide_eq_true h)]

/-- **The sets that a scan comes to are emitted as entries** until there are as many as there may
be. -/
lemma sink_scanDir_eq (bitmap : Option Bitmap) (dir : Bytes) (parent : String) (fuel : ℕ) :
    ∀ (i : ℕ) (subdirs : List (ℕ × String)) (w : Walked),
      (fs.scanDir opts bitmap dir parent fuel i subdirs w).1.sink =
        w.sink ++ (fs.setEntries opts parent (setsFrom dir fuel i)).take
          (opts.maxEntries - w.stats.emitted) := by
  have hnone : ∀ w : Walked, w.sink = w.sink ++
      (fs.setEntries opts parent []).take (opts.maxEntries - w.stats.emitted) := fun w =>
    ((congrArg (w.sink ++ ·) List.take_nil).trans (List.append_nil _)).symm
  induction fuel with
  | zero => exact fun _ _ w => hnone w
  | succ fuel ih =>
    intro i subdirs w
    rw [scanDir, setsFrom]
    split
    swap
    · exact hnone w
    split
    · rename_i hfull
      rw [Nat.sub_eq_zero_of_le hfull, List.take_zero, List.append_nil]
    rename_i hroom
    split
    · exact hnone w
    split
    swap
    · exact ih _ _ w
    cases readSet dir i with
    | none => exact ih _ _ w
    | some s =>
      refine (ih _ _ _).trans ?_
      dsimp only
      rw [setEntries_cons]
      by_cases hasked : Asked opts s
      · have hemit : ∀ path, fs.emitSet opts s path w = w.emit (fs.setEntry s path) := fun _ =>
          if_pos hasked
        rw [if_pos hasked, hemit, ← w.emit_take _ _ (not_le.1 hroom)]
      · have hemit : ∀ path, fs.emitSet opts s path w = w := fun _ => if_neg hasked
        rw [if_neg hasked, hemit]

/-- **Live sets among damaged ones.**  The entries emitted of a directory are those of the sets that
the scan comes to; and it comes to every live set exactly if the deleted and damaged sets between
them are as long as their counts say. -/
theorem interleaved_exact (fs : ExFat) (opts : WalkOpts) (bitmap : Option Bitmap) (dir : Bytes)
    (parent : String) (subdirs : List (ℕ × String)) (w : Walked) (sets : List (ℕ × EntrySet)) :
    (fs.scanDir opts bitmap dir parent (dir.length / 32 + 1) 0 subdirs w).1.sink =
      w.sink ++ (fs.setEntries opts parent (setsFrom dir (dir.length / 32 + 1) 0)).take
        (opts.maxEntries - w.stats.emitted) ∧
    (Interleaved dir 0 sets →
      ((∀ q ∈ sets, q ∈ setsFrom dir (dir.length / 32 + 1) 0) ↔ GapsWhole dir 0 sets)) := by
  refine ⟨?_, fun h => ?_⟩
  · exact sink_scanDir_eq bitmap dir parent _ 0 subdirs w
  · apply mem_setsFrom_iff h
    unfold Enough
    omega

/-- A set of three entries that says how many follow the first. -/
def setBytes (file count stream name : UInt8) : Bytes :=
  [file, count] ++ List.replicate 30 0 ++ [stream, 1, 0, 1] ++ List.replicate 28 0 ++
    [name, 0, 0x41] ++ List.replicate 29 0

/-- A deleted set, with a count of its own, and a live one. -/
def deletedThenLive (count : UInt8) : Bytes :=
  setBytes 0x05 count 0x40 0x41 ++ setBytes 0x85 2 0xC0 0xC1

lemma interleaved_deletedThenLive {count : UInt8} {s : EntrySet}
    (h : LiveAt (deletedThenLive count) 96 s) :
    Interleaved (deletedThenLive count) 0 [(96, s)] := by
  refine .cons (m := 3) (fun k hk => ?_) h (.nil _)
  match k, hk with
  | 0, _ => exact (by decide : (0x05 : UInt8) ≠ 0)
  | 1, _ => exact (by decide : (0x40 : UInt8) ≠ 0)
  | 2, _ => exact (by decide : (0x41 : UInt8) ≠ 0)

lemma exists_readSet (h : (byteAt dir (i + 32)).toNat % 128 = 0x40) : ∃ s, readSet dir i = some s :=
  ⟨_, if_pos h⟩

lemma length_setBytes {file count stream name : UInt8} :
    (setBytes file count stream name).length = 96 := rfl

lemma length_deletedThenLive (count : UInt8) : (deletedThenLive count).length = 192 := by
  rw [deletedThenLive, List.length_append, length_setBytes, length_setBytes]

lemma byteAt_live (count : UInt8) (k : ℕ) :
    byteAt (deletedThenLive count) (96 + k) = byteAt (setBytes 0x85 2 0xC0 0xC1) k := by
  rw [deletedThenLive, byteAt_append, length_setBytes, if_neg (by omega), Nat.add_sub_cancel_left]

/-- The second set is a live one. -/
lemma exists_liveAt (count : UInt8) : ∃ s, LiveAt (deletedThenLive count) 96 s := by
  have hstream : byteAt (deletedThenLive count) (96 + 32) = 0xC0 := byteAt_live count 32
  obtain ⟨s, hs⟩ := exists_readSet (congrArg (·.toNat % 128) hstream)
  have hsecondary : s.secondary = 2 :=
    (readSet_secondary hs).trans (congrArg UInt8.toNat (byteAt_live count 1))
  have hstop : s.stop 96 = 192 := by
    rw [EntrySet.stop, hsecondary]
    rfl
  exact ⟨s, byteAt_live count 0, hstream, hs, hsecondary.ge,
    hstop.le.trans (length_deletedThenLive count).ge⟩

/-- The first one ends where its count says. -/
lemma exists_setAt (count : UInt8) :
    ∃ t, setAt (deletedThenLive count) 0 = some t ∧ t.stop 0 = 32 * (1 + max count.toNat 1) := by
  have hfile : (byteAt (deletedThenLive count) 0).toNat % 128 = 0x05 := rfl
  have hstream : (byteAt (deletedThenLive count) (0 + 32)).toNat % 128 = 0x40 := rfl
  obtain ⟨t, ht⟩ := exists_readSet hstream
  refine ⟨t, (if_pos hfile).trans ht, ?_⟩
  rw [EntrySet.stop, readSet_secondary ht, Nat.zero_add]
  rfl

/-- Behind a deleted set that is as long as it says, the live one is come to. -/
theorem interleaved_exact_whole :
    ∃ s, LiveAt (deletedThenLive 2) 96 s ∧ (96, s) ∈ setsFrom (deletedThenLive 2) 7 0 := by
  obtain ⟨s, hs⟩ := exists_liveAt 2
  obtain ⟨t, ht, hstop⟩ := exists_setAt 2
  have hwhole : WholeSets (deletedThenLive 2) 96 0 := by
    refine .set ht ?_
    rw [hstop]
    exact .done
  have h := ((interleaved_exact contiguousVolume ⟨true, true, 1, true⟩ none _ "" [] .start _).2
    (interleaved_deletedThenLive hs)).2 ⟨hwhole, trivial⟩
  rw [length_deletedThenLive] at h
  exact ⟨s, hs, h _ List.mem_cons_self⟩

/-- Behind a deleted set that says it has 255 entries, the live one is passed over. -/
theorem swallowed_counterexample :
    ∃ s, LiveAt (deletedThenLive 255) 96 s ∧
      Interleaved (deletedThenLive 255) 0 [(96, s)] ∧
        ∀ q ∈ setsFrom (deletedThenLive 255) 7 0, q.1 = 0 := by
  obtain ⟨s, hs⟩ := exists_liveAt 255
  obtain ⟨t, ht, hstop⟩ := exists_setAt 255
  have hlen := length_deletedThenLive 255
  have hmark : byteAt (deletedThenLive 255) 0 ≠ 0 := (by decide : (0x05 : UInt8) ≠ 0)
  have hover : ¬ t.stop 0 + 32 ≤ (deletedThenLive 255).length := by
    rw [hstop, hlen]
    decide
  refine ⟨s, hs, interleaved_deletedThenLive hs, fun q hq => ?_⟩
  rw [setsFrom_set (by omega) hmark ht, setsFrom_nil hover] at hq
  rw [List.mem_singleton.1 hq]

end ExFat
end Reclaim
