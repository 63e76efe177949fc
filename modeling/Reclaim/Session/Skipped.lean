import Reclaim.Session.RecoverFiles

/-!
# What a skipped record leaves behind

A record is skipped when its directory cannot be made, when the policy finds no path for it, when
its file cannot be opened, and when its copy fails.  The file is created, or truncated, as it is
opened, and a copy that fails is left there: an empty or half-written file under the record's name,
or in place of a file that was there before.

`skipped_keeps_iff` says exactly which runs leave the files alone at every record they skip.
-/

namespace Reclaim

open FileBytes FileTree Paths

variable {σ : Type}

/-! ## How far a copy gets -/

/-- What of a file is on the disk when its copy ends. -/
def RecoverEnv.fitting (env : RecoverEnv) (i : ℕ) (d : Bytes) : Bytes :=
  d.take ((env.room i).getD d.length)

/-- The copy of a file fails: at a write, or at the flush. -/
def RecoverEnv.stops (env : RecoverEnv) (i : ℕ) (d : Bytes) : Bool :=
  (env.room i).any (fun k => decide (k < d.length)) || env.flush i

/-- A copy writes the bytes it reads as far as there is room, and fails when there is not. -/
lemma copyWindows_written (src : BlockSource σ) (room : Option ℕ) (ws : List (ℕ × ℕ)) (c : Copy)
    (s : σ) (hroom : ∀ k ∈ room, c.written.length ≤ k) :
    let d := c.written ++ (readWindows src ws s).1.1
    (copyWindows src room ws c s).1.2.written = d.take (room.getD d.length) ∧
      (copyWindows src room ws c s).1.1 = !room.any fun k => decide (k < d.length) := by
  induction ws generalizing c s with
  | nil =>
    cases room with
    | none => simp [copyWindows, readWindows]
    | some k =>
      have hk : c.written.length ≤ k := hroom k rfl
      simp [copyWindows, readWindows, hk]
  | cons w ws ih =>
    obtain ⟨off, n⟩ := w
    simp only [copyWindows, readWindows]
    split
    · -- this write fails
      rename_i hfull
      cases room with
      | none => exact absurd hfull (by simp)
      | some k =>
        have hk : c.written.length ≤ k := hroom k rfl
        simp only [Option.any_some, decide_eq_true_eq] at hfull
        constructor
        · simp only [Option.getD_some]
          rw [← List.append_assoc, List.take_append_of_le_length (by simp; omega),
            List.take_append, List.take_of_length_le hk]
        · simp only [Option.any_some, List.length_append]
          simp
          omega
    · rename_i hfits
      have hroom' : ∀ k ∈ room, (c.written ++
          (SourceReader.readFlags src off n s).1.1).length ≤ k := by
        intro k hk
        rw [Option.mem_def] at hk
        subst hk
        simp only [Option.any_some, decide_eq_true_eq] at hfits
        rw [List.length_append]
        omega
      have hrest := ih ⟨c.written ++ (SourceReader.readFlags src off n s).1.1,
        c.digest.update (SourceReader.readFlags src off n s).1.1,
        c.suspect || (SourceReader.readFlags src off n s).1.2⟩
        (SourceReader.readFlags src off n s).2 hroom'
      simp only [List.append_assoc] at hrest
      exact hrest

section Step

variable {B : Backend} {src : BlockSource σ} {env : RecoverEnv} {dest : FilePath}
  {opts : RecoverOpts} {i : ℕ} {rec : CarvedRecord} {w : RecoverWorld σ}

/-- A file that is opened holds what fits of the record, whether or not its copy fails. -/
lemma writeExtent_of_open (B : Backend) (src : BlockSource σ) (rec : CarvedRecord)
    {path : FilePath} (hopen : env.openFile i = false)
    (hdir : w.tree (env.resolve path) ≠ some .dir) :
    (∃ stamp, (writeExtent B src env i rec path w).2.tree = w.tree.put (env.resolve path)
        (.file (env.fitting i (recordBytes src rec w.src)) stamp)) ∧
      ((writeExtent B src env i rec path w).1 = none ↔
        env.stops i (recordBytes src rec w.src) = true) := by
  obtain ⟨hwritten, hok⟩ := copyWindows_written src (env.room i)
    (rec.extents.flatMap Extent.windows) ⟨[], Digest.new .blake3, false⟩ w.src
    (fun k _ => Nat.zero_le k)
  simp only [List.nil_append] at hwritten hok
  simp only [writeExtent, hopen, Bool.false_eq_true, if_false]
  cases hwrite : w.tree.write env.resolve path (copyWindows src (env.room i)
      (rec.extents.flatMap Extent.windows) ⟨[], Digest.new .blake3, false⟩ w.src).1.2.written with
  | none => exact absurd (Files.write_eq_none_iff.1 hwrite) hdir
  | some tree =>
    obtain ⟨stamp, rfl, -⟩ := Files.write_eq_some hwrite
    dsimp only
    refine ⟨⟨stamp, ?_⟩, ?_⟩
    · rw [hwritten]
      rfl
    · rw [hok, RecoverEnv.stops, recordBytes]
      cases (env.room i).any fun k => decide (k < (readWindows src
          (rec.extents.flatMap Extent.windows) w.src).1.1.length) with
      | true => simp
      | false => cases env.flush i <;> simp

/-- Record `i` is opened at `k`: a file is created there, or the one that is there truncated. -/
def Touches (env : RecoverEnv) (dest : FilePath) (opts : RecoverOpts) (i : ℕ) (rec : CarvedRecord)
    (t : Files FilePath) (k : FilePath) : Prop :=
  Lands env dest opts i rec t k ∧ (chooseTarget env dest opts i rec t).2 k ≠ some .dir

/-- Choosing a path changes the bytes of no file. -/
lemma chooseTarget_fileAt (env : RecoverEnv) (dest : FilePath) (opts : RecoverOpts) (i : ℕ)
    (rec : CarvedRecord) (t : Files FilePath) :
    (chooseTarget env dest opts i rec t).2.fileAt = t.fileAt := by
  have hparent : ∀ path, (createParent env i path t).2.fileAt = t.fileAt := by
    intro path
    unfold createParent
    cases path.parent with
    | none => rfl
    | some parent =>
      dsimp only
      split
      · exact Files.fileAt_mkdirs t _
      · cases h : t.createDirAll env.resolve parent.ancestors with
        | none => rfl
        | some t' =>
          rw [Files.createDirAll_eq_some h]
          exact Files.fileAt_mkdirs t _
  simp only [chooseTarget]
  split
  · rfl
  · split
    · exact hparent _
    · exact hparent _

/-- **What one record does to the files.**  If its file is opened, the place holds what fits of the
record, and the record is skipped exactly when its copy fails; else it is skipped, and every file
is as it was. -/
lemma recoverOne_files (B : Backend) (src : BlockSource σ) (env : RecoverEnv) (dest : FilePath)
    (opts : RecoverOpts) (st : RecoverState σ) (rec : CarvedRecord) (i : ℕ) :
    let st' := recoverOne B src env dest opts st (rec, i)
    let d := recordBytes src rec st.world.src
    ((∀ k, ¬ Touches env dest opts i rec st.world.tree k) ∧
        st'.summary.skipped = st.summary.skipped + 1 ∧
        st'.world.tree.fileAt = st.world.tree.fileAt) ∨
      ∃ k, Touches env dest opts i rec st.world.tree k ∧
        (st'.summary.skipped = st.summary.skipped + 1 ↔ env.stops i d = true) ∧
        (st'.world.tree.fileAt = st.world.tree.fileAt ↔
          st.world.tree.fileAt k = some (env.fitting i d)) := by
  have hfiles := chooseTarget_fileAt env dest opts i rec st.world.tree
  simp only [recoverOne]
  split
  · -- skipped before its file is opened
    rename_i hnone
    refine .inl ⟨?_, rfl, hfiles⟩
    rintro k ⟨⟨-, rel, hrel, -⟩, -⟩
    exact absurd (hnone.symm.trans hrel) (by simp)
  · rename_i rel hrel
    set t' := (chooseTarget env dest opts i rec st.world.tree).2 with ht'
    by_cases hopen : env.openFile i = true
    · have hcopied : writeExtent B src env i rec (dest.join rel) { st.world with tree := t' } =
          (none, { st.world with tree := t' }) := by simp [writeExtent, hopen]
      rw [hcopied]
      refine .inl ⟨?_, rfl, hfiles⟩
      rintro k ⟨⟨hno, -⟩, -⟩
      exact absurd (hno.symm.trans hopen) (by simp)
    rw [Bool.not_eq_true] at hopen
    by_cases hdir : t' (env.resolve (dest.join rel)) = some .dir
    · have hcopied : writeExtent B src env i rec (dest.join rel) { st.world with tree := t' } =
          (none, { st.world with tree := t' }) := by
        simp [writeExtent, hopen, Files.write_eq_none_iff.2 hdir]
      rw [hcopied]
      refine .inl ⟨?_, rfl, hfiles⟩
      rintro k ⟨⟨-, rel', hrel', rfl⟩, hno⟩
      obtain rfl := Option.some.inj (hrel.symm.trans hrel')
      exact hno hdir
    · obtain ⟨⟨stamp, htree⟩, hstops⟩ :=
        writeExtent_of_open (w := { st.world with tree := t' }) B src rec
        hopen hdir
      refine .inr ⟨env.resolve (dest.join rel), ⟨⟨hopen, rel, hrel, rfl⟩, hdir⟩, ?_⟩
      have hfile : (t'.put (env.resolve (dest.join rel)) (.file (env.fitting i
          (recordBytes src rec st.world.src)) stamp)).fileAt = st.world.tree.fileAt ↔
          st.world.tree.fileAt (env.resolve (dest.join rel)) =
            some (env.fitting i (recordBytes src rec st.world.src)) := by
        rw [← hfiles, Files.fileAt_put_file_eq_iff]
      split
      · rename_i hcopied
        exact ⟨iff_of_true rfl (hstops.1 hcopied), htree ▸ hfile⟩
      · rename_i hash suspect hcopied
        refine ⟨iff_of_false (by simp [RecoverSummary.add]) fun h => ?_, htree ▸ hfile⟩
        exact absurd (hcopied.symm.trans (hstops.2 h)) (by simp)

end Step

/-! ## The run -/

section Run

variable {B : Backend} {src : BlockSource σ} {env : RecoverEnv} {dest : FilePath}
  {opts : RecoverOpts} {records : List CarvedRecord} {w : RecoverWorld σ}

/-- A step that skips its record leaves the bytes of every file as they were. -/
def SkipKeeps (st st' : RecoverState σ) : Prop :=
  st'.summary.skipped = st.summary.skipped + 1 → st'.world.tree.fileAt = st.world.tree.fileAt

/-- Record `i` fails after its file was opened, and the place does not hold by chance what is left
of the record there. -/
def Spoils (src : BlockSource σ) (env : RecoverEnv) (dest : FilePath) (opts : RecoverOpts) (i : ℕ)
    (rec : CarvedRecord) (w : RecoverWorld σ) : Prop :=
  ∃ k, Touches env dest opts i rec w.tree k ∧ env.stops i (recordBytes src rec w.src) = true ∧
    w.tree.fileAt k ≠ some (env.fitting i (recordBytes src rec w.src))

/-- A record is opened at one place. -/
lemma Touches.unique {i : ℕ} {rec : CarvedRecord} {t : Files FilePath} {k k' : FilePath}
    (h : Touches env dest opts i rec t k) (h' : Touches env dest opts i rec t k') : k = k' := by
  obtain ⟨⟨-, rel, hrel, rfl⟩, -⟩ := h
  obtain ⟨⟨-, rel', hrel', rfl⟩, -⟩ := h'
  rw [Option.some.inj (hrel.symm.trans hrel')]

/-- One record leaves the files alone when it is skipped, unless it spoils one. -/
lemma recoverOne_skipKeeps (B : Backend) (src : BlockSource σ) (env : RecoverEnv)
    (dest : FilePath) (opts : RecoverOpts) (st : RecoverState σ) (rec : CarvedRecord) (i : ℕ) :
    SkipKeeps st (recoverOne B src env dest opts st (rec, i)) ↔
      ¬ Spoils src env dest opts i rec st.world := by
  rcases recoverOne_files B src env dest opts st rec i with
    ⟨hclosed, -, hsame⟩ | ⟨k, htouches, hskipped, hsame⟩
  · refine iff_of_true (fun _ => hsame) ?_
    rintro ⟨k, htouches, -⟩
    exact hclosed k htouches
  · rw [SkipKeeps, hskipped, hsame]
    constructor
    · rintro hkeeps ⟨k', htouches', hstops, hne⟩
      obtain rfl := htouches.unique htouches'
      exact hne (hkeeps hstops)
    · intro hno hstops
      by_contra hne
      exact hno ⟨k, htouches, hstops, hne⟩

/-- **When skipped records leave the files alone.**  For every list of records, policy and pattern
of failures, every record a run skips leaves every file as it was, if and only if no record of the
run fails after its file was opened. -/
theorem skipped_keeps_iff (B : Backend) (src : BlockSource σ) (env : RecoverEnv) (dest : FilePath)
    (opts : RecoverOpts) (records : List CarvedRecord) (w : RecoverWorld σ) :
    (∀ i < records.length, SkipKeeps (stateBefore B src env dest opts records w i)
        (stateBefore B src env dest opts records w (i + 1))) ↔
      ∀ i, ∀ h : i < records.length, ¬ Spoils src env dest opts i records[i]
        (stateBefore B src env dest opts records w i).world := by
  refine forall_congr' fun i => forall_congr' fun hi => ?_
  rw [stateBefore_succ hi]
  exact recoverOne_skipKeeps B src env dest opts _ _ i

end Run

/-! ## A full destination -/

/-- Nothing can be written, and every path is its own place. -/
def RecoverEnv.full : RecoverEnv := { RecoverEnv.quiet fun _ => [] with room := fun _ => some 0 }

/-- A destination `/d` that holds a file `a` of one byte. -/
def oldFile : RecoverWorld Unit where
  tree := fun p => if p = ⟨true, ["d", "a"]⟩ then some (.file [7] 0)
    else if p.comps.length ≤ 1 then some .dir else none
  src := ()

/-- **A record that is skipped under `overwrite` leaves an empty file where there was one.** -/
theorem skipped_counterexample :
    let run :=
      stateBefore .plain oneByte .full ⟨true, ["d"]⟩ { copyOnly with collision := .overwrite }
      [byteRecord "a"] oldFile
    (run 1).summary.skipped = 1 ∧ (run 0).world.tree.fileAt ⟨true, ["d", "a"]⟩ = some [7] ∧
      (run 1).world.tree.fileAt ⟨true, ["d", "a"]⟩ = some [] ∧
      ¬ ∀ i < [byteRecord "a"].length, SkipKeeps (run i) (run (i + 1)) := by
  intro run
  have hold : (run 0).world.tree.fileAt ⟨true, ["d", "a"]⟩ = some [7] := by decide
  have hnew : (run 1).world.tree.fileAt ⟨true, ["d", "a"]⟩ = some [] := by decide
  refine ⟨rfl, hold, hnew, fun hkeeps => ?_⟩
  have hsame := congrFun (hkeeps 0 Nat.one_pos rfl) ⟨true, ["d", "a"]⟩
  rw [hold, hnew] at hsame
  exact absurd hsame (by decide)

end Reclaim
