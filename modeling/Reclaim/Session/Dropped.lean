import Reclaim.Session.Skipped

/-!
# Which records a recovery drops

A failure on one file skips its record and the run goes on.  On a file system where only names
fail, a record is skipped for one of four reasons: a directory it needs is a file, a directory's
name is too long, its path and every numbered variant of it are taken, or the first of these that
is free has a name that is too long.  Nothing else drops a record, and the names are capped in
characters, while the file system counts bytes.

`recover_skips_none_iff` says which records are skipped, and when a run recovers them all.
-/

namespace Reclaim

open FileBytes FileTree Paths

variable {σ : Type}

/-- The longest name that a file system stores, in bytes. -/
def nameMax : ℕ := 255

/-- No name on the path is too long. -/
def Storable (p : FilePath) : Prop := ∀ c ∈ p.comps, c.utf8ByteSize ≤ nameMax

instance (p : FilePath) : Decidable (Storable p) :=
  inferInstanceAs (Decidable (∀ c ∈ p.comps, c.utf8ByteSize ≤ nameMax))

/-- The directory a record goes to. -/
def recordDir (dest : FilePath) (opts : RecoverOpts) (rec : CarvedRecord) : FilePath :=
  dest.join (outRelPath rec opts.preservePaths opts.flat).dropLast

/-- The paths below the destination that a record is tried under. -/
def namesFor (opts : RecoverOpts) (rec : CarvedRecord) : List (List String) :=
  let rel := outRelPath rec opts.preservePaths opts.flat
  rel :: candidates rel

/-- The first path for a record that is free once its directory is made. -/
def freeName (env : RecoverEnv) (dest : FilePath) (opts : RecoverOpts) (rec : CarvedRecord)
    (t : Files FilePath) : Option (List String) :=
  let made := t.mkdirs env.resolve (recordDir dest opts rec).ancestors.reverse
  (namesFor opts rec).find? fun rel => !made.occupied env.resolve (dest.join rel)

/-- A record can be written: its directory can be made, and the first free path for it has a name
that can be stored. -/
structure Fits (env : RecoverEnv) (dest : FilePath) (opts : RecoverOpts) (rec : CarvedRecord)
    (t : Files FilePath) : Prop where
  noFile : ∀ p ∈ (recordDir dest opts rec).ancestors, t.isFile (env.resolve p) = false
  dir : Storable (recordDir dest opts rec)
  name : ∃ rel, freeName env dest opts rec t = some rel ∧ Storable (dest.join rel)

/-- Nothing fails for record `i` but an operation on a path that cannot be stored. -/
structure NamesDecide (env : RecoverEnv) (dest : FilePath) (opts : RecoverOpts) (i : ℕ)
    (rec : CarvedRecord) (t : Files FilePath) : Prop where
  dir : env.createDir i = true ↔ ¬ Storable (recordDir dest opts rec)
  file : ∀ rel, (chooseTarget env dest opts i rec t).1 = some rel →
    (env.openFile i = true ↔ ¬ Storable (dest.join rel))
  room : env.room i = none
  flush : env.flush i = false

/-! ## One record -/

section Step

variable {env : RecoverEnv} {dest : FilePath} {opts : RecoverOpts} {i : ℕ} {rec : CarvedRecord}
  {t : Files FilePath}

lemma parent_outPath (dest : FilePath) (opts : RecoverOpts) (rec : CarvedRecord) :
    (dest.join (outRelPath rec opts.preservePaths opts.flat)).parent =
      some (recordDir dest opts rec) := by
  have hne : outRelPath rec opts.preservePaths opts.flat ≠ [] := (safeRelPath_safe _ _).1
  have hcomps : dest.comps ++ outRelPath rec opts.preservePaths opts.flat ≠ [] :=
    List.append_ne_nil_of_right_ne_nil _ hne
  simp only [FilePath.parent, FilePath.join, hcomps, if_false, recordDir,
    List.dropLast_append_of_ne_nil hne]

/-- Under `rename` the path chosen is the first free one. -/
lemma resolveCollision_rename (env : RecoverEnv) (dest : FilePath) (rel : List String)
    (t : Files FilePath) : resolveCollision env dest rel .rename t =
      (rel :: candidates rel).find? fun c => !t.occupied env.resolve (dest.join c) := by
  unfold resolveCollision
  rw [List.find?_cons]
  cases t.occupied env.resolve (dest.join rel) with
  | true => rfl
  | false => rfl

/-- A path is chosen for a record when its directory can be made, and it is the first free one. -/
lemma chooseTarget_rename (hpolicy : opts.collision = .rename)
    (hnames : NamesDecide env dest opts i rec t) :
    (chooseTarget env dest opts i rec t).1 =
      if (∀ p ∈ (recordDir dest opts rec).ancestors, t.isFile (env.resolve p) = false) ∧
          Storable (recordDir dest opts rec)
      then freeName env dest opts rec t else none := by
  have hbelow : dest.comps <+:
      (dest.join (outRelPath rec opts.preservePaths opts.flat)).comps := List.prefix_append _ _
  simp only [chooseTarget, not_true, if_false, hbelow, createParent, parent_outPath]
  by_cases hdir : Storable (recordDir dest opts rec)
  · have hmake : env.createDir i = false :=
      Bool.eq_false_iff.2 fun h => hnames.dir.1 h hdir
    simp only [hmake, Bool.false_eq_true, if_false, hdir, and_true, Files.createDirAll]
    by_cases hfile : ∀ p ∈ (recordDir dest opts rec).ancestors, t.isFile (env.resolve p) = false
    · have hnone : ((recordDir dest opts rec).ancestors.any fun p =>
          t.isFile (env.resolve p)) = false := by
        rw [List.any_eq_false]
        exact fun p hp => by rw [hfile p hp]; simp
      rw [if_pos hfile, hnone]
      simp only [Bool.false_eq_true, if_false, hpolicy, resolveCollision_rename]
      rfl
    · have hsome : ((recordDir dest opts rec).ancestors.any fun p =>
          t.isFile (env.resolve p)) = true := by
        simpa using hfile
      rw [if_neg hfile, hsome]
      rfl
  · rw [if_pos (hnames.dir.2 hdir), if_neg fun h => hdir h.2]

/-- A record is skipped once or not at all. -/
lemma recoverOne_skipped_cases (B : Backend) (src : BlockSource σ) (env : RecoverEnv)
    (dest : FilePath) (opts : RecoverOpts) (st : RecoverState σ) (rec : CarvedRecord) (i : ℕ) :
    (recoverOne B src env dest opts st (rec, i)).summary.skipped = st.summary.skipped ∨
      (recoverOne B src env dest opts st (rec, i)).summary.skipped = st.summary.skipped + 1 := by
  simp only [recoverOne]
  split
  · exact .inr rfl
  · split
    · exact .inr rfl
    · exact .inl rfl

/-- **What skips a record**: it does not fit. -/
lemma recoverOne_skipped (B : Backend) (src : BlockSource σ) (st : RecoverState σ)
    (hpolicy : opts.collision = .rename)
    (hnames : NamesDecide env dest opts i rec st.world.tree) :
    (Fits env dest opts rec st.world.tree →
        (recoverOne B src env dest opts st (rec, i)).summary.skipped = st.summary.skipped) ∧
      (¬ Fits env dest opts rec st.world.tree →
        (recoverOne B src env dest opts st (rec, i)).summary.skipped = st.summary.skipped + 1) := by
  have hchosen := chooseTarget_rename hpolicy hnames
  have hnot : opts.collision ≠ .overwrite := by rw [hpolicy]; decide
  have hfree := (chooseTarget_spec env dest i rec st.world.tree hnot).2.2
  have hstops : ∀ d, env.stops i d = false := by
    intro d
    rw [RecoverEnv.stops, hnames.room, hnames.flush]
    rfl
  rcases recoverOne_files B src env dest opts st rec i with
    ⟨hclosed, hskipped, -⟩ | ⟨k, htouches, hskipped, -⟩
  · -- its file is never opened
    refine ⟨fun hfits => ?_, fun _ => hskipped⟩
    obtain ⟨rel, hrel, hshort⟩ := hfits.name
    rw [if_pos ⟨hfits.noFile, hfits.dir⟩, hrel] at hchosen
    have hopen : env.openFile i = false :=
      Bool.eq_false_iff.2 fun h => (hnames.file rel hchosen).1 h hshort
    have hempty : (chooseTarget env dest opts i rec st.world.tree).2
        (env.resolve (dest.join rel)) ≠ some .dir := by
      rw [hfree rel hchosen]
      simp
    exact absurd ⟨⟨hopen, rel, hchosen, rfl⟩, hempty⟩ (hclosed _)
  · obtain ⟨⟨hopen, rel, hrel, -⟩, -⟩ := htouches
    have hfits : Fits env dest opts rec st.world.tree := by
      rw [hrel] at hchosen
      split at hchosen
      · rename_i hdir
        refine ⟨hdir.1, hdir.2, rel, hchosen.symm, ?_⟩
        by_contra hlong
        exact absurd (hopen.symm.trans ((hnames.file rel hrel).2 hlong)) (by simp)
      · exact absurd hchosen (by simp)
    refine ⟨fun _ => ?_, fun hno => absurd hfits hno⟩
    rcases recoverOne_skipped_cases B src env dest opts st rec i with hsame | hmore
    · exact hsame
    · exact absurd ((hstops _).symm.trans (hskipped.1 hmore)) (by simp)

end Step

/-! ## The run -/

section Run

variable {B : Backend} {src : BlockSource σ} {env : RecoverEnv} {dest : FilePath}
  {sourceId : String} {opts : RecoverOpts} {records : List CarvedRecord} {w : RecoverWorld σ}

/-- A run in which nothing fails but operations on paths that cannot be stored. -/
structure OnlyNamesFail (B : Backend) (src : BlockSource σ) (env : RecoverEnv) (dest : FilePath)
    (opts : RecoverOpts) (records : List CarvedRecord) (w : RecoverWorld σ) : Prop where
  createDest : env.createDest = true ↔ ¬ Storable dest
  record : ∀ i, ∀ h : i < records.length, NamesDecide env dest opts i records[i]
    (stateBefore B src env dest opts records (withDest env dest w) i).world.tree
  openManifest : env.openManifest = false
  manifestRoom : env.manifestRoom = none

/-- The destination directory can be made, and what is at the manifest's place when the records
are done is no directory. -/
structure DestFits (B : Backend) (src : BlockSource σ) (env : RecoverEnv) (dest : FilePath)
    (opts : RecoverOpts) (records : List CarvedRecord) (w : RecoverWorld σ) : Prop where
  short : Storable dest
  noFile : ∀ p ∈ dest.ancestors, w.tree.isFile (env.resolve p) = false
  manifest : (recoverLoop B src env dest opts records (withDest env dest w)).world.tree
    (env.resolve (manifestPath dest)) ≠ some .dir

/-- No record is skipped when every one fits at its turn. -/
lemma stateBefore_skipped_eq_zero_iff (hpolicy : opts.collision = .rename)
    (hnames : OnlyNamesFail B src env dest opts records w) {n : ℕ} (hn : n ≤ records.length) :
    (stateBefore B src env dest opts records (withDest env dest w) n).summary.skipped = 0 ↔
      ∀ i, ∀ h : i < records.length, i < n → Fits env dest opts records[i]
        (stateBefore B src env dest opts records (withDest env dest w) i).world.tree := by
  induction n with
  | zero => simp [stateBefore, recoverLoop_nil]
  | succ n ih =>
    obtain ⟨hkept, hskipped⟩ := recoverOne_skipped B src
      (stateBefore B src env dest opts records (withDest env dest w) n) hpolicy
      (hnames.record n hn)
    rw [stateBefore_succ hn]
    by_cases hfits : Fits env dest opts records[n]
        (stateBefore B src env dest opts records (withDest env dest w) n).world.tree
    · rw [hkept hfits, ih (Nat.le_of_succ_le hn)]
      constructor
      · intro hall i hi hin
        rcases Nat.lt_succ_iff_lt_or_eq.1 hin with hlt | rfl
        · exact hall i hi hlt
        · exact hfits
      · exact fun hall i hi hin => hall i hi (Nat.lt_succ_of_lt hin)
    · rw [hskipped hfits]
      exact iff_of_false (Nat.succ_ne_zero _) fun hall => hfits (hall n hn (Nat.lt_succ_self n))

/-- The manifest is written unless a directory is at its place. -/
lemma writeManifest_ok (hnames : OnlyNamesFail B src env dest opts records w) (text : Bytes)
    (t : Files FilePath) : (writeManifest env dest text t).1 = true ↔
      t (env.resolve (manifestPath dest)) ≠ some .dir := by
  simp only [writeManifest, hnames.openManifest, hnames.manifestRoom, Option.any_none,
    Bool.not_false, Bool.false_eq_true, if_false, if_true]
  have hdir : t.write env.resolve (manifestPath dest) text = none ↔
      t (env.resolve (manifestPath dest)) = some .dir := Files.write_eq_none_iff
  rw [ne_eq, ← hdir]
  cases t.write env.resolve (manifestPath dest) text <;> simp

/-- A run returns when the destination can be made and the manifest's place is no directory. -/
lemma recoverRecords_returns (hnames : OnlyNamesFail B src env dest opts records w) :
    (recoverRecords B src env dest sourceId records opts w).1 =
        some (recoverLoop B src env dest opts records (withDest env dest w)).summary ↔
      DestFits B src env dest opts records w := by
  unfold recoverRecords
  by_cases hshort : Storable dest
  · have hcreate : env.createDest = false :=
      Bool.eq_false_iff.2 fun h => hnames.createDest.1 h hshort
    simp only [hcreate, Bool.false_eq_true, if_false, Files.createDirAll]
    by_cases hfile : ∀ p ∈ dest.ancestors, w.tree.isFile (env.resolve p) = false
    · have hnone : (dest.ancestors.any fun p => w.tree.isFile (env.resolve p)) = false := by
        rw [List.any_eq_false]
        exact fun p hp => by rw [hfile p hp]; simp
      simp only [hnone, Bool.false_eq_true, if_false]
      have hworld : { w with tree := w.tree.mkdirs env.resolve dest.ancestors.reverse } =
          withDest env dest w := rfl
      rw [hworld]
      split
      · rename_i hwritten
        exact iff_of_true rfl ⟨hshort, hfile, (writeManifest_ok hnames _ _).1 hwritten⟩
      · rename_i hwritten
        exact iff_of_false (by simp) fun h => hwritten ((writeManifest_ok hnames _ _).2 h.manifest)
    · have hsome : (dest.ancestors.any fun p => w.tree.isFile (env.resolve p)) = true := by
        simpa using hfile
      rw [hsome]
      exact iff_of_false (by simp) fun h => hfile h.noFile
  · rw [if_pos (hnames.createDest.2 hshort)]
    exact iff_of_false (by simp) fun h => hshort h.short

/-- **Which records a recovery drops.**  Under `rename`, where nothing fails but operations on paths
that cannot be stored, a record is skipped exactly when it does not fit at its turn; and the run
returns with no record skipped exactly when the destination can be made, every record fits at its
turn, and no directory is at the manifest's place in the end. -/
theorem recover_skips_none_iff (hpolicy : opts.collision = .rename)
    (hnames : OnlyNamesFail B src env dest opts records w) :
    (∀ i, ∀ h : i < records.length,
      (stateBefore B src env dest opts records (withDest env dest w) (i + 1)).summary.skipped =
        (stateBefore B src env dest opts records (withDest env dest w) i).summary.skipped + 1 ↔
      ¬ Fits env dest opts records[i]
        (stateBefore B src env dest opts records (withDest env dest w) i).world.tree) ∧
    ((∃ summary, (recoverRecords B src env dest sourceId records opts w).1 = some summary ∧
        summary.skipped = 0) ↔
      DestFits B src env dest opts records w ∧ ∀ i, ∀ h : i < records.length,
        Fits env dest opts records[i]
          (stateBefore B src env dest opts records (withDest env dest w) i).world.tree) := by
  have hzero := stateBefore_skipped_eq_zero_iff hpolicy hnames (le_refl records.length)
  rw [stateBefore_length] at hzero
  refine ⟨fun i hi => ?_, ?_⟩
  · obtain ⟨hkept, hskipped⟩ := recoverOne_skipped B src
      (stateBefore B src env dest opts records (withDest env dest w) i) hpolicy
      (hnames.record i hi)
    rw [stateBefore_succ hi]
    constructor
    · intro hmore hfits
      rw [hkept hfits] at hmore
      omega
    · exact hskipped
  · constructor
    · rintro ⟨summary, hreturns, hskipped⟩
      obtain ⟨rfl, -⟩ := recoverRecords_ok hreturns
      exact ⟨(recoverRecords_returns hnames).1 hreturns,
        fun i hi => hzero.1 hskipped i hi hi⟩
    · rintro ⟨hdest, hfits⟩
      exact ⟨_, (recoverRecords_returns hnames).2 hdest, hzero.2 fun i hi _ => hfits i hi⟩

end Run

/-! ## A file in the way of a directory, and a name of four-byte characters -/

/-- Nothing fails but opening the files that `tooLong` says. -/
def RecoverEnv.refusing (tooLong : ℕ → Bool) : RecoverEnv :=
  { RecoverEnv.quiet fun _ => [] with openFile := tooLong }

/-- Recovering files of one byte under the given paths to an empty `/d`. -/
def recoverBytes (paths : List String) (tooLong : ℕ → Bool) :
    Option RecoverSummary × RecoverWorld Unit :=
  recoverRecords .plain oneByte (.refusing tooLong) ⟨true, ["d"]⟩ "src" (paths.map byteRecord)
    copyOnly emptyDest

/-- 64 characters of four bytes each. -/
def longName : String := String.ofList (List.replicate 64 '𝄞')

lemma synthPath_byteRecord {path : String} (h : path ≠ "") : (byteRecord path).synthPath = path :=
  if_neg h

/-- The name is kept as it is. -/
lemma outRelPath_longName :
    outRelPath (byteRecord longName) copyOnly.preservePaths copyOnly.flat = [longName] := by
  have hspell : longName.toList = List.replicate 64 '𝄞' := String.toList_ofList
  have hparts : (List.replicate 64 '𝄞').splitOnP (fun c => c == '/' || c == '\\') =
      [List.replicate 64 '𝄞'] := by decide
  have hkept : keptComponent (List.replicate 64 '𝄞') = true := by decide
  have hsafe : ((List.replicate 64 '𝄞').map safeChar).take 200 = List.replicate 64 '𝄞' := by
    decide
  have hne : longName ≠ "" := by decide +kernel
  rw [outRelPath, synthPath_byteRecord hne, safeRelPath, hspell, hparts]
  simp only [List.filter_cons, hkept, if_true, List.filter_nil, List.map_cons, List.map_nil, hsafe]
  rfl

/-- The paths chosen for the records. -/
def chosenFor (paths : List String) (tooLong : ℕ → Bool) (i : ℕ) (path : String) :
    Option (List String) :=
  (chooseTarget (.refusing tooLong) ⟨true, ["d"]⟩ copyOnly i (byteRecord path)
    (stateBefore .plain oneByte (.refusing tooLong) ⟨true, ["d"]⟩ copyOnly (paths.map byteRecord)
      (withDest (.refusing tooLong) ⟨true, ["d"]⟩ emptyDest) i).world.tree).1

/-- Where only opening fails, it is enough that it fails for the names that are too long. -/
lemma onlyNamesFail_refusing {paths : List String} {tooLong : ℕ → Bool}
    (hdir : ∀ path ∈ paths, Storable (recordDir ⟨true, ["d"]⟩ copyOnly (byteRecord path)))
    (hfile : ∀ i, ∀ h : i < paths.length, ∀ rel ∈ chosenFor paths tooLong i paths[i],
      tooLong i = true ↔ ¬ Storable (FilePath.join ⟨true, ["d"]⟩ rel)) :
    OnlyNamesFail .plain oneByte (.refusing tooLong) ⟨true, ["d"]⟩ copyOnly
      (paths.map byteRecord) emptyDest where
  createDest := iff_of_false Bool.false_ne_true fun h => h (by decide)
  record i hi := by
    rw [List.length_map] at hi
    simp only [List.getElem_map]
    exact ⟨iff_of_false Bool.false_ne_true fun h => h (hdir _ (List.getElem_mem hi)),
      fun rel hrel => hfile i hi rel hrel, rfl, rfl⟩
  openManifest := rfl
  manifestRoom := rfl

/-- One file in an empty destination is recovered. -/
theorem recover_skips_none_byte :
    ∃ summary, (recoverBytes ["a"] fun _ => false).1 = some summary ∧ summary.skipped = 0 := by
  have hnames : OnlyNamesFail .plain oneByte (.refusing fun _ => false) ⟨true, ["d"]⟩ copyOnly
      (["a"].map byteRecord) emptyDest := by
    apply onlyNamesFail_refusing (by decide)
    intro i hi rel hrel
    obtain rfl : i = 0 := Nat.lt_one_iff.1 hi
    have hchosen : chosenFor ["a"] (fun _ => false) 0 "a" = some ["a"] := by decide
    obtain rfl : ["a"] = rel := Option.some.inj (hchosen.symm.trans hrel)
    decide
  have hfits : Fits (.refusing fun _ => false) ⟨true, ["d"]⟩ copyOnly (byteRecord "a")
      (withDest (.refusing fun _ => false) ⟨true, ["d"]⟩ emptyDest).tree :=
    ⟨by decide, by decide, ["a"], by decide, by decide⟩
  have hdest : DestFits .plain oneByte (.refusing fun _ => false) ⟨true, ["d"]⟩ copyOnly
      (["a"].map byteRecord) emptyDest :=
    ⟨by decide, by decide, by decide⟩
  refine (recover_skips_none_iff rfl hnames).2.2 ⟨hdest, fun i hi => ?_⟩
  obtain rfl : i = 0 := Nat.lt_one_iff.1 hi
  exact hfits

/-- A file, and a directory of the same name. -/
lemma onlyNamesFail_conflict : OnlyNamesFail .plain oneByte (.refusing fun _ => false)
    ⟨true, ["d"]⟩ copyOnly (["a", "a/b"].map byteRecord) emptyDest := by
  apply onlyNamesFail_refusing (by decide)
  intro i hi rel hrel
  have hfirst : chosenFor ["a", "a/b"] (fun _ => false) 0 "a" = some ["a"] := by decide
  have hsecond : chosenFor ["a", "a/b"] (fun _ => false) 1 "a/b" = none := by decide
  obtain rfl | rfl : i = 0 ∨ i = 1 := Nat.le_one_iff_eq_zero_or_eq_one.1 (Nat.le_of_lt_succ hi)
  · obtain rfl : ["a"] = rel := Option.some.inj (hfirst.symm.trans hrel)
    decide
  · exact absurd (hsecond.symm.trans hrel) (by simp)

/-- A name of fewer than 200 characters and more than 255 bytes. -/
lemma onlyNamesFail_longName : OnlyNamesFail .plain oneByte (.refusing fun _ => true)
    ⟨true, ["d"]⟩ copyOnly ([longName].map byteRecord) emptyDest := by
  have hdir : recordDir ⟨true, ["d"]⟩ copyOnly (byteRecord longName) = ⟨true, ["d"]⟩ := by
    rw [recordDir, outRelPath_longName]
    rfl
  have hchosen : chosenFor [longName] (fun _ => true) 0 longName = some [longName] := by
    rw [chosenFor, chooseTarget, outRelPath_longName]
    rfl
  have hlong : ¬ Storable (FilePath.join ⟨true, ["d"]⟩ [longName]) := by decide +kernel
  refine onlyNamesFail_refusing (fun path hpath => ?_) fun i hi rel hrel => ?_
  · obtain rfl := List.mem_singleton.1 hpath
    rw [hdir]
    decide
  · obtain rfl : i = 0 := Nat.lt_one_iff.1 hi
    obtain rfl : [longName] = rel := Option.some.inj (hchosen.symm.trans hrel)
    exact iff_of_true rfl hlong

/-- **Records are dropped**: a file under a name that another record needs for a directory, and a
file whose name has fewer than 200 characters but more bytes than can be stored. -/
theorem recover_skips_none_counterexample :
    (OnlyNamesFail .plain oneByte (.refusing fun _ => false) ⟨true, ["d"]⟩ copyOnly
        (["a", "a/b"].map byteRecord) emptyDest ∧
      ∃ summary, (recoverBytes ["a", "a/b"] fun _ => false).1 = some summary ∧
        summary.skipped = 1) ∧
      OnlyNamesFail .plain oneByte (.refusing fun _ => true) ⟨true, ["d"]⟩ copyOnly
        ([longName].map byteRecord) emptyDest ∧
      ∃ summary, (recoverBytes [longName] fun _ => true).1 = some summary ∧
        summary.skipped = 1 := by
  have hconflict : (recoverBytes ["a", "a/b"] fun _ => false).1.map RecoverSummary.skipped =
      some 1 := by decide
  have hlong : (recoverBytes [longName] fun _ => true).1.map RecoverSummary.skipped = some 1 := by
    decide +kernel
  exact ⟨⟨onlyNamesFail_conflict, Option.map_eq_some_iff.1 hconflict⟩,
    onlyNamesFail_longName, Option.map_eq_some_iff.1 hlong⟩

end Reclaim
