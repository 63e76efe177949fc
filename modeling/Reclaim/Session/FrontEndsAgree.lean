import Reclaim.Session.FrontEnds
import Reclaim.Session.RecoverSize

/-!
# When the two front ends recover the same

As long as nothing fails, the CLI's loop goes through the same worlds as the library's and lists
the same files; it differs in the validity it lists, in going no further than the first failure,
and in the rows it selects.  `sameRecovery_iff` says exactly when the two agree: no selected row is
merged, no operation on a file fails, and no file of a record stored as full has a flagged read.
-/

namespace Reclaim

open FileBytes FileTree Paths

variable {σ : Type}

/-! ## Bytes of unreadable sectors -/

/-- Some byte of a record's extents is in a sector of the source that is not readable when the
record is copied from `s` on. -/
def RecordUnreadable (src : BlockSource σ) (rec : CarvedRecord) (s : σ) : Prop :=
  ∃ pre off n post, rec.extents.flatMap Extent.windows = pre ++ (off, n) :: post ∧
    SourceReader.Unreadable src off n (readWindows src pre s).2

lemma readWindows_flag_iff {src : BlockSource σ} (ws : List (ℕ × ℕ)) (s : σ)
    (hpos : ∀ w ∈ ws, 0 < w.2) : (readWindows src ws s).1.2 = true ↔
      ∃ pre off n post, ws = pre ++ (off, n) :: post ∧
        SourceReader.Unreadable src off n (readWindows src pre s).2 := by
  induction ws generalizing s with
  | nil => simp [readWindows]
  | cons w ws ih =>
    obtain ⟨off, n⟩ := w
    have htail := ih (SourceReader.readFlags src off n s).2 fun w hw =>
      hpos w (List.mem_cons_of_mem _ hw)
    simp only [readWindows, Bool.or_eq_true, htail,
      SourceReader.readFlags_flag_iff (hpos _ List.mem_cons_self)]
    constructor
    · rintro (hfirst | ⟨pre, off', n', post, rfl, hbad⟩)
      · exact ⟨[], off, n, ws, rfl, hfirst⟩
      · exact ⟨(off, n) :: pre, off', n', post, rfl, hbad⟩
    · rintro ⟨pre, off', n', post, hsplit, hbad⟩
      cases pre with
      | nil =>
        obtain ⟨hw, -⟩ := List.cons.inj hsplit
        obtain ⟨rfl, rfl⟩ := Prod.mk.inj hw
        exact .inl hbad
      | cons w pre =>
        obtain ⟨rfl, rfl⟩ := List.cons.inj hsplit
        exact .inr ⟨pre, off', n', post, rfl, hbad⟩

/-- **A record is flagged exactly when a byte of it is unreadable.** -/
lemma recordFlagged_iff {src : BlockSource σ} {rec : CarvedRecord} {s : σ} :
    recordFlagged src rec s = true ↔ RecordUnreadable src rec s := by
  apply readWindows_flag_iff _ s
  intro w hw
  obtain ⟨e, -, hw⟩ := List.mem_flatMap.1 hw
  obtain ⟨k, hk, rfl⟩ := List.mem_map.1 hw
  rw [List.mem_range, lt_divCeil_iff Extent.copyChunk_pos] at hk
  have hchunk := Extent.copyChunk_pos
  dsimp only
  omega

/-! ## Writing a record -/

section Write

variable {B : Backend} {src : BlockSource σ} {env : RecoverEnv} {i : ℕ} {rec : CarvedRecord}
  {path : FilePath} {w : RecoverWorld σ}

/-- A copy succeeds exactly when the room is enough. -/
lemma copyWindows_ok_iff (src : BlockSource σ) {room : Option ℕ} (ws : List (ℕ × ℕ))
    (c : Copy) (s : σ)
    (hroom : ∀ k, room = some k → c.written.length ≤ k) :
    (copyWindows src room ws c s).1.1 = true ↔
      ∀ k, room = some k → c.written.length + (ws.map Prod.snd).sum ≤ k := by
  induction ws generalizing c s with
  | nil => simpa [copyWindows] using hroom
  | cons w ws ih =>
    obtain ⟨off, n⟩ := w
    simp only [copyWindows, List.map_cons, List.sum_cons]
    split
    · rename_i hfull
      obtain ⟨k, hk, hlt⟩ := (Option.any_eq_true _ _).1 hfull
      rw [SourceReader.length_readFlags, decide_eq_true_eq] at hlt
      refine ⟨fun h => absurd h (by simp), fun h => ?_⟩
      have := h k hk
      omega
    · rename_i hfits
      have hlen : (SourceReader.readFlags src off n s).1.1.length = n :=
        SourceReader.length_readFlags
      rw [ih]
      · simp only [List.length_append, hlen, Nat.add_assoc]
      · intro k hk
        by_contra hlt
        rw [List.length_append] at hlt
        exact hfits ((Option.any_eq_true _ _).2 ⟨k, hk, decide_eq_true (by omega)⟩)

/-- Writing a record to a path fails: the file cannot be opened, there is too little room, or the
flush fails. -/
def WriteFails (env : RecoverEnv) (i : ℕ) (rec : CarvedRecord) (path : FilePath)
    (t : Files FilePath) : Prop :=
  env.openFile i = true ∨ t (env.resolve path) = some .dir ∨
    (∃ k, env.room i = some k ∧ k < (rec.extents.map (·.len)).sum) ∨ env.flush i = true

lemma writeExtent_eq_none_iff : (writeExtent B src env i rec path w).1 = none ↔
    WriteFails env i rec path w.tree := by
  have hok : (copyWindows src (env.room i) (rec.extents.flatMap Extent.windows)
      ⟨[], Digest.new .blake3, false⟩ w.src).1.1 = true ↔ _ :=
    copyWindows_ok_iff src _ _ _ (by simp)
  rw [sum_flatMap_windows] at hok
  simp only [List.length_nil, Nat.zero_add] at hok
  simp only [writeExtent, WriteFails]
  split
  · rename_i hopen
    exact iff_of_true rfl (.inl hopen)
  · rename_i hopen
    rw [or_iff_right hopen]
    split
    · rename_i hwrite
      exact iff_of_true rfl (.inl (Files.write_eq_none_iff.1 hwrite))
    · rename_i t' hwrite
      have hnodir : w.tree (env.resolve path) ≠ some .dir := fun hdir =>
        absurd (hwrite.symm.trans (Files.write_eq_none_iff.2 hdir)) (by simp)
      rw [or_iff_right hnodir]
      dsimp only
      split
      · rename_i hfits
        rw [Bool.and_eq_true, Bool.not_eq_true'] at hfits
        apply iff_of_false (by simp)
        rintro (⟨k, hk, hlt⟩ | hflush)
        · exact absurd (hok.1 hfits.1 k hk) (by omega)
        · exact absurd (hfits.2.symm.trans hflush) (by simp)
      · rename_i hfits
        apply iff_of_true rfl
        by_contra hno
        rw [not_or, Bool.not_eq_true] at hno
        refine hfits (Bool.and_eq_true_iff.2 ⟨hok.2 fun k hk => ?_, by simp [hno.2]⟩)
        by_contra hlt
        exact hno.1 ⟨k, hk, by omega⟩

/-- A file that was written can be read back unless reading fails. -/
lemma verifyFile_eq_none_iff (hash' : String) {hash : String} {suspect : Bool}
    (h : (writeExtent B src env i rec path w).1 = some (hash, suspect)) :
    verifyFile B env i path hash' (writeExtent B src env i rec path w).2.tree = none ↔
      env.readBack i = true := by
  obtain ⟨⟨stamp, hfile⟩, -⟩ := writeExtent_of_ok h
  unfold verifyFile
  rw [hfile]
  split <;> simp_all

namespace Cli

/-- The CLI copies as the library does, without the flag. -/
lemma copyWindows_eq (src : BlockSource σ) (room : Option ℕ) (ws : List (ℕ × ℕ)) (c : Copy)
    (s : σ) :
    copyWindows src room ws (c.written, c.digest) s =
      (((Reclaim.copyWindows src room ws c s).1.1,
        (Reclaim.copyWindows src room ws c s).1.2.written,
        (Reclaim.copyWindows src room ws c s).1.2.digest),
        (Reclaim.copyWindows src room ws c s).2) := by
  induction ws generalizing c s with
  | nil => rfl
  | cons w ws ih =>
    obtain ⟨off, n⟩ := w
    simp only [copyWindows, Reclaim.copyWindows, SourceReader.read_eq_readFlags]
    split
    · rfl
    · exact ih ⟨_, _, _⟩ _

lemma writeExtent_eq : writeExtent B src env i rec path w =
    ((Reclaim.writeExtent B src env i rec path w).1.map Prod.fst,
      (Reclaim.writeExtent B src env i rec path w).2) := by
  have hcopy := copyWindows_eq src (env.room i) (rec.extents.flatMap Extent.windows)
    ⟨[], Digest.new .blake3, false⟩ w.src
  simp only [writeExtent, Reclaim.writeExtent, hcopy]
  split
  · rfl
  · cases w.tree.write env.resolve path _ with
    | none => rfl
    | some tree =>
      dsimp only
      split <;> rfl

end Cli

end Write

/-! ## One record -/

section Step

variable {B : Backend} {src : BlockSource σ} {env : RecoverEnv} {dest : FilePath}
  {opts : RecoverOpts} {i : ℕ} {rec : CarvedRecord} {cst : Cli.State σ} {st : RecoverState σ}

/-- Some operation for record `i` fails: making its directory, writing its file, or reading it
back. -/
def FailsAt (env : RecoverEnv) (dest : FilePath) (opts : RecoverOpts) (i : ℕ) (rec : CarvedRecord)
    (t : Files FilePath) : Prop :=
  (createParent env i (dest.join (outRelPath rec opts.preservePaths opts.flat)) t).1 = none ∨
    ∃ rel, (chooseTarget env dest opts i rec t).1 = some rel ∧
      (WriteFails env i rec (dest.join rel) (chooseTarget env dest opts i rec t).2 ∨
        opts.verify = true ∧ env.readBack i = true)

/-- What both loops do with a record for which nothing fails. -/
inductive InStep (src : BlockSource σ) (rec : CarvedRecord) (target : Option (List String))
    (cst cst' : Cli.State σ) (st st' : RecoverState σ) : Prop
  | skipped (skip : target = none) (files : cst'.files = cst.files)
      (recovered : cst'.recovered = cst.recovered)
      (partialCount : cst'.partialCount = cst.partialCount)
      (summary : st'.summary = st.summary.skip)
  | listed (f : RecoveredFile) (g : Cli.ManifestFile) (chosen : target.isSome = true)
      (files : cst'.files = cst.files ++ [g]) (validity : g.validity = rec.validity)
      (recovered : cst'.recovered = cst.recovered + 1)
      (partialCount : cst'.partialCount =
        if rec.validity = .full then cst.partialCount else cst.partialCount + 1)
      (summary : st'.summary = st.summary.add f)
      (full : f.validity = .full ↔
        rec.validity = .full ∧ recordFlagged src rec st.world.src = false)

/-- The validity that the library lists for a record. -/
lemma listed_full_iff (v : Validity) (suspect : Bool) :
    (if suspect = true ∧ v = .full then Validity.suspect else v) = .full ↔
      v = .full ∧ suspect = false := by
  cases suspect with
  | false => simp
  | true => by_cases hv : v = .full <;> simp [hv]

/-- **One record in both loops**: the CLI's goes on exactly when nothing fails, and then they stay
in step. -/
lemma cli_recoverOne (B : Backend) (src : BlockSource σ) (env : RecoverEnv) (dest : FilePath)
    (opts : RecoverOpts) (i : ℕ) (rec : CarvedRecord) (h : cst.world = st.world) :
    let cli := Cli.recoverOne B src env dest opts cst (rec, i)
    let lib := recoverOne B src env dest opts st (rec, i)
    (cli.1 = true ↔ ¬ FailsAt env dest opts i rec st.world.tree) ∧
      (cli.1 = true → cli.2.world = lib.world ∧
        InStep src rec (chooseTarget env dest opts i rec st.world.tree).1 cst cli.2 st lib) := by
  have hbelow : dest.comps <+: (dest.join (outRelPath rec opts.preservePaths opts.flat)).comps :=
    List.prefix_append _ _
  simp only [Cli.recoverOne, recoverOne, FailsAt, chooseTarget, not_true_eq_false, hbelow,
    if_false, h]
  cases hdir : (createParent env i (dest.join (outRelPath rec opts.preservePaths opts.flat))
      st.world.tree).1 with
  | none => simp
  | some u =>
    dsimp only
    set t' := (createParent env i (dest.join (outRelPath rec opts.preservePaths opts.flat))
      st.world.tree).2 with ht'
    cases htarget : resolveCollision env dest (outRelPath rec opts.preservePaths opts.flat)
        opts.collision t' with
    | none =>
      refine ⟨iff_of_true rfl (by simp), fun _ => ⟨rfl, ?_⟩⟩
      exact .skipped rfl rfl rfl rfl rfl
    | some rel =>
      dsimp only
      have hfails : (writeExtent B src env i rec (dest.join rel)
          { st.world with tree := t' }).1 = none ↔ WriteFails env i rec (dest.join rel) t' :=
        writeExtent_eq_none_iff
      rw [Cli.writeExtent_eq]
      cases hcopied : (writeExtent B src env i rec (dest.join rel)
          { st.world with tree := t' }).1 with
      | none =>
        have hw := hfails.1 hcopied
        simp [hw]
      | some copied =>
        obtain ⟨hash, suspect⟩ := copied
        have hw : ¬ WriteFails env i rec (dest.join rel) t' := fun hw => by
          simp [hfails.2 hw] at hcopied
        obtain ⟨-, -, hsuspect⟩ := writeExtent_of_ok hcopied
        have hverified : (if opts.verify then verifyFile B env i (dest.join rel) hash
            (writeExtent B src env i rec (dest.join rel) { st.world with tree := t' }).2.tree
              else some false) = none ↔ opts.verify = true ∧ env.readBack i = true := by
          rw [← verifyFile_eq_none_iff hash hcopied]
          split <;> simp_all
        simp only [Option.map_some, reduceCtorEq, false_or, Option.some.injEq, exists_eq_left', hw,
          ← hverified]
        cases (if opts.verify then verifyFile B env i (dest.join rel) hash
            (writeExtent B src env i rec (dest.join rel) { st.world with tree := t' }).2.tree
              else some false) with
        | none => simp
        | some verified =>
          refine ⟨iff_of_true rfl (by simp), fun _ => ⟨rfl, ?_⟩⟩
          refine .listed _ _ rfl rfl rfl rfl rfl rfl ?_
          rw [← hsuspect]
          exact listed_full_iff _ _

end Step

/-! ## Both loops -/

section Run

variable {S : Sqlite} {B : Backend} {src : BlockSource σ} {env : RecoverEnv} {dest : FilePath}
  {opts : RecoverOpts} {records : List CarvedRecord} {w : RecoverWorld σ}

namespace Cli

lemma recoverLoop_append_singleton (l : List (CarvedRecord × ℕ)) (rec : CarvedRecord × ℕ)
    (cst : State σ) : recoverLoop B src env dest opts (l ++ [rec]) cst =
      if (recoverLoop B src env dest opts l cst).1 = true then
        recoverOne B src env dest opts (recoverLoop B src env dest opts l cst).2 rec
      else recoverLoop B src env dest opts l cst := by
  induction l generalizing cst with
  | nil =>
    simp only [List.nil_append, recoverLoop, if_true]
    split
    · rename_i hone
      exact Prod.ext hone.symm rfl
    · rfl
  | cons r l ih =>
    simp only [List.cons_append, recoverLoop]
    split
    · exact ih _
    · rfl

/-- The CLI's loop before record `j`: whether it got there, and its state. -/
def before (B : Backend) (src : BlockSource σ) (env : RecoverEnv) (dest : FilePath)
    (opts : RecoverOpts) (records : List CarvedRecord) (w : RecoverWorld σ) (j : ℕ) :
    Bool × State σ :=
  recoverLoop B src env dest opts (records.take j).zipIdx ⟨[], 0, 0, w⟩

lemma before_succ {j : ℕ} (hj : j < records.length) :
    before B src env dest opts records w (j + 1) =
      if (before B src env dest opts records w j).1 = true then
        recoverOne B src env dest opts (before B src env dest opts records w j).2 (records[j], j)
      else before B src env dest opts records w j := by
  unfold before
  rw [List.take_succ_eq_append_getElem hj, List.zipIdx_append, List.zipIdx_singleton,
    List.length_take, min_eq_left hj.le, Nat.zero_add, recoverLoop_append_singleton]

end Cli

variable (B src env dest opts records w) in
/-- Operation failures of record `j`, in the library's run. -/
def FailsIn (j : ℕ) (hj : j < records.length) : Prop :=
  FailsAt env dest opts j records[j] (stateBefore B src env dest opts records w j).world.tree

variable (B src env dest opts records w) in
/-- Record `j` is written and stored as full, but a read of it is flagged. -/
def DriftsIn (j : ℕ) (hj : j < records.length) : Prop :=
  (chooseTarget env dest opts j records[j]
    (stateBefore B src env dest opts records w j).world.tree).1.isSome = true ∧
    records[j].validity = .full ∧
    recordFlagged src records[j] (stateBefore B src env dest opts records w j).world.src = true

variable (B src env dest opts records w) in
/-- The two loops before record `j`, as long as nothing failed. -/
structure Mirrors (j : ℕ) (cst : Cli.State σ) (st : RecoverState σ) : Prop where
  world : cst.world = st.world
  recovered : cst.recovered = st.summary.recovered
  /-- Every record so far was recovered or skipped. -/
  skipped : st.summary.recovered + st.summary.skipped = j
  partialCount :
    (∀ i, ∀ h : i < records.length, i < j → ¬ DriftsIn B src env dest opts records w i h) →
    cst.partialCount = st.summary.partialCount

/-- **Both loops up to a record**: the CLI gets there exactly when nothing failed, and then they
are in step. -/
lemma cli_before (B : Backend) (src : BlockSource σ) (env : RecoverEnv) (dest : FilePath)
    (opts : RecoverOpts) (w : RecoverWorld σ) {j : ℕ} (hj : j ≤ records.length) :
    ((Cli.before B src env dest opts records w j).1 = true ↔
      ∀ i, ∀ h : i < records.length, i < j → ¬ FailsIn B src env dest opts records w i h) ∧
    ((Cli.before B src env dest opts records w j).1 = true →
      Mirrors B src env dest opts records w j (Cli.before B src env dest opts records w j).2
        (stateBefore B src env dest opts records w j)) := by
  induction j with
  | zero =>
    exact ⟨iff_of_true rfl fun i _ hi => absurd hi (Nat.not_lt_zero i),
      fun _ => ⟨rfl, rfl, rfl, fun _ => rfl⟩⟩
  | succ j ih =>
    have hlt : j < records.length := hj
    obtain ⟨hgoes, hmirrors⟩ := ih hlt.le
    have hsplit : (∀ i, ∀ h : i < records.length, i < j + 1 →
        ¬ FailsIn B src env dest opts records w i h) ↔
        (∀ i, ∀ h : i < records.length, i < j → ¬ FailsIn B src env dest opts records w i h) ∧
          ¬ FailsIn B src env dest opts records w j hlt := by
      constructor
      · exact fun h => ⟨fun i hi hij => h i hi (by omega), h j hlt (by omega)⟩
      · rintro ⟨h, hlast⟩ i hi hij
        rcases Nat.lt_succ_iff_lt_or_eq.1 hij with hij | rfl
        · exact h i hi hij
        · exact hlast
    rw [hsplit, ← hgoes, Cli.before_succ hlt, stateBefore_succ hlt]
    split
    · rename_i hgot
      have hm := hmirrors hgot
      obtain ⟨hok, hstep⟩ := cli_recoverOne B src env dest opts j records[j] hm.world
      refine ⟨by rw [hok, FailsIn, hgot]; simp, fun hone => ?_⟩
      obtain ⟨hworld, hin⟩ := hstep hone
      cases hin with
      | skipped _ _ hrec hpart hsum =>
        refine ⟨hworld, ?_, ?_, fun hno => ?_⟩
        · rw [hrec, hsum, hm.recovered]
          rfl
        · have hcount := hm.skipped
          rw [hsum]
          simp only [RecoverSummary.skip]
          omega
        · rw [hpart, hsum, hm.partialCount fun i h hij => hno i h (by omega)]
          rfl
      | listed f g hchosen _ _ hrec hpart hsum hfull =>
        refine ⟨hworld, ?_, ?_, fun hno => ?_⟩
        · rw [hrec, hsum, hm.recovered]
          rfl
        · have hcount := hm.skipped
          rw [hsum]
          simp only [RecoverSummary.add]
          omega
        · have hdrift := hno j hlt (Nat.lt_succ_self j)
          have hsame : f.validity = .full ↔ records[j].validity = .full := by
            rw [hfull, and_iff_left_iff_imp]
            intro hv
            by_contra hflag
            exact hdrift ⟨hchosen, hv, by simpa using hflag⟩
          rw [hpart, hsum, hm.partialCount fun i h hij => hno i h (by omega)]
          exact if_congr hsame.symm rfl rfl
    · rename_i hstop
      exact ⟨iff_of_false hstop fun h => hstop h.1, fun h => absurd h hstop⟩

/-! ## The two runs -/

/-- The CLI asked for results by id. -/
def Cli.RecoverArgs.byIds (dest : FilePath) (ids : List String) (opts : RecoverOpts) :
    RecoverArgs :=
  ⟨dest, some ids, false, .default, opts⟩

/-- Only operations on single files fail. -/
structure PerFileFailures (env : RecoverEnv) : Prop where
  dest : env.createDest = false
  openManifest : env.openManifest = false
  manifestRoom : env.manifestRoom = none

/-- The destination directory is there or can be made. -/
def DestMade (env : RecoverEnv) (dest : FilePath) (w : RecoverWorld σ) : Prop :=
  ∃ tree, w.tree.createDirAll env.resolve dest.ancestors = some tree

/-- No file listed as full has bytes of unreadable sectors; `files j` is what is listed before
record `j`, and `source j` is the source there. -/
def Honest {φ : Type} (src : BlockSource σ) (records : List CarvedRecord) (validity : φ → Validity)
    (files : ℕ → List φ) (source : ℕ → σ) : Prop :=
  ∀ j, ∀ h : j < records.length, ∀ f, files (j + 1) = files j ++ [f] →
    RecordUnreadable src records[j] (source j) → validity f ≠ .full

/-- What the two front ends should have in common for a selection of ids. -/
structure SameRecovery (S : Sqlite) (B : Backend) (src : BlockSource σ) (env : RecoverEnv)
    (text : Cli.ManifestDoc → Bytes) (session sourceId : String) (t : Rows) (dest : FilePath)
    (ids : List String) (opts : RecoverOpts) (w : RecoverWorld σ) : Prop where
  found : ∀ id ∈ ids, (∃ r ∈ query S t (.byIds ids false), r.id = id) ↔
    ∃ r ∈ query S t (.byIds ids true), r.id = id
  /-- No failure of a file ends the CLI's loop; the library's always goes through. -/
  unstopped : DestMade env dest w → (Cli.recoverLoop B src env dest opts
    (query S t (.byIds ids false)).zipIdx ⟨[], 0, 0, withDest env dest w⟩).1 = true
  cliHonest : DestMade env dest w → Honest src (query S t (.byIds ids false)) (·.validity)
    (fun j => (Cli.before B src env dest opts (query S t (.byIds ids false))
      (withDest env dest w) j).2.files)
    fun j => (Cli.before B src env dest opts (query S t (.byIds ids false))
      (withDest env dest w) j).2.world.src
  appHonest : DestMade env dest w → Honest src (query S t (.byIds ids true)) (·.validity)
    (fun j => (stateBefore B src env dest opts (query S t (.byIds ids true))
      (withDest env dest w) j).summary.files)
    fun j => (stateBefore B src env dest opts (query S t (.byIds ids true))
      (withDest env dest w) j).world.src
  /-- Recovered, skipped, and partial or suspect.  The CLI does not print how many it skips: the
  rest of its selection. -/
  counts : ((Cli.recover S B src env text session sourceId t (.byIds dest ids opts) w).1.map
      fun r => (r.recovered, (query S t (.byIds ids false)).length - r.recovered, r.partialCount)) =
    (appRecover S B src env dest sourceId t ids opts w).1.map
      fun s => (s.recovered, s.skipped, s.partialCount)
  /-- The same files with the same bytes; the manifests are not files of the selection. -/
  files : ∀ k ≠ env.resolve (manifestPath dest), ∀ d stamp,
    (Cli.recover S B src env text session sourceId t (.byIds dest ids opts) w).2.tree k =
        some (.file d stamp) ↔
      (appRecover S B src env dest sourceId t ids opts w).2.tree k = some (.file d stamp)

/-- When the two front ends do the same. -/
structure NothingDrifts (S : Sqlite) (B : Backend) (src : BlockSource σ) (env : RecoverEnv)
    (t : Rows) (dest : FilePath) (ids : List String) (opts : RecoverOpts) (w : RecoverWorld σ) :
    Prop where
  unmerged : ∀ r ∈ t.rows, r.id ∈ ids → r.merged = false
  fails : DestMade env dest w → ∀ j h,
    ¬ FailsIn B src env dest opts (query S t (.byIds ids true)) (withDest env dest w) j h
  drifts : DestMade env dest w → ∀ j h,
    ¬ DriftsIn B src env dest opts (query S t (.byIds ids true)) (withDest env dest w) j h
  /-- The CLI recovers nothing, where the app reports an error, only if it cannot say so. -/
  selected : DestMade env dest w → (∀ r ∈ t.rows, r.id ∉ ids) →
    (withDest env dest w).tree (env.resolve (manifestPath dest)) = some .dir

/-- A manifest that can be written is, unless a directory is at its path; nothing else changes. -/
lemma writeManifest_spec (dest : FilePath) (h : PerFileFailures env) (text : Bytes)
    (t : Files FilePath) :
    ((writeManifest env dest text t).1 = true ↔ t (env.resolve (manifestPath dest)) ≠ some .dir) ∧
      ∀ k ≠ env.resolve (manifestPath dest), (writeManifest env dest text t).2 k = t k := by
  unfold writeManifest
  simp only [h.openManifest, h.manifestRoom, Option.any_none, Bool.not_false, if_true,
    Bool.false_eq_true, if_false]
  cases hwrite : t.write env.resolve (manifestPath dest) text with
  | none =>
    refine ⟨iff_of_false (by simp) fun hno => hno ?_, fun _ _ => rfl⟩
    exact Files.write_eq_none_iff.1 hwrite
  | some t' =>
    obtain ⟨stamp, rfl, -⟩ := Files.write_eq_some hwrite
    refine ⟨iff_of_true rfl fun hdir => ?_, fun k hk => Files.put_of_ne _ _ hk⟩
    exact absurd (hwrite.symm.trans (Files.write_eq_none_iff.2 hdir)) (by simp)

section Ends

variable {text : Cli.ManifestDoc → Bytes} {session sourceId : String} {t : Rows}
  {ids : List String}

lemma cli_before_length : Cli.before B src env dest opts records w records.length =
    Cli.recoverLoop B src env dest opts records.zipIdx ⟨[], 0, 0, w⟩ := by
  rw [Cli.before, List.take_length]

/-- Where nothing fails, record `j` takes both loops one step on. -/
lemma cli_step (hno : ∀ i h, ¬ FailsIn B src env dest opts records w i h) {j : ℕ}
    (hj : j < records.length) :
    (Cli.before B src env dest opts records w j).2.world =
        (stateBefore B src env dest opts records w j).world ∧
      InStep src records[j] (chooseTarget env dest opts j records[j]
          (stateBefore B src env dest opts records w j).world.tree).1
        (Cli.before B src env dest opts records w j).2
        (Cli.before B src env dest opts records w (j + 1)).2
        (stateBefore B src env dest opts records w j)
        (stateBefore B src env dest opts records w (j + 1)) := by
  obtain ⟨hgoes, hmirrors⟩ := cli_before B src env dest opts w hj.le
  have hgot := hgoes.2 fun i h _ => hno i h
  have hworld := (hmirrors hgot).world
  obtain ⟨hok, hstep⟩ := cli_recoverOne B src env dest opts j records[j] hworld
  rw [Cli.before_succ hj, if_pos hgot, stateBefore_succ hj]
  exact ⟨hworld, (hstep (hok.2 (hno j hj))).2⟩

/-- What the CLI's run returns and leaves once its loop went through. -/
lemma Cli.recover_of_loop (text : ManifestDoc → Bytes) (session sourceId : String)
    (h : PerFileFailures env) (hmade : DestMade env dest w)
    (hloop : (recoverLoop B src env dest opts (query S t (.byIds ids false)).zipIdx
      ⟨[], 0, 0, withDest env dest w⟩).1 = true) :
    let st := (recoverLoop B src env dest opts (query S t (.byIds ids false)).zipIdx
      ⟨[], 0, 0, withDest env dest w⟩).2
    let run := recover S B src env text session sourceId t (.byIds dest ids opts) w
    (run.1.map fun r => (r.recovered, r.partialCount)) =
        (if st.world.tree (env.resolve (manifestPath dest)) = some .dir then none
          else some (st.recovered, st.partialCount)) ∧
      ∀ k ≠ env.resolve (manifestPath dest), run.2.tree k = st.world.tree k := by
  obtain ⟨tree, htree⟩ := hmade
  have hworld : { w with tree := tree } = withDest env dest w := by
    rw [withDest, Files.createDirAll_eq_some htree]
  have hselect : (RecoverArgs.byIds dest ids opts).selection = some (.byIds ids false) := rfl
  have hd : (RecoverArgs.byIds dest ids opts).dest = dest := rfl
  have ho : (RecoverArgs.byIds dest ids opts).opts = opts := rfl
  simp only [recover, hselect, hd, ho, h.dest, Bool.false_eq_true, if_false, htree, hworld, hloop,
    if_true]
  set st := (recoverLoop B src env dest opts (query S t (.byIds ids false)).zipIdx
      ⟨[], 0, 0, withDest env dest w⟩).2 with hst
  obtain ⟨hok, hrest⟩ := writeManifest_spec dest h
    (text ⟨sourceId, session, st.files.length, st.files⟩) st.world.tree
  refine ⟨?_, hrest⟩
  by_cases hdir : st.world.tree (env.resolve (manifestPath dest)) = some .dir
  · rw [if_neg fun hm => hok.1 hm hdir, if_pos hdir]
    rfl
  · rw [if_pos (hok.2 hdir), if_neg hdir]
    rfl

/-- What the library's run returns and leaves. -/
lemma recoverRecords_of_made (B : Backend) (src : BlockSource σ) (opts : RecoverOpts)
    (records : List CarvedRecord) (sourceId : String) (h : PerFileFailures env)
    (hmade : DestMade env dest w) :
    let st := recoverLoop B src env dest opts records (withDest env dest w)
    let run := recoverRecords B src env dest sourceId records opts w
    run.1 = (if st.world.tree (env.resolve (manifestPath dest)) = some .dir then none
          else some st.summary) ∧
      ∀ k ≠ env.resolve (manifestPath dest), run.2.tree k = st.world.tree k := by
  obtain ⟨tree, htree⟩ := hmade
  have hworld : { w with tree := tree } = withDest env dest w := by
    rw [withDest, Files.createDirAll_eq_some htree]
  simp only [recoverRecords, h.dest, Bool.false_eq_true, if_false, htree, hworld]
  set st := recoverLoop B src env dest opts records (withDest env dest w) with hst
  obtain ⟨hok, hrest⟩ := writeManifest_spec dest h
    (env.manifestText ⟨sourceId, dest, st.summary.recovered, st.summary.partialCount,
      st.summary.verifyFailed, st.summary.files⟩) st.world.tree
  refine ⟨?_, hrest⟩
  by_cases hdir : st.world.tree (env.resolve (manifestPath dest)) = some .dir
  · rw [if_neg fun hm => hok.1 hm hdir, if_pos hdir]
  · rw [if_pos (hok.2 hdir), if_neg hdir]

/-- Where the destination cannot be made neither run does anything. -/
lemma recover_of_not_made (S : Sqlite) (B : Backend) (src : BlockSource σ)
    (text : Cli.ManifestDoc → Bytes) (session sourceId : String) (t : Rows) (ids : List String)
    (opts : RecoverOpts) (hmade : ¬ DestMade env dest w) :
    Cli.recover S B src env text session sourceId t (.byIds dest ids opts) w = (none, w) ∧
      appRecover S B src env dest sourceId t ids opts w = (none, w) := by
  have hnone : w.tree.createDirAll env.resolve dest.ancestors = none := by
    cases htree : w.tree.createDirAll env.resolve dest.ancestors with
    | none => rfl
    | some tree => exact absurd ⟨tree, htree⟩ hmade
  have hd : (Cli.RecoverArgs.byIds dest ids opts).dest = dest := rfl
  have hselect : (Cli.RecoverArgs.byIds dest ids opts).selection = some (.byIds ids false) := rfl
  constructor
  · simp only [Cli.recover, hselect, hd, hnone]
    split <;> rfl
  · simp only [appRecover, recoverRecords, hnone]
    split
    · rfl
    · split
      · rfl
      · split <;> rfl

/-- Selecting nothing, the app does nothing. -/
lemma appRecover_of_nil (h : query S t (.byIds ids true) = []) :
    appRecover S B src env dest sourceId t ids opts w = (none, w) := by
  unfold appRecover
  split
  · rfl
  · rw [if_pos h]

lemma appRecover_of_ne_nil (h : query S t (.byIds ids true) ≠ []) :
    appRecover S B src env dest sourceId t ids opts w =
      recoverRecords B src env dest sourceId (query S t (.byIds ids true)) opts w := by
  have hids : ids ≠ [] := by
    rintro rfl
    exact h rfl
  unfold appRecover
  rw [if_neg hids, if_neg h]

lemma query_eq_nil_iff : query S t (.byIds ids true) = [] ↔ ∀ r ∈ t.rows, r.id ∉ ids := by
  rw [List.eq_nil_iff_forall_not_mem]
  simp only [mem_query_byIds, true_or, and_true, not_and]

/-- Where the two do the same, nothing drifts. -/
lemma SameRecovery.nothingDrifts (henv : PerFileFailures env)
    (hs : SameRecovery S B src env text session sourceId t dest ids opts w) :
    NothingDrifts S B src env t dest ids opts w := by
  have hunmerged : ∀ r ∈ t.rows, r.id ∈ ids → r.merged = false := by
    intro r hr hid
    obtain ⟨r', hr', hsame⟩ := (hs.found r.id hid).2 ⟨r, mem_query_byIds.2 ⟨hr, hid, .inl rfl⟩, rfl⟩
    obtain ⟨hr', -, hmerged⟩ := mem_query_byIds.1 hr'
    obtain rfl := List.inj_on_of_nodup_map t.unique hr' hr hsame
    simpa using hmerged
  have hq := query_byIds_unmerged (S := S) hunmerged
  have hfails : DestMade env dest w → ∀ j h,
      ¬ FailsIn B src env dest opts (query S t (.byIds ids true)) (withDest env dest w) j h := by
    intro hmade j hj
    have hthrough := hs.unstopped hmade
    rw [hq, ← cli_before_length] at hthrough
    exact (cli_before B src env dest opts (withDest env dest w) le_rfl).1.1 hthrough j hj hj
  refine ⟨hunmerged, hfails, fun hmade j hj hdrift => ?_, fun hmade hnone => ?_⟩
  · obtain ⟨hchosen, hfull, hflag⟩ := hdrift
    obtain ⟨hworld, hstep⟩ := cli_step (hfails hmade) hj
    cases hstep with
    | skipped hskip => exact absurd hchosen (by simp [hskip])
    | listed f g _ hfiles hvalid =>
      have hhonest := hs.cliHonest hmade
      rw [hq] at hhonest
      refine hhonest j hj g hfiles ?_ (hvalid.trans hfull)
      dsimp only
      rw [hworld, ← recordFlagged_iff]
      exact hflag
  · -- the app reports an error, so the CLI has to
    have hnil := (query_eq_nil_iff (S := S)).2 hnone
    have hq0 : query S t (.byIds ids false) = [] := hq.trans hnil
    by_contra hdir
    have hcli := (Cli.recover_of_loop text session sourceId henv hmade (hs.unstopped hmade)).1
    have hcounts := hs.counts
    rw [appRecover_of_nil hnil] at hcounts
    rw [Option.map_none, Option.map_eq_none_iff] at hcounts
    rw [hcounts, hq0] at hcli
    exact absurd hcli (by simp [Cli.recoverLoop, hdir])

/-- The files that the library lists are never reported as full on flagged reads. -/
lemma honest_stateBefore (records : List CarvedRecord) (w : RecoverWorld σ) :
    Honest src records RecoveredFile.validity
      (fun j => (stateBefore B src env dest opts records w j).summary.files)
      fun j => (stateBefore B src env dest opts records w j).world.src := by
  intro j hj f hfiles hflag hfull
  dsimp only at hfiles hflag
  rw [stateBefore_succ hj] at hfiles
  have hlisted := ((recoverOne_listed hfiles).2.1 hfull).2
  exact absurd ((recordFlagged_iff.2 hflag).symm.trans hlisted) (by simp)

/-- Where nothing drifts the two do the same. -/
lemma NothingDrifts.sameRecovery (henv : PerFileFailures env)
    (hn : NothingDrifts S B src env t dest ids opts w) :
    SameRecovery S B src env text session sourceId t dest ids opts w := by
  have hq := query_byIds_unmerged (S := S) hn.unmerged
  have hthrough : DestMade env dest w →
    (Cli.before B src env dest opts (query S t (.byIds ids true))
      (withDest env dest w) (query S t (.byIds ids true)).length).1 = true :=
    fun hmade => (cli_before B src env dest opts (withDest env dest w) le_rfl).1.2 fun i h _ =>
      hn.fails hmade i h
  have hunstopped : DestMade env dest w → (Cli.recoverLoop B src env dest opts
      (query S t (.byIds ids false)).zipIdx ⟨[], 0, 0, withDest env dest w⟩).1 = true := by
    intro hmade
    rw [hq, ← cli_before_length]
    exact hthrough hmade
  have hruns : ((Cli.recover S B src env text session sourceId t (.byIds dest ids opts) w).1.map
        fun r =>
          (r.recovered, (query S t (.byIds ids false)).length - r.recovered, r.partialCount)) =
      (appRecover S B src env dest sourceId t ids opts w).1.map
        (fun s => (s.recovered, s.skipped, s.partialCount)) ∧
      ∀ k ≠ env.resolve (manifestPath dest), ∀ d stamp,
        (Cli.recover S B src env text session sourceId t (.byIds dest ids opts) w).2.tree k =
            some (.file d stamp) ↔
          (appRecover S B src env dest sourceId t ids opts w).2.tree k = some (.file d stamp) := by
    by_cases hmade : DestMade env dest w
    · obtain ⟨hcli, hcliFiles⟩ := Cli.recover_of_loop text session sourceId henv hmade
        (hunstopped hmade)
      rw [hq] at hcli hcliFiles ⊢
      by_cases hnil : query S t (.byIds ids true) = []
      · -- both report an error, and no file is touched
        have hdir := hn.selected hmade (query_eq_nil_iff.1 hnil)
        rw [hnil] at hcli hcliFiles ⊢
        simp only [Cli.recoverLoop, List.zipIdx_nil, hdir, if_true] at hcli hcliFiles
        rw [appRecover_of_nil hnil]
        refine ⟨?_, fun k hk d stamp => ?_⟩
        · rw [Option.map_eq_none_iff] at hcli
          rw [hcli]
          rfl
        · rw [hcliFiles k hk]
          exact Files.file_mkdirs_iff _ _ _ _ _
      · obtain ⟨happ, happFiles⟩ := recoverRecords_of_made B src opts
          (query S t (.byIds ids true)) sourceId henv hmade
        have hm := (cli_before B src env dest opts (withDest env dest w) le_rfl).2 (hthrough hmade)
        rw [appRecover_of_ne_nil hnil]
        rw [cli_before_length, stateBefore_length] at hm
        refine ⟨?_, fun k hk d stamp => ?_⟩
        · have hskipped := hm.skipped
          have hpartial := hm.partialCount fun i h _ => hn.drifts hmade i h
          rw [hm.world, hm.recovered, hpartial] at hcli
          have hcounts := congrArg (Option.map fun c : ℕ × ℕ =>
            (c.1, (query S t (.byIds ids true)).length - c.1, c.2)) hcli
          rw [Option.map_map] at hcounts
          apply hcounts.trans
          rw [happ]
          split
          · rfl
          · rw [Option.map_some, Option.map_some, ← hskipped, Nat.add_sub_cancel_left]
        · rw [hcliFiles k hk, happFiles k hk, hm.world]
    · obtain ⟨hcli, happ⟩ := recover_of_not_made S B src text session sourceId t ids opts hmade
      rw [hcli, happ]
      exact ⟨rfl, fun _ _ _ _ => .rfl⟩
  refine ⟨fun id _ => ?_, hunstopped, fun hmade => ?_, fun _ => honest_stateBefore _ _, hruns.1,
    hruns.2⟩
  · rw [hq]
  · rw [hq]
    intro j hj g hfiles hflag hfull
    obtain ⟨hworld, hstep⟩ := cli_step (hn.fails hmade) hj
    dsimp only at hfiles hflag
    cases hstep with
    | skipped _ hsame =>
      have hlen := congrArg List.length (hfiles.symm.trans hsame)
      simp at hlen
    | listed f g' hchosen hsame hvalid =>
      obtain rfl := List.singleton_inj.1 (List.append_cancel_left (hfiles.symm.trans hsame))
      refine hn.drifts hmade j hj ⟨hchosen, hvalid.symm.trans hfull, ?_⟩
      rw [← hworld, recordFlagged_iff]
      exact hflag

/-- **When the two front ends agree.**  However single files fail, the CLI and the app recover the
same from a selection of ids if and only if no selected row is merged, no operation on a file
fails, no file of a record stored as full has a flagged read, and something is selected. -/
theorem sameRecovery_iff (henv : PerFileFailures env) :
    SameRecovery S B src env text session sourceId t dest ids opts w ↔
      NothingDrifts S B src env t dest ids opts w :=
  ⟨fun hs => hs.nothingDrifts henv, fun hn => hn.sameRecovery henv⟩

end Ends

end Run

/-! ## One file on a good and on a bad sector -/

/-- Rows with one offset come in the order in which they were inserted. -/
def Sqlite.stable : Sqlite where
  order := List.insertionSort fun r r' => asI64 r.offset ≤ asI64 r'.offset
  perm := List.perm_insertionSort _
  sorted rows := by
    have : Std.Total fun r r' : CarvedRecord => asI64 r.offset ≤ asI64 r'.offset :=
      ⟨fun r r' => le_total _ _⟩
    have : IsTrans CarvedRecord fun r r' => asI64 r.offset ≤ asI64 r'.offset :=
      ⟨fun _ _ _ => le_trans⟩
    exact List.pairwise_insertionSort _ rows

/-- A store with one row. -/
def oneRow : Rows := ⟨[byteRecord "a"], List.nodup_singleton _⟩

/-- A source of one byte in a bad sector. -/
def badByte : BlockSource Unit :=
  ({ SectorTable.solid 1 1 1 byte_le_u64Max byte_le_u32Max Nat.one_pos with
    status := fun _ _ => .bad } : SectorTable Unit).source

/-- From a good sector the two recover the same. -/
theorem oneByte_sameRecovery : SameRecovery .stable .plain oneByte (.quiet fun _ => [])
    (fun _ => []) "/s" "src" oneRow ⟨true, ["d"]⟩ ["a"] copyOnly emptyDest := by
  have hselect : query .stable oneRow (.byIds ["a"] true) = [byteRecord "a"] := rfl
  have hparent : (createParent (.quiet fun _ => []) 0
      (FilePath.join ⟨true, ["d"]⟩ (outRelPath (byteRecord "a") true false))
      (withDest (.quiet fun _ => []) ⟨true, ["d"]⟩ emptyDest).tree).1 = some () := by decide
  have htarget : (chooseTarget (.quiet fun _ => []) ⟨true, ["d"]⟩ copyOnly 0 (byteRecord "a")
      (withDest (.quiet fun _ => []) ⟨true, ["d"]⟩ emptyDest).tree).1 = some ["a"] := by decide
  have hplace : (chooseTarget (.quiet fun _ => []) ⟨true, ["d"]⟩ copyOnly 0 (byteRecord "a")
      (withDest (.quiet fun _ => []) ⟨true, ["d"]⟩ emptyDest).tree).2
        ((RecoverEnv.quiet fun _ => []).resolve (FilePath.join ⟨true, ["d"]⟩ ["a"])) =
          none := by decide
  refine (sameRecovery_iff ⟨rfl, rfl, rfl⟩).2 ⟨by decide, ?_, ?_, ?_⟩
  · rw [hselect]
    rintro _ j hj hfails
    obtain rfl : j = 0 := Nat.lt_one_iff.1 hj
    have hfails : FailsAt (.quiet fun _ => []) ⟨true, ["d"]⟩ copyOnly 0 (byteRecord "a")
        (withDest (.quiet fun _ => []) ⟨true, ["d"]⟩ emptyDest).tree := hfails
    rcases hfails with hdir | ⟨rel, hrel, hwrite | ⟨hverify, -⟩⟩
    · exact absurd (hparent.symm.trans hdir) (by simp)
    · obtain rfl : ["a"] = rel := Option.some.inj (htarget.symm.trans hrel)
      rcases hwrite with hopen | hdir | ⟨k, hk, -⟩ | hflush
      · exact absurd hopen (by decide)
      · exact absurd (hplace.symm.trans hdir) (by simp)
      · exact absurd hk (by simp [RecoverEnv.quiet])
      · exact absurd hflush (by decide)
    · exact absurd hverify (by decide)
  · rw [hselect]
    rintro _ j hj ⟨-, -, hflag⟩
    obtain rfl : j = 0 := Nat.lt_one_iff.1 hj
    have hflag : recordFlagged oneByte (byteRecord "a") () = true := hflag
    exact absurd hflag (by decide)
  · intro _ hnone
    exact absurd (hnone (byteRecord "a") (by decide)) (by decide)

/-- **From a bad sector the CLI recovers a full file, the app a suspect one.** -/
theorem badByte_counterexample : ¬ SameRecovery .stable .plain badByte (.quiet fun _ => [])
    (fun _ => []) "/s" "src" oneRow ⟨true, ["d"]⟩ ["a"] copyOnly emptyDest := by
  intro h
  have hcli : ((Cli.recover .stable .plain badByte (.quiet fun _ => []) (fun _ => []) "/s" "src"
      oneRow (.byIds ⟨true, ["d"]⟩ ["a"] copyOnly) emptyDest).1.map fun r => r.partialCount) =
        some 0 := rfl
  have happ : ((appRecover .stable .plain badByte (.quiet fun _ => []) ⟨true, ["d"]⟩ "src" oneRow
      ["a"] copyOnly emptyDest).1.map fun s => s.partialCount) = some 1 := rfl
  have hcounts := congrArg (Option.map fun c : ℕ × ℕ × ℕ => c.2.2) h.counts
  rw [Option.map_map, Option.map_map] at hcounts
  exact absurd (hcli.symm.trans (hcounts.trans happ)) (by decide)

end Reclaim
