import Reclaim.Block.SectorTable
import Reclaim.Session.Recover

/-!
# What a recovery leaves at the destination

Under the `rename` and `skip` policies every record is written to a path where nothing was, so
each step of the loop keeps every file there is (`recoverOne_keeps`), and a listed file is never
touched again by the loop.  The manifest is written last, and whatever is at its path is
truncated.

`recover_preserves_iff` says when a run that returns leaves every listed file as it was written
and changes no file that was there before or was written earlier in the run: exactly when no file
was at the manifest's path and no record was written there.
-/

namespace Reclaim

open FileBytes FileTree Paths

variable {σ : Type}

/-! ## What a copy writes -/

/-- Read windows one after the other: the bytes, and whether any was flagged. -/
def readWindows (src : BlockSource σ) : List (ℕ × ℕ) → σ → (Bytes × Bool) × σ
  | [], s => (([], false), s)
  | (off, n) :: rest, s =>
    let r := SourceReader.readFlags src off n s
    let more := readWindows src rest r.2
    ((r.1.1 ++ more.1.1, r.1.2 || more.1.2), more.2)

/-- The bytes of a record's extents, as the source answers from `s` on. -/
def recordBytes (src : BlockSource σ) (rec : CarvedRecord) (s : σ) : Bytes :=
  (readWindows src (rec.extents.flatMap Extent.windows) s).1.1

/-- Some read of a record's extents is flagged. -/
def recordFlagged (src : BlockSource σ) (rec : CarvedRecord) (s : σ) : Bool :=
  (readWindows src (rec.extents.flatMap Extent.windows) s).1.2

/-- A copy that no write stops writes and hashes what it reads. -/
lemma copyWindows_of_ok {src : BlockSource σ} {room : Option ℕ} (ws : List (ℕ × ℕ)) (c : Copy)
    (s : σ) (h : (copyWindows src room ws c s).1.1 = true) :
    let r := readWindows src ws s
    copyWindows src room ws c s = ((true, ⟨c.written ++ r.1.1,
      ⟨c.digest.algo, c.digest.fed ++ r.1.1⟩, c.suspect || r.1.2⟩), r.2) := by
  induction ws generalizing c s with
  | nil => simp [copyWindows, readWindows]
  | cons w ws ih =>
    obtain ⟨off, n⟩ := w
    simp only [copyWindows] at h ⊢
    split at h
    · exact absurd h (by simp)
    · rename_i hroom
      rw [if_neg hroom, ih _ _ h]
      simp [readWindows, Digest.update, Bool.or_assoc]

section Step

variable {B : Backend} {src : BlockSource σ} {env : RecoverEnv} {dest : FilePath}
  {opts : RecoverOpts} {i : ℕ} {rec : CarvedRecord} {rel rel' : List String} {t : Files FilePath}
  {w : RecoverWorld σ} {st : RecoverState σ}

/-- Under `rename` and `skip` the path chosen is free. -/
lemma resolveCollision_free (hpolicy : opts.collision ≠ .overwrite)
    (h : resolveCollision env dest rel opts.collision t = some rel') :
    t (env.resolve (dest.join rel')) = none := by
  apply Files.occupied_eq_false.1
  unfold resolveCollision at h
  split at h
  · cases hc : opts.collision with
    | overwrite => exact absurd hc hpolicy
    | skip =>
      rw [hc] at h
      exact absurd h (by simp)
    | rename =>
      rw [hc] at h
      simpa using List.find?_some h
  · rename_i hfree
    obtain rfl := Option.some.inj h
    exact Bool.eq_false_iff.2 hfree

/-- Making a directory, or failing to, keeps every file and makes none. -/
lemma createParent_keeps (env : RecoverEnv) (i : ℕ) (path : FilePath) (t : Files FilePath) :
    t.Keeps (createParent env i path t).2 ∧
      ∀ k, (createParent env i path t).2.isFile k = t.isFile k := by
  unfold createParent
  cases path.parent with
  | none => exact ⟨.refl t, fun _ => rfl⟩
  | some parent =>
    dsimp only
    split
    · exact ⟨Files.keeps_mkdirs t _, Files.isFile_mkdirs t _⟩
    · cases h : t.createDirAll env.resolve parent.ancestors with
      | none => exact ⟨.refl t, fun _ => rfl⟩
      | some t' =>
        rw [Files.createDirAll_eq_some h]
        exact ⟨Files.keeps_mkdirs t _, Files.isFile_mkdirs t _⟩

/-- Choosing a path keeps every file, makes none, and under `rename` and `skip` finds a free
path. -/
lemma chooseTarget_spec (env : RecoverEnv) (dest : FilePath) (i : ℕ) (rec : CarvedRecord)
    (t : Files FilePath) (hpolicy : opts.collision ≠ .overwrite) :
    t.Keeps (chooseTarget env dest opts i rec t).2 ∧
      (∀ k, (chooseTarget env dest opts i rec t).2.isFile k = t.isFile k) ∧
      ∀ rel, (chooseTarget env dest opts i rec t).1 = some rel →
        (chooseTarget env dest opts i rec t).2 (env.resolve (dest.join rel)) = none := by
  obtain ⟨hkeeps, hfile⟩ := createParent_keeps env i
    (dest.join (outRelPath rec opts.preservePaths opts.flat)) t
  simp only [chooseTarget]
  split
  · exact ⟨.refl t, fun _ => rfl, fun rel h => absurd h (by simp)⟩
  · split
    · exact ⟨hkeeps, hfile, fun rel h => absurd h (by simp)⟩
    · exact ⟨hkeeps, hfile, fun rel h => resolveCollision_free hpolicy h⟩

/-- A copy that succeeds leaves the record's bytes at its path, whatever was there. -/
lemma writeExtent_of_ok {path : FilePath} {hash : String} {suspect : Bool}
    (h : (writeExtent B src env i rec path w).1 = some (hash, suspect)) :
    (∃ stamp, (writeExtent B src env i rec path w).2.tree (env.resolve path) =
        some (.file (recordBytes src rec w.src) stamp)) ∧
      hash = B.hash .blake3 (recordBytes src rec w.src) ∧
      suspect = recordFlagged src rec w.src := by
  simp only [writeExtent] at h ⊢
  split at h
  · exact absurd h (by simp)
  · rename_i hopen
    rw [if_neg hopen]
    split at h
    · exact absurd h (by simp)
    · rename_i t' hwrite
      dsimp only at h ⊢
      split at h
      · rename_i hok
        have hcopy := copyWindows_of_ok _ _ _ (Bool.and_eq_true_iff.1 hok).1
        obtain ⟨stamp, rfl, -⟩ := Files.write_eq_some hwrite
        simp only [Option.some.injEq, Prod.mk.injEq] at h
        rw [hcopy] at h ⊢
        simp only [List.nil_append, Bool.false_or, Digest.finalizeHex, Digest.new] at h ⊢
        exact ⟨⟨stamp, Files.put_self _ _ _⟩, h.1.symm, h.2.symm⟩
      · exact absurd h (by simp)

/-- What writing a record to a free path does: nothing if the file cannot be opened, else a file
is made. -/
lemma writeExtent_of_free (B : Backend) (src : BlockSource σ) (i : ℕ) (rec : CarvedRecord)
    (w : RecoverWorld σ) {path : FilePath} (hfree : w.tree (env.resolve path) = none) :
    (env.openFile i = true ∧ writeExtent B src env i rec path w = (none, w)) ∨
      (env.openFile i = false ∧ ∃ d, (writeExtent B src env i rec path w).2.tree =
          w.tree.put (env.resolve path) (.file d 0)) := by
  unfold writeExtent
  cases hopen : env.openFile i with
  | true => exact .inl ⟨rfl, by simp⟩
  | false =>
    refine .inr ⟨rfl, ?_⟩
    simp only [Bool.false_eq_true, if_false, Files.write_of_none hfree]
    exact ⟨_, rfl⟩

/-- Record `i` is written to the place `k`. -/
def Lands (env : RecoverEnv) (dest : FilePath) (opts : RecoverOpts) (i : ℕ) (rec : CarvedRecord)
    (t : Files FilePath) (k : FilePath) : Prop :=
  env.openFile i = false ∧ ∃ rel, (chooseTarget env dest opts i rec t).1 = some rel ∧
    env.resolve (dest.join rel) = k

/-- The file listed for a record is at its path, with the record's bytes as the source answered
them, and with their hash. -/
def FileHolds (B : Backend) (src : BlockSource σ) (env : RecoverEnv) (dest : FilePath)
    (t : Files FilePath) (rec : CarvedRecord) (f : RecoveredFile) : Prop :=
  f.id = rec.id ∧ ∃ s stamp, t (env.resolve (dest.join f.path)) =
    some (.file (recordBytes src rec s) stamp) ∧
      f.blake3 = B.hash .blake3 (recordBytes src rec s)

lemma FileHolds.keeps {t' : Files FilePath} {f : RecoveredFile}
    (h : FileHolds B src env dest t rec f)
    (hk : t.Keeps t') : FileHolds B src env dest t' rec f := by
  obtain ⟨hid, s, stamp, hfile, hhash⟩ := h
  exact ⟨hid, s, stamp, hk _ _ _ hfile, hhash⟩

/-- **What one record does**: every file is kept, a file is made where the record is written, and
if the record is listed its file holds it. -/
lemma recoverOne_spec (B : Backend) (src : BlockSource σ) (env : RecoverEnv) (dest : FilePath)
    (hpolicy : opts.collision ≠ .overwrite) (st : RecoverState σ) (rec : CarvedRecord) (i : ℕ) :
    let st' := recoverOne B src env dest opts st (rec, i)
    st.world.tree.Keeps st'.world.tree ∧
      (∀ k, st'.world.tree.isFile k = true ↔
        st.world.tree.isFile k = true ∨ Lands env dest opts i rec st.world.tree k) ∧
      (st'.summary.files = st.summary.files ∨ ∃ f,
        st'.summary.files = st.summary.files ++ [f] ∧
          FileHolds B src env dest st'.world.tree rec f) := by
  obtain ⟨hkeeps, hfile, hfree⟩ := chooseTarget_spec env dest i rec st.world.tree hpolicy
  simp only [recoverOne]
  split
  · -- skipped before its file is opened
    rename_i hnone
    refine ⟨hkeeps, fun k => ?_, .inl rfl⟩
    rw [hfile, iff_self_or]
    rintro ⟨-, rel, hrel, -⟩
    exact absurd (hnone.symm.trans hrel) (by simp)
  · rename_i rel hrel
    set t' := (chooseTarget env dest opts i rec st.world.tree).2 with ht'
    have hrelfree := hfree rel hrel
    have hlands : ∀ k, Lands env dest opts i rec st.world.tree k ↔
        env.openFile i = false ∧ env.resolve (dest.join rel) = k := by
      intro k
      refine and_congr_right fun _ => ⟨?_, fun h => ⟨rel, hrel, h⟩⟩
      rintro ⟨rel', hrel', h⟩
      obtain rfl := Option.some.inj (hrel.symm.trans hrel')
      exact h
    rcases writeExtent_of_free B src i rec { st.world with tree := t' } hrelfree with
      ⟨hopen, hwrite⟩ | ⟨hopen, d, htree⟩
    · -- the file cannot be opened
      rw [hwrite]
      refine ⟨hkeeps, fun k => ?_, .inl rfl⟩
      rw [hfile, iff_self_or, hlands, hopen]
      exact fun h => absurd h.1 (by simp)
    · have hput : st.world.tree.Keeps (t'.put (env.resolve (dest.join rel)) (.file d 0)) :=
        hkeeps.trans (Files.keeps_put hrelfree)
      have hisFile : ∀ k, (t'.put (env.resolve (dest.join rel)) (.file d 0)).isFile k = true ↔
          st.world.tree.isFile k = true ∨ Lands env dest opts i rec st.world.tree k := by
        intro k
        rw [hlands, ← hfile, Files.isFile_put_file]
        simp only [hopen, true_and, eq_comm]
        exact or_comm
      split
      · -- the copy failed
        rw [htree]
        exact ⟨hput, hisFile, .inl rfl⟩
      · rename_i hash suspect hcopied
        obtain ⟨⟨stamp, hfile⟩, hhash, -⟩ := writeExtent_of_ok hcopied
        exact ⟨htree ▸ hput, htree ▸ hisFile,
          .inr ⟨_, rfl, rfl, st.world.src, stamp, hfile, hhash⟩⟩

end Step

/-! ## The run -/

section Run

variable {B : Backend} {src : BlockSource σ} {env : RecoverEnv} {dest : FilePath}
  {sourceId : String} {opts : RecoverOpts} {records : List CarvedRecord} {w : RecoverWorld σ}
  {summary : RecoverSummary}

lemma recoverLoop_nil : recoverLoop B src env dest opts [] w = ⟨⟨0, 0, 0, 0, 0, []⟩, w⟩ := rfl

lemma recoverLoop_append_singleton (records : List CarvedRecord) (rec : CarvedRecord) :
    recoverLoop B src env dest opts (records ++ [rec]) w =
      recoverOne B src env dest opts (recoverLoop B src env dest opts records w)
        (rec, records.length) := by
  simp [recoverLoop, List.zipIdx_append, List.foldl_append]

/-- The state before record `i`. -/
def stateBefore (B : Backend) (src : BlockSource σ) (env : RecoverEnv) (dest : FilePath)
    (opts : RecoverOpts) (records : List CarvedRecord) (w : RecoverWorld σ) (i : ℕ) :
    RecoverState σ :=
  recoverLoop B src env dest opts (records.take i) w

lemma stateBefore_succ {i : ℕ} (hi : i < records.length) :
    stateBefore B src env dest opts records w (i + 1) =
      recoverOne B src env dest opts (stateBefore B src env dest opts records w i)
        (records[i], i) := by
  unfold stateBefore
  rw [List.take_succ_eq_append_getElem hi, recoverLoop_append_singleton, List.length_take,
    min_eq_left hi.le]

lemma stateBefore_length : stateBefore B src env dest opts records w records.length =
    recoverLoop B src env dest opts records w := by
  rw [stateBefore, List.take_length]

/-- What later records do keeps every file. -/
lemma stateBefore_keeps (hpolicy : opts.collision ≠ .overwrite) {i j : ℕ} (hij : i ≤ j)
    (hj : j ≤ records.length) :
    (stateBefore B src env dest opts records w i).world.tree.Keeps
      (stateBefore B src env dest opts records w j).world.tree := by
  induction j, hij using Nat.le_induction with
  | base => exact .refl _
  | succ j hij ih =>
    rw [stateBefore_succ hj]
    exact (ih (by omega)).trans (recoverOne_spec B src env dest hpolicy _ _ _).1

/-- Every listed file is there before every later record. -/
lemma stateBefore_files (hpolicy : opts.collision ≠ .overwrite) {j : ℕ}
    (hj : j ≤ records.length) :
    ∀ f ∈ (stateBefore B src env dest opts records w j).summary.files, ∃ rec ∈ records,
      FileHolds B src env dest (stateBefore B src env dest opts records w j).world.tree rec f := by
  induction j with
  | zero =>
    intro f hf
    exact absurd hf (by simp [stateBefore, recoverLoop_nil])
  | succ j ih =>
    intro f hf
    have hlt : j < records.length := hj
    rw [stateBefore_succ hlt] at hf ⊢
    obtain ⟨hkeeps, -, hfiles⟩ := recoverOne_spec B src env dest hpolicy
      (stateBefore B src env dest opts records w j) records[j] j
    have hold : ∀ f ∈ (stateBefore B src env dest opts records w j).summary.files,
        ∃ rec ∈ records, FileHolds B src env dest (recoverOne B src env dest opts
          (stateBefore B src env dest opts records w j) (records[j], j)).world.tree rec f := by
      intro f hf
      obtain ⟨rec, hrec, hholds⟩ := ih hlt.le f hf
      exact ⟨rec, hrec, hholds.keeps hkeeps⟩
    rcases hfiles with hsame | ⟨g, hadd, hholds⟩
    · exact hold f (hsame ▸ hf)
    · rw [hadd] at hf
      rcases List.mem_append.1 hf with hf | hf
      · exact hold f hf
      · obtain rfl := List.mem_singleton.1 hf
        exact ⟨records[j], List.getElem_mem hlt, hholds⟩

/-- A place holds a file exactly when it did at the start or a record was written to it. -/
lemma stateBefore_isFile (B : Backend) (src : BlockSource σ) (env : RecoverEnv) (dest : FilePath)
    (w : RecoverWorld σ) (hpolicy : opts.collision ≠ .overwrite) (k : FilePath) {j : ℕ}
    (hj : j ≤ records.length) :
    (stateBefore B src env dest opts records w j).world.tree.isFile k = true ↔
      w.tree.isFile k = true ∨ ∃ i, ∃ h : i < records.length, i < j ∧ Lands env dest opts i
        records[i] (stateBefore B src env dest opts records w i).world.tree k := by
  induction j with
  | zero => simp [stateBefore, recoverLoop_nil]
  | succ j ih =>
    have hlt : j < records.length := hj
    obtain ⟨-, hisFile, -⟩ := recoverOne_spec B src env dest hpolicy
      (stateBefore B src env dest opts records w j) records[j] j
    rw [stateBefore_succ hlt, hisFile, ih hlt.le]
    constructor
    · rintro ((h | ⟨i, hi, hij, hl⟩) | hl)
      · exact .inl h
      · exact .inr ⟨i, hi, Nat.lt_succ_of_lt hij, hl⟩
      · exact .inr ⟨j, hlt, Nat.lt_succ_self j, hl⟩
    · rintro (h | ⟨i, hi, hij, hl⟩)
      · exact .inl (.inl h)
      · rcases Nat.lt_succ_iff_lt_or_eq.1 hij with hij | rfl
        · exact .inl (.inr ⟨i, hi, hij, hl⟩)
        · exact .inr hl

/-- The world once the destination directory is made. -/
def withDest (env : RecoverEnv) (dest : FilePath) (w : RecoverWorld σ) : RecoverWorld σ :=
  { w with tree := w.tree.mkdirs env.resolve dest.ancestors.reverse }

/-- What a run should leave: every listed file holds its record's bytes, and no file that was
there before the run, or before any of its steps, is changed. -/
structure Preserves (B : Backend) (src : BlockSource σ) (env : RecoverEnv) (dest : FilePath)
    (opts : RecoverOpts) (records : List CarvedRecord) (w : RecoverWorld σ)
    (summary : RecoverSummary) (final : Files FilePath) : Prop where
  listed : ∀ f ∈ summary.files, ∃ rec ∈ records, FileHolds B src env dest final rec f
  existing : w.tree.Keeps final
  earlier : ∀ i ≤ records.length,
    (stateBefore B src env dest opts records (withDest env dest w) i).world.tree.Keeps final

/-- No file is at the manifest's path when the run begins, and no record is written there. -/
def ManifestFree (B : Backend) (src : BlockSource σ) (env : RecoverEnv) (dest : FilePath)
    (opts : RecoverOpts) (records : List CarvedRecord) (w : RecoverWorld σ) : Prop :=
  w.tree.isFile (env.resolve (manifestPath dest)) = false ∧
    ∀ i, ∀ h : i < records.length, ¬ Lands env dest opts i records[i]
      (stateBefore B src env dest opts records (withDest env dest w) i).world.tree
      (env.resolve (manifestPath dest))

/-- What a run that returns did: the loop, and a manifest written whole. -/
lemma recoverRecords_ok (h : (recoverRecords B src env dest sourceId records opts w).1 =
    some summary) :
    summary = (recoverLoop B src env dest opts records (withDest env dest w)).summary ∧
      ∃ text, (recoverLoop B src env dest opts records (withDest env dest w)).world.tree.write
        env.resolve (manifestPath dest) text =
          some (recoverRecords B src env dest sourceId records opts w).2.tree := by
  unfold recoverRecords at h ⊢
  split at h
  · exact absurd h (by simp)
  · rename_i hdest
    rw [if_neg hdest]
    cases hdir : w.tree.createDirAll env.resolve dest.ancestors with
    | none =>
      rw [hdir] at h
      exact absurd h (by simp)
    | some tree =>
      rw [hdir] at h
      dsimp only at h ⊢
      have hworld : { w with tree := tree } = withDest env dest w := by
        rw [withDest, Files.createDirAll_eq_some hdir]
      rw [hworld] at h ⊢
      split at h
      · rename_i hm
        refine ⟨(Option.some.inj h).symm, ?_⟩
        unfold writeManifest at hm ⊢
        split at hm
        · exact absurd hm (by simp)
        · rename_i hopen
          simp only [if_neg hopen] at hm ⊢
          split at hm
          · exact absurd hm (by simp)
          · rename_i t' hw
            exact ⟨_, hw⟩
      · exact absurd h (by simp)

/-- **When a recovery leaves every other file alone.**  Under `rename` and `skip`, a run that
returns leaves every listed file with its record's bytes and hash, and changes no file that was
there before it or before any of its steps, if and only if no file was at the manifest's path and
no record was written there. -/
theorem recover_preserves_iff (hpolicy : opts.collision ≠ .overwrite)
    (h : (recoverRecords B src env dest sourceId records opts w).1 = some summary) :
    Preserves B src env dest opts records w summary
        (recoverRecords B src env dest sourceId records opts w).2.tree ↔
      ManifestFree B src env dest opts records w := by
  obtain ⟨hsummary, text, hwrite⟩ := recoverRecords_ok h
  have hkeeps := Files.keeps_write_iff hwrite
  have hend : stateBefore B src env dest opts records (withDest env dest w) records.length =
      recoverLoop B src env dest opts records (withDest env dest w) := stateBefore_length
  have hfree : (recoverLoop B src env dest opts records (withDest env dest w)).world.tree.isFile
      (env.resolve (manifestPath dest)) = false ↔ ManifestFree B src env dest opts records w := by
    have hiff := stateBefore_isFile B src env dest (withDest env dest w) hpolicy
      (env.resolve (manifestPath dest)) (le_refl records.length)
    rw [hend] at hiff
    have hstart : (withDest env dest w).tree.isFile (env.resolve (manifestPath dest)) =
        w.tree.isFile (env.resolve (manifestPath dest)) := Files.isFile_mkdirs _ _ _
    rw [← Bool.not_eq_true, hiff, hstart, not_or, Bool.not_eq_true, ManifestFree]
    apply and_congr_right
    intro _
    simp only [not_exists, not_and]
    exact ⟨fun hno i hi => hno i hi hi, fun hno i hi _ => hno i hi⟩
  rw [← hfree, ← hkeeps]
  constructor
  · intro hp
    rw [← hend]
    exact hp.earlier records.length le_rfl
  · intro hk
    have hearlier : ∀ i ≤ records.length, (stateBefore B src env dest opts records
        (withDest env dest w) i).world.tree.Keeps
          (recoverRecords B src env dest sourceId records opts w).2.tree := by
      intro i hi
      refine (stateBefore_keeps hpolicy hi le_rfl).trans ?_
      rw [hend]
      exact hk
    refine ⟨fun f hf => ?_, ?_, hearlier⟩
    · rw [hsummary, ← hend] at hf
      obtain ⟨rec, hrec, hholds⟩ := stateBefore_files hpolicy le_rfl f hf
      exact ⟨rec, hrec, hholds.keeps (hearlier records.length le_rfl)⟩
    · exact (Files.keeps_mkdirs w.tree dest.ancestors.reverse).trans
        (hearlier 0 (Nat.zero_le _))

end Run

/-! ## A record that is called like the manifest -/

/-- A deleted file of one byte, found at the start of the source under a path. -/
def byteRecord (path : String) : CarvedRecord where
  id := "a"
  sourceId := "src"
  engine := "ntfs"
  offset := 0
  len := 1
  format := "file"
  family := "other"
  ext := ""
  validity := .full
  name := some path
  date := none
  model := none
  path := some path
  state := some "deleted"
  extentsJson := some [⟨0, 1⟩]
  merged := false

/-- The defaults of the source, without reading back. -/
def copyOnly : RecoverOpts where
  preservePaths := true
  flat := false
  collision := .rename
  verify := false

/-- Nothing fails, and every path is its own place. -/
def RecoverEnv.quiet (text : Manifest → Bytes) : RecoverEnv where
  resolve := id
  createDest := false
  createDir := fun _ => false
  dirsMade := fun _ => 0
  openFile := fun _ => false
  room := fun _ => none
  flush := fun _ => false
  readBack := fun _ => false
  openManifest := false
  manifestRoom := none
  manifestText := text

/-- The manifest of one recovered file, `verified` being null. -/
def byteManifest (path : String) : String :=
  "\x7b\n  \"count\": 1,\n  \"dest\": \"/d\",\n  \"files\": [\n    \x7b\n" ++
  "      \"blake3\": \"\\u0001\",\n      \"id\": \"a\",\n      \"len\": 1,\n" ++
  "      \"path\": \"" ++ path ++ "\",\n      \"validity\": \"full\",\n" ++
  "      \"verified\": null\n    \x7d\n  ],\n  \"partial\": 0,\n" ++
  "  \"source_id\": \"src\",\n  \"verify_failed\": 0\n\x7d"

/-- An empty destination `/d`, and the source. -/
def emptyDest : RecoverWorld Unit := ⟨fun _ => none, ()⟩

/-- Recovering one file under the given path to `/d`. -/
def recoverByte (path : String) : Option RecoverSummary × RecoverWorld Unit :=
  recoverRecords .plain oneByte (.quiet fun _ => utf8 (byteManifest path)) ⟨true, ["d"]⟩ "src"
    [byteRecord path] copyOnly emptyDest

/-- Under another name than the manifest's the file stays as it was written. -/
theorem recoverByte_preserves : ∃ summary, (recoverByte "a").1 = some summary ∧
    Preserves .plain oneByte (.quiet fun _ => utf8 (byteManifest "a")) ⟨true, ["d"]⟩ copyOnly
      [byteRecord "a"] emptyDest summary (recoverByte "a").2.tree := by
  have htarget : (chooseTarget (.quiet fun _ => utf8 (byteManifest "a")) ⟨true, ["d"]⟩ copyOnly 0
      (byteRecord "a") (withDest (.quiet fun _ => utf8 (byteManifest "a")) ⟨true, ["d"]⟩
        emptyDest).tree).1 = some ["a"] := by decide
  refine ⟨_, rfl, (recover_preserves_iff (by decide) rfl).2 ⟨rfl, ?_⟩⟩
  rintro i hi ⟨-, rel, hrel, hplace⟩
  obtain rfl : i = 0 := Nat.lt_one_iff.1 hi
  obtain rfl : ["a"] = rel := Option.some.inj (htarget.symm.trans hrel)
  exact absurd hplace (by decide)

/-- **A recovered file called `manifest.json` is overwritten by the manifest.** -/
theorem manifest_counterexample : copyOnly.collision ≠ .overwrite ∧
    ∃ summary, (recoverByte "manifest.json").1 = some summary ∧
      ¬ Preserves .plain oneByte (.quiet fun _ => utf8 (byteManifest "manifest.json"))
        ⟨true, ["d"]⟩ copyOnly [byteRecord "manifest.json"] emptyDest summary
        (recoverByte "manifest.json").2.tree := by
  refine ⟨by decide, _, rfl, fun hp => ?_⟩
  -- the file as it was written, before the manifest
  have hkept := hp.earlier 1 le_rfl ⟨true, ["d", "manifest.json"]⟩ [1] 0 rfl
  have hfinal : (recoverByte "manifest.json").2.tree ⟨true, ["d", "manifest.json"]⟩ =
      some (.file (utf8 (byteManifest "manifest.json")) 1) := rfl
  have hstamp := hkept.symm.trans hfinal
  simp at hstamp

end Reclaim
