import Reclaim.Session.FrontEndsAgree
import Reclaim.Session.Mounted

/-!
# Whether a mounted file is found again

The walk goes through every directory it can read, as far as its budget lasts, and each row comes
from a file (`mountedWalk_spec`).  The row's path leads back to the file when the names on the way
are texts without a backslash; any other name is spelled differently, and the path leads elsewhere
unless a symbolic link happens to lead back.

`mounted_found_iff` says so of every row that is stored, and that a file the manifest lists is
rightly marked as verified only when verification was not asked for: nothing is read back.
-/

namespace Reclaim

open DirTree FileBytes FileTree Paths

/-! ## The walk -/

section Walk

variable {sigs : List SigDef} {v : DirTree.Volume} {env : WalkEnv} {base : List Name}

/-- What a row says of the file it came from. -/
def FromFile (sigs : List SigDef) (v : DirTree.Volume) (base path : List Name) (row : EntryRow) :
    Prop :=
  path ≠ [] ∧ ∃ data len, v.root.locate (base ++ path) = some (.file data) ∧
    row = mountedRow sigs path len

lemma readDir_spec {dir : List Name} {e : Name × DirTree.Node} (he : e ∈ readDir v env base dir) :
    ∃ entries, v.root.locate (base ++ dir) = some (.dir entries) ∧
      readDir v env base dir = entries := by
  unfold readDir at he ⊢
  split at he
  · rename_i hopen
    split at he
    · rename_i entries hdir
      exact ⟨entries, hdir, by rw [if_pos hopen]⟩
    · exact absurd he List.not_mem_nil
  · exact absurd he List.not_mem_nil

/-- An entry adds its row if it is a file. -/
lemma mem_rows_walkEntry {dir : List Name} {st : WalkState} {e : Name × DirTree.Node}
    {x : List Name × EntryRow} (hx : x ∈ (walkEntry sigs env dir st e).rows) :
    x ∈ st.rows ∨ ∃ data len, e.2 = .file data ∧
      x = (dir ++ [e.1], mountedRow sigs (dir ++ [e.1]) len) := by
  unfold walkEntry at hx
  dsimp only at hx
  split at hx
  · split at hx
    · exact .inl hx
    · exact .inl hx
    · exact .inl hx
    · rename_i data hfile
      rcases List.mem_append.1 hx with hx | hx
      · exact .inl hx
      · exact .inr ⟨data, _, hfile, List.mem_singleton.1 hx⟩
  · exact .inl hx

/-- The entries of a directory add rows of its files. -/
lemma mem_rows_readDir {dir : List Name} {st : WalkState} {x : List Name × EntryRow}
    (hx : x ∈ ((readDir v env base dir).foldl (walkEntry sigs env dir) st).rows) :
    x ∈ st.rows ∨ FromFile sigs v base x.1 x.2 := by
  have hentries : ∀ l : List (Name × DirTree.Node), l ⊆ readDir v env base dir →
      ∀ st : WalkState, x ∈ (l.foldl (walkEntry sigs env dir) st).rows →
        x ∈ st.rows ∨ FromFile sigs v base x.1 x.2 := by
    intro l
    induction l with
    | nil => exact fun _ _ hx => .inl hx
    | cons e l ih =>
      intro hsub st hx
      rcases ih (fun y hy => hsub (List.mem_cons_of_mem _ hy)) _ hx with hx | hx
      · rcases mem_rows_walkEntry hx with hx | ⟨data, len, hfile, rfl⟩
        · exact .inl hx
        · obtain ⟨entries, hdir, heq⟩ := readDir_spec (hsub List.mem_cons_self)
          have he : e ∈ entries := heq ▸ hsub List.mem_cons_self
          have hne : dir ++ [e.1] ≠ [] :=
            List.append_ne_nil_of_right_ne_nil _ (List.cons_ne_nil _ _)
          refine .inr ⟨hne, data, len, ?_, rfl⟩
          rw [← List.append_assoc, DirTree.Volume.locate_entry hdir he, hfile]
      · exact .inr hx
  exact hentries _ (List.Subset.refl _) st hx

/-- **Every row of a walk comes from a file.** -/
lemma mem_rows_walkLoop (fuel : ℕ) {st : WalkState} {x : List Name × EntryRow}
    (hx : x ∈ (walkLoop sigs v env base fuel st).rows) :
    x ∈ st.rows ∨ FromFile sigs v base x.1 x.2 := by
  induction fuel generalizing st with
  | zero => exact .inl hx
  | succ fuel ih =>
    rw [walkLoop] at hx
    split at hx
    · exact .inl hx
    · rename_i dir stack _
      split at hx
      · exact .inl hx
      · rcases ih hx with hx | hx
        · rcases mem_rows_readDir hx with hx | hx
          · exact .inl hx
          · exact .inr hx
        · exact .inr hx

/-- What the directories of a stack weigh. -/
def weight (v : DirTree.Volume) (base dir : List Name) : ℕ := max 1 (dirsAt v (base ++ dir))

lemma stack_readDir (sigs : List SigDef) (v : DirTree.Volume) (env : WalkEnv) (base dir : List Name)
    (st : WalkState) :
    ((((readDir v env base dir).foldl (walkEntry sigs env dir) st).stack).map
        (weight v base)).sum + 1 ≤ (st.stack.map (weight v base)).sum + weight v base dir := by
  have hentries : ∀ l : List (Name × DirTree.Node), l ⊆ readDir v env base dir →
      ∀ st : WalkState, ((l.foldl (walkEntry sigs env dir) st).stack.map (weight v base)).sum ≤
        (st.stack.map (weight v base)).sum + Node.dirCountAll l := by
    intro l
    induction l with
    | nil => exact fun _ st => Nat.le_add_right _ _
    | cons e l ih =>
      intro hsub st
      refine (ih (fun y hy => hsub (List.mem_cons_of_mem _ hy)) _).trans ?_
      obtain ⟨entries, hdir, heq⟩ := readDir_spec (hsub List.mem_cons_self)
      have hhere := DirTree.Volume.locate_entry hdir (heq ▸ hsub List.mem_cons_self)
      rw [Node.dirCountAll, ← add_assoc]
      refine Nat.add_le_add_right ?_ _
      obtain ⟨name, n⟩ := e
      unfold walkEntry
      dsimp only
      split
      · cases n with
        | dir es =>
          have hweight : weight v base (dir ++ [name]) = Node.dirCount (.dir es) := by
            rw [weight, dirsAt, ← List.append_assoc, hhere]
            exact max_eq_right (Nat.succ_le_of_lt (Nat.succ_pos _))
          simp only [List.map_cons, List.sum_cons, hweight, Node.dirCountEntry]
          omega
        | _ => exact Nat.le_add_right _ _
      · exact Nat.le_add_right _ _
  refine (Nat.add_le_add_right (hentries _ (List.Subset.refl _) st) 1).trans ?_
  rw [add_assoc]
  refine Nat.add_le_add_left ?_ _
  cases hread : readDir v env base dir with
  | nil => exact le_max_left _ _
  | cons e l =>
    have he : e ∈ readDir v env base dir := by
      rw [hread]
      exact List.mem_cons_self
    obtain ⟨entries, hdir, heq⟩ := readDir_spec he
    rw [← hread, heq, weight, dirsAt, hdir]
    exact le_max_right _ _

/-- **The walk comes to its end**: nothing is left on the stack, or the budget is used up. -/
lemma walkLoop_done (fuel : ℕ) (st : WalkState)
    (hfuel : (st.stack.map (weight v base)).sum ≤ fuel) :
    (walkLoop sigs v env base fuel st).stack = [] ∨
      (walkLoop sigs v env base fuel st).budget = 0 := by
  induction fuel generalizing st with
  | zero =>
    cases hstack : st.stack with
    | nil => exact .inl hstack
    | cons dir stack =>
      have hpos : 1 ≤ weight v base dir := le_max_left _ _
      rw [hstack, List.map_cons, List.sum_cons] at hfuel
      omega
  | succ fuel ih =>
    rw [walkLoop]
    split
    · rename_i hstack
      exact .inl hstack
    · rename_i dir stack hstack
      split
      · rename_i hbudget
        exact .inr hbudget
      · apply ih _
        have hless := stack_readDir sigs v env base dir { st with stack := stack }
        rw [hstack, List.map_cons, List.sum_cons] at hfuel
        dsimp only at hless
        omega

/-- The walk of a volume leaves no directory, unless its budget is used up. -/
lemma mountedWalk_done : (mountedWalk sigs v env base).stack = [] ∨
    (mountedWalk sigs v env base).budget = 0 := by
  apply walkLoop_done _ _
  have hroot : base ++ [] = base := List.append_nil base
  simp only [List.map_cons, List.map_nil, List.sum_cons, List.sum_nil, weight, hroot]
  omega

/-- Every row of the walk comes from a file. -/
lemma mountedWalk_spec {path : List Name} {row : EntryRow}
    (h : (path, row) ∈ (mountedWalk sigs v env base).rows) : FromFile sigs v base path row :=
  (mem_rows_walkLoop _ h).resolve_left List.not_mem_nil

end Walk

/-! ## Names that are kept -/

/-- The byte of a backslash. -/
def backslash : UInt8 := 0x5C

/-- Every name on the way is a text without a backslash. -/
def PlainPath (path : List Name) : Prop := ∀ name ∈ path, IsText name ∧ backslash ∉ name

/-- What a path is stored as, before its backslashes are turned. -/
def decodedPath (path : List Name) : List Char :=
  Text.utf8Decode 0 0 0 0 ([slash].intercalate path)

lemma utf8_eq_textBytes (s : String) : utf8 s = textBytes s.toList := Text.toList_toUTF8 s

lemma utf8_relText (path : List Name) : utf8 (relText path) =
    textBytes ((decodedPath path).map fun c => if c = '\\' then '/' else c) := by
  rw [utf8_eq_textBytes, relText, String.toList_ofList]
  rfl

/-- The parts of a stored path are plain names. -/
lemma plain_of_mem_parts {path : List Name} {name : Name}
    (h : name ∈ pathParts (utf8 (relText path))) : IsText name ∧ backslash ∉ name := by
  rw [utf8_relText, pathParts_textBytes] at h
  obtain ⟨part, hpart, rfl⟩ := List.mem_map.1 h
  have hbyte : backslash = UInt8.ofNat ('\\').toNat := by decide
  refine ⟨⟨part, rfl⟩, ?_⟩
  rw [hbyte, mem_textBytes_ascii (by decide)]
  intro hmem
  have hwhole : '\\' ∈ ['/'].intercalate (List.splitOn '/' _) :=
    mem_intercalate_of_mem hpart hmem
  rw [List.intercalate_splitOn, List.mem_map] at hwhole
  obtain ⟨c, -, hc⟩ := hwhole
  split at hc
  · exact absurd hc (by decide)
  · rename_i hno
    exact hno hc

/-- Plain names are stored as they are. -/
lemma utf8_relText_of_plain {path : List Name} (h : PlainPath path) :
    utf8 (relText path) = [slash].intercalate path := by
  obtain ⟨parts, rfl⟩ : ∃ parts : List (List Char), path = parts.map textBytes := by
    induction path with
    | nil => exact ⟨[], rfl⟩
    | cons name path ih =>
      obtain ⟨cs, rfl⟩ := (h name List.mem_cons_self).1
      obtain ⟨parts, rfl⟩ := ih fun n hn => h n (List.mem_cons_of_mem _ hn)
      exact ⟨cs :: parts, rfl⟩
  have hbyte : backslash = UInt8.ofNat ('\\').toNat := by decide
  have hno : '\\' ∉ ['/'].intercalate parts := by
    intro hmem
    rcases mem_of_mem_intercalate hmem with heq | ⟨part, hpart, hin⟩
    · exact absurd heq (by decide)
    · refine (h (textBytes part) (List.mem_map_of_mem hpart)).2 ?_
      rw [hbyte, mem_textBytes_ascii (by decide)]
      exact hin
  rw [utf8_relText, decodedPath, intercalate_textBytes, utf8Decode_textBytes]
  congr 1
  refine (List.map_congr_left fun c hc => if_neg ?_).trans (List.map_id _)
  rintro rfl
  exact hno hc

lemma utf8Decode_ne_nil {owed low high acc : ℕ} {bs : Bytes} (h : owed ≠ 0 ∨ bs ≠ []) :
    Text.utf8Decode owed low high acc bs ≠ [] := by
  induction bs generalizing owed low high acc with
  | nil =>
    have howed : owed ≠ 0 := h.resolve_right (fun h => h rfl)
    rw [Text.utf8Decode, if_neg howed]
    exact List.cons_ne_nil _ _
  | cons b bs ih =>
    rw [Text.utf8Decode]
    split
    · rename_i htaken
      dsimp only
      split
      · exact List.cons_ne_nil _ _
      · rename_i hone
        exact ih (.inl (by omega))
    · apply List.append_ne_nil_of_right_ne_nil _
      split
      · exact List.cons_ne_nil _ _
      · split
        · exact List.cons_ne_nil _ _
        · rename_i hn
          exact ih (.inl hn)

/-- No file is stored under an empty path. -/
lemma relText_ne_empty {path : List Name} (hne : path ≠ [])
    (hnames : ∀ name ∈ path, OsName name) : relText path ≠ "" := by
  obtain ⟨name, rest, rfl⟩ := List.exists_cons_of_ne_nil hne
  obtain ⟨b, bs, hb⟩ := List.exists_cons_of_ne_nil (hnames name List.mem_cons_self).ne_nil
  have hbytes : [slash].intercalate (name :: rest) ≠ [] :=
    List.ne_nil_of_mem (mem_intercalate_of_mem List.mem_cons_self (hb ▸ List.mem_cons_self))
  intro hempty
  have hlist := congrArg String.toList hempty
  rw [relText, String.toList_ofList] at hlist
  exact utf8Decode_ne_nil (.inr hbytes) (List.map_eq_nil_iff.1 hlist)

/-! ## What is stored, and what is recovered -/

section Recovery

variable {S : Sqlite} {B : Backend} {sigs : List SigDef} {v : DirTree.Volume} {walkEnv : WalkEnv}
  {links : ℕ} {base path : List Name} {env : RecoverEnv} {dest : FilePath} {opts : RecoverOpts}
  {sourceId : String} {t : Rows}

/-- A row that the walk stores for the file at a path. -/
structure StoredFrom (B : Backend) (sigs : List SigDef) (v : DirTree.Volume) (walkEnv : WalkEnv)
    (base : List Name) (sourceId : String) (t : Rows) (path : List Name) (r : CarvedRecord) :
    Prop where
  row : ∃ row, (path, row) ∈ (mountedWalk sigs v walkEnv base).rows ∧
    r = row.record B sourceId "mounted"
  stored : r ∈ (runMounted B sigs v walkEnv base sourceId t).rows

/-- A row is stored under the text of its names. -/
lemma StoredFrom.spec {r : CarvedRecord} (h : StoredFrom B sigs v walkEnv base sourceId t path r) :
    path ≠ [] ∧ (∃ data, v.root.locate (base ++ path) = some (.file data)) ∧
      r.synthPath = relText path := by
  obtain ⟨row, hrow, rfl⟩ := h.row
  obtain ⟨hne, data, len, hfile, rfl⟩ := mountedWalk_spec hrow
  exact ⟨hne, ⟨data, hfile⟩, if_neg (relText_ne_empty hne (DirTree.Volume.osName_of_locate hfile))⟩

/-- The stored path leads to the file, but only through a symbolic link. -/
def LedBack (v : DirTree.Volume) (links : ℕ) (base path : List Name) (r : CarvedRecord) : Prop :=
  sourcePlace v 0 base r ≠ some (base ++ path) ∧ sourcePlace v links base r = some (base ++ path)

/-- **When a row leads to its file.** -/
lemma StoredFrom.found_iff {r : CarvedRecord}
    (h : StoredFrom B sigs v walkEnv base sourceId t path r) :
    sourcePlace v links base r = some (base ++ path) ↔
      PlainPath path ∨ LedBack v links base path r := by
  obtain ⟨hne, ⟨data, hfile⟩, hpath⟩ := h.spec
  constructor
  · intro hfound
    by_cases hzero : sourcePlace v 0 base r = some (base ++ path)
    · rw [sourcePlace, hpath] at hzero
      exact .inl fun name hname => plain_of_mem_parts (mem_of_resolve_zero hzero name hname)
    · exact .inr ⟨hzero, hfound⟩
  · rintro (hplain | hback)
    · rw [sourcePlace, hpath, utf8_relText_of_plain hplain]
      exact resolve_names links hne hfile fun target => by simp
    · exact hback.2

/-- The manifest lists a record: with the bytes its path leads to, marked as it was asked for. -/
structure ListsRecord (B : Backend) (v : DirTree.Volume) (links : ℕ) (base : List Name)
    (opts : RecoverOpts) (rec : CarvedRecord) (f : MountedFile) : Prop where
  id : f.id = rec.id
  bytes : ∃ data, readSource? v links base rec = some data ∧ f.len = data.length ∧
    f.blake3 = B.hash .blake3 data
  verified : f.verified = opts.verify

/-- **What one record does to the list.** -/
lemma recoverMountedOne_files (st : MountedState) (rec : CarvedRecord) (i : ℕ) :
    let st' := (recoverMountedOne B v links base env dest opts st (rec, i)).2
    st'.files = st.files ∨ ∃ f, st'.files = st.files ++ [f] ∧
      ListsRecord B v links base opts rec f := by
  simp only [recoverMountedOne]
  split
  · exact .inl rfl
  · split
    · exact .inl rfl
    · split
      · exact .inl rfl
      · rename_i data hdata
        split
        · exact .inr ⟨_, rfl, rfl, ⟨data, hdata, rfl, hashBytes_eq B .blake3 data⟩, rfl⟩
        · exact .inl rfl

/-- Every file on the list is a record's. -/
lemma recoverMountedLoop_files (l : List (CarvedRecord × ℕ)) {st : MountedState} {f : MountedFile}
    (hf : f ∈ (recoverMountedLoop B v links base env dest opts l st).2.files) :
    f ∈ st.files ∨ ∃ rec ∈ l, ListsRecord B v links base opts rec.1 f := by
  induction l generalizing st with
  | nil => exact .inl hf
  | cons rec l ih =>
    have hone : f ∈ (recoverMountedOne B v links base env dest opts st rec).2.files →
        f ∈ st.files ∨ ∃ r ∈ rec :: l, ListsRecord B v links base opts r.1 f := by
      intro hf
      rcases recoverMountedOne_files st rec.1 rec.2 with hsame | ⟨g, hadd, hlists⟩
      · exact .inl (hsame ▸ hf)
      · rcases List.mem_append.1 (hadd ▸ hf) with hf | hf
        · exact .inl hf
        · obtain rfl := List.mem_singleton.1 hf
          exact .inr ⟨rec, List.mem_cons_self, hlists⟩
    rw [recoverMountedLoop] at hf
    split at hf
    · rcases ih hf with hf | ⟨r, hr, hlists⟩
      · exact hone hf
      · exact .inr ⟨r, List.mem_cons_of_mem _ hr, hlists⟩
    · exact hone hf

/-- A query returns rows of the table. -/
lemma mem_rows_of_mem_query {f : QueryFilter} {r : CarvedRecord} (h : r ∈ query S t f) :
    r ∈ t.rows := by
  have hselect : ∀ f : QueryFilter, r ∈ S.select t f → r ∈ t.rows := fun f h =>
    (List.mem_filter.1 ((S.perm _).mem_iff.1 h)).1
  unfold query at h
  split at h
  · exact absurd h List.not_mem_nil
  · split at h
    · rw [(List.perm_insertionSort _ _).mem_iff, List.mem_flatMap] at h
      obtain ⟨c, -, hc⟩ := h
      exact hselect _ hc
    · exact hselect _ h
  · exact hselect _ h

/-- Every file that the manifest lists is that of a row. -/
lemma recoverMounted_files {text : MountedDoc → Bytes} {session : String}
    {args : Cli.RecoverArgs} {tree : Files FilePath} {files : List MountedFile}
    (h : (recoverMounted S B v links base env text session sourceId t args tree).1 = some files)
    {f : MountedFile} (hf : f ∈ files) :
    ∃ rec ∈ t.rows, ListsRecord B v links base args.opts rec f := by
  unfold recoverMounted at h
  split at h
  · exact absurd h (by simp)
  · dsimp only at h
    split at h
    · exact absurd h (by simp)
    · split at h
      · exact absurd h (by simp)
      · split at h
        · split at h
          · obtain rfl := Option.some.inj h
            obtain ⟨rec, hrec, hlists⟩ :=
              (recoverMountedLoop_files _ hf).resolve_left List.not_mem_nil
            have hmem := List.fst_mem_of_mem_zipIdx hrec
            exact ⟨rec.1, mem_rows_of_mem_query hmem, hlists⟩
          · exact absurd h (by simp)
        · exact absurd h (by simp)

/-- A listed file is rightly marked: if as verified, then reading it back would have told, whatever
it returned, that the content is the listed one. -/
def Confirmed (B : Backend) (f : MountedFile) : Prop :=
  ∀ reread : Option Bytes, f.verified = true → ∃ d ∈ reread, B.hash .blake3 d = f.blake3

/-- **When a mounted file is found again.**  For every volume, every walk of it and every recovery
from the store it leaves: the path of a row leads to the row's file exactly when every name on the
way is a text without a backslash, or a symbolic link happens to lead back; where it does, what is
recovered under the row is the file; and the mark of a listed file is right exactly when
verification was not asked for. -/
theorem mounted_found_iff {text : MountedDoc → Bytes} {session : String} {args : Cli.RecoverArgs}
    {tree : Files FilePath} {files : List MountedFile}
    (h : (recoverMounted S B v links base env text session sourceId
      (runMounted B sigs v walkEnv base sourceId t) args tree).1 = some files) :
    (∀ path r, StoredFrom B sigs v walkEnv base sourceId t path r →
      (sourcePlace v links base r = some (base ++ path) ↔
        PlainPath path ∨ LedBack v links base path r) ∧
      (sourcePlace v links base r = some (base ++ path) → ∀ f ∈ files, f.id = r.id →
        ∃ data, v.root.dataAt (base ++ path) = some data ∧ f.len = data.length ∧
          f.blake3 = B.hash .blake3 data)) ∧
    ∀ f ∈ files, Confirmed B f ↔ args.opts.verify = false := by
  refine ⟨fun path r hstored => ⟨hstored.found_iff, fun hfound f hf hid => ?_⟩, fun f hf => ?_⟩
  · obtain ⟨rec, hrec, hlists⟩ := recoverMounted_files h hf
    have hunique := (runMounted B sigs v walkEnv base sourceId t).unique
    obtain rfl : rec = r := KeyedTable.eq_of_key_eq hunique hrec hstored.stored
      (hlists.id.symm.trans hid)
    obtain ⟨data, hread, hlen, hhash⟩ := hlists.bytes
    rw [readSource?, hfound] at hread
    exact ⟨data, hread, hlen, hhash⟩
  · obtain ⟨rec, -, hlists⟩ := recoverMounted_files h hf
    rw [← hlists.verified]
    constructor
    · intro hconfirmed
      rw [Bool.eq_false_iff]
      intro hverified
      obtain ⟨d, hd, -⟩ := hconfirmed none hverified
      exact absurd hd (by simp)
    · intro hno reread hverified
      exact absurd (hno.symm.trans hverified) Bool.false_ne_true

end Recovery

/-! ## A name with a backslash -/

/-- A volume with files at its root only. -/
def flatVolume (files : List (Name × Bytes)) (hunique : (files.map Prod.fst).Nodup)
    (hnames : ∀ f ∈ files, OsName f.1) : DirTree.Volume where
  root := .dir (files.map fun f => (f.1, .file f.2))
  names := by
    have hmap : (files.map fun f => (f.1, DirTree.Node.file f.2)).map Prod.fst =
        files.map Prod.fst := by
      rw [List.map_map]
      rfl
    intro place entries hdir
    cases place with
    | nil =>
      simp only [Node.locate, Option.some.injEq, DirTree.Node.dir.injEq] at hdir
      subst hdir
      refine ⟨hmap ▸ hunique, fun e he => ?_⟩
      obtain ⟨f, hf, rfl⟩ := List.mem_map.1 he
      exact hnames f hf
    | cons name rest =>
      obtain ⟨n, hn, hrest⟩ := Option.bind_eq_some_iff.1 hdir
      obtain ⟨e, he, rfl⟩ := Option.map_eq_some_iff.1 hn
      obtain ⟨f, -, rfl⟩ := List.mem_map.1 (List.mem_of_find?_eq_some he)
      cases rest with
      | nil => exact absurd hrest (by simp [Node.locate])
      | cons name rest => exact absurd hrest (by simp [Node.locate, Node.lookup])

instance (name : Name) : Decidable (OsName name) :=
  decidable_of_iff (name ≠ [] ∧ name ≠ [0x2E] ∧ name ≠ [0x2E, 0x2E] ∧ slash ∉ name ∧ 0 ∉ name)
    ⟨fun ⟨h1, h2, h3, h4, h5⟩ => ⟨h1, h2, h3, h4, h5⟩,
      fun h => ⟨h.ne_nil, h.ne_dot, h.ne_dotdot, h.noSlash, h.noNul⟩⟩

lemma twoFiles_names : ∀ f ∈ [([0x61, 0x5C, 0x62], [1]), ([0x63], [2])],
    OsName (f : Name × Bytes).1 := by decide

/-- Two files, called `a\b` and `c`. -/
def twoFiles : DirTree.Volume :=
  flatVolume [([0x61, 0x5C, 0x62], [1]), ([0x63], [2])] (by decide) twoFiles_names

/-- Everything can be read. -/
def WalkEnv.quiet : WalkEnv := ⟨fun _ => true, fun _ => true, fun _ => true⟩

/-- The store after a walk of the two files. -/
def walkedFiles : Rows := runMounted .plain [] twoFiles .quiet [] "mounted:/" .empty

/-- Recovering everything to an empty `/d`. -/
def recoverTwo (verify : Bool) : Option (List MountedFile) × Files FilePath :=
  recoverMounted .stable .plain twoFiles 40 [] (.quiet fun _ => []) (fun _ => []) "/s" "mounted:/"
    walkedFiles ⟨⟨true, ["d"]⟩, none, true, .default, { copyOnly with verify := verify }⟩
    emptyDest.tree

/-- What is listed: the second file alone. -/
def listedFile (verify : Bool) : MountedFile where
  id := resultId .plain "mounted:/" "mounted" (pseudoOffset "c") 1
  path := ["c"]
  sourcePath := "/c"
  len := 1
  state := some "live"
  blake3 := Backend.plain.hash .blake3 [2]
  verified := verify

/-- The record of a file of one byte at the root. -/
def rootRecord (name : Name) : CarvedRecord :=
  (mountedRow [] [name] 1).record .plain "mounted:/" "mounted"

lemma storedFrom_twoFiles {name : Name}
    (hwalk : ([name], mountedRow [] [name] 1) ∈ (mountedWalk [] twoFiles .quiet []).rows)
    (hstored : rootRecord name ∈ walkedFiles.rows) :
    StoredFrom .plain [] twoFiles .quiet [] "mounted:/" .empty [name] (rootRecord name) :=
  ⟨⟨_, hwalk, rfl⟩, hstored⟩

lemma twoFiles_rows : (mountedWalk [] twoFiles .quiet []).rows =
    [([[0x61, 0x5C, 0x62]], mountedRow [] [[0x61, 0x5C, 0x62]] 1),
      ([[0x63]], mountedRow [] [[0x63]] 1)] := rfl

lemma walkedFiles_rows : walkedFiles.rows = [rootRecord [0x61, 0x5C, 0x62], rootRecord [0x63]] := by
  decide +kernel

lemma recoverTwo_files (verify : Bool) : (recoverTwo verify).1 = some [listedFile verify] := by
  cases verify <;> decide +kernel

/-- A file with a plain name is found again and recovered, and without verification nothing is
marked. -/
theorem mounted_found_plain :
    sourcePlace twoFiles 40 [] (rootRecord [0x63]) = some [[0x63]] ∧
      Confirmed .plain (listedFile false) := by
  have hstored : StoredFrom .plain [] twoFiles .quiet [] "mounted:/" .empty [[0x63]]
      (rootRecord [0x63]) := by
    refine storedFrom_twoFiles ?_ ?_
    · rw [twoFiles_rows]
      exact List.mem_cons_of_mem _ List.mem_cons_self
    · rw [walkedFiles_rows]
      exact List.mem_cons_of_mem _ List.mem_cons_self
  have hplain : PlainPath [[0x63]] := by
    intro name hname
    obtain rfl := List.mem_singleton.1 hname
    exact ⟨⟨['c'], by decide⟩, by decide⟩
  obtain ⟨hfound, hmarked⟩ := mounted_found_iff (recoverTwo_files false)
  exact ⟨(hfound _ _ hstored).1.2 (.inl hplain), (hmarked _ List.mem_cons_self).2 rfl⟩

/-- **A file with a backslash in its name is not found under its own row, and a file is marked as
verified that nothing was compared with.** -/
theorem mounted_found_counterexample :
    (StoredFrom .plain [] twoFiles .quiet [] "mounted:/" .empty [[0x61, 0x5C, 0x62]]
        (rootRecord [0x61, 0x5C, 0x62]) ∧
      sourcePlace twoFiles 40 [] (rootRecord [0x61, 0x5C, 0x62]) = none) ∧
      (recoverTwo true).1 = some [listedFile true] ∧ ¬ Confirmed .plain (listedFile true) := by
  refine ⟨⟨storedFrom_twoFiles ?_ ?_, by decide +kernel⟩, recoverTwo_files true, fun h => ?_⟩
  · rw [twoFiles_rows]
    exact List.mem_cons_self
  · rw [walkedFiles_rows]
    exact List.mem_cons_self
  · obtain ⟨d, hd, -⟩ := h none rfl
    exact absurd hd (by simp)

end Reclaim
