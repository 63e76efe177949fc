import Reclaim.Fs.ApfsWalk

/-!
# Paths of files with several links

A directory record gives a file a name in a directory, and a file with hard links has several.  The
walk has an entry for each record, named as the record says; but the path of an entry is looked up
by the file's id, in a table that has one record of each.

`linksRight_iff` says that the paths of a volume are right just when no file has two links, and all
of them lie in directories whose depth the lookup has steps for.
-/

namespace Reclaim
namespace Apfs

open FileBytes Versions

/-! ## Paths of directories -/

/-- The names on the way to a directory from the root. -/
inductive DirPath (recs : List FsRec) : ℕ → List String → Prop
  | root : DirPath recs 2 []
  | child {d : ChildRec} {names : List String} (hd : d ∈ drecs recs) (hdir : d.isDir = true)
      (hroot : d.fileId ≠ 2) (hparent : DirPath recs d.parentId names) :
      DirPath recs d.fileId (names ++ [d.name])

/-- What a volume promises of its directory records: names have no slash, a name is given once in a
directory, a directory has one name, and 0 is not the id of a directory. -/
structure IsVolume (recs : List FsRec) : Prop where
  slash : ∀ d ∈ drecs recs, '/' ∉ d.name.toList
  keys : ∀ d ∈ drecs recs, ∀ d' ∈ drecs recs, d'.key = d.key → d' = d
  dirs : ∀ d ∈ drecs recs, d.isDir = true → ∀ d' ∈ drecs recs, d'.fileId = d.fileId → d' = d
  ids : ∀ d ∈ drecs recs, d.fileId ≠ 0 ∧ d.parentId ≠ 0

/-- Every live entry is named as its record says, on a path of the record's parent; and every record
of a file has its entry. -/
def LinksRight (fs : Apfs) (s : Scan) : Prop :=
  (∀ r ∈ fs.liveReports s, r.2.name = r.1.drec.name ∧
    ∃ names, DirPath s.cur r.1.drec.parentId names ∧
      r.2.path = some ("/".intercalate (names ++ [r.2.name]))) ∧
    ∀ d ∈ drecs s.cur, d.isDir = false → ∃ r ∈ fs.liveReports s, r.1.drec = d

/-- No file has two links, and each lies fewer than 128 directories below the root. -/
def SingleLinks (recs : List FsRec) : Prop :=
  ∀ d ∈ drecs recs, d.isDir = false → (∀ d' ∈ drecs recs, d'.fileId = d.fileId → d' = d) ∧
    ∃ names, DirPath recs d.parentId names ∧ names.length < 128

/-! ## Joined paths -/

/-- **A joined path has its components**, if no name has a slash. -/
lemma intercalate_inj {xs ys : List String} (hx : ∀ x ∈ xs, '/' ∉ x.toList)
    (hy : ∀ y ∈ ys, '/' ∉ y.toList) (hxs : xs ≠ []) (hys : ys ≠ [])
    (h : "/".intercalate xs = "/".intercalate ys) : xs = ys := by
  have hsplit : ∀ zs : List String, (∀ z ∈ zs, '/' ∉ z.toList) → zs ≠ [] →
      ("/".intercalate zs).toList.splitOn '/' = zs.map String.toList := by
    intro zs hz hne
    have hsep : "/".toList = ['/'] := rfl
    rw [String.toList_intercalate, hsep]
    refine List.splitOn_intercalate (x := '/') ?_ fun hnil => hne (List.map_eq_nil_iff.1 hnil)
    exact List.forall_mem_map.2 hz
  have hmap : xs.map String.toList = ys.map String.toList := by
    rw [← hsplit xs hx hxs, h, hsplit ys hy hys]
  exact List.map_injective_iff.2 (fun _ _ h => String.toList_inj.1 h) hmap

section Lookup

variable {recs : List FsRec}

lemma edges_eq_some_iff {id : ℕ} {d : ChildRec} :
    edges recs id = some d ↔ IsLast (·.fileId) (drecs recs) d ∧ d.fileId = id :=
  table_eq_some_iff

/-- Some record of a file is in the table. -/
lemma exists_edge {d : ChildRec} (hd : d ∈ drecs recs) :
    ∃ e ∈ drecs recs, e.fileId = d.fileId ∧ edges recs d.fileId = some e := by
  obtain ⟨e, hlast, hid⟩ : ∃ e, IsLast (·.fileId) (drecs recs) e ∧ e.fileId = d.fileId :=
    exists_isLast hd
  exact ⟨e, hlast.mem, hid, edges_eq_some_iff.2 ⟨hlast, hid⟩⟩

/-- The only record of an id is the one in the table. -/
lemma edge_of_single {d : ChildRec} (hd : d ∈ drecs recs)
    (h : ∀ d' ∈ drecs recs, d'.fileId = d.fileId → d' = d) : edges recs d.fileId = some d := by
  obtain ⟨e, he, hid, hedge⟩ := exists_edge hd
  rwa [h e he hid] at hedge

/-- The names of a path that is looked up are names of records; the last is that of the file's own
record in the table. -/
lemma names_pathParts {g cur : ℕ} {parts : List String}
    (h : pathParts (edges recs) (g + 1) cur = some parts) :
    (∀ n ∈ parts, ∃ d ∈ drecs recs, d.name = n) ∧
      ∃ d front, edges recs cur = some d ∧ parts = front ++ [d.name] := by
  induction g generalizing cur parts with
  | zero =>
    rw [pathParts] at h
    obtain ⟨d, hd, h⟩ := Option.bind_eq_some_iff.1 h
    have hmem : d ∈ drecs recs := (edges_eq_some_iff.1 hd).1.mem
    have hparts : parts = [d.name] := by
      split at h
      · exact (Option.some.inj h).symm
      · exact (Option.some.inj h).symm
    subst hparts
    exact ⟨List.forall_mem_singleton.2 ⟨d, hmem, rfl⟩, d, [], hd, rfl⟩
  | succ g ih =>
    rw [pathParts] at h
    obtain ⟨d, hd, h⟩ := Option.bind_eq_some_iff.1 h
    have hmem : d ∈ drecs recs := (edges_eq_some_iff.1 hd).1.mem
    split at h
    · obtain rfl := Option.some.inj h
      exact ⟨List.forall_mem_singleton.2 ⟨d, hmem, rfl⟩, d, [], hd, rfl⟩
    · obtain ⟨front, hfront, rfl⟩ := Option.map_eq_some_iff.1 h
      refine ⟨fun n hn => ?_, d, front, hd, rfl⟩
      obtain hn | hn := List.mem_append.1 hn
      · exact (ih hfront).1 n hn
      · exact ⟨d, hmem, (List.mem_singleton.1 hn).symm⟩

lemma length_pathParts {g cur : ℕ} {parts : List String}
    (h : pathParts (edges recs) g cur = some parts) : parts.length ≤ g := by
  induction g generalizing cur parts with
  | zero =>
    obtain rfl := Option.some.inj h
    exact le_rfl
  | succ g ih =>
    rw [pathParts] at h
    obtain ⟨d, -, h⟩ := Option.bind_eq_some_iff.1 h
    split at h
    · obtain rfl := Option.some.inj h
      exact Nat.succ_le_succ (Nat.zero_le g)
    · obtain ⟨front, hfront, rfl⟩ := Option.map_eq_some_iff.1 h
      rw [List.length_append, List.length_singleton]
      exact Nat.succ_le_succ (ih hfront)

/-! ## Paths of volumes -/

lemma DirPath.eq_nil {names : List String} (h : DirPath recs 2 names) : names = [] := by
  generalize hp : 2 = p at h
  cases h with
  | root => rfl
  | child _ _ hroot _ => exact absurd hp.symm hroot

lemma DirPath.mem {p : ℕ} {names : List String} (h : DirPath recs p names) :
    ∀ n ∈ names, ∃ d ∈ drecs recs, d.name = n := by
  induction h with
  | root => exact fun n hn => absurd hn List.not_mem_nil
  | @child d names hd hdir hroot hparent ih =>
    intro n hn
    obtain hn | hn := List.mem_append.1 hn
    · exact ih n hn
    · exact ⟨d, hd, (List.mem_singleton.1 hn).symm⟩

variable (hv : IsVolume recs)

include hv

/-- A path leads to one directory. -/
lemma DirPath.inj {p q : ℕ} {names : List String} (h : DirPath recs p names)
    (h' : DirPath recs q names) : p = q := by
  induction h generalizing q with
  | root =>
    generalize hnil : ([] : List String) = names at h'
    cases h' with
    | root => rfl
    | child _ _ _ _ => exact absurd hnil.symm (List.concat_ne_nil _ _)
  | @child d names hd hdir hroot hparent ih =>
    generalize hnames : names ++ [d.name] = all at h'
    cases h' with
    | root => exact absurd hnames (List.concat_ne_nil _ _)
    | @child d' names' hd' hdir' hroot' hparent' =>
      obtain ⟨rfl, hname⟩ := List.append_inj' hnames rfl
      have hkey : d'.key = d.key :=
        Prod.ext (ih hparent').symm (List.singleton_inj.1 hname).symm
      rw [hv.keys d hd d' hd' hkey]

/-- **A record on a path is looked up along it**, if there are steps enough. -/
lemma pathParts_record {d : ChildRec} (hd : d ∈ drecs recs) (hedge : edges recs d.fileId = some d)
    {p : ℕ} {names : List String} (h : DirPath recs p names) (hp : d.parentId = p) (g : ℕ)
    (hg : names.length ≤ g) :
    pathParts (edges recs) (g + 1) d.fileId = some (names ++ [d.name]) := by
  induction h generalizing d g with
  | root => rw [pathParts, hedge, Option.bind_some, if_pos (.inl hp), List.nil_append]
  | @child d' names hd' hdir hroot hparent ih =>
    have hids := hv.ids d hd
    obtain ⟨g, rfl⟩ : ∃ k, g = k + 1 := by
      rw [List.length_append, List.length_singleton] at hg
      exact ⟨g - 1, by omega⟩
    have hup := ih hd' (edge_of_single hd' (hv.dirs d' hd' hdir)) rfl g (by
      rw [List.length_append, List.length_singleton] at hg
      omega)
    rw [pathParts, hedge, Option.bind_some, if_neg (by rw [hp]; omega), hp, hup, Option.map_some]

end Lookup

/-! ## The entries of files -/

section Entries

variable {fs : Apfs} {s : Scan}

/-- An entry is named as its record says, and its path is looked up by the file's id. -/
lemma mem_liveReports {r : Candidate × Entry} (hr : r ∈ fs.liveReports s) :
    r.1.drec ∈ drecs s.cur ∧ r.1.drec.isDir = false ∧ r.2.name = r.1.drec.name ∧
      r.2.path = pathOf s.cur r.1.drec.fileId := by
  obtain ⟨c, hc, hr⟩ := List.mem_filterMap.1 hr
  obtain ⟨d, hd, rfl⟩ := List.mem_map.1 hc
  obtain ⟨e, he, rfl⟩ := Option.map_eq_some_iff.1 hr
  have hfile := isSome_entryOf fs ⟨d, .live, s.cur, none, none⟩
  rw [he] at hfile
  refine ⟨hd, by simpa using hfile, ?_⟩
  obtain ⟨e', he', rfl⟩ := Option.map_eq_some_iff.1 he
  unfold buildEntry at he'
  split at he'
  · cases he'
  · obtain rfl := Option.some.inj he'
    exact ⟨rfl, rfl⟩

/-- Every record of a file has its entry. -/
lemma exists_liveReport {d : ChildRec} (hd : d ∈ drecs s.cur) (hfile : d.isDir = false) :
    ∃ r ∈ fs.liveReports s, r.1.drec = d := by
  have hsome := isSome_entryOf fs ⟨d, .live, s.cur, none, none⟩
  rw [hfile] at hsome
  obtain ⟨e, he⟩ := Option.isSome_iff_exists.1 hsome
  refine ⟨(⟨d, .live, s.cur, none, none⟩, e), ?_, rfl⟩
  refine List.mem_filterMap.2 ⟨_, List.mem_map_of_mem hd, ?_⟩
  rw [he]
  rfl

/-- Where the paths are right, what is looked up by the id of a file is the path of each of its
records. -/
lemma exists_path (hv : IsVolume s.cur) (h : LinksRight fs s) (d : ChildRec)
    (hd : d ∈ drecs s.cur) (hfile : d.isDir = false) :
    ∃ names, DirPath s.cur d.parentId names ∧
      pathParts (edges s.cur) 128 d.fileId = some (names ++ [d.name]) := by
  obtain ⟨r, hr, rfl⟩ := h.2 d hd hfile
  obtain ⟨hname, names, hdir, hp⟩ := h.1 r hr
  rw [(mem_liveReports hr).2.2.2, hname, pathOf] at hp
  obtain ⟨parts, hparts, hjoin⟩ := Option.map_eq_some_iff.1 hp
  have hslash : ∀ n, (∃ x ∈ drecs s.cur, x.name = n) → '/' ∉ n.toList := by
    rintro n ⟨x, hx, rfl⟩
    exact hv.slash x hx
  obtain ⟨hmem, x, front, -, hfront⟩ := names_pathParts hparts
  have heq : parts = names ++ [r.1.drec.name] := by
    refine intercalate_inj (fun n hn => hslash n (hmem n hn)) (fun n hn => ?_) ?_
      (List.concat_ne_nil _ _) hjoin
    · obtain hn | hn := List.mem_append.1 hn
      · exact hslash n (hdir.mem n hn)
      · exact hslash n ⟨_, hd, (List.mem_singleton.1 hn).symm⟩
    · rw [hfront]
      exact List.concat_ne_nil _ _
  exact ⟨names, hdir, heq ▸ hparts⟩

end Entries

/-- **Paths of live files.**  The live entries of a volume all have the paths of their own records,
each under the path of the record's parent, if and only if no file has two links and all files lie
fewer than 128 directories below the root. -/
theorem linksRight_iff (fs : Apfs) (s : Scan) (hv : IsVolume s.cur) :
    LinksRight fs s ↔ SingleLinks s.cur := by
  constructor
  · intro h d hd hfile
    -- two records of the file have one path, which is looked up by its id
    obtain ⟨names, hdir, hparts⟩ := exists_path hv h d hd hfile
    refine ⟨fun d' hd' hid => ?_, names, hdir, ?_⟩
    · have hfile' : d'.isDir = false := by
        by_contra hdir'
        have hsame := hv.dirs d' hd' (by simpa using hdir') d hd hid.symm
        rw [hsame] at hfile
        exact hdir' hfile
      obtain ⟨names', hdir', hparts'⟩ := exists_path hv h d' hd' hfile'
      rw [hid, hparts] at hparts'
      obtain ⟨rfl, hname⟩ := List.append_inj' (Option.some.inj hparts') rfl
      exact hv.keys d hd d' hd' (Prod.ext (hdir'.inj hv hdir) (List.singleton_inj.1 hname).symm)
    · have hlen := length_pathParts hparts
      rw [List.length_append, List.length_singleton] at hlen
      omega
  · intro h
    refine ⟨fun r hr => ?_, fun d hd hfile => exists_liveReport hd hfile⟩
    obtain ⟨hd, hfile, hname, hpath⟩ := mem_liveReports hr
    obtain ⟨hsingle, names, hdir, hlen⟩ := h _ hd hfile
    have hparts := pathParts_record hv hd (edge_of_single hd hsingle) hdir rfl 127 (by omega)
    refine ⟨hname, names, hdir, ?_⟩
    rw [hpath, hname, pathOf, hparts]
    rfl

/-! ## Samples -/

/-- A container. -/
def someContainer : Apfs where
  src := ⟨0, fun _ => 0⟩
  blockSize := 4096
  newest := ⟨1, 4096, 1, 1, [], 1, 1⟩
  history := []
  nodeBudget := nodeBudgetCap

/-- A current view, with nothing to compare it with. -/
def viewOf (cur : List FsRec) : Scan := ⟨100, false, cur, [], [], []⟩

/-- The directory `d` and in it the file `a`. -/
def oneLink : List FsRec := [.dirRec ⟨⟨"d", 16, true, 0⟩, 2⟩, .dirRec ⟨⟨"a", 20, false, 0⟩, 16⟩]

/-- Of one file, the links `a` and `b`. -/
def twoLinks : List FsRec := [.dirRec ⟨⟨"a", 20, false, 0⟩, 2⟩, .dirRec ⟨⟨"b", 20, false, 0⟩, 2⟩]

/-- The file has the path `d/a`. -/
theorem oneLink_right : LinksRight someContainer (viewOf oneLink) := by
  have hv : IsVolume oneLink :=
    { slash := by decide
      keys := by decide
      dirs := by decide
      ids := by decide }
  refine (linksRight_iff someContainer (viewOf oneLink) hv).2 fun d hd hfile => ?_
  have hfileOnly : d = ⟨⟨"a", 20, false, 0⟩, 16⟩ := by
    obtain rfl | hd := List.mem_cons.1 hd
    · cases hfile
    · exact List.mem_singleton.1 hd
  subst hfileOnly
  refine ⟨by decide, _,
    .child (d := ⟨⟨"d", 16, true, 0⟩, 2⟩) List.mem_cons_self rfl (by decide) .root, ?_⟩
  show 1 < 128
  norm_num

/-- The entry of the link `a` has the path of `b`. -/
theorem twoLinks_counterexample :
    IsVolume twoLinks ∧ ¬ LinksRight someContainer (viewOf twoLinks) := by
  refine ⟨⟨by decide, by decide, by decide, by decide⟩, fun ⟨hpaths, hentries⟩ => ?_⟩
  obtain ⟨r, hr, hrec⟩ := hentries ⟨⟨"a", 20, false, 0⟩, 2⟩ List.mem_cons_self rfl
  obtain ⟨hname, names, hdir, hpath⟩ := hpaths r hr
  have hlooked : r.2.path = pathOf twoLinks 20 := by
    rw [(mem_liveReports hr).2.2.2, hrec]
    rfl
  rw [hrec] at hname hdir
  rw [hlooked, hname, hdir.eq_nil] at hpath
  have hb : pathOf twoLinks 20 = some "b" := rfl
  rw [hb] at hpath
  exact absurd (Option.some.inj hpath) (by decide)

end Apfs
end Reclaim
