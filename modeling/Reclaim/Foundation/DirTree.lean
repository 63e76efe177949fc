import Reclaim.Foundation.Unicode

/-!
# Directory trees

Names are byte strings, as the operating system has them, and a place in a tree is the list of names
that leads to it.  A path is a byte string that is taken apart at slashes and followed from a
directory: steps in place and up, names, and symbolic links, of which only so many are followed.

`resolve_names` says that the names of a place spell a path that leads there, and
`mem_of_resolve_zero` that a path followed without links leads only by names that it spells.
-/

namespace DirTree

open FileBytes

/-- A name in a directory. -/
abbrev Name := Bytes

/-- What a directory tree is made of. -/
inductive Node where
  | file (data : Bytes)
  | symlink (target : Bytes)
  /-- A socket, a device or the like. -/
  | other
  | dir (entries : List (Name × Node))

namespace Node

/-- The entry of a directory under a name. -/
def lookup : Node → Name → Option Node
  | .dir entries, name => (entries.find? fun e => e.1 == name).map Prod.snd
  | _, _ => none

/-- What is at a place. -/
def locate (n : Node) : List Name → Option Node
  | [] => some n
  | name :: rest => (n.lookup name).bind fun m => m.locate rest

def isDir : Node → Bool
  | .dir _ => true
  | _ => false

mutual

/-- How many directories a tree has. -/
def dirCount : Node → ℕ
  | .dir entries => dirCountAll entries + 1
  | _ => 0

def dirCountAll : List (Name × Node) → ℕ
  | [] => 0
  | e :: es => dirCountEntry e + dirCountAll es

def dirCountEntry : Name × Node → ℕ
  | (_, n) => dirCount n

end

/-- The file at a place. -/
def dataAt (n : Node) (place : List Name) : Option Bytes :=
  match n.locate place with
  | some (.file data) => some data
  | _ => none

lemma locate_append (n : Node) (place rest : List Name) :
    n.locate (place ++ rest) = (n.locate place).bind fun m => m.locate rest := by
  induction place generalizing n with
  | nil => rfl
  | cons name place ih =>
    rw [List.cons_append, locate, locate, Option.bind_assoc]
    exact Option.bind_congr fun m _ => ih m

end Node

/-! ## Paths -/

/-- The byte between the names of a path. -/
def slash : UInt8 := 0x2F

/-- A path taken apart. -/
def pathParts (path : Bytes) : List Name := path.splitOn slash

/-- The directory a path starts from. -/
def pathStart (dir : List Name) (path : Bytes) : List Name :=
  if path.head? = some slash then [] else dir

/-- A name a directory may hold. -/
structure OsName (name : Name) : Prop where
  ne_nil : name ≠ []
  ne_dot : name ≠ [0x2E]
  ne_dotdot : name ≠ [0x2E, 0x2E]
  noSlash : slash ∉ name
  noNul : 0 ∉ name

/-- A tree whose directories hold names that may be there, each once. -/
structure Volume where
  root : Node
  names : ∀ place entries, root.locate place = some (.dir entries) →
    (entries.map Prod.fst).Nodup ∧ ∀ e ∈ entries, OsName e.1

namespace Volume

variable {v : Volume} {place names : List Name} {n : Node}

/-- What a directory holds under a name is what is there. -/
lemma locate_entry {entries : List (Name × Node)} (hdir : v.root.locate place = some (.dir entries))
    {e : Name × Node} (he : e ∈ entries) : v.root.locate (place ++ [e.1]) = some e.2 := by
  have hfind : entries.find? (fun x => x.1 == e.1) = some e := by
    have hunique := (v.names place entries hdir).1
    rw [List.find?_eq_some_iff_append]
    obtain ⟨front, back, rfl⟩ := List.append_of_mem he
    refine ⟨beq_self_eq_true _, front, back, rfl, fun x hx => ?_⟩
    rw [List.map_append, List.map_cons] at hunique
    have hne : x.1 ≠ e.1 := (List.nodup_append.1 hunique).2.2 x.1 (List.mem_map_of_mem hx) e.1
      List.mem_cons_self
    rw [beq_false_of_ne hne]
    rfl
  rw [Node.locate_append, hdir]
  simp only [Option.bind_some, Node.locate, Node.lookup, hfind, Option.map_some]

/-- What leads to a place are names. -/
lemma osName_of_locate (h : v.root.locate (place ++ names) = some n) :
    ∀ name ∈ names, OsName name := by
  induction names generalizing place with
  | nil => exact fun _ h => absurd h List.not_mem_nil
  | cons name names ih =>
    have hrest : v.root.locate ((place ++ [name]) ++ names) = some n := by
      rw [List.append_assoc]
      exact h
    intro x hx
    rcases List.mem_cons.1 hx with rfl | hx
    · rw [Node.locate_append] at h
      obtain ⟨m, hm, hlook⟩ := Option.bind_eq_some_iff.1 h
      obtain ⟨m', hm', -⟩ := Option.bind_eq_some_iff.1 hlook
      cases m with
      | dir entries =>
        obtain ⟨e, he, -⟩ := Option.map_eq_some_iff.1 hm'
        have hkey : e.1 = x := by simpa using List.find?_some he
        rw [← hkey]
        exact (v.names place entries hm).2 e (List.mem_of_find?_eq_some he)
      | _ => exact absurd hm' (by simp [Node.lookup])
    · exact ih hrest x hx

/-- On the way to a place there are directories, and no links. -/
lemma noLink_of_locate (h : v.root.locate (place ++ names) = some n)
    (hlink : ∀ target, n ≠ .symlink target) {front : List Name} (hfront : front <+: names) :
    ∃ m, v.root.locate (place ++ front) = some m ∧ ∀ target, m ≠ .symlink target := by
  obtain ⟨rest, rfl⟩ := hfront
  rw [← List.append_assoc, Node.locate_append] at h
  obtain ⟨m, hm, hrest⟩ := Option.bind_eq_some_iff.1 h
  refine ⟨m, hm, fun target hm' => ?_⟩
  subst hm'
  cases rest with
  | nil => exact hlink target (Option.some.inj hrest).symm
  | cons name rest => exact absurd hrest (by simp [Node.locate, Node.lookup])

end Volume

/-- Follow the parts of a path; `link` goes on at a symbolic link. -/
def follow (root : Node) (link : List Name → List Name → Option (List Name)) (dir : List Name) :
    List Name → Option (List Name)
  | [] => some dir
  | part :: rest =>
    if (root.locate dir).any Node.isDir then
      if part = [] ∨ part = [0x2E] then follow root link dir rest
      else if part = [0x2E, 0x2E] then follow root link dir.dropLast rest
      else
        match root.locate (dir ++ [part]) with
        | none => none
        | some (.symlink target) => link (pathStart dir target) (pathParts target ++ rest)
        | some _ => follow root link (dir ++ [part]) rest
    else none

/-- Follow the parts of a path, and at most so many symbolic links. -/
def resolve (root : Node) : ℕ → List Name → List Name → Option (List Name)
  | 0 => follow root fun _ _ => none
  | links + 1 => follow root (resolve root links)

/-- Where a path leads that is joined to a directory. -/
def resolvePath (root : Node) (links : ℕ) (dir : List Name) (path : Bytes) : Option (List Name) :=
  resolve root links (pathStart dir path) (pathParts path)

section Follow

variable {root : Node} {link : List Name → List Name → Option (List Name)} {dir : List Name}

/-- One name that is no link. -/
lemma follow_name {part : Name} {rest : List Name} {n : Node} (hname : OsName part)
    (hhere : root.locate (dir ++ [part]) = some n) (hlink : ∀ target, n ≠ .symlink target) :
    follow root link dir (part :: rest) = follow root link (dir ++ [part]) rest := by
  have hdir : (root.locate dir).any Node.isDir = true := by
    rw [Node.locate_append] at hhere
    obtain ⟨m, hm, hn⟩ := Option.bind_eq_some_iff.1 hhere
    cases m with
    | dir entries =>
      rw [hm]
      rfl
    | _ => exact absurd hn (by simp [Node.locate, Node.lookup])
  rw [follow, if_pos hdir, if_neg, if_neg hname.ne_dotdot, hhere]
  · cases n with
    | symlink target => exact absurd rfl (hlink target)
    | _ => rfl
  · rintro (hnil | hdot)
    · exact hname.ne_nil hnil
    · exact hname.ne_dot hdot

/-- **Names lead where they say**, when no link is on the way. -/
lemma follow_names (names : List Name) (hnames : ∀ name ∈ names, OsName name)
    (hway : ∀ front ≠ [], front <+: names → ∃ n, root.locate (dir ++ front) = some n ∧
      ∀ target, n ≠ .symlink target) :
    follow root link dir names = some (dir ++ names) := by
  induction names generalizing dir with
  | nil => rw [List.append_nil]; rfl
  | cons name names ih =>
    obtain ⟨n, hhere, hlink⟩ := hway [name] (List.cons_ne_nil _ _) ⟨names, rfl⟩
    rw [follow_name (hnames name List.mem_cons_self) hhere hlink, ih, List.append_assoc]
    · rfl
    · exact fun m hm => hnames m (List.mem_cons_of_mem _ hm)
    · intro front _ hfront
      obtain ⟨n, hn, hno⟩ := hway (name :: front) (List.cons_ne_nil _ _)
        ((List.prefix_cons_inj name).2 hfront)
      exact ⟨n, by rw [List.append_assoc]; exact hn, hno⟩

/-- What is reached without a link is what was left of the start, and parts of the path. -/
lemma exists_of_follow_none {parts place : List Name}
    (h : follow root (fun _ _ => none) dir parts = some place) :
    ∃ k ys, place = dir.take k ++ ys ∧ ∀ y ∈ ys, y ∈ parts := by
  induction parts generalizing dir with
  | nil =>
    obtain rfl := Option.some.inj h
    exact ⟨dir.length, [], by simp, by simp⟩
  | cons part rest ih =>
    rw [follow] at h
    split at h
    · split at h
      · obtain ⟨k, ys, hplace, hys⟩ := ih h
        exact ⟨k, ys, hplace, fun y hy => List.mem_cons_of_mem _ (hys y hy)⟩
      split at h
      · obtain ⟨k, ys, hplace, hys⟩ := ih h
        refine ⟨min k (dir.length - 1), ys, ?_, fun y hy => List.mem_cons_of_mem _ (hys y hy)⟩
        rw [hplace, List.dropLast_eq_take, List.take_take]
      · split at h
        · exact absurd h (by simp)
        · exact absurd h (by simp)
        · obtain ⟨k, ys, hplace, hys⟩ := ih h
          refine ⟨k, [part].take (k - dir.length) ++ ys, ?_, fun y hy => ?_⟩
          · rw [hplace, List.take_append, List.append_assoc]
          · rcases List.mem_append.1 hy with hy | hy
            · rw [List.mem_singleton.1 (List.mem_of_mem_take hy)]
              exact List.mem_cons_self
            · exact List.mem_cons_of_mem _ (hys y hy)
    · exact absurd h (by simp)

end Follow

/-- **A path followed without links leads only by names that it spells**: what is reached below the
directory is made of parts of the path. -/
lemma mem_of_resolve_zero {root : Node} {dir names : List Name} {path : Bytes}
    (h : resolvePath root 0 dir path = some (dir ++ names)) :
    ∀ name ∈ names, name ∈ pathParts path := by
  obtain ⟨k, ys, hplace, hys⟩ := exists_of_follow_none h
  intro name hname
  -- whichever start it was, `dir ++ names` is a beginning of `dir` and parts
  obtain ⟨j, hstart⟩ : ∃ j, (pathStart dir path).take k = dir.take j := by
    unfold pathStart
    split
    · exact ⟨0, by simp⟩
    · exact ⟨k, rfl⟩
  rw [hstart] at hplace
  have hnames : names = ys.drop (dir.length - (dir.take j).length) := by
    have hdrop := congrArg (List.drop dir.length) hplace
    rw [List.drop_left, List.drop_append, List.drop_of_length_le (by simp), List.nil_append]
      at hdrop
    exact hdrop
  rw [hnames] at hname
  exact hys name (List.mem_of_mem_drop hname)

/-- **The names that lead to a place spell a path that leads there**, unless it is a link. -/
lemma resolve_names {v : Volume} (links : ℕ) {dir names : List Name} {n : Node} (hne : names ≠ [])
    (hplace : v.root.locate (dir ++ names) = some n) (hlink : ∀ target, n ≠ .symlink target) :
    resolvePath v.root links dir ([slash].intercalate names) = some (dir ++ names) := by
  have hnames := Volume.osName_of_locate hplace
  have hway : ∀ front ≠ [], front <+: names → ∃ m, v.root.locate (dir ++ front) = some m ∧
      ∀ target, m ≠ .symlink target :=
    fun front _ hfront => Volume.noLink_of_locate hplace hlink hfront
  have hparts : pathParts ([slash].intercalate names) = names :=
    List.splitOn_intercalate (x := slash) (fun name hname => (hnames name hname).noSlash) hne
  have hstart : pathStart dir ([slash].intercalate names) = dir := by
    obtain ⟨name, rest, rfl⟩ := List.exists_cons_of_ne_nil hne
    have hname := hnames name List.mem_cons_self
    obtain ⟨b, bs, hb⟩ := List.exists_cons_of_ne_nil hname.ne_nil
    have hhead : ([slash].intercalate (name :: rest)).head? = some b := by
      rw [hb]
      cases rest <;> simp [List.intercalate, List.intersperse]
    rw [pathStart, if_neg]
    rw [hhead]
    intro heq
    exact hname.noSlash (by rw [hb, Option.some.inj heq]; exact List.mem_cons_self)
  rw [resolvePath, hparts, hstart]
  cases links with
  | zero => exact follow_names names hnames hway
  | succ links => exact follow_names names hnames hway

/-! ## Names that are text -/

/-- The bytes of a text. -/
def textBytes (cs : List Char) : Bytes := cs.flatMap String.utf8EncodeChar

/-- A name that is a text. -/
def IsText (name : Name) : Prop := ∃ cs, name = textBytes cs

/-- Text is decoded from its own bytes. -/
lemma utf8Decode_textBytes (cs : List Char) : Text.utf8Decode 0 0 0 0 (textBytes cs) = cs :=
  Text.utf8Decode_flatMap cs

lemma textBytes_cons (c : Char) (cs : List Char) :
    textBytes (c :: cs) = String.utf8EncodeChar c ++ textBytes cs := rfl

/-- An ASCII character is one byte. -/
lemma encodeChar_ascii {c : Char} (hc : c.toNat < 0x80) :
    String.utf8EncodeChar c = [UInt8.ofNat c.toNat] := by
  have hle : c.val.toNat ≤ 127 := Nat.le_of_lt_succ hc
  simp only [String.utf8EncodeChar]
  rw [if_pos hle]
  rfl

/-- Every byte of another character is beyond ASCII. -/
lemma le_of_mem_encodeChar {c : Char} (hc : 0x80 ≤ c.toNat) {b : UInt8}
    (hb : b ∈ String.utf8EncodeChar c) : 0x80 ≤ b.toNat := by
  have hgt : ¬ c.val.toNat ≤ 127 := Nat.not_le_of_gt hc
  have hbyte : ∀ m < 256, (UInt8.ofNat m).toNat = m := fun m hm => UInt8.toNat_ofNat_of_lt hm
  simp only [String.utf8EncodeChar] at hb
  rw [if_neg hgt] at hb
  generalize c.val.toNat = n at hb
  split at hb
  · rcases List.mem_cons.1 hb with rfl | hb
    · rw [hbyte _ (by omega)]
      omega
    · rw [List.mem_singleton.1 hb, hbyte _ (by omega)]
      omega
  split at hb
  · rcases List.mem_cons.1 hb with rfl | hb
    · rw [hbyte _ (by omega)]
      omega
    rcases List.mem_cons.1 hb with rfl | hb
    · rw [hbyte _ (by omega)]
      omega
    · rw [List.mem_singleton.1 hb, hbyte _ (by omega)]
      omega
  · rcases List.mem_cons.1 hb with rfl | hb
    · rw [hbyte _ (by omega)]
      omega
    rcases List.mem_cons.1 hb with rfl | hb
    · rw [hbyte _ (by omega)]
      omega
    rcases List.mem_cons.1 hb with rfl | hb
    · rw [hbyte _ (by omega)]
      omega
    · rw [List.mem_singleton.1 hb, hbyte _ (by omega)]
      omega

/-- An ASCII byte is in the bytes of its own character alone. -/
lemma mem_encodeChar_ascii {a c : Char} (ha : a.toNat < 0x80) :
    UInt8.ofNat a.toNat ∈ String.utf8EncodeChar c ↔ c = a := by
  have hbyte : ∀ n < 0x80, (UInt8.ofNat n).toNat = n :=
    fun n hn => UInt8.toNat_ofNat_of_lt (lt_trans hn (by decide))
  constructor
  · intro hmem
    by_cases hc : c.toNat < 0x80
    · rw [encodeChar_ascii hc, List.mem_singleton] at hmem
      have hnat := congrArg UInt8.toNat hmem
      rw [hbyte _ ha, hbyte _ hc] at hnat
      exact Char.toNat_inj.1 hnat.symm
    · have hle := le_of_mem_encodeChar (Nat.le_of_not_lt hc) hmem
      rw [hbyte _ ha] at hle
      omega
  · rintro rfl
    rw [encodeChar_ascii ha]
    exact List.mem_singleton_self _

/-- An ASCII byte is in the bytes of a text when its character is in the text. -/
lemma mem_textBytes_ascii {a : Char} (ha : a.toNat < 0x80) {cs : List Char} :
    UInt8.ofNat a.toNat ∈ textBytes cs ↔ a ∈ cs := by
  rw [textBytes, List.mem_flatMap]
  constructor
  · rintro ⟨c, hc, hmem⟩
    rwa [← (mem_encodeChar_ascii ha).1 hmem]
  · exact fun h => ⟨a, h, (mem_encodeChar_ascii ha).2 rfl⟩

lemma splitOn_append_of_notMem {α : Type} [DecidableEq α] {a : α} {front : List α}
    (h : a ∉ front) (l : List α) :
    (front ++ l).splitOn a = (l.splitOn a).modifyHead (front ++ ·) := by
  induction front with
  | nil =>
    rw [List.nil_append]
    cases l.splitOn a <;> rfl
  | cons x front ih =>
    rw [List.mem_cons, not_or] at h
    have hx : (x == a) = false := beq_false_of_ne (Ne.symm h.1)
    rw [List.cons_append, List.splitOn_cons_eq_if_modifyHead, hx, ih h.2]
    cases l.splitOn a <;> rfl

/-- **Taking a text apart at slashes is taking its bytes apart.** -/
lemma pathParts_textBytes (cs : List Char) :
    pathParts (textBytes cs) = (cs.splitOn '/').map textBytes := by
  have hslash : slash = UInt8.ofNat ('/').toNat := by decide
  induction cs with
  | nil => rfl
  | cons c cs ih =>
    rw [pathParts, textBytes_cons]
    by_cases hc : c = '/'
    · subst hc
      have hencode : String.utf8EncodeChar '/' = [slash] := encodeChar_ascii (by decide)
      have hbytes : ([slash] ++ textBytes cs).splitOn slash = [] :: (textBytes cs).splitOn slash :=
        List.splitOn_append_cons_self [] (textBytes cs)
      have htext : ('/' :: cs).splitOn '/' = [] :: cs.splitOn '/' :=
        List.splitOn_append_cons_self [] cs
      rw [hencode, hbytes, htext, List.map_cons]
      exact congrArg ([] :: ·) ih
    · have hnot : slash ∉ String.utf8EncodeChar c := by
        rw [hslash, mem_encodeChar_ascii (by decide)]
        exact hc
      have hbeq : (c == '/') = false := beq_false_of_ne hc
      have hsplit : (textBytes cs).splitOn slash = (cs.splitOn '/').map textBytes := ih
      rw [splitOn_append_of_notMem hnot, hsplit, List.splitOn_cons_eq_if_modifyHead, hbeq]
      cases cs.splitOn '/' <;> rfl

section Intercalate

variable {α : Type} {sep x : α} {l : List α} {ls : List (List α)}

lemma mem_intercalate_of_mem (hl : l ∈ ls) (hx : x ∈ l) : x ∈ [sep].intercalate ls := by
  induction ls with
  | nil => exact absurd hl List.not_mem_nil
  | cons y ls ih =>
    cases ls with
    | nil =>
      obtain rfl := List.mem_singleton.1 hl
      simpa [List.intercalate, List.intersperse] using hx
    | cons z ls =>
      rw [List.intercalate_cons_cons]
      rcases List.mem_cons.1 hl with rfl | hl
      · exact List.mem_append_left _ (List.mem_append_left _ hx)
      · exact List.mem_append_right _ (ih hl)

lemma mem_of_mem_intercalate (hx : x ∈ [sep].intercalate ls) : x = sep ∨ ∃ l ∈ ls, x ∈ l := by
  induction ls with
  | nil => exact absurd hx List.not_mem_nil
  | cons y ls ih =>
    cases ls with
    | nil => exact .inr ⟨y, List.mem_singleton_self y, by simpa [List.intercalate] using hx⟩
    | cons z ls =>
      rw [List.intercalate_cons_cons] at hx
      rcases List.mem_append.1 hx with hx | hx
      · rcases List.mem_append.1 hx with hx | hx
        · exact .inr ⟨y, List.mem_cons_self, hx⟩
        · exact .inl (List.mem_singleton.1 hx)
      · exact (ih hx).imp_right fun ⟨l, hl, hx⟩ => ⟨l, List.mem_cons_of_mem _ hl, hx⟩

end Intercalate

/-- The bytes of texts with slashes between are the bytes of one text. -/
lemma intercalate_textBytes (parts : List (List Char)) :
    [slash].intercalate (parts.map textBytes) = textBytes (['/'].intercalate parts) := by
  have hencode : textBytes ['/'] = [slash] := by decide
  have happend : ∀ a b, textBytes (a ++ b) = textBytes a ++ textBytes b := by
    intro a b
    exact List.flatMap_append
  induction parts with
  | nil => rfl
  | cons part parts ih =>
    cases parts with
    | nil => simp [List.intercalate, List.intersperse]
    | cons next parts =>
      rw [List.map_cons, List.map_cons, List.intercalate_cons_cons, List.intercalate_cons_cons,
        happend, happend, hencode, ← ih, List.map_cons]

end DirTree
