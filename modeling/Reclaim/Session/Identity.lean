import Reclaim.Block.Source
import Reclaim.Block.SourceId
import Reclaim.Imaging.Map
import Reclaim.Session.Pages

/-!
# Whose session a directory is

`create` records the identity of the source in the database and in `source.json`, which is written
in place; a crash on the way leaves whatever was there, or the beginning of the text.  `open` reads
`source.json` alone, and takes the source it is given for the session's own when it cannot.

`open_identifies_iff` says when an opened session is safe: another disk is refused, and the same
disk is accepted under another device number.
-/

namespace Reclaim

open FileBytes

variable {σ : Type}

/-! ## What identifies a source -/

/-- Persisted source identity. -/
structure SourceInfo where
  sourceId : String
  size : ℕ
  sectorSize : ℕ
  firstMibHash : Option String
  lastMibHash : Option String
  deriving DecidableEq, Repr

def SourceInfo.mib : ℕ := 1024 * 1024

/-- The hash of a region; `none` if it is empty or not read cleanly. -/
def hashAt (B : Backend) (src : BlockSource σ) (off n : ℕ) (s : σ) : Option String × σ :=
  let r := src.readAt s off n
  -- an empty region is not read at all
  (if n = 0 ∨ r.1.result.anyBad = true then none else some (hashBytes B .blake3 r.1.buf),
    if n = 0 then s else r.2)

/-- Hashes of the first and last MiB. -/
def sourceHashes (B : Backend) (src : BlockSource σ) (s : σ) :
    (Option String × Option String) × σ :=
  let first := hashAt B src 0 (min SourceInfo.mib src.len) s
  if SourceInfo.mib < src.len then
    let start := (src.len - SourceInfo.mib) / src.sector * src.sector
    let last := hashAt B src start (src.len - start) first.2
    ((first.1, last.1), last.2)
  else ((first.1, first.1), first.2)

lemma sourceHashes_long (B : Backend) {src : BlockSource σ} (s : σ) (h : SourceInfo.mib < src.len) :
    (sourceHashes B src s).1 = ((hashAt B src 0 (min SourceInfo.mib src.len) s).1,
      (hashAt B src ((src.len - SourceInfo.mib) / src.sector * src.sector)
        (src.len - (src.len - SourceInfo.mib) / src.sector * src.sector)
        (hashAt B src 0 (min SourceInfo.mib src.len) s).2).1) := congrArg Prod.fst (if_pos h)

lemma sourceHashes_short (B : Backend) {src : BlockSource σ} (s : σ)
    (h : ¬ SourceInfo.mib < src.len) :
    (sourceHashes B src s).1 = ((hashAt B src 0 (min SourceInfo.mib src.len) s).1,
      (hashAt B src 0 (min SourceInfo.mib src.len) s).1) := congrArg Prod.fst (if_neg h)

/-- The identity that `open_source` gives a session. -/
def sourceInfo (B : Backend) (src : BlockSource σ) (s : σ) : SourceInfo :=
  let hashes := (sourceHashes B src s).1
  ⟨src.id, src.len, src.sectorSize, hashes.1, hashes.2⟩

/-- Both hashes are known and they differ. -/
def hashDiffers : Option String → Option String → Bool
  | some a, some b => a != b
  | _, _ => false

namespace SourceInfo

/-- A hash that both sides know differs. -/
def HashesDiffer (a b : SourceInfo) : Prop :=
  hashDiffers a.firstMibHash b.firstMibHash = true ∨ hashDiffers a.lastMibHash b.lastMibHash = true

instance (a b : SourceInfo) : Decidable (a.HashesDiffer b) :=
  inferInstanceAs (Decidable (_ ∨ _))

/-- Two sources that are not one disk. -/
def Differs (a b : SourceInfo) : Prop := a.size ≠ b.size ∨ a.HashesDiffer b

/-- A disk under another device number: the size is the same, and every hash known on both
sides. -/
structure Replugged (a b : SourceInfo) : Prop where
  numbers : ∃ bsd bsd' len, a.sourceId = (SourceId.device bsd len).text ∧
    b.sourceId = (SourceId.device bsd' len).text ∧ bsd ≠ bsd'
  size : a.size = b.size
  sectorSize : a.sectorSize = b.sectorSize
  hashes : ¬ a.HashesDiffer b

/-- Another number is another id. -/
lemma Replugged.id_ne {a b : SourceInfo} (h : a.Replugged b) : a.sourceId ≠ b.sourceId := by
  obtain ⟨bsd, bsd', len, ha, hb, hne⟩ := h.numbers
  rw [ha, hb]
  intro heq
  have hid := SourceId.text_injective heq
  simp only [SourceId.device.injEq] at hid
  exact hne hid.1

end SourceInfo

/-- Two openings of one medium: the same length, and what both read cleanly is the same. -/
structure SameMedium (src src' : BlockSource σ) : Prop where
  len : src.len = src'.len
  sectorSize : src.sectorSize = src'.sectorSize
  reads : ∀ s s' off n, (src.readAt s off n).1.result.anyBad = false →
    (src'.readAt s' off n).1.result.anyBad = false →
      (src.readAt s off n).1.buf = (src'.readAt s' off n).1.buf

/-- A region of one medium never has two known hashes. -/
lemma hashAt_sameMedium (B : Backend) {src src' : BlockSource σ} (h : SameMedium src src')
    (off n : ℕ) (s s' : σ) :
    hashDiffers (hashAt B src off n s).1 (hashAt B src' off n s').1 = false := by
  simp only [hashAt]
  by_cases hbad : n = 0 ∨ (src.readAt s off n).1.result.anyBad = true
  · simp only [if_pos hbad, hashDiffers]
  · by_cases hbad' : n = 0 ∨ (src'.readAt s' off n).1.result.anyBad = true
    · simp only [if_neg hbad, if_pos hbad', hashDiffers]
    · rw [not_or, Bool.not_eq_true] at hbad hbad'
      have hsame := h.reads s s' off n hbad.2 hbad'.2
      simp [hashDiffers, hbad.1, hbad.2, hbad'.2, hsame]

/-- The hashes of one medium never differ. -/
lemma sourceHashes_sameMedium (B : Backend) {src src' : BlockSource σ} (h : SameMedium src src')
    (s s' : σ) :
    hashDiffers (sourceHashes B src s).1.1 (sourceHashes B src' s').1.1 = false ∧
      hashDiffers (sourceHashes B src s).1.2 (sourceHashes B src' s').1.2 = false := by
  have hsector : src'.sector = src.sector := by
    rw [BlockSource.sector, BlockSource.sector, h.sectorSize]
  have hfirst := hashAt_sameMedium B h 0 (min SourceInfo.mib src.len) s s'
  by_cases hlong : SourceInfo.mib < src.len
  · have hlong' : SourceInfo.mib < src'.len := by rw [← h.len]; exact hlong
    rw [sourceHashes_long B s hlong, sourceHashes_long B s' hlong', hsector, ← h.len]
    exact ⟨hfirst, hashAt_sameMedium B h _ _ _ _⟩
  · have hshort' : ¬ SourceInfo.mib < src'.len := by rw [← h.len]; exact hlong
    rw [sourceHashes_short B s hlong, sourceHashes_short B s' hshort', ← h.len]
    exact ⟨hfirst, hfirst⟩

/-- **One medium under two device numbers is a re-plugged disk.** -/
lemma replugged_of_sameMedium (B : Backend) {src src' : BlockSource σ} (h : SameMedium src src')
    {bsd bsd' : String} (hne : bsd ≠ bsd') (hid : src.id = (SourceId.device bsd src.len).text)
    (hid' : src'.id = (SourceId.device bsd' src'.len).text) (s s' : σ) :
    (sourceInfo B src s).Replugged (sourceInfo B src' s') := by
  obtain ⟨hfirst, hlast⟩ := sourceHashes_sameMedium B h s s'
  refine ⟨⟨bsd, bsd', src.len, hid, by rw [h.len]; exact hid', hne⟩, h.len, h.sectorSize, ?_⟩
  rintro (hdiffers | hdiffers)
  · exact absurd (hfirst.symm.trans hdiffers) Bool.false_ne_true
  · exact absurd (hlast.symm.trans hdiffers) Bool.false_ne_true

/-! ## The directory -/

/-- A row of the database's table of sources. -/
structure SourceRow where
  id : String
  size : ℤ
  sectorSize : ℕ
  deriving DecidableEq, Repr

/-- What a session directory holds of its source. -/
structure SessionDir where
  thumbs : Bool
  /-- The table of sources, when there is a database. -/
  sources : Option (List SourceRow)
  sourceJson : Option Bytes

/-- An open session. -/
structure Session where
  dir : SessionDir
  source : SourceInfo

inductive SessionError where
  | sourceMismatch (message : String)
  deriving DecidableEq, Repr

/-- `serde_json` on an identity. -/
structure InfoJson where
  render : SourceInfo → Bytes
  parse : Bytes → Option SourceInfo

namespace SessionDir

def makeThumbs (d : SessionDir) : SessionDir := { d with thumbs := true }

/-- `Store::open`: the database, created if there is none. -/
def openStore (d : SessionDir) : SessionDir := { d with sources := some (d.sources.getD []) }

/-- `put_source`. -/
def putSource (info : SourceInfo) (d : SessionDir) : SessionDir :=
  { d with sources := d.sources.map fun rows =>
      rows.filter (fun r => r.id ≠ info.sourceId) ++
        [⟨info.sourceId, asI64 info.size, info.sectorSize⟩] }

/-- `source.json` is opened for writing. -/
def truncateSource (d : SessionDir) : SessionDir := { d with sourceJson := some [] }

def appendSource (b : UInt8) (d : SessionDir) : SessionDir :=
  { d with sourceJson := d.sourceJson.map (· ++ [b]) }

end SessionDir

variable (J : InfoJson)

/-- What `create` does to the directory; the text is written from its beginning on. -/
def createSteps (info : SourceInfo) : List (SessionDir → SessionDir) :=
  [.makeThumbs, .openStore, .putSource info, .truncateSource] ++
    (J.render info).map SessionDir.appendSource

/-- The directory when `create` is cut off after `n` steps. -/
def created (info : SourceInfo) (d : SessionDir) (n : ℕ) : SessionDir :=
  ((createSteps J info).take n).foldl (fun d step => step d) d

/-- `Session::create`. -/
def createSession (dir : SessionDir) (source : SourceInfo) : Session :=
  ⟨created J source dir (createSteps J source).length, source⟩

def readSourceJson (d : SessionDir) : Option SourceInfo := d.sourceJson.bind J.parse

/-- `Session::open`. -/
def openSession (d : SessionDir) (expect : SourceInfo) (force : Bool) :
    Except SessionError Session :=
  let d := d.openStore
  let source := (readSourceJson J d).getD expect
  if !force && source.sourceId != expect.sourceId then
    .error (.sourceMismatch ("session was created for " ++ source.sourceId ++ ", not " ++
      expect.sourceId ++ " (use --force-source)"))
  else if !force && hashDiffers source.firstMibHash expect.firstMibHash then
    .error (.sourceMismatch ("source content changed (first-MiB hash " ++
      source.firstMibHash.getD "" ++ " != " ++ expect.firstMibHash.getD "" ++
      "); use --force-source"))
  else if !force && hashDiffers source.lastMibHash expect.lastMibHash then
    .error (.sourceMismatch ("source content changed (last-MiB hash " ++
      source.lastMibHash.getD "" ++ " != " ++ expect.lastMibHash.getD "" ++
      "); use --force-source"))
  else .ok ⟨d, expect⟩

/-- The session is opened for the source, without force. -/
def Accepts (d : SessionDir) (source : SourceInfo) : Prop :=
  ∃ session, openSession J d source false = .ok session

/-- The session of `a` is safe with `b`: another disk is refused, the same one accepted. -/
structure Identifies (d : SessionDir) (a b : SourceInfo) : Prop where
  refuses : a.Differs b → ¬ Accepts J d b
  accepts : a.Replugged b → Accepts J d b

/-- What `open` looks at tells the two apart. -/
def SourceInfo.Mismatch (a b : SourceInfo) : Prop :=
  a.sourceId ≠ b.sourceId ∨ a.HashesDiffer b

lemma hashDiffers_self (h : Option String) : hashDiffers h h = false := by
  cases h with
  | none => rfl
  | some h => exact bne_self_eq_false h

lemma SourceInfo.not_mismatch_self (a : SourceInfo) : ¬ a.Mismatch a := by
  rintro (h | h | h)
  · exact h rfl
  · exact absurd ((hashDiffers_self _).symm.trans h) Bool.false_ne_true
  · exact absurd ((hashDiffers_self _).symm.trans h) Bool.false_ne_true

/-- **What `open` refuses**: a source that does not match what `source.json` says, if it can be
read. -/
lemma accepts_iff {J : InfoJson} {d : SessionDir} {source : SourceInfo} :
    Accepts J d source ↔ ∀ stored ∈ readSourceJson J d, ¬ stored.Mismatch source := by
  have hstored : (∀ stored ∈ readSourceJson J d, ¬ stored.Mismatch source) ↔
      ¬ ((readSourceJson J d).getD source).Mismatch source := by
    cases readSourceJson J d with
    | none => simpa using source.not_mismatch_self
    | some stored => simp
  rw [hstored, Accepts]
  have hread : readSourceJson J d.openStore = readSourceJson J d := rfl
  simp only [openSession, Bool.not_false, Bool.true_and, hread, SourceInfo.Mismatch,
    SourceInfo.HashesDiffer, bne_iff_ne]
  generalize (readSourceJson J d).getD source = stored
  split
  · rename_i hid
    exact iff_of_false (by simp) fun h => h (.inl hid)
  · rename_i hid
    split
    · rename_i hfirst
      exact iff_of_false (by simp) fun h => h (.inr (.inl hfirst))
    · rename_i hfirst
      split
      · rename_i hlast
        exact iff_of_false (by simp) fun h => h (.inr (.inr hlast))
      · rename_i hlast
        refine iff_of_true ⟨_, rfl⟩ ?_
        rintro (h | h | h)
        · exact hid h
        · exact hfirst h
        · exact hlast h

/-! ## A crash on the way -/

lemma sourceJson_append (bs text : Bytes) (d : SessionDir) (h : d.sourceJson = some text) :
    ((bs.map SessionDir.appendSource).foldl (fun d step => step d) d).sourceJson =
      some (text ++ bs) := by
  induction bs generalizing text d with
  | nil => simpa using h
  | cons b bs ih =>
    rw [List.map_cons, List.foldl_cons, ih (text ++ [b]), List.append_assoc]
    · rfl
    · rw [SessionDir.appendSource, h]
      rfl

/-- The file is what it was, or the beginning of the new text. -/
lemma created_sourceJson (info : SourceInfo) (d : SessionDir) (n : ℕ) :
    (created J info d n).sourceJson =
      if n < 4 then d.sourceJson else some ((J.render info).take (n - 4)) := by
  match n with
  | 0 | 1 | 2 | 3 => rfl
  | n + 4 =>
    have hsteps : (createSteps J info).take (n + 4) =
        [.makeThumbs, .openStore, .putSource info, .truncateSource] ++
          ((J.render info).take n).map SessionDir.appendSource := by
      rw [createSteps, List.map_take]
      rfl
    rw [if_neg (by omega), created, hsteps, List.foldl_append, sourceJson_append _ []]
    · simp
    · rfl

/-- What can be read after a crash: what was there, nothing, or the identity. -/
lemma readSourceJson_created {J : InfoJson} {info : SourceInfo}
    (hread : J.parse (J.render info) = some info)
    (htorn : ∀ p, p <+: J.render info → p ≠ J.render info → J.parse p = none)
    (d : SessionDir) (n : ℕ) : readSourceJson J (created J info d n) =
      if 4 + (J.render info).length ≤ n then some info
      else if 4 ≤ n then none else readSourceJson J d := by
  rw [readSourceJson, created_sourceJson]
  by_cases hold : n < 4
  · rw [if_pos hold, if_neg (by omega), if_neg (by omega)]
    rfl
  · rw [if_neg hold, Option.bind_some]
    by_cases hwhole : 4 + (J.render info).length ≤ n
    · rw [if_pos hwhole, List.take_of_length_le (by omega), hread]
    · rw [if_neg hwhole, if_pos (by omega)]
      apply htorn _ (List.take_prefix _ _)
      intro heq
      have hlen := congrArg List.length heq
      rw [List.length_take] at hlen
      omega

/-- What an opened session relies on. -/
lemma identifies_iff {J : InfoJson} {d : SessionDir} {a b : SourceInfo} :
    Identifies J d a b ↔ (readSourceJson J d = none → ¬ a.Differs b) ∧
      ∀ stored ∈ readSourceJson J d,
        (a.Differs b → stored.Mismatch b) ∧ (a.Replugged b → ¬ stored.Mismatch b) := by
  cases hstored : readSourceJson J d with
  | none =>
    have haccepts : Accepts J d b := accepts_iff.2 (by simp [hstored])
    constructor
    · exact fun h => ⟨fun _ hdiffers => h.refuses hdiffers haccepts, by simp⟩
    · exact fun h => ⟨fun hdiffers => absurd hdiffers (h.1 rfl), fun _ => haccepts⟩
  | some stored =>
    have haccepts : Accepts J d b ↔ ¬ stored.Mismatch b := by
      rw [accepts_iff, hstored]
      simp
    constructor
    · intro h
      refine ⟨by simp, fun s hs => ?_⟩
      obtain rfl := Option.some.inj hs
      exact ⟨fun hdiffers => not_not.1 fun hno => h.refuses hdiffers (haccepts.2 hno),
        fun hsame => haccepts.1 (h.accepts hsame)⟩
    · intro h
      obtain ⟨hrefuses, hkeeps⟩ := h.2 stored rfl
      exact ⟨fun hdiffers hopen => haccepts.1 hopen (hrefuses hdiffers),
        fun hsame => haccepts.2 (hkeeps hsame)⟩

/-- The identity that was written tells apart what its size, id and hashes tell apart. -/
lemma written_identifies_iff {a b : SourceInfo} :
    ((a.Differs b → a.Mismatch b) ∧ (a.Replugged b → ¬ a.Mismatch b)) ↔
      ¬ a.Replugged b ∧ (a.size ≠ b.size → a.Mismatch b) := by
  constructor
  · rintro ⟨hdiffers, hsame⟩
    exact ⟨fun h => hsame h (.inl h.id_ne), fun h => hdiffers (.inl h)⟩
  · rintro ⟨hno, hsize⟩
    refine ⟨?_, fun h => absurd h hno⟩
    rintro (h | h)
    · exact hsize h
    · exact .inr h

/-- **When a session knows its source.**  For every source, every directory that its session was
created in, whatever was there, every step at which the creation was cut off, and every source it
is opened with: another disk is refused and a re-plugged one accepted if and only if: when
`source.json` was written whole, the source is not re-plugged, and its size is the same or its id
or a known hash differs; when the file is torn, or was never there, the source is not another disk;
and when another session's is still there, what it says tells apart what should be. -/
theorem open_identifies_iff (J : InfoJson) (a b : SourceInfo) (d : SessionDir) (n : ℕ)
    (hread : J.parse (J.render a) = some a)
    (htorn : ∀ p, p <+: J.render a → p ≠ J.render a → J.parse p = none) :
    Identifies J (created J a d n) a b ↔
      if 4 + (J.render a).length ≤ n then ¬ a.Replugged b ∧ (a.size ≠ b.size → a.Mismatch b)
      else if 4 ≤ n then ¬ a.Differs b
      else (readSourceJson J d = none → ¬ a.Differs b) ∧
        ∀ old ∈ readSourceJson J d,
          (a.Differs b → old.Mismatch b) ∧ (a.Replugged b → ¬ old.Mismatch b) := by
  rw [identifies_iff, readSourceJson_created hread htorn]
  by_cases hwhole : 4 + (J.render a).length ≤ n
  · rw [if_pos hwhole, if_pos hwhole, ← written_identifies_iff]
    simp
  · rw [if_neg hwhole, if_neg hwhole]
    by_cases htruncated : 4 ≤ n
    · rw [if_pos htruncated, if_pos htruncated]
      simp
    · rw [if_neg htruncated, if_neg htruncated]

/-! ## A disk that comes back under another number -/

/-- A disk of 1 MiB. -/
def numberedDisk (bsd : String) : SourceInfo where
  sourceId := (SourceId.device bsd 1048576).text
  size := 1048576
  sectorSize := 512
  firstMibHash := some "488de202f73bd976de4e7048f4e1f39a776d86d582b7348ff53bf432b987fca8"
  lastMibHash := some "488de202f73bd976de4e7048f4e1f39a776d86d582b7348ff53bf432b987fca8"

/-- A disk of 2 MiB. -/
def otherDisk : SourceInfo where
  sourceId := (SourceId.device "disk7" 2097152).text
  size := 2097152
  sectorSize := 512
  firstMibHash := none
  lastMibHash := none

/-- `source.json` of the disk. -/
def diskText : String :=
  "\x7b\n  \"source_id\": \"device:disk4:1048576\",\n  \"size\": 1048576,\n" ++
  "  \"sector_size\": 512,\n  \"first_mib_hash\": " ++
  "\"488de202f73bd976de4e7048f4e1f39a776d86d582b7348ff53bf432b987fca8\",\n" ++
  "  \"last_mib_hash\": " ++
  "\"488de202f73bd976de4e7048f4e1f39a776d86d582b7348ff53bf432b987fca8\"\n\x7d"

/-- The text of the disk alone, and what it says. -/
def diskJson : InfoJson where
  render := fun _ => utf8 diskText
  parse := fun text => if text = utf8 diskText then some (numberedDisk "disk4") else none

lemma diskJson_read : diskJson.parse (diskJson.render (numberedDisk "disk4")) =
    some (numberedDisk "disk4") := if_pos rfl

lemma diskJson_torn : ∀ p, p <+: diskJson.render (numberedDisk "disk4") →
    p ≠ diskJson.render (numberedDisk "disk4") → diskJson.parse p = none :=
  fun _ _ hne => if_neg hne

/-- A session directory before `create`. -/
def noSession : SessionDir := ⟨false, none, none⟩

lemma length_createSteps (info : SourceInfo) :
    (createSteps J info).length = 4 + (J.render info).length := by
  simp [createSteps]
  omega

/-- A session that was created to its end knows its disk under its old number. -/
theorem open_identifies_disk : Identifies diskJson
    (createSession diskJson noSession (numberedDisk "disk4")).dir
    (numberedDisk "disk4") (numberedDisk "disk4") := by
  refine (open_identifies_iff diskJson _ _ noSession _ diskJson_read diskJson_torn).2 ?_
  rw [if_pos (length_createSteps diskJson _).ge]
  exact ⟨fun h => h.id_ne rfl, fun h => absurd rfl h⟩

lemma numberedDisk_replugged : (numberedDisk "disk4").Replugged (numberedDisk "disk5") := by
  refine ⟨⟨"disk4", "disk5", 1048576, rfl, rfl, by decide⟩, rfl, rfl, ?_⟩
  rintro (h | h)
  · exact absurd ((hashDiffers_self _).symm.trans h) Bool.false_ne_true
  · exact absurd ((hashDiffers_self _).symm.trans h) Bool.false_ne_true

/-- **A disk that comes back under another number is refused, and after a crash before the text
was written every disk is accepted.** -/
theorem open_identifies_counterexample :
    ((numberedDisk "disk4").Replugged (numberedDisk "disk5") ∧
      ¬ Accepts diskJson (createSession diskJson noSession (numberedDisk "disk4")).dir
        (numberedDisk "disk5")) ∧
      (numberedDisk "disk4").Differs otherDisk ∧
      Accepts diskJson (created diskJson (numberedDisk "disk4") noSession 4) otherDisk := by
  have hwhole : readSourceJson diskJson
      (createSession diskJson noSession (numberedDisk "disk4")).dir =
        some (numberedDisk "disk4") := by
    rw [createSession, readSourceJson_created diskJson_read diskJson_torn]
    exact if_pos (length_createSteps diskJson _).ge
  have htorn : readSourceJson diskJson (created diskJson (numberedDisk "disk4") noSession 4) =
      none := if_neg (by decide +kernel)
  refine ⟨⟨numberedDisk_replugged, fun h => ?_⟩, .inl (by decide), accepts_iff.2 (by simp [htorn])⟩
  exact accepts_iff.1 h _ hwhole (.inl numberedDisk_replugged.id_ne)

end Reclaim
