import Reclaim.Fs.Fat

/-!
# Long file names

A long name is stored in front of the short one, in pieces of 13 units, the last piece first, each
with a checksum of the short name.  The walk joins the pieces that it finds right before a short
record; it does not look at their numbers nor at the checksum.
-/

namespace Reclaim

open FileBytes

namespace FatName

/-! ## What is stored -/

/-- A long name: at most 255 units of UTF-16, none of them the terminator or the padding. -/
structure LongName where
  units : List ℕ
  length_pos : 0 < units.length
  length_le : units.length ≤ 255
  units_lt : ∀ u ∈ units, 0 < u ∧ u < 0xFFFF

/-- The checksum of a short name: each byte is added to the sum rotated by one bit. -/
def checksum (short : Bytes) : ℕ :=
  short.foldl (fun sum b => (sum / 2 + sum % 2 * 128 + b.toNat) % 256) 0

/-- A unit, as it is stored. -/
def unitBytes (u : ℕ) : Bytes := [UInt8.ofNat u, UInt8.ofNat (u / 256)]

/-- The record of a piece of 13 units. -/
def pieceRecord (first : UInt8) (sum : ℕ) (units : List ℕ) : Bytes :=
  first :: (units.take 5).flatMap unitBytes ++ [0x0F, 0, UInt8.ofNat sum] ++
    ((units.drop 5).take 6).flatMap unitBytes ++ [0, 0] ++ (units.drop 11).flatMap unitBytes

namespace LongName

variable (n : LongName)

/-- The name that the units are. -/
def text : String := Text.fromUtf16Lossy n.units

/-- The units with the terminator and the padding, if they do not fill their pieces. -/
def padded : List ℕ :=
  if n.units.length % 13 = 0 then n.units
  else n.units ++ 0 :: List.replicate (12 - n.units.length % 13) 0xFFFF

/-- How many pieces there are. -/
def pieces : ℕ := n.padded.length / 13

/-- The units of a piece. -/
def piece (k : ℕ) : List ℕ := (n.padded.drop (13 * k)).take 13

/-- The first byte of a piece: its number, with a mark on the last one, or that of a deleted
record. -/
def pieceMark (deleted : Bool) (k : ℕ) : UInt8 :=
  if deleted then 0xE5 else UInt8.ofNat (k + 1 + if k + 1 = n.pieces then 0x40 else 0)

/-- The records that are stored in front of a short name, the last piece first. -/
def records (deleted : Bool) (short : Bytes) : List Bytes :=
  ((List.range n.pieces).map fun k =>
    pieceRecord (n.pieceMark deleted k) (checksum short) (n.piece k)).reverse

end LongName

/-! ## What is read -/

/-- A record of a piece. -/
def IsPiece (ent : Bytes) : Prop := byteAt ent 0 ≠ 0 ∧ byteAt ent 11 = FatFs.attrLfn

/-- The record is a volume label. -/
def IsLabel (ent : Bytes) : Prop :=
  (byteAt ent 11).toNat.testBit 3 = true ∧ (byteAt ent 11).toNat.testBit 4 = false

instance : DecidablePred IsPiece := fun _ => inferInstanceAs (Decidable (_ ∧ _))

instance : DecidablePred IsLabel := fun _ => inferInstanceAs (Decidable (_ ∧ _))

/-- A record of a file or a directory. -/
structure IsShort (ent : Bytes) : Prop where
  inside : byteAt ent 0 ≠ 0
  not_piece : byteAt ent 11 ≠ FatFs.attrLfn
  not_label : ¬ IsLabel ent

/-- The name that a short record is given with the pieces before it. -/
def recordName (siblings run : List Bytes) (ent : Bytes) : String :=
  (assembleLfn (run.map lfnChars)).getD (shortName ent (byteAt ent 0 == FatFs.deletedMark) siblings)

/-- The short records up to the end mark, with their names; the pieces of `run` come before them. -/
def named (siblings : List Bytes) : List Bytes → List Bytes → List (String × Bytes)
  | _, [] => []
  | run, ent :: ents =>
    if byteAt ent 0 = 0 then []
    else if byteAt ent 11 = FatFs.attrLfn then named siblings (run ++ [ent]) ents
    else if IsLabel ent then named siblings [] ents
    else (recordName siblings run ent, ent) :: named siblings [] ents

variable {siblings run before rest : List Bytes} {ent x : Bytes}

lemma named_piece (h : IsPiece ent) :
    named siblings run (ent :: rest) = named siblings (run ++ [ent]) rest := by
  rw [named, if_neg h.1, if_pos h.2]

lemma named_short (h : IsShort ent) :
    named siblings run (ent :: rest) =
      (recordName siblings run ent, ent) :: named siblings [] rest := by
  rw [named, if_neg h.inside, if_neg h.not_piece, if_neg h.not_label]

lemma named_label (hinside : byteAt ent 0 ≠ 0) (hpiece : byteAt ent 11 ≠ FatFs.attrLfn)
    (h : IsLabel ent) : named siblings run (ent :: rest) = named siblings [] rest := by
  rw [named, if_neg hinside, if_neg hpiece, if_pos h]

/-- Pieces come before the next short record. -/
lemma named_pieces (hrun : ∀ r ∈ before, IsPiece r) :
    named siblings run (before ++ rest) = named siblings (run ++ before) rest := by
  induction before generalizing run with
  | nil => rw [List.nil_append, List.append_nil]
  | cons r rs ih =>
    rw [List.cons_append, named_piece (hrun r List.mem_cons_self),
      ih fun r hr => hrun r (List.mem_cons_of_mem _ hr), List.append_assoc, List.singleton_append]

/-- Behind a record that is not a piece there are no pieces of another one. -/
lemma named_append (hbefore : ∀ r ∈ before, byteAt r 0 ≠ 0) (hinside : byteAt x 0 ≠ 0)
    (hx : byteAt x 11 ≠ FatFs.attrLfn) :
    named siblings run (before ++ x :: rest) =
      named siblings run (before ++ [x]) ++ named siblings [] rest := by
  induction before generalizing run with
  | nil =>
    by_cases hlabel : IsLabel x
    · rw [List.nil_append, List.nil_append, named_label hinside hx hlabel,
        named_label hinside hx hlabel]
      rfl
    · rw [List.nil_append, List.nil_append, named_short ⟨hinside, hx, hlabel⟩,
        named_short ⟨hinside, hx, hlabel⟩]
      rfl
  | cons r rs ih =>
    have hr := hbefore r List.mem_cons_self
    have hrs : ∀ run, named siblings run (rs ++ x :: rest) =
        named siblings run (rs ++ [x]) ++ named siblings [] rest := fun _ =>
      ih fun r hr => hbefore r (List.mem_cons_of_mem _ hr)
    rw [List.cons_append, List.cons_append, named, named, if_neg hr, if_neg hr]
    split
    · exact hrs _
    split
    · exact hrs _
    · rw [hrs, List.cons_append]

/-- No end mark, and no pieces that are still open. -/
structure Closed (before : List Bytes) : Prop where
  inside : ∀ r ∈ before, byteAt r 0 ≠ 0
  last : ∀ r ∈ before.getLast?, byteAt r 11 ≠ FatFs.attrLfn

/-- **A short record is named by the pieces right before it**, and by no others. -/
lemma named_run (hbefore : Closed before) (hrun : ∀ r ∈ run, IsPiece r) (hent : IsShort ent) :
    named siblings [] (before ++ (run ++ ent :: rest)) =
      named siblings [] before ++ (recordName siblings run ent, ent) :: named siblings [] rest := by
  have hgroup : named siblings [] (run ++ ent :: rest) =
      (recordName siblings run ent, ent) :: named siblings [] rest := by
    rw [named_pieces hrun, List.nil_append, named_short hent]
  rcases List.eq_nil_or_concat before with rfl | ⟨init, x, rfl⟩
  · exact hgroup
  · rw [List.concat_eq_append] at hbefore ⊢
    have hinit : ∀ r ∈ init, byteAt r 0 ≠ 0 := fun r hr =>
      hbefore.inside r (List.mem_append_left _ hr)
    have hx := hbefore.inside x (List.mem_append_right _ List.mem_cons_self)
    rw [List.append_assoc, List.singleton_append, named_append hinit hx (hbefore.last x (by simp)),
      hgroup]

/-! ## Pieces -/

section Pieces

variable {u : ℕ} {units : List ℕ} {first : UInt8} {sum : ℕ}

lemma length_unitBytes : (units.flatMap unitBytes).length = 2 * units.length := by
  rw [List.length_flatMap]
  simp [unitBytes, Nat.mul_comm]

lemma length_pieceRecord (h : units.length = 13) : (pieceRecord first sum units).length = 32 := by
  simp only [pieceRecord, List.length_append, List.length_cons, length_unitBytes, List.length_take,
    List.length_drop, List.length_nil, h]
  rfl

/-- The bytes of a unit are the unit. -/
lemma unit_eq (h : u < 2 ^ 16) :
    (UInt8.ofNat u).toNat + 256 * ((UInt8.ofNat (u / 256)).toNat + 256 * 0) = u := by
  rw [UInt8.toNat_ofNat', UInt8.toNat_ofNat']
  omega

/-- **A piece is read back.** -/
lemma lfnChars_pieceRecord (h : units.length = 13) (hunits : ∀ u ∈ units, u < 2 ^ 16) :
    lfnChars (pieceRecord first sum units) = units := by
  have hread : lfnChars (pieceRecord first sum units) = units.map fun u =>
      (UInt8.ofNat u).toNat + 256 * ((UInt8.ofNat (u / 256)).toNat + 256 * 0) := by
    match units, h with
    | [_, _, _, _, _, _, _, _, _, _, _, _, _], _ => rfl
  rw [hread]
  exact (List.map_congr_left fun u hu => unit_eq (hunits u hu)).trans (List.map_id _)

lemma isPiece_pieceRecord (h : units.length = 13) (hfirst : first ≠ 0) :
    IsPiece (pieceRecord first sum units) := by
  refine ⟨hfirst, ?_⟩
  match units, h with
  | [_, _, _, _, _, _, _, _, _, _, _, _, _], _ => rfl

/-- The checksum is stored. -/
lemma checksum_pieceRecord (h : units.length = 13) :
    byteAt (pieceRecord first sum units) 13 = UInt8.ofNat sum := by
  match units, h with
  | [_, _, _, _, _, _, _, _, _, _, _, _, _], _ => rfl

/-- The parts of a list, one after the other. -/
lemma flatten_parts (l : List ℕ) (count : ℕ) :
    ((List.range count).map fun k => (l.drop (13 * k)).take 13).flatten = l.take (13 * count) := by
  induction count with
  | zero => rfl
  | succ count ih =>
    rw [List.range_succ, List.map_append, List.flatten_append, ih, List.map_singleton,
      List.flatten_singleton, Nat.mul_succ, List.take_add]

end Pieces

namespace LongName

variable (n : LongName)

lemma length_padded : n.padded.length = 13 * n.pieces := by
  have hdvd : 13 ∣ n.padded.length := by
    unfold padded
    split
    · exact Nat.dvd_of_mod_eq_zero ‹_›
    · rw [List.length_append, List.length_cons, List.length_replicate]
      omega
  rw [pieces, Nat.mul_div_cancel' hdvd]

lemma pieces_le : n.pieces ≤ 20 := by
  have hlen : n.padded.length ≤ 260 := by
    have := n.length_le
    unfold padded
    split
    · omega
    · rw [List.length_append, List.length_cons, List.length_replicate]
      omega
  have := n.length_padded
  omega

lemma length_piece {k : ℕ} (hk : k < n.pieces) : (n.piece k).length = 13 := by
  rw [piece, List.length_take, List.length_drop, n.length_padded]
  omega

lemma padded_lt : ∀ u ∈ n.padded, u < 2 ^ 16 := by
  intro u hu
  unfold padded at hu
  split at hu
  · exact (n.units_lt u hu).2.trans (by omega)
  · rcases List.mem_append.1 hu with hu | hu
    · exact (n.units_lt u hu).2.trans (by omega)
    · rcases List.mem_cons.1 hu with rfl | hu
      · decide
      · rw [List.eq_of_mem_replicate hu]
        decide

/-- Without the terminator and the padding. -/
lemma filter_padded : (n.padded.filter fun u => decide (u ≠ 0 ∧ u ≠ 0xFFFF)) = n.units := by
  have hunits : (n.units.filter fun u => decide (u ≠ 0 ∧ u ≠ 0xFFFF)) = n.units :=
    List.filter_eq_self.2 fun u hu => by
      have := n.units_lt u hu
      exact decide_eq_true (by omega)
  unfold padded
  split
  · exact hunits
  · rw [List.filter_append, hunits]
    simp

lemma pieceMark_ne_zero {deleted : Bool} {k : ℕ} (hk : k < n.pieces) :
    n.pieceMark deleted k ≠ 0 := by
  have hle := n.pieces_le
  unfold pieceMark
  split
  · decide
  · intro h
    have hzero := congrArg UInt8.toNat h
    rw [UInt8.toNat_ofNat'] at hzero
    split at hzero
    · have hzero' : (k + 1 + 0x40) % 256 = 0 := hzero
      omega
    · have hzero' : (k + 1 + 0) % 256 = 0 := hzero
      omega

variable {n} {deleted : Bool} {short r : Bytes}

lemma mem_records (hr : r ∈ n.records deleted short) :
    ∃ k < n.pieces, r = pieceRecord (n.pieceMark deleted k) (checksum short) (n.piece k) := by
  obtain ⟨k, hk, rfl⟩ := List.mem_map.1 (List.mem_reverse.1 hr)
  exact ⟨k, List.mem_range.1 hk, rfl⟩

lemma isPiece_of_mem_records (hr : r ∈ n.records deleted short) : IsPiece r := by
  obtain ⟨k, hk, rfl⟩ := mem_records hr
  exact isPiece_pieceRecord (n.length_piece hk) (n.pieceMark_ne_zero hk)

lemma length_of_mem_records (hr : r ∈ n.records deleted short) : r.length = 32 := by
  obtain ⟨k, hk, rfl⟩ := mem_records hr
  exact length_pieceRecord (n.length_piece hk)

/-- Every piece carries the checksum of the short name. -/
lemma checksum_of_mem_records (hr : r ∈ n.records deleted short) :
    byteAt r 13 = UInt8.ofNat (checksum short) := by
  obtain ⟨k, hk, rfl⟩ := mem_records hr
  exact checksum_pieceRecord (n.length_piece hk)

/-- **The pieces of a name are the name.** -/
lemma assembleLfn_records :
    assembleLfn ((n.records deleted short).map lfnChars) = some n.text := by
  have hread : ((n.records deleted short).map lfnChars).reverse =
      (List.range n.pieces).map n.piece := by
    rw [records, List.map_reverse, List.reverse_reverse, List.map_map]
    apply List.map_congr_left
    intro k hk
    apply lfnChars_pieceRecord (n.length_piece (List.mem_range.1 hk))
    intro u hu
    exact n.padded_lt u (List.mem_of_mem_drop (List.mem_of_mem_take hu))
  have hunits : ((n.records deleted short).map lfnChars).reverse.flatten = n.padded := by
    rw [hread]
    exact (flatten_parts n.padded n.pieces).trans
      (List.take_of_length_le n.length_padded.le)
  have hne : n.units ≠ [] := List.ne_nil_of_length_pos n.length_pos
  rw [assembleLfn, hunits, n.filter_padded, if_neg hne, text]

end LongName

end FatName

/-! ## The entries of a directory -/

namespace FatFs

open FatName

variable (fs : FatFs)

/-- The entry of a short record with its name; none for the directory itself and its parent. -/
def namedEntry (parent : String) (n : String × Bytes) : Option Entry :=
  if n.1 = "." ∨ n.1 = ".." ∨ n.1 = "" then none
  else
    let deleted := byteAt n.2 0 == deletedMark
    some (fs.recordEntry n.2 deleted ((byteAt n.2 11).toNat.testBit 4) n.1 (childPath parent n.1)
      (fs.recordCluster n.2 deleted))

/-- The entries of a directory's records that the options ask for. -/
def namedEntries (opts : WalkOpts) (siblings run records : List Bytes) (parent : String) :
    List Entry :=
  ((named siblings run records).filterMap (fs.namedEntry parent)).filter (opts.includes ·.state)

variable {fs} {opts : WalkOpts}

/-- An entry that is asked for takes room. -/
lemma sink_emitAsked {w : Walked} (hroom : w.stats.emitted < opts.maxEntries) (e : Entry)
    (es : List Entry) :
    (emitAsked opts e w).sink ++
        (es.filter (opts.includes ·.state)).take
        (opts.maxEntries - (emitAsked opts e w).stats.emitted) =
      w.sink ++
        ((e :: es).filter (opts.includes ·.state)).take (opts.maxEntries - w.stats.emitted) := by
  unfold emitAsked
  split
  · rename_i hasked
    rw [List.filter_cons, if_pos hasked, w.emit_take e _ hroom]
  · rename_i hasked
    rw [List.filter_cons, if_neg hasked]

/-- **A directory's records are emitted as entries** until there are as many as there may be. -/
lemma sink_scanRecords (siblings : List Bytes) (parent : String) (records : List Bytes) :
    ∀ (run : List Bytes) (subdirs : List (ℕ × String)) (w : Walked),
      (fs.scanRecords opts siblings parent records (run.map lfnChars) subdirs w).1.sink =
        w.sink ++ (fs.namedEntries opts siblings run records parent).take
          (opts.maxEntries - w.stats.emitted) := by
  induction records with
  | nil =>
    intro run subdirs w
    exact ((congrArg (w.sink ++ ·) List.take_nil).trans (List.append_nil _)).symm
  | cons ent ents ih =>
    intro run subdirs w
    rw [scanRecords]
    split
    · rename_i hfull
      rw [Nat.sub_eq_zero_of_le hfull, List.take_zero, List.append_nil]
    rename_i hroom
    dsimp only
    unfold namedEntries
    split
    · rename_i hmark
      rw [named, if_pos hmark]
      exact ((congrArg (w.sink ++ ·) List.take_nil).trans (List.append_nil _)).symm
    rename_i hinside
    split
    · rename_i hpiece
      have hrun : run.map lfnChars ++ [lfnChars ent] = (run ++ [ent]).map lfnChars := by
        rw [List.map_append, List.map_singleton]
      rw [named_piece ⟨hinside, hpiece⟩, hrun]
      exact ih _ _ _
    rename_i hpiece
    split
    · rename_i hlabel
      rw [named_label hinside hpiece hlabel]
      exact ih [] _ _
    rename_i hlabel
    rw [named_short ⟨hinside, hpiece, hlabel⟩]
    split
    · rename_i hnone
      have hentry : fs.namedEntry parent (recordName siblings run ent, ent) = none := if_pos hnone
      rw [List.filterMap_cons_none hentry]
      exact ih [] _ _
    · rename_i hsome
      have hentry : fs.namedEntry parent (recordName siblings run ent, ent) = some _ := if_neg hsome
      rw [List.filterMap_cons_some hentry, ← sink_emitAsked (not_le.1 hroom)]
      exact ih [] _ _

/-- A directory's bytes are cut into the records that they are made of. -/
lemma dirRecords_flatten {records : List Bytes} (h : ∀ r ∈ records, r.length = 32) :
    dirRecords records.flatten = records := by
  induction records with
  | nil => rfl
  | cons r rs ih =>
    have hr := h r List.mem_cons_self
    have hlen : (r ++ rs.flatten).length / 32 = rs.flatten.length / 32 + 1 := by
      rw [List.length_append, hr]
      omega
    have hrest := ih fun r hr => h r (List.mem_cons_of_mem _ hr)
    rw [dirRecords] at hrest ⊢
    rw [List.flatten_cons, hlen, List.range_succ_eq_map, List.map_cons, List.map_map]
    refine congrArg₂ List.cons (List.take_left' hr) (Eq.trans ?_ hrest)
    apply List.map_congr_left
    intro k _
    have hskip : 32 * (k + 1) = r.length + 32 * k := by omega
    rw [Function.comp_apply, Nat.succ_eq_add_one, hskip, List.drop_length_add_append]

end FatFs

open FatName

/-- **Long names in a directory.**  The entries emitted are those of the short records with their
names. A short record is named by the pieces right before it, whatever checksum they carry, and by
no others; and the pieces that are stored for a name are the name. -/
theorem longNames_exact :
    (∀ (fs : FatFs) (opts : WalkOpts) (siblings records : List Bytes) (parent : String)
      (subdirs : List (ℕ × String)) (w : Walked),
        (fs.scanRecords opts siblings parent records [] subdirs w).1.sink =
          w.sink ++ (fs.namedEntries opts siblings [] records parent).take
            (opts.maxEntries - w.stats.emitted)) ∧
    (∀ (siblings before run after : List Bytes) (ent : Bytes),
      Closed before → (∀ r ∈ run, IsPiece r) → IsShort ent →
        named siblings [] (before ++ (run ++ ent :: after)) =
          named siblings [] before ++
            (recordName siblings run ent, ent) :: named siblings [] after) ∧
    (∀ records : List Bytes, (∀ r ∈ records, r.length = 32) →
      FatFs.dirRecords records.flatten = records) ∧
    ∀ (n : LongName) (deleted : Bool) (short : Bytes),
      (∀ r ∈ n.records deleted short, IsPiece r ∧ r.length = 32) ∧
      (∀ siblings ent, recordName siblings (n.records deleted short) ent = n.text) ∧
      ∀ s, n.units = Text.utf16Encode s → n.text = s := by
  refine ⟨fun fs opts siblings records parent subdirs w => ?_,
    fun siblings before run after ent => ?_,
    fun records => ?_,
    fun n deleted short => ⟨fun r hr => ?_, fun siblings ent => ?_, fun s hs => ?_⟩⟩
  · exact FatFs.sink_scanRecords siblings parent records [] subdirs w
  · exact named_run
  · exact FatFs.dirRecords_flatten
  · exact ⟨LongName.isPiece_of_mem_records hr, LongName.length_of_mem_records hr⟩
  · rw [recordName, LongName.assembleLfn_records, Option.getD_some]
  · rw [LongName.text, hs, Text.fromUtf16Lossy_encode]

/-- A name of 14 units. -/
def fourteenUnits : LongName where
  units := Text.utf16Encode "Long file name"
  length_pos := by decide
  length_le := by decide
  units_lt := by decide

/-- The short name "LONGFI~1". -/
def longShort : Bytes := [0x4C, 0x4F, 0x4E, 0x47, 0x46, 0x49, 0x7E, 0x31, 0x20, 0x20, 0x20]

/-- The record of the file, when it is deleted. -/
def deletedShort : Bytes := longShort.set 0 0xE5 ++ List.replicate 21 0

/-- A volume label. -/
def labelRecord : Bytes := List.replicate 11 0x41 ++ [0x08] ++ List.replicate 20 0

/-- Behind a volume label a deleted file has its long name back. -/
theorem longNames_exact_deleted :
    named [] [] (labelRecord :: (fourteenUnits.records true longShort ++ [deletedShort])) =
        [("Long file name", deletedShort)] ∧
      FatFs.dirRecords
        (labelRecord :: (fourteenUnits.records true longShort ++ [deletedShort])).flatten =
        labelRecord :: (fourteenUnits.records true longShort ++ [deletedShort]) := by
  obtain ⟨-, hnamed, hrecords, hname⟩ := longNames_exact
  obtain ⟨hpieces, htext, hread⟩ := hname fourteenUnits true longShort
  have hbefore : Closed [labelRecord] := ⟨by decide, by decide⟩
  have hshort : IsShort deletedShort := ⟨by decide, by decide, by decide⟩
  constructor
  · have h :=
      hnamed [] [labelRecord] _ [] deletedShort hbefore (fun r hr => (hpieces r hr).1) hshort
    rw [htext, hread "Long file name" rfl] at h
    exact h
  · apply hrecords _
    intro r hr
    rcases List.mem_cons.1 hr with rfl | hr
    · rfl
    rcases List.mem_append.1 hr with hr | hr
    · exact (hpieces r hr).2
    · rw [List.mem_singleton.1 hr]
      rfl

/-- The record of a file "NEW.TXT". -/
def newShort : Bytes :=
  [0x4E, 0x45, 0x57, 0x20, 0x20, 0x20, 0x20, 0x20, 0x54, 0x58, 0x54] ++ List.replicate 21 0

/-- Pieces that were left over name the file behind them, whose checksum they do not carry. -/
theorem leftOver_counterexample :
    named [] [] (fourteenUnits.records false longShort ++ [newShort]) =
        [("Long file name", newShort)] ∧
      ∀ r ∈ fourteenUnits.records false longShort,
        byteAt r 13 ≠ UInt8.ofNat (checksum (newShort.take 11)) := by
  have hshort : IsShort newShort := ⟨by decide, by decide, by decide⟩
  constructor
  · rw [named_pieces fun r hr => LongName.isPiece_of_mem_records hr, List.nil_append,
      named_short hshort, recordName, LongName.assembleLfn_records, Option.getD_some, LongName.text]
    exact congrArg (fun s => [(s, newShort)]) (Text.fromUtf16Lossy_encode "Long file name")
  · intro r hr
    rw [LongName.checksum_of_mem_records hr]
    decide

end Reclaim
