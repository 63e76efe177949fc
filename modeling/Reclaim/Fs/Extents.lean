import Reclaim.Foundation.FileMap
import Reclaim.Imaging.Mapped
import Reclaim.Session.Entries

/-!
# Extents of a file

Every engine turns its file map into a list of extents and a size, and nothing else of the map
reaches the store: a recovery writes the bytes of the extents, one after the other.

`Entry.Reproduces` says when that is the file, and `Entry.flagged_iff` what an engine can do if it
is not: only `contiguousAssumed` keeps an entry from being stored as full.
-/

namespace Reclaim

open FileBytes FileMap

/-- The addresses of the extents' bytes. -/
def extentAddresses (es : List Extent) : List ℕ := es.flatMap fun e => List.range' e.offset e.len

@[simp] lemma extentAddresses_nil : extentAddresses [] = [] := rfl

@[simp] lemma extentAddresses_cons (e : Extent) (es : List Extent) :
    extentAddresses (e :: es) = List.range' e.offset e.len ++ extentAddresses es := rfl

/-- `Entry::new_file`: a bare file entry. -/
def Entry.newFile (name : String) (size : ℕ) (state : EntryState) : Entry where
  name := name
  kind := .file
  size := size
  path := none
  created := none
  modified := none
  extents := []
  state := state
  contiguousAssumed := false

/-- The bytes of an entry on a volume with the bytes `v`: its extents joined and cut to its size. -/
def Entry.bytes (v : ℕ → UInt8) (e : Entry) : Bytes :=
  ((extentAddresses e.extents).take e.size).map v

/-- The entry's bytes are the first `n` of the mapped file, whatever the volume holds. -/
def Entry.Reproduces (e : Entry) (ps : List FileMap.Piece) (n : ℕ) : Prop :=
  ∀ v : ℕ → UInt8, IsContent ps n v (e.bytes v)

/-- The entry is kept from being stored as full, the only validity that recovers as intact. -/
def Entry.Flagged (e : Entry) : Prop := e.contiguousAssumed = true

/-- A row is stored as full unless its entry is flagged. -/
lemma Entry.flagged_iff {B : Backend} {sigs : List SigDef} {sourceId engine : String} {base : ℕ}
    {e : Entry} {r : CarvedRecord}
    (h : (⟨engine, base, e⟩ : WalkedEntry).record? B sigs sourceId = some r) :
    e.Flagged ↔ r.validity ≠ .full := by
  obtain ⟨row, hrow, rfl⟩ := Option.map_eq_some_iff.1 h
  have hflag : row.contiguousAssumed = e.contiguousAssumed := by
    unfold emit at hrow
    split at hrow
    · exact absurd hrow (by simp)
    · rw [← Option.some.inj hrow]
  unfold Flagged EntryRow.record
  rw [hflag]
  cases e.contiguousAssumed <;> simp

/-! ## Cutting extents to a size -/

/-- `trim_to_size` of ext and `trim_extents_to` of APFS, `acc` bytes into the list. -/
def trimExtentsTo (size : ℕ) : ℕ → List Extent → List Extent
  | _, [] => []
  | acc, e :: es =>
    if size ≤ acc then []
    else
      let len := if size - acc < e.len then size - acc else e.len
      ⟨e.offset, len⟩ :: trimExtentsTo size (saturatingAdd acc len) es

/-- The trimmed extents have the first bytes. -/
lemma extentAddresses_trimExtentsTo {size : ℕ} (hsize : size ≤ u64Max) (es : List Extent) :
    ∀ acc ≤ size, extentAddresses (trimExtentsTo size acc es) =
      (extentAddresses es).take (size - acc) := by
  induction es with
  | nil => intro acc _; simp [trimExtentsTo]
  | cons e es ih =>
    intro acc hacc
    rw [trimExtentsTo, extentAddresses_cons, List.take_append, List.length_range']
    split
    · rw [show size - acc = 0 by omega]
      simp
    · rw [extentAddresses_cons]
      by_cases hlt : size - acc < e.len
      · have hsat : saturatingAdd acc (size - acc) = size := by
          unfold saturatingAdd
          omega
        rw [if_pos hlt, hsat, ih size le_rfl, List.take_range'_of_length_ge hlt.le]
        simp [Nat.sub_eq_zero_of_le hlt.le]
      · have hsat : saturatingAdd acc e.len = acc + e.len := by
          unfold saturatingAdd
          omega
        rw [if_neg hlt, hsat, ih _ (by omega), List.take_range'_of_length_le (by omega),
          Nat.sub_add_eq]

/-- What the extents hold in all. -/
def totalLen (es : List Extent) : ℕ := es.foldl (fun a e => saturatingAdd a e.len) 0

lemma foldl_saturatingAdd (es : List Extent) :
    ∀ a ≤ u64Max, es.foldl (fun a e => saturatingAdd a e.len) a =
      min (a + (extentAddresses es).length) u64Max := by
  induction es with
  | nil => intro a ha; simpa using ha
  | cons e es ih =>
    intro a _
    have hrest := ih (saturatingAdd a e.len) (min_le_right ..)
    rw [List.foldl_cons, hrest, extentAddresses_cons, List.length_append, List.length_range']
    unfold saturatingAdd
    omega

lemma totalLen_eq (es : List Extent) : totalLen es = min (extentAddresses es).length u64Max := by
  have := foldl_saturatingAdd es 0 (Nat.zero_le _)
  rwa [Nat.zero_add] at this

end Reclaim
