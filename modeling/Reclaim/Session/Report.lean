import Reclaim.Foundation.Csv
import Reclaim.Block.SourceId
import Reclaim.Session.Pages

/-!
# Reports

The CSV report has a line for each record.  Its text fields come from the disk, so `csv_escape` puts
an apostrophe before one that a spreadsheet would take for a formula, and then quotes it by RFC
4180.  A parser gives the fields back, each with its apostrophe if it has one.
-/

namespace Reclaim

/-- A record as a report gets it: its validity is what the store's column says. -/
structure ReportRecord extends ScoredRow where
  validityText : String

/-- `Row`: what a report says of a record. -/
structure ReportRow where
  id : String
  path : String
  family : String
  format : String
  ext : String
  offset : ℕ
  len : ℕ
  validity : String
  score : ℕ
  date : Option String
  model : Option String

/-- The row of a record. -/
def ReportRecord.row (r : ReportRecord) : ReportRow where
  id := r.id
  path := r.synthPath
  family := r.family
  format := r.format
  ext := r.ext
  offset := r.offset
  len := r.len
  validity := r.validityText
  score := r.score
  date := r.date
  model := r.model

/-- `rows`. -/
def reportRows (records : List ReportRecord) : List ReportRow := records.map ReportRecord.row

/-- The characters that a spreadsheet takes for the beginning of a formula. -/
def formulaChars : List Char := ['=', '+', '-', '@', '\t', '\r']

/-- The text begins with one of them. -/
def BeginsFormula (s : String) : Prop := ∃ c ∈ s.toList.head?, c ∈ formulaChars

instance (s : String) : Decidable (BeginsFormula s) :=
  inferInstanceAs (Decidable (∃ c ∈ s.toList.head?, c ∈ formulaChars))

/-- The first step of `csv_escape`: an apostrophe before what begins like a formula. -/
def neutralize (s : String) : String := if BeginsFormula s then "'" ++ s else s

/-- `s.replace('"', "\"\"")`. -/
def doubleQuotes (s : String) : String :=
  String.ofList (s.toList.flatMap fun c => if c = '"' then ['"', '"'] else [c])

/-- `csv_escape`. -/
def csvEscape (s : String) : String :=
  let s := neutralize s
  if s.toList.any fun c => c = ',' ∨ c = '"' ∨ c = '\n' ∨ c = '\r' then
    "\"" ++ doubleQuotes s ++ "\""
  else s

/-- The names of the columns. -/
def csvHeader : List String :=
  ["id", "path", "family", "format", "ext", "offset", "len", "validity", "score", "date", "model"]

/-- The line of a row. -/
def csvLine (r : ReportRow) : String :=
  String.intercalate ","
    [csvEscape r.id, csvEscape r.path, csvEscape r.family, csvEscape r.format, csvEscape r.ext,
      toString r.offset, toString r.len, csvEscape r.validity, toString r.score,
      csvEscape (r.date.getD ""), csvEscape (r.model.getD "")] ++ "\n"

/-- `render_csv`. -/
def renderCsv (records : List ReportRecord) : String :=
  "id,path,family,format,ext,offset,len,validity,score,date,model\n" ++
    String.join ((reportRows records).map csvLine)

/-! ## What a parser reads -/

/-- The fields of a row: the numbers in decimal, and nothing for a date or a model that is not
there. -/
def ReportRow.fields (r : ReportRow) : List String :=
  [r.id, r.path, r.family, r.format, r.ext, toString r.offset, toString r.len, r.validity,
    toString r.score, r.date.getD "", r.model.getD ""]

/-- The records in a text, by RFC 4180. -/
def parseCsv (s : String) : Option (List (List String)) :=
  (Csv.parse s.toList).map fun table => table.map fun row => row.map String.ofList

/-- A cell is the field, except for one apostrophe before it if it begins like a formula. -/
def IsCell (field cell : String) : Prop :=
  (BeginsFormula field ∧ cell = "'" ++ field) ∨ (¬ BeginsFormula field ∧ cell = field)

lemma isCell_neutralize (s : String) : IsCell s (neutralize s) := by
  unfold neutralize
  split
  · exact .inl ⟨‹_›, rfl⟩
  · exact .inr ⟨‹_›, rfl⟩

lemma toList_csvEscape (s : String) :
    (csvEscape s).toList = Csv.quote (neutralize s).toList := by
  unfold csvEscape
  dsimp only
  generalize neutralize s = t
  have hany : (t.toList.any fun c => c = ',' ∨ c = '"' ∨ c = '\n' ∨ c = '\r') =
      t.toList.any Csv.special := rfl
  rw [hany]
  by_cases hspecial : t.toList.any Csv.special = true
  · rw [Csv.quote, if_pos hspecial, if_pos hspecial, String.toList_append, String.toList_append,
      doubleQuotes]
    simp only [String.toList_ofList, List.append_assoc, Csv.double]
    rfl
  · rw [Csv.quote, if_neg hspecial, if_neg hspecial]

/-- A number does not begin like a formula, and needs no quotes. -/
lemma neutralize_toString (n : ℕ) : neutralize (toString n) = toString n := by
  refine if_neg ?_
  rintro ⟨c, hc, hmem⟩
  have hdigit : ∀ d ∈ formulaChars, d.isDigit = false := by
    simp [formulaChars]
  exact SourceId.notMem_digits (hdigit c hmem) n (List.mem_of_mem_head? hc)

lemma quote_toString (n : ℕ) : Csv.quote (toString n).toList = (toString n).toList := by
  refine if_neg fun h => ?_
  obtain ⟨c, hc, hspecial⟩ := List.any_eq_true.1 h
  have hdigit : c.isDigit = false := by
    have hcases : c = ',' ∨ c = '"' ∨ c = '\n' ∨ c = '\r' := of_decide_eq_true hspecial
    rcases hcases with rfl | rfl | rfl | rfl <;> rfl
  exact SourceId.notMem_digits hdigit n hc

/-- The line of a row is that of its fields, neutralized. -/
lemma toList_csvLine (r : ReportRow) :
    (csvLine r).toList = Csv.renderRow (r.fields.map fun s => (neutralize s).toList) := by
  have hcomma : ",".toList = [','] := rfl
  have hbreak : "\n".toList = ['\n'] := rfl
  unfold csvLine Csv.renderRow ReportRow.fields
  rw [String.toList_append, String.toList_intercalate, hcomma, hbreak]
  simp only [List.map_cons, List.map_nil, toList_csvEscape, neutralize_toString, quote_toString]

lemma toList_header : "id,path,family,format,ext,offset,len,validity,score,date,model\n".toList =
    Csv.renderRow (csvHeader.map String.toList) := by
  have hjoin : "id,path,family,format,ext,offset,len,validity,score,date,model\n" =
      String.intercalate "," csvHeader ++ "\n" := by simp [csvHeader]
  have hquote : csvHeader.map (fun s => Csv.quote s.toList) = csvHeader.map String.toList := by
    simp [csvHeader, Csv.quote, Csv.special]
  have hcomma : ",".toList = [','] := rfl
  have hbreak : "\n".toList = ['\n'] := rfl
  rw [hjoin, Csv.renderRow, List.map_map, Function.comp_def, hquote, String.toList_append,
    String.toList_intercalate, hcomma, hbreak]

lemma toList_renderCsv (records : List ReportRecord) :
    (renderCsv records).toList = Csv.render (csvHeader.map String.toList ::
      (reportRows records).map fun r => r.fields.map fun s => (neutralize s).toList) := by
  have hlines : ∀ rs : List ReportRow, (rs.map csvLine).flatMap String.toList =
      (rs.map fun r => r.fields.map fun s => (neutralize s).toList).flatMap Csv.renderRow := by
    intro rs
    rw [List.flatMap_map, List.flatMap_map]
    exact congrArg (rs.flatMap ·) (funext toList_csvLine)
  have happend : (renderCsv records).toList =
      "id,path,family,format,ext,offset,len,validity,score,date,model\n".toList ++
        ((reportRows records).map csvLine).flatMap String.toList := by
    rw [← String.toList_join]
    exact String.toList_append
  rw [happend, toList_header, hlines]
  exact List.flatMap_cons.symm

/-- **The CSV report is read back**: the header, and for each record, in order, a row of eleven
cells, each of them the record's field but for the apostrophe before a formula. -/
theorem renderCsv_exact (records : List ReportRecord) :
    ∃ rows, parseCsv (renderCsv records) = some (csvHeader :: rows) ∧
      List.Forall₂ (fun r row => row.length = 11 ∧ List.Forall₂ IsCell r.row.fields row)
        records rows := by
  refine ⟨(reportRows records).map fun r => r.fields.map neutralize, ?_, ?_⟩
  · unfold parseCsv
    rw [toList_renderCsv, Csv.parse_render ?_, Option.map_some]
    · simp [Function.comp_def]
    · intro row hrow
      rcases List.mem_cons.1 hrow with rfl | hrow
      · exact List.cons_ne_nil _ _
      · obtain ⟨r, -, rfl⟩ := List.mem_map.1 hrow
        exact List.cons_ne_nil _ _
  · rw [reportRows, List.map_map, List.forall₂_map_right_iff, List.forall₂_same]
    intro r _
    have hcells : List.Forall₂ IsCell r.row.fields (r.row.fields.map neutralize) := by
      rw [List.forall₂_map_right_iff, List.forall₂_same]
      exact fun s _ => isCell_neutralize s
    exact ⟨rfl, hcells⟩

end Reclaim
