import Mathlib.Tactic

/-!
# Tables as comma-separated values

The rules of RFC 4180: records end with a line break, the last one with or without, and fields are
parted by commas.  A field may stand in quotes, and has to if it holds a comma, a quote or a line
break; a quote in it is then doubled.  Outside quotes there is no quote, and behind a closing quote
nothing but a comma or a line break.  A line break is a line feed, with a carriage return before it
or without.

What is written by the rules, each field quoted where it has to be, is read back (`parse_render`).
-/

namespace Csv

/-- Where a parser is: at the beginning of a field, in one without quotes, inside quotes, behind
what may be a closing quote, or behind a carriage return. -/
inductive Place where
  | start
  | plain
  | quoted
  | closed
  | cr

/-- The records in a text, from some place in a record on, `field` and `row` being what was read of
it. -/
def parseFrom : Place → (field : List Char) → (row : List (List Char)) → List Char →
    Option (List (List (List Char)))
  | .start, _, row, [] => if row = [] then some [] else some [row ++ [[]]]
  | .plain, field, row, [] => some [row ++ [field]]
  | .closed, field, row, [] => some [row ++ [field]]
  | .quoted, _, _, [] => none
  | .cr, _, _, [] => none
  | .quoted, field, row, c :: cs =>
    if c = '"' then parseFrom .closed field row cs else parseFrom .quoted (field ++ [c]) row cs
  | .cr, field, row, c :: cs =>
    if c = '\n' then (parseFrom .start [] [] cs).map ((row ++ [field]) :: ·) else none
  | .start, field, row, c :: cs =>
    if c = ',' then parseFrom .start [] (row ++ [field]) cs
    else if c = '\n' then (parseFrom .start [] [] cs).map ((row ++ [field]) :: ·)
    else if c = '\r' then parseFrom .cr field row cs
    else if c = '"' then parseFrom .quoted field row cs
    else parseFrom .plain (field ++ [c]) row cs
  | .plain, field, row, c :: cs =>
    if c = ',' then parseFrom .start [] (row ++ [field]) cs
    else if c = '\n' then (parseFrom .start [] [] cs).map ((row ++ [field]) :: ·)
    else if c = '\r' then parseFrom .cr field row cs
    else if c = '"' then none
    else parseFrom .plain (field ++ [c]) row cs
  | .closed, field, row, c :: cs =>
    if c = ',' then parseFrom .start [] (row ++ [field]) cs
    else if c = '\n' then (parseFrom .start [] [] cs).map ((row ++ [field]) :: ·)
    else if c = '\r' then parseFrom .cr field row cs
    else if c = '"' then parseFrom .quoted (field ++ [c]) row cs
    else none

/-- **The records in a text**, `none` if it breaks the rules. -/
def parse (s : List Char) : Option (List (List (List Char))) := parseFrom .start [] [] s

/-! ## Writing -/

/-- A character that has to stand in quotes. -/
def special (c : Char) : Bool := c = ',' ∨ c = '"' ∨ c = '\n' ∨ c = '\r'

/-- The quotes of a text doubled. -/
def double (s : List Char) : List Char := s.flatMap fun c => if c = '"' then ['"', '"'] else [c]

/-- A field, in quotes if it has to be. -/
def quote (s : List Char) : List Char := if s.any special then '"' :: (double s ++ ['"']) else s

/-- A record, with a line feed at its end. -/
def renderRow (row : List (List Char)) : List Char := [','].intercalate (row.map quote) ++ ['\n']

/-- The records of a table. -/
def render (table : List (List (List Char))) : List Char := table.flatMap renderRow

/-! ## Reading back -/

variable {s field rest : List Char} {row : List (List Char)} {c : Char}

lemma parseFrom_start_cons : parseFrom .start field row (c :: rest) =
    if c = ',' then parseFrom .start [] (row ++ [field]) rest
    else if c = '\n' then (parseFrom .start [] [] rest).map ((row ++ [field]) :: ·)
    else if c = '\r' then parseFrom .cr field row rest
    else if c = '"' then parseFrom .quoted field row rest
    else parseFrom .plain (field ++ [c]) row rest := rfl

lemma parseFrom_plain_cons : parseFrom .plain field row (c :: rest) =
    if c = ',' then parseFrom .start [] (row ++ [field]) rest
    else if c = '\n' then (parseFrom .start [] [] rest).map ((row ++ [field]) :: ·)
    else if c = '\r' then parseFrom .cr field row rest
    else if c = '"' then none
    else parseFrom .plain (field ++ [c]) row rest := rfl

lemma parseFrom_quoted_cons : parseFrom .quoted field row (c :: rest) =
    if c = '"' then parseFrom .closed field row rest
    else parseFrom .quoted (field ++ [c]) row rest := rfl

lemma parseFrom_closed_cons : parseFrom .closed field row (c :: rest) =
    if c = ',' then parseFrom .start [] (row ++ [field]) rest
    else if c = '\n' then (parseFrom .start [] [] rest).map ((row ++ [field]) :: ·)
    else if c = '\r' then parseFrom .cr field row rest
    else if c = '"' then parseFrom .quoted (field ++ [c]) row rest
    else none := rfl

/-- Outside quotes nothing but ordinary characters is taken as it is. -/
lemma parseFrom_plain (hs : ∀ c ∈ s, special c = false) :
    parseFrom .plain field row (s ++ rest) = parseFrom .plain (field ++ s) row rest := by
  induction s generalizing field with
  | nil => rw [List.nil_append, List.append_nil]
  | cons c s ih =>
    obtain ⟨hc, hs⟩ := List.forall_mem_cons.1 hs
    obtain ⟨hcomma, hquote, hnl, hcr⟩ : c ≠ ',' ∧ c ≠ '"' ∧ c ≠ '\n' ∧ c ≠ '\r' := by
      simpa [special] using hc
    rw [List.cons_append, parseFrom_plain_cons, if_neg hcomma, if_neg hnl, if_neg hcr,
      if_neg hquote, ih hs, List.append_assoc, List.singleton_append]

/-- Inside quotes a text is taken with its doubled quotes as single ones. -/
lemma parseFrom_quoted :
    parseFrom .quoted field row (double s ++ rest) = parseFrom .quoted (field ++ s) row rest := by
  induction s generalizing field with
  | nil => rw [double, List.flatMap_nil, List.nil_append, List.append_nil]
  | cons c s ih =>
    have hcons : double (c :: s) = (if c = '"' then ['"', '"'] else [c]) ++ double s :=
      List.flatMap_cons
    rw [hcons, List.append_assoc]
    by_cases hc : c = '"'
    · -- the first of the two looks like a closing quote
      rw [if_pos hc, List.cons_append, List.singleton_append, parseFrom_quoted_cons, if_pos rfl,
        parseFrom_closed_cons, if_neg (by decide), if_neg (by decide), if_neg (by decide),
        if_pos rfl, ih, hc, List.append_assoc, List.singleton_append]
    · rw [if_neg hc, List.singleton_append, parseFrom_quoted_cons, if_neg hc, ih, List.append_assoc,
        List.singleton_append]

/-- **A field is read back**, before a comma or a line feed. -/
lemma parseFrom_quote (hc : c = ',' ∨ c = '\n') :
    parseFrom .start [] row (quote s ++ c :: rest) = parseFrom .plain s row (c :: rest) := by
  have hclosed : parseFrom .closed s row (c :: rest) = parseFrom .plain s row (c :: rest) := by
    rcases hc with rfl | rfl
    · rw [parseFrom_closed_cons, parseFrom_plain_cons, if_pos rfl, if_pos rfl]
    · simp only [parseFrom_closed_cons, parseFrom_plain_cons,
        if_neg (by decide : ('\n' : Char) ≠ ','), if_true]
  unfold quote
  split
  · rw [List.cons_append, parseFrom_start_cons, if_neg (by decide), if_neg (by decide),
      if_neg (by decide), if_pos rfl, List.append_assoc, parseFrom_quoted, List.nil_append,
      List.singleton_append, parseFrom_quoted_cons, if_pos rfl, hclosed]
  · rename_i hs
    have hordinary : ∀ c ∈ s, special c = false := by simpa using hs
    cases s with
    | nil =>
      rcases hc with rfl | rfl
      · rw [List.nil_append, parseFrom_start_cons, parseFrom_plain_cons, if_pos rfl, if_pos rfl]
      · simp only [List.nil_append, parseFrom_start_cons, parseFrom_plain_cons,
          if_neg (by decide : ('\n' : Char) ≠ ','), if_true]
    | cons d s =>
      obtain ⟨hd, hs⟩ := List.forall_mem_cons.1 hordinary
      obtain ⟨hcomma, hquote, hnl, hcr⟩ : d ≠ ',' ∧ d ≠ '"' ∧ d ≠ '\n' ∧ d ≠ '\r' := by
        simpa [special] using hd
      rw [List.cons_append, parseFrom_start_cons, if_neg hcomma, if_neg hnl, if_neg hcr,
        if_neg hquote, parseFrom_plain hs, List.nil_append, List.singleton_append]

/-- **A record is read back**, its first fields having been read. -/
lemma parseFrom_renderRow {cells : List (List Char)} (hne : cells ≠ []) :
    parseFrom .start [] row (renderRow cells ++ rest) =
      (parseFrom .start [] [] rest).map ((row ++ cells) :: ·) := by
  induction cells generalizing row with
  | nil => exact absurd rfl hne
  | cons s cells ih =>
    cases cells with
    | nil =>
      rw [renderRow, List.map_singleton, List.intercalate_singleton, List.append_assoc,
        List.singleton_append, parseFrom_quote (.inr rfl), parseFrom_plain_cons,
        if_neg (by decide), if_pos rfl]
    | cons t cells =>
      have hrow : renderRow (s :: t :: cells) = quote s ++ ',' :: renderRow (t :: cells) := by
        simp only [renderRow, List.map_cons, List.intercalate_cons_cons, List.append_assoc,
          List.cons_append, List.nil_append]
      rw [hrow, List.append_assoc, List.cons_append, parseFrom_quote (.inl rfl),
        parseFrom_plain_cons, if_pos rfl, ih (List.cons_ne_nil t cells), List.append_assoc,
        List.singleton_append]

/-- **A table is read back**, if each record has a field. -/
lemma parse_render {table : List (List (List Char))} (h : ∀ row ∈ table, row ≠ []) :
    parse (render table) = some table := by
  unfold parse render
  induction table with
  | nil => rfl
  | cons row table ih =>
    obtain ⟨hrow, htable⟩ := List.forall_mem_cons.1 h
    rw [List.flatMap_cons, parseFrom_renderRow hrow, ih htable, Option.map_some, List.nil_append]

end Csv
