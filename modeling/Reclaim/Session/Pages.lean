import Reclaim.Session.Entries
import Reclaim.Foundation.Selection
import Reclaim.Session.Labels
import Reclaim.Session.RecoveryPath
import Mathlib.Data.Prod.Lex
import Mathlib.Data.String.Basic
import Mathlib.Order.WithBot

/-!
# Selecting results

`query` returns the rows that a filter lets through, in the order of their offsets.  A statement
binds at most `idsChunk` ids, so a larger set is asked for in chunks and sorted once more.

`Sqlite` is the database: it may return rows with one offset in any order, as long as the same rows
come back in the same order.
-/

namespace Reclaim

open FileBytes KeyedTable

/-- A `u64` as the signed integer that the database stores. -/
def asI64 (n : ℕ) : ℤ := Int.bmod n (2 ^ 64)

/-- What `ORDER BY offset ASC` makes of the rows that match. -/
structure Sqlite where
  order : List CarvedRecord → List CarvedRecord
  perm : ∀ rows, (order rows).Perm rows
  sorted : ∀ rows, (order rows).Pairwise fun r r' => asI64 r.offset ≤ asI64 r'.offset

/-- What to select; merged rows are left out unless asked for. -/
structure QueryFilter where
  family : Option String
  exts : List String
  minSize : Option ℕ
  fullOnly : Bool
  ids : Option (List String)
  includeMerged : Bool
  deriving DecidableEq

namespace QueryFilter

/-- The default filter. -/
def default : QueryFilter := ⟨none, [], none, false, none, false⟩

/-- `build_where`: the condition a row has to meet. -/
def buildWhere (f : QueryFilter) (r : CarvedRecord) : Bool :=
  f.family.all (r.family == ·) && f.minSize.all (fun n => decide (asI64 n ≤ asI64 r.len)) &&
    (!f.fullOnly || decide (r.validity = .full)) && (f.includeMerged || !r.merged) &&
    (f.exts.isEmpty || f.exts.contains r.ext) && f.ids.all (·.contains r.id)

end QueryFilter

/-- One statement. -/
def Sqlite.select (S : Sqlite) (t : Rows) (f : QueryFilter) : List CarvedRecord :=
  S.order (t.rows.filter f.buildWhere)

/-- The largest id set bound into one statement. -/
def idsChunk : ℕ := 900

/-- A list cut into pieces of `n`. -/
def chunks (n : ℕ) (l : List String) : List (List String) :=
  (List.range (divCeil l.length n)).map fun k => (l.drop (k * n)).take n

/-- `Store::query`, sorted by offset. -/
def query (S : Sqlite) (t : Rows) (f : QueryFilter) : List CarvedRecord :=
  match f.ids with
  | some [] => []
  | some ids =>
    if idsChunk < ids.length then
      ((chunks idsChunk ids).flatMap fun c => S.select t { f with ids := some c }).insertionSort
        fun r r' => r.offset ≤ r'.offset
    else S.select t f
  | none => S.select t f

lemma mem_chunks {n : ℕ} (hn : 0 < n) {l : List String} {x : String} :
    (∃ c ∈ chunks n l, x ∈ c) ↔ x ∈ l := by
  constructor
  · rintro ⟨c, hc, hx⟩
    obtain ⟨k, -, rfl⟩ := List.mem_map.1 hc
    exact List.mem_of_mem_drop (List.mem_of_mem_take hx)
  · intro hx
    obtain ⟨i, hi, rfl⟩ := List.getElem_of_mem hx
    have hmod := Nat.div_add_mod' i n
    have hlt := Nat.mod_lt i hn
    refine ⟨_, List.mem_map.2 ⟨i / n, ?_, rfl⟩, ?_⟩
    · rw [List.mem_range, lt_divCeil_iff hn]
      omega
    · rw [List.mem_iff_getElem]
      refine ⟨i % n, ?_, ?_⟩
      · rw [List.length_take, List.length_drop]
        omega
      · simp only [List.getElem_take, List.getElem_drop, hmod]

section Ids

variable {S : Sqlite} {t : Rows} {ids : List String} {r : CarvedRecord} {b : Bool}

/-- The filter that names results by their ids alone. -/
def QueryFilter.byIds (ids : List String) (merged : Bool) : QueryFilter :=
  { QueryFilter.default with ids := some ids, includeMerged := merged }

lemma buildWhere_byIds : (QueryFilter.byIds ids b).buildWhere r =
    ((b || !r.merged) && ids.contains r.id) := by
  simp [QueryFilter.buildWhere, QueryFilter.byIds, QueryFilter.default]

lemma mem_select_byIds : r ∈ S.select t (.byIds ids b) ↔
    r ∈ t.rows ∧ r.id ∈ ids ∧ (b = true ∨ r.merged = false) := by
  rw [Sqlite.select, (S.perm _).mem_iff, List.mem_filter, buildWhere_byIds]
  simp [and_comm]

/-- **What a selection by ids finds**: the rows with one of them, merged rows if asked for. -/
lemma mem_query_byIds : r ∈ query S t (.byIds ids b) ↔
    r ∈ t.rows ∧ r.id ∈ ids ∧ (b = true ∨ r.merged = false) := by
  unfold query
  split
  · rename_i h
    obtain rfl : ids = [] := Option.some.inj h
    simp
  · rename_i ids' _ h
    obtain rfl : ids = ids' := Option.some.inj h
    split
    · rw [(List.perm_insertionSort _ _).mem_iff, List.mem_flatMap]
      change (∃ c ∈ chunks idsChunk ids, r ∈ S.select t (.byIds c b)) ↔ _
      simp only [mem_select_byIds, ← mem_chunks (show 0 < idsChunk by decide) (l := ids)]
      constructor
      · rintro ⟨c, hc, hr, hid, hm⟩
        exact ⟨hr, ⟨c, hc, hid⟩, hm⟩
      · rintro ⟨hr, ⟨c, hc, hid⟩, hm⟩
        exact ⟨c, hc, hr, hid, hm⟩
    · exact mem_select_byIds
  · rename_i h
    exact absurd h (by simp [QueryFilter.byIds])

/-- Where no selected row is merged it makes no difference to ask for merged rows. -/
lemma query_byIds_unmerged (h : ∀ r ∈ t.rows, r.id ∈ ids → r.merged = false) :
    query S t (.byIds ids false) = query S t (.byIds ids true) := by
  have hselect : ∀ c, (∀ id ∈ c, id ∈ ids) →
      S.select t (.byIds c false) = S.select t (.byIds c true) := by
    intro c hc
    unfold Sqlite.select
    congr 1
    apply List.filter_congr
    intro r hr
    rw [buildWhere_byIds, buildWhere_byIds]
    by_cases hid : r.id ∈ c
    · simp [h r hr (hc _ hid)]
    · simp [hid]
  unfold query
  cases ids with
  | nil => rfl
  | cons id ids =>
    simp only [QueryFilter.byIds]
    split
    · congr 1
      refine List.flatMap_congr fun c hc => hselect c fun id hid => ?_
      exact (mem_chunks (by decide)).1 ⟨c, hc, hid⟩
    · exact hselect _ fun _ hid => hid

end Ids

end Reclaim

/-!
## Pages of results

`Store::query` with all of its filter: the conditions of the statement, the glob on the synthesized
path, the order, and the window of rows that a page shows.  A set of ids that does not fit into one
statement is asked for in chunks, and what comes back is sorted and cut to the window in memory.

`SortingDb` is the database.  It orders rows with equal keys as it likes, but the same for the same
statement, which knows nothing of the window.
-/

namespace Reclaim

open FileBytes KeyedTable Selection

/-- A row with its score. -/
structure ScoredRow extends CarvedRecord where
  score : ℕ
  deriving DecidableEq

/-- The rows of the store, under their ids. -/
structure ScoredRows where
  rows : List ScoredRow
  unique : (rows.map fun r => r.id).Nodup

/-- Sort orders. -/
inductive SortBy where
  | offset
  | size
  | date
  | score
  | path
  deriving DecidableEq, Repr

/-- What to select, in which order, and which window of it. -/
structure RowQuery extends QueryFilter where
  /-- Embedded date on or after. -/
  after : Option String
  minScore : Option ℕ
  engine : Option String
  /-- Only deleted, orphaned and historical entries. -/
  deletedOnly : Bool
  /-- Glob on the synthesized path. -/
  pathGlob : Option String
  sort : Option SortBy
  limit : Option ℕ
  /-- Rows to skip. -/
  offset : Option ℕ
  deriving DecidableEq

/-! ## Globs -/

/-- `*`: skip any run of bytes. -/
def anyRun (m : Bytes → Bool) : Bytes → Bool
  | [] => m []
  | b :: s => m (b :: s) || anyRun m s

/-- `m` of `glob_match`: `*` stands for any run and `?` for one byte. -/
def globBytes : Bytes → Bytes → Bool
  | [], s => s.isEmpty
  | p :: pat, s =>
    if p = 0x2A then anyRun (globBytes pat) s
    else
      match s with
      | [] => false
      | b :: s => (p == 0x3F || p == b) && globBytes pat s

/-- `glob_match`. -/
def globMatch (pat s : String) : Bool := globBytes (utf8 pat) (utf8 s)

namespace RowQuery

variable (f : RowQuery)

/-- The sort order, by offset unless asked otherwise. -/
def sortBy : SortBy := f.sort.getD .offset

/-- The query without its window. -/
def unpaged : RowQuery := { f with limit := none, offset := none }

/-- The query for some ids, without its window. -/
def withIds (ids : List String) : RowQuery := { f.unpaged with ids := some ids }

/-- `build_where` without the condition on ids. -/
def conditions (r : ScoredRow) : Bool :=
  { f.toQueryFilter with ids := none }.buildWhere r.toCarvedRecord &&
    f.minScore.all (fun n => decide (n ≤ r.score)) && f.engine.all (r.engine == ·) &&
    f.after.all (fun day => r.date.any fun d => decide (day ≤ d)) &&
    (!f.deletedOnly || r.state.any fun s => ["deleted", "orphaned", "historical"].contains s)

/-- `build_where`. -/
def buildWhere (r : ScoredRow) : Bool := f.conditions r && f.ids.all (·.contains r.id)

/-- The path of the row matches the glob, if there is one. -/
def pathMatches (r : ScoredRow) : Bool := f.pathGlob.all fun glob => globMatch glob r.synthPath

end RowQuery

/-! ## Orders -/

/-- The date, no date before all. -/
def dateKey (r : ScoredRow) : WithBot String := r.date

/-- The `ORDER BY` clause of a sort order, on the integers stored. -/
def sqlLe (s : SortBy) (r r' : ScoredRow) : Prop :=
  match s with
  | .offset => asI64 r.offset ≤ asI64 r'.offset
  | .size => asI64 r'.len ≤ asI64 r.len
  | .date => dateKey r ≤ dateKey r'
  | .score => r'.score ≤ r.score
  | .path => toLex (r.family, toLex (dateKey r, asI64 r.offset)) ≤
      toLex (r'.family, toLex (dateKey r', asI64 r'.offset))

/-- `sort_records`: the same on the records. -/
def memLe (s : SortBy) (r r' : ScoredRow) : Prop :=
  match s with
  | .offset => r.offset ≤ r'.offset
  | .size => r'.len ≤ r.len
  | .date => dateKey r ≤ dateKey r'
  | .score => r'.score ≤ r.score
  | .path => toLex (r.family, toLex (dateKey r, r.offset)) ≤
      toLex (r'.family, toLex (dateKey r', r'.offset))

instance (s : SortBy) : DecidableRel (sqlLe s) := fun r r' =>
  match s with
  | .offset => inferInstanceAs (Decidable (_ ≤ _))
  | .size => inferInstanceAs (Decidable (_ ≤ _))
  | .date => inferInstanceAs (Decidable (dateKey r ≤ dateKey r'))
  | .score => inferInstanceAs (Decidable (_ ≤ _))
  | .path => inferInstanceAs (Decidable (toLex (r.family, toLex (dateKey r, asI64 r.offset)) ≤
      toLex (r'.family, toLex (dateKey r', asI64 r'.offset))))

instance (s : SortBy) : DecidableRel (memLe s) := fun r r' =>
  match s with
  | .offset => inferInstanceAs (Decidable (_ ≤ _))
  | .size => inferInstanceAs (Decidable (_ ≤ _))
  | .date => inferInstanceAs (Decidable (dateKey r ≤ dateKey r'))
  | .score => inferInstanceAs (Decidable (_ ≤ _))
  | .path => inferInstanceAs (Decidable (toLex (r.family, toLex (dateKey r, r.offset)) ≤
      toLex (r'.family, toLex (dateKey r', r'.offset))))

instance (s : SortBy) : Std.Total (memLe s) where
  total r r' := by cases s <;> exact le_total _ _

instance (s : SortBy) : IsTrans ScoredRow (memLe s) where
  trans r r' r'' h h' := by
    cases s with
    | offset => exact le_trans h h'
    | size => exact le_trans h' h
    | date => exact le_trans h h'
    | score => exact le_trans h' h
    | path => exact le_trans h h'

/-- Rows that the records' order does not tell apart, the statement's does not either. -/
lemma sqlLe_of_memLe_memLe (s : SortBy) (r r' : ScoredRow) (h : memLe s r r') (h' : memLe s r' r) :
    sqlLe s r r' := by
  cases s with
  | offset => exact le_of_eq (congrArg asI64 (le_antisymm h h'))
  | size => exact le_of_eq (congrArg asI64 (le_antisymm h' h).symm)
  | date => exact h
  | score => exact h
  | path =>
    have heq := toLex.injective (le_antisymm h h')
    have hrest := toLex.injective (Prod.ext_iff.1 heq).2
    have hfamily : r.family = r'.family := (Prod.ext_iff.1 heq).1
    have hdate : dateKey r = dateKey r' := (Prod.ext_iff.1 hrest).1
    have hoffset : r.offset = r'.offset := (Prod.ext_iff.1 hrest).2
    show toLex _ ≤ toLex _
    rw [hfamily, hdate, hoffset]

/-! ## Queries -/

/-- The database: how it orders the rows that match a statement. -/
structure SortingDb where
  order : RowQuery → List ScoredRow → List ScoredRow
  perm : ∀ f rows, (order f rows).Perm rows
  sorted : ∀ f rows, (order f rows).Pairwise (sqlLe f.sortBy)

/-- The rows of one statement that the glob lets through. -/
def SortingDb.select (S : SortingDb) (t : ScoredRows) (f : RowQuery) : List ScoredRow :=
  (S.order f.unpaged (t.rows.filter f.buildWhere)).filter f.pathMatches

/-- The loop over the rows: skip some, then collect until the limit is reached. -/
def collect (limit : Option ℕ) : ℕ → List ScoredRow → List ScoredRow → List ScoredRow
  | _, out, [] => out
  | skip + 1, out, _ :: rows => collect limit skip out rows
  | 0, out, r :: rows =>
    if limit.any fun lim => decide (lim ≤ (out ++ [r]).length) then out ++ [r]
    else collect limit 0 (out ++ [r]) rows

/-- `Store::query` of ids that fit into one statement. -/
def plainQuery (S : SortingDb) (t : ScoredRows) (f : RowQuery) : List ScoredRow :=
  collect f.limit (f.offset.getD 0) [] (S.select t f)

/-- The window of a page. -/
def window (limit offset : Option ℕ) (rows : List ScoredRow) : List ScoredRow :=
  match limit with
  | some lim => (rows.drop (offset.getD 0)).take lim
  | none => rows.drop (offset.getD 0)

/-- `Store::query`. -/
def queryRows (S : SortingDb) (t : ScoredRows) (f : RowQuery) : List ScoredRow :=
  match f.ids with
  | some [] => []
  | some ids =>
    if idsChunk < ids.length then
      let all := ((chunks idsChunk ids).flatMap fun c => plainQuery S t (f.withIds c)).insertionSort
        (memLe f.sortBy)
      window f.limit (some (min (f.offset.getD 0) all.length)) all
    else plainQuery S t f
  | none => plainQuery S t f

/-- `Store::count_matching` of ids that fit into one statement. -/
def plainCount (t : ScoredRows) (f : RowQuery) : ℕ :=
  match f.pathGlob with
  | none => t.rows.countP f.buildWhere
  | some glob => (t.rows.filter f.buildWhere).countP fun r =>
      globMatch glob r.synthPath

/-- `Store::count_matching`. -/
def countMatching (t : ScoredRows) (f : RowQuery) : ℕ :=
  match f.ids with
  | some [] => 0
  | some ids =>
    if idsChunk < ids.length then
      ((chunks idsChunk ids).map fun c => plainCount t (f.withIds c)).sum
    else plainCount t f
  | none => plainCount t f

/-! ## What a query should return -/

/-- The rows that match a query. -/
def matching (t : ScoredRows) (f : RowQuery) : List ScoredRow :=
  t.rows.filter fun r => f.buildWhere r && f.pathMatches r

/-- The rows that match, each once, in an order that the statement's clause allows. -/
structure Answers (t : ScoredRows) (f : RowQuery) (rows : List ScoredRow) : Prop where
  perm : rows.Perm (matching t f)
  sorted : rows.Pairwise (sqlLe f.sortBy)

/-- The unpaged query answers as one statement would, the page is its window, and the count is its
length. -/
structure QueryRight (S : SortingDb) (t : ScoredRows) (f : RowQuery) : Prop where
  answers : Answers t f.unpaged (queryRows S t f.unpaged)
  page : queryRows S t f = window f.limit f.offset (queryRows S t f.unpaged)
  count : countMatching t f = (queryRows S t f.unpaged).length

/-- The filter names more ids than one statement holds. -/
def RowQuery.Chunked (f : RowQuery) : Prop := ∃ ids, f.ids = some ids ∧ idsChunk < ids.length

/-- The rows that a query is about, whatever ids it names. -/
def meant (t : ScoredRows) (f : RowQuery) : List ScoredRow :=
  t.rows.filter fun r => f.conditions r && f.pathMatches r

/-- No row is named in two chunks, and the two orders agree on the rows that match. -/
structure ChunksRight (t : ScoredRows) (f : RowQuery) : Prop where
  once : ∀ ids, f.ids = some ids →
    Selection.Apart (fun r : ScoredRow => r.id) (meant t f) (chunks idsChunk ids)
  agree : ∀ r ∈ matching t f, ∀ r' ∈ matching t f,
    memLe f.sortBy r r' → ¬ memLe f.sortBy r' r → sqlLe f.sortBy r r'

/-- A page of no rows is asked for only behind the last row. -/
def PageRight (t : ScoredRows) (f : RowQuery) : Prop :=
  f.limit = some 0 → (matching t f).length ≤ f.offset.getD 0

section Queries

variable {S : SortingDb} {t : ScoredRows} {f : RowQuery}

/-! ### One statement -/

lemma collect_none (skip : ℕ) (out rows : List ScoredRow) :
    collect none skip out rows = out ++ rows.drop skip := by
  induction rows generalizing skip out with
  | nil => cases skip <;> simp [collect]
  | cons r rows ih =>
    cases skip with
    | zero => simp [collect, ih]
    | succ skip => simp [collect, ih]

lemma collect_some (lim skip : ℕ) (out rows : List ScoredRow) (h : out.length < max lim 1) :
    collect (some lim) skip out rows =
      out ++ (rows.drop skip).take (max lim 1 - out.length) := by
  induction rows generalizing skip out with
  | nil => cases skip <;> simp [collect]
  | cons r rows ih =>
    cases skip with
    | zero =>
      have hmore : max lim 1 - out.length = max lim 1 - (out ++ [r]).length + 1 := by
        rw [List.length_append, List.length_singleton]
        omega
      rw [collect, List.drop_zero, hmore, List.take_succ_cons]
      split
      · rename_i hfull
        have hfull : lim ≤ (out ++ [r]).length := by simpa using hfull
        have hlen : 0 < (out ++ [r]).length := by simp
        rw [show max lim 1 - (out ++ [r]).length = 0 by omega, List.take_zero]
      · rename_i hroom
        have hroom : (out ++ [r]).length < lim := by simpa using hroom
        rw [ih 0 (out ++ [r]) (by omega), List.drop_zero, List.append_assoc,
          List.singleton_append]
    | succ skip => rw [collect, ih skip out h, List.drop_succ_cons]

/-- A limit of zero is taken for one. -/
lemma plainQuery_eq : plainQuery S t f =
    window (f.limit.map fun lim => max lim 1) f.offset (S.select t f) := by
  unfold plainQuery window
  cases f.limit with
  | none => simp [collect_none]
  | some lim => simp [collect_some lim _ [] _ (by simp)]

lemma select_perm : (S.select t f).Perm (matching t f) := by
  have hsame : matching t f = (t.rows.filter f.buildWhere).filter f.pathMatches := by
    rw [matching, List.filter_filter]
    simp only [Bool.and_comm]
  rw [hsame]
  exact (S.perm _ _).filter _

lemma select_answers : Answers t f (S.select t f) :=
  ⟨select_perm, (S.sorted f.unpaged _).sublist List.filter_sublist⟩

lemma plainCount_eq (S : SortingDb) (t : ScoredRows) (f : RowQuery) :
    plainCount t f = (S.select t f).length := by
  rw [select_perm.length_eq, matching]
  unfold plainCount RowQuery.pathMatches
  cases f.pathGlob with
  | none => simp [List.countP_eq_length_filter]
  | some glob => simp [List.countP_eq_length_filter, List.filter_filter, Bool.and_comm]

/-- **Pages of one statement** are right unless no rows are asked for where there are some. -/
lemma plain_page_iff : plainQuery S t f = window f.limit f.offset (S.select t f) ↔
    PageRight t f := by
  rw [plainQuery_eq, PageRight, ← (select_perm (S := S)).length_eq]
  unfold window
  cases f.limit with
  | none => simp
  | some lim =>
    cases lim with
    | zero => simp [List.drop_eq_nil_iff]
    | succ lim => simp

/-! ### Chunks -/

lemma pick_meant (c : List String) :
    pick (fun r : ScoredRow => r.id) (meant t f) c = matching t (f.withIds c) := by
  rw [pick, meant, matching, List.filter_filter]
  apply List.filter_congr
  intro r _
  have hcond : (f.withIds c).conditions r = f.conditions r := rfl
  have hpath : (f.withIds c).pathMatches r = f.pathMatches r := rfl
  have hids : (f.withIds c).ids = some c := rfl
  rw [RowQuery.buildWhere, hcond, hpath, hids, Option.all_some, List.contains_eq_mem]
  cases decide (r.id ∈ c) <;> cases f.conditions r <;> cases f.pathMatches r <;> rfl

variable {ids : List String}

lemma withIds_self (hids : f.ids = some ids) : f.withIds ids = f.unpaged := by
  unfold RowQuery.withIds
  rw [← hids]
  rfl

/-- Asking for all ids together and chunk by chunk is the same choice of ids. -/
lemma pick_chunks (hids : f.ids = some ids) :
    pick (fun r : ScoredRow => r.id) (meant t f) (chunks idsChunk ids).flatten =
      matching t f.unpaged := by
  rw [← withIds_self hids, ← pick_meant]
  apply List.filter_congr
  intro r _
  rw [decide_eq_decide, List.mem_flatten]
  exact mem_chunks (by decide)

/-- What the chunks give together. -/
def fromChunks (S : SortingDb) (t : ScoredRows) (f : RowQuery) (ids : List String) :
    List ScoredRow := (chunks idsChunk ids).flatMap fun c => plainQuery S t (f.withIds c)

lemma plainQuery_withIds (c : List String) :
    plainQuery S t (f.withIds c) = S.select t (f.withIds c) := by
  rw [plainQuery_eq]
  rfl

lemma fromChunks_perm : (fromChunks S t f ids).Perm
    ((chunks idsChunk ids).flatMap (pick (fun r : ScoredRow => r.id) (meant t f))) := by
  apply List.Perm.flatMap_left _
  intro c _
  rw [plainQuery_withIds, pick_meant]
  exact select_perm

lemma nodup_meant : (meant t f).Nodup := (List.Nodup.of_map _ t.unique).filter _

lemma mem_fromChunks (hids : f.ids = some ids) {r : ScoredRow} :
    r ∈ fromChunks S t f ids ↔ r ∈ matching t f := by
  have hsame : matching t f = matching t f.unpaged := rfl
  rw [fromChunks_perm.mem_iff, hsame, ← pick_chunks hids, mem_pick]
  simp only [List.mem_flatMap, mem_pick, List.mem_flatten]
  constructor
  · rintro ⟨c, hc, hr, hid⟩
    exact ⟨hr, c, hc, hid⟩
  · rintro ⟨hr, c, hc, hid⟩
    exact ⟨c, hc, hr, hid⟩

/-- **The rows that the chunks give, sorted once more**, answer the query exactly if the chunks are
right. -/
lemma chunked_answers_iff (hids : f.ids = some ids) :
    Answers t f.unpaged ((fromChunks S t f ids).insertionSort (memLe f.sortBy)) ↔
      ChunksRight t f := by
  have hperm : ((fromChunks S t f ids).insertionSort (memLe f.sortBy)).Perm
      (matching t f.unpaged) ↔
        Selection.Apart (fun r : ScoredRow => r.id) (meant t f) (chunks idsChunk ids) := by
    rw [← flatMap_pick_perm_iff nodup_meant, pick_chunks hids]
    have hall : (fromChunks S t f ids).Perm
        ((chunks idsChunk ids).flatMap (pick (fun r : ScoredRow => r.id) (meant t f))) :=
      fromChunks_perm
    have hstep := (List.perm_insertionSort (memLe f.sortBy) _).trans hall
    exact ⟨fun h => hstep.symm.trans h, fun h => hstep.trans h⟩
  have hsorted := pairwise_insertionSort_iff (l := fromChunks S t f ids)
    (sqlLe_of_memLe_memLe f.sortBy)
  simp only [mem_fromChunks hids] at hsorted
  constructor
  · intro h
    refine ⟨fun ids' hids' => ?_, hsorted.1 h.sorted⟩
    obtain rfl : ids = ids' := Option.some.inj (hids.symm.trans hids')
    exact hperm.1 h.perm
  · exact fun h => ⟨hperm.2 (h.once ids hids), hsorted.2 h.agree⟩

/-! ### The query -/

lemma queryRows_of_chunked (hids : f.ids = some ids) (hmany : idsChunk < ids.length) :
    queryRows S t f = window f.limit (some (min (f.offset.getD 0)
      ((fromChunks S t f ids).insertionSort (memLe f.sortBy)).length))
        ((fromChunks S t f ids).insertionSort (memLe f.sortBy)) := by
  unfold queryRows
  split
  · rename_i h
    obtain rfl : ids = [] := Option.some.inj (hids.symm.trans h)
    simp at hmany
  · rename_i ids' _ h
    obtain rfl : ids = ids' := Option.some.inj (hids.symm.trans h)
    rw [if_pos hmany]
    rfl
  · rename_i h
    rw [h] at hids
    exact absurd hids (by simp)

lemma countMatching_of_chunked (hids : f.ids = some ids) (hmany : idsChunk < ids.length) :
    countMatching t f = (fromChunks S t f ids).length := by
  have hchunk : ∀ c, plainCount t (f.withIds c) = (plainQuery S t (f.withIds c)).length :=
    fun c => by rw [plainCount_eq S, plainQuery_withIds]
  rw [fromChunks, List.length_flatMap]
  unfold countMatching
  split
  · rename_i h
    obtain rfl : ids = [] := Option.some.inj (hids.symm.trans h)
    simp at hmany
  · rename_i ids' _ h
    obtain rfl : ids = ids' := Option.some.inj (hids.symm.trans h)
    rw [if_pos hmany]
    simp only [hchunk]
  · rename_i h
    rw [h] at hids
    exact absurd hids (by simp)

/-- Where the ids fit into one statement, the query is that statement, except that no ids match
nothing. -/
lemma queryRows_of_not_chunked (h : ¬ f.Chunked) :
    queryRows S t f = plainQuery S t f ∧ countMatching t f = plainCount t f := by
  unfold queryRows countMatching
  split
  · rename_i hids
    have hnone : matching t f = [] := by
      simp [matching, RowQuery.buildWhere, hids]
    have hselect : S.select t f = [] := by
      have := select_perm (S := S) (t := t) (f := f)
      rw [hnone] at this
      exact this.eq_nil
    rw [plainCount_eq S, plainQuery_eq, hselect]
    unfold window
    cases f.limit <;> simp
  · rename_i ids _ hids
    have hfew : ¬ idsChunk < ids.length := fun hmany => h ⟨ids, hids, hmany⟩
    rw [if_neg hfew, if_neg hfew]
    exact ⟨rfl, rfl⟩
  · exact ⟨rfl, rfl⟩

lemma window_min (limit offset : Option ℕ) (rows : List ScoredRow) :
    window limit (some (min (offset.getD 0) rows.length)) rows = window limit offset rows := by
  have hdrop : rows.drop (min (offset.getD 0) rows.length) = rows.drop (offset.getD 0) := by
    rcases le_total (offset.getD 0) rows.length with h | h
    · rw [min_eq_left h]
    · rw [min_eq_right h, List.drop_length, List.drop_eq_nil_of_le h]
  unfold window
  cases limit <;> simp only [Option.getD_some, hdrop]

/-- **When a query returns what it should**: in chunks, if they are right; in one statement, if it
asks for a page of some rows. -/
theorem queryRight_iff (S : SortingDb) (t : ScoredRows) (f : RowQuery) :
    QueryRight S t f ↔ (f.Chunked → ChunksRight t f) ∧ (¬ f.Chunked → PageRight t f) := by
  by_cases hch : f.Chunked
  · obtain ⟨ids, hids, hmany⟩ := hch
    have hall : queryRows S t f.unpaged =
        (fromChunks S t f ids).insertionSort (memLe f.sortBy) := by
      rw [queryRows_of_chunked (f := f.unpaged) hids hmany, window_min]
      rfl
    have hpage : queryRows S t f = window f.limit f.offset (queryRows S t f.unpaged) := by
      rw [hall, queryRows_of_chunked hids hmany, window_min]
    have hcount : countMatching t f = (queryRows S t f.unpaged).length := by
      rw [hall, List.length_insertionSort, countMatching_of_chunked hids hmany]
    constructor
    · intro h
      refine ⟨fun _ => (chunked_answers_iff hids).1 (hall ▸ h.answers), fun h' => ?_⟩
      exact absurd ⟨ids, hids, hmany⟩ h'
    · intro h
      refine ⟨?_, hpage, hcount⟩
      rw [hall]
      exact (chunked_answers_iff hids).2 (h.1 ⟨ids, hids, hmany⟩)
  · have hplain := queryRows_of_not_chunked (S := S) (t := t) hch
    have hall : queryRows S t f.unpaged = S.select t f := by
      rw [(queryRows_of_not_chunked (f := f.unpaged) hch).1, plainQuery_eq]
      rfl
    constructor
    · intro h
      refine ⟨fun h' => absurd h' hch, fun _ => ?_⟩
      rw [← plain_page_iff (S := S), ← hplain.1, ← hall]
      exact h.page
    · intro h
      refine ⟨?_, ?_, ?_⟩
      · rw [hall]
        exact select_answers (f := f.unpaged)
      · rw [hall, hplain.1, plain_page_iff]
        exact h.2 hch
      · rw [hall, hplain.2, plainCount_eq S]

end Queries

/-! ## A page of no rows -/

instance (s : SortBy) : Std.Total (sqlLe s) where
  total r r' := by cases s <;> exact le_total _ _

instance (s : SortBy) : IsTrans ScoredRow (sqlLe s) where
  trans r r' r'' h h' := by
    cases s with
    | offset => exact le_trans h h'
    | size => exact le_trans h' h
    | date => exact le_trans h h'
    | score => exact le_trans h' h
    | path => exact le_trans h h'

/-- A database that leaves rows with equal keys in the order of the table. -/
def SortingDb.stable : SortingDb where
  order f rows := rows.insertionSort (sqlLe f.sortBy)
  perm _ rows := List.perm_insertionSort _ rows
  sorted _ rows := List.pairwise_insertionSort _ rows

/-- A table of one row. -/
def oneScoredRow : ScoredRows :=
  ⟨[{ carveRowAt 0 with score := 90 }], List.nodup_singleton _⟩

/-- All rows, at most `limit` of them. -/
def firstRows (limit : ℕ) : RowQuery :=
  { QueryFilter.default with
    after := none
    minScore := none
    engine := none
    deletedOnly := false
    pathGlob := none
    sort := none
    limit := some limit
    offset := none }

/-- A query for no rows returns one. -/
theorem limitZero_counterexample : ¬ QueryRight .stable oneScoredRow (firstRows 0) := by
  intro h
  have hone : queryRows .stable oneScoredRow (firstRows 0) = oneScoredRow.rows := rfl
  have hpage := h.page
  rw [hone] at hpage
  exact absurd hpage (by simp [window, firstRows, oneScoredRow])

end Reclaim
