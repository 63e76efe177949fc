import Mathlib.Tactic

/-!
# The Gregorian calendar

A `Date` is a day of the proleptic Gregorian calendar.  Its `dayNumber` counts the days since
1970-01-01: that day has the number 0, the `next` day of any date has the next number, and no two
dates have the same.
-/

namespace Calendar

/-- The years with a leap day: every fourth, of those that end a century only every fourth. -/
def IsLeap (y : ℤ) : Prop := y % 4 = 0 ∧ (y % 100 = 0 → y % 400 = 0)

instance (y : ℤ) : Decidable (IsLeap y) := inferInstanceAs (Decidable (_ ∧ _))

/-- The days of a month. -/
def daysIn (y m : ℤ) : ℤ :=
  if m = 2 then if IsLeap y then 29 else 28
  else if m = 4 ∨ m = 6 ∨ m = 9 ∨ m = 11 then 30
  else 31

/-- A day. -/
@[ext]
structure Date where
  year : ℤ
  month : ℤ
  day : ℤ
  month_mem : 1 ≤ month ∧ month ≤ 12
  day_mem : 1 ≤ day ∧ day ≤ daysIn year month

lemma daysIn_pos (y m : ℤ) : 1 ≤ daysIn y m := by
  unfold daysIn
  split_ifs <;> omega

namespace Date

/-- 1970-01-01. -/
def epoch : Date := ⟨1970, 1, 1, by omega, by decide⟩

/-- The day after. -/
def next (d : Date) : Date :=
  if h : d.day < daysIn d.year d.month then
    ⟨d.year, d.month, d.day + 1, d.month_mem, by have := d.day_mem; omega⟩
  else if hm : d.month < 12 then
    ⟨d.year, d.month + 1, 1, by have := d.month_mem; omega, le_rfl, daysIn_pos _ _⟩
  else ⟨d.year + 1, 1, 1, by omega, le_rfl, daysIn_pos _ _⟩

end Date

/-! ## Day numbers -/

/-- The days of the years before `y`, from year 1 on. -/
def daysBeforeYear (y : ℤ) : ℤ := 365 * (y - 1) + (y - 1) / 4 - (y - 1) / 100 + (y - 1) / 400

/-- The days of a year before its month `m`. -/
def daysBeforeMonth (y m : ℤ) : ℤ :=
  ((List.range (m - 1).toNat).map fun k : ℕ => daysIn y (k + 1)).sum

/-- The number of a day, from 1970-01-01 on. -/
def Date.dayNumber (d : Date) : ℤ :=
  daysBeforeYear d.year + daysBeforeMonth d.year d.month + (d.day - 1) - 719162

lemma daysBeforeMonth_one (y : ℤ) : daysBeforeMonth y 1 = 0 := rfl

lemma daysBeforeMonth_succ {y m : ℤ} (hm : 1 ≤ m) :
    daysBeforeMonth y (m + 1) = daysBeforeMonth y m + daysIn y m := by
  have hnext : (m + 1 - 1).toNat = (m - 1).toNat + 1 := by omega
  have hmonth : (((m - 1).toNat : ℕ) : ℤ) + 1 = m := by omega
  rw [daysBeforeMonth, hnext, List.range_succ, List.map_append, List.sum_append, List.map_singleton,
    List.sum_singleton, hmonth]
  rfl

/-- A year has 365 days, and one more if it is a leap year. -/
lemma daysBeforeYear_succ (y : ℤ) :
    daysBeforeYear (y + 1) = daysBeforeYear y + if IsLeap y then 366 else 365 := by
  unfold daysBeforeYear IsLeap
  split_ifs <;> omega

lemma daysBeforeMonth_december (y : ℤ) :
    daysBeforeMonth y 12 + daysIn y 12 = if IsLeap y then 366 else 365 := by
  unfold daysBeforeMonth
  have hmonths : ((12 : ℤ) - 1).toNat = 11 := rfl
  rw [hmonths]
  by_cases h : IsLeap y <;> simp [List.range_succ, daysIn, h]

namespace Date

lemma dayNumber_epoch : epoch.dayNumber = 0 := by decide

/-- **The day after has the next number.** -/
lemma dayNumber_next (d : Date) : d.next.dayNumber = d.dayNumber + 1 := by
  have hm := d.month_mem
  have hd := d.day_mem
  unfold next
  split
  · unfold dayNumber
    dsimp only
    omega
  · split
    · unfold dayNumber
      dsimp only
      rw [daysBeforeMonth_succ hm.1]
      omega
    · have hlast : d.month = 12 := by omega
      have hyear := daysBeforeMonth_december d.year
      unfold dayNumber
      rw [hlast] at hd ⊢
      rename_i hday _
      rw [hlast] at hday
      dsimp only
      rw [daysBeforeYear_succ, daysBeforeMonth_one]
      omega

end Date

/-- The months of a year follow each other. -/
lemma daysBeforeMonth_add_le {y m m' : ℤ} (hm : 1 ≤ m) (h : m < m') :
    daysBeforeMonth y m + daysIn y m ≤ daysBeforeMonth y m' := by
  obtain ⟨n, rfl⟩ : ∃ n : ℕ, m' = m + 1 + n := ⟨(m' - (m + 1)).toNat, by omega⟩
  induction n with
  | zero =>
    rw [Nat.cast_zero, add_zero, daysBeforeMonth_succ hm]
  | succ n ih =>
    have hlong : m + 1 + ((n + 1 : ℕ) : ℤ) = m + 1 + n + 1 := by omega
    have hpos := daysIn_pos y (m + 1 + n)
    have := ih (by omega)
    rw [hlong, daysBeforeMonth_succ (by omega)]
    omega

/-- The years follow each other. -/
lemma daysBeforeYear_mono {y y' : ℤ} (h : y ≤ y') : daysBeforeYear y ≤ daysBeforeYear y' := by
  unfold daysBeforeYear
  omega

namespace Date

/-- A date lies in its year. -/
lemma dayNumber_mem (d : Date) : daysBeforeYear d.year ≤ d.dayNumber + 719162 ∧
    d.dayNumber + 719162 < daysBeforeYear (d.year + 1) := by
  have hm := d.month_mem
  have hd := d.day_mem
  have hfirst : 0 ≤ daysBeforeMonth d.year d.month := by
    obtain hone | hlt := hm.1.eq_or_lt
    · rw [← hone, daysBeforeMonth_one]
    · have hpos := daysIn_pos d.year 1
      have := daysBeforeMonth_add_le (y := d.year) le_rfl hlt
      rw [daysBeforeMonth_one] at this
      omega
  have hlast : daysBeforeMonth d.year d.month + daysIn d.year d.month ≤
      if IsLeap d.year then 366 else 365 := by
    rw [← daysBeforeMonth_december]
    obtain htwelve | hlt := hm.2.eq_or_lt
    · rw [htwelve]
    · have hpos := daysIn_pos d.year 12
      have := daysBeforeMonth_add_le (y := d.year) hm.1 hlt
      omega
  rw [daysBeforeYear_succ]
  unfold dayNumber
  omega

/-- **No two dates have the same number.** -/
lemma dayNumber_injective : Function.Injective dayNumber := by
  intro d e h
  have hd := d.dayNumber_mem
  have he := e.dayNumber_mem
  have hyear : d.year = e.year := by
    rcases lt_trichotomy d.year e.year with hlt | heq | hlt
    · have := daysBeforeYear_mono (Int.add_one_le_of_lt hlt)
      omega
    · exact heq
    · have := daysBeforeYear_mono (Int.add_one_le_of_lt hlt)
      omega
  have hdday := d.day_mem
  have heday := e.day_mem
  unfold dayNumber at h
  rw [hyear] at h hdday
  have hmonth : d.month = e.month := by
    rcases lt_trichotomy d.month e.month with hlt | heq | hlt
    · have := daysBeforeMonth_add_le (y := e.year) d.month_mem.1 hlt
      omega
    · exact heq
    · have := daysBeforeMonth_add_le (y := e.year) e.month_mem.1 hlt
      omega
  rw [hmonth] at h
  exact Date.ext hyear hmonth (by omega)

end Date

end Calendar
