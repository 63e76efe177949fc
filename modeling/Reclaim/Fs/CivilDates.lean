import Reclaim.Carve.Isobmff
import Reclaim.Foundation.Calendar
import Reclaim.Fs.Dates

/-!
# The printed dates are those of the calendar

`civil_from_days` counts eras of 400 years from a first of March, so that a leap day is the last day
of its year.  Its year, month and day are the date with the given day number, so the date routines
print the day of their timestamps.
-/

namespace Reclaim

open Calendar

/-- `unix_to_date`: seconds since 1970. -/
def unixToDate (unix : ℕ) : String :=
  let days : ℤ := (unix / 86400 : ℕ)
  let z := days + 719468
  let era := z / 146097
  let doe := z - era * 146097
  let yoe := (doe - doe.tdiv 1460 + doe.tdiv 36524 - doe.tdiv 146096).tdiv 365
  let y := yoe + era * 400
  let doy := doe - (365 * yoe + yoe.tdiv 4 - yoe.tdiv 100)
  let mp := (5 * doy + 2).tdiv 153
  let d := doy - (153 * mp + 2).tdiv 5 + 1
  let m := if mp < 10 then mp + 3 else mp - 9
  dateString (if m ≤ 2 then y + 1 else y).toNat m.toNat d.toNat

/-! ## Years of an era -/

section Era

variable {doe yoe doy y mp : ℤ}

/-- The centuries of an era, of which the last has a day more. -/
lemma centuryOfEra (h₀ : 0 ≤ doe) (h₁ : doe ≤ 146096)
    (hyoe : yoe = (doe - doe / 1460 + doe / 36524 - doe / 146096) / 365) :
    doe / 36524 = 0 ∧ doe / 146096 = 0 ∧ yoe / 100 = 0 ∨
      doe / 36524 = 1 ∧ doe / 146096 = 0 ∧ yoe / 100 = 1 ∨
      doe / 36524 = 2 ∧ doe / 146096 = 0 ∧ yoe / 100 = 2 ∨
      doe / 36524 = 3 ∧ doe / 146096 = 0 ∧ yoe / 100 = 3 ∨
      doe / 36524 = 4 ∧ doe / 146096 = 1 ∧ yoe / 100 = 3 := by
  have hcases : doe / 36524 = 0 ∨ doe / 36524 = 1 ∨ doe / 36524 = 2 ∨ doe / 36524 = 3 ∨
      doe / 36524 = 4 := by omega
  rcases hcases with h | h | h | h | h
  · exact .inl ⟨h, by omega, by rw [h] at hyoe; omega⟩
  · exact .inr (.inl ⟨h, by omega, by rw [h] at hyoe; omega⟩)
  · exact .inr (.inr (.inl ⟨h, by omega, by rw [h] at hyoe; omega⟩))
  · exact .inr (.inr (.inr (.inl ⟨h, by omega, by rw [h] at hyoe; omega⟩)))
  · exact .inr (.inr (.inr (.inr ⟨h, by omega, by rw [h] at hyoe; omega⟩)))

/-- A year that has a 366th day ends with a leap day. -/
lemma lastDayOfEra (h₀ : 0 ≤ doe) (h₁ : doe ≤ 146096)
    (hyoe : yoe = (doe - doe / 1460 + doe / 36524 - doe / 146096) / 365)
    (hlast : doe = 365 * yoe + yoe / 4 - yoe / 100 + 365) : IsLeap (yoe + 1) := by
  have hcentury := centuryOfEra h₀ h₁ hyoe
  -- the last of four years, which ends no century but the last
  obtain ⟨k, r, hr, rfl⟩ : ∃ k r : ℤ, (r = 0 ∨ r = 1 ∨ r = 2 ∨ r = 3) ∧ yoe = 4 * k + r :=
    ⟨yoe / 4, yoe % 4, by omega, by omega⟩
  have hfour : (4 * k + r) / 4 = k := by omega
  rw [hfour] at hlast
  clear hfour
  unfold IsLeap
  rcases hcentury with ⟨hb, he, hq⟩ | ⟨hb, he, hq⟩ | ⟨hb, he, hq⟩ | ⟨hb, he, hq⟩ | ⟨hb, he, hq⟩
  all_goals
    rw [hb, he] at hyoe
    rw [hq] at hlast
    clear he
    rcases hr with rfl | rfl | rfl | rfl
    all_goals omega

/-- The year of a day of an era that begins with a first of March: the day lies in it, and is its
366th only if the February at its end has a leap day. -/
lemma yearOfEra (h₀ : 0 ≤ doe) (h₁ : doe ≤ 146096)
    (hyoe : yoe = (doe - doe / 1460 + doe / 36524 - doe / 146096) / 365)
    (hdoy : doy = doe - (365 * yoe + yoe / 4 - yoe / 100)) :
    (0 ≤ yoe ∧ yoe ≤ 399) ∧ (0 ≤ doy ∧ doy ≤ 365) ∧ (doy = 365 → IsLeap (yoe + 1)) := by
  have hlast : doy = 365 → IsLeap (yoe + 1) := fun hfull =>
    lastDayOfEra h₀ h₁ hyoe (by omega)
  have hbounds : (0 ≤ yoe ∧ yoe ≤ 399) ∧ 0 ≤ doy ∧ doy ≤ 365 := by
    have hcentury := centuryOfEra h₀ h₁ hyoe
    rcases hcentury with ⟨hb, he, hq⟩ | ⟨hb, he, hq⟩ | ⟨hb, he, hq⟩ | ⟨hb, he, hq⟩ | ⟨hb, he, hq⟩
    all_goals
      rw [hb, he] at hyoe
      rw [hq] at hdoy
      omega
  exact ⟨hbounds.1, hbounds.2, hlast⟩

/-- The days of a month that begins `mp` months after a first of March. -/
lemma daysIn_march (h₀ : 0 ≤ mp) (h₁ : mp ≤ 9) :
    daysIn y (mp + 3) = (153 * (mp + 1) + 2) / 5 - (153 * mp + 2) / 5 := by
  unfold daysIn
  interval_cases mp <;> rfl

/-- The days before such a month, in the same year. -/
lemma daysBeforeMonth_march (h₀ : 0 ≤ mp) (h₁ : mp ≤ 9) :
    daysBeforeMonth y (mp + 3) = (if IsLeap y then 60 else 59) + (153 * mp + 2) / 5 := by
  obtain ⟨n, rfl⟩ := Int.eq_ofNat_of_zero_le h₀
  induction n with
  | zero =>
    have hjanuary : daysIn y 1 = 31 := rfl
    have hfebruary : daysIn y (1 + 1) = if IsLeap y then 29 else 28 := rfl
    have hmarch : ((0 : ℕ) : ℤ) + 3 = 1 + 1 + 1 := rfl
    rw [hmarch, daysBeforeMonth_succ (by omega), daysBeforeMonth_succ le_rfl, daysBeforeMonth_one,
      hjanuary, hfebruary]
    split_ifs <;> rfl
  | succ n ih =>
    have hnext : ((n + 1 : ℕ) : ℤ) + 3 = (n : ℤ) + 3 + 1 := by omega
    rw [hnext, daysBeforeMonth_succ (by omega), ih (by omega) (by omega),
      daysIn_march (by omega) (by omega)]
    omega

end Era

/-! ## The date of a day number -/

/-- What `civil_from_days` computes, with quotients that round down. -/
lemma civilFromDays_eq (days : ℤ) :
    ∃ era doe yoe doy mp : ℤ, era * 146097 + doe = days + 719468 ∧ (0 ≤ doe ∧ doe ≤ 146096) ∧
      yoe = (doe - doe / 1460 + doe / 36524 - doe / 146096) / 365 ∧
      doy = doe - (365 * yoe + yoe / 4 - yoe / 100) ∧ mp = (5 * doy + 2) / 153 ∧
      civilFromDays days = (if mp < 10 then yoe + era * 400 else yoe + era * 400 + 1,
        if mp < 10 then mp + 3 else mp - 9, doy - (153 * mp + 2) / 5 + 1) := by
  have hera : (if 0 ≤ days + 719468 then days + 719468 else days + 719468 - 146096).tdiv 146097 =
      (days + 719468) / 146097 := by
    split
    · exact Int.tdiv_eq_ediv_of_nonneg ‹_›
    · rw [Int.tdiv_eq_ediv]
      split
      · omega
      · have hsign : (146097 : ℤ).sign = 1 := rfl
        omega
  have hdoe : 0 ≤ days + 719468 - (days + 719468) / 146097 * 146097 ∧
      days + 719468 - (days + 719468) / 146097 * 146097 ≤ 146096 := by omega
  unfold civilFromDays
  dsimp only
  rw [hera]
  generalize (days + 719468) / 146097 = era at hdoe ⊢
  generalize hd : days + 719468 - era * 146097 = doe at hdoe ⊢
  have hyear : (doe - doe / 1460 + doe / 36524 - doe / 146096).tdiv 365 =
      (doe - doe / 1460 + doe / 36524 - doe / 146096) / 365 :=
    Int.tdiv_eq_ediv_of_nonneg (by omega)
  rw [Int.tdiv_eq_ediv_of_nonneg hdoe.1, Int.tdiv_eq_ediv_of_nonneg hdoe.1,
    Int.tdiv_eq_ediv_of_nonneg hdoe.1, hyear]
  obtain ⟨hyoe, hdoy, -⟩ := yearOfEra hdoe.1 hdoe.2 rfl rfl
  generalize hy : (doe - doe / 1460 + doe / 36524 - doe / 146096) / 365 = yoe at hyoe hdoy ⊢
  rw [Int.tdiv_eq_ediv_of_nonneg hyoe.1, Int.tdiv_eq_ediv_of_nonneg hyoe.1]
  generalize hdy : doe - (365 * yoe + yoe / 4 - yoe / 100) = doy at hdoy ⊢
  have hmonth : (5 * doy + 2).tdiv 153 = (5 * doy + 2) / 153 :=
    Int.tdiv_eq_ediv_of_nonneg (by omega)
  have hfirst : (153 * ((5 * doy + 2) / 153) + 2).tdiv 5 = (153 * ((5 * doy + 2) / 153) + 2) / 5 :=
    Int.tdiv_eq_ediv_of_nonneg (by omega)
  rw [hmonth, hfirst]
  refine ⟨era, doe, yoe, doy, _, by omega, hdoe, hy.symm, hdy.symm, rfl, ?_⟩
  by_cases h : (5 * doy + 2) / 153 < 10
  · rw [if_pos h, if_pos h, if_neg (by omega)]
  · rw [if_neg h, if_neg h, if_pos (by omega)]

/-- Eras have the same days, and begin with years that are multiples of 400. -/
lemma daysBeforeYear_era (y era : ℤ) :
    daysBeforeYear (y + era * 400) = daysBeforeYear y + era * 146097 := by
  unfold daysBeforeYear
  omega

lemma isLeap_era (y era : ℤ) : IsLeap (y + era * 400) ↔ IsLeap y := by
  unfold IsLeap
  omega

/-- **`civil_from_days` gives the date with the day number.** -/
lemma exists_civilFromDays (days : ℤ) :
    ∃ d : Date, civilFromDays days = (d.year, d.month, d.day) ∧ d.dayNumber = days := by
  obtain ⟨era, doe, yoe, doy, mp, hera, hdoe, hyoe, hdoy, hmp, hcivil⟩ := civilFromDays_eq days
  obtain ⟨hyear, hday, hlast⟩ := yearOfEra hdoe.1 hdoe.2 hyoe hdoy
  -- the first of March lies 306 days before the year's end
  have hmarch : daysBeforeYear (yoe + 1) = 365 * yoe + yoe / 4 - yoe / 100 := by
    have hera : yoe / 400 = 0 := Int.ediv_eq_zero_of_lt hyear.1 (by omega)
    rw [daysBeforeYear, add_sub_cancel_right, hera, add_zero]
  have hdays : days = era * 146097 + daysBeforeYear (yoe + 1) + doy - 719468 := by omega
  clear hera hdoe hyoe hdoy hmarch
  rw [hcivil]
  by_cases h : mp < 10
  · rw [if_pos h, if_pos h]
    have hin := daysIn_march (y := yoe + era * 400) (by omega : 0 ≤ mp) (by omega)
    refine ⟨⟨yoe + era * 400, mp + 3, doy - (153 * mp + 2) / 5 + 1, by omega, by omega⟩, rfl, ?_⟩
    rw [daysBeforeYear_succ] at hdays
    unfold Date.dayNumber
    dsimp only
    rw [daysBeforeMonth_march (by omega) (by omega), daysBeforeYear_era, hdays]
    by_cases hleap : IsLeap yoe
    · rw [if_pos hleap, if_pos ((isLeap_era yoe era).2 hleap)]
      omega
    · rw [if_neg hleap, if_neg (mt (isLeap_era yoe era).1 hleap)]
      omega
  · rw [if_neg h, if_neg h]
    have hyear' : yoe + era * 400 + 1 = yoe + 1 + era * 400 := by ring
    have hjanuary : daysIn (yoe + era * 400 + 1) 1 = 31 := rfl
    have hfebruary : daysIn (yoe + era * 400 + 1) 2 =
        if IsLeap (yoe + era * 400 + 1) then 29 else 28 := rfl
    obtain rfl | rfl : mp = 10 ∨ mp = 11 := by omega
    · have hmonth : (10 - 9 : ℤ) = 1 := rfl
      refine ⟨⟨yoe + era * 400 + 1, 10 - 9, doy - (153 * 10 + 2) / 5 + 1, by omega, ?_⟩, rfl, ?_⟩
      · rw [hmonth, hjanuary]
        omega
      · unfold Date.dayNumber
        dsimp only
        rw [hmonth, daysBeforeMonth_one, hyear', daysBeforeYear_era, hdays]
        omega
    · have hmonth : (11 - 9 : ℤ) = 2 := rfl
      refine ⟨⟨yoe + era * 400 + 1, 11 - 9, doy - (153 * 11 + 2) / 5 + 1, by omega, ?_⟩, rfl, ?_⟩
      · rw [hmonth, hfebruary]
        split
        · omega
        · rename_i hno
          rw [hyear', isLeap_era] at hno
          have hshort : doy ≠ 365 := mt hlast hno
          omega
      · have hsecond : (2 : ℤ) = 1 + 1 := rfl
        unfold Date.dayNumber
        dsimp only
        rw [hmonth, hsecond, daysBeforeMonth_succ le_rfl, daysBeforeMonth_one, hjanuary, hyear',
          daysBeforeYear_era, hdays]
        omega

/-- The text is the print of the one date that has a number of days since 1970-01-01. -/
def PrintsDay (text : String) (days : ℤ) : Prop :=
  ∃ d : Date, text = dateString d.year.toNat d.month.toNat d.day.toNat ∧ d.dayNumber = days ∧
    ∀ d' : Date, d'.dayNumber = days → d' = d

lemma printsDay_dateOfDays (days : ℤ) : PrintsDay (dateOfDays days) days := by
  obtain ⟨d, hcivil, hday⟩ := exists_civilFromDays days
  refine ⟨d, ?_, hday, fun d' hd' => Date.dayNumber_injective (hd'.trans hday.symm)⟩
  rw [dateOfDays, hcivil]

/-- Eras that are counted with a Euclidean quotient are the same. -/
lemma unixToDate_eq (unix : ℕ) : unixToDate unix = dateOfDays ((unix / 86400 : ℕ) : ℤ) := by
  have hpos : (0 : ℤ) ≤ ((unix / 86400 : ℕ) : ℤ) + 719468 := by omega
  unfold unixToDate dateOfDays civilFromDays
  dsimp only
  rw [if_pos hpos, Int.tdiv_eq_ediv_of_nonneg hpos]

lemma macEpochToDate_eq (secs : ℕ) : Isobmff.macEpochToDate secs =
    if secs < 2082844800 then none else some (unixToDate (secs - 2082844800)) := by
  unfold Isobmff.macEpochToDate
  rw [unixToDate_eq]

/-- **The date routines print the dates of their timestamps**, and print the same where they accept
the same time. -/
theorem dates_exact :
    (∀ unix : ℕ, PrintsDay (unixToDate unix) ((unix : ℤ) / 86400)) ∧
    (∀ (secs : ℕ) (text : String), Isobmff.macEpochToDate secs = some text →
      text = unixToDate (secs - 2082844800) ∧
        PrintsDay text (((secs : ℤ) - 2082844800) / 86400)) ∧
    (∀ (secs : ℤ) (text : String), dateFromUnix secs = some text → PrintsDay text (secs / 86400)) ∧
    (∀ (secs : ℕ) (text : String), hfsDate secs = some text →
      PrintsDay text (((secs : ℤ) - 2082844800) / 86400)) ∧
    (∀ (unix : ℕ) (text : String), dateFromUnix unix = some text → text = unixToDate unix) ∧
    ∀ (secs : ℕ) (text text' : String), Isobmff.macEpochToDate secs = some text →
      hfsDate secs = some text' → text = text' := by
  have hprints : ∀ unix : ℕ, PrintsDay (unixToDate unix) ((unix : ℤ) / 86400) := by
    intro unix
    have hdays : ((unix / 86400 : ℕ) : ℤ) = (unix : ℤ) / 86400 := Int.natCast_ediv unix 86400
    rw [unixToDate_eq, hdays]
    exact printsDay_dateOfDays _
  have hunix : ∀ (secs : ℤ) (text : String), dateFromUnix secs = some text →
      0 < secs ∧ text = dateOfDays (secs / 86400) := by
    intro secs text h
    unfold dateFromUnix at h
    split at h
    · cases h
    · exact ⟨by omega, (Option.some.inj h).symm⟩
  have hhfs : ∀ (secs : ℕ) (text : String), hfsDate secs = some text →
      dateFromUnix ((secs : ℤ) - 2082844800) = some text := by
    intro secs text h
    unfold hfsDate at h
    split at h
    · cases h
    · exact h
  have hmac : ∀ (secs : ℕ) (text : String), Isobmff.macEpochToDate secs = some text →
      2082844800 ≤ secs ∧ text = unixToDate (secs - 2082844800) := by
    intro secs text h
    rw [macEpochToDate_eq] at h
    split at h
    · cases h
    · exact ⟨by omega, (Option.some.inj h).symm⟩
  have hsame : ∀ (unix : ℕ) (text : String), dateFromUnix unix = some text →
      text = unixToDate unix := by
    intro unix text h
    have hdays : ((unix / 86400 : ℕ) : ℤ) = (unix : ℤ) / 86400 := Int.natCast_ediv unix 86400
    rw [(hunix unix text h).2, unixToDate_eq, hdays]
  have hsub : ∀ secs : ℕ, 2082844800 ≤ secs →
      (((secs - 2082844800 : ℕ) : ℕ) : ℤ) = (secs : ℤ) - 2082844800 := fun secs h => by omega
  refine ⟨hprints, ?_, ?_, ?_, hsame, ?_⟩
  · intro secs text h
    obtain ⟨hle, rfl⟩ := hmac secs text h
    refine ⟨rfl, ?_⟩
    rw [← hsub secs hle]
    exact hprints _
  · intro secs text h
    rw [(hunix secs text h).2]
    exact printsDay_dateOfDays _
  · intro secs text h
    rw [(hunix _ text (hhfs secs text h)).2]
    exact printsDay_dateOfDays _
  · intro secs text text' h h'
    obtain ⟨hle, rfl⟩ := hmac secs text h
    have h' := hhfs secs text' h'
    rw [← hsub secs hle] at h'
    exact (hsame _ text' h').symm

/-- The rule, for a leap day and its second in 1904. -/
theorem dates_exact_leapDay : PrintsDay "2000-02-29" ((951782400 : ℤ) / 86400) ∧
    PrintsDay "2000-02-29" ((((3034627200 : ℕ) : ℤ) - 2082844800) / 86400) :=
  ⟨dates_exact.2.2.1 951782400 "2000-02-29" (by decide),
    dates_exact.2.2.2.1 3034627200 "2000-02-29" (by decide)⟩

end Reclaim
