import Mathlib.Tactic

/-!
# Dates of entries

The engines print the days of their timestamps as `YYYY-MM-DD`: those that count seconds, or parts
of seconds, through the number of days since 1970, FAT and exFAT from a packed word.
-/

namespace Reclaim

/-- A number in decimal, with zeros before it up to a width. -/
def zeroPadded (width n : ℕ) : String :=
  let digits := (Nat.repr n).toList
  String.ofList (List.replicate (width - digits.length) '0' ++ digits)

/-- `{y:04}-{m:02}-{d:02}`. -/
def dateString (y m d : ℕ) : String :=
  zeroPadded 4 y ++ "-" ++ zeroPadded 2 m ++ "-" ++ zeroPadded 2 d

/-- `civil_from_days`: year, month and day of a number of days since 1970-01-01. -/
def civilFromDays (days : ℤ) : ℤ × ℤ × ℤ :=
  let z := days + 719468
  let era := (if 0 ≤ z then z else z - 146096).tdiv 146097
  let doe := z - era * 146097
  let yoe := (doe - doe.tdiv 1460 + doe.tdiv 36524 - doe.tdiv 146096).tdiv 365
  let y := yoe + era * 400
  let doy := doe - (365 * yoe + yoe.tdiv 4 - yoe.tdiv 100)
  let mp := (5 * doy + 2).tdiv 153
  let d := doy - (153 * mp + 2).tdiv 5 + 1
  let m := if mp < 10 then mp + 3 else mp - 9
  (if m ≤ 2 then y + 1 else y, m, d)

/-- The date of a number of days since 1970-01-01. -/
def dateOfDays (days : ℤ) : String :=
  let c := civilFromDays days
  dateString c.1.toNat c.2.1.toNat c.2.2.toNat

/-- `date_from_unix` of HFS+ and APFS: nothing for the epoch and for what lies behind 2100. -/
def dateFromUnix (secs : ℤ) : Option String :=
  if secs ≤ 0 ∨ 4102444800 < secs then none else some (dateOfDays (secs / 86400))

/-- `hfs_date`: seconds since 1904. -/
def hfsDate (secs : ℕ) : Option String :=
  if secs = 0 then none else dateFromUnix ((secs : ℤ) - 2082844800)

/-- `apfs_date`: nanoseconds since 1970. -/
def apfsDate (nanos : ℕ) : Option String :=
  if nanos = 0 then none else dateFromUnix ((nanos / 1000000000 : ℕ) : ℤ)

/-- `date_from_epoch` of ext: seconds since 1970. -/
def dateFromEpoch (secs : ℕ) : Option String :=
  if secs = 0 then none else some (dateOfDays ((secs / 86400 : ℕ) : ℤ))

/-- `filetime_date` of NTFS: tenths of microseconds since 1601. -/
def filetimeDate (ft : ℕ) : Option String :=
  if ft = 0 then none
  else
    let secs := ((ft / 10000000 : ℕ) : ℤ) - 11644473600
    if secs < -62135596800 ∨ 253402300799 < secs then none
    else
      let c := civilFromDays (secs / 86400)
      if c.2.1 < 1 ∨ 12 < c.2.1 ∨ c.2.2 < 1 ∨ 31 < c.2.2 then none
      else some (dateString c.1.toNat c.2.1.toNat c.2.2.toNat)

/-- `fat_date`: a packed word of day, month and years since 1980. -/
def fatDate (date : ℕ) : Option String :=
  let day := date % 32
  let month := date / 32 % 16
  let year := 1980 + date / 512 % 128
  if date = 0 ∨ month = 0 ∨ day = 0 ∨ 12 < month ∨ 31 < day then none
  else some (dateString year month day)

/-- `exfat_date`: the packed date is the high half of the timestamp. -/
def exfatDate (ts : ℕ) : Option String := if ts = 0 then none else fatDate (ts / 65536)

/-- Leap days and the turn of a century. -/
example : [0, 951782400, 951868800, 1789171200].map (fun s : ℕ => civilFromDays (s / 86400 : ℕ)) =
    [(1970, 1, 1), (2000, 2, 29), (2000, 3, 1), (2026, 9, 12)] := by decide

end Reclaim
