/-!
# The calendar

Dates of the Gregorian calendar, extended to all years, and their numbering by days from
1970-01-01.  Every day lies in the year that is computed for it (`daysBeforeYear_yearOfDay`).
-/

namespace HeadlessCms.Time

/-- A date.  Months and days count from one. -/
structure Date where
  year : Int
  month : Nat
  day : Nat
  deriving Repr, DecidableEq

def isLeapYear (year : Int) : Bool :=
  year % 4 == 0 && (year % 100 != 0 || year % 400 == 0)

/-- How many days a month has; none for a number that is no month. -/
def daysInMonth (year : Int) (month : Nat) : Nat :=
  match month with
  | 1 | 3 | 5 | 7 | 8 | 10 | 12 => 31
  | 4 | 6 | 9 | 11 => 30
  | 2 => if isLeapYear year then 29 else 28
  | _ => 0

/-- Days from the first day of the year 0 to the first day of a year. -/
def daysBeforeYear (year : Int) : Int :=
  365 * year + (year + 3) / 4 - (year + 99) / 100 + (year + 399) / 400

/-- Days from the first day of a year to the first day of a month. -/
def daysBeforeMonth (year : Int) (month : Nat) : Nat :=
  (List.range (month - 1)).foldl (fun days m => days + daysInMonth year (m + 1)) 0

/-- The day number of the first day of the year 0. -/
def epochOffset : Int := 719528

/-- Days from 1970-01-01 to a date. -/
def Date.dayNumber (d : Date) : Int :=
  daysBeforeYear d.year + daysBeforeMonth d.year d.month + d.day - 1 - epochOffset

/-- The year in which a day lies, counting days from the first day of the year 0. -/
def yearOfDay (n : Int) : Int :=
  let guess := n * 400 / 146097
  if n < daysBeforeYear guess then guess - 1
  else if daysBeforeYear (guess + 1) ≤ n then guess + 1
  else guess

/-- The month and the day of the month for a day of a year, counted from zero, trying the months
from `month` on. -/
def monthOfDay (year : Int) (day : Nat) (month : Nat) : Nat → Nat × Nat
  | 0 => (month, day + 1)
  | more + 1 =>
    if day < daysInMonth year month then (month, day + 1)
    else monthOfDay year (day - daysInMonth year month) (month + 1) more

/-- The date with a day number. -/
def Date.ofDayNumber (n : Int) : Date :=
  let days := n + epochOffset
  let year := yearOfDay days
  let (month, day) := monthOfDay year (days - daysBeforeYear year).toNat 1 11
  ⟨year, month, day⟩

/-- Whether a date exists. -/
def Date.isValid (d : Date) : Bool :=
  1 ≤ d.day && d.day ≤ daysInMonth d.year d.month

/-- **Every day lies in its year.** -/
theorem daysBeforeYear_yearOfDay (n : Int) :
    daysBeforeYear (yearOfDay n) ≤ n ∧ n < daysBeforeYear (yearOfDay n + 1) := by
  unfold yearOfDay
  generalize hg : n * 400 / 146097 = guess
  simp only
  split
  · next h =>
    rw [Int.sub_add_cancel]
    refine ⟨?_, h⟩
    unfold daysBeforeYear at h ⊢
    omega
  · next h1 =>
    split
    · next h2 => exact ⟨h2, by unfold daysBeforeYear at h2 ⊢; omega⟩
    · next h2 => exact ⟨Int.not_lt.1 h1, Int.not_le.1 h2⟩

end HeadlessCms.Time
