import HeadlessCms.Time.Calendar

/-!
# Numbering days is a bijection onto dates

`Date.ofDayNumber` walks from a day to its year, then through the months of that year.  The walk
ends in a date that exists (`isValid_ofDayNumber`) and that has the number one started from
(`dayNumber_ofDayNumber`), so nothing is lost when an instant is taken apart into date and time.
-/

namespace HeadlessCms.Time

/-- How many days a year has. -/
def daysInYear (year : Int) : Nat :=
  if isLeapYear year then 366 else 365

/-- A year adds its days. -/
theorem daysBeforeYear_succ (year : Int) :
    daysBeforeYear (year + 1) = daysBeforeYear year + daysInYear year := by
  unfold daysInYear
  split
  · next h =>
    simp only [isLeapYear, Bool.and_eq_true, Bool.or_eq_true, beq_iff_eq, bne_iff_ne] at h
    unfold daysBeforeYear
    omega
  · next h =>
    simp only [isLeapYear, Bool.and_eq_true, Bool.or_eq_true, beq_iff_eq, bne_iff_ne] at h
    unfold daysBeforeYear
    omega

/-- A month adds its days. -/
theorem daysBeforeMonth_succ (year : Int) {month : Nat} (h : 1 ≤ month) :
    daysBeforeMonth year (month + 1) = daysBeforeMonth year month + daysInMonth year month := by
  obtain ⟨m, rfl⟩ : ∃ m, month = m + 1 := ⟨month - 1, by omega⟩
  simp [daysBeforeMonth, List.range_succ]

/-- Before January there are none. -/
theorem daysBeforeMonth_one (year : Int) : daysBeforeMonth year 1 = 0 :=
  rfl

/-- The twelve months make up the year. -/
theorem daysBeforeMonth_thirteen (year : Int) : daysBeforeMonth year 13 = daysInYear year := by
  unfold daysInYear
  cases h : isLeapYear year <;> simp [daysBeforeMonth, List.range_succ, daysInMonth, h]

/-- **The walk through the months.**  Started in `month` with `day` days still to go, it ends on a
day that exists, without gaining or losing a day.  The days to go must end within the months that
are tried. -/
theorem monthOfDay_spec (year : Int) (more : Nat) :
    ∀ (day month : Nat), 1 ≤ month →
      day + daysBeforeMonth year month < daysBeforeMonth year (month + more + 1) →
      let found := monthOfDay year day month more
      month ≤ found.1 ∧ found.1 ≤ month + more ∧ 1 ≤ found.2 ∧
        found.2 ≤ daysInMonth year found.1 ∧
        daysBeforeMonth year found.1 + found.2 = daysBeforeMonth year month + day + 1 := by
  induction more with
  | zero =>
    intro day month hm hday
    rw [Nat.add_zero, daysBeforeMonth_succ year hm] at hday
    simp only [monthOfDay]
    omega
  | succ more ih =>
    intro day month hm hday
    by_cases hlt : day < daysInMonth year month
    · simp only [monthOfDay, hlt, if_true]
      omega
    · have hnext := daysBeforeMonth_succ year hm
      have hfit : day - daysInMonth year month + daysBeforeMonth year (month + 1) <
          daysBeforeMonth year (month + 1 + more + 1) := by
        rw [show month + 1 + more + 1 = month + (more + 1) + 1 by omega]
        omega
      have h := ih (day - daysInMonth year month) (month + 1) (by omega) hfit
      simp only [monthOfDay, hlt, if_false]
      dsimp only at h
      omega

/-- What the date of a day number consists of: its year, and a month and day found by the walk. -/
theorem ofDayNumber_parts (n : Int) :
    let date := Date.ofDayNumber n
    1 ≤ date.month ∧ date.month ≤ 12 ∧ 1 ≤ date.day ∧
      date.day ≤ daysInMonth date.year date.month ∧
      daysBeforeYear date.year + daysBeforeMonth date.year date.month + date.day =
        n + epochOffset + 1 := by
  obtain ⟨hlow, hhigh⟩ := daysBeforeYear_yearOfDay (n + epochOffset)
  rw [daysBeforeYear_succ] at hhigh
  generalize hyear : yearOfDay (n + epochOffset) = year at hlow hhigh
  have hfit : (n + epochOffset - daysBeforeYear year).toNat + daysBeforeMonth year 1 <
      daysBeforeMonth year (1 + 11 + 1) := by
    rw [daysBeforeMonth_one, daysBeforeMonth_thirteen]
    omega
  have h := monthOfDay_spec year 11 _ 1 (Nat.le_refl 1) hfit
  rw [daysBeforeMonth_one] at h
  simp only [Date.ofDayNumber, hyear]
  dsimp only at h
  omega

/-- The date of a day exists. -/
theorem isValid_ofDayNumber (n : Int) : (Date.ofDayNumber n).isValid = true := by
  obtain ⟨_, _, hday, hlast, _⟩ := ofDayNumber_parts n
  simp [Date.isValid, hday, hlast]

/-- **No day is lost.**  The date of a day number has that number. -/
theorem dayNumber_ofDayNumber (n : Int) : (Date.ofDayNumber n).dayNumber = n := by
  obtain ⟨_, _, _, _, hsum⟩ := ofDayNumber_parts n
  unfold Date.dayNumber
  omega

/-- The month of a day is one of twelve. -/
theorem month_ofDayNumber (n : Int) :
    1 ≤ (Date.ofDayNumber n).month ∧ (Date.ofDayNumber n).month ≤ 12 :=
  ⟨(ofDayNumber_parts n).1, (ofDayNumber_parts n).2.1⟩

/-- A month has at most 31 days. -/
theorem daysInMonth_le (year : Int) (month : Nat) : daysInMonth year month ≤ 31 := by
  unfold daysInMonth
  split <;> (try split) <;> omega

/-- The day of a month is one of 31. -/
theorem day_ofDayNumber (n : Int) :
    1 ≤ (Date.ofDayNumber n).day ∧ (Date.ofDayNumber n).day ≤ 31 := by
  obtain ⟨_, _, hday, hlast, _⟩ := ofDayNumber_parts n
  exact ⟨hday, Nat.le_trans hlast (daysInMonth_le _ _)⟩

end HeadlessCms.Time
