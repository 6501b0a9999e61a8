import HeadlessCms.Time.Instant
import HeadlessCms.Decimal.Layout
import HeadlessCms.Decimal.Numeral

/-!
# RFC 3339 timestamps

`Instant.write` prints an instant in UTC with 0, 3, 6 or 9 digits of fraction, the fewest that lose
nothing.  `readStrict?` reads the profile of RFC 3339: fixed widths, an optional fraction of any
length, and `Z` or an offset with a colon.
-/

namespace HeadlessCms.Time

open HeadlessCms.Text (isAsciiDigit)
open HeadlessCms.Decimal (digitsOf digitValue ofDigits)

/-- The digits of a number, at least `width` of them. -/
def padded (width n : Nat) : List Char :=
  let digits := digitsOf n
  List.replicate (width - digits.length) '0' ++ digits

/-- A year: four digits, or a sign and at least four digits outside of the years 0 to 9999. -/
def yearText (year : Int) : List Char :=
  if 0 ≤ year ∧ year ≤ 9999 then padded 4 year.toNat
  else (if year < 0 then '-' else '+') :: padded 4 year.natAbs

/-- The fraction of a second with the fewest of 0, 3, 6 and 9 digits. -/
def fractionText (nano : Nat) : List Char :=
  if nano = 0 then []
  else if nano % 1000000 = 0 then '.' :: padded 3 (nano / 1000000)
  else if nano % 1000 = 0 then '.' :: padded 6 (nano / 1000)
  else '.' :: padded 9 nano

/-- The timestamp of an instant in UTC.  A leap second is written as second 60. -/
def Instant.chars (t : Instant) : List Char :=
  let date := t.date
  let second := t.secondOfDay
  let leap := Instant.nanosPerSecond ≤ t.nano
  let nano := if leap then t.nano - Instant.nanosPerSecond else t.nano
  let shown := second % 60 + (if leap then 1 else 0)
  yearText date.year ++ '-' :: padded 2 date.month ++ '-' :: padded 2 date.day ++
    'T' :: padded 2 (second / 3600) ++ ':' :: padded 2 (second / 60 % 60) ++
    ':' :: padded 2 shown ++ fractionText nano ++ ['Z']

/-- The timestamp of an instant in UTC. -/
def Instant.write (t : Instant) : String :=
  String.ofList t.chars

/-! ### Reading -/

/-- The number of a fraction in nanoseconds: the first nine digits, the others dropped. -/
def nanosOf (digits : List Nat) : Nat :=
  let kept := digits.take 9
  ofDigits kept * Nat.pow 10 (9 - kept.length)

/-- Exactly `n` digits at the start of a text, and the rest. -/
def fixedDigits? (n : Nat) (s : List Char) : Option (Nat × List Char) :=
  let digits := s.take n
  if digits.length = n ∧ digits.all isAsciiDigit then
    some (ofDigits (digits.map digitValue), s.drop n)
  else none

/-- One given character at the start of a text. -/
def expect? (c : Char) : List Char → Option (List Char)
  | d :: rest => if d = c then some rest else none
  | [] => none

/-- What stands between date and time: `T` in either case or a space. -/
def timeMark? : List Char → Option (List Char)
  | c :: rest => if c = 'T' ∨ c = 't' ∨ c = ' ' then some rest else none
  | [] => none

/-- An optional fraction in nanoseconds.  A point must be followed by a digit. -/
def fraction? : List Char → Option (Nat × List Char)
  | '.' :: rest =>
    match Decimal.takeDigits rest with
    | ([], _) => none
    | (digits, more) => some (nanosOf digits, more)
  | s => some (0, s)

/-- The sign of an offset; the minus sign U+2212 counts as a hyphen. -/
def offsetSign? : List Char → Option (Int × List Char)
  | c :: rest =>
    if c = '+' then some (1, rest) else if c = '-' ∨ c = '−' then some (-1, rest) else none
  | [] => none

/-- `Z`, or an offset `±hh:mm` of less than a day, in seconds; nothing may follow. -/
def strictOffset? (s : List Char) : Option Int :=
  if s = ['Z'] ∨ s = ['z'] then some 0
  else do
    let (sign, s) ← offsetSign? s
    let (hours, s) ← fixedDigits? 2 s
    let s ← expect? ':' s
    let (minutes, s) ← fixedDigits? 2 s
    if s.isEmpty ∧ hours < 24 ∧ minutes < 60 then some (sign * (hours * 3600 + minutes * 60))
    else none

/-- Reads an RFC 3339 timestamp. -/
def readStrictChars? (s : List Char) : Option Instant := do
  let (year, s) ← fixedDigits? 4 s
  let s ← expect? '-' s
  let (month, s) ← fixedDigits? 2 s
  let s ← expect? '-' s
  let (day, s) ← fixedDigits? 2 s
  let s ← timeMark? s
  let (hour, s) ← fixedDigits? 2 s
  let s ← expect? ':' s
  let (minute, s) ← fixedDigits? 2 s
  let s ← expect? ':' s
  let (second, s) ← fixedDigits? 2 s
  let (nano, s) ← fraction? s
  let offset ← strictOffset? s
  let date : Date := ⟨year, month, day⟩
  if date.isValid ∧ hour < 24 ∧ minute < 60 ∧ second ≤ 60 then
    some (.ofClock date hour minute second nano offset)
  else none

/-- Reads an RFC 3339 timestamp. -/
def readStrict? (s : String) : Option Instant :=
  readStrictChars? s.toList

end HeadlessCms.Time
