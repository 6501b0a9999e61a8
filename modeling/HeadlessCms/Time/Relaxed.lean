import HeadlessCms.Time.Rfc3339
import HeadlessCms.Text.Blank

/-!
# Relaxed timestamps

Stored and configured times are read more generously than RFC 3339: white space between the parts,
months, days and times of one digit, signed years of any length, and offsets with or without a
colon.  Reading says what is wrong with a text it refuses.
-/

namespace HeadlessCms.Time

open HeadlessCms.Text (isAsciiDigit isBlank trimStart)
open HeadlessCms.Decimal (digitValue ofDigits)

/-- Why a text is no timestamp. -/
inductive Fault where
  | tooShort
  | invalid
  | outOfRange
  | tooLong
  deriving Repr, DecidableEq

/-- The wording of a fault. -/
def Fault.message : Fault → String
  | .tooShort => "premature end of input"
  | .invalid => "input contains invalid characters"
  | .outOfRange => "input is out of range"
  | .tooLong => "trailing input"

/-- At least one digit and at most `width` digits; all digits if there is no width. -/
def scanDigits (width : Option Nat) (s : List Char) : Except Fault (Nat × List Char) :=
  let run := s.takeWhile isAsciiDigit
  let digits := match width with
    | some w => run.take w
    | none => run
  match s, digits with
  | [], _ => .error .tooShort
  | _, [] => .error .invalid
  | _, _ => .ok (ofDigits (digits.map digitValue), s.drop digits.length)

/-- A number of at most two digits after white space, within bounds. -/
def scanPart (low high : Nat) (s : List Char) : Except Fault (Nat × List Char) := do
  let (n, rest) ← scanDigits (some 2) (trimStart s)
  if low ≤ n ∧ n ≤ high then .ok (n, rest) else .error .outOfRange

/-- A year after white space: at most four digits, or a sign and any number of digits. -/
def scanYear (s : List Char) : Except Fault (Int × List Char) :=
  match trimStart s with
  | '-' :: rest => do
    let (n, rest) ← scanDigits none rest
    .ok (-(n : Int), rest)
  | '+' :: rest => do
    let (n, rest) ← scanDigits none rest
    .ok ((n : Int), rest)
  | unsigned => do
    let (n, rest) ← scanDigits (some 4) unsigned
    .ok ((n : Int), rest)

/-- A given character after white space. -/
def scanMark (c : Char) (s : List Char) : Except Fault (List Char) :=
  match trimStart s with
  | [] => .error .tooShort
  | d :: rest => if d = c then .ok rest else .error .invalid

/-- An optional fraction in nanoseconds. -/
def scanFraction : List Char → Except Fault (Nat × List Char)
  | '.' :: rest => do
    let (_, _) ← scanDigits none rest
    let (digits, more) := Decimal.takeDigits rest
    .ok (nanosOf digits, more)
  | s => .ok (0, s)

/-- Two digits of an offset. -/
def scanPair : List Char → Except Fault (Nat × List Char)
  | a :: b :: rest =>
    if isAsciiDigit a ∧ isAsciiDigit b then .ok (digitValue a * 10 + digitValue b, rest)
    else .error .invalid
  | [a] => .error (if a.utf8Size < 2 then .tooShort else .invalid)
  | [] => .error .tooShort

/-- An offset from UTC in seconds: `Z`, `UTC`, or a sign, hours and minutes with any colons and
white space between the two. -/
def scanOffset (s : List Char) : Except Fault (Int × List Char) :=
  if (s.take 3).map Char.toUpper = ['U', 'T', 'C'] then .ok (0, s.drop 3)
  else
    match s with
    | [] => .error .tooShort
    | c :: rest =>
      if c = 'Z' ∨ c = 'z' then .ok (0, rest)
      else
        match offsetSign? s with
        | none => .error .invalid
        | some (sign, rest) => do
          let (hours, rest) ← scanPair rest
          let (minutes, rest) ← scanPair (rest.dropWhile fun c => c == ':' || isBlank c)
          if minutes < 60 then .ok (sign * (hours * 3600 + minutes * 60), rest)
          else .error .outOfRange

/-- The years in which dates can be stored. -/
def leastYear : Int := -262143
def greatestYear : Int := 262142

/-- Reads a timestamp in relaxed form. -/
def readRelaxedChars (s : List Char) : Except Fault Instant := do
  let (year, s) ← scanYear s
  if year < -2147483648 ∨ 2147483648 ≤ year then throw .outOfRange
  let s ← scanMark '-' s
  let (month, s) ← scanPart 1 12 s
  let s ← scanMark '-' s
  let (day, s) ← scanPart 1 31 s
  let s ← match s, timeMark? s with
    | [], _ => throw .tooShort
    | _, none => throw .invalid
    | _, some rest => pure rest
  let (hour, s) ← scanPart 0 23 s
  let s ← scanMark ':' s
  let (minute, s) ← scanPart 0 59 s
  let s ← scanMark ':' s
  let (second, s) ← scanPart 0 60 s
  let (nano, s) ← scanFraction s
  let (offset, s) ← scanOffset (trimStart s)
  if !(trimStart s).isEmpty then throw .tooLong
  let date : Date := ⟨year, month, day⟩
  let instant := Instant.ofClock date hour minute second nano offset
  let storable (year : Int) := leastYear ≤ year ∧ year ≤ greatestYear
  if date.isValid ∧ -86400 < offset ∧ offset < 86400 ∧ storable year ∧ storable instant.date.year
  then pure instant
  else throw .outOfRange

/-- Reads a timestamp in relaxed form. -/
def readRelaxed (s : String) : Except Fault Instant :=
  readRelaxedChars s.toList

end HeadlessCms.Time
