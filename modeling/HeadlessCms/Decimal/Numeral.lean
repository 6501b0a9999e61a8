import HeadlessCms.Text.Identifier

/-!
# Numerals

A numeral is the decimal writing of a number: a sign, digits before and after a point, and a power
of ten.  Two readings are defined here.

* `Numeral.nearest` is the double nearest to the number that is written.
* `Numeral.scaled?` keeps as many leading digits as fit into 64 bits and scales them by one power of
  ten.  It fails where that overflows.
-/

namespace HeadlessCms.Decimal

open HeadlessCms.Text (isAsciiDigit)

/-- The decimal writing of a number.  Digits are kept as numbers below ten. -/
structure Numeral where
  negative : Bool
  whole : List Nat
  /-- The digits after the point, if there is one. -/
  fraction : Option (List Nat)
  /-- The power of ten, if one is written. -/
  exponent : Option Int
  deriving Repr, DecidableEq

def digitValue (c : Char) : Nat :=
  c.toNat - '0'.toNat

/-- The number that a list of decimal digits stands for. -/
def ofDigits (digits : List Nat) : Nat :=
  digits.foldl (fun n d => n * 10 + d) 0

/-- The leading decimal digits of a text, and the rest. -/
def takeDigits (s : List Char) : List Nat × List Char :=
  ((s.takeWhile isAsciiDigit).map digitValue, s.dropWhile isAsciiDigit)

/-- A sign in front of a text: whether it is a minus, and the rest. -/
def takeSign : List Char → Bool × List Char
  | '+' :: rest => (false, rest)
  | '-' :: rest => (true, rest)
  | s => (false, s)

/-- The digits after a decimal point, if the text starts with one. -/
def takeFraction : List Char → Option (List Nat) × List Char
  | '.' :: rest => let (digits, more) := takeDigits rest; (some digits, more)
  | s => (none, s)

/-- A power of ten at the start of a text: absent, or `e`, a sign and at least one digit. -/
def takeExponent? : List Char → Option (Option Int × List Char)
  | c :: rest =>
    if c = 'e' ∨ c = 'E' then
      let (negative, unsigned) := takeSign rest
      match takeDigits unsigned with
      | ([], _) => none
      | (digits, more) =>
        let n : Int := ofDigits digits
        some (some (if negative then -n else n), more)
    else some (none, c :: rest)
  | [] => some (none, [])

/-- Reads a numeral without a sign that makes up the whole text. -/
def Numeral.unsigned? (negative : Bool) (s : List Char) : Option Numeral := do
  let (whole, afterWhole) := takeDigits s
  let (fraction, afterFraction) := takeFraction afterWhole
  let (exponent, rest) ← takeExponent? afterFraction
  if rest.isEmpty then some { negative, whole, fraction, exponent } else none

/-! ### The nearest double -/

def infinity : Float :=
  1.0 / 0.0

def notANumber : Float :=
  0.0 / 0.0

/-- `digits * 10 ^ exponent` as the nearest double.  Numbers far outside the range are decided
without computing the power. -/
def nearestFloat (digits : Nat) (exponent : Int) : Float :=
  let size := exponent + (Nat.toDigits 10 digits).length
  if digits = 0 ∨ size < -400 then 0.0
  else if 400 < size then infinity
  else if exponent < 0 then Float.ofScientific digits true exponent.natAbs
  else Float.ofScientific digits false exponent.natAbs

/-- A double with a sign in front. -/
def withSign (negative : Bool) (x : Float) : Float :=
  if negative then -x else x

/-- The double nearest to the number that is written. -/
def Numeral.nearest (n : Numeral) : Float :=
  let fraction := n.fraction.getD []
  let magnitude :=
    nearestFloat (ofDigits (n.whole ++ fraction)) (n.exponent.getD 0 - fraction.length)
  withSign n.negative magnitude

/-- Reads a double from text: a sign or none, then a numeral with at least one digit, or one of the
words `inf`, `infinity` and `nan` in any case. -/
def readFloat? (s : List Char) : Option Float :=
  let (negative, unsigned) := takeSign s
  let word := unsigned.map Char.toLower
  if word = "inf".toList ∨ word = "infinity".toList then some (withSign negative infinity)
  else if word = "nan".toList then some (withSign negative notANumber)
  else do
    let n ← Numeral.unsigned? negative unsigned
    if (n.whole ++ n.fraction.getD []).isEmpty then none else some n.nearest

/-! ### The first 64 bits of digits, scaled -/

/-- Digits collected into a number below `2 ^ 64`, and what became of the others. -/
structure Significand where
  value : Nat
  /-- How many digits were taken in. -/
  kept : Nat
  /-- How many digits came after the first one that did not fit, itself included. -/
  dropped : Nat

/-- Takes in one more digit, unless an earlier digit did not fit or this one does not. -/
def Significand.push (s : Significand) (digit : Nat) : Significand :=
  if s.dropped = 0 ∧ s.value * 10 + digit < Nat.pow 2 64 then
    { s with value := s.value * 10 + digit, kept := s.kept + 1 }
  else { s with dropped := s.dropped + 1 }

/-- Scales a double by a power of ten.  Powers below `10 ^ -308` are applied in two steps, and a
result that overflows is no number. -/
def scale? (x : Float) (e : Int) : Option Float :=
  if 0 ≤ e then
    if e ≤ 308 then
      let y := x * Float.ofScientific 1 false e.toNat
      if y.isFinite then some y else none
    else if x == 0.0 then some 0.0 else none
  else if -308 ≤ e then some (x / Float.ofScientific 1 false (-e).toNat)
  else if -616 ≤ e then
    some (x / Float.ofScientific 1 false 308 / Float.ofScientific 1 false (-e - 308).toNat)
  else some 0.0

/-- The value of a numeral from the digits that fit into 64 bits: those before the point first, then
those after it. -/
def Numeral.scaled? (n : Numeral) : Option Float := do
  let whole := n.whole.foldl Significand.push ⟨0, 0, 0⟩
  let all := (n.fraction.getD []).foldl Significand.push ⟨whole.value, 0, 0⟩
  let exponent := n.exponent.getD 0 + whole.dropped - all.kept
  let magnitude ← scale? (Float.ofNat all.value) exponent
  some (withSign n.negative magnitude)

/-! ### Natural numbers of limited size -/

/-- Reads a natural number below a limit: a plus sign or none, then decimal digits. -/
def readNatural? (limit : Nat) (s : List Char) : Option Nat :=
  let unsigned := match s with
    | '+' :: rest => rest
    | _ => s
  match takeDigits unsigned with
  | ([], _) => none
  | (digits, []) => if ofDigits digits < limit then some (ofDigits digits) else none
  | _ => none

end HeadlessCms.Decimal
