import HeadlessCms.Json.Basic
import HeadlessCms.Decimal.Numeral
import HeadlessCms.Text.Blank
import HeadlessCms.Time.Rfc3339

/-!
# Comparing values

`compareValues` orders numbers by size, timestamps by time and other texts by their characters.  A
text that reads as a finite number is compared with a number by size.  Values of different kinds and
structured values have no order.
-/

namespace HeadlessCms

/-- The order of two doubles, if neither is not a number. -/
def compareFloats (a b : Float) : Option Ordering :=
  if a < b then some .lt
  else if b < a then some .gt
  else if a == b then some .eq
  else none

/-- The number of a value: a number, or a text that reads as a finite number. -/
def numberOf? : Json → Option Float
  | .num n => some n.toFloat
  | .str s => (Decimal.readFloat? (Text.trim s.toList)).filter Float.isFinite
  | _ => none

/-- The order of two texts: by time if both are timestamps, else by characters. -/
def compareTexts (a b : String) : Ordering :=
  match Time.readStrict? a, Time.readStrict? b with
  | some s, some t => s.order t
  | _, _ => compare a b

/-- The order of two values that are not compared as numbers. -/
def compareAlike : Json → Json → Option Ordering
  | .str a, .str b => some (compareTexts a b)
  | .bool a, .bool b => some (compare a b)
  | .null, .null => some .eq
  | _, _ => none

/-- The order of two values, if they have one. -/
def compareValues (a b : Json) : Option Ordering :=
  if a.asFloat?.isSome || b.asFloat?.isSome then
    match numberOf? a, numberOf? b with
    | some x, some y => compareFloats x y
    | _, _ => compareAlike a b
  else compareAlike a b

/-- Whether two values are equal: the same value, or values that compare equal. -/
def looselyEqual (a b : Json) : Bool :=
  a.same b || compareValues a b == some .eq

end HeadlessCms
