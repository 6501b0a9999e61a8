import HeadlessCms.Decimal.Shortest

/-!
# How a decimal is written

Where positional writing ends, how the exponent looks and what zero looks like are decisions of the
format.  They are collected in `Layout`, and `jsonLayout` holds those of JSON text.
-/

namespace HeadlessCms.Decimal

/-- The decisions of a decimal format. -/
structure Layout where
  /-- The least exponent of the first digit that is written positionally. -/
  leastPositional : Int
  /-- The greatest exponent of the first digit that is written positionally. -/
  greatestPositional : Int
  /-- What stands in front of a non-negative exponent. -/
  positiveExponent : List Char
  /-- What follows an integer that is written positionally. -/
  integerEnd : List Char

/-- JSON text writes numbers from `0.00001` to below `10 ^ 16` positionally, with at least one digit
after the point, and gives other exponents a sign. -/
def jsonLayout : Layout where
  leastPositional := -5
  greatestPositional := 15
  positiveExponent := ['+']
  integerEnd := ['.', '0']

/-- The digits of a natural number. -/
def digitsOf (n : Nat) : List Char :=
  Nat.toDigits 10 n

/-- The digits of an exponent with its sign. -/
def Layout.exponentText (layout : Layout) (e : Int) : List Char :=
  if e < 0 then '-' :: digitsOf e.natAbs else layout.positiveExponent ++ digitsOf e.natAbs

/-- A positive decimal written by the rules of a format. -/
def Layout.write (layout : Layout) (d : Scientific) : List Char :=
  let digits := digitsOf d.digits
  let point : Int := d.exponent + digits.length
  let lead := point - 1
  if layout.leastPositional ≤ lead ∧ lead ≤ layout.greatestPositional then
    if 0 ≤ d.exponent then digits ++ List.replicate d.exponent.toNat '0' ++ layout.integerEnd
    else if 0 < point then digits.take point.toNat ++ '.' :: digits.drop point.toNat
    else '0' :: '.' :: List.replicate (-point).toNat '0' ++ digits
  else
    match digits with
    | [] => []
    | [first] => first :: 'e' :: layout.exponentText lead
    | first :: more => first :: '.' :: more ++ 'e' :: layout.exponentText lead

/-- A finite double written by the rules of a format, with the fewest digits that read back. -/
def Layout.writeFloat (layout : Layout) (x : Float) : List Char :=
  let bits := x.toBits
  let magnitude := Dyadic.ofBits bits
  let written :=
    if magnitude.mantissa = 0 then '0' :: layout.integerEnd else layout.write magnitude.shortest
  if bits >>> 63 = 1 then '-' :: written else written

end HeadlessCms.Decimal
