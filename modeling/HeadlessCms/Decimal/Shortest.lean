/-!
# The fewest digits that read back

A finite double stands for the interval of real numbers that round to it.  `Dyadic.shortest`
chooses the decimal with the fewest digits in that interval, and of several such decimals the one
nearest to the double.  All comparisons are exact, on natural numbers.
-/

namespace HeadlessCms.Decimal

/-- A finite non-negative double, `mantissa * 2 ^ exponent`. -/
structure Dyadic where
  mantissa : Nat
  exponent : Int
  /-- The gap to the double below is half the gap to the double above. -/
  narrowBelow : Bool
  deriving Repr, DecidableEq

/-- The magnitude of the finite double with these bits. -/
def Dyadic.ofBits (bits : UInt64) : Dyadic :=
  let field := ((bits >>> 52) &&& 0x7FF).toNat
  let fraction := (bits &&& 0xFFFFFFFFFFFFF).toNat
  if field = 0 then ⟨fraction, -1074, false⟩
  else ⟨Nat.pow 2 52 + fraction, (field : Int) - 1075, fraction == 0 && 1 < field⟩

/-- A decimal, `digits * 10 ^ exponent`. -/
structure Scientific where
  digits : Nat
  exponent : Int
  deriving Repr, DecidableEq

/-- The order of `a * 10 ^ i` and `n * 2 ^ j`. -/
def compareScaled (a : Nat) (i : Int) (n : Nat) (j : Int) : Ordering :=
  compare (a * Nat.pow 10 i.toNat * Nat.pow 2 (-j).toNat)
    (n * Nat.pow 2 j.toNat * Nat.pow 10 (-i).toNat)

/-- Whether a decimal lies in the interval that rounds to the double: from halfway to the neighbour
below to halfway to the neighbour above, the ends included when the mantissa is even. -/
def Dyadic.covers (x : Dyadic) (d : Scientific) : Bool :=
  let lower := if x.narrowBelow then 4 * x.mantissa - 1 else 4 * x.mantissa - 2
  let upper := 4 * x.mantissa + 2
  let closed := x.mantissa % 2 == 0
  let below := compareScaled d.digits d.exponent lower (x.exponent - 2)
  let above := compareScaled d.digits d.exponent upper (x.exponent - 2)
  (below == .gt || (closed && below == .eq)) && (above == .lt || (closed && above == .eq))

/-- The numerator of the double as a fraction. -/
def Dyadic.numerator (x : Dyadic) : Nat :=
  x.mantissa * Nat.pow 2 x.exponent.toNat

/-- The denominator of the double as a fraction. -/
def Dyadic.denominator (x : Dyadic) : Nat :=
  Nat.pow 2 (-x.exponent).toNat

/-- How many decimal digits a number has. -/
def digitCount (n : Nat) : Nat :=
  (Nat.toDigits 10 n).length

/-- An exponent `k` with the double below `10 ^ k`, and not below `10 ^ (k - 1)`. -/
def Dyadic.magnitude (x : Dyadic) : Int :=
  if x.denominator ≤ x.numerator then digitCount (x.numerator / x.denominator)
  else 1 - (digitCount (x.denominator / x.numerator) : Int)

/-- The greatest multiple of `10 ^ i` not above the double, in units of `10 ^ i`. -/
def Dyadic.floorAt (x : Dyadic) (i : Int) : Nat :=
  x.numerator * Nat.pow 10 (-i).toNat / (x.denominator * Nat.pow 10 i.toNat)

/-- The best decimal for the double among the multiples of `10 ^ i`: one of its two neighbours on
that grid, the nearer one if both are covered, and the even one if they are equally near. -/
def Dyadic.onGrid? (x : Dyadic) (i : Int) : Option Scientific :=
  let lower : Scientific := ⟨x.floorAt i, i⟩
  let upper : Scientific := ⟨x.floorAt i + 1, i⟩
  match x.covers lower, x.covers upper with
  | true, false => some lower
  | false, true => some upper
  | false, false => none
  | true, true =>
    match compareScaled (2 * lower.digits + 1) i (2 * x.mantissa) x.exponent with
    | .gt => some lower
    | .lt => some upper
    | .eq => some (if lower.digits % 2 = 0 then lower else upper)

/-- Takes zeros off the end of the digits, at most `fuel` of them. -/
def Scientific.stripZeros (d : Scientific) : Nat → Scientific
  | 0 => d
  | fuel + 1 =>
    if d.digits % 10 = 0 && d.digits != 0 then
      Scientific.stripZeros ⟨d.digits / 10, d.exponent + 1⟩ fuel
    else d

/-- The exact decimal value of a double. -/
def Dyadic.exact (x : Dyadic) : Scientific :=
  ⟨x.mantissa * Nat.pow 2 x.exponent.toNat * Nat.pow 5 (-x.exponent).toNat, min x.exponent 0⟩

/-- The decimal with the fewest digits that rounds to a positive double.  Seventeen digits always
suffice. -/
def Dyadic.shortest (x : Dyadic) : Scientific :=
  let found := (List.range 17).findSome? fun n => x.onGrid? (x.magnitude - (n + 1 : Nat))
  let d := found.getD x.exact
  d.stripZeros (digitCount d.digits)

end HeadlessCms.Decimal
