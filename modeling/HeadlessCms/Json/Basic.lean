import HeadlessCms.Table

/-!
# JSON values

Numbers keep the form in which they are written: whole numbers and floats are different values even
where they are equally large (`Number.same`), and only their order treats them alike
(`Number.toFloat`).  An object is a table of its members.
-/

namespace HeadlessCms

/-- A number of a JSON text. -/
inductive Number where
  /-- A whole number between `-2 ^ 63` and `2 ^ 64 - 1`. -/
  | int (i : Int)
  /-- A number with a fraction or an exponent, or a whole number out of that range. -/
  | float (x : Float)

/-- A JSON value. -/
inductive Json where
  | null
  | bool (b : Bool)
  | num (n : Number)
  | str (s : String)
  | arr (items : List Json)
  | obj (members : List (String × Json))

/-- A document or any other stored data: the members of an object. -/
abbrev Record := Table Json

namespace Number

/-- The nearest double. -/
def toFloat : Number → Float
  | .int i => Float.ofInt i
  | .float x => x

/-- Whether two numbers are the same value: the same whole number, or equal floats. -/
def same : Number → Number → Bool
  | .int i, .int j => i == j
  | .float x, .float y => x == y
  | _, _ => false

end Number

namespace Json

instance : Inhabited Json := ⟨.null⟩

/-- A natural number as a JSON value. -/
def nat (n : Nat) : Json :=
  .num (.int n)

mutual

/-- Whether two values are the same.  Members are compared in order. -/
def same : Json → Json → Bool
  | .null, .null => true
  | .bool a, .bool b => a == b
  | .num a, .num b => a.same b
  | .str a, .str b => a == b
  | .arr a, .arr b => sameItems a b
  | .obj a, .obj b => sameMembers a b
  | _, _ => false

/-- Whether two lists hold the same values in the same order. -/
def sameItems : List Json → List Json → Bool
  | [], [] => true
  | a :: as, b :: bs => same a b && sameItems as bs
  | _, _ => false

/-- Whether two tables hold the same values under the same keys. -/
def sameMembers : List (String × Json) → List (String × Json) → Bool
  | [], [] => true
  | (k, a) :: as, (l, b) :: bs => k == l && same a b && sameMembers as bs
  | _, _ => false

end

/-- The text of a string value. -/
def asString? : Json → Option String
  | .str s => some s
  | _ => none

/-- The nearest double of a number value. -/
def asFloat? : Json → Option Float
  | .num n => some n.toFloat
  | _ => none

/-- The value of a boolean. -/
def asBool? : Json → Option Bool
  | .bool b => some b
  | _ => none

/-- The items of an array. -/
def asArray? : Json → Option (List Json)
  | .arr items => some items
  | _ => none

/-- The members of an object. -/
def asRecord? : Json → Option Record
  | .obj members => some members
  | _ => none

/-- The whole number of a value, if it is a natural number. -/
def asNat? : Json → Option Nat
  | .num (.int (.ofNat n)) => some n
  | _ => none

def isNull : Json → Bool
  | .null => true
  | _ => false

mutual

/-- How deep arrays and objects are nested in a value. -/
def depth : Json → Nat
  | .arr items => itemsDepth items + 1
  | .obj members => membersDepth members + 1
  | _ => 0

def itemsDepth : List Json → Nat
  | [] => 0
  | v :: rest => max (depth v) (itemsDepth rest)

def membersDepth : List (String × Json) → Nat
  | [] => 0
  | (_, v) :: rest => max (depth v) (membersDepth rest)

end

mutual

/-- The value with all objects put in order, the last one of repeated members staying.  A number
beyond the range of doubles makes it no value. -/
def normalize? : Json → Option Json
  | .null => some .null
  | .bool b => some (.bool b)
  | .num (.int i) => some (.num (.int i))
  | .num (.float x) => if x.isFinite then some (.num (.float x)) else none
  | .str s => some (.str s)
  | .arr items => (normalizeItems? items).map .arr
  | .obj members => (normalizeMembers? members).map fun ms => .obj (Table.ofList ms)

def normalizeItems? : List Json → Option (List Json)
  | [] => some []
  | v :: rest => do
    let v ← normalize? v
    let rest ← normalizeItems? rest
    some (v :: rest)

def normalizeMembers? : List (String × Json) → Option (List (String × Json))
  | [] => some []
  | (k, v) :: rest => do
    let v ← normalize? v
    let rest ← normalizeMembers? rest
    some ((k, v) :: rest)

end

end Json

end HeadlessCms
