import HeadlessCms.Query.Geometry
import HeadlessCms.Query.Path
import HeadlessCms.Text.CaseFold

/-!
# Matching records

`Predicate.holds` decides whether a record satisfies a where-clause.  A path that meets an array
goes on into each of its items, so a path may reach any number of values; a constraint holds if one
of them satisfies it.  Clauses are decided from left to right, and only as far as needed: an operand
that cannot be evaluated is an error only if it is reached.
-/

namespace HeadlessCms

/-- An operand that an operator cannot be evaluated with. -/
structure InvalidOperand where
  path : String
  operator : Operator
  reason : String

/-- The position that a segment of a path names in an array. -/
def arrayIndex? (segment : String) : Option Nat :=
  Decimal.readNatural? (Nat.pow 2 64) segment.toList

mutual

/-- The values that segments of a path reach from a value. -/
def reach : Json → List String → List Json
  | v, [] => [v]
  | .obj members, head :: rest => reachMember members head rest
  | .arr items, head :: rest =>
    match arrayIndex? head with
    | some i => reachItem items i rest
    | none => reachItems items (head :: rest)
  | _, _ :: _ => []

/-- The values reached through the member with a name. -/
def reachMember : List (String × Json) → String → List String → List Json
  | [], _, _ => []
  | (key, v) :: more, head, rest => if key = head then reach v rest else reachMember more head rest

/-- The values reached through the item at a position. -/
def reachItem : List Json → Nat → List String → List Json
  | [], _, _ => []
  | v :: _, 0, rest => reach v rest
  | _ :: more, i + 1, rest => reachItem more i rest

/-- The values reached through all items. -/
def reachItems : List Json → List String → List Json
  | [], _ => []
  | v :: more, segments => reach v segments ++ reachItems more segments

end

/-- Below a name lies what the member of that name leads to. -/
theorem reachMember_eq (members : List (String × Json)) (head : String) (rest : List String) :
    reachMember members head rest =
      match Table.get? head members with
      | some v => reach v rest
      | none => [] := by
  induction members with
  | nil => rfl
  | cons m more ih =>
    obtain ⟨key, v⟩ := m
    by_cases h : key = head <;> simp [reachMember, Table.get?, h, ih]

/-- The values of a record at a data path. -/
def Record.resolve (record : Record) (path : String) : List Json :=
  match Path.segments path with
  | [] => []
  | head :: rest => reachMember record head rest

/-- A list operand.  A text with commas counts as a list of its parts. -/
def operandList : Json → List Json
  | .arr items => items
  | .str s =>
    if ',' ∈ s.toList then
      (Text.splitOn ',' s.toList).map fun part => .str (String.ofList (Text.trim part))
    else [.str s]
  | v => [v]

/-- The items of an array, or the value itself. -/
def elements : Json → List Json
  | .arr items => items
  | v => [v]

/-- Whether a value equals an operand, itself or by one of its items. -/
def equalsOperand (operand v : Json) : Bool :=
  looselyEqual v operand ||
    match v with
    | .arr items => items.any (looselyEqual · operand)
    | _ => false

/-- Whether one of the values equals an operand.  Null also equals the absence of values. -/
def anyEquals (values : List Json) (operand : Json) : Bool :=
  if operand.isNull then values.isEmpty || values.any Json.isNull
  else values.any (equalsOperand operand)

/-- Whether one of the values stands in an accepted order to an operand. -/
def anyCompares (values : List Json) (operand : Json) (accepts : Ordering → Bool) : Bool :=
  (values.flatMap elements).any fun v =>
    match compareValues v operand with
    | some o => accepts o
    | none => false

/-- Whether one of the values holds a text in it, upper and lower case alike.  Any other operand
must be equal to a value. -/
def anyContains (values : List Json) : Json → Bool
  | .str needle =>
    (values.flatMap elements).any fun v =>
      match v with
      | .str s => Text.occursIn (Text.lowerCase needle.toList) (Text.lowerCase s.toList)
      | _ => false
  | operand => anyEquals values operand

/-- The text of a value, if it is not null. -/
def textOf? : Json → Option (List Char)
  | .null => none
  | .str s => some s.toList
  | v => some v.write

/-- Whether one of the values holds every word of a pattern in its text, up to case. -/
def anyLike (values : List Json) (pattern : List Char) : Bool :=
  let words := (Text.words pattern).map Text.foldCase
  (values.filterMap textOf?).any fun text =>
    words.all fun word => Text.occursIn word (Text.foldCase text)

/-- What compiles the words that texts are searched for.  It belongs to a library, which limits the size
of what it compiles, so it may refuse a word that is very long. -/
class PatternEngine where
  /-- Why a word is not compiled, if it is not. -/
  refusal? : List Char → Option String

/-- The engine that compiles every word.  Examples and tests, whose words are short, run with it. -/
instance PatternEngine.boundless : PatternEngine where
  refusal? _ := none

/-- Why a pattern cannot be searched for: the first of its words that is refused tells. -/
def patternRefusal? [PatternEngine] (pattern : List Char) : Option String :=
  (Text.words pattern).findSome? PatternEngine.refusal?

/-- Whether one of the values is a point that is accepted. -/
def anyPoint (values : List Json) (accepts : Point → Bool) : Bool :=
  (values.filterMap Point.ofJson?).any accepts

/-- Whether the values at the path of a constraint satisfy it. -/
def Constraint.test [PatternEngine] (c : Constraint) (values : List Json) :
    Except InvalidOperand Bool :=
  let invalid (reason : String) : InvalidOperand := ⟨c.path, c.operator, reason⟩
  match c.operator with
  | .equals => .ok (anyEquals values c.value)
  | .notEquals => .ok (!anyEquals values c.value)
  | .isIn => .ok ((operandList c.value).any (anyEquals values))
  | .notIn => .ok (!(operandList c.value).any (anyEquals values))
  | .all =>
    let options := operandList c.value
    .ok (!options.isEmpty && options.all (anyEquals values))
  | .greaterThan => .ok (anyCompares values c.value (· == .gt))
  | .greaterThanEqual => .ok (anyCompares values c.value (· != .lt))
  | .lessThan => .ok (anyCompares values c.value (· == .lt))
  | .lessThanEqual => .ok (anyCompares values c.value (· != .gt))
  | .contains => .ok (anyContains values c.value)
  | .like =>
    match textOf? c.value with
    | some pattern =>
      match patternRefusal? pattern with
      | some reason => .error (invalid reason)
      | none => .ok (anyLike values pattern)
    | none => .error (invalid "expected text")
  | .near =>
    match NearQuery.ofJson? c.value with
    | some q => .ok (anyPoint values q.accepts)
    | none => .error (invalid "expected [longitude, latitude, maxDistance?, minDistance?]")
  | .within | .intersects =>
    match polygonsOf? c.value with
    | some polygons => .ok (anyPoint values fun p => polygons.any (·.contains p))
    | none => .error (invalid "expected a GeoJSON Polygon or MultiPolygon")

/-- Whether a record satisfies a constraint. -/
def Constraint.holds [PatternEngine] (c : Constraint) (record : Record) :
    Except InvalidOperand Bool :=
  c.test (Record.resolve record c.path)

namespace Predicate

variable [PatternEngine]

mutual

/-- Whether a record satisfies a where-clause. -/
def holds (record : Record) : Predicate → Except InvalidOperand Bool
  | .leaf c => c.holds record
  | .and children => allHold record children
  | .or children => someHolds record children

/-- Whether all clauses hold, decided up to the first that does not. -/
def allHold (record : Record) : List Predicate → Except InvalidOperand Bool
  | [] => .ok true
  | p :: rest =>
    match holds record p with
    | .error e => .error e
    | .ok false => .ok false
    | .ok true => allHold record rest

/-- Whether one of the clauses holds, decided up to the first that does. -/
def someHolds (record : Record) : List Predicate → Except InvalidOperand Bool
  | [] => .ok false
  | p :: rest =>
    match holds record p with
    | .error e => .error e
    | .ok true => .ok true
    | .ok false => someHolds record rest

end

/-- Whether a record satisfies a clause that may be absent. -/
def holdsFor (filter : Option Predicate) (record : Record) : Except InvalidOperand Bool :=
  match filter with
  | none => .ok true
  | some p => p.holds record

end Predicate

end HeadlessCms
