import HeadlessCms.Query.Operator
import HeadlessCms.Text.Identifier

/-!
# Types of operands

What a client may pass to an operator: a scalar, one value of an enumeration, a reference to one of
several collections, or a list.  Enumerations are generated from option values; `EnumType.ofValues`
gives every value a name of its own.
-/

namespace HeadlessCms

/-- Built-in scalar types. -/
inductive ScalarType where
  | string
  | float
  | boolean
  | dateTime
  | emailAddress
  | json
  deriving DecidableEq, Repr

def ScalarType.name : ScalarType → String
  | string => "String"
  | float => "Float"
  | boolean => "Boolean"
  | dateTime => "DateTime"
  | emailAddress => "EmailAddress"
  | json => "JSON"

/-- A value of an enumeration: an identifier for a stored value. -/
structure EnumValue where
  name : String
  value : String
  deriving DecidableEq, Repr

/-- A generated enumeration. -/
structure EnumType where
  name : String
  values : List EnumValue
  deriving DecidableEq, Repr

namespace EnumType

/-- The names that are tried for a value, in order: `a`, `a_2`, `a_3` and so on.  The numbers have no
bound here; where they are of 32 bits with a sign, lists with `2 ^ 31` values of one name are out of
reach. -/
def candidate (base : String) : Nat → String
  | 0 => base
  | n + 1 => base ++ "_" ++ toString (n + 2)

/-- The first candidate that is not taken.  Among one candidate more than there are taken names one
is free. -/
def freshName (taken : List String) (base : String) : String :=
  (((List.range (taken.length + 1)).map (candidate base)).find? (!taken.contains ·)).getD base

/-- Adds a value under a name of its own, unless it is there already. -/
def addValue (known : List EnumValue) (value : String) : List EnumValue :=
  if known.any (·.value == value) then known
  else known ++ [⟨freshName (known.map (·.name)) (Text.identifier value), value⟩]

/-- The enumeration of a list of values.  Repeated values are kept once. -/
def ofValues (name : String) (values : List String) : EnumType :=
  ⟨name, values.foldl addValue []⟩

/-- Whether a stored value belongs to the enumeration. -/
def containsValue (e : EnumType) (value : String) : Bool :=
  e.values.any (·.value == value)

end EnumType

/-- The type of a value at a path or of an operand. -/
inductive ValueType where
  | scalar (type : ScalarType)
  | enum (type : EnumType)
  /-- A value together with the collection it belongs to. -/
  | relation (name : String) (relationTo : EnumType)
  | list (item : ValueType)
  deriving DecidableEq, Repr

/-- The names of the types that are generated for a value type. -/
def ValueType.typeNames : ValueType → List String
  | scalar _ => []
  | enum type => [type.name]
  | relation name relationTo => [name, relationTo.name]
  | list item => item.typeNames

end HeadlessCms
