import HeadlessCms.Query.Predicate
import HeadlessCms.Schema.Basic
import HeadlessCms.Text.Blank

/-!
# Checking where-clauses

A where-clause fits a schema if every constraint is on a path of the schema, uses an operator that
is allowed there and, where the values are options, compares with options only.
-/

namespace HeadlessCms

/-- Why a where-clause does not fit a schema. -/
inductive WhereError where
  | unknownPath (schema path : String)
  | operatorNotAllowed (path : String) (operator : Operator)
  | invalidOption (path value : String)
  deriving DecidableEq, Repr

def WhereError.message : WhereError → String
  | .unknownPath schema path => s!"'{path}' is not a queryable path of {schema}"
  | .operatorNotAllowed path operator =>
    s!"Operator '{operator.token}' is not allowed on '{path}'"
  | .invalidOption path value => s!"'{value}' is not a valid option for '{path}'"

namespace WhereSchema

/-- The options that an operand names.  Operators with a list operand also take a text with
commas. -/
def namedOptions (operator : Operator) : Json → List String
  | .arr items => items.filterMap Json.asString?
  | .str s =>
    if operator.takesList then
      (Text.splitOn ',' s.toList).map fun part => String.ofList (Text.trim part)
    else [s]
  | _ => []

/-- Checks one constraint. -/
def validateConstraint (schema : WhereSchema) (c : Constraint) : Except WhereError Unit :=
  match schema.get? c.path with
  | none => .error (.unknownPath schema.name c.path)
  | some field =>
    if !field.allows c.operator then .error (.operatorNotAllowed c.path c.operator)
    else
      match field.baseType with
      | .enum type =>
        if c.operator.category ≠ .equality then .ok ()
        else
          match (namedOptions c.operator c.value).find? (!type.containsValue ·) with
          | some value => .error (.invalidOption c.path value)
          | none => .ok ()
      | _ => .ok ()

/-- Checks constraints in order, up to the first that does not fit. -/
def validateAll (schema : WhereSchema) : List Constraint → Except WhereError Unit
  | [] => .ok ()
  | c :: rest => do
    schema.validateConstraint c
    schema.validateAll rest

/-- Checks a where-clause. -/
def validate (schema : WhereSchema) (p : Predicate) : Except WhereError Unit :=
  schema.validateAll p.leaves

end WhereSchema

end HeadlessCms
