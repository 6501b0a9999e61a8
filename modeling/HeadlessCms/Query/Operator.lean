/-!
# Operators

A constraint of a where-clause compares the values at a path by one of fourteen operators.  Each
operator belongs to one category; a field allows whole categories.  Tokens are read back as the
operator they are written for (`ofToken?_token`).
-/

namespace HeadlessCms

/-- The operators of a constraint. -/
inductive Operator where
  | equals
  | notEquals
  | isIn
  | notIn
  | all
  | greaterThan
  | greaterThanEqual
  | lessThan
  | lessThanEqual
  | contains
  | near
  | within
  | intersects
  | like
  deriving DecidableEq, Repr

/-- Groups of operators that a field allows together. -/
inductive OperatorCategory where
  | equality
  | comparison
  | contains
  | geo
  | pattern
  deriving DecidableEq, Repr

namespace OperatorCategory

/-- All categories in their order. -/
def every : List OperatorCategory :=
  [equality, comparison, contains, geo, pattern]

/-- The operators of a category in their order. -/
def operators : OperatorCategory → List Operator
  | equality => [.equals, .notEquals, .isIn, .notIn, .all]
  | comparison => [.greaterThan, .greaterThanEqual, .lessThan, .lessThanEqual]
  | contains => [.contains]
  | geo => [.near, .within, .intersects]
  | pattern => [.like]

def name : OperatorCategory → String
  | equality => "equality"
  | comparison => "comparison"
  | contains => "contains"
  | geo => "geo"
  | pattern => "pattern"

/-- The operators of several categories, one category after the other. -/
def union (categories : List OperatorCategory) : List Operator :=
  categories.flatMap operators

end OperatorCategory

namespace Operator

/-- The token of an operator in a where-clause. -/
def token : Operator → String
  | equals => "equals"
  | notEquals => "not_equals"
  | isIn => "in"
  | notIn => "not_in"
  | all => "all"
  | greaterThan => "greater_than"
  | greaterThanEqual => "greater_than_equal"
  | lessThan => "less_than"
  | lessThanEqual => "less_than_equal"
  | contains => "contains"
  | near => "near"
  | within => "within"
  | intersects => "intersects"
  | like => "like"

def category : Operator → OperatorCategory
  | equals | notEquals | isIn | notIn | all => .equality
  | greaterThan | greaterThanEqual | lessThan | lessThanEqual => .comparison
  | contains => .contains
  | near | within | intersects => .geo
  | like => .pattern

/-- Whether the operand is a list of values of the field. -/
def takesList : Operator → Bool
  | isIn | notIn | all => true
  | _ => false

/-- The names of the parts of an operand that has parts. -/
def subArguments : Operator → List String
  | near => ["longitude", "latitude", "maxDistance", "minDistance"]
  | within | intersects => ["type", "coordinates"]
  | _ => []

/-- All operators, category by category. -/
def every : List Operator :=
  OperatorCategory.union OperatorCategory.every

/-- The operator with a token. -/
def ofToken? (t : String) : Option Operator :=
  every.find? fun op => op.token == t

/-- **Tokens are read back.** -/
theorem ofToken?_token (op : Operator) : ofToken? op.token = some op := by
  cases op <;> rfl

/-- An operator is read from its own token only. -/
theorem token_of_ofToken? {t : String} {op : Operator} (h : ofToken? t = some op) :
    op.token = t := by
  simpa using List.find?_some h

/-- An operator belongs to the category that lists it. -/
theorem mem_operators_iff (op : Operator) (c : OperatorCategory) :
    op ∈ c.operators ↔ op.category = c := by
  cases op <;> cases c <;> decide

end Operator

/-- A token that is no operator. -/
structure UnknownOperator where
  token : String

/-- The wording of an unknown operator. -/
def UnknownOperator.message (e : UnknownOperator) : String :=
  "Unknown operator: " ++ e.token

/-- The operator with a token, or the complaint about it. -/
def Operator.parse (t : String) : Except UnknownOperator Operator :=
  match Operator.ofToken? t with
  | some op => .ok op
  | none => .error ⟨t⟩

end HeadlessCms
