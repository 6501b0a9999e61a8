import HeadlessCms.Json.Printer
import HeadlessCms.Query.Operator

/-!
# Predicates

A where-clause is a tree of `and` and `or` over constraints, each of which compares the values at a
path with an operand:

    "or": [ "status": "equals": "published", "author": "equals": "7" ]

`Predicate.ofJson` reads a clause from JSON, `Predicate.toJson` writes it.  An object with one
constraint is that constraint; with several, or none, it is their conjunction.
-/

namespace HeadlessCms

/-- A comparison of the values at a path with an operand. -/
structure Constraint where
  path : String
  operator : Operator
  value : Json

/-- A where-clause. -/
inductive Predicate where
  | leaf (constraint : Constraint)
  | and (children : List Predicate)
  | or (children : List Predicate)

/-- Why a JSON value is no where-clause. -/
inductive PredicateError where
  | notAnObject (found : Json)
  | combinatorNotArray (key : String)
  | operatorsNotObject (path : String)
  | unknownOperator (path operator : String)

/-- The wording of the reasons. -/
def PredicateError.message : PredicateError → String
  | .notAnObject found => s!"Where clause must be an object, got: {found.render}"
  | .combinatorNotArray key => s!"'{key}' must be an array of where clauses"
  | .operatorsNotObject path => s!"Constraint on '{path}' must map operators to values"
  | .unknownOperator path operator => s!"Unknown operator '{operator}' on '{path}'"

namespace Predicate

/-- The constraint of an operator at a path. -/
def compare (path : String) (operator : Operator) (value : Json) : Predicate :=
  .leaf ⟨path, operator, value⟩

/-- One clause for the clauses of an object. -/
def ofBranches : List Predicate → Predicate
  | [single] => single
  | branches => .and branches

/-- The constraints that an object of operators puts on a path. -/
def constraintsOf (path : String) : List (String × Json) → Except PredicateError (List Predicate)
  | [] => .ok []
  | (token, operand) :: rest =>
    match Operator.ofToken? token with
    | none => .error (.unknownOperator path token)
    | some operator => do
      let more ← constraintsOf path rest
      .ok (compare path operator operand :: more)

mutual

/-- Reads a where-clause. -/
def ofJson : Json → Except PredicateError Predicate
  | .obj members => do
    let branches ← branchesOf members
    .ok (ofBranches branches)
  | v => .error (.notAnObject v)

/-- The clauses of the members of an object. -/
def branchesOf : List (String × Json) → Except PredicateError (List Predicate)
  | [] => .ok []
  | (key, v) :: rest => do
    let here ← branchesAt key v
    let more ← branchesOf rest
    .ok (here ++ more)

/-- The clauses of one member: a combinator, or the constraints on a path. -/
def branchesAt (key : String) : Json → Except PredicateError (List Predicate)
  | .arr items =>
    if key = "and" then do
      let children ← clausesOf items
      .ok [.and children]
    else if key = "or" then do
      let children ← clausesOf items
      .ok [.or children]
    else .error (.operatorsNotObject key)
  | .obj members =>
    if key = "and" ∨ key = "or" then .error (.combinatorNotArray key)
    else constraintsOf key members
  | _ =>
    if key = "and" ∨ key = "or" then .error (.combinatorNotArray key)
    else .error (.operatorsNotObject key)

/-- The where-clauses of a list. -/
def clausesOf : List Json → Except PredicateError (List Predicate)
  | [] => .ok []
  | v :: rest => do
    let clause ← ofJson v
    let more ← clausesOf rest
    .ok (clause :: more)

end

mutual

/-- Writes a where-clause. -/
def toJson : Predicate → Json
  | .leaf c => .obj [(c.path, .obj [(c.operator.token, c.value)])]
  | .and children => .obj [("and", .arr (listToJson children))]
  | .or children => .obj [("or", .arr (listToJson children))]

def listToJson : List Predicate → List Json
  | [] => []
  | p :: rest => p.toJson :: listToJson rest

end

/-- Both of two clauses.  A conjunction on the left takes the right clause in. -/
def conjoin (p q : Predicate) : Predicate :=
  match p with
  | .and children => .and (children ++ [q])
  | first => .and [first, q]

/-- All of several clauses, if there are any. -/
def conjoinAll : List Predicate → Option Predicate
  | [] => none
  | [single] => some single
  | clauses => some (.and clauses)

mutual

/-- The constraints from left to right, repeated ones included. -/
def leaves : Predicate → List Constraint
  | .leaf c => [c]
  | .and children => leavesOf children
  | .or children => leavesOf children

def leavesOf : List Predicate → List Constraint
  | [] => []
  | p :: rest => p.leaves ++ leavesOf rest

end

/-- Whether a constraint asks for points near another one. -/
def usesNear (p : Predicate) : Bool :=
  p.leaves.any (·.operator == .near)

mutual

/-- The clause with every path rewritten. -/
def mapPaths (f : String → String) : Predicate → Predicate
  | .leaf c => .leaf { c with path := f c.path }
  | .and children => .and (mapPathsOf f children)
  | .or children => .or (mapPathsOf f children)

def mapPathsOf (f : String → String) : List Predicate → List Predicate
  | [] => []
  | p :: rest => p.mapPaths f :: mapPathsOf f rest

end

/-- The paths of several clauses are mapped one by one. -/
theorem mapPathsOf_eq_map (f : String → String) (ps : List Predicate) :
    mapPathsOf f ps = ps.map (mapPaths f) := by
  induction ps with
  | nil => rfl
  | cons p rest ih => simp [mapPathsOf, ih]

/-- Several clauses have the leaves of each of them. -/
theorem leavesOf_eq_flatMap (ps : List Predicate) : leavesOf ps = ps.flatMap leaves := by
  induction ps with
  | nil => rfl
  | cons p rest ih => simp [leavesOf, ih]

end Predicate

end HeadlessCms
