import HeadlessCms.Json.Typed
import HeadlessCms.Query.Predicate

/-!
# Read access

Who may read an entity is declared as a rule: everybody, nobody, or a where-clause that the visible
documents satisfy.  The clause is only read when the rule is resolved.
-/

namespace HeadlessCms

/-- A read rule as it is declared. -/
inductive AccessRule where
  | allow (everything : Bool)
  /-- A where-clause in JSON. -/
  | scope (clause : Json)

/-- What a reader may see. -/
inductive Access where
  | unrestricted
  | denied
  /-- Only documents that satisfy the clause. -/
  | scoped (clause : Predicate)

namespace AccessRule

/-- What a rule allows. -/
def resolve : AccessRule → Except PredicateError Access
  | .allow true => .ok .unrestricted
  | .allow false => .ok .denied
  | .scope clause => (Predicate.ofJson clause).map .scoped

def ofJson : Json → Typed AccessRule
  | .bool b => .ok (.allow b)
  | v => (Json.readAny v).map .scope

def toJson : AccessRule → Json
  | .allow b => .bool b
  | .scope clause => clause

end AccessRule

namespace Access

/-- The clause that restricts a reader. -/
def clause? : Access → Option Predicate
  | .scoped p => some p
  | _ => none

def isDenied : Access → Bool
  | .denied => true
  | _ => false

end Access

end HeadlessCms
