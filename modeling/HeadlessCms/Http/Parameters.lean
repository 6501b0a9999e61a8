import HeadlessCms.Http.Problem
import HeadlessCms.Http.Target
import HeadlessCms.Json.Reader
import HeadlessCms.Service.Basic

/-!
# Parameters of requests

Each kind of request knows some parameters by name.  A parameter it knows may be given once; others
are ignored.  Switches are `true` or `false`, sizes natural numbers of 64 bits.
-/

namespace HeadlessCms.Http

/-- Named values in the order of the query. -/
abbrev Parameters := List (String × String)

namespace Parameters

/-- The value of a parameter, if it is given; it may not be given twice. -/
def text (p : Parameters) (name : String) : Except Rejection (Option String) :=
  match p.filter (·.1 == name) with
  | [] => .ok none
  | [(_, value)] => .ok (some value)
  | _ => .error .malformedQuery

/-- The size that a parameter gives. -/
def size (p : Parameters) (name : String) : Except Rejection (Option Nat) := do
  match ← p.text name with
  | none => .ok none
  | some value =>
    match Decimal.readNatural? wordLimit value.toList with
    | some n => .ok (some n)
    | none => .error .malformedQuery

/-- The position of a switch, off if it is not given. -/
def switch (p : Parameters) (name : String) : Except Rejection Bool := do
  match ← p.text name with
  | none => .ok false
  | some value =>
    if value = "true" then .ok true
    else if value = "false" then .ok false
    else .error .malformedQuery

/-- What a request for one document asks for. -/
def forRead (p : Parameters) : Except Rejection ReadParams := do
  let draft ← p.switch "draft"
  let locale ← p.text "locale"
  let fallbackLocale ← p.text "fallbackLocale"
  .ok { draft, locale, fallbackLocale }

/-- What a save asks for. -/
def forSave (p : Parameters) : Except Rejection SaveParams := do
  let draft ← p.switch "draft"
  let locale ← p.text "locale"
  .ok { draft, locale }

/-- The where-clause of a request; a text without characters is none. -/
def readFilter : Option String → Except Problem (Option Json)
  | none => .ok none
  | some raw =>
    if raw.isEmpty then .ok none
    else
      match Json.parse? raw with
      | some v => .ok (some v)
      | none => .error (.whereNoJson raw)

/-- What a request for a page asks for, and the text of its where-clause. -/
def forList (p : Parameters) : Except Rejection (FindParams × Option String) := do
  let clause ← p.text "where"
  let sort ← p.text "sort"
  let page ← p.size "page"
  let limit ← p.size "limit"
  let draft ← p.switch "draft"
  let locale ← p.text "locale"
  let fallbackLocale ← p.text "fallbackLocale"
  let sort := (sort.map SortKey.listOfText).getD []
  .ok (⟨none, sort, page, limit, draft, locale, fallbackLocale⟩, clause)

end Parameters

end HeadlessCms.Http
