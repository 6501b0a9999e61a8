import HeadlessCms.Json.Basic
import HeadlessCms.Query.Path

/-!
# Localized values

A localized field is stored as an object from locales to values.  Reading picks the value of one
locale (`Record.localize`); writing puts the incoming value under the locale of the request and
keeps the other locales that are stored (`Record.mergeLocalized`).  Paths go on into every item of
an array; items are paired with stored items by their position.
-/

namespace HeadlessCms

/-- Asks for the values of every locale at once; no locale should have this name. -/
def allLocales : String := "all"

/-- Whether the members of an object are values of locales: there is at least one, and all keys are
locales. -/
def isLocaleMap (locales : List String) (members : Record) : Bool :=
  !members.isEmpty && members.all fun (key, _) => locales.contains key

/-- In which locale values are read. -/
structure LocaleChoice where
  /-- The locales that there are. -/
  locales : List String
  locale : String
  /-- The locale to turn to where the value is missing or null. -/
  fallback : Option String

namespace LocaleChoice

/-- The value of the chosen locale among the values of locales; null if there is none. -/
def choose (l : LocaleChoice) (members : Record) : Json :=
  match (Table.get? l.locale members).filter (!·.isNull) with
  | some v => v
  | none => (l.fallback.bind fun f => Table.get? f members).getD .null

/-- The chosen value of a localized value.  Values that are no object of locales stay. -/
def pickHere (l : LocaleChoice) : Json → Json
  | .obj members => if isLocaleMap l.locales members then l.choose members else .obj members
  | v => v

mutual

/-- A value with the localized values below it, at the end of a path, replaced by the chosen
ones. -/
def pick (l : LocaleChoice) : Json → List String → Json
  | v, [] => l.pickHere v
  | .obj members, head :: rest => .obj (pickMember l members head rest)
  | .arr items, head :: rest => .arr (pickItems l items (head :: rest))
  | v, _ :: _ => v

def pickMember (l : LocaleChoice) : List (String × Json) → String → List String →
    List (String × Json)
  | [], _, _ => []
  | (key, v) :: more, head, rest =>
    if key = head then (key, l.pick v rest) :: more
    else (key, v) :: pickMember l more head rest

def pickItems (l : LocaleChoice) : List Json → List String → List Json
  | [], _ => []
  | v :: more, segments => l.pick v segments :: pickItems l more segments

end

/-- A record with the localized values at a path replaced by the chosen ones. -/
def pickAt (l : LocaleChoice) (record : Record) (path : String) : Record :=
  match Path.segments path with
  | [] => record
  | head :: rest => l.pickMember record head rest

end LocaleChoice

namespace Record

/-- A record as it reads in one locale: the localized values at the given paths are replaced by
those of the locale or, where they are missing, of the fallback.  In all locales it stays as it
is. -/
def localize (l : LocaleChoice) (paths : List String) (record : Record) : Record :=
  if l.locale = allLocales then record else paths.foldl l.pickAt record

end Record

/-! ### Writing -/

/-- In which locale values are written. -/
structure LocaleTarget where
  /-- The locales that there are. -/
  locales : List String
  locale : String

/-- The stored value of a member. -/
def storedMember (name : String) : Option Json → Option Json
  | some (.obj members) => Table.get? name members
  | _ => none

/-- The stored value at a position. -/
def storedItem (i : Nat) : Option Json → Option Json
  | some (.arr items) => items[i]?
  | _ => none

namespace LocaleTarget

/-- An incoming value under its locale, beside the stored values of other locales. -/
def wrapHere (t : LocaleTarget) (stored : Option Json) (v : Json) : Json :=
  let others : Record :=
    match stored with
    | some (.obj members) => if isLocaleMap t.locales members then members else []
    | _ => []
  .obj (Table.insert t.locale v others)

mutual

/-- A value with what lies at the end of a path put under its locale. -/
def wrap (t : LocaleTarget) (stored : Option Json) : Json → List String → Json
  | v, [] => t.wrapHere stored v
  | .obj members, head :: rest => .obj (wrapMember t (storedMember head stored) members head rest)
  | .arr items, head :: rest => .arr (wrapItems t stored 0 items (head :: rest))
  | v, _ :: _ => v

def wrapMember (t : LocaleTarget) (stored : Option Json) : List (String × Json) → String →
    List String → List (String × Json)
  | [], _, _ => []
  | (key, v) :: more, head, rest =>
    if key = head then (key, t.wrap stored v rest) :: more
    else (key, v) :: wrapMember t stored more head rest

def wrapItems (t : LocaleTarget) (stored : Option Json) (i : Nat) : List Json → List String →
    List Json
  | [], _ => []
  | v :: more, segments =>
    t.wrap (storedItem i stored) v segments :: wrapItems t stored (i + 1) more segments

end

/-- An incoming record with the values at a path put under their locale. -/
def wrapAt (t : LocaleTarget) (existing : Option Record) (incoming : Record) (path : String) :
    Record :=
  match Path.segments path with
  | [] => incoming
  | head :: rest => t.wrapMember (existing.bind (Table.get? head)) incoming head rest

end LocaleTarget

namespace Record

/-- An incoming record as it is stored: the values at localized paths are put under the locale,
beside the values that other locales have in the existing record. -/
def mergeLocalized (t : LocaleTarget) (existing : Option Record) (paths : List String)
    (incoming : Record) : Record :=
  paths.foldl (t.wrapAt existing) incoming

end Record

end HeadlessCms
