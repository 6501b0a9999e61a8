import HeadlessCms.Json.Printer
import HeadlessCms.Time.Relaxed

/-!
# Reading typed data from JSON values

Configuration and stored records are JSON values that must have a certain form.  This module holds
the reasons why a value does not have it (`Mismatch`) and the pieces from which readers are built.

A reader of a structure takes its members by name.  Members it does not know are ignored, known
members may not be repeated, and the structure may also be written as the list of its members in
their order of declaration.
-/

namespace HeadlessCms

/-- Why a value does not have the form that is asked for. -/
inductive Mismatch where
  /-- The value is of another kind than the one that is described. -/
  | kind (found : Json) (expected : String)
  | missing (member : String)
  | repeated (member : String)
  /-- A list of members is longer than the structure. -/
  | surplus
  /-- A whole number is out of range. -/
  | range (found : Json) (expected : String)
  | time (fault : Time.Fault)
  /-- A number is too large to be stored. -/
  | overflow

namespace Mismatch

/-- A character inside a quoted text of a message. -/
def quotedChar (c : Char) : List Char :=
  if c = '"' then ['\\', '"']
  else if c = '\\' then ['\\', '\\']
  else if c = '\n' then ['\\', 'n']
  else if c = '\r' then ['\\', 'r']
  else if c = '\t' then ['\\', 't']
  else if c.toNat = 0 then ['\\', '0']
  else if c.toNat < 32 ∨ (127 ≤ c.toNat ∧ c.toNat < 160) then
    '\\' :: 'u' :: '\x7b' :: Nat.toDigits 16 c.toNat ++ ['\x7d']
  else [c]

/-- What kind of value was found. -/
def describe : Json → String
  | .null => "null"
  | .bool b => "boolean `" ++ (if b then "true" else "false") ++ "`"
  | .num (.int i) => "integer `" ++ String.ofList (Json.numberText (.int i)) ++ "`"
  | .num (.float x) => "floating point `" ++ String.ofList (Json.numberText (.float x)) ++ "`"
  | .str s => "string \"" ++ String.ofList (s.toList.flatMap quotedChar) ++ "\""
  | .arr _ => "sequence"
  | .obj _ => "map"

/-- The wording of a mismatch. -/
def message : Mismatch → String
  | .kind found expected => "invalid type: " ++ describe found ++ ", expected " ++ expected
  | .missing member => "missing field `" ++ member ++ "`"
  | .repeated member => "duplicate field `" ++ member ++ "`"
  | .surplus => "fewer elements in sequence expected"
  | .range found expected => "invalid value: " ++ describe found ++ ", expected " ++ expected
  | .time fault => fault.message
  | .overflow => "number out of range"

end Mismatch

/-- The outcome of reading typed data. -/
abbrev Typed (α : Type) := Except Mismatch α

namespace Json

/-- A string. -/
def readString : Json → Typed String
  | .str s => .ok s
  | v => .error (.kind v "a string")

/-- A boolean. -/
def readBool : Json → Typed Bool
  | .bool b => .ok b
  | v => .error (.kind v "a boolean")

/-- A natural number below a limit, written without fraction or exponent. -/
def readNat (limit : Nat) : Json → Typed Nat
  | .num (.int i) =>
    if 0 ≤ i ∧ i < limit then .ok i.toNat else .error (.range (.num (.int i)) "a natural number")
  | v => .error (.kind v "a natural number")

/-- The members of an object of any form. -/
def readRecord : Json → Typed Record
  | .obj members => .ok members
  | v => .error (.kind v "a map")

/-- A time in relaxed form. -/
def readInstant : Json → Typed Time.Instant
  | .str s => (Time.readRelaxed s).mapError .time
  | v => .error (.kind v "an RFC 3339 formatted date and time string")

/-- A value of any kind, put in order. -/
def readAny (v : Json) : Typed Json :=
  match v.normalize? with
  | some w => .ok w
  | none => .error .overflow

/-- The items of an array. -/
def readItems : Json → Typed (List Json)
  | .arr items => .ok items
  | v => .error (.kind v "a sequence")

/-- A list of things. -/
def readList {α : Type} (read : Json → Typed α) (v : Json) : Typed (List α) := do
  let items ← readItems v
  items.mapM read

/-- The members of a structure whose members have these names. -/
def readMembers (names : List String) : Json → Typed (List (String × Json))
  | .obj members =>
    match names.find? fun name => 1 < (members.filter (·.1 == name)).length with
    | some name => .error (.repeated name)
    | none => .ok members
  | .arr items =>
    if names.length < items.length then .error .surplus else .ok (names.zip items)
  | v => .error (.kind v "a structure")

end Json

namespace Typed

variable {α : Type}

/-- A member that may be absent. -/
def optional (name : String) (read : Json → Typed α) (members : List (String × Json)) :
    Typed (Option α) :=
  match Table.get? name members with
  | none => .ok none
  | some v => (read v).map some

/-- A member that must be there. -/
def need (name : String) (read : Json → Typed α) (members : List (String × Json)) : Typed α :=
  match Table.get? name members with
  | none => .error (.missing name)
  | some v => read v

/-- A member with a default for its absence. -/
def orDefault (name : String) (default : α) (read : Json → Typed α)
    (members : List (String × Json)) : Typed α :=
  match Table.get? name members with
  | none => .ok default
  | some v => read v

/-- A member that may be absent or null. -/
def nullable (name : String) (read : Json → Typed α) (members : List (String × Json)) :
    Typed (Option α) :=
  match Table.get? name members with
  | none => .ok none
  | some .null => .ok none
  | some v => (read v).map some

end Typed

end HeadlessCms
