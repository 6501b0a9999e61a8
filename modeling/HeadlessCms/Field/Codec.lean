import HeadlessCms.Field.Basic
import HeadlessCms.Json.Typed

/-!
# Fields in JSON

How fields are configured.  Options come as a string or as an object with value and label, the
target of a relationship as a string or a list of strings.  Members that hold their default are not
written, apart from the flags.
-/

namespace HeadlessCms

open Typed

/-- A member that is only written when there is something to write. -/
def memberWhen (present : Bool) (name : String) (v : Json) : List (String × Json) :=
  if present then [(name, v)] else []

/-- A member for an optional value. -/
def memberOf (name : String) : Option Json → List (String × Json)
  | none => []
  | some v => [(name, v)]

/-- A list of strings as an array. -/
def stringArray (items : List String) : Json :=
  .arr (items.map .str)

namespace SelectOption

/-- Reads an option.  An object may have further members, but not the form of a list. -/
def ofJson : Json → Typed SelectOption
  | .str s => .ok (.plain s)
  | .obj members => do
    let _ ← Json.readAny (.obj members)
    let members ← Json.readMembers ["value", "label"] (.obj members)
    let value ← need "value" Json.readString members
    let label ← need "label" Json.readString members
    .ok (.labeled value label)
  | v => .error (.kind v "an option")

def toJson : SelectOption → Json
  | .plain value => .str value
  | .labeled value label => .obj (Table.ofList [("value", .str value), ("label", .str label)])

end SelectOption

namespace RelationTo

def ofJson : Json → Typed RelationTo
  | .str s => .ok (.single s)
  | v => (Json.readList Json.readString v).map .many

def toJson : RelationTo → Json
  | .single slug => .str slug
  | .many slugs => stringArray slugs

end RelationTo

def FieldKind.ofJson (v : Json) : Typed FieldKind :=
  (Json.readString v).map .ofTag

namespace Field

/-- The names of the members of a field, in their order. -/
def memberNames : List String :=
  ["name", "type", "label", "required", "hidden", "localized", "hasMany", "options", "relationTo",
    "fields", "blocks"]

/-- Reads a block type, given a reader of fields. -/
def readBlock (readField : Json → Typed Field) (v : Json) : Typed (Block Field) := do
  let members ← Json.readMembers ["slug", "fields"] v
  let slug ← need "slug" Json.readString members
  let fields ← orDefault "fields" [] (Json.readList readField) members
  .ok ⟨slug, fields⟩

/-- Reads a field that is nested fewer than `depth` levels deep. -/
def ofJsonWithin : Nat → Json → Typed Field
  | 0, v => .error (.kind v "a field")
  | depth + 1, v => do
    let members ← Json.readMembers memberNames v
    let name ← orDefault "name" "" Json.readString members
    let kind ← need "type" FieldKind.ofJson members
    let label ← nullable "label" Json.readString members
    let isRequired ← orDefault "required" false Json.readBool members
    let hidden ← orDefault "hidden" false Json.readBool members
    let localized ← orDefault "localized" false Json.readBool members
    let hasMany ← orDefault "hasMany" false Json.readBool members
    let options ← orDefault "options" [] (Json.readList SelectOption.ofJson) members
    let relationTo ← nullable "relationTo" RelationTo.ofJson members
    let fields ← orDefault "fields" [] (Json.readList (ofJsonWithin depth)) members
    let blocks ← orDefault "blocks" [] (Json.readList (readBlock (ofJsonWithin depth))) members
    .ok { name, kind, label, required := isRequired, hidden, localized, hasMany, options,
          relationTo, fields, blocks }

/-- Reads a field. -/
def ofJson (v : Json) : Typed Field :=
  ofJsonWithin (v.depth + 1) v

mutual

/-- Writes a field. -/
def toJson : Field → Json
  | ⟨name, kind, label, required, hidden, localized, hasMany, options, relationTo, fields,
      blocks⟩ =>
    .obj (Table.ofList (
      [("name", .str name), ("type", .str kind.tag), ("required", .bool required),
        ("hidden", .bool hidden), ("localized", .bool localized), ("hasMany", .bool hasMany)] ++
      memberOf "label" (label.map .str) ++
      memberWhen (!options.isEmpty) "options" (.arr (options.map SelectOption.toJson)) ++
      memberOf "relationTo" (relationTo.map RelationTo.toJson) ++
      memberWhen (!fields.isEmpty) "fields" (.arr (listToJson fields)) ++
      memberWhen (!blocks.isEmpty) "blocks" (.arr (blocksToJson blocks))))

def listToJson : List Field → List Json
  | [] => []
  | f :: rest => f.toJson :: listToJson rest

def blocksToJson : List (Block Field) → List Json
  | [] => []
  | ⟨slug, fields⟩ :: rest =>
    .obj (Table.ofList [("slug", .str slug), ("fields", .arr (listToJson fields))]) ::
      blocksToJson rest

end

end Field

end HeadlessCms
