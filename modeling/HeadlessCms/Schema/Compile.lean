import HeadlessCms.Field.Basic
import HeadlessCms.Schema.Basic

/-!
# Compiling where-schemas

A tree of fields becomes a flat table of paths.

* A field without children stands at its own name behind the names of the containers around it.
* `array`, `group` and `blocks` put their name and two underscores in front of what they hold.
* A `row` adds nothing to the paths of what it holds.
* `ui` fields, hidden fields and fields of unknown kinds have no path.
* The block types of one `blocks` field share their paths: equal entries are one entry.
* `id` is always a path.

No path and no generated type name may come up twice.
-/

namespace HeadlessCms

/-- Why a tree of fields has no schema. -/
inductive SchemaError where
  /-- Two fields have the same path. -/
  | pathCollision (schema path : String)
  /-- Two types are generated under the same name. -/
  | typeNameCollision (schema name : String)
  deriving DecidableEq, Repr

def SchemaError.message : SchemaError → String
  | .pathCollision schema path => s!"Query path '{path}' in '{schema}' is declared more than once"
  | .typeNameCollision schema name =>
    s!"Type name '{name}' in '{schema}' is generated more than once"

namespace WhereSchema

/-- The paths that have been compiled. -/
abbrev Paths := Table QueryField

/-- Adds a path that must be new. -/
def insertNew (parent : String) (paths : Paths) (path : String) (entry : QueryField) :
    Except SchemaError Paths :=
  if Table.contains path paths then .error (.pathCollision parent path)
  else .ok (Table.insert path entry paths)

/-- Adds paths that must all be new. -/
def splice (parent : String) (paths : Paths) : Paths → Except SchemaError Paths
  | [] => .ok paths
  | (path, entry) :: rest => do
    let paths ← insertNew parent paths path entry
    splice parent paths rest

/-- Adds the paths of one block type to those of the block types before it.  A path that is there
already must have an equal entry, and must not be the path of the block type itself. -/
def mergeBlock (parent typePath : String) (paths : Paths) : Paths → Except SchemaError Paths
  | [] => .ok paths
  | (path, entry) :: rest =>
    match Table.get? path paths with
    | some existing =>
      if existing ≠ entry ∨ path = typePath then .error (.pathCollision parent path)
      else mergeBlock parent typePath paths rest
    | none => mergeBlock parent typePath (Table.insert path entry paths) rest

/-- The enumeration of the options of a field. -/
def optionEnum (f : Field) (parent path : String) : ValueType :=
  .enum (.ofValues (Text.qualified parent path ++ "_Input") (f.options.map SelectOption.value))

/-- The type of the value of a relationship. -/
def relationType (f : Field) (parent path : String) : ValueType :=
  match f.relationTo with
  | some (.many slugs) =>
    let name := Text.qualified parent path ++ "_Relation"
    .relation name (.ofValues (name ++ "_RelationTo") slugs)
  | _ => .scalar .string

/-- The type of one value of a field and the categories of its operators.  Containers and unknown
kinds have none. -/
def leafType? (f : Field) (parent path : String) :
    Option (ValueType × List OperatorCategory) :=
  match f.kind with
  | .number => some (.scalar .float, [.equality, .comparison])
  | .text | .textarea | .code => some (.scalar .string, [.equality, .pattern])
  | .email => some (.scalar .emailAddress, [.equality, .pattern])
  | .richText => some (.scalar .json, [.equality, .pattern])
  | .radio => some (optionEnum f parent path, [.equality, .pattern])
  | .select => some (optionEnum f parent path, [.equality, .contains])
  | .date => some (.scalar .dateTime, [.equality, .comparison, .pattern])
  | .point => some (.list (.scalar .float), [.equality, .comparison, .geo])
  | .relationship => some (relationType f parent path, [.equality, .contains])
  | .upload => some (.scalar .string, [.equality])
  | .checkbox => some (.scalar .boolean, [.equality])
  | .array | .group | .row | .blocks | .ui | .unknown _ => none

/-- The entry of a field at a path. -/
def leafEntry? (f : Field) (parent path : String) : Option QueryField :=
  (leafType? f parent path).map fun (base, categories) =>
    .ofCategories parent path f.kind.tag base f.hasMany categories

/-- The entry of the block type of a `blocks` field. -/
def blockTypeEntry (parent start name typePath : String) (slugs : List String) : QueryField :=
  let type := EnumType.ofValues (Text.qualified parent (start ++ name) ++ "_BlockType") slugs
  .ofCategories parent typePath "blockType" (.enum type) false [.equality]

/-- The path that tells block types apart. -/
def blockTypePath (nested : String) : String :=
  nested ++ "blockType"

mutual

/-- Adds the paths of a field, `start` being in front of all of them. -/
def addField (parent start : String) (paths : Paths) : Field → Except SchemaError Paths
  | ⟨name, kind, label, required, hidden, localized, hasMany, options, relationTo, fields,
      blocks⟩ =>
    let f : Field := ⟨name, kind, label, required, hidden, localized, hasMany, options,
      relationTo, fields, blocks⟩
    if f.isPresentational || hidden then .ok paths
    else
      let nested := start ++ name ++ Path.separator
      match kind with
      | .row => do
        let inner ← addFields parent start [] fields
        splice parent paths inner
      | .array | .group => do
        let inner ← addFields parent nested [] fields
        splice parent paths inner
      | .blocks => do
        let typePath := blockTypePath nested
        let slugs := blocks.map (·.slug)
        let inner ← addBlocks parent nested
          [(typePath, blockTypeEntry parent start name typePath slugs)] blocks
        splice parent paths inner
      | _ =>
        match leafEntry? f parent (start ++ name) with
        | some entry => insertNew parent paths (start ++ name) entry
        | none => .ok paths

/-- Adds the paths of fields one after the other. -/
def addFields (parent start : String) (paths : Paths) : List Field → Except SchemaError Paths
  | [] => .ok paths
  | f :: rest => do
    let paths ← addField parent start paths f
    addFields parent start paths rest

/-- Adds the paths of block types one after the other. -/
def addBlocks (parent nested : String) (paths : Paths) :
    List (Block Field) → Except SchemaError Paths
  | [] => .ok paths
  | ⟨_, fields⟩ :: rest => do
    let inner ← addFields parent nested [] fields
    let paths ← mergeBlock parent (blockTypePath nested) paths inner
    addBlocks parent nested paths rest

end

/-- The entry of `id`. -/
def idEntry (parent : String) : QueryField :=
  .ofCategories parent "id" "id" (.scalar .json) false [.equality, .contains]

/-- The first member of a list that has come up before. -/
def firstRepeated? (seen : List String) : List String → Option String
  | [] => none
  | name :: rest => if seen.contains name then some name else firstRepeated? (name :: seen) rest

/-- The names of all types that are generated for a table of paths. -/
def typeNames (paths : Paths) : List String :=
  paths.flatMap fun (_, entry) => entry.typeNames

/-- The where-schema of a list of fields, its types named after `parent`. -/
def compile (parent : String) (fields : List Field) : Except SchemaError WhereSchema := do
  let paths ← addFields parent "" [] fields
  let paths := Table.insert "id" (idEntry parent) paths
  match firstRepeated? [] (typeNames paths) with
  | some name => .error (.typeNameCollision parent name)
  | none => .ok ⟨Text.identifier parent, paths⟩

end WhereSchema

end HeadlessCms
