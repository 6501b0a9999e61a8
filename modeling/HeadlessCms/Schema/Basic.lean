import HeadlessCms.Json.Basic
import HeadlessCms.Query.Path
import HeadlessCms.Schema.ValueType

/-!
# Where-schemas

A where-schema lists the paths of an entity that clients may filter by, each with the operators that
are allowed there.  Paths are query paths; `WhereSchema.get?` accepts data paths as well.
-/

namespace HeadlessCms

/-- An operator that is allowed on a path, with the type of its operand. -/
structure OperatorInput where
  operator : Operator
  valueType : ValueType
  deriving DecidableEq, Repr

/-- A path that can be filtered by. -/
structure QueryField where
  /-- The name of the type generated for the operators. -/
  inputName : String
  /-- The tag of the field the path stands for. -/
  fieldType : String
  /-- The type of the stored value. -/
  valueType : ValueType
  /-- Whether the stored value is a list. -/
  hasMany : Bool
  operators : List OperatorInput
  deriving DecidableEq, Repr

namespace QueryField

/-- The entry of a path whose values have type `base`, with the operators of some categories. -/
def ofCategories (parent path fieldType : String) (base : ValueType) (hasMany : Bool)
    (categories : List OperatorCategory) : QueryField where
  inputName := Text.qualified parent path ++ "_operator"
  fieldType := fieldType
  valueType := if hasMany then .list base else base
  hasMany := hasMany
  operators := (OperatorCategory.union categories).map fun op =>
    ⟨op, if op.takesList then .list base else base⟩

/-- The type of one stored value. -/
def baseType (f : QueryField) : ValueType :=
  match f.valueType with
  | .list item => if f.hasMany then item else .list item
  | other => other

/-- Whether an operator is allowed. -/
def allows (f : QueryField) (op : Operator) : Bool :=
  f.operators.any (·.operator == op)

/-- The names of the types that are generated for the entry. -/
def typeNames (f : QueryField) : List String :=
  f.inputName :: f.valueType.typeNames

end QueryField

/-- The paths of an entity that can be filtered by. -/
structure WhereSchema where
  name : String
  fields : Table QueryField

/-- The entry of a path in either form. -/
def WhereSchema.get? (schema : WhereSchema) (path : String) : Option QueryField :=
  Table.get? (Path.toQuery path) schema.fields

/-! ### JSON -/

namespace EnumType

def toJson (e : EnumType) : Json :=
  .obj [("name", .str e.name),
    ("values", .arr (e.values.map fun v => .obj [("name", .str v.name), ("value", .str v.value)]))]

end EnumType

def ValueType.toJson : ValueType → Json
  | scalar type => .obj [("kind", .str "scalar"), ("scalar", .str type.name)]
  | enum type => .obj [("enum_type", type.toJson), ("kind", .str "enum")]
  | relation name relationTo =>
    .obj [("kind", .str "relation"), ("name", .str name), ("relation_to", relationTo.toJson)]
  | list item => .obj [("kind", .str "list"), ("of", item.toJson)]

def OperatorInput.toJson (input : OperatorInput) : Json :=
  let arguments := input.operator.subArguments
  .obj ([("operator", .str input.operator.token)] ++
    (if arguments.isEmpty then [] else [("subArguments", .arr (arguments.map .str))]) ++
    [("valueType", input.valueType.toJson)])

def QueryField.toJson (f : QueryField) : Json :=
  .obj ([("fieldType", .str f.fieldType)] ++
    (if f.hasMany then [("hasMany", .bool true)] else []) ++
    [("inputName", .str f.inputName), ("operators", .arr (f.operators.map OperatorInput.toJson)),
      ("valueType", f.valueType.toJson)])

def WhereSchema.toJson (schema : WhereSchema) : Json :=
  .obj [("fields", .obj (schema.fields.map fun (path, f) => (path, f.toJson))),
    ("name", .str schema.name)]

end HeadlessCms
