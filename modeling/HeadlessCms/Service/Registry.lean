import HeadlessCms.Config
import HeadlessCms.Document.Version
import HeadlessCms.Service.Error

/-!
# The registry

Every declared collection and global is compiled once: its labels, its where-schema, the
where-schema of its versions and the paths of its localized fields.
-/

namespace HeadlessCms

/-- A text as one capitalized word: the words between other characters than ASCII letters and
digits, each with its first letter in upper case. -/
def capitalizedWords (raw : List Char) : List Char :=
  ((words raw).map fun word =>
    match word with
    | [] => []
    | c :: rest => c.toUpper :: rest).flatten
where
  /-- The runs of ASCII letters and digits. -/
  words : List Char → List (List Char)
    | [] => []
    | c :: rest =>
      if Text.isAsciiAlphanumeric c then
        match rest, words rest with
        | d :: _, word :: more =>
          if Text.isAsciiAlphanumeric d then (c :: word) :: more else [c] :: word :: more
        | _, more => [c] :: more
      else words rest

/-- A text without the letter `s` at its end, if something is left of it. -/
def dropPlural (s : List Char) : List Char :=
  match s.reverse with
  | 's' :: c :: rest => (c :: rest).reverse
  | _ => s

/-- The names of an entity for the types generated for it.  Declared labels go first, then the slug;
if both names are the same the plural is told apart. -/
def Entity.typeLabels (e : Entity) : Labels :=
  let (singular, plural) :=
    match e.labels with
    | some l => (capitalizedWords l.singular.toList, capitalizedWords l.plural.toList)
    | none =>
      let plural := capitalizedWords e.slug.toList
      (dropPlural plural, plural)
  let singular := String.ofList (Text.identifierChars singular)
  let plural := String.ofList (Text.identifierChars plural)
  ⟨singular, if plural = singular then "all" ++ singular else plural⟩

/-- Adds a date field unless there is a field of that name. -/
def withDateField (name : String) (fields : List Field) : List Field :=
  if (Field.findIn? name fields).isSome then fields else fields ++ [.ofKind name .date]

/-- Adds the times of creation and of the last change. -/
def withTimestampFields (fields : List Field) : List Field :=
  withDateField "updatedAt" (withDateField "createdAt" fields)

/-- The field for the status of a version. -/
def statusField : Field :=
  { Field.ofKind Status.field .select with
    options := [.plain Status.draft.name, .plain Status.published.name] }

/-- The field for the document that a version belongs to. -/
def parentField (slug : String) : Field :=
  { Field.ofKind "parent" .relationship with relationTo := some (.single slug) }

/-- The fields of a snapshot of an entity. -/
def Entity.snapshotFields (e : Entity) : List Field :=
  let fields := e.fields ++ (if e.hasDrafts then [statusField] else [])
  if e.timestamps then withTimestampFields fields else fields

/-- The fields of the versions of an entity. -/
def Entity.versionFields (e : Entity) (kind : EntityKind) : List Field :=
  withTimestampFields
    ((if kind = .collection then [parentField e.slug] else []) ++
      [.container "version" .group e.snapshotFields])

/-- The fields of an entity that clients may filter by. -/
def Entity.liveFields (e : Entity) : List Field :=
  if e.timestamps then withTimestampFields e.fields else e.fields

/-- An entity with everything that follows from its declaration. -/
structure CompiledEntity where
  entity : Entity
  kind : EntityKind
  labels : Labels
  whereSchema : WhereSchema
  versionWhereSchema : Option WhereSchema
  /-- The data paths of the localized fields. -/
  localizedPaths : List String

namespace CompiledEntity

/-- Compiles an entity. -/
def compile (kind : EntityKind) (e : Entity) : Except SchemaError CompiledEntity := do
  let labels := e.typeLabels
  let whereSchema ← WhereSchema.compile labels.singular e.liveFields
  let versionWhereSchema ←
    if e.isVersioned then
      (WhereSchema.compile (labels.singular ++ "Version") (e.versionFields kind)).map some
    else .ok none
  .ok { entity := e, kind, labels, whereSchema, versionWhereSchema,
        localizedPaths := Field.localizedPaths e.fields }

def slug (c : CompiledEntity) : String :=
  c.entity.slug

/-- The data paths of the localized fields in a version. -/
def versionLocalizedPaths (c : CompiledEntity) : List String :=
  c.localizedPaths.map ("version." ++ ·)

end CompiledEntity

/-- All entities of a configuration, compiled. -/
structure Registry where
  collections : Table CompiledEntity
  globals : Table CompiledEntity

namespace Registry

/-- Compiles entities and puts them into a table by slug. -/
def addAll (kind : EntityKind) (t : Table CompiledEntity) :
    List Entity → Except SchemaError (Table CompiledEntity)
  | [] => .ok t
  | e :: rest => do
    let compiled ← CompiledEntity.compile kind e
    addAll kind (Table.insert e.slug compiled t) rest

/-- Compiles the entities of a configuration. -/
def build (config : Config) : Except SchemaError Registry := do
  let collections ← addAll .collection [] config.collections
  let globals ← addAll .global [] config.globals
  .ok ⟨collections, globals⟩

/-- The collection with a slug. -/
def collection (r : Registry) (slug : String) : Except ServiceError CompiledEntity :=
  match Table.get? slug r.collections with
  | some c => .ok c
  | none => .error (.entityNotFound .collection slug)

/-- The global with a slug. -/
def global (r : Registry) (slug : String) : Except ServiceError CompiledEntity :=
  match Table.get? slug r.globals with
  | some c => .ok c
  | none => .error (.entityNotFound .global slug)

/-- The collections in the order of their slugs. -/
def allCollections (r : Registry) : List CompiledEntity :=
  r.collections.map (·.2)

/-- The globals in the order of their slugs. -/
def allGlobals (r : Registry) : List CompiledEntity :=
  r.globals.map (·.2)

end Registry

end HeadlessCms
