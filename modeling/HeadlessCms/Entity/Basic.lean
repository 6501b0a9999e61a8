import HeadlessCms.Entity.Access
import HeadlessCms.Field.Codec

/-!
# Entities

A collection holds many documents, a global exactly one; both are declared in the same way.
-/

namespace HeadlessCms

/-- Whether an entity has many documents or one. -/
inductive EntityKind where
  | collection
  | global
  deriving DecidableEq, Repr

def EntityKind.name : EntityKind → String
  | collection => "collection"
  | global => "global"

/-- How an entity is called. -/
structure Labels where
  singular : String
  plural : String
  deriving DecidableEq, Repr

/-- How versions of documents are kept. -/
structure Versioning where
  /-- Whether documents can be saved and read as drafts. -/
  drafts : Bool
  /-- How many versions of a document are kept; 0 keeps all. -/
  maxPerDoc : Nat
  deriving DecidableEq, Repr

/-- The declaration of a collection or a global. -/
structure Entity where
  slug : String
  labels : Option Labels
  fields : List Field
  /-- Whether documents carry the times of their creation and last change. -/
  timestamps : Bool
  versions : Option Versioning
  read : AccessRule

namespace Entity

/-- An entity with timestamps, without versions, that everybody may read. -/
def ofFields (slug : String) (fields : List Field) : Entity where
  slug := slug
  labels := none
  fields := fields
  timestamps := true
  versions := none
  read := .allow true

/-- How many versions of a document are kept unless declared otherwise. -/
def defaultMaxPerDoc : Nat := 100

/-- The entity with drafts. -/
def withDrafts (e : Entity) : Entity :=
  { e with versions := some ⟨true, defaultMaxPerDoc⟩ }

def isVersioned (e : Entity) : Bool :=
  e.versions.isSome

def hasDrafts (e : Entity) : Bool :=
  match e.versions with
  | some v => v.drafts
  | none => false

/-- The name of the store collection with the versions of the entity. -/
def versionsCollection (e : Entity) : String :=
  "_" ++ e.slug ++ "_versions"

end Entity

/-! ### JSON -/

open Typed

/-- Natural numbers of this program have 64 bits. -/
def wordLimit : Nat := Nat.pow 2 64

def Labels.ofJson (v : Json) : Typed Labels := do
  let members ← Json.readMembers ["singular", "plural"] v
  let singular ← need "singular" Json.readString members
  let plural ← need "plural" Json.readString members
  .ok ⟨singular, plural⟩

def Labels.toJson (l : Labels) : Json :=
  .obj [("plural", .str l.plural), ("singular", .str l.singular)]

def Versioning.ofJson (v : Json) : Typed Versioning := do
  let members ← Json.readMembers ["drafts", "maxPerDoc"] v
  let drafts ← orDefault "drafts" false Json.readBool members
  let maxPerDoc ← orDefault "maxPerDoc" Entity.defaultMaxPerDoc (Json.readNat wordLimit) members
  .ok ⟨drafts, maxPerDoc⟩

def Versioning.toJson (v : Versioning) : Json :=
  .obj [("drafts", .bool v.drafts), ("maxPerDoc", .nat v.maxPerDoc)]

/-- Reads the access rules of an entity, of which there is one. -/
def AccessRule.ofAccessJson (v : Json) : Typed AccessRule := do
  let members ← Json.readMembers ["read"] v
  orDefault "read" (.allow true) AccessRule.ofJson members

/-- A variant of an enumeration without data: its name, or an object with the name over null. -/
def Json.readVariant (v : Json) : Typed String :=
  match v with
  | .str s => .ok s
  | .obj [(name, .null)] => .ok name
  | _ => .error (.kind v "string or map")

def EntityKind.ofJson (v : Json) : Typed EntityKind := do
  let name ← Json.readVariant v
  if name = "collection" then .ok .collection
  else if name = "global" then .ok .global
  else .error (.kind v "`collection` or `global`")

namespace Entity

def memberNames : List String :=
  ["slug", "labels", "fields", "timestamps", "versions", "access"]

def ofJson (v : Json) : Typed Entity := do
  let members ← Json.readMembers memberNames v
  let slug ← need "slug" Json.readString members
  let labels ← nullable "labels" Labels.ofJson members
  let fields ← orDefault "fields" [] (Json.readList Field.ofJson) members
  let timestamps ← orDefault "timestamps" true Json.readBool members
  let versions ← nullable "versions" Versioning.ofJson members
  let read ← orDefault "access" (.allow true) AccessRule.ofAccessJson members
  .ok { slug, labels, fields, timestamps, versions, read }

def toJson (e : Entity) : Json :=
  .obj ([("access", .obj [("read", e.read.toJson)]), ("fields", .arr (Field.listToJson e.fields))] ++
    memberOf "labels" (e.labels.map Labels.toJson) ++
    [("slug", .str e.slug), ("timestamps", .bool e.timestamps)] ++
    memberOf "versions" (e.versions.map Versioning.toJson))

end Entity

end HeadlessCms
