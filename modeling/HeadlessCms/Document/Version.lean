import HeadlessCms.Document.Basic
import HeadlessCms.Entity.Basic

/-!
# Versions

Every change of a versioned document leaves a version: a snapshot of its data under `version`, with
the status in which it was saved, the id of the document it belongs to, and the time of the change.
-/

namespace HeadlessCms

open Time (Instant)

/-- Whether a change was published. -/
inductive Status where
  | draft
  | published
  deriving DecidableEq, Repr

namespace Status

def name : Status → String
  | draft => "draft"
  | published => "published"

def ofJson (v : Json) : Typed Status := do
  let name ← Json.readVariant v
  if name = "draft" then .ok .draft
  else if name = "published" then .ok .published
  else .error (.kind v "`draft` or `published`")

/-- The name under which a snapshot holds its status. -/
def field : String := "_status"

end Status

/-- A stored snapshot of a document. -/
structure Version where
  id : String
  /-- The document it belongs to; versions of globals have none. -/
  parent : Option String
  /-- The data at the time of the change. -/
  version : Record
  createdAt : Instant
  updatedAt : Instant

namespace Version

/-- The status in the snapshot, if there is one. -/
def status? (v : Version) : Option Status :=
  (Table.get? Status.field v.version).bind fun value => (Status.ofJson value).toOption

def isDraft (v : Version) : Bool :=
  v.status? == some .draft

/-- A member that has been read and must be there. -/
def present {α : Type} (name : String) : Option α → Typed α
  | some a => .ok a
  | none => .error (.missing name)

/-- Reads a version from a record.  What is wrong with a member comes before what is missing. -/
def ofRecord (record : Record) : Typed Version := do
  let createdAt ← Typed.optional "createdAt" Json.readInstant record
  let id ← Typed.optional "id" Json.readString record
  let parent ← Typed.nullable "parent" Json.readString record
  let updatedAt ← Typed.optional "updatedAt" Json.readInstant record
  let version ← Typed.optional "version" Json.readRecord record
  let id ← present "id" id
  let version ← present "version" version
  let createdAt ← present "createdAt" createdAt
  let updatedAt ← present "updatedAt" updatedAt
  .ok { id, parent, version, createdAt, updatedAt }

/-- The record of a version. -/
def toRecord (v : Version) : Record :=
  [("createdAt", .ofInstant v.createdAt), ("id", .str v.id)] ++
    memberOf "parent" (v.parent.map .str) ++
    [("updatedAt", .ofInstant v.updatedAt), ("version", .obj v.version)]

def toJson (v : Version) : Json :=
  .obj v.toRecord

end Version

end HeadlessCms
