import HeadlessCms.Json.Typed

/-!
# Documents

A document is one entry of a collection, or the entry of a global: an id, the times of its creation
and of its last change, and the values of its fields.  In a record all of these are members of one
object (`Document.toRecord`, `Document.ofRecord`).
-/

namespace HeadlessCms

open Time (Instant)

/-- A timestamp as a stored value. -/
def Json.ofInstant (t : Instant) : Json :=
  .str t.write

/-- A stored document. -/
structure Document where
  id : String
  createdAt : Option Instant
  updatedAt : Option Instant
  /-- The values of the fields. -/
  data : Record

namespace Document

/-- The names under which a record holds what is not the value of a field. -/
def envelope : List String :=
  ["id", "createdAt", "updatedAt"]

/-- A record without the members of the envelope. -/
def stripEnvelope (data : Record) : Record :=
  Table.erase "updatedAt" (Table.erase "createdAt" (Table.erase "id" data))

/-- Only documents with both times have versions. -/
def hasTimestamps (d : Document) : Bool :=
  d.createdAt.isSome && d.updatedAt.isSome

/-- Reads a document from a record.  Times that are null count as absent. -/
def ofRecord (record : Record) : Typed Document := do
  let createdAt ← Typed.nullable "createdAt" Json.readInstant record
  let id ← Typed.optional "id" Json.readString record
  let updatedAt ← Typed.nullable "updatedAt" Json.readInstant record
  match id with
  | none => .error (.missing "id")
  | some id => .ok { id, createdAt, updatedAt, data := stripEnvelope record }

def ofJson (v : Json) : Typed Document := do
  let record ← Json.readRecord v
  ofRecord record

/-- The members for a time that may be absent. -/
def timeMember (name : String) : Option Instant → List (String × Json)
  | none => []
  | some t => [(name, .ofInstant t)]

/-- The record of a document.  Data under a name of the envelope wins over the envelope. -/
def toRecord (d : Document) : Record :=
  Table.insertAll d.data
    (timeMember "createdAt" d.createdAt ++ [("id", .str d.id)] ++
      timeMember "updatedAt" d.updatedAt)

def toJson (d : Document) : Json :=
  .obj d.toRecord

end Document

end HeadlessCms
