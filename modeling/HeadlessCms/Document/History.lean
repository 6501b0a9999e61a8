import HeadlessCms.Document.Draft

/-!
# Version history

Every save of a versioned document inserts a version; versions are never changed.  When a document
has more versions than its entity keeps, the oldest ones are deleted.
-/

namespace HeadlessCms

open Time (Instant)

namespace History

/-- The clause that selects the versions of one document. -/
def ownerClause (kind : EntityKind) (parent : Option String) : Option Predicate :=
  match kind, parent with
  | .collection, some id => some (.compare "parent" .equals (.str id))
  | _, _ => none

/-- Newest first. -/
def newestFirst : List SortKey :=
  [.desc "updatedAt"]

/-- Deletes all but the `max` newest versions of a document, and says how many they were. -/
def prune (entity : Entity) (kind : EntityKind) (parent : Option String) (max : Nat) :
    Action StoreError Nat := do
  let collection := entity.versionsCollection
  let query ← Action.buildQuery collection (ownerClause kind parent) none
  let history ← Action.find query (.sortedBy newestFirst) none
  let expired := (history.docs.drop max).filterMap (Table.get? "id")
  if expired.isEmpty then pure 0
  else do
    let query ← Action.buildQuery collection (some (.compare "id" .isIn (.arr expired))) none
    Action.deleteMany query

/-- The snapshot of the data of a document. -/
def snapshot (data : Record) (status : Status) : Record :=
  Table.insert Status.field (.str status.name) (Table.erase "id" data)

/-- The record of a new version. -/
def newRecord (kind : EntityKind) (parent : Option String) (data : Record) (status : Status)
    (time : Instant) : Record :=
  [("createdAt", .ofInstant time)] ++
    (match kind, parent with
      | .collection, some id => [("parent", .str id)]
      | _, _ => []) ++
    [("updatedAt", .ofInstant time), ("version", .obj (snapshot data status))]

/-- Writes a version with the data of a document as it reads after a change, and prunes the
history. -/
def save (entity : Entity) (kind : EntityKind) (parent : Option String) (data : Record)
    (status : Status) (time : Instant) : Action StoreError Version := do
  let stored ← Action.insert entity.versionsCollection (newRecord kind parent data status time)
  let version ← Action.ofExcept ((Version.ofRecord stored).mapError StoreError.mismatch)
  match entity.versions with
  | some v =>
    if 0 < v.maxPerDoc then do
      let _ ← prune entity kind parent v.maxPerDoc
      pure version
    else pure version
  | none => pure version

/-- What part of a history is asked for. -/
structure Request where
  filter : Option Predicate
  sort : List SortKey
  pagination : Option Pagination
  locale : Option String

/-- The versions of an entity that a reader may see, newest first unless another order is asked
for. -/
def find (entity : Entity) (access : Access) (request : Request) :
    Action StoreError (Page Version) := do
  let filter := Predicate.conjoinAll
    (request.filter.toList ++ (access.clause?.map Predicate.scopeToVersion).toList)
  let options : FindOptions :=
    ⟨false, (filter.map Predicate.usesNear).getD false,
      if request.sort.isEmpty then newestFirst else request.sort⟩
  let query ← Action.buildQuery entity.versionsCollection filter request.locale
  let page ← Action.find query options request.pagination
  let versions ← Action.ofExcept ((page.docs.mapM Version.ofRecord).mapError StoreError.mismatch)
  pure (page.withDocs versions)

end History

end HeadlessCms
