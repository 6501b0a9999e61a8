import HeadlessCms.Document.Version
import HeadlessCms.Store.Process

/-!
# Drafts

Saving a draft only writes a version.  A reader who asks for drafts sees the newest draft in place of
the document: a version with status `draft` that belongs to the document, is later than it and
satisfies the clause of the reader.
-/

namespace HeadlessCms

open Time (Instant)

/-- The path in a version for a path in a document: fields lie under `version`, and the id of the
document is the parent of the version. -/
def Path.inVersion (path : String) : String :=
  if path = "id" then "parent" else "version." ++ path

/-- A clause on documents as a clause on their versions. -/
def Predicate.scopeToVersion (p : Predicate) : Predicate :=
  p.mapPaths Path.inVersion

namespace Draft

/-- The clause that selects the drafts of a document that are later than `updatedAt`. -/
def newerThan (kind : EntityKind) (id : String) (updatedAt : Instant) : Predicate :=
  .and ((if kind = .collection then [.compare "parent" .equals (.str id)] else []) ++
    [.compare ("version." ++ Status.field) .equals (.str Status.draft.name),
      .compare "updatedAt" .greaterThan (.ofInstant updatedAt)])

/-- The clause that selects the drafts of a document that a reader may see. -/
def clause (kind : EntityKind) (id : String) (updatedAt : Instant) (access : Access) : Predicate :=
  match access.clause? with
  | some scope => (newerThan kind id updatedAt).conjoin scope.scopeToVersion
  | none => newerThan kind id updatedAt

/-- A document with the content and the times of one of its versions. -/
def overlay (doc : Document) (draft : Version) : Document where
  id := doc.id
  createdAt := some draft.createdAt
  updatedAt := some draft.updatedAt
  data := Document.stripEnvelope draft.version

/-- Looks for the drafts of a document. -/
def options (clause : Predicate) : FindOptions :=
  ⟨true, clause.usesNear, [.desc "updatedAt"]⟩

/-- The newest draft of a document, or the document itself if there is none that the reader may
see.  A document without both times has no drafts. -/
def resolve (entity : Entity) (kind : EntityKind) (doc : Document) (locale : Option String)
    (access : Access) : Action StoreError Document :=
  match doc.createdAt, doc.updatedAt with
  | some _, some updatedAt =>
    if access.isDenied then pure doc
    else do
      let wanted := clause kind doc.id updatedAt access
      let query ← Action.buildQuery entity.versionsCollection (some wanted) locale
      let found ← Action.findOne query (options wanted)
      match found with
      | none => pure doc
      | some record => do
        let draft ← Action.ofExcept
          ((Version.ofRecord (Record.sanitize record)).mapError StoreError.mismatch)
        pure (overlay doc draft)
  | _, _ => pure doc

end Draft

end HeadlessCms
