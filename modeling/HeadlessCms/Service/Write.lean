import HeadlessCms.Service.Read

/-!
# Writing

A save puts a patch on a document: the fields of the patch replace those of the document, localized
ones in the locale of the request only.  A published save changes the stored document; a draft of an
existing document starts from its newest draft and only leaves a version.  Every save of a versioned
entity leaves a version.
-/

namespace HeadlessCms

open Time (Instant)

namespace Service

/-- The stored document that a clause selects, in all locales. -/
def load (collection : String) (clause : Predicate) : Action ServiceError (Option Document) := do
  let query ← onStore (Action.buildQuery collection (some clause) none)
  let found ← onStore (Action.findOne query (.sortedBy []))
  match found with
  | none => pure none
  | some record => do
    let doc ← documentOf record
    pure (some doc)

/-- What of a patch is stored: no names of the envelope, and localized values under the locale of
the request, beside those of other locales in `stored`. -/
def incoming (s : Service) (c : CompiledEntity) (selection : Option LocaleSelection)
    (stored patch : Record) : Record :=
  match s.localization, selection with
  | some l, some chosen =>
    Record.mergeLocalized ⟨l.names, chosen.locale⟩ (some stored) c.localizedPaths
      (Document.stripEnvelope patch)
  | _, _ => Document.stripEnvelope patch

/-- The data of a document after a patch. -/
def patched (s : Service) (c : CompiledEntity) (selection : Option LocaleSelection)
    (status : Status) (stored patch : Record) : Record :=
  let data := Table.insertAll (s.incoming c selection stored patch) stored
  if c.entity.hasDrafts then Table.insert Status.field (.str status.name) data else data

/-- The content that a save starts from: nothing for a new document, the newest draft for a draft,
the document otherwise. -/
def baseOf (c : CompiledEntity) (existing : Option Document) (draft : Bool) :
    Action ServiceError Record :=
  match existing with
  | none => pure []
  | some doc =>
    if draft then do
      let newest ← onStore (Draft.resolve c.entity c.kind doc none .unrestricted)
      pure newest.data
    else pure doc.data

/-- Stores a document as it reads after a change.  A draft of an existing document is not stored. -/
def store (collection : String) (existing : Option Document) (draft : Bool)
    (createdAt updatedAt : Option Instant) (data : Record) : Action ServiceError Document :=
  match existing with
  | some doc =>
    let changed : Document := ⟨doc.id, createdAt, updatedAt, data⟩
    if draft then pure changed
    else do
      let record ← onStore (Action.update collection doc.id changed.toRecord)
      documentOf record
  | none => do
    let fresh : Document := ⟨"", createdAt, updatedAt, data⟩
    let record ← onStore (Action.insert collection (Table.erase "id" fresh.toRecord))
    documentOf record

/-- Saves a patch of a document, or a new document, and leaves a version of it. -/
def save (s : Service) (c : CompiledEntity) (collection : String) (existing : Option Document)
    (patch : Record) (params : SaveParams) : Action ServiceError Document := do
  let selection ← Action.ofExcept (s.selectLocale params.locale none)
  if localeOf selection = some allLocales then throw .everyLocaleAtOnce
  let draft := params.draft && c.entity.hasDrafts
  let status : Status := if draft then .draft else .published
  let time ← Action.now
  let stored ← baseOf c existing draft
  let data := s.patched c selection status stored patch
  let createdAt := (existing.bind (·.createdAt)).getD time
  let saved ←
    if c.entity.timestamps then store collection existing draft (some createdAt) (some time) data
    else store collection existing draft none none data
  if c.entity.isVersioned then do
    let _ ← onStore (History.save c.entity c.kind (some saved.id) saved.toRecord status time)
  pure { saved with data := s.localize c.localizedPaths selection saved.data }

/-- Creates a document of a collection. -/
def create (s : Service) (slug : String) (data : Record) (params : SaveParams) :
    Action ServiceError Document := do
  let c ← Action.ofExcept (s.registry.collection slug)
  s.save c slug none data params

/-- Changes a document of a collection. -/
def update (s : Service) (slug id : String) (patch : Record) (params : SaveParams) :
    Action ServiceError Document := do
  let c ← Action.ofExcept (s.registry.collection slug)
  let existing ← load slug (.compare "id" .equals (.str id))
  match existing with
  | none => throw (.documentNotFound slug id)
  | some doc => s.save c slug (some doc) patch params

/-- Creates or changes a global. -/
def saveGlobal (s : Service) (slug : String) (data : Record) (params : SaveParams) :
    Action ServiceError Record := do
  let c ← Action.ofExcept (s.registry.global slug)
  let existing ← load globalsCollection (globalClause slug)
  let data := Table.insert globalTypeField (.str slug) data
  let saved ← s.save c globalsCollection existing data params
  pure saved.toRecord

end Service

end HeadlessCms
