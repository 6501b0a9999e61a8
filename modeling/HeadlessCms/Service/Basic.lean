import HeadlessCms.Document.History
import HeadlessCms.Service.Registry

/-!
# The service

The service answers requests to read and to write the entities of a registry.  It talks to a store
by calls only, so each operation is an action: a plan of calls that ends in a result or an error.

This module holds what reading and writing have in common: the parameters of requests, the choice of
locales, and the access rules.
-/

namespace HeadlessCms

/-- The parameters of a request for many documents. -/
structure FindParams where
  /-- The where-clause in JSON. -/
  filter : Option Json
  sort : List SortKey
  page : Option Nat
  limit : Option Nat
  /-- Whether newer drafts are shown; versions ignore it. -/
  draft : Bool
  locale : Option String
  fallbackLocale : Option String

/-- The parameters of a request for one document. -/
structure ReadParams where
  draft : Bool
  locale : Option String
  fallbackLocale : Option String

/-- The parameters of a save. -/
structure SaveParams where
  /-- Whether the change is a draft, where the entity has drafts. -/
  draft : Bool
  locale : Option String

/-- The locale in which a request reads. -/
structure LocaleSelection where
  locale : String
  fallback : Option String
  deriving DecidableEq, Repr

/-- What the service works with. -/
structure Service where
  registry : Registry
  localization : Option Locales
  limits : PageLimits

namespace Service

/-- The store collection with all globals. -/
def globalsCollection : String := "globals"

/-- The name under which the record of a global says which global it is. -/
def globalTypeField : String := "globalType"

/-- Asks for no fallback locale. -/
def noFallback : String := "none"

/-- The service for a configuration whose entities have been compiled. -/
def ofRegistry (registry : Registry) (config : Config) : Service :=
  ⟨registry, config.localization, config.pagination⟩

/-- The localized paths of all globals together, each once. -/
def globalPaths (r : Registry) : List String :=
  (r.allGlobals.flatMap (·.localizedPaths)).foldl
    (fun known path => if known.contains path then known else known ++ [path]) []

/-- The collections that the service writes to, with their localized paths, in the order in which
they are declared to the store. -/
def storeCollections (r : Registry) : List (String × List String) :=
  r.allCollections.map (fun c => (c.slug, c.localizedPaths)) ++
    [(globalsCollection, globalPaths r)] ++
    ((r.allCollections ++ r.allGlobals).filter (·.entity.isVersioned)).map fun c =>
      (c.entity.versionsCollection, c.versionLocalizedPaths)

/-- Declares all collections to the store. -/
def declare : List (String × List String) → Action StoreError Unit
  | [] => pure ()
  | (name, paths) :: rest => do
    Action.register name paths
    declare rest

/-- Starts the service of a configuration whose entities have been compiled. -/
def start (registry : Registry) (config : Config) : Action ServiceError Service := do
  Action.mapError .store (declare (storeCollections registry))
  pure (ofRegistry registry config)

/-- The where-schema of a collection. -/
def whereSchema (s : Service) (slug : String) : Except ServiceError WhereSchema := do
  let c ← s.registry.collection slug
  .ok c.whereSchema

/-- Reads a where-clause and checks it. -/
def readWhere (schema : WhereSchema) : Option Json → Except ServiceError (Option Predicate)
  | none => .ok none
  | some raw => do
    let clause ← (Predicate.ofJson raw).mapError .invalidPredicate
    (schema.validate clause).mapError .invalidWhere
    .ok (some clause)

/-- What readers of an entity may see, provided that it is something. -/
def readAccess (c : CompiledEntity) : Except ServiceError Access := do
  let access ← c.entity.read.resolve.mapError .invalidPredicate
  if access.isDenied then .error (.forbidden c.slug) else .ok access

/-- A filter together with the clause of the reader. -/
def withScope (filter : Option Predicate) (access : Access) : Option Predicate :=
  Predicate.conjoinAll (filter.toList ++ access.clause?.toList)

/-- The fallback locale of a request. -/
def selectFallback (l : Locales) : Option String → Except ServiceError (Option String)
  | none => .ok (if l.fallback then some l.default else none)
  | some locale =>
    if locale = noFallback then .ok none
    else if l.has locale then .ok (some locale)
    else .error (.unknownFallbackLocale locale)

/-- The locale and the fallback of a request; none if there are no locales. -/
def selectLocale (s : Service) (requested fallback : Option String) :
    Except ServiceError (Option LocaleSelection) :=
  match s.localization with
  | none => .ok none
  | some l => do
    let locale := requested.getD l.default
    if locale ≠ allLocales ∧ !l.has locale then .error (.unknownLocale locale)
    else do
      let fallback ← selectFallback l fallback
      .ok (some ⟨locale, fallback⟩)

/-- The locale of a selection. -/
def localeOf (selection : Option LocaleSelection) : Option String :=
  selection.map (·.locale)

/-- A record as it reads in the selected locale. -/
def localize (s : Service) (paths : List String) (selection : Option LocaleSelection)
    (data : Record) : Record :=
  match s.localization, selection with
  | some l, some chosen => Record.localize ⟨l.names, chosen.locale, chosen.fallback⟩ paths data
  | _, _ => data

/-- The page of a request. -/
def paginationFor (s : Service) (page limit : Option Nat) : Pagination :=
  .of (page.getD 1) (s.limits.clamp limit)

/-- Reads a document from a stored record. -/
def documentOf (record : Record) : Action ServiceError Document :=
  Action.ofExcept ((Document.ofRecord record).mapError .mismatch)

/-- An action on the store as an action of the service. -/
def onStore {α : Type} (a : Action StoreError α) : Action ServiceError α :=
  Action.mapError .store a

end Service

end HeadlessCms
