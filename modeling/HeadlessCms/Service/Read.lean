import HeadlessCms.Service.Basic

/-!
# Reading

Reads are restricted by the access rule of the entity.  A document that is found is shown as its
newest draft if drafts are asked for, and then in the selected locale.  A document that the reader
may not see is reported like one that does not exist.
-/

namespace HeadlessCms

namespace Service

/-- A document as it is shown: the newest draft in its place if asked for, in the selected
locale. -/
def present (s : Service) (c : CompiledEntity) (draft : Bool) (selection : Option LocaleSelection)
    (access : Access) (doc : Document) : Action ServiceError Document := do
  let doc ←
    if draft && c.entity.hasDrafts then
      onStore (Draft.resolve c.entity c.kind doc (localeOf selection) access)
    else pure doc
  pure { doc with data := s.localize c.localizedPaths selection doc.data }

/-- How the documents of an entity are listed: in the order asked for; nearest first when points near
another one are asked for; otherwise newest first. -/
def findOptions (c : CompiledEntity) (filter : Option Predicate) (sort : List SortKey) :
    FindOptions :=
  let near := (filter.map Predicate.usesNear).getD false
  let sort :=
    if !sort.isEmpty || near then sort
    else if c.entity.timestamps then [.desc "createdAt"]
    else []
  ⟨false, near, sort⟩

/-- A page of the documents of a collection. -/
def find (s : Service) (slug : String) (params : FindParams) :
    Action ServiceError (Page Document) := do
  let c ← Action.ofExcept (s.registry.collection slug)
  let access ← Action.ofExcept (readAccess c)
  let selection ← Action.ofExcept (s.selectLocale params.locale params.fallbackLocale)
  let filter ← Action.ofExcept (readWhere c.whereSchema params.filter)
  let filter := withScope filter access
  let query ← onStore (Action.buildQuery slug filter (localeOf selection))
  let page ← onStore (Action.find query (findOptions c filter params.sort)
    (some (s.paginationFor params.page params.limit)))
  let docs ← page.docs.mapM fun record => do
    let doc ← documentOf record
    s.present c params.draft selection access doc
  pure (page.withDocs docs)

/-- The document of a collection with an id. -/
def findById (s : Service) (slug id : String) (params : ReadParams) :
    Action ServiceError Document := do
  let c ← Action.ofExcept (s.registry.collection slug)
  let access ← Action.ofExcept (readAccess c)
  let selection ← Action.ofExcept (s.selectLocale params.locale params.fallbackLocale)
  let filter := withScope (some (.compare "id" .equals (.str id))) access
  let query ← onStore (Action.buildQuery slug filter (localeOf selection))
  let found ← onStore (Action.findOne query (.sortedBy []))
  match found with
  | none => throw (.documentNotFound slug id)
  | some record => do
    let doc ← documentOf record
    s.present c params.draft selection access doc

/-- The clause that selects the record of a global. -/
def globalClause (slug : String) : Predicate :=
  .compare globalTypeField .equals (.str slug)

/-- A global.  One that has never been saved only says which global it is. -/
def findGlobal (s : Service) (slug : String) (params : ReadParams) :
    Action ServiceError Record := do
  let c ← Action.ofExcept (s.registry.global slug)
  let access ← Action.ofExcept (readAccess c)
  let selection ← Action.ofExcept (s.selectLocale params.locale params.fallbackLocale)
  let filter := withScope (some (globalClause slug)) access
  let query ← onStore (Action.buildQuery globalsCollection filter (localeOf selection))
  let found ← onStore (Action.findOne query (.sortedBy []))
  match found with
  | none => pure [(globalTypeField, .str slug)]
  | some record => do
    let doc ← documentOf record
    let doc ← s.present c params.draft selection access doc
    pure doc.toRecord

/-- A page of the versions of an entity. -/
def versionsOf (s : Service) (c : CompiledEntity) (params : FindParams) :
    Action ServiceError (Page Version) := do
  match c.versionWhereSchema with
  | none => throw (.notVersioned c.slug)
  | some schema => do
    let access ← Action.ofExcept (readAccess c)
    let selection ← Action.ofExcept (s.selectLocale params.locale params.fallbackLocale)
    let filter ← Action.ofExcept (readWhere schema params.filter)
    let page ← onStore (History.find c.entity access
      { filter, sort := params.sort, locale := localeOf selection,
        pagination := some (s.paginationFor params.page params.limit) })
    pure (page.withDocs (page.docs.map fun v =>
      { v with version := s.localize c.localizedPaths selection v.version }))

/-- A page of the versions of a collection. -/
def findVersions (s : Service) (slug : String) (params : FindParams) :
    Action ServiceError (Page Version) := do
  let c ← Action.ofExcept (s.registry.collection slug)
  s.versionsOf c params

/-- A page of the versions of a global. -/
def findGlobalVersions (s : Service) (slug : String) (params : FindParams) :
    Action ServiceError (Page Version) := do
  let c ← Action.ofExcept (s.registry.global slug)
  s.versionsOf c params

end Service

end HeadlessCms
