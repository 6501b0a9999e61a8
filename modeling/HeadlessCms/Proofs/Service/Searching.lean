import HeadlessCms.Proofs.Store.Paging
import HeadlessCms.Service.Read

/-!
# What a search comes across

A search that succeeds has resolved the access of the reader, has selected records of the collection,
and has shown those of the page one after the other (`Service.exists_search`).  A record is shown alike
whether it has been found by a search or by its id (`Service.reveal`).
-/

namespace HeadlessCms

variable [PatternEngine]

/-- What a successful traversal makes of each item, on a backend of which the steps keep something. -/
theorem Action.forall₂_of_runOn_mapM {ε α β : Type} {env : Surroundings} {I : Backend → Prop}
    {f : α → Action ε β} (h : ∀ x, Keeps env I (f x) fun _ => True) {b : Backend} (hb : I b)
    {items : List α} {results : List β} (hrun : (runOn env (items.mapM f) b).1 = .ok results) :
    List.Forall₂ (fun x y => ∃ b, I b ∧ (runOn env (f x) b).1 = .ok y) items results := by
  induction items generalizing results b with
  | nil =>
    rw [List.mapM_nil] at hrun
    cases hrun
    exact .nil
  | cons x rest ih =>
    rw [List.mapM_cons] at hrun
    obtain ⟨y, b₁, hfirst, hrun⟩ := exists_of_runOn_bind hrun
    obtain ⟨more, b₂, hrest, hrun⟩ := exists_of_runOn_bind hrun
    cases hrun
    have hkept := (h x b hb).1
    rw [hfirst] at hkept
    exact .cons ⟨b, hb, congrArg Prod.fst hfirst⟩ (ih hkept (congrArg Prod.fst hrest))

namespace Service

/-- Shows a record that has been found. -/
def reveal (s : Service) (c : CompiledEntity) (draft : Bool) (selection : Option LocaleSelection)
    (access : Access) (record : Record) : Action ServiceError Document := do
  let doc ← documentOf record
  s.present c draft selection access doc

/-- What a search comes across: the access of the reader, the locales, the where-clause, the collection
and the records that are selected. -/
@[ext]
structure Search where
  access : Access
  selection : Option LocaleSelection
  clause : Option Predicate
  held : Collection
  found : List Record

namespace Search

/-- What is searched for. -/
def filter (x : Search) : Option Predicate :=
  withScope x.clause x.access

def query (x : Search) (slug : String) : Query :=
  ⟨slug, x.filter.map (·.mapPaths (Store.storedPath x.held.localizedPaths (localeOf x.selection))),
    localeOf x.selection⟩

/-- The search for a page of a collection: each step has succeeded, and the page says what has been
found. -/
structure For (x : Search) (env : Surroundings) (s : Service) (slug : String) (c : CompiledEntity)
    (params : FindParams) (b : Backend) (page : Page Document) : Prop where
  access : readAccess c = .ok x.access
  selection : s.selectLocale params.locale params.fallbackLocale = .ok x.selection
  clause : readWhere c.whereSchema params.filter = .ok x.clause
  held : Table.get? slug b.store.collections = some x.held
  found : Store.select x.held (x.query slug) (findOptions c x.filter params.sort) = .ok x.found
  docs : (Action.runOn env (((Store.slice x.found
    (some (s.paginationFor params.page params.limit))).map Record.sanitize).mapM
      (s.reveal c params.draft x.selection x.access)) b).1 = .ok page.docs
  totalDocs : page.totalDocs =
    if (findOptions c x.filter params.sort).estimatedCount then x.held.records.length
    else x.found.length
  limit : page.limit = (s.paginationFor params.page params.limit).limit
  page : page.page = (s.paginationFor params.page params.limit).page

end Search

variable {env : Surroundings} {s : Service} {c : CompiledEntity} {slug : String} {params : FindParams}
  {b : Backend} {page : Page Document}

/-- **A page comes from a search.** -/
theorem exists_search (hc : s.registry.collection slug = .ok c)
    (hfind : (Action.runOn env (s.find slug params) b).1 = .ok page) :
    ∃ x : Search, x.For env s slug c params b page := by
  have hfind : Action.runOn env (s.find slug params) b =
      (.ok page, (Action.runOn env (s.find slug params) b).2) := Prod.ext hfind rfl
  obtain ⟨found, hfound, hfind⟩ := Action.of_runOn_ofExcept_bind hfind
  obtain rfl : c = found := Except.ok.inj (hc.symm.trans hfound)
  obtain ⟨access, haccess, hfind⟩ := Action.of_runOn_ofExcept_bind hfind
  obtain ⟨selection, hselection, hfind⟩ := Action.of_runOn_ofExcept_bind hfind
  obtain ⟨clause, hclause, hfind⟩ := Action.of_runOn_ofExcept_bind hfind
  obtain ⟨q, b₁, hquery, hsearch⟩ := Action.of_runOn_bind hfind
  obtain ⟨rfl, hquery⟩ := Action.buildQuery_of_runOn (Action.runOn_of_mapError hquery)
  obtain ⟨records, b₂, hrecords, hshow⟩ := Action.of_runOn_bind hsearch
  obtain ⟨rfl, hrecords⟩ := Action.find_of_runOn (Action.runOn_of_mapError hrecords)
  obtain ⟨docs, b₃, hdocs, hpage⟩ := Action.of_runOn_bind hshow
  obtain rfl := Except.ok.inj (Prod.mk.inj hpage).1
  obtain ⟨held, hheld, hquery⟩ := Except.bind_eq_ok_iff.1 hquery
  cases hquery
  obtain ⟨held', found, hheld', hselected, rfl⟩ := Store.exists_of_find hrecords
  obtain rfl : held' = held := Except.ok.inj (hheld'.symm.trans hheld)
  exact ⟨⟨access, selection, clause, held', found⟩, haccess, hselection, hclause,
    Store.get?_of_collection? hheld, hselected, congrArg Prod.fst hdocs, rfl, rfl, rfl⟩

end Service

end HeadlessCms
