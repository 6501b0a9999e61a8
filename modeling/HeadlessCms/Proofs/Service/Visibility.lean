import HeadlessCms.Proofs.Document.InStep
import HeadlessCms.Proofs.Service.Isolation
import HeadlessCms.Proofs.Service.Scope
import HeadlessCms.Proofs.Service.Searching

/-!
# What a scope hides

A collection may hold records that a reader within a scope cannot see.  They neither show on a page nor
move what is shown: two backends with the same visible records and the same versions answer a search with
the same documents, whatever else they hold (`Service.hidden_records_unseen`).

The total is that of the visible matches, unless the search or the scope asks for points near another one:
then it is the number of all records of the collection, which tells a reader how many are hidden
(`Service.hidden_records_counted`).
-/

namespace HeadlessCms

namespace Store

/-- The same records in the order of their insertion, for a reader who asks for some data paths: there is
no difference at all, or only one in the numbers of the store, which grow along both lists and which the
reader does not ask for. -/
inductive SameRecords (asked : List String) : List Record → List Record → Prop
  | refl (records : List Record) : SameRecords asked records records
  | renumbered {records records' : List Record}
      (same : List.Forall₂ Record.Renumbered records records') (growing : Growing records)
      (growing' : Growing records')
      (unasked : ∀ path ∈ asked, (Path.segments path).head? ≠ some Record.sequenceField) :
      SameRecords asked records records'

variable {asked : List String} {records records' : List Record}

/-- **The same records are selected, sorted and shown alike.** -/
theorem SameRecords.map_sanitize_sortStably [PatternEngine]
    (h : SameRecords asked records records') {q : Query}
    {options : FindOptions}
    (hfilter : ∀ p ∈ q.filter, ∀ k ∈ p.leaves, ∃ path ∈ asked,
      (Path.segments k.path).head? = (Path.segments path).head?)
    (hkeys : ∀ key ∈ options.sort,
      key.path ∈ asked ∨ (Path.segments key.path).head? ≠ some Record.sequenceField) :
    let precedes (a b : Record) := Record.compareBy options.sort (origin? q options) a b == .lt
    (sortStably precedes (records.filter (Predicate.selects q.filter))).map Record.sanitize =
      (sortStably precedes (records'.filter (Predicate.selects q.filter))).map Record.sanitize := by
  cases h with
  | refl => rfl
  | renumbered same growing growing' unasked =>
    have hignores : ∀ p ∈ q.filter, p.IgnoresNumbers := by
      intro p hp k hk
      obtain ⟨path, hpath, hhead⟩ := hfilter p hp k hk
      exact hhead ▸ unasked path hpath
    refine map_sanitize_of_forall₂ (forall₂_sortStably (fun key hkey => ?_)
      (head?_origin? options hignores) ?_ (growing.filter _) (growing'.filter _))
    · exact (hkeys key hkey).elim (unasked key.path) id
    · refine List.rel_filter (fun r r' hr => ?_) same
      show Predicate.selects q.filter r = true ↔ Predicate.selects q.filter r' = true
      rw [Predicate.selects_iff, Predicate.selects_iff, hr.holdsFor_eq hignores]

end Store

/-! ### Searches within a scope -/

/-- The where-clause of a request, if it is one. -/
def FindParams.clause? (params : FindParams) : Option Predicate :=
  params.filter.bind fun raw => (Predicate.ofJson raw).toOption

/-- All constraints of a search within a scope. -/
def FindParams.constraints (params : FindParams) (scope : Predicate) : List Constraint :=
  (params.clause?.toList ++ [scope]).flatMap Predicate.leaves

/-- The data paths that a search within a scope asks for. -/
def FindParams.asked (params : FindParams) (scope : Predicate) : List String :=
  (params.constraints scope).map (fun k => Path.toData k.path) ++ params.sort.map (·.path)

namespace Service

/-- Parameters whose filter is read have its clause. -/
theorem clause?_of_readWhere {schema : WhereSchema} {params : FindParams} {clause : Option Predicate}
    (h : readWhere schema params.filter = .ok clause) : params.clause? = clause := by
  unfold FindParams.clause?
  cases hraw : params.filter with
  | none =>
    rw [hraw] at h
    cases h
    rfl
  | some raw =>
    rw [hraw] at h
    obtain ⟨p, hp, h⟩ := Except.bind_eq_ok_iff.1 h
    obtain ⟨_, _, h⟩ := Except.bind_eq_ok_iff.1 h
    cases h
    rw [Option.bind_some, Except.mapError_eq_ok_iff.1 hp]
    rfl

/-- The records of a collection that a reader within a scope can see in a locale. -/
def visible [PatternEngine] (b : Backend) (c : CompiledEntity) (slug : String) (scope : Predicate)
    (locale : Option String) : List Record :=
  (b.store.recordsOf slug).filter
    (Predicate.selects (some (scope.mapPaths (Store.storedPath c.localizedPaths locale))))

/-- Two backends that look alike to a reader within a scope.  Both have declared the collection, they hold
the same versions, and the records that the reader can see are the same. -/
structure AlikeWithin [PatternEngine]
    (scope : Predicate) (c : CompiledEntity) (slug : String) (params : FindParams)
    (locale : Option String) (b b' : Backend) : Prop where
  declared : ∀ held, Table.get? slug b.store.collections = some held →
    held.localizedPaths = c.localizedPaths
  declared' : ∀ held, Table.get? slug b'.store.collections = some held →
    held.localizedPaths = c.localizedPaths
  versions : Backend.AgreesOn [c.entity.versionsCollection] b b'
  visible : Store.SameRecords (params.asked scope) (visible b c slug scope locale)
    (visible b' c slug scope locale)

variable {env : Surroundings} {s : Service} {c : CompiledEntity} {slug : String} {params : FindParams}
  {scope : Predicate} {selection : Option LocaleSelection} {b b' : Backend} {page page' : Page Document}

/-- A search within a scope has the constraints of the reader and those of the scope. -/
theorem leaves_withScope {p : Predicate} (hp : p ∈ withScope params.clause? (.scoped scope)) :
    p.leaves = params.constraints scope := by
  unfold withScope at hp
  unfold FindParams.constraints
  cases hclause : params.clause? with
  | none =>
    rw [hclause] at hp
    cases hp
    exact (List.append_nil _).symm
  | some clause =>
    rw [hclause] at hp
    cases hp
    exact Predicate.leavesOf_eq_flatMap _

/-- Whether the total is estimated. -/
theorem estimatedCount_iff (sort : List SortKey) :
    (findOptions c (withScope params.clause? (.scoped scope)) sort).estimatedCount = true ↔
      ∃ k ∈ params.constraints scope, k.operator = .near := by
  obtain ⟨p, hp⟩ : ∃ p, withScope params.clause? (.scoped scope) = some p := by
    cases params.clause? with
    | none => exact ⟨_, rfl⟩
    | some clause => exact ⟨_, rfl⟩
  have hleaves := leaves_withScope hp
  rw [hp, ← hleaves]
  show p.usesNear = true ↔ _
  simp [Predicate.usesNear]

section

variable [PatternEngine]

/-- What a search within a scope selects is selected among the visible records. -/
theorem Search.For.found_eq {x : Search} (h : x.For env s slug c params b page)
    (haccess : x.access = .scoped scope)
    (hdeclared : x.held.localizedPaths = c.localizedPaths) :
    x.found = sortStably (fun r r' => Record.compareBy (findOptions c x.filter params.sort).sort
        (Store.origin? (x.query slug) (findOptions c x.filter params.sort)) r r' == .lt)
      ((visible b c slug scope (localeOf x.selection)).filter
        (Predicate.selects (x.query slug).filter)) := by
  rw [Store.eq_sortStably_of_select h.found, visible, Store.recordsOf_of_get? h.held,
    List.filter_filter]
  congr 1
  refine List.filter_congr fun r _ => ?_
  cases hselects : Predicate.selects (x.query slug).filter r with
  | false => rfl
  | true =>
    have hholds := Predicate.selects_iff.1 hselects
    rw [Search.query, Search.filter, haccess] at hholds
    rw [Bool.true_and, eq_comm, Predicate.selects_iff, ← hdeclared]
    exact holds_scope_of_withScope hholds

/-- **Two searches that see the same records find the same.** -/
theorem AlikeWithin.map_sanitize_found {x x' : Search}
    (h : AlikeWithin scope c slug params (localeOf x.selection) b b')
    (hx : x.For env s slug c params b page) (hx' : x'.For env s slug c params b' page')
    (haccess : x.access = .scoped scope) (haccess' : x'.access = x.access)
    (hselection : x'.selection = x.selection) (hclause : x'.clause = x.clause) :
    x.found.map Record.sanitize = x'.found.map Record.sanitize := by
  have hpaths := h.declared x.held hx.held
  have hpaths' := h.declared' x'.held hx'.held
  have hfilter : x'.filter = x.filter := by
    rw [Search.filter, Search.filter, haccess', hclause]
  have hquery : x'.query slug = x.query slug := by
    rw [Search.query, Search.query, hfilter, hselection, hpaths, hpaths']
  have hleaves : ∀ p ∈ (x.query slug).filter, ∀ k ∈ p.leaves, ∃ path ∈ params.asked scope,
      (Path.segments k.path).head? = (Path.segments path).head? := by
    intro p hp k hk
    obtain ⟨p, hscoped, rfl⟩ := Option.map_eq_some_iff.1 hp
    rw [Predicate.leaves_mapPaths] at hk
    obtain ⟨leaf, hleaf, rfl⟩ := List.mem_map.1 hk
    rw [Search.filter, haccess, ← clause?_of_readWhere hx.clause] at hscoped
    rw [leaves_withScope hscoped] at hleaf
    exact ⟨_, List.mem_append_left _ (List.mem_map_of_mem hleaf),
      Store.head?_segments_storedPath _ _ _⟩
  have hkeys : ∀ key ∈ (findOptions c x.filter params.sort).sort, key.path ∈ params.asked scope ∨
      (Path.segments key.path).head? ≠ some Record.sequenceField := by
    intro key hkey
    unfold findOptions at hkey
    dsimp only at hkey
    split at hkey
    · exact Or.inl (List.mem_append_right _ (List.mem_map_of_mem hkey))
    · split at hkey
      · rw [List.mem_singleton.1 hkey]
        exact Or.inr (by decide)
      · cases hkey
  rw [hx.found_eq haccess hpaths, hx'.found_eq (haccess'.trans haccess) hpaths', hquery, hfilter,
    hselection]
  exact h.visible.map_sanitize_sortStably hleaves hkeys

/-- What is shown of a record depends on the versions. -/
theorem inStep_reveal_agreesOn {names : List String}
    (hversions : c.entity.hasDrafts = true → c.entity.versionsCollection ∈ names) (draft : Bool)
    (access : Access) (record : Record) :
    Action.InStep env (Backend.AgreesOn names) (s.reveal c draft selection access record)
      fun _ => True :=
  Action.InStep.ofExcept_bind fun doc _ => inStep_present_agreesOn hversions _ _ _ doc

/-- **Two searches that find the same show the same documents,** with the same versions at hand. -/
theorem AlikeWithin.docs_eq {x x' : Search} {locale : Option String}
    (h : AlikeWithin scope c slug params locale b b') (hx : x.For env s slug c params b page)
    (hx' : x'.For env s slug c params b' page') (haccess : x'.access = x.access)
    (hselection : x'.selection = x.selection)
    (hfound : x.found.map Record.sanitize = x'.found.map Record.sanitize) :
    page'.docs = page.docs := by
  have hslice : (Store.slice x'.found (some (s.paginationFor params.page params.limit))).map
      Record.sanitize = (Store.slice x.found (some (s.paginationFor params.page params.limit))).map
      Record.sanitize := by
    rw [← Store.slice_map, ← Store.slice_map, hfound]
  have hshown' := hx'.docs
  rw [hslice, haccess, hselection] at hshown'
  have hsteps : Action.InStep env (Backend.AgreesOn [c.entity.versionsCollection])
      (((Store.slice x.found (some (s.paginationFor params.page params.limit))).map
        Record.sanitize).mapM (s.reveal c params.draft x.selection x.access)) fun _ => True :=
    .mapM (Q := fun _ => True) fun record _ =>
      inStep_reveal_agreesOn (fun _ => List.mem_singleton_self _) _ _ record
  have hsame := (hsteps b b' h.versions).1
  exact Except.ok.inj (hshown'.symm.trans (hsame.trans hx.docs))

/-- **Hidden records are not observed,** except that they are counted in an estimated total.  Let a search
within a scope succeed on two backends that look alike to the reader.  It answers with the same documents
on the same page of the same length.  If neither the reader nor the scope asks for points near another one,
the totals are the same as well; otherwise each total is the number of all records of the collection. -/
theorem hidden_records_unseen (hc : s.registry.collection slug = .ok c)
    (hscope : c.entity.read.resolve = .ok (.scoped scope))
    (hselect : s.selectLocale params.locale params.fallbackLocale = .ok selection)
    (halike : AlikeWithin scope c slug params (localeOf selection) b b')
    (hfind : (Action.runOn env (s.find slug params) b).1 = .ok page)
    (hfind' : (Action.runOn env (s.find slug params) b').1 = .ok page') :
    page' = { page with totalDocs := page'.totalDocs } ∧
      ((¬ ∃ k ∈ params.constraints scope, k.operator = .near) → page' = page) ∧
      ((∃ k ∈ params.constraints scope, k.operator = .near) →
        page.totalDocs = (b.store.recordsOf slug).length ∧
          page'.totalDocs = (b'.store.recordsOf slug).length) := by
  obtain ⟨x, hx⟩ := exists_search hc hfind
  obtain ⟨x', hx'⟩ := exists_search hc hfind'
  have haccess := readAccess_of_scoped hscope hx.access
  have haccess' : x'.access = x.access := (readAccess_of_scoped hscope hx'.access).trans haccess.symm
  have hselection : x'.selection = x.selection := Except.ok.inj (hx'.selection.symm.trans hx.selection)
  have hclause : x'.clause = x.clause := Except.ok.inj (hx'.clause.symm.trans hx.clause)
  obtain rfl : x.selection = selection := Except.ok.inj (hx.selection.symm.trans hselect)
  have hfound := halike.map_sanitize_found hx hx' haccess haccess' hselection hclause
  have hfilter : x.filter = withScope params.clause? (.scoped scope) := by
    rw [Search.filter, haccess, clause?_of_readWhere hx.clause]
  have hfilter' : x'.filter = x.filter := by
    rw [Search.filter, Search.filter, haccess', hclause]
  have hpage : page' = { page with totalDocs := page'.totalDocs } := by
    rw [Page.mk.injEq]
    exact ⟨halike.docs_eq hx hx' haccess' hselection hfound, rfl, hx'.limit.trans hx.limit.symm,
      hx'.page.trans hx.page.symm⟩
  have htotal := hx.totalDocs
  have htotal' := hx'.totalDocs
  rw [hfilter'] at htotal'
  rw [hfilter] at htotal htotal'
  refine ⟨hpage, fun hfar => ?_, fun hnear => ?_⟩
  · have hlength : x'.found.length = x.found.length := by
      rw [← List.length_map (f := Record.sanitize), ← hfound, List.length_map]
    rw [if_neg fun h => hfar ((estimatedCount_iff _).1 h)] at htotal htotal'
    rw [hpage, htotal', hlength, ← htotal]
  · rw [if_pos ((estimatedCount_iff _).2 hnear)] at htotal htotal'
    rw [htotal, htotal', Store.recordsOf_of_get? hx.held, Store.recordsOf_of_get? hx'.held]
    exact ⟨rfl, rfl⟩

end

/-! Places, of which readers see those that are not called `secret`. -/

def places : Entity :=
  { Entity.ofFields "places" [Field.ofKind "name" .text, Field.ofKind "spot" .point] with
    read := .scope (.obj [("name", .obj [("not_equals", .str "secret")])]) }

def placesConfig : Config :=
  ⟨[places], [], none, .standard, .standard⟩

def placesRegistry : Registry :=
  (Registry.build placesConfig).toOption.getD ⟨[], []⟩

def notSecret : Predicate :=
  .compare "name" .notEquals (.str "secret")

/-- The record of a place without a spot, with its number. -/
def place (name : String) (n : Nat) : Record :=
  Store.stamp name n 0 [("name", .str name)]

/-- A store that holds these places. -/
def placesHeld (records : List Record) : Backend :=
  { Backend.empty with store := ⟨[("places", ⟨records, []⟩)], records.length, 0⟩ }

/-- A search of the places with one constraint. -/
def placesWhere (path operator operand : String) : FindParams :=
  ⟨some (.obj [(path, .obj [(operator, .str operand)])]), [], none, none, false, none, none⟩

/-- What the search answers. -/
def foundPlaces (params : FindParams) (b : Backend) : Except ServiceError (Page Document) :=
  (Action.runOn .backward ((ofRegistry placesRegistry placesConfig).find "places" params) b).1

/-- The ids on a page, and the total. -/
def summaryOf (page : Page Document) : List String × Nat :=
  (page.docs.map (·.id), page.totalDocs)

/-- A page with a summary is a page. -/
theorem exists_foundPlaces {params : FindParams} {b : Backend} {summary : List String × Nat}
    (h : (foundPlaces params b).toOption.map summaryOf = some summary) :
    ∃ page, foundPlaces params b = .ok page ∧ summaryOf page = summary := by
  obtain ⟨page, hpage, hsummary⟩ := Option.map_eq_some_iff.1 h
  exact ⟨page, Except.eq_ok_of_toOption hpage, hsummary⟩

/-- The configuration of places is accepted and has no localized paths. -/
theorem compiled_places :
    placesConfig.validate = .ok () ∧ Registry.build placesConfig = .ok placesRegistry ∧
      ∃ c, placesRegistry.collection "places" = .ok c ∧ c.entity = places ∧ c.localizedPaths = [] := by
  have hbuild : Registry.build placesConfig = .ok placesRegistry := rfl
  obtain ⟨c, hc, hregistry⟩ := Registry.build_singleton (e := places) rfl rfl hbuild
  obtain ⟨hentity, -, hpaths⟩ := CompiledEntity.of_compile hc
  refine ⟨rfl, hbuild, c, ?_, hentity, hpaths⟩
  rw [hregistry]
  rfl

/-- Two shelves of places are alike within the clause if they have the same records that
it selects. -/
theorem alike_places (hentity : c.entity = places) (hpaths : c.localizedPaths = [])
    {records records' : List Record}
    (h : Store.SameRecords (params.asked notSecret)
      (records.filter (Predicate.selects (some notSecret)))
      (records'.filter (Predicate.selects (some notSecret)))) :
    AlikeWithin notSecret c "places" params none (placesHeld records) (placesHeld records') where
  declared held hheld := by
    cases hheld
    exact hpaths.symm
  declared' held hheld := by
    cases hheld
    exact hpaths.symm
  versions := by
    rw [hentity]
    exact ⟨rfl, List.forall_mem_singleton.2 rfl⟩
  visible := by
    unfold visible
    rw [hpaths]
    exact h

/-- A park is found alike beside a hidden place that has been there before. -/
theorem hidden_records_unseen_park :
    let search := placesWhere "name" "equals" "park"
    ∃ page, summaryOf page = (["park"], 1) ∧
      foundPlaces search (placesHeld [place "park" 0]) = .ok page ∧
      foundPlaces search (placesHeld [place "secret" 0, place "park" 1]) = .ok page := by
  intro search
  obtain ⟨-, -, c, hc, hentity, hpaths⟩ := compiled_places
  have hscope : c.entity.read.resolve = .ok (.scoped notSecret) := by
    rw [hentity]
    rfl
  have hsummary : (foundPlaces search (placesHeld [place "park" 0])).toOption.map summaryOf =
      some (["park"], 1) := by decide +kernel
  have hsummary' : (foundPlaces search (placesHeld [place "secret" 0, place "park" 1])).toOption.map
      summaryOf = some (["park"], 1) := by decide +kernel
  obtain ⟨page, hfind, hids⟩ := exists_foundPlaces hsummary
  obtain ⟨page', hfind', -⟩ := exists_foundPlaces hsummary'
  have hsame : Store.SameRecords (search.asked notSecret)
      ([place "park" 0].filter (Predicate.selects (some notSecret)))
      ([place "secret" 0, place "park" 1].filter (Predicate.selects (some notSecret))) := by
    rw [List.filter_cons_of_pos (by decide +kernel), List.filter_cons_of_neg (by decide +kernel),
      List.filter_cons_of_pos (by decide +kernel), List.filter_nil]
    exact .renumbered (.cons (Store.renumbered_stamp (List.pairwise_singleton _ _) _ _ _) .nil)
      (List.pairwise_singleton _ _) (List.pairwise_singleton _ _) (by decide +kernel)
  have hfar : ¬ ∃ k ∈ search.constraints notSecret, k.operator = .near := by decide +kernel
  obtain ⟨-, hequal, -⟩ := hidden_records_unseen (s := ofRegistry placesRegistry placesConfig) hc hscope
    rfl (alike_places hentity hpaths hsame) hfind hfind'
  exact ⟨page, hids, hfind, hequal hfar ▸ hfind'⟩

/-- **A search near a point counts the hidden places.**  The reader sees the same of both stores, and finds
nothing near the point in either of them, but learns from the totals that the second has one more. -/
theorem hidden_records_counted :
    let search := placesWhere "spot" "near" "10,20,1000"
    placesConfig.validate = .ok () ∧ Registry.build placesConfig = .ok placesRegistry ∧
      ∃ c, placesRegistry.collection "places" = .ok c ∧
        c.entity.read.resolve = .ok (.scoped notSecret) ∧
        AlikeWithin notSecret c "places" search none (placesHeld [place "park" 0])
          (placesHeld [place "park" 0, place "secret" 1]) ∧
        ∃ page page',
          foundPlaces search (placesHeld [place "park" 0]) = .ok page ∧
          foundPlaces search (placesHeld [place "park" 0, place "secret" 1]) = .ok page' ∧
          summaryOf page = ([], 1) ∧ summaryOf page' = ([], 2) := by
  intro search
  obtain ⟨hvalid, hbuild, c, hc, hentity, hpaths⟩ := compiled_places
  have hsummary : (foundPlaces search (placesHeld [place "park" 0])).toOption.map summaryOf =
      some ([], 1) := by decide +kernel
  have hsummary' : (foundPlaces search (placesHeld [place "park" 0, place "secret" 1])).toOption.map
      summaryOf = some ([], 2) := by decide +kernel
  obtain ⟨page, hfind, htotal⟩ := exists_foundPlaces hsummary
  obtain ⟨page', hfind', htotal'⟩ := exists_foundPlaces hsummary'
  refine ⟨hvalid, hbuild, c, hc, ?_, alike_places hentity hpaths ?_, page, page', hfind, hfind', htotal,
    htotal'⟩
  · rw [hentity]
    rfl
  · rw [List.filter_cons_of_pos (by decide +kernel), List.filter_cons_of_pos (by decide +kernel),
      List.filter_cons_of_neg (by decide +kernel)]
    exact .refl _

end Service

end HeadlessCms
