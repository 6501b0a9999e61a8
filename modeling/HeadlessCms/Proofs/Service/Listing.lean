import HeadlessCms.Proofs.Service.Dating
import HeadlessCms.Proofs.Service.EveryLocale
import HeadlessCms.Proofs.Service.Isolation
import HeadlessCms.Proofs.Service.Searching
import HeadlessCms.Proofs.Store.Drawing

/-!
# Listings and single documents

A search without a where-clause finds the records that a reader may see.  The document with an id is
looked up with a clause on the id in front of that of the reader, so it is found exactly if the search
finds it (`Service.findById_of_search`), and both show it alike.  So the pages of a listing, one behind
the other, hold exactly the documents that are found by their ids (`Service.listing_agrees`).
-/

namespace HeadlessCms

open Time (Instant)

namespace Service

variable {env : Surroundings} {config : Config} {registry : Registry} {b : Backend}

/-! ### Ids of stored records -/

section

variable [PatternEngine]

/-- Declaring collections draws no id. -/
theorem keeps_declare_drawn (names : List (String × List String)) :
    Action.Keeps env (fun b => b.store.Drawn env.ids) (declare names) fun _ => True := by
  induction names with
  | nil => exact .pure trivial
  | cons n rest ih =>
    refine Action.Keeps.bind (P := fun _ => True) ?_ fun _ _ => ih
    refine .of_change (Action.change_register n.1 n.2) fun b hb =>
      ⟨fun name r hr => ?_, fun _ _ => trivial⟩
    exact hb name r (Store.recordsOf_register b.store n.1 n.2 name ▸ hr)

/-- Saving a document keeps all ids drawn. -/
theorem keeps_save_drawn {s : Service} {c : CompiledEntity} {collection : String}
    {existing : Option Document} (patch : Record) (params : SaveParams) :
    Action.Keeps env (fun b => b.store.Drawn env.ids) (s.save c collection existing patch params)
      fun _ => True := by
  refine keeps_save_of_steps (D := fun _ _ => True) (.now_store _) (keeps_baseOf_any _)
    (fun _ _ _ _ _ _ _ => ?_) fun _ _ _ _ _ _ => ?_
  · exact keeps_store_of_writes (fun _ => .update_store fun _ hs => hs.update _ _ _)
      (.insert_store fun _ hs => hs.insert _ (Record.id?_erase_id _))
  · exact History.keeps_save
      (.insert_store fun _ hs => hs.insert _ (History.id?_newRecord _ _ _ _ _))
      fun q _ => .deleteMany_store fun _ hs => hs.deleteMany q

/-- **All ids on a backend that is reached have been drawn.** -/
theorem Reachable.drawn (hreach : Reachable env registry config b) : b.store.Drawn env.ids :=
  hreach.invariant (fun _ _ hr => absurd hr List.not_mem_nil)
    (((keeps_declare_drawn _).mapError _).bind fun _ _ => .pure trivial)
    (fun _ _ _ _ patch params => keeps_save_drawn patch params) fun _ _ hb => hb

/-! ### Showing -/

variable {s : Service} {c : CompiledEntity} {slug : String} {params : FindParams}
  {page page' : Page Document} {draft : Bool} {selection : Option LocaleSelection} {access : Access}

/-- **A record is shown with its id,** by calls that change nothing. -/
theorem keeps_reveal {I : Backend → Prop} (record : Record) :
    Action.Keeps env I (s.reveal c draft selection access (Record.sanitize record)) fun shown =>
      Record.id? record = some shown.id := by
  unfold reveal
  refine (keeps_documentOf _).bind fun doc hread => ?_
  have hid : Record.id? record = some doc.id := by
    have hget := (Document.of_ofRecord hread).1
    rw [Record.get?_sanitize, if_neg (by decide)] at hget
    rw [Record.id?, hget]
    rfl
  unfold present
  split
  · refine ((Draft.keeps_resolve _ _ _ _ _).mapError _).bind fun newest hnewest => .pure ?_
    rcases hnewest with rfl | ⟨_, _, _, _, _, _, _, _, _, _, rfl⟩
    · exact hid
    · exact hid
  · exact Action.Keeps.bind (.pure rfl) fun d hd => .pure (hd ▸ hid)

/-- What a search shows of a record. -/
def Search.Shows (x : Search) (env : Surroundings) (s : Service) (c : CompiledEntity) (draft : Bool)
    (b : Backend) (record : Record) (d : Document) : Prop :=
  (Action.runOn env (s.reveal c draft x.selection x.access (Record.sanitize record)) b).1 = .ok d

variable {x x' : Search}

/-- A document is shown under the id of its record. -/
theorem Search.Shows.id_eq {record : Record} {d : Document} (h : x.Shows env s c draft b record d) :
    Record.id? record = some d.id :=
  (keeps_reveal (I := fun _ => True) record b trivial).2 d h

/-- The documents of a page are what is shown of the records at its place. -/
theorem Search.For.forall₂_shows (h : x.For env s slug c params b page) :
    List.Forall₂ (x.Shows env s c params.draft b)
      (Store.slice x.found (some (s.paginationFor params.page params.limit))) page.docs := by
  have hdocs := h.docs
  rw [List.mapM_map] at hdocs
  refine (Action.forall₂_of_runOn_mapM (I := (· = b)) (fun record => ?_) rfl hdocs).imp ?_
  · exact (keeps_reveal record).imp fun _ _ => trivial
  · rintro record d ⟨_, rfl, hrun⟩
    exact hrun

/-- **All pages come from the same search.** -/
theorem Search.For.unique (h : x.For env s slug c params b page) {number : Option Nat}
    (h' : x'.For env s slug c { params with page := number } b page') : x' = x := by
  have haccess : x'.access = x.access := Except.ok.inj (h'.access.symm.trans h.access)
  have hselection : x'.selection = x.selection := Except.ok.inj (h'.selection.symm.trans h.selection)
  have hclause : x'.clause = x.clause := Except.ok.inj (h'.clause.symm.trans h.clause)
  have hheld : x'.held = x.held := Option.some.inj (h'.held.symm.trans h.held)
  have hfound' := h'.found
  rw [query, filter, haccess, hselection, hclause, hheld] at hfound'
  have hfound : x'.found = x.found := Except.ok.inj (hfound'.symm.trans h.found)
  exact Search.ext haccess hselection hclause hheld hfound

/-- **The pages of a listing, one behind the other, show all records that are found.** -/
theorem Search.For.forall₂_listing {pageAt : Nat → Page Document}
    (hfew : x.held.records.length ≤ wordMax)
    (hpages : ∀ k, 1 ≤ k → k ≤ (pageAt 1).totalPages →
      x.For env s slug c { params with page := some k } b (pageAt k)) :
    List.Forall₂ (x.Shows env s c params.draft b) x.found
      ((List.range (pageAt 1).totalPages).flatMap fun i => (pageAt (i + 1)).docs) := by
  have hfirst := hpages 1 (Nat.le_refl 1) (pageAt 1).one_le_totalPages
  generalize hlimit : max (s.limits.clamp params.limit) 1 = limit
  have hpos : 1 ≤ limit := hlimit ▸ Nat.le_max_right _ _
  have hpagination (k : Nat) : s.paginationFor (some k) params.limit = .of k limit := by
    simp [paginationFor, Pagination.of, ← hlimit]
  have hlength : x.found.length ≤ x.held.records.length :=
    Store.length_select hfirst.found ▸ List.length_filter_le _ _
  have hrange : List.Forall₂ (fun i j => i = j ∧ i < (pageAt 1).totalPages)
      (List.range (pageAt 1).totalPages) (List.range (pageAt 1).totalPages) :=
    List.forall₂_same.2 fun i hi => ⟨rfl, List.mem_range.1 hi⟩
  have hpieces : List.Forall₂ (x.Shows env s c params.draft b)
      ((List.range (pageAt 1).totalPages).flatMap fun i => (x.found.drop (i * limit)).take limit)
      ((List.range (pageAt 1).totalPages).flatMap fun i => (pageAt (i + 1)).docs) := by
    refine List.rel_flatMap hrange ?_
    rintro i _ ⟨rfl, hi⟩
    have hpage := (hpages (i + 1) (Nat.le_add_left 1 i) hi).forall₂_shows
    rwa [hpagination, Store.slice_of (Nat.le_trans hlength hfew) i hpos] at hpage
  -- All results lie on these pages, also if the total is only estimated.
  have hall : x.found.length ≤ (pageAt 1).totalPages * limit := by
    have htotal : x.found.length ≤ (pageAt 1).totalDocs := by
      rw [hfirst.totalDocs]
      split
      · exact hlength
      · exact Nat.le_refl _
    have hpage : (pageAt 1).limit = limit := by
      rw [hfirst.limit, hpagination]
      exact Nat.max_eq_left hpos
    have hend := Page.lt_totalPages_iff (p := pageAt 1) (hpage.symm ▸ hpos)
      (pageAt 1).one_le_totalPages
    rw [hpage] at hend
    exact Nat.le_trans htotal (Nat.le_of_not_lt fun hlt => Nat.lt_irrefl _ (hend.2 hlt))
  rwa [Store.flatMap_pieces, List.take_of_length_le hall] at hpieces

/-! ### Looking up by id -/

/-- The clause on an id decides every record whose own id is no timestamp. -/
theorem holds_id_of_plain {r : Record} {own id : String} (hown : Record.id? r = some own)
    (hplain : Time.readStrict? own = none) :
    (Predicate.compare "id" .equals (.str id)).holds r = .ok (Record.id? r == some id) := by
  have hpath : Path.segments "id" = ["id"] := rfl
  have hvalue : Record.resolve r "id" = [.str own] := by
    rw [Record.resolve_name hpath]
    unfold Record.id? at hown
    obtain ⟨v, hv, htext⟩ := Option.bind_eq_some_iff.1 hown
    cases v with
    | str text =>
      cases htext
      rw [hv]
      rfl
    | null | bool _ | num _ | arr _ | obj _ => cases htext
  rw [Predicate.holds_equals_text hvalue hplain, hown]
  rfl

/-- What is asked of the store for the document with an id, within the same access and locale. -/
def Search.single (x : Search) (slug id : String) : Query :=
  ⟨slug, (withScope (some (.compare "id" .equals (.str id))) x.access).map
    (·.mapPaths (Store.storedPath x.held.localizedPaths (localeOf x.selection))), localeOf x.selection⟩

/-- A collection of which every record has an id of its own that is no timestamp, the same in every
locale. -/
structure WellNamed (held : Collection) : Prop where
  distinct : (held.records.map Record.id?).Nodup
  plain : ∀ r ∈ held.records, ∃ own, Record.id? r = some own ∧ Time.readStrict? own = none
  unlocalized : "id" ∉ held.localizedPaths

/-- What the look-up asks of a record: the id, and what the listing asks of it. -/
theorem Search.For.holdsFor_single (hx : x.For env s slug c params b page) (hclause : x.clause = none)
    (hnamed : WellNamed x.held) (id : String) {r : Record} (hr : r ∈ x.held.records) :
    Predicate.holdsFor (x.single slug id).filter r =
      .ok ((Record.id? r == some id) && Predicate.selects (x.query slug).filter r) := by
  obtain ⟨matched, hmatched, -⟩ := Except.bind_eq_ok_iff.1 hx.found
  obtain ⟨own, hown, hplain⟩ := hnamed.plain r hr
  refine holdsFor_withScope ?_ ?_
  · rw [Predicate.mapPaths_compare, Store.storedPath_name (by decide) (by decide) hnamed.unlocalized]
    exact holds_id_of_plain hown hplain
  · have hlisted := Store.holdsFor_of_matching hmatched r hr
    rw [← hlisted, Search.query, Search.filter, hclause]

omit [PatternEngine] in
/-- Lists of one item at most have the same head if they are permutations. -/
theorem head?_eq_of_perm {α : Type} {xs ys : List α} (h : xs.Perm ys) (hone : ys.length ≤ 1) :
    ys.head? = xs.head? := by
  match ys, hone with
  | [], _ => rw [h.eq_nil]
  | [y], _ => rw [List.perm_singleton.1 h]

/-- **The store finds the record with an id that the listing finds,** or none. -/
theorem Search.For.findOne_single (hx : x.For env s slug c params b page) (hclause : x.clause = none)
    (hnamed : WellNamed x.held) (id : String) :
    b.store.findOne (x.single slug id) (.sortedBy []) =
      .ok ((x.found.find? (Record.id? · == some id)).map Record.sanitize) := by
  have hperm : (x.found.filter (Record.id? · == some id)).Perm (x.held.records.filter fun r =>
      (Record.id? r == some id) && Predicate.selects (x.query slug).filter r) := by
    rw [← List.filter_filter, Store.eq_sortStably_of_select hx.found]
    exact (perm_sortStably _ _).filter _
  have hone : (x.held.records.filter fun r =>
      (Record.id? r == some id) && Predicate.selects (x.query slug).filter r).length ≤ 1 := by
    have hcount := List.nodup_iff_count_le_one.1 hnamed.distinct (some id)
    rw [List.count, List.countP_map, List.countP_eq_length_filter] at hcount
    refine Nat.le_trans ?_ hcount
    exact (List.monotone_filter_right _ fun r hr => (Bool.and_eq_true_iff.1 hr).1).length_le
  obtain ⟨found, hfound, hsame⟩ := Store.select_unique (q := x.single slug id) (.sortedBy [])
    (List.forall₂_same.2 fun _ _ => rfl)
    (fun r y hy hry => hry ▸ hx.holdsFor_single hclause hnamed id (hry ▸ hy)) hone
  rw [List.forall₂_eq_eq_eq] at hsame
  rw [Store.findOne_of_select hx.held hfound, hsame, head?_eq_of_perm hperm hone, List.head?_filter]
  rfl

/-- **The document with an id is that of the listing,** or there is none. -/
theorem findById_of_search (hserving : b.refused = []) (hc : s.registry.collection slug = .ok c)
    (hx : x.For env s slug c params b page) (hclause : x.clause = none) (hnamed : WellNamed x.held)
    (id : String) :
    (Action.runOn env (s.findById slug id ⟨params.draft, params.locale, params.fallbackLocale⟩) b).1 =
      match x.found.find? (Record.id? · == some id) with
      | none => .error (.documentNotFound slug id)
      | some r =>
        (Action.runOn env (s.reveal c params.draft x.selection x.access (Record.sanitize r)) b).1 := by
  have hquery : Action.runOn env (onStore (Action.buildQuery slug
      (withScope (some (.compare "id" .equals (.str id))) x.access) (localeOf x.selection))) b =
        (.ok (x.single slug id), b) := by
    apply runOn_onStore
    rw [Action.runOn_buildQuery hserving, Store.buildQuery_of_get? hx.held]
    rfl
  have hanswer : Action.runOn env (onStore (Action.findOne (x.single slug id) (.sortedBy []))) b =
      (.ok ((x.found.find? (Record.id? · == some id)).map Record.sanitize), b) := by
    apply runOn_onStore
    rw [Action.runOn_findOne hserving, hx.findOne_single hclause hnamed]
  unfold findById
  rw [Action.runOn_bind_ok (Action.runOn_ofExcept_ok hc),
    Action.runOn_bind_ok (Action.runOn_ofExcept_ok hx.access),
    Action.runOn_bind_ok (Action.runOn_ofExcept_ok hx.selection)]
  dsimp only
  rw [Action.runOn_bind_ok hquery, Action.runOn_bind_ok hanswer]
  cases x.found.find? (Record.id? · == some id) with
  | none => rfl
  | some r => rfl

/-! ### The listing -/

/-- On a backend that is reached the records of a collection are named well, if ids are not localized and
the drawn ones are no timestamps. -/
theorem Reachable.wellNamed (hreach : Reachable env registry config b)
    (hvalid : config.validate = .ok ()) (hbuild : Registry.build config = .ok registry)
    (hplain : ∀ n, Time.readStrict? (env.ids n) = none) (hc : registry.collection slug = .ok c)
    (hid : "id" ∉ c.localizedPaths) {held : Collection}
    (hheld : Table.get? slug b.store.collections = some held) : WellNamed held := by
  have hrecords := Store.recordsOf_of_get? hheld
  refine ⟨hrecords ▸ hreach.identified.distinct slug, fun r hr => ?_, ?_⟩
  · obtain ⟨k, _, hk⟩ := hreach.drawn slug r (hrecords ▸ hr)
    exact ⟨_, hk, hplain k⟩
  · exact ((hreach.dated hvalid hbuild hc hid).store slug held hheld).1 rfl

/-- Records that are found have different ids. -/
theorem Search.For.nodup_found (hx : x.For env s slug c params b page) (hnamed : WellNamed x.held) :
    (x.found.map Record.id?).Nodup := by
  rw [Store.eq_sortStably_of_select hx.found, ((perm_sortStably _ _).map _).nodup_iff]
  exact hnamed.distinct.sublist (List.filter_sublist.map _)

/-- What is shown of the records has their ids. -/
theorem Search.map_id_of_shows {records : List Record} {docs : List Document}
    (h : List.Forall₂ (x.Shows env s c draft b) records docs) :
    records.map Record.id? = (docs.map (·.id)).map some := by
  induction h with
  | nil => rfl
  | cons hr _ ih => rw [List.map_cons, List.map_cons, List.map_cons, hr.id_eq, ih]

/-- **A document of the listing is found by its id, and no other.** -/
theorem findById_of_shows (hserving : b.refused = []) (hc : s.registry.collection slug = .ok c)
    (hx : x.For env s slug c params b page) (hclause : x.clause = none) (hnamed : WellNamed x.held)
    {listed : List Document} (hshown : List.Forall₂ (x.Shows env s c params.draft b) x.found listed)
    (id : String) :
    let read := (Action.runOn env (s.findById slug id
      ⟨params.draft, params.locale, params.fallbackLocale⟩) b).1
    (read = .error (.documentNotFound slug id) ∧ id ∉ listed.map (·.id)) ∨
      ∃ d ∈ listed, d.id = id ∧ read = .ok d := by
  intro read
  have hanswer : read = _ := findById_of_search hserving hc hx hclause hnamed id
  cases hfound : x.found.find? (Record.id? · == some id) with
  | none =>
    rw [hfound] at hanswer
    refine Or.inl ⟨hanswer, fun hmem => ?_⟩
    have hthere : some id ∈ x.found.map Record.id? := by
      rw [Search.map_id_of_shows hshown]
      exact List.mem_map_of_mem hmem
    obtain ⟨r, hr, hid⟩ := List.mem_map.1 hthere
    exact List.find?_eq_none.1 hfound r hr (beq_iff_eq.2 hid)
  | some r =>
    rw [hfound] at hanswer
    obtain ⟨d, hd, hshows⟩ := exists_item_of_mem hshown (List.mem_of_find?_eq_some hfound)
    have hid : Record.id? r = some id := by simpa using List.find?_some hfound
    exact Or.inr ⟨d, hd, Option.some.inj (hshows.id_eq.symm.trans hid), hanswer.trans hshows⟩

/-- **A listing and single reads agree.**  Let a search without a where-clause succeed on all of its pages,
on a backend that has been reached and refuses nothing.  The documents on these pages have different ids,
and the document with an id is found exactly if it is one of them, shown as it is there; for all other ids
there is no document.  (The number of records has to fit into a word, as it does in memory.) -/
theorem listing_agrees (hvalid : config.validate = .ok ()) (hbuild : Registry.build config = .ok registry)
    (hplain : ∀ n, Time.readStrict? (env.ids n) = none) (hreach : Reachable env registry config b)
    (hserving : b.refused = []) (hc : registry.collection slug = .ok c) (hid : "id" ∉ c.localizedPaths)
    (hfew : (b.store.recordsOf slug).length < 2 ^ 63) (hfilter : params.filter = none)
    {pageAt : Nat → Page Document}
    (hpages : ∀ k, 1 ≤ k → k ≤ (pageAt 1).totalPages →
      (Action.runOn env ((ofRegistry registry config).find slug { params with page := some k }) b).1 =
        .ok (pageAt k)) :
    let listed := (List.range (pageAt 1).totalPages).flatMap fun i => (pageAt (i + 1)).docs
    let read (id : String) := (Action.runOn env ((ofRegistry registry config).findById slug id
      ⟨params.draft, params.locale, params.fallbackLocale⟩) b).1
    (listed.map (·.id)).Nodup ∧
      (∀ id d, read id = .ok d ↔ d ∈ listed ∧ d.id = id) ∧
      ∀ id, id ∉ listed.map (·.id) → read id = .error (.documentNotFound slug id) := by
  intro listed read
  have hc' : (ofRegistry registry config).registry.collection slug = .ok c := hc
  obtain ⟨x, hx⟩ := exists_search hc' (hpages 1 (Nat.le_refl 1) (pageAt 1).one_le_totalPages)
  have hclause : x.clause = none := by
    have hread := hx.clause
    rw [hfilter] at hread
    exact (Except.ok.inj hread).symm
  have hnamed := hreach.wellNamed hvalid hbuild hplain hc hid hx.held
  have hsame : ∀ k, 1 ≤ k → k ≤ (pageAt 1).totalPages →
      x.For env (ofRegistry registry config) slug c { params with page := some k } b (pageAt k) := by
    intro k hk hlast
    obtain ⟨y, hy⟩ := exists_search hc' (hpages k hk hlast)
    exact hx.unique hy ▸ hy
  have hword : x.held.records.length ≤ wordMax := by
    rw [Store.recordsOf_of_get? hx.held] at hfew
    exact Nat.le_of_lt (Nat.lt_trans hfew (by decide))
  have hshown := Search.For.forall₂_listing hword hsame
  have hdistinct : (listed.map (·.id)).Nodup := by
    have hfound := hx.nodup_found hnamed
    rw [Search.map_id_of_shows hshown] at hfound
    exact hfound.of_map
  have hread (id : String) : (read id = .error (.documentNotFound slug id) ∧
      id ∉ listed.map (·.id)) ∨ ∃ d ∈ listed, d.id = id ∧ read id = .ok d :=
    findById_of_shows hserving hc' hx hclause hnamed hshown id
  refine ⟨hdistinct, fun id d => ?_, fun id hnone => ?_⟩
  · rcases hread id with ⟨hmissing, hnone⟩ | ⟨found, hfound, rfl, hread⟩
    · rw [hmissing]
      refine ⟨nofun, fun ⟨hd, hid⟩ => ?_⟩
      exact absurd (List.mem_map.2 ⟨d, hd, hid⟩) hnone
    · rw [hread]
      refine ⟨fun h => ?_, fun ⟨hd, hid⟩ => ?_⟩
      · cases h
        exact ⟨hfound, rfl⟩
      · rw [List.inj_on_of_nodup_map hdistinct hd hfound hid]
  · rcases hread id with ⟨hmissing, -⟩ | ⟨found, hfound, rfl, -⟩
    · exact hmissing
    · exact absurd (List.mem_map_of_mem hfound) hnone

end

/-! Tasks with drafts, of which readers see those that are not called `secret`. -/

def tasks : Entity :=
  { (Entity.ofFields "tasks" [Field.ofKind "name" .text]).withDrafts with
    read := .scope (.obj [("name", .obj [("not_equals", .str "secret")])]) }

def tasksConfig : Config :=
  ⟨[tasks], [], none, .standard, .standard⟩

def tasksRegistry : Registry :=
  (Registry.build tasksConfig).toOption.getD ⟨[], []⟩

/-- The backends that are reached with tasks. -/
abbrev TasksReached : Type :=
  { b : Backend // Reachable .backward tasksRegistry tasksConfig b }

/-- A task is created. -/
def withTask (b : TasksReached) (name : String) : TasksReached :=
  ⟨_, b.2.created "tasks" ⟨false, none⟩ (List.pairwise_singleton _ ("name", Json.str name))⟩

/-- The draft of a task is saved. -/
def withDraft (b : TasksReached) (id name : String) : TasksReached :=
  ⟨_, b.2.updated "tasks" id ⟨true, none⟩ (List.pairwise_singleton _ ("name", Json.str name))⟩

/-- Three tasks, and a draft of the first one. -/
def tasksReached : TasksReached :=
  withDraft (withTask (withTask (withTask ⟨_, Reachable.empty.started⟩ "sow") "secret") "reap") "n" "mow"

/-- The pages of one task each, with drafts. -/
def tasksPage (k : Nat) : Except ServiceError (Page Document) × Backend :=
  Action.runOn .backward ((ofRegistry tasksRegistry tasksConfig).find "tasks"
    ⟨none, [], some k, some 1, true, none, none⟩) tasksReached.1

def readTask (id : String) : Except ServiceError Document × Backend :=
  Action.runOn .backward ((ofRegistry tasksRegistry tasksConfig).findById "tasks" id ⟨true, none, none⟩)
    tasksReached.1

/-- The number of the pages, and the ids and names on the first two. -/
def tasksListed (first second : Page Document) : Nat × List String × List (Option String) :=
  let docs := first.docs ++ second.docs
  (first.totalPages, docs.map (·.id), docs.map fun d => (Table.get? "name" d.data).bind Json.asString?)

/-- The draft and the task that is no secret are on two pages, and both are found by their ids; the secret
is not. -/
theorem listing_agrees_tasks : ∃ first second,
    (tasksPage 1).1 = .ok first ∧ (tasksPage 2).1 = .ok second ∧
    tasksListed first second = (2, ["n0000", "n"], [some "reap", some "mow"]) ∧
    (∀ id d, (readTask id).1 = .ok d ↔ d ∈ first.docs ++ second.docs ∧ d.id = id) ∧
    (readTask "n00").1 = .error (.documentNotFound "tasks" "n00") := by
  have hbuild : Registry.build tasksConfig = .ok tasksRegistry := rfl
  obtain ⟨c, hcompile, hregistry⟩ := Registry.build_singleton (e := tasks) rfl rfl hbuild
  have hc : tasksRegistry.collection "tasks" = .ok c := by
    rw [hregistry]
    rfl
  have hid : "id" ∉ c.localizedPaths := by
    rw [(CompiledEntity.of_compile hcompile).2.2]
    decide
  obtain ⟨hserving, hfew, hanswers⟩ : tasksReached.1.refused = [] ∧
      (tasksReached.1.store.recordsOf "tasks").length < 2 ^ 63 ∧
      (tasksPage 1).1.toOption.bind (fun first => (tasksPage 2).1.toOption.map (tasksListed first)) =
        some (2, ["n0000", "n"], [some "reap", some "mow"]) := by decide +kernel
  obtain ⟨first, hfirst, hanswers⟩ := Option.bind_eq_some_iff.1 hanswers
  obtain ⟨second, hsecond, hanswers⟩ := Option.map_eq_some_iff.1 hanswers
  obtain ⟨hlast, hlisted⟩ := Prod.mk.inj hanswers
  have hfirst := Except.eq_ok_of_toOption hfirst
  have hsecond := Except.eq_ok_of_toOption hsecond
  let pageAt (k : Nat) : Page Document := if k = 1 then first else second
  let params : FindParams := ⟨none, [], none, some 1, true, none, none⟩
  have hpages : ∀ k, 1 ≤ k → k ≤ (pageAt 1).totalPages → (Action.runOn .backward
      ((ofRegistry tasksRegistry tasksConfig).find "tasks" { params with page := some k })
        tasksReached.1).1 = .ok (pageAt k) := by
    intro k hk hle
    rw [show (pageAt 1).totalPages = 2 from hlast] at hle
    obtain rfl | rfl : k = 1 ∨ k = 2 := by omega
    · exact hfirst
    · exact hsecond
  have hvalid : tasksConfig.validate = .ok () := rfl
  obtain ⟨-, hread, hmissing⟩ := listing_agrees hvalid hbuild Surroundings.proper_backward.plain
    tasksReached.2 hserving hc hid hfew rfl hpages
  have hdocs : (List.range (pageAt 1).totalPages).flatMap (fun i => (pageAt (i + 1)).docs) =
      first.docs ++ second.docs := by
    rw [show (pageAt 1).totalPages = 2 from hlast]
    simp [List.range_succ, pageAt]
  rw [hdocs] at hread hmissing
  refine ⟨first, second, hfirst, hsecond, hanswers, hread, hmissing "n00" ?_⟩
  rw [(Prod.mk.inj hlisted).1]
  decide

end Service

end HeadlessCms
