import HeadlessCms.Proofs.Query.Operands
import HeadlessCms.Proofs.Service.Searching
import HeadlessCms.Proofs.Service.Singletons
import HeadlessCms.Proofs.Service.Timing

/-!
# How a search is answered

The collections of a service stay declared once it has been started (`Service.Later.declares`), and
whatever is stored reads as a document, and as a version where only versions are stored
(`Service.Later.readable`).  So a search of a collection that everybody may read fails in three ways
only: the where-clause is none, the where-clause does not fit the collection, or its decision reaches a
constraint whose operand has not the form of its operator (`Service.find_answered`).  The checks of
where-clauses do not look at this form, and the engine that compiles the words of a pattern may refuse
one.

What is found is sorted.  A library sort needs comparisons that agree, so the keys that a search names
have to order what it finds (`Service.Sortable`); by its times every list of records is ordered.
-/

namespace HeadlessCms

open Time (Instant)

/-! ### Collections stay declared -/

namespace Store

variable {s : Store} {name : String}

/-- What is declared is there. -/
theorem declares_declare {names : List (String × List String)} (h : name ∈ names.map (·.1)) :
    (s.declare names).Declares name := by
  induction names generalizing s with
  | nil => cases h
  | cons n rest ih =>
    by_cases hlater : name ∈ rest.map (·.1)
    · exact ih hlater
    · obtain rfl : name = n.1 := (List.mem_cons.1 h).resolve_right hlater
      exact ⟨_, (get?_declare_of_notMem hlater).trans (get?_register s n.1 n.2)⟩

end Store

namespace Service

variable [PatternEngine]
variable {env : Surroundings} {config : Config} {registry : Registry} {b b' : Backend}

/-- **What starts and requests keep lasts.** -/
theorem Later.invariant {I : Backend → Prop} (hlater : Later env registry config b b') (hb : I b)
    (hstart : Action.Keeps env I (start registry config) fun _ => True)
    (hrun : ∀ request : WriteRequest,
      Action.Keeps env I (request.run (ofRegistry registry config)) fun _ => True)
    (hrefusing : ∀ (b : Backend) (methods : List Method), I b → I { b with refused := methods }) :
    I b' := by
  induction hlater with
  | same => exact hb
  | started _ ih => exact (hstart _ ih).1
  | requested _ request _ ih => exact (hrun request _ ih).1
  | refusing _ methods ih => exact hrefusing _ methods ih

/-- The backend of a service that has just been started. -/
def startedBackend (env : Surroundings) (registry : Registry) (config : Config) : Backend :=
  (Action.runOn env (start registry config) .empty).2

/-- **The collections of a service stay declared.** -/
theorem Later.declares (hlater : Later env registry config (startedBackend env registry config) b)
    {name : String} (hname : name ∈ (storeCollections registry).map (·.1)) :
    b.store.Declares name := by
  refine hlater.invariant ?_ (Action.keeps_declares env _)
    (fun _ => Action.keeps_declares env _) fun _ _ hb => hb
  rw [startedBackend, runOn_start rfl]
  exact Store.declares_declare hname

/-- **The records of a service stay numbered in their order.** -/
theorem Later.numbered (hlater : Later env registry config (startedBackend env registry config) b) :
    b.store.Numbered :=
  hlater.invariant (I := fun b => b.store.Numbered) (Store.numbered_empty.run _)
    (fun _ hb => ⟨hb.run _, fun _ _ => trivial⟩)
    (fun _ _ hb => ⟨hb.run _, fun _ _ => trivial⟩) fun _ _ hb => hb

end Service

/-! ### Records stay readable -/

/-- A backend that has handed out only times that can be written and read back. -/
def Backend.Timely (env : Surroundings) (b : Backend) : Prop :=
  ∀ n < b.clock.taken, (Clock.times env.readings n).Storable

theorem Backend.Timely.mono {env : Surroundings} {b b' : Backend} (h : b'.Timely env)
    (hle : b.clock.taken ≤ b'.clock.taken) : b.Timely env :=
  fun n hn => h n (Nat.lt_of_lt_of_le hn hle)

/-- A record that tells proper times and reads as a document, and as a version where it has to. -/
structure Record.Readable (version : Prop) (r : Record) : Prop where
  timed : r.Timed
  document : ∃ d, Document.ofRecord (sanitize r) = .ok d
  version : version → ∃ v, Version.ofRecord (sanitize r) = .ok v

/-- All records are readable, those of some collections as versions. -/
def Store.readableLaw (versions : String → Prop) : Store.Law where
  paths _ _ := True
  record name r := r.Readable (versions name)

namespace Service

section

variable [PatternEngine] {env : Surroundings} {config : Config} {registry : Registry} {s : Service}
  {slug collection : String} {c : CompiledEntity} {b : Backend} {existing : Option Document}
  {versions : String → Prop}

/-- What keeps records readable does so while the times can be read back. -/
theorem keeps_while_timely {ε α : Type} {a : Action ε α} {law : Store.Law} {P : α → Prop}
    (h : Action.Keeps env (Backend.Lawful env law) a P) :
    Action.Keeps env (fun b => b.Timely env → b.Lawful env law) a fun _ => True :=
  fun b hb => ⟨fun htimes => (h b (hb (htimes.mono (Action.taken_le_runOn env a b)))).1,
    fun _ _ => trivial⟩

/-- Storing a document keeps records readable, if its times can be read back and it is
no version. -/
theorem keeps_store_readable {draft : Bool} {createdAt updatedAt : Option Instant} {data : Record}
    (hdocs : ¬ versions collection) (hdata : Record.IsBare data)
    (hcreated : ∀ t ∈ createdAt, t.Storable) (hupdated : ∀ t ∈ updatedAt, t.Storable) :
    Action.Keeps env (Backend.Lawful env (Store.readableLaw versions))
      (store collection existing draft createdAt updatedAt data) fun _ => True := by
  have hstored (id : String) : Document.Restorable ⟨id, createdAt, updatedAt, data⟩ :=
    ⟨hdata, hcreated⟩
  have htimed (id : String) : Record.Timed (Document.toRecord ⟨id, createdAt, updatedAt, data⟩) :=
    Document.timed_toRecord hdata (fun t ht => (hcreated t ht).regular)
      fun t ht => (hupdated t ht).regular
  refine keeps_store_of_writes (fun id => .update fun sequence revision => ?_)
    (.insert (Record.id?_erase_id _) fun n sequence => ?_)
  · exact ⟨Store.timed_stamp (htimed id),
      (hstored id).exists_read_stamp hupdated (fun _ _ => rfl) _ _ _,
      fun hversions => absurd hversions hdocs⟩
  · exact ⟨Store.timed_stamp (htimed "").erase_id, (hstored "").exists_read_stamp hupdated
      (fun key hkey => by rw [Table.get?_erase, if_neg hkey]) _ _ _,
      fun hversions => absurd hversions hdocs⟩

/-- **Saves leave readable records,** if documents do not go where only versions are expected. -/
theorem keeps_save_readable (hdocs : ¬ versions collection)
    (hexisting : ∀ d ∈ existing, d.Restorable) (patch : Record) (params : SaveParams) :
    Action.Keeps env (fun b => b.Timely env → b.Lawful env (Store.readableLaw versions))
      (s.save c collection existing patch params) fun _ => True := by
  intro b hb
  refine ⟨fun htimes => ?_, fun _ _ => trivial⟩
  rcases takes_time_or_idle env s c collection existing patch params with
    ⟨selection, hselect, hwrite⟩ | hidle
  · have htaken : b.clock.taken <
        (Action.runOn env (s.save c collection existing patch params) b).2.clock.taken :=
      taken_lt_save hselect hwrite
    obtain ⟨hnext, hmoved⟩ := (hb (htimes.mono (Nat.le_of_lt htaken))).next
    have htime : (b.clock.next env.readings).1.Storable := hnext ▸ htimes _ htaken
    refine left_save_of_steps hselect hwrite (B := Record.IsBare) (D := fun _ => True) hmoved
      ((keeps_baseOf_bare hexisting _).imp fun _ hbase => hbase.1) (fun base hbase => ?_)
      fun _ saved status _ => History.keeps_save_lawful fun n sequence =>
        ⟨Store.timed_stamp (History.timed_newRecord htime.regular _ _ _ _),
          History.exists_document_stamp htime _ _ _ _ _ _ _,
          fun _ => History.exists_read_stamp htime _ _ _ _ _ _ _⟩
    exact keeps_store_readable hdocs (isBare_patched hbase patch _)
      (of_mem_timestamp fun _ => storable_creationOf hexisting htime _ (Option.mem_some_self _))
      (of_mem_timestamp fun _ => htime)
  · rw [hidle] at htimes ⊢
    exact hb htimes

/-- **What is stored stays readable.** -/
theorem Later.readable (hdocs : ∀ request : WriteRequest, ∀ other,
      request.entity (ofRegistry registry config) = .ok other → ¬ versions request.collection)
    (hlater : Later env registry config (startedBackend env registry config) b)
    (htimes : b.Timely env) : b.Lawful env (Store.readableLaw versions) := by
  have hstart : Action.Keeps env (Backend.Lawful env (Store.readableLaw versions))
      (start registry config) fun _ => True :=
    ((keeps_declare fun _ _ _ => trivial).mapError _).bind fun _ _ => .pure trivial
  refine hlater.invariant (I := fun b => b.Timely env → b.Lawful env (Store.readableLaw versions))
    (fun _ => (hstart .empty ⟨Store.obeys_empty _, 0, rfl⟩).1) (keeps_while_timely hstart)
    (fun request => WriteRequest.keeps_run fun other hother existing hexisting => ?_)
    (fun b methods hb htimes => ⟨(hb htimes).store, (hb htimes).clock⟩) htimes
  exact keeps_save_readable (hdocs request other hother) hexisting _ _

/-- **The versions of a collection stay readable,** if no other collection has their name or nobody
looks at them. -/
theorem Later.readable_versions {looked : Prop} (hbuild : Registry.build config = .ok registry)
    (hlater : Later env registry config (startedBackend env registry config) b)
    (htimes : b.Timely env)
    (hapart : looked → ∀ e ∈ config.collections, e.slug ≠ c.entity.versionsCollection) :
    b.Lawful env (Store.readableLaw fun name =>
      looked ∧ name = c.entity.versionsCollection) := by
  refine hlater.readable (fun request other hother hname => ?_) htimes
  obtain ⟨hlooked, hname⟩ := hname
  have hne {slug' : String} (hother : registry.collection slug' = .ok other) :
      slug' ≠ c.entity.versionsCollection := by
    obtain ⟨e, he, rfl, -⟩ := Registry.compiles_of_collection hbuild hother
    exact hapart hlooked e he
  cases request with
  | create slug' data params => exact hne hother hname
  | update slug' id patch params => exact hne hother hname
  | saveGlobal slug' data params => exact c.entity.versionsCollection_ne_globals hname.symm

/-! ### What a search may run into -/

/-- The clause for the drafts of a document can be decided on all records. -/
theorem evaluable_newerThan {kind : EntityKind} {id : String} {t : Instant} {k : Constraint}
    (h : k ∈ (Draft.newerThan kind id t).leaves) : k.Evaluable := by
  unfold Draft.newerThan at h
  cases kind <;> simp [Predicate.leaves, Predicate.leavesOf, Predicate.compare] at h
  · rcases h with rfl | rfl | rfl <;> trivial
  · rcases h with rfl | rfl <;> trivial

/-- **A document is always shown as its newest draft,** if its versions are declared and can be
read. -/
theorem exists_runOn_resolve (env : Surroundings) (hserving : b.refused = [])
    (hdeclared : b.store.Declares c.entity.versionsCollection)
    (hreadable : ∀ r ∈ b.store.recordsOf c.entity.versionsCollection,
      ∃ v, Version.ofRecord (Record.sanitize r) = .ok v)
    (doc : Document) (locale : Option String) :
    ∃ shown, Action.runOn env (Draft.resolve c.entity c.kind doc locale .unrestricted) b =
      (.ok shown, b) := by
  obtain ⟨held, hheld⟩ := hdeclared
  rw [Store.recordsOf_of_get? hheld] at hreadable
  unfold Draft.resolve
  split
  · next t _ hupdated =>
    let wanted := Draft.clause c.kind doc.id t .unrestricted
    let stored (p : Predicate) := p.mapPaths (Store.storedPath held.localizedPaths locale)
    have hevaluable : ∀ p ∈ (some wanted).map stored, ∀ k ∈ p.leaves, k.Evaluable := by
      rintro p hp
      cases hp
      exact Predicate.evaluable_mapPaths (fun _ => evaluable_newerThan) _
    obtain ⟨found, hfound⟩ := Store.exists_select_of_evaluable held
      (q := ⟨c.entity.versionsCollection, (some wanted).map stored, locale⟩)
      (Draft.options wanted) hevaluable
    rw [if_neg (by decide)]
    dsimp only
    rw [Action.runOn_bind_ok ((Action.runOn_buildQuery hserving _ _ _).trans
        (congrArg (·, b) (Store.buildQuery_of_get? hheld _ _))),
      Action.runOn_bind_ok ((Action.runOn_findOne hserving _ _).trans
        (congrArg (·, b) (Store.findOne_of_select hheld hfound)))]
    cases hfirst : found.head? with
    | none => exact ⟨doc, rfl⟩
    | some r =>
      obtain ⟨v, hread⟩ := hreadable r (Store.mem_select hfound (List.mem_of_head? hfirst)).1
      refine ⟨Draft.overlay doc v, ?_⟩
      have hversion : Action.runOn env (Action.ofExcept
          ((Version.ofRecord (Record.sanitize r)).mapError StoreError.mismatch)) b = (.ok v, b) :=
        Action.runOn_ofExcept_ok (congrArg (Except.mapError StoreError.mismatch) hread)
      exact Action.runOn_bind_ok hversion _
  · exact ⟨doc, rfl⟩

/-- **A record that has been found is shown,** if it reads as a document and, where drafts are shown,
the versions can be looked at. -/
theorem exists_runOn_reveal (env : Surroundings) (hserving : b.refused = []) {draft : Bool}
    {record : Record} (hdocument : ∃ d, Document.ofRecord record = .ok d)
    (hversions : (draft && c.entity.hasDrafts) = true →
      b.store.Declares c.entity.versionsCollection ∧
        ∀ r ∈ b.store.recordsOf c.entity.versionsCollection,
          ∃ v, Version.ofRecord (Record.sanitize r) = .ok v)
    (selection : Option LocaleSelection) :
    ∃ d, Action.runOn env (s.reveal c draft selection .unrestricted record) b = (.ok d, b) := by
  obtain ⟨doc, hdoc⟩ := hdocument
  have hread : Action.runOn env (documentOf record) b = (.ok doc, b) :=
    Action.runOn_ofExcept_ok (congrArg (Except.mapError ServiceError.mismatch) hdoc)
  unfold reveal
  rw [Action.runOn_bind_ok hread]
  unfold present
  split
  · next hdraft =>
    obtain ⟨hdeclared, hreadable⟩ := hversions hdraft
    obtain ⟨shown, hshown⟩ := exists_runOn_resolve env hserving hdeclared hreadable doc
      (localeOf selection)
    rw [onStore, Action.runOn_bind_ok (Action.runOn_mapError_ok hshown _)]
    exact ⟨_, rfl⟩
  · exact ⟨_, rfl⟩

/-! ### What a search can sort -/

/-- The records that a search finds can be sorted as it asks: under each key that it names, their
comparisons agree.  Where they do not, a library sort is free to fail. -/
def Sortable (c : CompiledEntity) (held : Collection) (selection : Option LocaleSelection)
    (params : FindParams) : Prop :=
  ∀ clause matched, readWhere c.whereSchema params.filter = .ok clause →
    Store.matching (clause.map (·.mapPaths (Store.storedPath held.localizedPaths
      (localeOf selection)))) held.records = .ok matched →
    ∀ key ∈ params.sort, key.Orders matched

/-- The records of a search stand one before the other in the order that it asks for. -/
def Search.Sorted (x : Search) (slug : String) (c : CompiledEntity) (params : FindParams) : Prop :=
  let options := findOptions c x.filter params.sort
  x.found.Pairwise fun r r' =>
    Record.compareBy options.sort (Store.origin? (x.query slug) options) r r' = .lt

omit [PatternEngine] in
/-- Where no order is asked for, the times of the records decide. -/
theorem orders_findOptions {filter : Option Predicate} {sort : List SortKey} {records : List Record}
    (htimed : ∀ r ∈ records, r.Timed) (hsort : ∀ key ∈ sort, key.Orders records) :
    ∀ key ∈ (findOptions c filter sort).sort, key.Orders records := by
  unfold findOptions
  dsimp only
  split
  · exact hsort
  · split
    · exact List.forall_mem_singleton.2
        (SortKey.orders_of_tellsTime rfl fun r hr => (htimed r hr).createdAt)
    · simp

omit [PatternEngine] in
/-- Versions are in order under the key by which the newest draft is looked for. -/
theorem orders_draftOptions {clause : Predicate} {records : List Record}
    (htimed : ∀ r ∈ records, r.Timed) :
    ∀ key ∈ (Draft.options clause).sort, key.Orders records :=
  List.forall_mem_singleton.2
    (SortKey.orders_of_tellsTime rfl fun r hr => (htimed r hr).updatedAt)

omit [PatternEngine] in
/-- A reader who may see everything searches by the clause alone. -/
theorem withScope_unrestricted (filter : Option Predicate) :
    withScope filter .unrestricted = filter := by
  cases filter <;> rfl

/-- **A search that can be sorted is sorted.** -/
theorem Search.For.sorted {x : Search} {params : FindParams} {page : Page Document}
    (h : x.For env s slug c params b page) (haccess : x.access = .unrestricted)
    (htimed : ∀ r ∈ x.held.records, r.Timed)
    (hnumbers : x.held.records.Pairwise fun r r' =>
      Record.counter Record.sequenceField r < Record.counter Record.sequenceField r')
    (hsort : Sortable c x.held x.selection params) : x.Sorted slug c params := by
  have hfilter : x.filter = x.clause := by
    rw [Search.filter, haccess]
    exact withScope_unrestricted x.clause
  obtain ⟨matched, hmatched, hfound⟩ := Except.bind_eq_ok_iff.1 h.found
  have hmem {r : Record} (hr : r ∈ x.found) : r ∈ matched := by
    rw [← Except.ok.inj hfound] at hr
    exact mem_sortStably.1 hr
  refine Store.pairwise_of_select h.found (hnumbers.imp Nat.ne_of_lt)
    (orders_findOptions (fun r hr => htimed r (Store.mem_select h.found hr).1) fun key hkey => ?_)
  rw [Search.query, hfilter] at hmatched
  exact (hsort _ _ h.clause hmatched key hkey).subset fun _ => hmem

/-- **How a search is answered,** given how its where-clause has been read, the stored paths, and the
records of the collection. -/
inductive Answered (clause : Except ServiceError (Option Predicate)) (stored : String → String)
    (records : List Record) : Except ServiceError (Page Document) → Prop
  /-- The JSON is no where-clause. -/
  | unread {cause : PredicateError} (read : clause = .error (.invalidPredicate cause)) :
      Answered clause stored records (.error (.invalidPredicate cause))
  /-- The where-clause does not fit the collection. -/
  | unfit {cause : WhereError} (read : clause = .error (.invalidWhere cause)) :
      Answered clause stored records (.error (.invalidWhere cause))
  /-- On some record the decision reaches a constraint that cannot be decided. -/
  | undecided {p : Predicate} {r : Record} {k : Constraint} (read : clause = .ok (some p))
      (mem : r ∈ records) (reached : (p.mapPaths stored).Reaches r k) (bad : ¬ k.Evaluable) :
      Answered clause stored records (.error (.store (.invalidOperand k.complaint)))
  /-- On no record it does. -/
  | page {filter : Option Predicate} {page : Page Document} (read : clause = .ok filter)
      (decided : ∀ p ∈ filter, ∀ r ∈ records, ∀ k, (p.mapPaths stored).Reaches r k → k.Evaluable) :
      Answered clause stored records (.ok page)

namespace Answered

variable {clause : Except ServiceError (Option Predicate)} {stored : String → String}
  {records : List Record} {answer : Except ServiceError (Page Document)}

/-- Where each operand has the form of its operator, the store is not to blame. -/
theorem ne_store (h : Answered clause stored records answer)
    (hfit : ∀ p, clause = .ok (some p) → ∀ k ∈ p.leaves, k.Evaluable) (cause : StoreError) :
    answer ≠ .error (.store cause) := by
  cases h with
  | undecided read mem reached bad =>
    exact absurd (Predicate.evaluable_mapPaths (hfit _ read) _ _ reached.mem_leaves) bad
  | unread | unfit | page => exact nofun

end Answered

omit [PatternEngine] in
/-- A where-clause that is refused is none, or does not fit. -/
theorem readWhere_error {schema : WhereSchema} {filter : Option Json} {e : ServiceError}
    (h : readWhere schema filter = .error e) :
    (∃ cause, e = .invalidPredicate cause) ∨ ∃ cause, e = .invalidWhere cause := by
  cases filter with
  | none => cases h
  | some raw =>
    simp only [readWhere] at h
    cases hread : Predicate.ofJson raw with
    | error cause =>
      rw [hread] at h
      cases h
      exact .inl ⟨cause, rfl⟩
    | ok p =>
      simp only [hread, Except.mapError, bind, Except.bind] at h
      cases hvalid : schema.validate p with
      | error cause =>
        rw [hvalid] at h
        cases h
        exact .inr ⟨cause, rfl⟩
      | ok _ =>
        rw [hvalid] at h
        cases h

/-- **A search is answered** on a backend that refuses nothing, that has declared the collection, and
on which documents are shown whatever is asked for. -/
theorem answered_of_shown {s : Service} {params : FindParams} {selection : Option LocaleSelection}
    {held : Collection} (hc : s.registry.collection slug = .ok c)
    (haccess : c.entity.read.resolve = .ok .unrestricted)
    (hselect : s.selectLocale params.locale params.fallbackLocale = .ok selection)
    (hserving : b.refused = []) (hheld : Table.get? slug b.store.collections = some held)
    (hshown : ∀ r ∈ held.records, ∃ d, Action.runOn env
      (s.reveal c params.draft selection .unrestricted (Record.sanitize r)) b = (.ok d, b)) :
    Answered (readWhere c.whereSchema params.filter)
      (Store.storedPath held.localizedPaths (localeOf selection)) held.records
      (Action.runOn env (s.find slug params) b).1 := by
  have hread : readAccess c = .ok .unrestricted := by
    rw [readAccess, haccess]
    rfl
  unfold find
  rw [Action.runOn_bind_ok (Action.runOn_ofExcept_ok hc),
    Action.runOn_bind_ok (Action.runOn_ofExcept_ok hread),
    Action.runOn_bind_ok (Action.runOn_ofExcept_ok hselect)]
  cases hclause : readWhere c.whereSchema params.filter with
  | error e =>
    rw [Action.runOn_bind_error (Prod.ext rfl rfl)]
    rcases readWhere_error hclause with ⟨cause, rfl⟩ | ⟨cause, rfl⟩
    · exact .unread rfl
    · exact .unfit rfl
  | ok clause =>
    rw [Action.runOn_bind_ok (Action.runOn_ofExcept_ok rfl), withScope_unrestricted]
    dsimp only
    let stored := Store.storedPath held.localizedPaths (localeOf selection)
    let q : Query := ⟨slug, clause.map (·.mapPaths stored), localeOf selection⟩
    let options := findOptions c clause params.sort
    let pagination := s.paginationFor params.page params.limit
    have hquery : Action.runOn env
        (onStore (Action.buildQuery slug clause (localeOf selection))) b = (.ok q, b) :=
      Action.runOn_mapError_ok ((Action.runOn_buildQuery hserving _ _ _).trans
        (congrArg (·, b) (Store.buildQuery_of_get? hheld _ _))) _
    have hfind : Action.runOn env (onStore (Action.find q options (some pagination))) b =
        ((b.store.find q options (some pagination)).mapError .store, b) := by
      rw [onStore, Action.runOn_mapError, Action.runOn_find hserving]
    rw [Action.runOn_bind_ok hquery]
    -- Either all records can be decided, or the clause reaches a bad operand on one of them.
    rcases Store.select_cases held q options with
      ⟨found, hfound, hdecided⟩ | ⟨asked, hasked, r, hr, k, hreached, hbad, hfailed⟩
    · let page := Page.ofDocs ((Store.slice found (some pagination)).map (Store.present options))
        (if options.estimatedCount then held.records.length else found.length) (some pagination)
      obtain ⟨docs, hdocs, -⟩ : ∃ docs, Action.runOn env
          (page.docs.mapM (s.reveal c params.draft selection .unrestricted)) b = (.ok docs, b) ∧
            ∀ d ∈ docs, True :=
        Action.runOn_mapM fun shown hmem => by
          obtain ⟨r, hr, rfl⟩ := List.mem_map.1 hmem
          obtain ⟨d, hd⟩ := hshown r (Store.mem_select hfound (Store.mem_slice hr)).1
          exact ⟨d, hd, trivial⟩
      rw [Store.find_eq_of_select hheld hfound] at hfind
      rw [Action.runOn_bind_ok hfind]
      change Answered _ _ _ (Action.runOn env
        (page.docs.mapM (s.reveal c params.draft selection .unrestricted) >>= fun docs =>
          pure (page.withDocs docs)) b).1
      rw [Action.runOn_bind_ok hdocs]
      refine .page rfl fun p hp r hr k hreached => ?_
      exact hdecided _ (Option.mem_map_of_mem _ hp) r hr k hreached
    · rw [Store.find_eq_of_select_error hheld hfailed] at hfind
      rw [Action.runOn_bind_error hfind]
      obtain ⟨p, hp, rfl⟩ := Option.map_eq_some_iff.1 hasked
      exact .undecided (congrArg Except.ok hp) hr hreached hbad

omit [PatternEngine] in
/-- The documents of a collection have been declared, and so have its versions if it has any. -/
theorem mem_storeCollections (hbuild : Registry.build config = .ok registry)
    (hc : registry.collection slug = .ok c) :
    slug ∈ (storeCollections registry).map (·.1) ∧ (c.entity.isVersioned = true →
      c.entity.versionsCollection ∈ (storeCollections registry).map (·.1)) := by
  have hmem : c ∈ registry.allCollections := by
    unfold Registry.collection at hc
    split at hc
    · next found hget =>
      cases hc
      exact List.mem_map.2 ⟨_, Table.mem_of_get? hget, rfl⟩
    · cases hc
  have hslug : c.slug = slug := (Registry.compiles_of_collection hbuild hc).slug_eq
  unfold storeCollections
  rw [List.map_append, List.map_append]
  refine ⟨List.mem_append_left _ (List.mem_append_left _ ?_), fun hversioned =>
    List.mem_append_right _ ?_⟩
  · exact List.mem_map.2 ⟨_, List.mem_map_of_mem hmem, hslug⟩
  · refine List.mem_map.2 ⟨_, List.mem_map_of_mem (List.mem_filter.2 ⟨?_, hversioned⟩), rfl⟩
    exact List.mem_append_left _ hmem

/-- **A search of a collection that everybody may read is answered** by a page, or by what is wrong with
its where-clause, or by the first operand that cannot be evaluated; and if all operands have the form of
their operators the store is not to blame.  The page shows the records found in the one order that is
asked for, and also the versions among which drafts are looked for have one order.  This is so on every
backend that is reached from the start of the service, whatever has been written and refused in between,
if the keys that the search names can sort what it finds; where drafts are shown, no other collection may
have the name of the versions. -/
theorem find_answered {params : FindParams} {selection : Option LocaleSelection}
    (hbuild : Registry.build config = .ok registry) (hc : registry.collection slug = .ok c)
    (haccess : c.entity.read.resolve = .ok .unrestricted)
    (hlater : Later env registry config (startedBackend env registry config) b)
    (htimes : b.Timely env) (hserving : b.refused = [])
    (hselect : (ofRegistry registry config).selectLocale params.locale params.fallbackLocale =
      .ok selection)
    (hsort : ∀ held, Table.get? slug b.store.collections = some held →
      Sortable c held selection params)
    (hdrafts : (params.draft && c.entity.hasDrafts) = true →
      ∀ e ∈ config.collections, e.slug ≠ c.entity.versionsCollection) :
    let clause := readWhere c.whereSchema params.filter
    let answer := (Action.runOn env ((ofRegistry registry config).find slug params) b).1
    (∃ held, Table.get? slug b.store.collections = some held ∧
      Answered clause (Store.storedPath held.localizedPaths (localeOf selection)) held.records
        answer) ∧
    ((∀ p, clause = .ok (some p) → ∀ k ∈ p.leaves, k.Evaluable) →
      ∀ cause, answer ≠ .error (.store cause)) ∧
    (∀ page, answer = .ok page → ∃ x : Search,
      x.For env (ofRegistry registry config) slug c params b page ∧ x.Sorted slug c params) ∧
    ∀ wanted, ∀ key ∈ (Draft.options wanted).sort,
      key.Orders (b.store.recordsOf c.entity.versionsCollection) := by
  intro clause answer
  obtain ⟨hdocs, hversions⟩ := mem_storeCollections hbuild hc
  obtain ⟨held, hheld⟩ := hlater.declares hdocs
  have hreadable := hlater.readable_versions hbuild htimes hdrafts
  have hanswered : Answered clause (Store.storedPath held.localizedPaths (localeOf selection))
      held.records answer := by
    refine answered_of_shown (s := ofRegistry registry config) hc haccess hselect hserving hheld
      fun r hr => ?_
    refine exists_runOn_reveal env hserving ((hreadable.store slug held hheld).2 r hr).document
      (fun hdraft => ?_) selection
    have hversioned := Entity.isVersioned_of_hasDrafts (Bool.and_eq_true_iff.1 hdraft).2
    exact ⟨hlater.declares (hversions hversioned),
      fun r hr => (hreadable.store.recordsOf hr).version ⟨hdraft, rfl⟩⟩
  refine ⟨⟨held, hheld, hanswered⟩, hanswered.ne_store, fun page hpage => ?_, fun wanted =>
    orders_draftOptions fun r hr => (hreadable.store.recordsOf hr).timed⟩
  obtain ⟨x, hx⟩ := exists_search (s := ofRegistry registry config) hc hpage
  have hopen : x.access = .unrestricted := by
    have hfound := hx.access
    rw [readAccess, haccess] at hfound
    exact (Except.ok.inj hfound).symm
  have hchosen : selection = x.selection := Except.ok.inj (hselect.symm.trans hx.selection)
  refine ⟨x, hx, hx.sorted hopen (fun r hr => ((hreadable.store slug _ hx.held).2 r hr).timed) ?_
    (hchosen ▸ hsort _ hx.held)⟩
  exact Store.recordsOf_of_get? hx.held ▸ hlater.numbered.recordsOf slug

end

/-! Stops with drafts, which everybody may read.  They are listed by their ids, and a spot is looked for
by its name. -/

def stops : Entity :=
  (Entity.ofFields "stops" [Field.ofKind "spot" .point]).withDrafts

def stopsConfig : Config :=
  ⟨[stops], [], none, .standard, .standard⟩

def stopsRegistry : Registry :=
  (Registry.build stopsConfig).toOption.getD ⟨[], []⟩

def newStop : WriteRequest :=
  .create "stops" [] ⟨false, none⟩

/-- A backend with one stop. -/
def stopsBackend : Backend :=
  (Action.runOn .backward (newStop.run (ofRegistry stopsRegistry stopsConfig))
    (startedBackend .backward stopsRegistry stopsConfig)).2

/-- The stops whose ids have a letter in them, in the order of their ids. -/
def byLetter : FindParams :=
  ⟨some (.obj [("id", .obj [("contains", .str "n")])]), [.asc "id"], none, none, true, none, none⟩

/-- The stops near a spot that is given by its name. -/
def nearTheRiver : FindParams :=
  ⟨some (.obj [("spot", .obj [("near", .str "the river")])]), [], none, none, true, none, none⟩

/-- What the search answers. -/
def foundStops : Except ServiceError (Page Document) :=
  (Action.runOn .backward ((ofRegistry stopsRegistry stopsConfig).find "stops" nearTheRiver)
    stopsBackend).1

/-- The backend with the stop is reached. -/
theorem later_stopsBackend : Later .backward stopsRegistry stopsConfig
    (startedBackend .backward stopsRegistry stopsConfig) stopsBackend :=
  Later.same.requested newStop List.Pairwise.nil

/-- The stops make a service. -/
theorem compiled_stops : Registry.build stopsConfig = .ok stopsRegistry ∧
    ∃ c, stopsRegistry.collection "stops" = .ok c ∧ c.entity = stops := by
  have hbuild : Registry.build stopsConfig = .ok stopsRegistry := rfl
  obtain ⟨c, hcompile, hregistry⟩ := Registry.build_singleton (e := stops) rfl rfl hbuild
  refine ⟨hbuild, c, ?_, (CompiledEntity.of_compile hcompile).1⟩
  rw [hregistry]
  rfl

/-- The stops can be sorted by their ids, which are texts. -/
theorem sortable_byLetter {c : CompiledEntity} {held : Collection}
    (hheld : Table.get? "stops" stopsBackend.store.collections = some held) :
    Sortable c held none byLetter := by
  have hids : (SortKey.asc "id").Uniform (stopsBackend.store.recordsOf "stops") :=
    .of_kinds .text (by decide +kernel)
  intro clause matched _ hmatched key hkey
  rw [List.mem_singleton.1 hkey]
  refine (hids.subset fun r hr => ?_).orders
  rw [Store.recordsOf_of_get? hheld]
  rw [Store.eq_filter_of_matching hmatched] at hr
  exact List.mem_of_mem_filter hr

theorem find_answered_stops : ∃ c page, ∃ x : Search,
    x.For .backward (ofRegistry stopsRegistry stopsConfig) "stops" c byLetter stopsBackend page ∧
      x.Sorted "stops" c byLetter := by
  obtain ⟨hbuild, c, hc, hentity⟩ := compiled_stops
  have haccess : c.entity.read.resolve = .ok .unrestricted := by
    rw [hentity]
    rfl
  have hdrafts : ∀ e ∈ stopsConfig.collections, e.slug ≠ c.entity.versionsCollection := by
    rw [hentity]
    decide
  have htimes : stopsBackend.Timely .backward := by
    unfold Backend.Timely
    decide +kernel
  have hselect : (ofRegistry stopsRegistry stopsConfig).selectLocale byLetter.locale
      byLetter.fallbackLocale = .ok none := rfl
  have hfound : (Action.runOn .backward ((ofRegistry stopsRegistry stopsConfig).find "stops" byLetter)
      stopsBackend).1.isOk = true := by decide +kernel
  obtain ⟨page, hpage⟩ := Except.exists_of_isOk hfound
  obtain ⟨-, -, hsorted, -⟩ := find_answered hbuild hc haccess later_stopsBackend htimes
    (by decide +kernel) hselect (fun _ => sortable_byLetter) fun _ => hdrafts
  exact ⟨c, page, hsorted page hpage⟩

/-- The operand that an answer blames. -/
def blamed : Except ServiceError (Page Document) → Option (String × Operator × String)
  | .error (.store (.invalidOperand e)) => some (e.path, e.operator, e.reason)
  | _ => none

/-- An answer that blames an operand is the error that says so. -/
theorem eq_of_blamed {answer : Except ServiceError (Page Document)} {path reason : String}
    {operator : Operator} (h : blamed answer = some (path, operator, reason)) :
    answer = .error (.store (.invalidOperand ⟨path, operator, reason⟩)) := by
  unfold blamed at h
  split at h
  · cases h
    rfl
  · cases h

/-- **The where-clause passes all checks, and the store cannot decide it.** -/
theorem near_undecided_stops :
    Later .backward stopsRegistry stopsConfig (startedBackend .backward stopsRegistry stopsConfig)
      stopsBackend ∧ stopsBackend.refused = [] ∧
    (∃ c clause, stopsRegistry.collection "stops" = .ok c ∧
      c.entity.read.resolve = .ok .unrestricted ∧
      readWhere c.whereSchema nearTheRiver.filter = .ok (some clause)) ∧
    foundStops = .error (.store (.invalidOperand
      ⟨"spot", .near, "expected [longitude, latitude, maxDistance?, minDistance?]"⟩)) := by
  refine ⟨later_stopsBackend, by decide +kernel, ?_, eq_of_blamed (by decide +kernel)⟩
  obtain ⟨-, c, hc, hentity⟩ := compiled_stops
  have hclause : ((stopsRegistry.collection "stops").toOption.bind fun c =>
      (readWhere c.whereSchema nearTheRiver.filter).toOption.map (·.isSome)) = some true := by
    decide +kernel
  rw [hc] at hclause
  obtain ⟨clause, hread, hsome⟩ := Option.map_eq_some_iff.1 hclause
  obtain ⟨p, rfl⟩ := Option.isSome_iff_exists.1 hsome
  refine ⟨c, p, hc, ?_, Except.eq_ok_of_toOption hread⟩
  rw [hentity]
  rfl

end Service

end HeadlessCms
