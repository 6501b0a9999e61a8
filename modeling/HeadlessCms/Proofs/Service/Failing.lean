import HeadlessCms.Proofs.Document.ReadBack
import HeadlessCms.Proofs.Service.Reaching
import HeadlessCms.Proofs.Store.Failing

/-!
# What failed writes leave

A save is a chain of calls and takes nothing back.  A request that fails before its first write, or at
it, changes no record.  What is stored can always be read back, so an entity without versions is
never left between two states.  An entity with versions may be: the document is stored when its
version is refused, and document and version are stored when the pruning of the history fails.  Nothing
else is ever left (`WriteRequest.unchanged_or_halfSaved`).
-/

namespace HeadlessCms

open Time (Instant)

/-! ### The version of a save -/

/-- Whether old versions of a document are deleted. -/
def Entity.Prunes (e : Entity) : Prop :=
  ∃ v, e.versions = some v ∧ 0 < v.maxPerDoc

variable {env : Surroundings} {b b' : Backend}

namespace History

variable [PatternEngine]

/-- Where pruning fails, nothing has been deleted. -/
theorem leaves_prune (entity : Entity) (kind : EntityKind) (parent : Option String) (max : Nat) :
    Action.Leaves env (prune entity kind parent max) b (· = b) := by
  unfold prune
  refine .bind_keeps (.buildQuery _ _ _) rfl fun q _ => ?_
  refine .bind_keeps (.find q _ _) rfl fun history _ => ?_
  dsimp only
  split
  · exact .pure _
  · refine .bind_keeps (.buildQuery _ _ _) rfl fun q _ => ?_
    exact .deleteMany q

/-- **Where the version of a save fails,** nothing has been written, or the version has and the history
could not be pruned. -/
theorem leaves_save {time : Instant} (htime : time.Storable) (entity : Entity) (kind : EntityKind)
    (parent : Option String) (data : Record) (status : Status) :
    Action.Leaves env (save entity kind parent data status time) b fun b' =>
      b'.store.collections = b.store.collections ∨ entity.Prunes ∧ ∃ own sequence,
        Store.Gains entity.versionsCollection
          (Store.stamp own sequence 0 (newRecord kind parent data status time))
          b.store b'.store := by
  unfold save
  refine .bind ((Action.Leaves.insert _ _).imp fun _ => Or.inl) fun stored b₁ hinsert => ?_
  obtain ⟨own, _, _, hgains, _, rfl⟩ := Store.gains_of_insert (Action.insert_of_runOn hinsert)
  obtain ⟨version, hread⟩ :=
    exists_read_stamp htime kind parent data status own b.store.sequence 0
  rw [hread]
  refine .bind (fun e b' hfail => by cases hfail) fun found b₂ hfound => ?_
  cases hfound
  cases hversions : entity.versions with
  | none => exact .pure _
  | some v =>
    dsimp only
    split
    · next hmax =>
      have hpruned : Action.Leaves env (prune entity kind parent v.maxPerDoc) b₁ (· = b₁) :=
        leaves_prune _ _ _ _
      refine .bind (hpruned.imp fun b' hb' => Or.inr ?_) fun _ _ _ => .pure _
      subst hb'
      exact ⟨⟨v, hversions, hmax⟩, own, b.store.sequence, hgains⟩
    · exact .pure _

end History

namespace Service

variable {s : Service} {c : CompiledEntity} {collection : String} {existing : Option Document}
  {selection : Option LocaleSelection}

/-! ### The content of a save -/

/-- A patch puts no member of the envelope into content. -/
theorem isBare_patched {stored : Record} (h : Record.IsBare stored) (patch : Record)
    (status : Status) : Record.IsBare (s.patched c selection status stored patch) := by
  have hinserted : Record.IsBare (Table.insertAll (s.incoming c selection stored patch) stored) := by
    intro name hname
    have hnot : name ∉ (s.incoming c selection stored patch).map (·.1) := by
      rw [keys_incoming]
      exact Table.get?_eq_none_iff.1 (Document.isBare_stripEnvelope patch name hname)
    rw [Table.get?_insertAll_of_notMem hnot, h name hname]
  unfold patched
  dsimp only
  split
  · intro name hname
    have hne : name ≠ Status.field := by
      intro heq
      subst heq
      exact absurd hname (by decide)
    rw [Table.get?_insert, if_neg hne, hinserted name hname]
  · exact hinserted

variable [PatternEngine]

/-- The content that a save starts from can be stored. -/
theorem keeps_baseOf_bare {I : Backend → Prop} (h : ∀ d ∈ existing, d.Restorable) (draft : Bool) :
    Action.Keeps env I (baseOf c existing draft) fun base =>
      Record.IsBare base ∧ (draft = false → base = publishedBase existing) := by
  refine keeps_baseOf (fun _ => ⟨?_, fun _ => rfl⟩) fun hdraft doc hdoc => ?_
  · cases existing with
    | none => exact fun _ _ => rfl
    | some doc => exact (h doc rfl).bare
  · refine (Draft.keeps_resolve _ _ _ _ _).imp fun newest hnewest => ⟨?_, fun hpublished => ?_⟩
    · rcases hnewest with rfl | ⟨_, v, _, _, _, _, _, _, _, _, rfl⟩
      · exact (h newest hdoc).bare
      · exact Document.isBare_stripEnvelope v.version
    · rw [hpublished] at hdraft
      cases hdraft

/-- A document that is loaded can be stored again. -/
theorem keeps_load_restorable {I : Backend → Prop} (collection : String) (clause : Predicate) :
    Action.Keeps env I (load collection clause) fun existing =>
      ∀ d ∈ existing, d.Restorable := by
  refine (keeps_load collection clause).imp fun existing h d hd => ?_
  obtain ⟨_, _, _, _, hread⟩ := h d hd
  exact Document.restorable_of_ofRecord hread

/-! ### Storing the document -/

/-- **What a save does to the documents of a collection.**  A new document is added; a published change
replaces the record with the id of the document; a draft of an existing document is not stored.
`changed` is the document as it is to be stored, `saved` as it is read back. -/
inductive Stores (collection : String) (changed saved : Document) (before after : Store) :
    Option Document → Bool → Prop
  | fresh {draft : Bool} {own : String} {sequence : Nat}
      (gains : Store.Gains collection
        (Store.stamp own sequence 0 (Table.erase "id" changed.toRecord)) before after)
      (read : Document.ofRecord (Record.sanitize
        (Store.stamp own sequence 0 (Table.erase "id" changed.toRecord))) = .ok saved) :
      Stores collection changed saved before after none draft
  | published {doc : Document} {r : Record} (own : Record.id? r = some doc.id)
      (revises : Store.Revises collection r (Store.revise r doc.id changed.toRecord) before after)
      (read : Document.ofRecord (Record.sanitize
        (Store.revise r doc.id changed.toRecord)) = .ok saved) :
      Stores collection changed saved before after (some doc) false
  | draft {doc : Document} (kept : after = before) (same : saved = changed) :
      Stores collection changed saved before after (some doc) true

/-- A document that is stored is inserted or put in the place of the old one. -/
theorem stores_of_runOn {draft : Bool} {createdAt updatedAt : Option Instant} {data : Record}
    {saved : Document}
    (h : Action.runOn env (store collection existing draft createdAt updatedAt data) b =
      (.ok saved, b')) :
    ∃ id, Stores collection ⟨id, createdAt, updatedAt, data⟩ saved b.store b'.store existing draft := by
  unfold store at h
  cases existing with
  | none =>
    obtain ⟨shown, b₁, hinsert, hread⟩ := Action.of_runOn_bind h
    obtain ⟨hsaved, rfl⟩ := Prod.mk.inj hread
    obtain ⟨own, _, _, hgains, _, rfl⟩ :=
      Store.gains_of_insert (Action.insert_of_runOn (Action.runOn_of_mapError hinsert))
    exact ⟨"", .fresh hgains (Except.mapError_eq_ok_iff.1 hsaved)⟩
  | some doc =>
    cases draft with
    | true =>
      cases h
      exact ⟨doc.id, .draft rfl rfl⟩
    | false =>
      obtain ⟨shown, b₁, hupdate, hread⟩ := Action.of_runOn_bind h
      obtain ⟨hsaved, rfl⟩ := Prod.mk.inj hread
      obtain ⟨r, hown, hrevises, rfl⟩ :=
        Store.revises_of_update (Action.update_of_runOn (Action.runOn_of_mapError hupdate))
      exact ⟨doc.id, .published hown hrevises (Except.mapError_eq_ok_iff.1 hsaved)⟩

/-- Reading a document that can be read does not fail. -/
theorem leaves_documentOf {Q : Backend → Prop} {record : Record} {saved : Document}
    (h : Document.ofRecord record = .ok saved) : Action.Leaves env (documentOf record) b Q := by
  intro e b' hfail
  unfold documentOf at hfail
  rw [Action.runOn_ofExcept, h] at hfail
  cases hfail

/-- **Where storing a document fails, nothing has been stored:** what has been is read back. -/
theorem leaves_store {createdAt updatedAt : Option Instant} {data : Record}
    (hdata : Record.IsBare data) (hcreated : ∀ t ∈ createdAt, t.Storable)
    (hupdated : ∀ t ∈ updatedAt, t.Storable) (draft : Bool) :
    Action.Leaves env (store collection existing draft createdAt updatedAt data) b fun b' =>
      b'.store.collections = b.store.collections := by
  have hstorable (id : String) : Document.Restorable ⟨id, createdAt, updatedAt, data⟩ :=
    ⟨hdata, hcreated⟩
  unfold store
  cases existing with
  | none =>
    refine .bind ((Action.Leaves.insert _ _).mapError _) fun shown b₁ hinsert => ?_
    obtain ⟨own, _, _, _, _, rfl⟩ :=
      Store.gains_of_insert (Action.insert_of_runOn (Action.runOn_of_mapError hinsert))
    obtain ⟨saved, hread⟩ := (hstorable "").exists_read_stamp hupdated
      (fun key hkey => by rw [Table.get?_erase, if_neg hkey]) own b.store.sequence 0
    exact leaves_documentOf hread
  | some doc =>
    cases draft with
    | true => exact .pure _
    | false =>
      refine .bind (((Action.Leaves.update _ _ _).mapError _).imp fun b' hb' => by rw [hb'])
        fun shown b₁ hupdate => ?_
      obtain ⟨r, _, _, rfl⟩ :=
        Store.revises_of_update (Action.update_of_runOn (Action.runOn_of_mapError hupdate))
      obtain ⟨saved, hread⟩ := (hstorable doc.id).exists_read_stamp hupdated (fun _ _ => rfl)
        doc.id (Record.counter Record.sequenceField r) (Record.counter Record.revisionField r + 1)
      exact leaves_documentOf hread

/-! ### The whole save -/

/-- The document of a save as it is to be stored: the patch is on the content of the document, or on
that of its newest draft where the save is a draft, and it carries times if the entity has them. -/
structure Changes (s : Service) (c : CompiledEntity) (existing : Option Document) (patch : Record)
    (params : SaveParams) (time : Instant) (changed : Document) : Prop where
  createdAt : changed.createdAt =
    if c.entity.timestamps then some (creationOf existing time) else none
  updatedAt : changed.updatedAt = if c.entity.timestamps then some time else none
  data : ∃ selection base, s.selectLocale params.locale none = .ok selection ∧
    (draftOf c params = false → base = publishedBase existing) ∧
    changed.data = s.patched c selection (statusOf c params) base patch

/-- What is left where the version of a save fails: no version, or the version beside those that
should have made room for it. -/
def LeavesVersion (c : CompiledEntity) (saved : Document) (status : Status) (time : Instant)
    (before after : Store) : Prop :=
  after.collections = before.collections ∨ c.entity.Prunes ∧ ∃ own sequence,
    Store.Gains c.entity.versionsCollection
      (Store.stamp own sequence 0
        (History.newRecord c.kind (some saved.id) saved.toRecord status time)) before after

/-- **What is left of a save between its first write and its last:** the document as it is to be
stored, and its version or none. -/
structure HalfSaved (s : Service) (c : CompiledEntity) (collection : String)
    (existing : Option Document) (patch : Record) (params : SaveParams) (time : Instant)
    (before after : Store) : Prop where
  versioned : c.entity.isVersioned = true
  stored : ∃ changed saved between, s.Changes c existing patch params time changed ∧
    Stores collection changed saved before between existing (draftOf c params) ∧
    LeavesVersion c saved (statusOf c params) time between after

/-- A failure of saving the version leaves the store as it was, or with the new version before old
ones are pruned. -/
theorem leaves_version {time : Instant} (htime : time.Storable) (saved : Document) (status : Status)
    (result : Document) :
    Action.Leaves env
      (if c.entity.isVersioned = true then do
        let _ ← onStore (History.save c.entity c.kind (some saved.id) saved.toRecord status time)
        pure result
      else pure result) b fun b' =>
        c.entity.isVersioned = true ∧ LeavesVersion c saved status time b.store b'.store := by
  split
  · next hversioned =>
    refine .bind (((History.leaves_save htime _ _ _ _ _).mapError _).imp fun b' hb' => ?_)
      fun _ _ _ => .pure _
    exact ⟨hversioned, hb'⟩
  · exact .pure _

/-- Where a document is stored and gets its version, at most the version is missing. -/
theorem leaves_stored {draft : Bool} {createdAt updatedAt : Option Instant} {data : Record}
    {time : Instant} (hdata : Record.IsBare data) (hcreated : ∀ t ∈ createdAt, t.Storable)
    (hupdated : ∀ t ∈ updatedAt, t.Storable) (htime : time.Storable) (status : Status)
    (result : Document → Document) :
    Action.Leaves env (do
      let saved ← store collection existing draft createdAt updatedAt data
      if c.entity.isVersioned = true then do
        let _ ← onStore (History.save c.entity c.kind (some saved.id) saved.toRecord status time)
        pure (result saved)
      else pure (result saved)) b fun b' =>
        b'.store.collections = b.store.collections ∨ c.entity.isVersioned = true ∧
          ∃ id saved between,
            Stores collection ⟨id, createdAt, updatedAt, data⟩ saved b.store between existing draft ∧
            LeavesVersion c saved status time between b'.store := by
  refine .bind ((leaves_store hdata hcreated hupdated draft).imp fun b' => Or.inl)
    fun saved b₁ hstore => ?_
  obtain ⟨id, hstores⟩ := stores_of_runOn hstore
  refine (leaves_version htime saved status _).imp fun b' hb' => Or.inr ⟨hb'.1, ?_⟩
  exact ⟨id, saved, b₁.store, hstores, hb'.2⟩

omit [PatternEngine] in
/-- The time of creation of a document that is stored can be read back. -/
theorem storable_creationOf (h : ∀ d ∈ existing, d.Restorable) {time : Instant}
    (htime : time.Storable) : ∀ t ∈ some (creationOf existing time), t.Storable := by
  intro t ht
  cases ht
  exact of_creationOf (fun d hd => (h d hd).createdAt) htime

/-- **Where a save fails,** no record has changed, or an entity with versions is half saved. -/
theorem leaves_save (s : Service) (c : CompiledEntity) (collection : String)
    (hexisting : ∀ d ∈ existing, d.Restorable) (patch : Record) (params : SaveParams)
    (htime : (b.clock.next env.readings).1.Storable) :
    Action.Leaves env (s.save c collection existing patch params) b fun b' =>
      b'.store.collections = b.store.collections ∨
        s.HalfSaved c collection existing patch params (b.clock.next env.readings).1 b.store
          b'.store := by
  unfold save
  refine .bind_keeps (.ofExcept fun _ h => h) (Or.inl rfl) fun selection hselect => ?_
  dsimp only
  by_cases hwrite : localeOf selection = some allLocales
  · rw [if_pos hwrite]
    refine .bind ?_ fun _ _ h => by cases h
    intro e b' hfail
    cases hfail
    exact Or.inl rfl
  · rw [if_neg hwrite]
    refine .bind (fun e b' hfail => by cases hfail) fun time b₁ hnow => ?_
    obtain ⟨htaken, rfl⟩ := Prod.mk.inj hnow
    cases htaken
    refine .bind_keeps (keeps_baseOf_bare hexisting _) (Or.inl rfl) fun base hbase => ?_
    have hdata : Record.IsBare (s.patched c selection (statusOf c params) base patch) :=
      isBare_patched hbase.1 patch _
    have hcontent : ∃ selection' base', s.selectLocale params.locale none = .ok selection' ∧
        (draftOf c params = false → base' = publishedBase existing) ∧
        s.patched c selection (statusOf c params) base patch =
          s.patched c selection' (statusOf c params) base' patch :=
      ⟨selection, base, hselect, hbase.2, rfl⟩
    -- What is stored is the same with and without times.
    split
    · next htimestamps =>
      have hupdated : ∀ t ∈ some (b.clock.next env.readings).1, t.Storable := by
        intro t ht
        cases ht
        exact htime
      refine (leaves_stored hdata (storable_creationOf hexisting htime) hupdated htime _ _).imp
        fun b' => Or.imp_right fun hleft => ?_
      obtain ⟨hversioned, id, saved, between, hstores, hversion⟩ := hleft
      refine ⟨hversioned, _, saved, between, ⟨?_, ?_, hcontent⟩, hstores, hversion⟩
      · exact (if_pos htimestamps).symm
      · exact (if_pos htimestamps).symm
    · next htimestamps =>
      have hnone : ∀ t ∈ (none : Option Instant), t.Storable := fun t ht => by cases ht
      refine (leaves_stored hdata hnone hnone htime _ _).imp fun b' => Or.imp_right fun hleft => ?_
      obtain ⟨hversioned, id, saved, between, hstores, hversion⟩ := hleft
      refine ⟨hversioned, _, saved, between, ⟨?_, ?_, hcontent⟩, hstores, hversion⟩
      · exact (if_neg htimestamps).symm
      · exact (if_neg htimestamps).symm

end Service

/-! ### Requests that write -/

/-- A request that writes. -/
inductive WriteRequest where
  | create (slug : String) (data : Record) (params : SaveParams)
  | update (slug id : String) (patch : Record) (params : SaveParams)
  | saveGlobal (slug : String) (data : Record) (params : SaveParams)

namespace WriteRequest

def params : WriteRequest → SaveParams
  | create _ _ params => params
  | update _ _ _ params => params
  | saveGlobal _ _ params => params

/-- What is put on the stored content; a global says which one it is. -/
def patch : WriteRequest → Record
  | create _ data _ => data
  | update _ _ patch _ => patch
  | saveGlobal slug data _ => Table.insert Service.globalTypeField (.str slug) data

/-- The store collection with the document. -/
def collection : WriteRequest → String
  | create slug _ _ => slug
  | update slug _ _ _ => slug
  | saveGlobal _ _ _ => Service.globalsCollection

def entity (s : Service) : WriteRequest → Except ServiceError CompiledEntity
  | create slug _ _ => s.registry.collection slug
  | update slug _ _ _ => s.registry.collection slug
  | saveGlobal slug _ _ => s.registry.global slug

/-- The stored document that is to be changed. -/
def target : WriteRequest → Action ServiceError (Option Document)
  | create _ _ _ => pure none
  | update slug id _ _ => Service.load slug (.compare "id" .equals (.str id))
  | saveGlobal slug _ _ => Service.load Service.globalsCollection (Service.globalClause slug)

/-- What the service does, without what it shows of the result. -/
def run (s : Service) : WriteRequest → Action ServiceError Unit
  | create slug data params => do
    let _ ← s.create slug data params
    pure ()
  | update slug id patch params => do
    let _ ← s.update slug id patch params
    pure ()
  | saveGlobal slug data params => do
    let _ ← s.saveGlobal slug data params
    pure ()

variable {s : Service}

/-- **A request keeps what its save keeps,** of a document that can be stored again, or of a new one. -/
theorem keeps_run [PatternEngine] {I : Backend → Prop} {request : WriteRequest}
    (hsave : ∀ c, request.entity s = .ok c → ∀ existing : Option Document,
      (∀ d ∈ existing, d.Restorable) → Action.Keeps env I
        (s.save c request.collection existing request.patch request.params) fun _ => True) :
    Action.Keeps env I (request.run s) fun _ => True := by
  cases request with
  | create slug data params =>
    have hcreate : Action.Keeps env I (s.create slug data params) fun _ => True := by
      unfold Service.create
      exact .ofExcept_bind fun c hc => hsave c hc none fun d hd => by cases hd
    exact hcreate.bind fun _ _ => .pure trivial
  | update slug id patch params =>
    have hupdate : Action.Keeps env I (s.update slug id patch params) fun _ => True := by
      unfold Service.update
      refine .ofExcept_bind fun c hc => ?_
      refine (Service.keeps_load_restorable _ _).bind fun existing hexisting => ?_
      cases existing with
      | none => exact .throw _
      | some doc => exact hsave c hc (some doc) hexisting
    exact hupdate.bind fun _ _ => .pure trivial
  | saveGlobal slug data params =>
    have hsaveGlobal : Action.Keeps env I (s.saveGlobal slug data params) fun _ => True := by
      unfold Service.saveGlobal
      refine .ofExcept_bind fun c hc => ?_
      refine (Service.keeps_load_restorable _ _).bind fun existing hexisting => ?_
      exact (hsave c hc existing hexisting).bind fun _ _ => .pure trivial
    exact hsaveGlobal.bind fun _ _ => .pure trivial

/-- **A failed write changes no record, or leaves an entity with versions half saved.**  This is so on
every backend, whatever methods it refuses, if the time of the save can be written and read back. -/
theorem unchanged_or_halfSaved [PatternEngine] {request : WriteRequest} {e : ServiceError}
    (htime : (b.clock.next env.readings).1.Storable)
    (h : Action.runOn env (request.run s) b = (.error e, b')) :
    b'.store.collections = b.store.collections ∨ ∃ c existing, request.entity s = .ok c ∧
      (Action.runOn env request.target b).1 = .ok existing ∧
      s.HalfSaved c request.collection existing request.patch request.params
        (b.clock.next env.readings).1 b.store b'.store := by
  revert h
  revert b'
  revert e
  change Action.Leaves env (request.run s) b _
  cases request with
  | create slug data params =>
    refine .bind ?_ fun _ _ _ => .pure _
    refine .bind_keeps (.ofExcept fun _ h => h) (Or.inl rfl) fun c hc => ?_
    refine (Service.leaves_save s c slug (fun d hd => by cases hd) data params htime).imp ?_
    exact fun b' hb' => hb'.imp_right fun hhalf => ⟨c, none, hc, rfl, hhalf⟩
  | update slug id patch params =>
    refine .bind ?_ fun _ _ _ => .pure _
    refine .bind_keeps (.ofExcept fun _ h => h) (Or.inl rfl) fun c hc => ?_
    refine .bind_keeps (Service.keeps_load_restorable _ _).outcome (Or.inl rfl)
      fun existing hexisting => ?_
    -- Without a document there is nothing to update, and nothing has been written.
    cases existing with
    | none =>
      intro e b' hfail
      cases hfail
      exact Or.inl rfl
    | some doc =>
      refine (Service.leaves_save s c slug hexisting.1 patch params htime).imp ?_
      exact fun b' hb' => hb'.imp_right fun hhalf => ⟨c, some doc, hc, hexisting.2, hhalf⟩
  | saveGlobal slug data params =>
    refine .bind ?_ fun _ _ _ => .pure _
    refine .bind_keeps (.ofExcept fun _ h => h) (Or.inl rfl) fun c hc => ?_
    refine .bind_keeps (Service.keeps_load_restorable _ _).outcome (Or.inl rfl)
      fun existing hexisting => ?_
    refine .bind ?_ fun _ _ _ => .pure _
    refine (Service.leaves_save s c Service.globalsCollection hexisting.1 _ params htime).imp ?_
    exact fun b' hb' => hb'.imp_right fun hhalf => ⟨c, existing, hc, hexisting.2, hhalf⟩

/-! An article whose change is stored, and whose version is refused. -/

/-- Articles with a history. -/
def articles : Entity :=
  { Entity.ofFields "articles" [Field.ofKind "title" .text] with
    versions := some ⟨false, Entity.defaultMaxPerDoc⟩ }

def articlesConfig : Config :=
  ⟨[articles], [], none, .standard, .standard⟩

def articlesRegistry : Registry :=
  (Registry.build articlesConfig).toOption.getD ⟨[], []⟩

/-- A backend with one article that refuses insertions. -/
def articlesBackend : Backend :=
  { (Action.runOn .backward ((Service.ofRegistry articlesRegistry articlesConfig).create "articles"
      [("title", .str "old")] ⟨false, none⟩)
        (Action.runOn .backward (Service.start articlesRegistry articlesConfig) .empty).2).2 with
    refused := [.insert] }

/-- The store of articles is reached by creating one. -/
theorem reachable_articlesBackend :
    Service.Reachable .backward articlesRegistry articlesConfig articlesBackend :=
  .refusing (.created (.started .empty) "articles" ⟨false, none⟩ (List.pairwise_singleton _ _)) _

/-- A new title for the article. -/
def retitle : WriteRequest :=
  .update "articles" "n" [("title", .str "new")] ⟨false, none⟩

/-- The outcome of the request on this backend. -/
def retitled : Except ServiceError Unit × Backend :=
  Action.runOn .backward (retitle.run (Service.ofRegistry articlesRegistry articlesConfig))
    articlesBackend

/-- The update of the article fails. -/
theorem exists_error_retitled : ∃ e, retitled = (.error e, retitled.2) := by
  have hfailed : retitled.1.isOk = false := by decide +kernel
  have hsplit (outcome : Except ServiceError Unit × Backend) (h : outcome.1.isOk = false) :
      ∃ e, outcome = (.error e, outcome.2) := by
    obtain ⟨result, left⟩ := outcome
    cases result with
    | error e => exact ⟨e, rfl⟩
    | ok done => cases h
  exact hsplit retitled hfailed

/-- The failed update of the article leaves it unchanged or half saved. -/
theorem unchanged_or_halfSaved_retitled :
    ∃ e, retitled = (.error e, retitled.2) ∧
      (retitled.2.store.collections = articlesBackend.store.collections ∨ ∃ c existing,
        retitle.entity (Service.ofRegistry articlesRegistry articlesConfig) = .ok c ∧
        (Action.runOn .backward retitle.target articlesBackend).1 = .ok existing ∧
        (Service.ofRegistry articlesRegistry articlesConfig).HalfSaved c "articles" existing
          retitle.patch retitle.params
          (articlesBackend.clock.next Surroundings.backward.readings).1 articlesBackend.store
          retitled.2.store) := by
  obtain ⟨e, he⟩ := exists_error_retitled
  have htime : (articlesBackend.clock.next Surroundings.backward.readings).1.Storable := by
    decide +kernel
  exact ⟨e, he, unchanged_or_halfSaved htime he⟩

/-- Whether some record has a title. -/
def hasTitle (title : String) (records : List Record) : Bool :=
  records.any fun record =>
    match Table.get? "title" record with
    | some (.str found) => found == title
    | _ => false

/-- **The article is changed by a request that fails.** -/
theorem recordsOf_retitled_ne :
    Service.Reachable .backward articlesRegistry articlesConfig articlesBackend ∧
      (∃ e, retitled = (.error e, retitled.2)) ∧
      retitled.2.store.recordsOf "articles" ≠ articlesBackend.store.recordsOf "articles" := by
  have hbefore : hasTitle "new" (articlesBackend.store.recordsOf "articles") = false := by
    decide +kernel
  have hafter : hasTitle "new" (retitled.2.store.recordsOf "articles") = true := by decide +kernel
  refine ⟨reachable_articlesBackend, exists_error_retitled, fun hsame => ?_⟩
  rw [hsame, hbefore] at hafter
  cases hafter

end WriteRequest

end HeadlessCms
