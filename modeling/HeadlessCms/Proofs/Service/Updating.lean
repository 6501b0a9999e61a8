import HeadlessCms.Proofs.Service.Creating
import HeadlessCms.Proofs.Store.Replacing
import HeadlessCms.Proofs.Store.TakingTurns

/-!
# The calls of an update

A published update looks its document up (`Service.run_update`), takes a time and writes the whole
document as it reads after the patch (`Service.run_save`); what it does after that touches no document of
the collection (`Service.makes_recorded`).  A document that a look-up finds is found until it is
rewritten (`Backend.Stores.perform`), and afterwards the rewritten one is (`Service.stores_rewritten`).
-/

namespace HeadlessCms

open Time (Instant)

/-! ### The document under an id -/

/-- A document that reads as it has been written. -/
structure Document.Sound (d : Document) : Prop where
  data : Record.IsData d.data
  createdAt : ∀ t ∈ d.createdAt, t.Regular

/-- A sound document is sound without the fields that documents do not have. -/
theorem Document.Sound.sanitized {d : Document} (h : d.Sound) : d.sanitized.Sound where
  data := by
    refine ⟨Record.ascending_sanitize h.data.ascending, fun name hname => ?_⟩
    rw [Document.sanitized, Record.get?_sanitize, h.data.free name hname, ite_self]
  createdAt := h.createdAt

/-- What has been read is sound if its content is a table. -/
theorem Document.sound_of_ofRecord {record : Record} {d : Document} (h : ofRecord record = .ok d)
    (hdata : Table.Ascending d.data) : d.Sound where
  data := ⟨hdata, (restorable_of_ofRecord h).bare⟩
  createdAt t ht := ((restorable_of_ofRecord h).createdAt t ht).regular

/-- A look-up by id is answered with a document. -/
structure Backend.Stores [PatternEngine]
    (slug id : String) (b : Backend) (d : Document) : Prop where
  builds : b.refused.contains .buildQuery = false
  looks : b.refused.contains .findOne = false
  leads : ∃ r, b.store.Leads slug id r ∧ Document.ofRecord (Record.sanitize r) = .ok d
  distinct : ((b.store.recordsOf slug).map Record.id?).Nodup

namespace Backend.Stores

variable [PatternEngine]
variable {env : Surroundings} {slug id : String} {b b' : Backend} {d saved : Document}

/-- A query for the document is built. -/
theorem buildQuery (env : Surroundings) (h : b.Stores slug id d) :
    b.perform env (.buildQuery slug (some (.compare "id" .equals (.str id))) none) =
      (.ok (Store.idQuery slug id), b) := by
  obtain ⟨r, hleads, -⟩ := h.leads
  simp only [perform, look, h.builds, hleads.buildQuery]
  rfl

/-- The query shows the document. -/
theorem findOne (env : Surroundings) (h : b.Stores slug id d) :
    ∃ shown, Document.ofRecord shown = .ok d ∧
      b.perform env (.findOne (Store.idQuery slug id) (.sortedBy [])) = (.ok (some shown), b) := by
  obtain ⟨r, hleads, hread⟩ := h.leads
  refine ⟨_, hread, ?_⟩
  simp only [perform, look, h.looks, hleads.findOne]
  rfl

/-- **Calls on other collections do not matter.** -/
theorem perform (h : b.Stores slug id d) {c : Call} (hother : c.target? ≠ some slug) :
    (b.perform env c).2.Stores slug id d := by
  have hrecords := Store.recordsOf_perform env b hother
  obtain ⟨r, hleads, hread⟩ := h.leads
  refine ⟨?_, ?_, ⟨r, hleads.congr (b.declares_perform env hleads.declares c) hrecords, hread⟩, ?_⟩
  · rw [b.refused_perform, h.builds]
  · rw [b.refused_perform, h.looks]
  · rw [hrecords]
    exact h.distinct

/-- **What an update answers is what is found from then on.** -/
theorem update (h : b.Stores slug id d) {record shown : Record}
    (hanswer : (b.perform env (.update slug d.id record)).1 = .ok shown)
    (hread : Document.ofRecord shown = .ok saved) :
    (b.perform env (.update slug d.id record)).2.Stores slug id saved ∧
      ∃ sequence revision,
        shown = Record.sanitize (Store.stamp d.id sequence revision record) := by
  obtain ⟨r, hleads, hold⟩ := h.leads
  have hown : Record.id? r = some d.id := by
    have hid := (Document.of_ofRecord hold).1
    rw [Record.get?_sanitize, if_neg (by decide)] at hid
    rw [Record.id?, hid]
    rfl
  obtain ⟨rfl, hleads', hdistinct⟩ :=
    hleads.update h.distinct hown (change_eq_ok (Prod.ext hanswer rfl))
  refine ⟨⟨?_, ?_, ⟨_, hleads', hread⟩, hdistinct⟩, _, _, rfl⟩
  · rw [b.refused_perform, h.builds]
  · rw [b.refused_perform, h.looks]

end Backend.Stores

namespace History

variable {P : Call → Prop} {entity : Entity}

/-- **The calls of a version.** -/
theorem makes_save (hquery : ∀ clause, P (.buildQuery entity.versionsCollection clause none))
    (hfind : ∀ q options, P (.find q options none))
    (hinsert : ∀ record, P (.insert entity.versionsCollection record))
    (hdelete : ∀ q : Query, q.collection = entity.versionsCollection → P (.deleteMany q))
    {kind : EntityKind} {parent : Option String} {data : Record} {status : Status} {time : Instant} :
    Action.Makes P (save entity kind parent data status time) := by
  have hprune (max : Nat) : Action.Makes P (prune entity kind parent max) := by
    unfold prune
    refine .buildQuery_bind (hquery _) fun q _ => ?_
    refine (Action.Makes.find (hfind q _)).bind fun history => ?_
    dsimp only
    split
    · exact .pure _
    · exact .buildQuery_bind (hquery _) fun q hq => .deleteMany (hdelete q hq)
  unfold save
  refine (Action.Makes.insert (hinsert _)).bind fun stored => ?_
  refine (Action.Makes.ofExcept _).bind fun version => ?_
  split
  · split
    · exact (hprune _).bind fun _ => .pure _
    · exact .pure _
  · exact .pure _

end History

namespace Service

variable {env : Surroundings} {s : Service} {c : CompiledEntity} {slug id : String} {patch : Record}
  {params : SaveParams} {selection : Option LocaleSelection} {b : Backend} {d : Document}

/-- The document that the service finds under an id. -/
def Finds [PatternEngine]
    (env : Surroundings) (slug id : String) (b : Backend) (d : Document) : Prop :=
  (Action.runOn env (load slug (.compare "id" .equals (.str id))) b).1 = .ok (some d)

/-- Where ids are distinct, a document that is found is the one that is stored. -/
theorem stores_of_finds [PatternEngine] (h : Finds env slug id b d)
    (hdistinct : ((b.store.recordsOf slug).map Record.id?).Nodup) : b.Stores slug id d := by
  obtain ⟨q, b₁, hquery, h⟩ := Action.exists_of_runOn_bind h
  obtain ⟨found, b₂, hfind, h⟩ := Action.exists_of_runOn_bind h
  have hquery := (Action.look_buildQuery ..).symm.trans (Action.runOn_of_mapError hquery)
  have hfind := (Action.look_findOne ..).symm.trans (Action.runOn_of_mapError hfind)
  obtain ⟨rfl, hbuild⟩ := Backend.look_eq_ok hquery
  obtain ⟨rfl, hshow⟩ := Backend.look_eq_ok hfind
  obtain rfl := Store.eq_idQuery_of_buildQuery hbuild
  cases found with
  | none => cases h
  | some shown =>
    obtain ⟨r, hleads, rfl⟩ := Store.leads_of_findOne hshow
    obtain ⟨doc, b₃, hread, h⟩ := Action.exists_of_runOn_bind h
    cases h
    exact ⟨Backend.not_refused_of_look hquery, Backend.not_refused_of_look hfind,
      ⟨r, hleads, Except.mapError_eq_ok_iff.1 (congrArg Prod.fst hread)⟩, hdistinct⟩

/-- A document that is stored is found by its id. -/
theorem finds_of_stores [PatternEngine] (h : b.Stores slug id d) : Finds env slug id b d := by
  obtain ⟨shown, hread, hfind⟩ := h.findOne env
  have hquery : Action.runOn env (Action.buildQuery slug _ none) b = _ := h.buildQuery env
  have hfind : Action.runOn env (Action.findOne _ _) b = _ := hfind
  unfold Finds load
  rw [onStore, Action.runOn_bind_ok (Action.runOn_mapError_ok hquery _), onStore,
    Action.runOn_bind_ok (Action.runOn_mapError_ok hfind _)]
  dsimp only
  rw [documentOf, hread]
  rfl

/-! ### The calls -/

/-- A document under a published patch, changed at a time, -/
def changed (s : Service) (c : CompiledEntity) (selection : Option LocaleSelection) (patch : Record)
    (doc : Document) (t : Instant) : Document where
  id := doc.id
  createdAt := if c.entity.timestamps then some (creationOf (some doc) t) else none
  updatedAt := if c.entity.timestamps then some t else none
  data := s.patched c selection .published doc.data patch

/-- and as it is stored. -/
def rewritten (s : Service) (c : CompiledEntity) (selection : Option LocaleSelection) (patch : Record)
    (doc : Document) (t : Instant) : Document :=
  (s.changed c selection patch doc t).sanitized

/-- **A sound document is sound after an update.** -/
theorem sound_changed {doc : Document} (h : doc.Sound) {t : Instant} (ht : t.Regular) :
    (s.changed c selection patch doc t).Sound where
  data := isData_patched h.data patch .published
  createdAt := of_mem_timestamp fun _ => of_creationOf (fun d hd => by cases hd; exact h.createdAt) ht

/-- What an update writes is sound. -/
theorem sound_rewritten {doc : Document} (h : doc.Sound) {t : Instant} (ht : t.Regular) :
    (s.rewritten c selection patch doc t).Sound :=
  (sound_changed h ht).sanitized

/-- **An update puts its patch over the content of the document.** -/
theorem get?_rewritten (hpatch : Table.Ascending patch) {name : String}
    (hname : name ∉ Record.systemNames) (doc : Document) (t : Instant) :
    Table.get? name (s.rewritten c selection patch doc t).data =
      (Table.get? name (s.incoming c selection doc.data patch)).or (Table.get? name doc.data) := by
  have hnumbers : ¬(name = "_seq" ∨ name = "__v") := by
    rintro (rfl | rfl) <;> exact hname (by decide)
  have hstatus : name ≠ Status.field := by
    rintro rfl
    exact hname (by decide)
  show Table.get? name (Record.sanitize (s.patched c selection .published doc.data patch)) = _
  rw [Record.get?_sanitize, if_neg hnumbers, ← Table.get?_insertAll (ascending_incoming hpatch)]
  unfold patched
  dsimp only
  split
  · rw [Table.get?_insert, if_neg hstatus]
  · rfl

/-- A patch brings no value for a field exactly if it does not name it. -/
theorem get?_incoming_eq_none_iff {name : String} (hname : name ∉ Record.systemNames)
    (stored : Record) :
    Table.get? name (s.incoming c selection stored patch) = none ↔ name ∉ patch.keys := by
  have hkeys : (s.incoming c selection stored patch).keys = (Document.stripEnvelope patch).keys :=
    keys_incoming stored patch
  rw [Table.get?_eq_none_iff, hkeys, ← Table.get?_eq_none_iff, Document.get?_stripEnvelope,
    if_neg (Record.notMem_envelope hname), Table.get?_eq_none_iff]

/-- The names of a patch get what the patch stores under them, -/
theorem get?_rewritten_of_mem (hpatch : Table.Ascending patch) {name : String}
    (hname : name ∉ Record.systemNames) (hmem : name ∈ patch.keys) (doc : Document) (t : Instant) :
    Table.get? name (s.rewritten c selection patch doc t).data =
      Table.get? name (s.incoming c selection doc.data patch) := by
  rw [get?_rewritten hpatch hname]
  cases hget : Table.get? name (s.incoming c selection doc.data patch) with
  | some v => rfl
  | none => exact absurd hmem ((get?_incoming_eq_none_iff hname _).1 hget)

/-- and all other names keep what they have. -/
theorem get?_rewritten_of_notMem (hpatch : Table.Ascending patch) {name : String}
    (hname : name ∉ Record.systemNames) (hnot : name ∉ patch.keys) (doc : Document) (t : Instant) :
    Table.get? name (s.rewritten c selection patch doc t).data = Table.get? name doc.data := by
  rw [get?_rewritten hpatch hname, (get?_incoming_eq_none_iff hname _).2 hnot, Option.none_or]

/-- **What an update writes is found from then on.** -/
theorem stores_rewritten [PatternEngine]
    (h : b.Stores slug id d) {doc : Document} (hdoc : doc.Sound)
    (hid : doc.id = d.id) {t : Instant} (ht : t.Regular) {shown : Record} {saved : Document}
    (hanswer : (b.perform env
      (.update slug doc.id (s.changed c selection patch doc t).toRecord)).1 = .ok shown)
    (hread : Document.ofRecord shown = .ok saved) :
    (b.perform env (.update slug doc.id (s.changed c selection patch doc t).toRecord)).2.Stores
      slug id (s.rewritten c selection patch doc t) := by
  have hsound : (s.changed c selection patch doc t).Sound := sound_changed hdoc ht
  have hupdated : ∀ u ∈ (s.changed c selection patch doc t).updatedAt, u.Regular :=
    of_mem_timestamp fun _ => ht
  rw [hid] at hanswer ⊢
  obtain ⟨hstores, sequence, revision, rfl⟩ := h.update hanswer hread
  rw [← hid] at hread
  rwa [Document.eq_of_read_stamp hsound.data hsound.createdAt hupdated hread] at hstores

/-- What a save does once the document is stored: it leaves a version, and shows the document. -/
def recorded (s : Service) (c : CompiledEntity) (selection : Option LocaleSelection) (t : Instant)
    (saved : Document) : Action ServiceError Document := do
  if c.entity.isVersioned then do
    let _ ← onStore (History.save c.entity c.kind (some saved.id) saved.toRecord .published t)
  pure { saved with data := s.localize c.localizedPaths selection saved.data }

/-- An update that has been answered with the record of its document. -/
def updateFound (s : Service) (c : CompiledEntity) (slug id : String) (patch : Record)
    (params : SaveParams) :
    Except StoreError (Option Record) → Process (Except ServiceError Document)
  | .error e => .done (.error (.store e))
  | .ok none => .done (.error (.documentNotFound slug id))
  | .ok (some record) =>
    match Document.ofRecord record with
    | .error e => .done (.error (.mismatch e))
    | .ok doc => ExceptT.run (s.save c slug (some doc) patch params)

/-- An update that has been answered with the query for its document. -/
def updateQueried (s : Service) (c : CompiledEntity) (slug id : String) (patch : Record)
    (params : SaveParams) : Except StoreError Query → Process (Except ServiceError Document)
  | .error e => .done (.error (.store e))
  | .ok q => .call (.findOne q (.sortedBy [])) (s.updateFound c slug id patch params)

/-- An update that has been answered with the document that it has written. -/
def updateWritten (s : Service) (c : CompiledEntity) (selection : Option LocaleSelection)
    (t : Instant) : Except StoreError Record → Process (Except ServiceError Document)
  | .error e => .done (.error (.store e))
  | .ok record =>
    match Document.ofRecord record with
    | .error e => .done (.error (.mismatch e))
    | .ok saved => ExceptT.run (s.recorded c selection t saved)

/-- **An update asks for its document first.** -/
theorem run_update (hc : s.registry.collection slug = .ok c) :
    ExceptT.run (s.update slug id patch params) =
      .call (.buildQuery slug (some (.compare "id" .equals (.str id))) none)
        (s.updateQueried c slug id patch params) := by
  unfold update
  rw [hc]
  refine congrArg (Process.call (.buildQuery slug _ none)) (funext fun answer => ?_)
  cases answer with
  | error e => rfl
  | ok q =>
    refine congrArg (Process.call (.findOne q _)) (funext fun answer => ?_)
    cases answer with
    | error e => rfl
    | ok found =>
      cases found with
      | none => rfl
      | some record =>
        simp only [Process.bind, Except.mapError, ExceptT.bindCont, documentOf, updateFound]
        cases Document.ofRecord record <;> rfl

/-- **A published update takes a time and writes,** and whatever it does after that does not touch the
collection. -/
theorem run_save (hselect : s.selectLocale params.locale none = .ok selection)
    (hwrite : localeOf selection ≠ some allLocales) (hdraft : draftOf c params = false)
    (doc : Document) :
    ExceptT.run (s.save c slug (some doc) patch params) =
      .call .now fun t => .call (.update slug doc.id (s.changed c selection patch doc t).toRecord)
        (s.updateWritten c selection t) := by
  have hdraft : (params.draft && c.entity.hasDrafts) = false := hdraft
  have hstart : ExceptT.run (s.save c slug (some doc) patch params) = ExceptT.run (do
      let t ← Action.now
      let saved ← store slug (some doc) false
        (if c.entity.timestamps then some (creationOf (some doc) t) else none)
        (if c.entity.timestamps then some t else none)
        (s.patched c selection .published doc.data patch)
      s.recorded c selection t saved) := by
    unfold save recorded
    rw [hselect]
    refine (if_neg hwrite).trans ?_
    rw [hdraft]
    cases c.entity.timestamps <;> rfl
  rw [hstart]
  refine congrArg (Process.call .now) (funext fun t => ?_)
  refine congrArg (Process.call (.update slug doc.id _)) (funext fun answer => ?_)
  cases answer with
  | error e => rfl
  | ok record =>
    simp only [Process.bind, Except.mapError, ExceptT.bindCont, documentOf, updateWritten]
    cases Document.ofRecord record <;> rfl

/-- A value for every locale at once is not saved. -/
theorem run_save_everyLocale (hselect : s.selectLocale params.locale none = .ok selection)
    (hall : localeOf selection = some allLocales) (existing : Option Document) :
    ExceptT.run (s.save c slug existing patch params) = .done (.error .everyLocaleAtOnce) := by
  unfold save
  rw [hselect]
  exact if_pos hall

/-- Calls that neither look for a document, nor take a time, nor change a record of a collection. -/
structure Aside (slug : String) (call : Call) : Prop where
  now : call ≠ .now
  findOne : ∀ q options, call ≠ .findOne q options
  target : call.target? ≠ some slug

/-- **Once its document is stored an update touches no document of the collection any more.** -/
theorem makes_recorded (hslug : c.entity.slug = slug) (t : Instant) (saved : Document) :
    Action.Makes (Aside slug) (s.recorded c selection t saved) := by
  have hversions : some c.entity.versionsCollection ≠ some slug := by
    intro heq
    rw [← hslug] at heq
    exact CompiledEntity.slug_ne_versionsCollection c.entity (Option.some.inj heq).symm
  unfold recorded
  split
  · refine .bind (.mapError (History.makes_save (fun _ => ?_) (fun _ _ => ?_) (fun _ => ?_)
      fun q hq => ?_) _) fun _ => .pure _
    · exact ⟨nofun, nofun, nofun⟩
    · exact ⟨nofun, nofun, nofun⟩
    · exact ⟨nofun, nofun, hversions⟩
    · exact ⟨nofun, nofun, fun heq => hversions ((congrArg some hq).symm.trans heq)⟩
  · exact .pure _

end Service

end HeadlessCms
