import HeadlessCms.Proofs.Localization.RoundTrip
import HeadlessCms.Proofs.Service.Isolation
import HeadlessCms.Proofs.Service.Timing
import HeadlessCms.Proofs.Store.Outcomes

/-!
# A global is stored once

The store does not know that a global has one record only.  It follows from what a save does: it looks for
the record that names the global, and what it writes names the global again, whatever the patch says
(`Service.get?_globalType_patched`).  So a save leaves the records of globals alone, adds one where there
was none, or replaces the one that there is by one with the same id and the same time of creation
(`Service.GlobalStep`).  From this it follows for all that the service writes, one request after the other
(`Service.globals_are_single`).
-/

namespace HeadlessCms

open Time (Instant)
open Service (globalsCollection globalTypeField globalClause)

/-! ### The name of the global -/

namespace LocaleTarget

variable (t : LocaleTarget) {existing : Option Record} {incoming : Record} {name text : String}

/-- Only at its own path is a text put under a locale. -/
theorem get?_wrapAt_text (hget : Table.get? name incoming = some (.str text))
    (hpoint : '.' ∉ name.toList) {path : String} (hne : path ≠ name) :
    Table.get? name (t.wrapAt existing incoming path) = some (.str text) := by
  unfold wrapAt
  split
  · exact hget
  · next head rest hsegments =>
    rw [get?_wrapMember]
    split
    · next hhead =>
      subst hhead
      cases rest with
      | nil =>
        have hsame : path = name :=
          Path.segments_injective (hsegments.trans (Path.segments_of_notMem hpoint).symm)
        exact absurd hsame hne
      | cons next more =>
        rw [hget]
        rfl
    · exact hget

/-- A text under a name that is not localized stays when locales are merged. -/
theorem get?_mergeLocalized_text (hget : Table.get? name incoming = some (.str text))
    (hpoint : '.' ∉ name.toList) {paths : List String} (hname : name ∉ paths) :
    Table.get? name (Record.mergeLocalized t existing paths incoming) = some (.str text) := by
  unfold Record.mergeLocalized
  induction paths generalizing incoming with
  | nil => exact hget
  | cons path rest ih =>
    rw [List.mem_cons, not_or] at hname
    exact ih (t.get?_wrapAt_text hget hpoint (Ne.symm hname.1)) hname.2

end LocaleTarget

/-- **A patch that names a global makes the content name it,** if the name is not localized. -/
theorem Service.get?_globalType_patched {s : Service} {c : CompiledEntity}
    {selection : Option LocaleSelection} {stored patch : Record} {slug : String}
    (hfree : globalTypeField ∉ c.localizedPaths) (hpatch : Table.Ascending patch)
    (hname : Table.get? globalTypeField patch = some (.str slug)) (status : Status) :
    Table.get? globalTypeField (s.patched c selection status stored patch) = some (.str slug) := by
  have hstripped : Table.get? globalTypeField (Document.stripEnvelope patch) = some (.str slug) := by
    rw [Document.get?_stripEnvelope, if_neg (by decide), hname]
  have hincoming : Table.get? globalTypeField (s.incoming c selection stored patch) =
      some (.str slug) := by
    unfold incoming
    split
    · exact LocaleTarget.get?_mergeLocalized_text _ hstripped (by decide) hfree
    · exact hstripped
  have hinserted : Table.get? globalTypeField
      (Table.insertAll (s.incoming c selection stored patch) stored) = some (.str slug) := by
    rw [Table.get?_insertAll (ascending_incoming hpatch), hincoming, Option.some_or]
  unfold patched
  dsimp only
  split
  · rw [Table.get?_insert, if_neg (by decide), hinserted]
  · exact hinserted

/-! ### Records of globals -/

namespace Record

/-- A record of a global: it names the global, and says when it was created if the global has times. -/
structure BelongsTo (e : Entity) (r : Record) : Prop where
  name : Table.get? globalTypeField r = some (.str e.slug)
  created : (Table.get? "createdAt" r).isSome = e.timestamps

/-- A record that is of the same global as another one, with the same id, created at the same time. -/
def Continues (r r' : Record) : Prop :=
  ∀ name ∈ ["id", "createdAt", globalTypeField], Table.get? name r' = Table.get? name r

theorem Continues.refl (r : Record) : r.Continues r :=
  fun _ _ => rfl

theorem Continues.trans {r r' r'' : Record} (h : r.Continues r') (h' : r'.Continues r'') :
    r.Continues r'' :=
  fun name hname => (h' name hname).trans (h name hname)

/-- A record that goes on belongs to the same global. -/
theorem BelongsTo.continues {e : Entity} {r r' : Record} (h : r.BelongsTo e) (hsame : r.Continues r') :
    r'.BelongsTo e :=
  ⟨(hsame globalTypeField (by decide)).trans h.name, by
    rw [hsame "createdAt" (by decide), h.created]⟩

/-- The clause on the name of a global decides every record of a global, if its name is no timestamp. -/
theorem BelongsTo.selects [PatternEngine] {e : Entity} {r : Record} (h : r.BelongsTo e)
    (hplain : Time.readStrict? e.slug = none) (slug : String) :
    Predicate.selects (some ((globalClause slug).mapPaths Path.toData)) r = (e.slug == slug) := by
  have hpath : Path.toData globalTypeField = globalTypeField := by decide
  have hvalue : Record.resolve r globalTypeField = [.str e.slug] := by
    rw [Record.resolve_name (Path.segments_of_notMem (by decide)), h.name]
    rfl
  have hholds : Predicate.holdsFor (some ((globalClause slug).mapPaths Path.toData)) r =
      .ok (e.slug == slug) := by
    rw [globalClause, Predicate.mapPaths_compare, hpath]
    exact Predicate.holds_equals_text hvalue hplain
  rw [Predicate.selects, hholds]
  rfl

end Record

namespace Service

/-- **The records of globals:** each belongs to a global, and no two to the same one. -/
structure OneEach (globals : List Entity) (records : List Record) : Prop where
  belongs : ∀ r ∈ records, ∃ e ∈ globals, r.BelongsTo e
  distinct : (records.map (Table.get? globalTypeField)).Nodup

/-- What a save of a global, draft or not, does to the records of globals. -/
inductive GlobalStep (e : Entity) (draft : Bool) (records : List Record) : List Record → Prop
  | kept : GlobalStep e draft records records
  | added {r : Record} (belongs : r.BelongsTo e)
      (new : ∀ other ∈ records, Table.get? globalTypeField other ≠ some (.str e.slug)) :
      GlobalStep e draft records (records ++ [r])
  | replaced {before after : List Record} {r r' : Record} (published : draft = false)
      (split : records = before ++ r :: after) (continues : r.Continues r') :
      GlobalStep e draft records (before ++ r' :: after)

namespace GlobalStep

variable {e : Entity} {globals : List Entity} {draft : Bool} {records records' : List Record}

/-- **A save leaves one record for each global.** -/
theorem oneEach (h : GlobalStep e draft records records') (he : e ∈ globals)
    (hone : OneEach globals records) : OneEach globals records' := by
  obtain ⟨hbelongs, hdistinct⟩ := hone
  cases h with
  | kept => exact ⟨hbelongs, hdistinct⟩
  | added belongs new =>
    constructor
    · intro other hother
      rcases List.mem_append.1 hother with hother | hother
      · exact hbelongs other hother
      · exact ⟨e, he, List.mem_singleton.1 hother ▸ belongs⟩
    · rw [List.map_append, List.map_singleton, List.nodup_append]
      refine ⟨hdistinct, List.nodup_singleton _, ?_⟩
      intro name hname name' hname' heq
      obtain ⟨other, hother, rfl⟩ := List.mem_map.1 hname
      rw [List.mem_singleton.1 hname', belongs.name] at heq
      exact new other hother heq
  | @replaced before after r r' published split continues =>
    subst split
    constructor
    · intro other hother
      rcases List.mem_append.1 hother with hother | hother
      · exact hbelongs other (List.mem_append_left _ hother)
      · rcases List.mem_cons.1 hother with rfl | hother
        · obtain ⟨e', he', hr⟩ := hbelongs r (List.mem_append_right _ List.mem_cons_self)
          exact ⟨e', he', hr.continues continues⟩
        · exact hbelongs other (List.mem_append_right _ (List.mem_cons_of_mem _ hother))
    · rw [List.map_append, List.map_cons] at hdistinct ⊢
      rwa [continues globalTypeField (by decide)]

/-- **The record of a global lasts.** -/
theorem lasts (h : GlobalStep e draft records records') {r : Record} (hr : r ∈ records) :
    ∃ r' ∈ records', r.Continues r' := by
  cases h with
  | kept => exact ⟨r, hr, .refl r⟩
  | added belongs new => exact ⟨r, List.mem_append_left _ hr, .refl r⟩
  | @replaced before after old new published split continues =>
    rw [split] at hr
    rcases List.mem_append.1 hr with hr | hr
    · exact ⟨r, List.mem_append_left _ hr, .refl r⟩
    · rcases List.mem_cons.1 hr with rfl | hr
      · exact ⟨new, List.mem_append_right _ List.mem_cons_self, continues⟩
      · exact ⟨r, List.mem_append_right _ (List.mem_cons_of_mem _ hr), .refl r⟩

/-- A draft of a global that is there is not stored. -/
theorem eq_of_draft (h : GlobalStep e true records records') {r : Record} (hr : r ∈ records)
    (hname : Table.get? globalTypeField r = some (.str e.slug)) : records' = records := by
  cases h with
  | kept => rfl
  | added belongs new => exact absurd hname (new r hr)
  | replaced published split continues => cases published

end GlobalStep

/-! ### Saving a global -/

variable [PatternEngine]
variable {env : Surroundings} {s : Service} {c : CompiledEntity} {e : Entity} {globals : List Entity}
  {records : List Record} {existing : Option Document} {slug : String}

/-- **A document that is loaded is that of a record which the clause selects;** where none is loaded, the
clause selects no record. -/
theorem keeps_load_records (collection : String) (clause : Predicate) :
    Action.Keeps env (fun b => b.store.recordsOf collection = records) (load collection clause)
      fun existing =>
        (existing = none → ∀ r ∈ records,
          Predicate.selects (some (clause.mapPaths Path.toData)) r = false) ∧
        ∀ d ∈ existing, ∃ r ∈ records,
          Predicate.selects (some (clause.mapPaths Path.toData)) r = true ∧
          Document.ofRecord (Record.sanitize r) = .ok d := by
  unfold load
  refine ((Action.Keeps.buildQuery _ _ _).mapError _).bind fun q hq => ?_
  obtain ⟨_, _, rfl⟩ := hq
  refine ((Action.Keeps.findOne_records ⟨collection, some (clause.mapPaths Path.toData), none⟩ rfl
    _).mapError _).bind fun found hfound => ?_
  obtain ⟨hnone, hsome⟩ := hfound
  cases found with
  | none =>
    refine .pure ⟨fun _ => hnone rfl, fun d hd => ?_⟩
    cases hd
  | some shown =>
    obtain ⟨r, hr, hselects, rfl⟩ := hsome shown rfl
    refine (keeps_documentOf _).bind fun doc hdoc => .pure ⟨fun hnone => ?_, fun d hd => ?_⟩
    · cases hnone
    · cases hd
      exact ⟨r, hr, hselects, hdoc⟩

/-- What is loaded for a global: the document of its record, or none if it has no record. -/
def Loaded (e : Entity) (records : List Record) : Option Document → Prop
  | none => ∀ r ∈ records, Table.get? globalTypeField r ≠ some (.str e.slug)
  | some d => Record.IsData d.data ∧ ∃ r ∈ records, r.BelongsTo e ∧ Record.id? r = some d.id ∧
      d.createdAt.map .ofInstant = Table.get? "createdAt" r

/-- The record of a global is found, if there is one. -/
theorem keeps_load_global (hone : OneEach globals records) (he : e ∈ globals)
    (hslugs : (globals.map (·.slug)).Nodup) (hplain : ∀ e ∈ globals, Time.readStrict? e.slug = none)
    (htimed : ∀ r ∈ records, r.Timed) :
    Action.Keeps env (fun b => b.store.recordsOf globalsCollection = records)
      (load globalsCollection (globalClause e.slug)) (Loaded e records) := by
  refine (keeps_load_records _ _).imp fun existing hexisting => ?_
  obtain ⟨hnone, hsome⟩ := hexisting
  cases existing with
  | none =>
    intro r hr hname
    obtain ⟨e', he', hbelongs⟩ := hone.belongs r hr
    have hslug : e'.slug = e.slug :=
      Json.str.inj (Option.some.inj (hbelongs.name.symm.trans hname))
    have hnot := hnone rfl r hr
    rw [hbelongs.selects (hplain e' he'), hslug, beq_self_eq_true] at hnot
    cases hnot
  | some d =>
    obtain ⟨r, hr, hselects, hread⟩ := hsome d rfl
    obtain ⟨e', he', hbelongs⟩ := hone.belongs r hr
    rw [hbelongs.selects (hplain e' he'), beq_iff_eq] at hselects
    obtain rfl : e' = e := List.inj_on_of_nodup_map hslugs he' he hselects
    have hid := (Document.of_ofRecord hread).1
    have htimes := ((htimed r hr).sanitize.times_of_ofRecord hread).1
    rw [Record.get?_sanitize, if_neg (by decide)] at hid htimes
    refine ⟨Document.isData_of_ofRecord (htimed r hr).sanitize.ascending hread, r, hr, hbelongs, ?_,
      htimes⟩
    rw [Record.id?, hid]
    rfl

/-- Except for drafts of documents that are there, a save starts from the content of the document. -/
theorem keeps_baseOf_published {I : Backend → Prop} (draft : Bool) :
    Action.Keeps env I (baseOf c existing draft) fun base =>
      (existing = none ∨ draft = false) → base = publishedBase existing := by
  refine keeps_baseOf (fun _ _ => rfl) fun hdraft doc hdoc => ?_
  refine (Draft.keeps_resolve _ _ _ _ _).imp fun newest _ hpublished => ?_
  rcases hpublished with rfl | rfl
  · cases hdoc
  · cases hdraft

/-- **A save leads where storing the document leads,** if what comes before it keeps things as they are
and the version keeps what has been led to. -/
theorem leads_save {I J : Backend → Prop} {T : Instant → Prop} {B : Record → Prop}
    {collection : String}
    {params : SaveParams} {patch : Record} (hIJ : ∀ b, I b → J b)
    (hnow : Action.Keeps env I (Action.now : Action ServiceError Instant) T)
    (hbase : Action.Keeps env I (baseOf c existing (draftOf c params)) B)
    (hstore : ∀ selection time base, T time → B base → Action.Leads env I J
      (store collection existing (draftOf c params)
        (if c.entity.timestamps then some (creationOf existing time) else none)
        (if c.entity.timestamps then some time else none)
        (s.patched c selection (statusOf c params) base patch)))
    (hversion : c.entity.isVersioned = true → ∀ parent data status time, Action.Keeps env J
      (History.save c.entity c.kind parent data status time) fun _ => True) :
    Action.Leads env I J (s.save c collection existing patch params) := by
  unfold save
  refine .after (.ofExcept fun _ h => h) hIJ fun selection _ => ?_
  dsimp only
  by_cases hwrite : localeOf selection = some allLocales
  · rw [if_pos hwrite]
    exact .after (.throw (P := fun _ => False) _) hIJ fun _ h => h.elim
  · rw [if_neg hwrite]
    refine .after hnow hIJ fun time htime => ?_
    refine .after hbase hIJ fun base hbase => ?_
    have hstored := hstore selection time base htime hbase
    have hleft (saved : Document) :=
      keeps_versioned (fun hversioned => hversion hversioned (some saved.id) saved.toRecord
        (statusOf c params) time) { saved with data := s.localize c.localizedPaths selection saved.data }
    split
    · next htimestamps =>
      rw [if_pos htimestamps, if_pos htimestamps] at hstored
      exact hstored.followed hleft
    · next htimestamps =>
      rw [if_neg htimestamps, if_neg htimestamps] at hstored
      exact hstored.followed hleft

/-- **Storing a document of a global is a step,** if the content names the global. -/
theorem leads_store_global (hids : (records.map Record.id?).Nodup) (hloaded : Loaded e records existing)
    {draft : Bool} {time : Instant} {updatedAt : Option Instant} {data : Record}
    (hdata : (existing = none ∨ draft = false) → Record.IsData data)
    (hname : Table.get? globalTypeField data = some (.str e.slug)) :
    Action.Leads env (fun b => b.store.recordsOf globalsCollection = records)
      (fun b => GlobalStep e draft records (b.store.recordsOf globalsCollection))
      (store globalsCollection existing draft
        (if e.timestamps then some (creationOf existing time) else none) updatedAt data) := by
  have hkept {b : Backend} (h : b.store.recordsOf globalsCollection = records) :
      GlobalStep e draft records (b.store.recordsOf globalsCollection) := h ▸ .kept
  unfold store
  cases existing with
  | none =>
    have hdata := hdata (Or.inl rfl)
    refine Action.Leads.followed ?_ fun record => (keeps_documentOf record).imp fun _ _ => trivial
    refine .mapError (fun b hb => ?_) _
    rcases Action.Leads.insert_records b hb with hsame | ⟨own, sequence, hadded⟩
    · exact hkept hsame
    · rw [hadded]
      refine .added ⟨?_, ?_⟩ hloaded
      · rw [Store.get?_stamp (by decide), if_neg (by decide), Table.get?_erase, if_neg (by decide),
          Document.get?_toRecord_of_notMem_envelope hdata (by decide), hname]
      · rw [Store.get?_stamp (by decide), if_neg (by decide), Table.get?_erase, if_neg (by decide),
          Document.get?_createdAt_toRecord hdata.isBare]
        cases e.timestamps <;> rfl
  | some doc =>
    obtain ⟨_, r, hr, hbelongs, hid, hcreated⟩ := hloaded
    cases draft with
    | true => exact fun b hb => hkept hb
    | false =>
      have hdata := hdata (Or.inr rfl)
      refine Action.Leads.followed ?_ fun record => (keeps_documentOf record).imp fun _ _ => trivial
      refine .mapError (fun b hb => ?_) _
      rcases Action.Leads.update_records b hb with hsame | ⟨before, found, after, hown, hsplit, hleft⟩
      · exact hkept hsame
      -- Ids differ, so the record that is replaced is the one that has been loaded.
      · have hmem : found ∈ records := hsplit ▸ List.mem_append_right _ List.mem_cons_self
        obtain rfl : found = r := List.inj_on_of_nodup_map hids hmem hr (hown.trans hid.symm)
        rw [hleft]
        refine .replaced rfl hsplit fun name hmember => ?_
        simp only [List.mem_cons, List.not_mem_nil, or_false] at hmember
        rcases hmember with rfl | rfl | rfl
        · rw [Store.revise, Store.get?_id_stamp]
          obtain ⟨value, hvalue, htext⟩ := Option.bind_eq_some_iff.1 hown
          cases value <;> cases htext
          exact hvalue.symm
        · have hthere : (Table.get? "createdAt" found).isSome = e.timestamps := hbelongs.created
          rw [Store.get?_revise_of_notMem (by decide), Document.get?_createdAt_toRecord hdata.isBare,
            ← hcreated]
          rw [← hcreated, Option.isSome_map] at hthere
          cases hfirst : doc.createdAt with
          | none =>
            rw [← hthere, hfirst]
            rfl
          | some t =>
            rw [← hthere, hfirst]
            simp [creationOf, hfirst]
        · rw [Store.get?_revise_of_notMem (by decide),
            Document.get?_toRecord_of_notMem_envelope hdata (by decide), hname, hbelongs.name]

/-- **A save of a global is a step,** whether it succeeds or not. -/
theorem leads_saveGlobal (hc : s.registry.global slug = .ok c) (hslug : c.entity.slug = slug)
    (he : c.entity ∈ globals) (hslugs : (globals.map (·.slug)).Nodup)
    (hplain : ∀ e ∈ globals, Time.readStrict? e.slug = none)
    (hfree : globalTypeField ∉ c.localizedPaths) (hone : OneEach globals records)
    (hids : (records.map Record.id?).Nodup) (htimed : ∀ r ∈ records, r.Timed) {data : Record}
    (hdata : Table.Ascending data) (params : SaveParams) :
    Action.Leads env (fun b => b.store.recordsOf globalsCollection = records)
      (fun b => GlobalStep c.entity (draftOf c params) records (b.store.recordsOf globalsCollection))
      (s.saveGlobal slug data params) := by
  subst hslug
  have hkept (b : Backend) (h : b.store.recordsOf globalsCollection = records) :
      GlobalStep c.entity (draftOf c params) records (b.store.recordsOf globalsCollection) :=
    h ▸ .kept
  have hpatch : Table.Ascending (Table.insert globalTypeField (.str c.entity.slug) data) :=
    Table.ascending_insert hdata
  have hname : Table.get? globalTypeField
      (Table.insert globalTypeField (.str c.entity.slug) data) = some (.str c.entity.slug) := by
    rw [Table.get?_insert, if_pos rfl]
  unfold saveGlobal
  refine .after (.ofExcept fun _ h => h) hkept fun found hfound => ?_
  obtain rfl : found = c := Except.ok.inj (hfound.symm.trans hc)
  refine .after (keeps_load_global hone he hslugs hplain htimed) hkept fun existing hloaded => ?_
  refine Action.Leads.followed ?_ fun _ => .pure trivial
  refine leads_save hkept (.now_store fun s => s.recordsOf globalsCollection = records)
    (keeps_baseOf_published _) (fun selection time base _ hbase => ?_) fun _ parent data status time => ?_
  · refine leads_store_global hids hloaded (fun hstored => ?_)
      (get?_globalType_patched hfree hpatch hname _)
    rw [hbase hstored]
    refine isData_patched ?_ _ _
    cases existing with
    | none => exact Record.IsContent.nil.isData
    | some doc => exact hloaded.1
  · intro b hb
    have hsame : (Action.runOn env (History.save found.entity found.kind parent data status time)
        b).2.store.recordsOf globalsCollection = b.store.recordsOf globalsCollection :=
      (History.keeps_save_beside found.entity.versionsCollection_ne_globals _ _ _ b rfl).1
    dsimp only
    rw [hsame]
    exact ⟨hb, fun _ _ => trivial⟩

/-! ### All requests -/

end Service

/-- What is given with a request. -/
def WriteRequest.data : WriteRequest → Record
  | create _ data _ => data
  | update _ _ patch _ => patch
  | saveGlobal _ data _ => data

namespace Service

variable {config : Config} {registry : Registry} {b b' : Backend}

/-- The backends that are reached from a backend by starting the service and by requests that write,
whatever methods it refuses in between. -/
inductive Later [PatternEngine]
    (env : Surroundings) (registry : Registry) (config : Config) (b : Backend) :
    Backend → Prop
  | same : Later env registry config b b
  | started {b' : Backend} (before : Later env registry config b b') :
      Later env registry config b (Action.runOn env (start registry config) b').2
  | requested {b' : Backend} (before : Later env registry config b b') (request : WriteRequest)
      (table : Table.Ascending request.data) :
      Later env registry config b
        (Action.runOn env (request.run (ofRegistry registry config)) b').2
  | refusing {b' : Backend} (before : Later env registry config b b') (methods : List Method) :
      Later env registry config b { b' with refused := methods }

/-- Later than a backend that is reached lie backends that are reached. -/
theorem Later.reachable [PatternEngine]
    (h : Later env registry config b b') (hreach : Reachable env registry config b) :
    Reachable env registry config b' := by
  induction h with
  | same => exact hreach
  | started _ ih => exact .started ih
  | requested _ request table ih =>
    cases request with
    | create slug data params =>
      exact Action.left_bind_pure (create _ slug data params) () ▸ .created ih slug params table
    | update slug id patch params =>
      exact Action.left_bind_pure (update _ slug id patch params) () ▸ .updated ih slug id params table
    | saveGlobal slug data params =>
      exact Action.left_bind_pure (saveGlobal _ slug data params) () ▸ .savedGlobal ih slug params table
  | refusing _ methods ih => exact .refusing ih methods

/-- Every backend that is reached lies later than the empty one. -/
theorem Reachable.later [PatternEngine]
    (h : Reachable env registry config b) : Later env registry config .empty b := by
  induction h with
  | empty => exact .same
  | started _ ih => exact .started ih
  | @created _ _ slug data params table ih =>
    exact Action.left_bind_pure _ () ▸ ih.requested (.create slug data params) table
  | @updated _ _ slug id patch params table ih =>
    exact Action.left_bind_pure _ () ▸ ih.requested (.update slug id patch params) table
  | @savedGlobal _ _ slug data params table ih =>
    exact Action.left_bind_pure _ () ▸ ih.requested (.saveGlobal slug data params) table
  | refusing _ methods ih => exact .refusing ih methods

/-- Between two moments the records of globals have stayed one for each, and the same ones. -/
structure StaySingle (globals : List Entity) (records records' : List Record) : Prop where
  oneEach : OneEach globals records'
  lasts : ∀ r ∈ records, ∃ r' ∈ records', r.Continues r'

theorem StaySingle.refl (h : OneEach globals records) : StaySingle globals records records :=
  ⟨h, fun r hr => ⟨r, hr, .refl r⟩⟩

/-- Single records stay single in one more save of a global. -/
theorem StaySingle.step {records' records'' : List Record} {draft : Bool}
    (h : StaySingle globals records records') (he : e ∈ globals)
    (hstep : GlobalStep e draft records' records'') : StaySingle globals records records'' := by
  refine ⟨hstep.oneEach he h.oneEach, fun r hr => ?_⟩
  obtain ⟨r', hr', hcontinues⟩ := h.lasts r hr
  obtain ⟨r'', hr'', hcontinues'⟩ := hstep.lasts hr'
  exact ⟨r'', hr'', hcontinues.trans hcontinues'⟩

/-- Starting a service moves no records. -/
theorem keeps_start_records [PatternEngine] (name : String) :
    Action.Keeps env (fun b => b.store.recordsOf name = records) (start registry config)
      fun _ => True := by
  have hdeclare (names : List (String × List String)) :
      Action.Keeps env (fun b => b.store.recordsOf name = records) (declare names)
        fun _ => True := by
    induction names with
    | nil => exact .pure trivial
    | cons n rest ih =>
      have hregister : Action.Keeps env (fun b => b.store.recordsOf name = records)
          (Action.register n.1 n.2) fun _ => True := by
        intro b hb
        have hsame : (b.perform env (.register n.1 n.2)).2.store.recordsOf name =
            b.store.recordsOf name := Store.recordsOf_perform env b (Option.some_ne_none _).symm
        exact ⟨hsame.trans hb, fun _ _ => trivial⟩
      exact hregister.bind fun _ _ => ih
  exact ((hdeclare _).mapError _).bind fun _ _ => .pure trivial

/-- A checked configuration whose globals are told apart by the clauses on their names: no name of a
global is a timestamp, and none localizes the field that holds the name. -/
structure NamesGlobals (config : Config) (registry : Registry) : Prop where
  valid : config.validate = .ok ()
  built : Registry.build config = .ok registry
  plain : ∀ e ∈ config.globals, Time.readStrict? e.slug = none
  free : ∀ e ∈ config.globals, globalTypeField ∉ Field.localizedPaths e.fields

namespace NamesGlobals

/-- The slugs of the globals differ. -/
theorem nodup_globals (h : NamesGlobals config registry) : (config.globals.map (·.slug)).Nodup := by
  have hnodup := (Config.slugs_of_validate h.valid).1
  rw [List.map_append, List.nodup_append] at hnodup
  exact hnodup.2.1

variable [PatternEngine]

/-- **A save of a global of the configuration is a step.** -/
theorem leads_saveGlobal (h : NamesGlobals config registry) (hregular : ∀ n, (env.readings n).Regular)
    (hreach : Reachable env registry config b)
    (hone : OneEach config.globals (b.store.recordsOf globalsCollection))
    (hc : registry.global slug = .ok c) {data : Record} (hdata : Table.Ascending data)
    (params : SaveParams) :
    c.entity ∈ config.globals ∧ GlobalStep c.entity (draftOf c params)
      (b.store.recordsOf globalsCollection)
      ((Action.runOn env ((ofRegistry registry config).saveGlobal slug data params) b).2.store.recordsOf
        globalsCollection) := by
  have hcompiles := Registry.compiles_of_global h.built hc
  obtain ⟨e, he, hslug, hcompile⟩ := hcompiles
  obtain ⟨rfl, _, hpaths⟩ := CompiledEntity.of_compile hcompile
  refine ⟨he, ?_⟩
  exact Service.leads_saveGlobal (s := ofRegistry registry config) hc hslug.symm he h.nodup_globals
    h.plain (hpaths ▸ h.free _ he) hone (hreach.identified.distinct globalsCollection)
    (fun r hr => (hreach.timed hregular).store.recordsOf hr) hdata params b rfl

/-- **A request leaves the records of globals single, and the same ones.** -/
theorem staySingle_request (h : NamesGlobals config registry)
    (hregular : ∀ n, (env.readings n).Regular) (hreach : Reachable env registry config b)
    (hstay : StaySingle config.globals records (b.store.recordsOf globalsCollection))
    (request : WriteRequest) (hdata : Table.Ascending request.data) :
    StaySingle config.globals records
      ((Action.runOn env (request.run (ofRegistry registry config)) b).2.store.recordsOf
        globalsCollection) := by
  have hkept (hapart : ∀ other, request.entity (ofRegistry registry config) = .ok other →
      globalsCollection ≠ request.collection ∧
      (other.entity.isVersioned = true → globalsCollection ≠ other.entity.versionsCollection)) :
      StaySingle config.globals records
        ((Action.runOn env (request.run (ofRegistry registry config)) b).2.store.recordsOf
          globalsCollection) := by
    have hsame : Table.get? globalsCollection
        (Action.runOn env (request.run (ofRegistry registry config)) b).2.store.collections =
          Table.get? globalsCollection b.store.collections :=
      (WriteRequest.keeps_has hapart b rfl).1
    rwa [Store.recordsOf, hsame, ← Store.recordsOf]
  -- Collections have other names than the collection of the globals.
  have hcollection {slug : String} {other : CompiledEntity}
      (hother : registry.collection slug = .ok other) : globalsCollection ≠ slug ∧
        (other.entity.isVersioned = true → globalsCollection ≠ other.entity.versionsCollection) := by
    have hcompiles := Registry.compiles_of_collection h.built hother
    have hne := hcompiles.slug_ne_globals h.valid
    rw [hcompiles.slug_eq] at hne
    exact ⟨hne.symm, fun _ => other.entity.versionsCollection_ne_globals.symm⟩
  cases request with
  | create slug data params => exact hkept fun other hother => hcollection hother
  | update slug id patch params => exact hkept fun other hother => hcollection hother
  | saveGlobal slug data params =>
    have hleft : (Action.runOn env ((WriteRequest.saveGlobal slug data params).run
        (ofRegistry registry config)) b).2 =
          (Action.runOn env ((ofRegistry registry config).saveGlobal slug data params) b).2 :=
      Action.left_bind_pure _ ()
    cases hc : registry.global slug with
    | error error =>
      refine hkept fun other hother => ?_
      cases hother.symm.trans hc
    | ok c =>
      obtain ⟨he, hstep⟩ := h.leads_saveGlobal hregular hreach hstay.oneEach hc hdata params
      rw [hleft]
      exact hstay.step he hstep

/-- **The records of globals stay single, and the same ones.** -/
theorem staySingle (h : NamesGlobals config registry) (hregular : ∀ n, (env.readings n).Regular)
    (hreach : Reachable env registry config b)
    (hone : OneEach config.globals (b.store.recordsOf globalsCollection))
    (hlater : Later env registry config b b') :
    StaySingle config.globals (b.store.recordsOf globalsCollection)
      (b'.store.recordsOf globalsCollection) := by
  induction hlater with
  | same => exact .refl hone
  | @started before _ ih =>
    have hsame : (Action.runOn env (start registry config) before).2.store.recordsOf
        globalsCollection = before.store.recordsOf globalsCollection :=
      (keeps_start_records globalsCollection before rfl).1
    rwa [hsame]
  | requested before request table ih =>
    exact h.staySingle_request hregular (before.reachable hreach) ih request table
  | refusing _ methods ih => exact ih

/-- **On every backend that is reached each global has one record at most.** -/
theorem oneEach (h : NamesGlobals config registry) (hregular : ∀ n, (env.readings n).Regular)
    (hreach : Reachable env registry config b) :
    OneEach config.globals (b.store.recordsOf globalsCollection) :=
  (h.staySingle hregular .empty ⟨fun _ hr => absurd hr List.not_mem_nil, List.nodup_nil⟩
    hreach.later).oneEach

end NamesGlobals

/-- **A global stays single.**  On every backend that is reached, each record of globals names one of them,
and no two name the same one.  Whatever is written after that, and whatever is refused, there is a record
with the same name, id and time of creation.  And a draft of a global that is there leaves all of them as
they are. -/
theorem globals_are_single [PatternEngine] (h : NamesGlobals config registry)
    (hregular : ∀ n, (env.readings n).Regular) (hreach : Reachable env registry config b) :
    OneEach config.globals (b.store.recordsOf globalsCollection) ∧
    (∀ b', Later env registry config b b' → ∀ r ∈ b.store.recordsOf globalsCollection,
      ∃ r' ∈ b'.store.recordsOf globalsCollection, r.Continues r') ∧
    ∀ slug c, registry.global slug = .ok c →
      ∀ r ∈ b.store.recordsOf globalsCollection,
        Table.get? globalTypeField r = some (.str slug) →
        ∀ data params, Table.Ascending data → draftOf c params = true →
          (Action.runOn env ((ofRegistry registry config).saveGlobal slug data params)
            b).2.store.recordsOf globalsCollection = b.store.recordsOf globalsCollection := by
  have hone := h.oneEach hregular hreach
  refine ⟨hone, fun b' hlater => (h.staySingle hregular hreach hone hlater).lasts, ?_⟩
  intro slug c hc r hr hname data params hdata hdraft
  obtain ⟨_, hstep⟩ := h.leads_saveGlobal hregular hreach hone hc hdata params
  rw [hdraft] at hstep
  obtain rfl : c.slug = slug := (Registry.compiles_of_global h.built hc).slug_eq
  exact hstep.eq_of_draft hr hname

/-! A banner with drafts, beside a footer.  It is saved with another name, an id and a time of its own. -/

def banner : Entity :=
  (Entity.ofFields "banner" [{ Field.ofKind "title" .text with localized := true }]).withDrafts

def bannerConfig : Config :=
  ⟨[], [banner, Entity.ofFields "footer" [Field.ofKind "title" .text]],
    some ⟨["en", "de"], "en", true⟩, .standard, .standard⟩

def bannerRegistry : Registry :=
  (Registry.build bannerConfig).toOption.getD ⟨[], []⟩

def bannerData : Record :=
  [("createdAt", .str "today"), ("globalType", .str "footer"), ("id", .str "mine"),
    ("title", .str "Sale")]

/-- A backend on which the banner has been published. -/
def bannerBackend : Backend :=
  (Action.runOn .backward ((ofRegistry bannerRegistry bannerConfig).saveGlobal "banner" bannerData
    ⟨false, some "en"⟩) (Action.runOn .backward (start bannerRegistry bannerConfig) .empty).2).2

/-- The banner again, with its version refused. -/
def bannerAgain : Backend :=
  (Action.runOn .backward ((WriteRequest.saveGlobal "banner" bannerData ⟨false, some "de"⟩).run
    (ofRegistry bannerRegistry bannerConfig)) { bannerBackend with refused := [.insert] }).2

/-- What the records of globals say they are. -/
def globalNames (b : Backend) : List (Option String) :=
  (b.store.recordsOf globalsCollection).map fun r => (Table.get? globalTypeField r).bind Json.asString?

theorem globals_are_single_banner :
    globalNames bannerBackend = [some "banner"] ∧
    OneEach bannerConfig.globals (bannerBackend.store.recordsOf globalsCollection) ∧
    (∀ r ∈ bannerBackend.store.recordsOf globalsCollection,
      ∃ r' ∈ bannerAgain.store.recordsOf globalsCollection, r.Continues r') ∧
    (Action.runOn .backward ((ofRegistry bannerRegistry bannerConfig).saveGlobal "banner" bannerData
      ⟨true, some "de"⟩) bannerBackend).2.store.recordsOf globalsCollection =
        bannerBackend.store.recordsOf globalsCollection := by
  have hconfig : NamesGlobals bannerConfig bannerRegistry :=
    ⟨rfl, rfl, by decide +kernel, by decide +kernel⟩
  have hdata : Table.Ascending bannerData :=
    Table.ascending_of_keys ["createdAt", "globalType", "id", "title"] (List.Sublist.refl _) (by decide)
  have hreach : Reachable .backward bannerRegistry bannerConfig bannerBackend :=
    .savedGlobal (.started .empty) "banner" ⟨false, some "en"⟩ hdata
  have hnames : globalNames bannerBackend = [some "banner"] := by decide +kernel
  obtain ⟨hone, hlasts, hdraft⟩ :=
    globals_are_single hconfig Surroundings.proper_backward.regular hreach
  refine ⟨hnames, hone, hlasts _ ((Later.same.refusing [.insert]).requested
    (.saveGlobal "banner" bannerData ⟨false, some "de"⟩) hdata), ?_⟩
  obtain ⟨c, hc⟩ : ∃ c, bannerRegistry.global "banner" = .ok c := ⟨_, rfl⟩
  have hdrafts : draftOf c ⟨true, some "de"⟩ = true := by
    cases hc
    rfl
  obtain ⟨r, hr, hname⟩ := List.mem_map.1
    (show some "banner" ∈ globalNames bannerBackend from hnames ▸ List.mem_singleton_self _)
  obtain ⟨value, hvalue, htext⟩ := Option.bind_eq_some_iff.1 hname
  cases value <;> cases htext
  exact hdraft "banner" c hc r hr hvalue bannerData _ hdata hdrafts

end Service

end HeadlessCms
