import HeadlessCms.Proofs.Field.LocalizedPaths
import HeadlessCms.Proofs.Service.Saving
import HeadlessCms.Proofs.Service.Starting

/-!
# Documents and their drafts over whole runs

To editors each document is two slots: what is live, and the draft that is pending over it.  A
`Desk` holds these slots, and `Desk.Step` says how an edit changes them: a new document is live and
has no draft, a published change goes into the live slot and drops the draft, and a draft builds on
the draft before it and leaves the live slot alone.

The stored collections know nothing of a pending slot; it is found again by a query over versions that
are compared by time and pruned after every save.  The main result, `Service.desk_refinement`, says
that the service answers every sequence of edits as the two slots do, and shows afterwards exactly what
is in them.
-/

namespace HeadlessCms

open Time (Instant)

/-! ### Edits -/

/-- A request that writes. -/
inductive Edit where
  | create (data : Record) (params : SaveParams)
  | update (id : String) (patch : Record) (params : SaveParams)

namespace Edit

def params : Edit → SaveParams
  | create _ params => params
  | update _ _ params => params

def patch : Edit → Record
  | create data _ => data
  | update _ patch _ => patch

/-- An edit in one of the locales, with a patch that does not touch what the store keeps in
records. -/
structure Writable (locales : Option Locales) (e : Edit) : Prop where
  patch : e.patch.IsPatch
  locale : ∀ l ∈ locales,
    e.params.locale.getD l.default ∈ l.names ∧ e.params.locale.getD l.default ≠ allLocales

end Edit

namespace Service

/-- What the service does for an edit. -/
def serve (s : Service) (slug : String) : Edit → Action ServiceError Document
  | .create data params => s.create slug data params
  | .update id patch params => s.update slug id patch params

/-- The answers to edits that come one after the other, and the backend that they leave. -/
def serveAll [PatternEngine] (env : Surroundings) (s : Service) (slug : String) :
    List Edit → Backend → List (Except ServiceError Document) × Backend
  | [], b => ([], b)
  | e :: rest, b =>
    let (answer, b) := Action.runOn env (s.serve slug e) b
    let (answers, b) := serveAll env s slug rest b
    (answer :: answers, b)

end Service

/-- Edits take no readings back. -/
theorem Service.taken_le_serveAll [PatternEngine] (env : Surroundings) (s : Service) (slug : String)
    (edits : List Edit) (b : Backend) :
    b.clock.taken ≤ (s.serveAll env slug edits b).2.clock.taken := by
  induction edits generalizing b with
  | nil => exact Nat.le_refl _
  | cons e rest ih => exact Nat.le_trans (Action.taken_le_runOn env _ b) (ih _)

/-! ### The two slots -/

/-- A document: what is live, and the draft that is pending over it. -/
structure Slots where
  live : Slot
  pending : Option Slot

/-- What is shown of a document. -/
def Slots.shown (x : Slots) (draft : Bool) : Slot :=
  if draft then x.pending.getD x.live else x.live

/-- The documents by id, and how many saves there have been. -/
structure Desk where
  slots : String → Option Slots
  saves : Nat

namespace Desk

def empty : Desk :=
  ⟨fun _ => none, 0⟩

/-- The desk after a save of a document. -/
def put (d : Desk) (id : String) (x : Slots) : Desk :=
  ⟨fun other => if other = id then some x else d.slots other, d.saves + 1⟩

/-- What the saves of a collection depend on. -/
structure Rules where
  slug : String
  locales : Option Locales
  /-- The paths of the localized fields. -/
  paths : List String
  /-- The times of saves. -/
  times : Nat → Instant

namespace Rules

/-- Content after a patch: the fields of the patch replace those that were there, the localized ones
in the locale of the request, and the status is that of the save. -/
def applied (r : Rules) (params : SaveParams) (content patch : Record) : Record :=
  let fields := Document.stripEnvelope patch
  let stored :=
    match r.locales with
    | some l =>
      Record.mergeLocalized ⟨l.names, params.locale.getD l.default⟩ (some content) r.paths fields
    | none => fields
  Table.insert Status.field (.str params.status.name) (Table.insertAll stored content)

/-- The answer to a save: the document as it reads in the locale of the request. -/
def answer (r : Rules) (params : SaveParams) (id : String) (x : Slot) : Document :=
  let d := x.toDocument id
  match r.locales with
  | some l =>
    let fallback := if l.fallback then some l.default else none
    { d with
      data := Record.localize ⟨l.names, params.locale.getD l.default, fallback⟩ r.paths d.data }
  | none => d

end Rules

/-- How an edit changes the slots, and what it is answered. -/
inductive Step (r : Rules) : Desk → Edit → Except ServiceError Document → Desk → Prop where
  | create {d : Desk} {id : String} {data : Record} {params : SaveParams} {live : Slot}
      (hnew : d.slots id = none)
      (hlive : live = ⟨r.times d.saves, r.times d.saves, r.applied params [] data⟩) :
      Step r d (.create data params) (.ok (r.answer params id live)) (d.put id ⟨live, none⟩)
  | publish {d : Desk} {id : String} {x : Slots} {patch : Record} {params : SaveParams}
      {live : Slot} (hdoc : d.slots id = some x) (hpublished : params.draft = false)
      (hlive : live =
        ⟨x.live.createdAt, r.times d.saves, r.applied params x.live.data patch⟩) :
      Step r d (.update id patch params) (.ok (r.answer params id live)) (d.put id ⟨live, none⟩)
  | draft {d : Desk} {id : String} {x : Slots} {patch : Record} {params : SaveParams}
      {content : Record} (hdoc : d.slots id = some x) (hdraft : params.draft = true)
      (hcontent : content = r.applied params (x.shown true).data patch) :
      Step r d (.update id patch params)
        (.ok (r.answer params id ⟨x.live.createdAt, r.times d.saves, content⟩))
        (d.put id ⟨x.live, some ⟨r.times d.saves, r.times d.saves, content⟩⟩)
  | missing {d : Desk} {id : String} {patch : Record} {params : SaveParams}
      (hnone : d.slots id = none) :
      Step r d (.update id patch params) (.error (.documentNotFound r.slug id)) d

/-- How edits that come one after the other change the slots. -/
inductive Run (r : Rules) :
    Desk → List Edit → List (Except ServiceError Document) → Desk → Prop where
  | nil {d : Desk} : Run r d [] [] d
  | cons {d d' d'' : Desk} {e : Edit} {edits : List Edit} {answer : Except ServiceError Document}
      {answers : List (Except ServiceError Document)} (hstep : Step r d e answer d')
      (hrun : Run r d' edits answers d'') : Run r d (e :: edits) (answer :: answers) d''

end Desk

/-! ### The slots in the ledger -/

namespace Ledger

/-- The slots that a ledger amounts to. -/
def desk (l : Ledger) (saves : Nat) : Desk :=
  ⟨fun id => (l.live? id).map fun live => ⟨live, pending? l.history id live.updatedAt⟩, saves⟩

/-- What the ledger has for a reader is what the slot shows. -/
theorem draft?_eq_shown (l : Ledger) (saves : Nat) (id : String) (draft : Bool) :
    (if draft then l.draft? id else l.live? id) =
      ((l.desk saves).slots id).map (·.shown draft) := by
  cases draft <;> cases hlive : l.live? id <;> simp [draft?, desk, hlive, Slots.shown]

section

variable {env : Surroundings} {taken drawn saves keep : Nat} {l : Ledger} {x : Snapshot}
  {id : String} {slot old : Slot} {status : Status}

/-- A save adds a snapshot with an id of its own. -/
theorem Sound.nodup_concat (h : l.Sound env taken drawn) {d : Document} {time : Instant}
    (hx : x.IsSave l.history d status time) : ((l.history ++ [x]).map (·.id)).Nodup := by
  rw [List.map_append, List.nodup_append]
  refine ⟨h.history_nodup, List.nodup_singleton _, fun id hid other hother heq => ?_⟩
  rw [List.map_singleton, List.mem_singleton] at hother
  exact hx.new (hother ▸ heq ▸ hid)

/-- A save changes the slots of its document only. -/
theorem desk_recorded (hids : ((l.history ++ [x]).map (·.id)).Nodup) (hid : x.doc.id = id)
    {docs : List (String × Slot)}
    (hdocs : ∀ other, live? ⟨docs, recorded keep l.history x⟩ other =
      if other = id then some slot else l.live? other) :
    desk ⟨docs, recorded keep l.history x⟩ (saves + 1) = (l.desk saves).put id
      ⟨slot, pending? (recorded keep l.history x) id slot.updatedAt⟩ := by
  unfold desk Desk.put
  congr 1
  funext other
  simp only [hdocs]
  by_cases hother : other = id
  · simp [hother]
  · simp only [hother, if_false]
    cases l.live? other with
    | none => rfl
    | some live => simp [pending?_recorded_of_ne keep hids (hid ▸ hother)]

/-- **A new document is live, and nothing is pending.** -/
theorem desk_saveNew (h : l.Sound env taken drawn) (hnew : id ∉ l.docs.map (·.1))
    (hx : x.IsSave l.history (slot.toDocument id) status slot.updatedAt)
    (hbefore : ∀ y ∈ l.history, y.time.isBefore slot.updatedAt = true) :
    desk ⟨l.docs ++ [(id, slot)], recorded keep l.history x⟩ (saves + 1) =
      (l.desk saves).put id ⟨slot, none⟩ := by
  have hids := h.nodup_concat hx
  have hid : x.doc.id = id := congrArg Document.id hx.doc
  have hnone := pending?_recorded_published keep hids (hx.time ▸ hbefore)
  rw [hid, hx.time] at hnone
  rw [desk_recorded hids hid fun _ => live?_addDoc l.docs l.history _ slot hnew, hnone]

/-- **A published change is live, and nothing is pending any more.** -/
theorem desk_savePublished (h : l.Sound env taken drawn) (hold : l.live? id = some old)
    (hx : x.IsSave l.history (slot.toDocument id) status slot.updatedAt)
    (hbefore : ∀ y ∈ l.history, y.time.isBefore slot.updatedAt = true) :
    desk ⟨Store.Holds.replaceItem (·.1) id (id, slot) l.docs, recorded keep l.history x⟩
      (saves + 1) = (l.desk saves).put id ⟨slot, none⟩ := by
  have hids := h.nodup_concat hx
  have hid : x.doc.id = id := congrArg Document.id hx.doc
  have hmem : id ∈ l.docs.map (·.1) := List.mem_map_of_mem (mem_of_live? hold)
  have hnone := pending?_recorded_published keep hids (hx.time ▸ hbefore)
  rw [hid, hx.time] at hnone
  rw [desk_recorded hids hid fun _ => live?_replaceDoc l.docs l.history _ slot hmem, hnone]

/-- **A draft is pending, and what is live stays.** -/
theorem desk_saveDraft (h : l.Sound env taken drawn) (hold : l.live? id = some old)
    (hx : x.IsSave l.history (slot.toDocument id) status slot.updatedAt) (hdraft : status = .draft)
    (hafter : old.updatedAt.isBefore slot.updatedAt = true) :
    desk ⟨l.docs, recorded keep l.history x⟩ (saves + 1) = (l.desk saves).put id
      ⟨old, some ⟨slot.updatedAt, slot.updatedAt, slot.data⟩⟩ := by
  have hids := h.nodup_concat hx
  have hid : x.doc.id = id := congrArg Document.id hx.doc
  have hsome := pending?_recorded_draft keep hids (hx.status.trans hdraft)
    (hx.time ▸ hafter)
  have hslot : x.slot = ⟨slot.updatedAt, slot.updatedAt, slot.data⟩ := by
    simp only [Snapshot.slot, hx.time, hx.doc]
    rfl
  rw [hid, hslot] at hsome
  have hdocs : ∀ other, live? ⟨l.docs, recorded keep l.history x⟩ other =
      if other = id then some old else l.live? other := by
    intro other
    split
    · next heq => rw [heq]; exact hold
    · rfl
  rw [desk_recorded hids hid hdocs, hsome]

end

/-! ### The service follows the slots -/

section

variable {env : Surroundings} {c : CompiledEntity} {s : Service} {l : Ledger} {b : Backend}
  {taken : Nat}

/-- The rules by which a service saves documents of a collection. -/
def rules (env : Surroundings) (s : Service) (c : CompiledEntity) : Desk.Rules :=
  ⟨c.slug, s.localization, c.localizedPaths, Clock.times env.readings⟩

/-- The locale in which an edit is made. -/
def selectionFor (locales : Option Locales) (locale : Option String) : Option LocaleSelection :=
  locales.map fun l => ⟨locale.getD l.default, if l.fallback then some l.default else none⟩

/-- The locale of an edit that can be written is selected. -/
theorem selectLocale_of_writable {e : Edit} (h : e.Writable s.localization) :
    s.selectLocale e.params.locale none = .ok (selectionFor s.localization e.params.locale) ∧
      Service.localeOf (selectionFor s.localization e.params.locale) ≠ some allLocales := by
  unfold Service.selectLocale selectionFor Service.localeOf
  cases hlocales : s.localization with
  | none => simp
  | some l =>
    obtain ⟨hmem, hne⟩ := h.locale l hlocales
    have hhas : l.has (e.params.locale.getD l.default) = true := by
      simpa [Locales.has] using hmem
    simp [hhas, Service.selectFallback, bind, Except.bind, hne]

/-- The content that a save writes is the one that the rules of the desk make. -/
theorem patched_eq_applied (hc : c.Drafted) (params : SaveParams) (content patch : Record) :
    s.patched c (selectionFor s.localization params.locale) params.status content patch =
      (rules env s c).applied params content patch := by
  unfold Service.patched Service.incoming Desk.Rules.applied rules selectionFor
  cases s.localization <;> simp [hc.drafts]

/-- The answer to an edit is the one that the rules of the desk give. -/
theorem inLocale_eq_answer (params : SaveParams) (id : String) (x : Slot) :
    s.inLocale c.localizedPaths (selectionFor s.localization params.locale) (x.toDocument id) =
      (rules env s c).answer params id x := by
  unfold Service.inLocale Service.localize Desk.Rules.answer rules selectionFor
  cases s.localization <;> rfl

variable [PatternEngine]

/-- Creating a document is a save without a document before it. -/
theorem serve_create (hcollection : s.registry.collection c.slug = .ok c) (data : Record)
    (params : SaveParams) :
    Action.runOn env (s.serve c.slug (.create data params)) b =
      Action.runOn env (s.save c c.slug none data params) b :=
  Action.runOn_bind_ok (Action.runOn_ofExcept_ok hcollection) _

/-- Updating a document is a save over the live one, if there is one. -/
theorem Standing.serve_update (h : Standing env c taken l b) (henv : env.Proper) (hc : c.Drafted)
    (hcollection : s.registry.collection c.slug = .ok c) (id : String) (patch : Record)
    (params : SaveParams) :
    Action.runOn env (s.serve c.slug (.update id patch params)) b =
      match l.live? id with
      | none => (.error (.documentNotFound c.slug id), b)
      | some live =>
        Action.runOn env (s.save c c.slug (some (live.toDocument id)) patch params) b := by
  have hload := h.runOn_load henv hc id
  show Action.runOn env (s.update c.slug id patch params) b = _
  unfold Service.update
  rw [Action.runOn_bind_ok (Action.runOn_ofExcept_ok hcollection),
    Action.runOn_bind_ok hload]
  cases l.live? id <;> rfl

/-- **Every edit is a step of the slots.** -/
theorem Standing.serve_refines (h : Standing env c taken l b) (henv : env.Proper) (hc : c.Drafted)
    (hcollection : s.registry.collection c.slug = .ok c) {e : Edit}
    (hwritable : e.Writable s.localization)
    (hyears : ∀ n < (Action.runOn env (s.serve c.slug e) b).2.clock.taken,
      (Clock.times env.readings n).FourDigitYear) :
    ∃ answer b' l' taken', Action.runOn env (s.serve c.slug e) b = (answer, b') ∧
      Standing env c taken' l' b' ∧
      (l.desk taken).Step (rules env s c) e answer (l'.desk taken') := by
  obtain ⟨hselect, hwrite⟩ := selectLocale_of_writable hwritable
  -- A save takes the next time of the clock, so that time has a year of four digits.
  have hprintable : taken < (Action.runOn env (s.serve c.slug e) b).2.clock.taken →
      (Clock.times env.readings taken).Printable := fun htaken =>
    ⟨Clock.regular_times henv.regular taken, hyears taken htaken⟩
  have htaken : taken = b.clock.taken := by rw [h.clock, Clock.taken_after]
  have hbefore : ∀ y ∈ l.history, y.time.isBefore (Clock.times env.readings taken) = true :=
    fun y hy => (h.sound.snapshots y hy).2.isBefore_times taken (Nat.le_refl _)
  cases e with
  | create data params =>
    rw [serve_create hcollection] at hprintable ⊢
    have htime := hprintable (htaken ▸ Service.taken_lt_save hselect hwrite)
    obtain ⟨id, x, b', hnew, hx, hrun, hstanding⟩ :=
      h.runOn_saveNew henv hc hselect hwrite hwritable.patch htime rfl
    refine ⟨_, b', _, taken + 1, hrun, hstanding, ?_⟩
    rw [desk_saveNew h.sound hnew hx hbefore, inLocale_eq_answer]
    exact .create (by simp [desk, live?_eq_none_iff.2 hnew])
      (congrArg (Slot.mk _ _) (patched_eq_applied hc _ _ _))
  | update id patch params =>
    rw [h.serve_update henv hc hcollection] at hprintable ⊢
    cases hlive : l.live? id with
    | none => exact ⟨_, b, l, taken, rfl, h, .missing (by simp [desk, hlive])⟩
    | some old =>
      simp only [hlive] at hprintable ⊢
      have htime := hprintable (htaken ▸ Service.taken_lt_save hselect hwrite)
      have hdoc : (l.desk taken).slots id =
          some ⟨old, pending? l.history id old.updatedAt⟩ := by simp [desk, hlive]
      cases hdraft : params.draft with
      | false =>
        obtain ⟨x, b', hx, hrun, hstanding⟩ :=
          h.runOn_savePublished henv hc hselect hwrite hwritable.patch htime hdraft hlive rfl
        refine ⟨_, b', _, taken + 1, hrun, hstanding, ?_⟩
        rw [desk_savePublished h.sound hlive hx hbefore, inLocale_eq_answer]
        exact .publish hdoc hdraft (congrArg (Slot.mk _ _) (patched_eq_applied hc _ _ _))
      | true =>
        obtain ⟨x, b', hx, hrun, hstanding⟩ :=
          h.runOn_saveDraft henv hc hselect hwrite hwritable.patch htime hdraft hlive rfl
        refine ⟨_, b', _, taken + 1, hrun, hstanding, ?_⟩
        have hstatus : params.status = .draft := by simp [SaveParams.status, hdraft]
        have hafter : old.updatedAt.isBefore (Clock.times env.readings taken) = true :=
          (h.sound.slots _ (mem_of_live? hlive)).updatedAt.isBefore_times taken (Nat.le_refl _)
        rw [desk_saveDraft h.sound hlive hx hstatus hafter, inLocale_eq_answer]
        exact .draft hdoc hdraft (patched_eq_applied hc _ _ _)

/-- **Every run is a run of the slots.** -/
theorem Standing.serveAll_refines (henv : env.Proper) (hc : c.Drafted)
    (hcollection : s.registry.collection c.slug = .ok c) {edits : List Edit}
    (hwritable : ∀ e ∈ edits, e.Writable s.localization) (h : Standing env c taken l b)
    (hyears : ∀ n < (s.serveAll env c.slug edits b).2.clock.taken,
      (Clock.times env.readings n).FourDigitYear) :
    ∃ l' taken', Standing env c taken' l' (s.serveAll env c.slug edits b).2 ∧
      (l.desk taken).Run (rules env s c) edits (s.serveAll env c.slug edits b).1
        (l'.desk taken') := by
  induction edits generalizing l b taken with
  | nil => exact ⟨l, taken, h, .nil⟩
  | cons e rest ih =>
    have hfirst : ∀ n < (Action.runOn env (s.serve c.slug e) b).2.clock.taken,
        (Clock.times env.readings n).FourDigitYear := fun n hn =>
      hyears n (Nat.lt_of_lt_of_le hn (Service.taken_le_serveAll env s c.slug rest _))
    obtain ⟨answer, b', l', taken', hrun, hstanding, hstep⟩ :=
      h.serve_refines henv hc hcollection (hwritable e List.mem_cons_self) hfirst
    have hall : s.serveAll env c.slug (e :: rest) b =
        (answer :: (s.serveAll env c.slug rest b').1, (s.serveAll env c.slug rest b').2) := by
      simp only [Service.serveAll, hrun]
    rw [hall] at hyears ⊢
    obtain ⟨l'', taken'', hstanding', hsteps⟩ :=
      ih (fun e he => hwritable e (List.mem_cons_of_mem _ he)) hstanding hyears
    exact ⟨l'', taken'', hstanding', .cons hstep hsteps⟩

end

end Ledger

/-! ### The collection of a configuration -/

namespace Service

variable {config : Config} {registry : Registry} {e : Entity} {env : Surroundings}

/-- The names under which documents and the store keep something other than values of fields. -/
def takenNames : List String :=
  Record.reservedNames ++ [Status.field]

/-- A collection with times and drafts in a configuration of its own, that everybody may read and
in which no field has a name that is taken. -/
structure OnlyCollection (config : Config) (e : Entity) : Prop where
  checked : config.validate = .ok ()
  collections : config.collections = [e]
  globals : config.globals = []
  timestamps : e.timestamps = true
  drafts : e.hasDrafts = true
  read : e.read = .allow true
  names : ∀ name ∈ takenNames, Field.findIn? name e.fields = none

/-- The only collection has drafts. -/
theorem OnlyCollection.drafted (h : OnlyCollection config e) {c : CompiledEntity}
    (hc : CompiledEntity.compile .collection e = .ok c) : c.Drafted := by
  obtain ⟨hentity, hkind, hpaths⟩ := CompiledEntity.of_compile hc
  have hnot : ∀ name ∈ takenNames, '.' ∉ name.toList → name ∉ c.localizedPaths :=
    fun name hname hpoint => hpaths ▸ Field.notMem_localizedPaths (h.names name hname) hpoint
  exact ⟨hkind, hentity ▸ h.timestamps, hentity ▸ h.drafts, hnot "id" (by decide) (by decide),
    hnot Status.field (by decide) (by decide)⟩

/-- **A service that has just been started keeps the empty ledger.** -/
theorem OnlyCollection.standing [PatternEngine] (h : OnlyCollection config e) {c : CompiledEntity}
    (hc : CompiledEntity.compile .collection e = .ok c) :
    Ledger.Standing env c 0 .empty
      (Action.runOn env (start ⟨[(e.slug, c)], []⟩ config) Backend.empty).2 := by
  obtain ⟨hentity, hkind, _⟩ := CompiledEntity.of_compile hc
  have hslug : c.slug = e.slug := congrArg Entity.slug hentity
  have hdeclared : storeCollections ⟨[(e.slug, c)], []⟩ =
      [(c.slug, c.localizedPaths), (globalsCollection, []),
        (c.entity.versionsCollection, c.versionLocalizedPaths)] := by
    simp [storeCollections, Registry.allCollections, Registry.allGlobals, globalPaths,
      (h.drafted hc).isVersioned]
  have hreserved : c.slug ≠ globalsCollection := by
    have hall := (Config.slugs_of_validate h.checked).2 e.slug (by simp [h.collections])
    rintro heq
    exact hall (hslug ▸ heq ▸ by decide)
  have hversionsGlobals : c.entity.versionsCollection ≠ globalsCollection := by
    intro heq
    have hhead := congrArg (fun s : String => s.toList.head?) heq
    simp [Entity.versionsCollection, globalsCollection] at hhead
  have hnodup : ([(c.slug, c.localizedPaths), (globalsCollection, []),
      (c.entity.versionsCollection, c.versionLocalizedPaths)].map (·.1)).Nodup := by
    have hversions : c.slug ≠ c.entity.versionsCollection :=
      CompiledEntity.slug_ne_versionsCollection c.entity
    simp [hreserved, hversions, hversionsGlobals.symm]
  rw [runOn_start rfl, hdeclared]
  refine ⟨⟨rfl, ?_, ?_⟩, ?_, rfl⟩
  · exact Store.holds_nil_declared (by simp) hnodup rfl _
  · exact Store.holds_nil_declared (by simp) hnodup rfl _
  · rw [Store.drawn_declare]
    exact Ledger.Sound.empty

/-- **Every document behaves as two slots, whatever the edits.**  The service starts, answers each
edit as the slots do, and afterwards shows what is in them: the live slot to ordinary readers, and the
pending one where there is one to readers who ask for drafts. -/
theorem desk_refinement [PatternEngine]
    (h : OnlyCollection config e) (hbuild : Registry.build config = .ok registry)
    (henv : env.Proper) {edits : List Edit}
    (hwritable : ∀ edit ∈ edits, edit.Writable config.localization)
    (hyears : ∀ n < (serveAll env (ofRegistry registry config) e.slug edits
      (Action.runOn env (start registry config) Backend.empty).2).2.clock.taken,
        (Clock.times env.readings n).FourDigitYear) :
    let s := ofRegistry registry config
    let started := Action.runOn env (start registry config) Backend.empty
    let outcome := serveAll env s e.slug edits started.2
    let paths := Field.localizedPaths e.fields
    started.1 = .ok s ∧ ∃ d : Desk,
      Desk.Run ⟨e.slug, config.localization, paths, Clock.times env.readings⟩ .empty edits
        outcome.1 d ∧
      (∀ id params, Action.runOn env (s.findById e.slug id params) outcome.2 =
        (do
          let selection ← s.selectLocale params.locale params.fallbackLocale
          match d.slots id with
          | none => .error (.documentNotFound e.slug id)
          | some x => .ok (s.inLocale paths selection ((x.shown params.draft).toDocument id)),
          outcome.2)) ∧
      (∀ params, ∃ result, Action.runOn env (s.find e.slug params) outcome.2 = (result, outcome.2) ∧
        ∀ page, result = .ok page → ∃ selection,
          s.selectLocale params.locale params.fallbackLocale = .ok selection ∧
          ∀ shown ∈ page.docs, ∃ id x, d.slots id = some x ∧
            shown = s.inLocale paths selection ((x.shown params.draft).toDocument id)) := by
  intro s started outcome paths
  obtain ⟨c, hc, rfl⟩ := Registry.build_singleton h.collections h.globals hbuild
  obtain ⟨hentity, _, hpaths⟩ := CompiledEntity.of_compile hc
  have hslug : c.slug = e.slug := congrArg Entity.slug hentity
  have hdrafted := h.drafted hc
  have hread : c.entity.read = .allow true := hentity ▸ h.read
  have hcollection : s.registry.collection c.slug = .ok c := by
    simp [s, ofRegistry, Registry.collection, Table.get?, hslug]
  have hstanding : Ledger.Standing env c 0 .empty started.2 := h.standing hc
  have hrules : (⟨e.slug, config.localization, paths, Clock.times env.readings⟩ : Desk.Rules) =
      Ledger.rules env s c := by
    simp only [Ledger.rules, hslug, hpaths]
    rfl
  obtain ⟨l, taken, hend, hrun⟩ := Ledger.Standing.serveAll_refines henv hdrafted hcollection
    hwritable hstanding (by rwa [hslug])
  rw [hslug] at hend hrun
  have hstarted : started.1 = .ok s :=
    congrArg Prod.fst (runOn_start (b := Backend.empty) rfl _ config)
  refine ⟨hstarted, l.desk taken, hrules ▸ hrun, ?_, ?_⟩
  · intro id params
    have hfound := hend.runOn_findById henv hdrafted hcollection hread id params
    rw [hslug, hpaths] at hfound
    rw [hfound, Ledger.draft?_eq_shown l taken id params.draft]
    cases (l.desk taken).slots id <;> rfl
  · intro params
    obtain ⟨result, hfound, hpage⟩ := hend.runOn_find hdrafted hcollection hread params
    rw [hslug] at hfound
    refine ⟨result, hfound, fun page hok => ?_⟩
    obtain ⟨selection, hselect, hdocs⟩ := hpage page hok
    refine ⟨selection, hselect, fun shown hshown => ?_⟩
    obtain ⟨id, slot, hslot, hshows⟩ := hdocs shown hshown
    rw [Ledger.draft?_eq_shown l taken id params.draft] at hslot
    obtain ⟨x, hx, rfl⟩ := Option.map_eq_some_iff.1 hslot
    rw [hpaths] at hshows
    exact ⟨id, x, hx, hshows⟩

/-! A collection in two locales that keeps one version of each document, under a clock that runs
backwards. -/

/-- Notes with a localized title. -/
def notes : Entity :=
  { Entity.ofFields "notes" [{ Field.ofKind "title" .text with localized := true }] with
    versions := some ⟨true, 1⟩ }

def notesConfig : Config :=
  ⟨[notes], [], some ⟨["en", "de"], "en", true⟩, .standard, .standard⟩

def notesRegistry : Registry :=
  (Registry.build notesConfig).toOption.getD ⟨[], []⟩

/-- The notes are the only collection of their configuration. -/
theorem onlyCollection_notes : OnlyCollection notesConfig notes where
  checked := rfl
  collections := rfl
  globals := rfl
  timestamps := rfl
  drafts := rfl
  read := rfl
  names := by decide

/-- A note, a draft of it in the other locale, and a published change after that. -/
def notesEdits : List Edit :=
  [.create [("title", .str "first")] ⟨false, some "en"⟩,
    .update "n" [("title", .str "zweiter")] ⟨true, some "de"⟩,
    .update "n" [("title", .str "third")] ⟨false, none⟩]

/-- These edits can be written. -/
theorem writable_notesEdits :
    ∀ edit ∈ notesEdits, edit.Writable notesConfig.localization := by
  intro edit hedit
  simp only [notesEdits, List.mem_cons, List.not_mem_nil, or_false] at hedit
  rcases hedit with rfl | rfl | rfl <;>
    exact ⟨by decide, fun l hl => by cases hl; decide⟩

theorem desk_refinement_notes :
    ∃ d : Desk, Desk.Run ⟨"notes", notesConfig.localization, ["title"],
      Clock.times Surroundings.backward.readings⟩ .empty notesEdits
        (serveAll Surroundings.backward (ofRegistry notesRegistry notesConfig) "notes" notesEdits
          (Action.runOn Surroundings.backward (start notesRegistry notesConfig) Backend.empty).2).1 d := by
  have hbuild : Registry.build notesConfig = .ok notesRegistry := rfl
  obtain ⟨_, d, hrun, _⟩ := desk_refinement onlyCollection_notes hbuild Surroundings.proper_backward
    writable_notesEdits (by decide +kernel)
  exact ⟨d, hrun⟩

end Service

end HeadlessCms
