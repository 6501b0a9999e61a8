import HeadlessCms.Proofs.Localization
import HeadlessCms.Proofs.Service.Keeping

/-!
# Saves on a kept ledger

What the service answers and what it leaves behind when it works on a collection with drafts, in terms
of the ledger of the collection.  There are three kinds of saves: a new document
(`Standing.runOn_saveNew`), a published change (`Standing.runOn_savePublished`) and a draft of a
document (`Standing.runOn_saveDraft`).  A document is read as it is stored, or with its newest draft
laid over it (`Standing.runOn_findById`).
-/

namespace HeadlessCms

open Time (Instant)

/-! ### The content after a patch -/

/-- The status that a save gives to a document with drafts. -/
def SaveParams.status (p : SaveParams) : Status :=
  if p.draft then .draft else .published

/-- A patch that leaves alone what the store keeps in records. -/
def Record.IsPatch (patch : Record) : Prop :=
  Record.sequenceField ∉ patch.map (·.1) ∧ Record.revisionField ∉ patch.map (·.1)

instance (patch : Record) : Decidable patch.IsPatch :=
  inferInstanceAs (Decidable (_ ∧ _))

namespace Service

variable {s : Service} {c : CompiledEntity} {selection : Option LocaleSelection}

/-- Localizing a patch keeps the names that it writes. -/
theorem keys_incoming (stored patch : Record) :
    (s.incoming c selection stored patch).map (·.1) = (Document.stripEnvelope patch).map (·.1) := by
  unfold incoming
  split
  · exact Record.keys_mergeLocalized _ _ _ _
  · rfl

/-- A patch without its envelope names no reserved field. -/
theorem notMem_keys_stripEnvelope {patch : Record} (h : patch.IsPatch) {name : String}
    (hname : name ∈ Record.reservedNames) :
    name ∉ (Document.stripEnvelope patch).map (·.1) := by
  intro hmem
  have hnone : Table.get? name (Document.stripEnvelope patch) = none := by
    rw [Document.get?_stripEnvelope]
    split
    · rfl
    · next henv =>
      have hkept : name = Record.sequenceField ∨ name = Record.revisionField := by
        simpa [Record.reservedNames, henv] using hname
      rw [Table.get?_eq_none_iff]
      rcases hkept with rfl | rfl
      · exact h.1
      · exact h.2
  exact Table.get?_eq_none_iff.1 hnone hmem

/-- **Patches keep content content.** -/
theorem isContent_patched {stored patch : Record} (hs : Record.IsContent stored)
    (hp : patch.IsPatch) (status : Status) :
    Record.IsContent (s.patched c selection status stored patch) := by
  have hinserted : Record.IsContent (Table.insertAll (s.incoming c selection stored patch) stored) := by
    refine ⟨Table.ascending_insertAll hs.ascending, fun name hname => ?_⟩
    rw [Table.get?_insertAll_of_notMem
      (keys_incoming stored patch ▸ notMem_keys_stripEnvelope hp hname), hs.free name hname]
  unfold patched
  dsimp only
  split
  · refine ⟨Table.ascending_insert hinserted.ascending, fun name hname => ?_⟩
    have hne : name ≠ Status.field := by
      rintro rfl
      exact absurd hname (by decide)
    rw [Table.get?_insert, if_neg hne, hinserted.free name hname]
  · exact hinserted

/-- A patched document has the status that is written. -/
theorem get?_status_patched (hc : c.Drafted) (stored patch : Record) (status : Status) :
    Table.get? Status.field (s.patched c selection status stored patch) =
      some (.str status.name) := by
  simp [patched, hc.drafts, Table.get?_insert]

/-! ### The steps of a save -/

/-- A document as it reads in a selected locale. -/
def inLocale (s : Service) (paths : List String) (selection : Option LocaleSelection)
    (d : Document) : Document :=
  { d with data := s.localize paths selection d.data }

variable [PatternEngine] {env : Surroundings}

/-- What the store does for an action the service sees as done. -/
theorem runOn_onStore {α : Type} {a : Action StoreError α} {x : α} {b b' : Backend}
    (h : Action.runOn env a b = (.ok x, b')) : Action.runOn env (onStore a) b = (.ok x, b') :=
  Action.runOn_mapError_ok h _

/-- **A save is a base, a patch, a stored document and a version,** in this order, all at one time of
the clock. -/
theorem runOn_save (hc : c.Drafted) {params : SaveParams} {existing : Option Document}
    {patch base : Record} {saved : Document} {v : Version} {b b' b'' : Backend} {taken : Nat}
    (hselect : s.selectLocale params.locale none = .ok selection)
    (hwrite : localeOf selection ≠ some allLocales)
    (hclock : b.clock = Clock.after env.readings taken)
    (hbase : Action.runOn env (baseOf c existing params.draft)
      { b with clock := Clock.after env.readings (taken + 1) } =
        (.ok base, { b with clock := Clock.after env.readings (taken + 1) }))
    (hstore : Action.runOn env (store c.slug existing params.draft
      (some ((existing.bind (·.createdAt)).getD (Clock.times env.readings taken)))
      (some (Clock.times env.readings taken))
      (s.patched c selection params.status base patch))
      { b with clock := Clock.after env.readings (taken + 1) } = (.ok saved, b'))
    (hsave : Action.runOn env (History.save c.entity c.kind (some saved.id) saved.toRecord
      params.status (Clock.times env.readings taken)) b' = (.ok v, b'')) :
    Action.runOn env (s.save c c.slug existing patch params) b =
      (.ok (s.inLocale c.localizedPaths selection saved), b'') := by
  have hnow : Action.runOn env (Action.now : Action ServiceError Instant) b =
      (.ok (Clock.times env.readings taken),
        { b with clock := Clock.after env.readings (taken + 1) }) := by
    rw [Action.runOn_now, hclock, Clock.next_after]
  unfold save
  rw [Action.runOn_bind_ok (Action.runOn_ofExcept_ok hselect), if_neg hwrite]
  simp only [hc.drafts, Bool.and_true, hc.timestamps, if_true, hc.isVersioned]
  rw [Action.runOn_bind_ok hnow, Action.runOn_bind_ok hbase]
  have hstatus : (if params.draft = true then Status.draft else Status.published) = params.status :=
    rfl
  rw [hstatus, Action.runOn_bind_ok hstore, Action.runOn_bind_ok (runOn_onStore hsave)]
  rfl

/-- A save that may write takes a time, whatever comes of it. -/
theorem taken_lt_save {params : SaveParams} {existing : Option Document} {patch : Record}
    {collection : String} {b : Backend}
    (hselect : s.selectLocale params.locale none = .ok selection)
    (hwrite : localeOf selection ≠ some allLocales) :
    b.clock.taken < (Action.runOn env (s.save c collection existing patch params) b).2.clock.taken := by
  unfold save
  rw [Action.runOn_bind_ok (Action.runOn_ofExcept_ok hselect), if_neg hwrite]
  dsimp only
  rw [Action.runOn_bind_ok Action.runOn_now]
  refine Nat.lt_of_lt_of_le ?_ (Action.taken_le_runOn env _ _)
  exact Nat.lt_succ_self _

end Service

/-! ### Saves in terms of the ledger -/

namespace Ledger

/-- A backend that keeps a sound ledger, with a clock that has handed out a number of times. -/
structure Standing (env : Surroundings) (c : CompiledEntity) (taken : Nat) (l : Ledger)
    (b : Backend) : Prop where
  kept : l.Kept c b
  sound : l.Sound env taken b.store.drawn
  clock : b.clock = Clock.after env.readings taken

namespace Standing

variable {env : Surroundings} {c : CompiledEntity} {taken : Nat} {l : Ledger} {b : Backend}
  {s : Service} {selection : Option LocaleSelection} {params : SaveParams} {patch : Record}

/-- The backend once the time of a save has been taken. -/
theorem kept_now (h : Standing env c taken l b) :
    l.Kept c { b with clock := Clock.after env.readings (taken + 1) } :=
  h.kept.of_store rfl rfl

variable [PatternEngine]

/-- A stored document and its version are recorded, and the ledger is sound again. -/
theorem recordSave (id : String) (status : Status) (henv : env.Proper) (hc : c.Drafted)
    {docs : List (String × Slot)} {b' : Backend} (hold : l.Sound env taken b.store.drawn)
    (hk : Kept c ⟨docs, l.history⟩ b')
    (hsound : Sound env (taken + 1) b'.store.drawn ⟨docs, l.history⟩)
    (hclock : b'.clock = Clock.after env.readings (taken + 1)) {slot : Slot}
    (hid : id ∈ docs.map (·.1)) (hslot : SoundSlot env (taken + 1) slot)
    (htagged : Table.get? Status.field slot.data = some (.str status.name))
    (htime : slot.updatedAt = Clock.times env.readings taken) :
    ∃ x v b'', x.IsSave l.history (slot.toDocument id) status slot.updatedAt ∧
      Action.runOn env (History.save c.entity c.kind (some id) (slot.toDocument id).toRecord status
        slot.updatedAt) b' = (.ok v, b'') ∧
      Standing env c (taken + 1) ⟨docs, recorded c.keeps l.history x⟩ b'' := by
  let x : Snapshot := ⟨env.ids b'.store.drawn, slot.toDocument id, status, slot.updatedAt⟩
  have hx : x.Sound :=
    ⟨hslot.content, htagged, hslot.updatedAt.printable,
      hsound.plain henv (List.mem_append_left _ hid), henv.plain _⟩
  have hbefore : ∀ y ∈ l.history, y.time.isBefore x.time = true := fun y hy => by
    show y.time.isBefore slot.updatedAt = true
    rw [htime]
    exact (hold.snapshots y hy).2.isBefore_times taken (Nat.le_refl _)
  have hfresh : x.id ∉ l.history.map (·.id) := fun hmem =>
    hsound.fresh henv (Nat.le_refl b'.store.drawn) (List.mem_append_right _ hmem)
  have hnew : ∀ y ∈ l.history, y.id ≠ x.id := fun y hy heq =>
    hfresh (heq ▸ List.mem_map_of_mem hy)
  have hall : ∀ y ∈ l.history ++ [x], y.Sound := fun y hy => by
    rcases List.mem_append.1 hy with hy | hy
    · exact (hold.snapshots y hy).1
    · exact List.mem_singleton.1 hy ▸ hx
  have hordered : (l.history ++ [x]).Pairwise fun y z => y.time.isBefore z.time = true :=
    List.pairwise_append.2 ⟨hold.ordered, List.pairwise_singleton _ _, fun y hy z hz =>
      List.mem_singleton.1 hz ▸ hbefore y hy⟩
  obtain ⟨b'', hrun, hkept, hdrawn, hclock'⟩ := hk.runOn_saveVersion hc rfl hnew hall hordered
  refine ⟨x, _, b'', ⟨rfl, rfl, rfl, hfresh⟩, hrun, hkept, ?_, hclock'.trans hclock⟩
  rw [hdrawn]
  exact hsound.record henv hx rfl hslot.updatedAt hid hbefore c.keeps

/-- **A new document is added under a new id.** -/
theorem runOn_saveNew (h : Standing env c taken l b) (henv : env.Proper) (hc : c.Drafted)
    (hselect : s.selectLocale params.locale none = .ok selection)
    (hwrite : Service.localeOf selection ≠ some allLocales) (hpatch : patch.IsPatch)
    (htime : (Clock.times env.readings taken).Printable) {slot : Slot}
    (hslot : slot = ⟨Clock.times env.readings taken, Clock.times env.readings taken,
      s.patched c selection params.status [] patch⟩) :
    ∃ id x b', id ∉ l.docs.map (·.1) ∧
      x.IsSave l.history (slot.toDocument id) params.status slot.updatedAt ∧
      Action.runOn env (s.save c c.slug none patch params) b =
        (.ok (s.inLocale c.localizedPaths selection (slot.toDocument id)), b') ∧
      Standing env c (taken + 1) ⟨l.docs ++ [(id, slot)], recorded c.keeps l.history x⟩ b' := by
  have hpast := Clock.past_times htime
  have hsound : SoundSlot env (taken + 1) slot :=
    hslot ▸ ⟨Service.isContent_patched .nil hpatch _, hpast, hpast⟩
  have htagged : Table.get? Status.field slot.data = some (.str params.status.name) :=
    hslot ▸ Service.get?_status_patched hc _ _ _
  have hlater := h.sound.later (Nat.le_succ taken)
  obtain ⟨b', hstore, hkept, hdrawn, hclock⟩ :=
    h.kept_now.runOn_storeNew henv hlater hsound params.draft
  obtain ⟨x, v, b'', hx, hsave, hstanding⟩ := recordSave (env.ids b.store.drawn) params.status henv hc
    h.sound hkept (hdrawn ▸ hlater.addDoc henv hsound) hclock (by simp) hsound htagged
    (by rw [hslot])
  have hfresh := h.sound.fresh henv (Nat.le_refl b.store.drawn)
  subst hslot
  exact ⟨env.ids b.store.drawn, x, b'', fun hmem => hfresh (List.mem_append_left _ hmem), hx,
    Service.runOn_save hc hselect hwrite h.clock rfl hstore hsave, hstanding⟩

/-- **A published change replaces the stored document.** -/
theorem runOn_savePublished (h : Standing env c taken l b) (henv : env.Proper) (hc : c.Drafted)
    (hselect : s.selectLocale params.locale none = .ok selection)
    (hwrite : Service.localeOf selection ≠ some allLocales) (hpatch : patch.IsPatch)
    (htime : (Clock.times env.readings taken).Printable) (hpublished : params.draft = false)
    {id : String} {old slot : Slot} (hlive : l.live? id = some old)
    (hslot : slot = ⟨old.createdAt, Clock.times env.readings taken,
      s.patched c selection params.status old.data patch⟩) :
    ∃ x b', x.IsSave l.history (slot.toDocument id) params.status slot.updatedAt ∧
      Action.runOn env (s.save c c.slug (some (old.toDocument id)) patch params) b =
        (.ok (s.inLocale c.localizedPaths selection (slot.toDocument id)), b') ∧
      Standing env c (taken + 1) ⟨Store.Holds.replaceItem (·.1) id (id, slot) l.docs,
        recorded c.keeps l.history x⟩ b' := by
  have hmem := mem_of_live? hlive
  have hold := (h.sound.slots _ hmem).later (Nat.le_succ taken)
  have hsound : SoundSlot env (taken + 1) slot :=
    hslot ▸ ⟨Service.isContent_patched hold.content hpatch _, hold.createdAt,
      Clock.past_times htime⟩
  have htagged : Table.get? Status.field slot.data = some (.str params.status.name) :=
    hslot ▸ Service.get?_status_patched hc _ _ _
  have hid : id ∈ l.docs.map (·.1) := List.mem_map_of_mem hmem
  have hlater := h.sound.later (Nat.le_succ taken)
  obtain ⟨b', hstore, hkept, hdrawn, hclock⟩ :=
    h.kept_now.runOn_storeOld hlater hsound hid old
  have hids : id ∈ (Store.Holds.replaceItem (·.1) id (id, slot) l.docs).map (·.1) := by
    rwa [Sound.map_replaceItem]
  obtain ⟨x, v, b'', hx, hsave, hstanding⟩ := recordSave id params.status henv hc h.sound hkept
    (hdrawn ▸ hlater.replaceDoc hsound) hclock hids hsound htagged (by rw [hslot])
  subst hslot
  rw [← hpublished] at hstore
  refine ⟨x, b'', hx, Service.runOn_save hc hselect hwrite h.clock ?_ hstore hsave, hstanding⟩
  rw [hpublished]
  rfl

omit [PatternEngine] in
/-- A pending draft has proper content. -/
theorem isContent_pending (h : Standing env c taken l b) {id : String} {old : Slot}
    (hlive : l.live? id = some old) :
    Record.IsContent ((pending? l.history id old.updatedAt).getD old).data := by
  cases hpending : pending? l.history id old.updatedAt with
  | none => exact (h.sound.slots _ (mem_of_live? hlive)).content
  | some draft =>
    obtain ⟨x, hx, rfl⟩ := Option.map_eq_some_iff.1 hpending
    exact (h.sound.snapshots x (List.mem_filter.1 (List.mem_of_getLast? hx)).1).1.content

/-- **A draft of a document leaves it as it is.** -/
theorem runOn_saveDraft (h : Standing env c taken l b) (henv : env.Proper) (hc : c.Drafted)
    (hselect : s.selectLocale params.locale none = .ok selection)
    (hwrite : Service.localeOf selection ≠ some allLocales) (hpatch : patch.IsPatch)
    (htime : (Clock.times env.readings taken).Printable) (hdraft : params.draft = true)
    {id : String} {old slot : Slot} (hlive : l.live? id = some old)
    (hslot : slot = ⟨old.createdAt, Clock.times env.readings taken,
      s.patched c selection params.status
        ((pending? l.history id old.updatedAt).getD old).data patch⟩) :
    ∃ x b', x.IsSave l.history (slot.toDocument id) params.status slot.updatedAt ∧
      Action.runOn env (s.save c c.slug (some (old.toDocument id)) patch params) b =
        (.ok (s.inLocale c.localizedPaths selection (slot.toDocument id)), b') ∧
      Standing env c (taken + 1) ⟨l.docs, recorded c.keeps l.history x⟩ b' := by
  have hmem := mem_of_live? hlive
  have hold := (h.sound.slots _ hmem).later (Nat.le_succ taken)
  have hsound : SoundSlot env (taken + 1) slot :=
    hslot ▸ ⟨Service.isContent_patched (h.isContent_pending hlive) hpatch _, hold.createdAt,
      Clock.past_times htime⟩
  have htagged : Table.get? Status.field slot.data = some (.str params.status.name) :=
    hslot ▸ Service.get?_status_patched hc _ _ _
  have hlater := h.sound.later (Nat.le_succ taken)
  obtain ⟨x, v, b'', hx, hsave, hstanding⟩ := recordSave id params.status henv hc h.sound h.kept_now
    hlater rfl (List.mem_map_of_mem hmem) hsound htagged (by rw [hslot])
  have hresolve := Service.runOn_onStore (h.kept_now.runOn_resolve hc hlater hold id none)
  have hbase : Action.runOn env (Service.baseOf c (some (old.toDocument id)) params.draft)
      { b with clock := Clock.after env.readings (taken + 1) } =
        (.ok ((pending? l.history id old.updatedAt).getD old).data,
          { b with clock := Clock.after env.readings (taken + 1) }) := by
    simp only [Service.baseOf, hdraft, if_true]
    rw [Action.runOn_bind_ok hresolve]
    rfl
  subst hslot
  refine ⟨x, b'', hx, Service.runOn_save hc hselect hwrite h.clock hbase ?_ hsave, hstanding⟩
  rw [hdraft]
  rfl

/-! ### Reading -/

/-- **A document is loaded as it is stored.** -/
theorem runOn_load (h : Standing env c taken l b) (henv : env.Proper) (hc : c.Drafted)
    (id : String) :
    Action.runOn env (Service.load c.slug (.compare "id" .equals (.str id))) b =
      (.ok ((l.live? id).map (·.toDocument id)), b) := by
  have hquery : Action.runOn env (Service.onStore (Action.buildQuery c.slug
      (some (.compare "id" .equals (.str id))) none)) b =
        (.ok ⟨c.slug, some (.compare "id" .equals (.str id)), none⟩, b) :=
    Service.runOn_onStore (by
      rw [Action.runOn_buildQuery h.kept.serving, h.kept.buildQuery_id hc])
  have hfound : Action.runOn env (Service.onStore (Action.findOne
      ⟨c.slug, some (.compare "id" .equals (.str id)), none⟩ (.sortedBy []))) b =
        (.ok ((l.live? id).map fun s => (s.toDocument id).toRecord), b) :=
    Service.runOn_onStore (by
      rw [Action.runOn_findOne h.kept.serving, h.kept.findOne_id henv h.sound])
  unfold Service.load
  rw [Action.runOn_bind_ok hquery, Action.runOn_bind_ok hfound]
  cases hlive : l.live? id with
  | none => rfl
  | some slot =>
    have hstorable := (h.sound.slots _ (mem_of_live? hlive)).storable id
    exact Action.runOn_bind_ok (runOn_documentOf hstorable) _

omit [PatternEngine] in
/-- Open access restricts no read. -/
theorem readAccess_of_allow (hread : c.entity.read = .allow true) :
    Service.readAccess c = .ok .unrestricted := by
  simp [Service.readAccess, hread, AccessRule.resolve, Access.isDenied, bind, Except.bind]

/-- **A stored document is shown as it is, or with its newest draft in its place.** -/
theorem runOn_show (h : Standing env c taken l b) (hc : c.Drafted) {id : String} {slot : Slot}
    (hlive : l.live? id = some slot) (draft : Bool) (selection : Option LocaleSelection) :
    ∃ shown, (if draft then l.draft? id else l.live? id) = some shown ∧
      Action.runOn env (do
        let doc ← Service.documentOf (slot.toDocument id).toRecord
        s.present c draft selection .unrestricted doc) b =
          (.ok (s.inLocale c.localizedPaths selection (shown.toDocument id)), b) := by
  have hsound := h.sound.slots _ (mem_of_live? hlive)
  have hresolve := Service.runOn_onStore
    (h.kept.runOn_resolve hc h.sound hsound id (Service.localeOf selection))
  rw [Action.runOn_bind_ok (runOn_documentOf (hsound.storable id))]
  unfold Service.present
  cases draft with
  | true =>
    refine ⟨(pending? l.history id slot.updatedAt).getD slot, by simp [draft?, hlive], ?_⟩
    simp only [hc.drafts, Bool.and_self, if_true]
    rw [Action.runOn_bind_ok hresolve]
    rfl
  | false => exact ⟨slot, hlive, rfl⟩

/-- **Reading a document shows it,** in the locale of the request. -/
theorem runOn_findById (h : Standing env c taken l b) (henv : env.Proper) (hc : c.Drafted)
    (hcollection : s.registry.collection c.slug = .ok c) (hread : c.entity.read = .allow true)
    (id : String) (params : ReadParams) :
    Action.runOn env (s.findById c.slug id params) b =
      (do
        let selection ← s.selectLocale params.locale params.fallbackLocale
        match if params.draft then l.draft? id else l.live? id with
        | none => .error (.documentNotFound c.slug id)
        | some slot => .ok (s.inLocale c.localizedPaths selection (slot.toDocument id)), b) := by
  unfold Service.findById
  rw [Action.runOn_bind_ok (Action.runOn_ofExcept_ok hcollection),
    Action.runOn_bind_ok (Action.runOn_ofExcept_ok (readAccess_of_allow hread))]
  cases hselect : s.selectLocale params.locale params.fallbackLocale with
  | error e => exact Action.runOn_bind_error rfl _
  | ok selection =>
    have hquery : Action.runOn env (Service.onStore (Action.buildQuery c.slug
        (some (.compare "id" .equals (.str id))) (Service.localeOf selection))) b =
          (.ok ⟨c.slug, some (.compare "id" .equals (.str id)), Service.localeOf selection⟩, b) :=
      Service.runOn_onStore (by
        rw [Action.runOn_buildQuery h.kept.serving, h.kept.buildQuery_id hc])
    have hfound : Action.runOn env (Service.onStore (Action.findOne
        ⟨c.slug, some (.compare "id" .equals (.str id)), Service.localeOf selection⟩
          (.sortedBy []))) b =
          (.ok ((l.live? id).map fun s => (s.toDocument id).toRecord), b) :=
      Service.runOn_onStore (by
        rw [Action.runOn_findOne h.kept.serving, h.kept.findOne_id henv h.sound])
    rw [Action.runOn_bind_ok (Action.runOn_ofExcept _)]
    dsimp only
    rw [show Service.withScope (some (.compare "id" .equals (.str id))) .unrestricted =
        some (.compare "id" .equals (.str id)) from rfl,
      Action.runOn_bind_ok hquery, Action.runOn_bind_ok hfound]
    cases hlive : l.live? id with
    | none => cases params.draft <;> simp [draft?, hlive, bind, Except.bind]
    | some slot =>
      obtain ⟨shown, hshown, hrun⟩ := h.runOn_show (s := s) hc hlive params.draft selection
      rw [hlive] at hshown
      rw [hshown]
      exact hrun

/-- Records of documents are shown one by one, each as its slots are. -/
theorem runOn_showAll (h : Standing env c taken l b) (hc : c.Drafted) {records : List Record}
    (hrecords : ∀ r ∈ records, ∃ e ∈ l.docs, docRecord e = r) (draft : Bool)
    (selection : Option LocaleSelection) :
    ∃ docs, Action.runOn env (records.mapM fun record => do
        let doc ← Service.documentOf record
        s.present c draft selection .unrestricted doc) b = (.ok docs, b) ∧
      ∀ d ∈ docs, ∃ id slot, (if draft then l.draft? id else l.live? id) = some slot ∧
        d = s.inLocale c.localizedPaths selection (slot.toDocument id) := by
  refine Action.runOn_mapM fun record hrecord => ?_
  obtain ⟨e, he, rfl⟩ := hrecords record hrecord
  obtain ⟨shown, hshown, hrun⟩ :=
    h.runOn_show (s := s) hc (h.sound.live?_of_mem he) draft selection
  exact ⟨_, hrun, e.1, shown, hshown, rfl⟩

/-- **Pages of documents show documents,** in the locale of the request. -/
theorem runOn_find (h : Standing env c taken l b) (hc : c.Drafted)
    (hcollection : s.registry.collection c.slug = .ok c) (hread : c.entity.read = .allow true)
    (params : FindParams) :
    ∃ result, Action.runOn env (s.find c.slug params) b = (result, b) ∧
      ∀ page, result = .ok page → ∃ selection,
        s.selectLocale params.locale params.fallbackLocale = .ok selection ∧
        ∀ d ∈ page.docs, ∃ id slot,
          (if params.draft then l.draft? id else l.live? id) = some slot ∧
          d = s.inLocale c.localizedPaths selection (slot.toDocument id) := by
  unfold Service.find
  rw [Action.runOn_bind_ok (Action.runOn_ofExcept_ok hcollection),
    Action.runOn_bind_ok (Action.runOn_ofExcept_ok (readAccess_of_allow hread))]
  cases hselect : s.selectLocale params.locale params.fallbackLocale with
  | error e => exact ⟨_, Action.runOn_bind_error rfl _, fun page hpage => by cases hpage⟩
  | ok selection =>
    rw [Action.runOn_bind_ok (Action.runOn_ofExcept _)]
    cases hwhere : Service.readWhere c.whereSchema params.filter with
    | error e => exact ⟨_, Action.runOn_bind_error rfl _, fun page hpage => by cases hpage⟩
    | ok filter =>
      rw [Action.runOn_bind_ok (Action.runOn_ofExcept _)]
      dsimp only
      obtain ⟨q, hq, hquery⟩ : ∃ q : Query, q.collection = c.slug ∧
          Action.runOn env (Service.onStore (Action.buildQuery c.slug
            (Service.withScope filter .unrestricted) (Service.localeOf selection))) b =
              (.ok q, b) :=
        ⟨_, rfl, Service.runOn_onStore ((Action.runOn_buildQuery h.kept.serving _ _ _).trans
          (congrArg (·, b) (h.kept.docs.buildQuery _ _)))⟩
      rw [Action.runOn_bind_ok hquery]
      have hshows : (Service.findOptions c (Service.withScope filter .unrestricted)
          params.sort).lean = false := rfl
      -- From here on only the shape of the options counts.
      generalize Service.findOptions c (Service.withScope filter .unrestricted) params.sort =
        options at hshows ⊢
      generalize some (s.paginationFor params.page params.limit) = pagination
      have hcall : Action.runOn env (Service.onStore (Action.find q options pagination)) b =
          ((b.store.find q options pagination).mapError .store, b) := by
        rw [Service.onStore, Action.runOn_mapError, Action.runOn_find h.kept.serving]
      cases hfind : b.store.find q options pagination with
      | error e =>
        rw [hfind] at hcall
        exact ⟨_, Action.runOn_bind_error hcall _, fun page hpage => by cases hpage⟩
      | ok found =>
        rw [hfind] at hcall
        rw [Action.runOn_bind_ok hcall]
        obtain ⟨records, hget, hrel⟩ := h.kept.docs
        have hrecords : ∀ r ∈ found.docs, ∃ e ∈ l.docs, docRecord e = r := by
          intro shown hshown
          obtain ⟨r, hr, _, rfl⟩ := Store.mem_docs_of_find (hq ▸ hget) hfind hshown
          obtain ⟨e, he, hre⟩ := exists_item_of_mem hrel hr
          exact ⟨e, he, by simp [Store.present, hshows, hre]⟩
        obtain ⟨docs, hdocs, hshown⟩ :=
          h.runOn_showAll (s := s) hc hrecords params.draft selection
        rw [Action.runOn_bind_ok hdocs, Action.runOn_pure]
        refine ⟨_, rfl, fun page hpage => ⟨selection, rfl, ?_⟩⟩
        cases hpage
        exact hshown

end Standing

end Ledger

end HeadlessCms
