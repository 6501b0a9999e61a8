import HeadlessCms.Proofs.Document.Ledger
import HeadlessCms.Proofs.Store.Actions
import HeadlessCms.Service.Write

/-!
# Stores that keep a ledger

A backend keeps a ledger if it refuses nothing, and its collections hold the documents and the
versions of the ledger (`Ledger.Kept`).  What the service does to such a backend is said in terms of
the ledger: a document is found by its id (`Kept.runOn_findId`), drafts are laid over it
(`Kept.runOn_resolve`), a new document is added and an old one replaced (`Kept.runOn_insert`,
`Kept.runOn_update`), and every save is recorded in the history (`Kept.runOn_saveVersion`).
-/

namespace HeadlessCms

open Time (Instant)

/-! ### Paths that no locale is put behind -/

/-- Nothing lies above a single name. -/
theorem Path.atOrBelow_iff_eq {above path : String} (h : '.' ∉ path.toList) :
    Path.AtOrBelow above path ↔ path = above := by
  refine ⟨fun hpath => ?_, Or.inl⟩
  rcases hpath with heq | ⟨below, hbelow⟩
  · exact heq
  · exact absurd (hbelow ▸ by simp) h

/-- A name that is not localized is stored under itself. -/
theorem Store.storedPath_name {localized : List String} {name : String}
    (hdata : Path.toData name = name) (hpoint : '.' ∉ name.toList) (h : name ∉ localized)
    (locale : Option String) : Store.storedPath localized locale name = name := by
  refine Store.storedPath_eq_self hdata (fun above habove => ?_) locale
  rw [Path.atOrBelow_iff_eq hpoint]
  exact fun heq => h (heq ▸ habove)

/-- Entities with drafts have versions. -/
theorem Entity.isVersioned_of_hasDrafts {e : Entity} (h : e.hasDrafts = true) :
    e.isVersioned = true := by
  unfold hasDrafts at h
  unfold isVersioned
  split at h
  · next hversions => rw [hversions]; rfl
  · cases h

namespace CompiledEntity

variable {c : CompiledEntity}

/-- The members of a version outside the snapshot are not localized. -/
theorem storedPath_outside {name : String} (hdata : Path.toData name = name)
    (hpoint : '.' ∉ name.toList) (locale : Option String) :
    Store.storedPath c.versionLocalizedPaths locale name = name := by
  refine Store.storedPath_name hdata hpoint (fun hmem => ?_) locale
  obtain ⟨p, _, rfl⟩ := List.mem_map.1 hmem
  exact hpoint (by simp)

/-- The status in a snapshot is localized only if the entity has a localized field of that name. -/
theorem storedPath_status (h : Status.field ∉ c.localizedPaths) (locale : Option String) :
    Store.storedPath c.versionLocalizedPaths locale "version._status" = "version._status" := by
  refine Store.storedPath_eq_self (by decide) (fun above habove => ?_) locale
  obtain ⟨p, hp, rfl⟩ := List.mem_map.1 habove
  have hsplit : "version._status" = "version." ++ Status.field := by decide
  rintro (heq | ⟨below, hbelow⟩)
  · rw [hsplit, String.append_right_inj] at heq
    exact h (heq ▸ hp)
  · rw [hsplit, String.toList_append, String.toList_append, List.append_assoc,
      List.append_cancel_left_eq] at hbelow
    have hpoint : '.' ∈ Status.field.toList := hbelow ▸ by simp
    exact absurd hpoint (by decide)

/-- The collection of the versions has another name than the collection itself. -/
theorem slug_ne_versionsCollection (e : Entity) : e.slug ≠ e.versionsCollection := by
  intro h
  have hlength := congrArg String.length h
  simp only [Entity.versionsCollection, String.length_append] at hlength
  have hone : "_".length = 1 := by decide
  omega

/-- A collection with times and drafts, in which no field takes the place of the id or the
status. -/
structure Drafted (c : CompiledEntity) : Prop where
  kind : c.kind = .collection
  timestamps : c.entity.timestamps = true
  drafts : c.entity.hasDrafts = true
  id : "id" ∉ c.localizedPaths
  status : Status.field ∉ c.localizedPaths

/-- A collection with drafts has versions. -/
theorem Drafted.isVersioned (h : c.Drafted) : c.entity.isVersioned = true :=
  Entity.isVersioned_of_hasDrafts h.drafts

/-- A collection with drafts has settings for its versions. -/
theorem Drafted.versions (h : c.Drafted) : ∃ v, c.entity.versions = some v :=
  Option.isSome_iff_exists.1 h.isVersioned

/-- How many versions of a document are kept; 0 keeps all. -/
def keeps (c : CompiledEntity) : Nat :=
  (c.entity.versions.map (·.maxPerDoc)).getD 0

end CompiledEntity

namespace Ledger

/-- The record of a document of a ledger. -/
def docRecord (e : String × Slot) : Record :=
  (e.2.toDocument e.1).toRecord

/-- A backend that refuses nothing and holds what a ledger says. -/
structure Kept (c : CompiledEntity) (l : Ledger) (b : Backend) : Prop where
  serving : b.refused = []
  docs : b.store.Holds c.slug c.localizedPaths docRecord l.docs
  history : b.store.Holds c.entity.versionsCollection c.versionLocalizedPaths
    (·.toVersion.toRecord) l.history

/-- The clock of a backend does not matter. -/
theorem Kept.of_store {c : CompiledEntity} {l : Ledger} {b b' : Backend} (h : l.Kept c b)
    (hstore : b'.store = b.store) (hrefused : b'.refused = b.refused) : l.Kept c b' :=
  ⟨hrefused.trans h.serving, hstore ▸ h.docs, hstore ▸ h.history⟩

section

variable {env : Surroundings} {c : CompiledEntity} {l : Ledger} {b : Backend} {taken drawn : Nat}

/-- No id of a sound ledger reads as a timestamp. -/
theorem Sound.plain (henv : env.Proper) (h : l.Sound env taken drawn) {id : String}
    (hid : id ∈ l.allIds) : Time.readStrict? id = none := by
  obtain ⟨k, _, rfl⟩ := h.ids id hid
  exact henv.plain k

/-- No id of a document of a sound ledger reads as a timestamp. -/
theorem Sound.plain_doc (henv : env.Proper) (h : l.Sound env taken drawn) {e : String × Slot}
    (he : e ∈ l.docs) : Time.readStrict? e.1 = none :=
  h.plain henv (List.mem_append_left _ (List.mem_map_of_mem he))

/-- A record that shows a document has its id. -/
theorem Sound.id?_of_doc (h : l.Sound env taken drawn) (r : Record) (e : String × Slot)
    (he : e ∈ l.docs) (hr : Record.sanitize r = docRecord e) : Record.id? r = some e.1 :=
  Document.id?_of_sanitize (d := e.2.toDocument e.1) hr (h.slots e he).content

/-! ### Finding documents -/

/-- A query for an id finds the document with that id. -/
theorem Kept.findOne_id [PatternEngine]
    (hk : l.Kept c b) (henv : env.Proper) (h : l.Sound env taken drawn)
    (id : String) (locale : Option String) :
    b.store.findOne ⟨c.slug, some (.compare "id" .equals (.str id)), locale⟩ (.sortedBy []) =
      .ok ((l.live? id).map fun s => (s.toDocument id).toRecord) := by
  have hdecides : ∀ r e, e ∈ l.docs → Record.sanitize r = docRecord e →
      Predicate.holdsFor (some (.compare "id" .equals (.str id))) r = .ok (e.1 == id) :=
    fun r e he hr => Document.holds_id (d := e.2.toDocument e.1) hr (h.slots e he).content
      (h.plain_doc henv he) id
  have hone : (l.docs.filter (·.1 == id)).length ≤ 1 := by
    have hcount := List.nodup_iff_count_le_one.1 h.docs_nodup id
    rwa [List.count, List.countP_map, List.countP_eq_length_filter] at hcount
  rw [hk.docs.findOne_unique hdecides hone locale, live?]
  cases hfind : l.docs.find? (·.1 == id) with
  | none => rfl
  | some e =>
    have hid : e.1 = id := by simpa using List.find?_some hfind
    subst hid
    rfl

/-- Looking for an id asks the store for that id, in whatever locale. -/
theorem Kept.buildQuery_id (hk : l.Kept c b) (hc : c.Drafted) (id : String)
    (locale : Option String) :
    b.store.buildQuery c.slug (some (.compare "id" .equals (.str id))) locale =
      .ok ⟨c.slug, some (.compare "id" .equals (.str id)), locale⟩ := by
  rw [hk.docs.buildQuery, Option.map_some, Predicate.mapPaths_compare,
    Store.storedPath_name (by decide) (by decide) hc.id]

/-! ### Drafts over documents -/

/-- The clause for newer drafts stays the same under a map that keeps its paths. -/
theorem mapPaths_newerThan {f : String → String} (hparent : f "parent" = "parent")
    (hstatus : f "version._status" = "version._status") (htime : f "updatedAt" = "updatedAt")
    (id : String) (t : Instant) :
    (Draft.newerThan .collection id t).mapPaths f = Draft.newerThan .collection id t := by
  have hfield : "version." ++ Status.field = "version._status" := by decide
  simp only [Draft.newerThan, if_true, List.singleton_append, Predicate.mapPaths_and,
    List.map_cons, List.map_nil, Predicate.mapPaths_compare, hfield, hparent, hstatus, htime]

variable [PatternEngine]

/-- **The newest draft is laid over a document.** -/
theorem Kept.runOn_resolve (hk : l.Kept c b) (hc : c.Drafted) (h : l.Sound env taken drawn)
    {s : Slot} (hs : SoundSlot env taken s) (id : String) (locale : Option String) :
    Action.runOn env (Draft.resolve c.entity c.kind (s.toDocument id) locale .unrestricted) b =
      (.ok (((pending? l.history id s.updatedAt).getD s).toDocument id), b) := by
  have hquery : b.store.buildQuery c.entity.versionsCollection
      (some (Draft.newerThan .collection id s.updatedAt)) locale =
        .ok ⟨c.entity.versionsCollection, some (Draft.newerThan .collection id s.updatedAt),
          locale⟩ := by
    rw [hk.history.buildQuery, Option.map_some, mapPaths_newerThan
      (CompiledEntity.storedPath_outside (by decide) (by decide) locale)
      (CompiledEntity.storedPath_status hc.status locale)
      (CompiledEntity.storedPath_outside (by decide) (by decide) locale)]
  have hdecides : ∀ r x, x ∈ l.history → Record.sanitize r = x.toVersion.toRecord →
      Predicate.holdsFor (some (Draft.newerThan .collection id s.updatedAt)) r =
        .ok (x.isDraftAfter id s.updatedAt) :=
    fun r x hx hr => Snapshot.holds_newerThan hr (h.snapshots x hx).1 id hs.updatedAt.printable
  have hsort : (Draft.options (Draft.newerThan .collection id s.updatedAt)).sort =
      [.desc "updatedAt"] := rfl
  obtain ⟨found, hfound, hshown⟩ := hk.history.findOne_newest hsort rfl hdecides
    (fun r x hr => Snapshot.resolve_updatedAt hr) (fun x hx => (h.snapshots x hx).1.printable)
    h.ordered locale
  simp only [Draft.resolve, Slot.toDocument, Access.isDenied, hc.kind, Draft.clause, Access.clause?,
    Bool.false_eq_true, if_false]
  rw [Action.runOn_bind_ok ((Action.runOn_buildQuery hk.serving _ _ _).trans
    (congrArg (·, b) hquery)), Action.runOn_bind_ok ((Action.runOn_findOne hk.serving _ _).trans
    (congrArg (·, b) hfound))]
  cases hlast : (l.history.filter (·.isDraftAfter id s.updatedAt)).getLast? with
  | none =>
    rw [hlast, Option.map_none, Option.map_eq_none_iff] at hshown
    subst hshown
    simp [pending?, hlast]
  | some x =>
    rw [hlast, Option.map_some] at hshown
    obtain ⟨record, rfl, hrecord⟩ := Option.map_eq_some_iff.1 hshown
    have hx : x.Sound :=
      (h.snapshots x (List.mem_filter.1 (List.mem_of_getLast? hlast)).1).1
    have hread := Snapshot.ofRecord_sanitize hx hrecord
    dsimp only
    rw [Action.runOn_bind_ok (Action.runOn_ofExcept_ok
      (congrArg (Except.mapError StoreError.mismatch) hread)), Action.runOn_pure,
      Snapshot.overlay_toVersion hx]
    simp [pending?, hlast, Snapshot.slot]

/-! ### Storing documents -/

/-- A document that can be stored is read from its record. -/
theorem runOn_documentOf {d : Document} (hd : d.Storable) :
    Action.runOn env (Service.documentOf d.toRecord) b = (.ok d, b) := by
  simp [Service.documentOf, Document.ofRecord_toRecord hd]

/-- **A new document gets the next id.** -/
theorem Kept.runOn_storeNew (hk : l.Kept c b) (henv : env.Proper)
    (h : l.Sound env taken b.store.drawn) {n : Nat} {s : Slot} (hs : SoundSlot env n s)
    (draft : Bool) :
    ∃ b', Action.runOn env
        (Service.store c.slug none draft (some s.createdAt) (some s.updatedAt) s.data) b =
          (.ok (s.toDocument (env.ids b.store.drawn)), b') ∧
      Kept c ⟨l.docs ++ [(env.ids b.store.drawn, s)], l.history⟩ b' ∧
      b'.store.drawn = b.store.drawn + 1 ∧ b'.clock = b.clock := by
  have hstamped : ∀ sequence revision,
      Record.sanitize (Store.stamp (env.ids b.store.drawn) sequence revision
        (Table.erase "id" (s.toDocument "").toRecord)) = docRecord (env.ids b.store.drawn, s) := by
    intro sequence revision
    refine Store.sanitize_stamp_document (d := s.toDocument (env.ids b.store.drawn)) hs.content
      sequence revision (Table.ascending_erase (Document.ascending_toRecord _)) fun key hkey => ?_
    have hold : Record.IsContent (s.toDocument "").data := hs.content
    have hnew : Record.IsContent (s.toDocument (env.ids b.store.drawn)).data := hs.content
    rw [Table.get?_erase, if_neg hkey, Document.get?_toRecord hold.isData,
      Document.get?_toRecord hnew.isData, Document.get?_envelopeMembers, Document.get?_envelopeMembers, if_neg hkey, if_neg hkey]
    rfl
  have hnew : ∀ e ∈ l.docs, e.1 ≠ env.ids b.store.drawn := fun e he heq =>
    h.fresh henv (Nat.le_refl _) (List.mem_append_left _ (heq ▸ List.mem_map_of_mem he))
  obtain ⟨s', hinsert, hdocs, hsame, hdrawn⟩ := hk.docs.insert h.id?_of_doc hnew
    (Record.id?_erase_id _) hstamped
  refine ⟨{ b with store := s' }, ?_, ⟨hk.serving, hdocs, ?_⟩, hdrawn, rfl⟩
  · have hrun : Action.runOn env (Service.onStore (Action.insert c.slug
        (Table.erase "id" (s.toDocument "").toRecord))) b =
          (.ok (docRecord (env.ids b.store.drawn, s)), { b with store := s' }) := by
      refine Action.runOn_mapError_ok ?_ _
      rw [Action.runOn_insert hk.serving, hinsert]
    exact (Action.runOn_bind_ok hrun _).trans (runOn_documentOf (hs.storable _))
  · exact hk.history.of_sameBut hsame (CompiledEntity.slug_ne_versionsCollection _).symm

/-- **A published change replaces the document.** -/
theorem Kept.runOn_storeOld (hk : l.Kept c b) (h : l.Sound env taken drawn) {n : Nat} {s : Slot}
    (hs : SoundSlot env n s) {id : String} (hid : id ∈ l.docs.map (·.1)) (old : Slot) :
    ∃ b', Action.runOn env (Service.store c.slug (some (old.toDocument id)) false
        (some s.createdAt) (some s.updatedAt) s.data) b = (.ok (s.toDocument id), b') ∧
      Kept c ⟨Store.Holds.replaceItem (·.1) id (id, s) l.docs, l.history⟩ b' ∧
      b'.store.drawn = b.store.drawn ∧ b'.clock = b.clock := by
  have hstamped : ∀ sequence revision,
      Record.sanitize (Store.stamp id sequence revision (s.toDocument id).toRecord) =
        docRecord (id, s) :=
    fun sequence revision => Store.sanitize_stamp_document (d := s.toDocument id) hs.content
      sequence revision (Document.ascending_toRecord _) fun _ _ => rfl
  have hold : ∃ e ∈ l.docs, e.1 = id := List.mem_map.1 hid
  obtain ⟨s', hupdate, hdocs, hsame, hdrawn⟩ := hk.docs.update h.id?_of_doc hold hstamped
  refine ⟨{ b with store := s' }, ?_, ⟨hk.serving, hdocs, ?_⟩, hdrawn, rfl⟩
  · have hrun : Action.runOn env (Service.onStore (Action.update c.slug id
        (s.toDocument id).toRecord)) b = (.ok (docRecord (id, s)), { b with store := s' }) := by
      refine Action.runOn_mapError_ok ?_ _
      rw [Action.runOn_update hk.serving, hupdate]
    exact (Action.runOn_bind_ok hrun _).trans (runOn_documentOf (hs.storable _))
  · exact hk.history.of_sameBut hsame (CompiledEntity.slug_ne_versionsCollection _).symm

/-! ### Recording saves -/

section History

variable {docs : List (String × Slot)} {history : List Snapshot}

/-- The versions of a document are found latest first. -/
theorem Kept.findNewest (hk : Kept c ⟨docs, history⟩ b) (hsound : ∀ x ∈ history, x.Sound)
    (hordered : history.Pairwise fun x y => x.time.isBefore y.time = true) (id : String) :
    ∃ page, b.store.find ⟨c.entity.versionsCollection,
        some (.compare "parent" .equals (.str id)), none⟩ (.sortedBy History.newestFirst) none =
          .ok page ∧
      page.docs = (history.filter (·.doc.id == id)).reverse.map (·.toVersion.toRecord) := by
  have hdecides : ∀ r x, x ∈ history → Record.sanitize r = x.toVersion.toRecord →
      Predicate.holdsFor (some (.compare "parent" .equals (.str id))) r = .ok (x.doc.id == id) :=
    fun _ x hx hr => Snapshot.holds_parent hr (hsound x hx) id
  exact hk.history.find_newest hdecides (fun _ _ hr => Snapshot.resolve_updatedAt hr)
    (fun x hx => (hsound x hx).printable) hordered none

omit [PatternEngine] in
/-- The ids of versions are found in their records. -/
theorem filterMap_ids (snapshots : List Snapshot) :
    (snapshots.map (·.toVersion.toRecord)).filterMap (Table.get? "id") =
      (snapshots.map (·.id)).map Json.str := by
  induction snapshots with
  | nil => rfl
  | cons x rest ih =>
    have hid : Table.get? "id" x.toVersion.toRecord = some (.str x.id) := by
      rw [Version.get?_toRecord]
      rfl
    simp only [List.map_cons, List.filterMap_cons, hid, ih]

/-- **Pruning takes the oldest versions of a document away.** -/
theorem Kept.runOn_prune (env : Surroundings) (hk : Kept c ⟨docs, history⟩ b) (hc : c.Drafted)
    (hsound : ∀ x ∈ history, x.Sound)
    (hordered : history.Pairwise fun x y => x.time.isBefore y.time = true) (id : String)
    {keep : Nat} (hkeep : 0 < keep) :
    ∃ count b', Action.runOn env (History.prune c.entity c.kind (some id) keep) b =
        (.ok count, b') ∧
      Kept c ⟨docs, prune keep id history⟩ b' ∧ b'.store.drawn = b.store.drawn ∧
      b'.clock = b.clock := by
  have hquery : b.store.buildQuery c.entity.versionsCollection
      (some (.compare "parent" .equals (.str id))) none =
        .ok ⟨c.entity.versionsCollection, some (.compare "parent" .equals (.str id)), none⟩ := by
    rw [hk.history.buildQuery, Option.map_some, Predicate.mapPaths_compare,
      CompiledEntity.storedPath_outside (by decide) (by decide)]
  obtain ⟨page, hpage, hpagedocs⟩ := hk.findNewest hsound hordered id
  have hexpired : (page.docs.drop keep).filterMap (Table.get? "id") =
      (expired keep id history).map Json.str := by
    rw [hpagedocs, ← List.map_drop, filterMap_ids, expired, if_neg (Nat.pos_iff_ne_zero.1 hkeep)]
  have howner : History.ownerClause c.kind (some id) =
      some (.compare "parent" .equals (.str id)) := by simp [History.ownerClause, hc.kind]
  unfold History.prune
  rw [howner, Action.runOn_bind_ok ((Action.runOn_buildQuery hk.serving _ _ _).trans
    (congrArg (·, b) hquery)), Action.runOn_bind_ok ((Action.runOn_find hk.serving _ _ _).trans
    (congrArg (·, b) hpage))]
  dsimp only
  rw [hexpired]
  by_cases hnone : expired keep id history = []
  · -- Nothing is too old, and nothing is asked to be deleted.
    refine ⟨0, b, by simp [hnone], ?_, rfl, rfl⟩
    have hall : prune keep id history = history := by
      simp [prune, hnone]
    rw [hall]
    exact hk
  · have hsome : ((expired keep id history).map Json.str).isEmpty = false := by
      simpa using hnone
    rw [hsome]
    have hdelete : b.store.buildQuery c.entity.versionsCollection
        (some (.compare "id" .isIn (.arr ((expired keep id history).map Json.str)))) none =
          .ok ⟨c.entity.versionsCollection,
            some (.compare "id" .isIn (.arr ((expired keep id history).map Json.str))), none⟩ := by
      rw [hk.history.buildQuery, Option.map_some, Predicate.mapPaths_compare,
        CompiledEntity.storedPath_outside (by decide) (by decide)]
    have hdecides : ∀ r x, x ∈ history → Record.sanitize r = x.toVersion.toRecord →
        Predicate.holdsFor
          (some (.compare "id" .isIn (.arr ((expired keep id history).map Json.str)))) r =
            .ok ((expired keep id history).contains x.id) :=
      fun _ x hx hr => Predicate.holds_isIn_texts _ (Snapshot.resolve_id hr) (hsound x hx).plainId
    obtain ⟨count, s', hrun, hhistory, hsame, hdrawn⟩ := hk.history.deleteMany hdecides none
    refine ⟨count, { b with store := s' }, ?_, ⟨hk.serving, ?_, hhistory⟩, hdrawn, rfl⟩
    · simp only [Bool.false_eq_true, if_false]
      rw [Action.runOn_bind_ok ((Action.runOn_buildQuery hk.serving _ _ _).trans
        (congrArg (·, b) hdelete)), Action.runOn_deleteMany hk.serving, hrun]
    · exact hk.docs.of_sameBut hsame (CompiledEntity.slug_ne_versionsCollection _)

/-- **Every save is recorded.** -/
theorem Kept.runOn_saveVersion (hk : l.Kept c b) (hc : c.Drafted) {x : Snapshot}
    (hid : x.id = env.ids b.store.drawn) (hnew : ∀ y ∈ l.history, y.id ≠ x.id)
    (hsound : ∀ y ∈ l.history ++ [x], y.Sound)
    (hordered : (l.history ++ [x]).Pairwise fun y z => y.time.isBefore z.time = true) :
    ∃ b', Action.runOn env
        (History.save c.entity c.kind (some x.doc.id) x.doc.toRecord x.status x.time) b =
          (.ok x.toVersion, b') ∧
      Kept c ⟨l.docs, recorded c.keeps l.history x⟩ b' ∧
      b'.store.drawn = b.store.drawn + 1 ∧ b'.clock = b.clock := by
  have hx : x.Sound := hsound x (by simp)
  obtain ⟨v, hv⟩ := hc.versions
  have hfree := History.id?_newRecord c.kind (some x.doc.id) x.doc.toRecord x.status x.time
  have hstamped : ∀ sequence revision, Record.sanitize (Store.stamp (env.ids b.store.drawn)
      sequence revision (History.newRecord c.kind (some x.doc.id) x.doc.toRecord x.status x.time)) =
        x.toVersion.toRecord := by
    rw [← hid, hc.kind]
    exact x.sanitize_stamp_newRecord
  have hkey : ∀ r y, y ∈ l.history → Record.sanitize r = y.toVersion.toRecord →
      Record.id? r = some y.id := by
    intro r y _ hr
    rw [Record.id?, Record.get?_of_sanitize hr (by decide), Version.get?_toRecord]
    rfl
  obtain ⟨s', hinsert, hhistory, hsame, hdrawn⟩ := hk.history.insert hkey (hid ▸ hnew) hfree hstamped
  have hk' : Kept c ⟨l.docs, l.history ++ [x]⟩ { b with store := s' } :=
    ⟨hk.serving, hk.docs.of_sameBut hsame (CompiledEntity.slug_ne_versionsCollection _), hhistory⟩
  have hinserted : Action.runOn env (Action.insert c.entity.versionsCollection
      (History.newRecord c.kind (some x.doc.id) x.doc.toRecord x.status x.time)) b =
        (.ok x.toVersion.toRecord, { b with store := s' }) := by
    rw [Action.runOn_insert hk.serving, hinsert]
  have hread : Action.runOn env (Action.ofExcept
      ((Version.ofRecord x.toVersion.toRecord).mapError StoreError.mismatch))
        { b with store := s' } = (.ok x.toVersion, { b with store := s' }) := by
    rw [Action.runOn_ofExcept, Version.ofRecord_toRecord hx.storable]
    rfl
  have hkeeps : c.keeps = v.maxPerDoc := by simp [CompiledEntity.keeps, hv]
  unfold History.save
  rw [Action.runOn_bind_ok hinserted, Action.runOn_bind_ok hread, hv]
  -- Nothing is pruned where all versions are kept.
  by_cases hkeep : 0 < v.maxPerDoc
  · obtain ⟨count, b', hprune, hkept, hdrawn', hclock⟩ :=
      hk'.runOn_prune env hc hsound hordered x.doc.id (hkeeps ▸ hkeep)
    refine ⟨b', ?_, hkept, hdrawn'.trans hdrawn, hclock⟩
    simp only [hkeep, if_true]
    rw [Action.runOn_bind_ok (hkeeps ▸ hprune), Action.runOn_pure]
  · have hzero : c.keeps = 0 := by omega
    refine ⟨{ b with store := s' }, by simp [hkeep], ?_, hdrawn, rfl⟩
    have hall : recorded c.keeps l.history x = l.history ++ [x] := by
      simp [recorded, prune, expired, hzero]
    rw [hall]
    exact hk'

end History

end

end Ledger

end HeadlessCms
