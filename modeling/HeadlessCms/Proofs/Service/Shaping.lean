import HeadlessCms.Proofs.Document.Shapes
import HeadlessCms.Proofs.Service.Saving
import HeadlessCms.Proofs.Store.Upkeep

/-!
# Saves keep the shape of records

A save keeps whatever its steps keep: taking a time, looking up what it starts from, storing the document
and storing its version (`Service.keeps_save_of_steps`).  So whatever is saved, in whatever order and with
whatever calls refused, the documents and versions of a collection stay in shape (`Service.keeps_save`).
This holds as long as no other entity has its documents or versions stored under the same names
(`CompiledEntity.SetApart`).
-/

namespace HeadlessCms

open Time (Instant)

namespace CompiledEntity

/-- The shape of the records of an entity. -/
def shape (c : CompiledEntity) (locales : Option Locales) : Shape :=
  ⟨locales, c.localizedPaths, c.entity.timestamps⟩

/-- What is known of the two collections of an entity; nothing of all others. -/
def law (c : CompiledEntity) (locales : Option Locales) : Store.Law where
  paths name paths :=
    (name = c.slug → paths = c.localizedPaths) ∧
      (name = c.entity.versionsCollection → paths = c.versionLocalizedPaths)
  record name r :=
    (name = c.slug → r.IsDocument (c.shape locales)) ∧
      (name = c.entity.versionsCollection → r.IsVersion (c.shape locales))

/-- The documents of an entity that go to a collection, and their versions, stay apart from those of
another entity. -/
structure SetApart (c other : CompiledEntity) (collection : String) : Prop where
  docs : collection = c.slug → other = c
  docsNotVersions : collection ≠ c.entity.versionsCollection
  versions : other.entity.isVersioned = true →
    other.entity.versionsCollection = c.entity.versionsCollection → other = c
  versionsNotDocs : other.entity.isVersioned = true → other.entity.versionsCollection ≠ c.slug

end CompiledEntity

namespace Service

/-! ### The content after a patch -/

variable {s : Service} {c other : CompiledEntity} {selection : Option LocaleSelection}
  {requested fallback : Option String}

/-- A selected locale is one of the locales, or asks for all of them. -/
theorem locale_of_selectLocale {l : Locales} (hl : s.localization = some l)
    (h : s.selectLocale requested fallback = .ok selection) :
    ∃ chosen, selection = some chosen ∧
      (chosen.locale = allLocales ∨ chosen.locale ∈ l.names) := by
  unfold selectLocale at h
  rw [hl] at h
  dsimp only at h
  split at h
  · cases h
  · next hknown =>
    obtain ⟨found, _, h⟩ := Except.bind_eq_ok_iff.1 h
    cases h
    refine ⟨_, rfl, ?_⟩
    by_cases hall : requested.getD l.default = allLocales
    · exact Or.inl hall
    · right
      have hhas : l.has (requested.getD l.default) = true := by
        by_contra hnot
        exact hknown ⟨hall, by simpa using hnot⟩
      exact List.contains_iff_mem.1 hhas

/-- Without localization no locale is selected. -/
theorem selection_of_selectLocale (hl : s.localization = none)
    (h : s.selectLocale requested fallback = .ok selection) : selection = none := by
  unfold selectLocale at h
  rw [hl] at h
  exact (Except.ok.inj h).symm

/-- The incoming members are in the order of their keys. -/
theorem ascending_incoming {stored patch : Record} (hpatch : Table.Ascending patch) :
    Table.Ascending (s.incoming c selection stored patch) := by
  have hkeys : (s.incoming c selection stored patch).keys = (Document.stripEnvelope patch).keys :=
    keys_incoming stored patch
  refine Table.ascending_of_keys (Document.stripEnvelope patch).keys ?_ ?_
  · rw [hkeys]
  · exact List.pairwise_map.2 (Document.ascending_stripEnvelope hpatch)

/-- What of a patch is stored is stored by locale. -/
theorem isLocalized_incoming (hselect : s.selectLocale requested fallback = .ok selection)
    (hwrite : localeOf selection ≠ some allLocales) (stored patch : Record) :
    Record.IsLocalized (c.shape s.localization) (s.incoming c selection stored patch) := by
  intro l hl path hpath
  obtain ⟨chosen, rfl, hchosen⟩ := locale_of_selectLocale hl hselect
  have hlocale : chosen.locale ∈ l.names :=
    hchosen.resolve_left fun heq => hwrite (congrArg some heq)
  have hlocalization : s.localization = some l := hl
  unfold incoming
  simp only [hlocalization]
  exact Record.localizedAt_mergeLocalized (t := ⟨l.names, chosen.locale⟩) hlocale hpath.lone _ _

/-- **Patches keep content tidy.** -/
theorem tidy_patched (hselect : s.selectLocale requested fallback = .ok selection)
    (hwrite : localeOf selection ≠ some allLocales) {stored patch : Record}
    (hstored : stored.Tidy (c.shape s.localization)) (hpatch : Table.Ascending patch)
    (status : Status) :
    (s.patched c selection status stored patch).Tidy (c.shape s.localization) := by
  have hincoming : Table.Ascending (s.incoming c selection stored patch) :=
    ascending_incoming hpatch
  have hget (name : String) :
      Table.get? name (Table.insertAll (s.incoming c selection stored patch) stored) =
        (Table.get? name (s.incoming c selection stored patch)).or (Table.get? name stored) :=
    Table.get?_insertAll hincoming name stored
  have hinserted : Record.Tidy (c.shape s.localization)
      (Table.insertAll (s.incoming c selection stored patch) stored) := by
    refine ⟨⟨Table.ascending_insertAll hstored.ascending, fun name hname => ?_⟩, ?_⟩
    · have hnone : Table.get? name (s.incoming c selection stored patch) = none := by
        rw [Table.get?_eq_none_iff, Table.keys, keys_incoming, ← Table.keys,
          ← Table.get?_eq_none_iff, Document.get?_stripEnvelope, if_pos hname]
      rw [hget, hnone, Option.none_or, hstored.free name hname]
    · refine (isLocalized_incoming hselect hwrite stored patch).merge hstored.localized
        fun name _ => ?_
      rw [hget]
      cases Table.get? name (s.incoming c selection stored patch) with
      | none => exact Or.inr Option.none_or
      | some v => exact Or.inl (Option.some_or)
  unfold patched
  dsimp only
  split
  · refine ⟨⟨Table.ascending_insert hinserted.ascending, fun name hname => ?_⟩, ?_⟩
    · have hne : name ≠ Status.field := by
        rintro rfl
        exact absurd hname (by decide)
      rw [Table.get?_insert, if_neg hne, hinserted.free name hname]
    · refine hinserted.localized.congr fun name hname => ?_
      have hne : name ≠ Status.field := by
        rintro rfl
        exact hname (by decide)
      rw [Table.get?_insert, if_neg hne]
  · exact hinserted

end Service

/-! ### Drafts and versions -/

variable [PatternEngine] {env : Surroundings} {I : Backend → Prop} {c other : CompiledEntity}
  {locales : Option Locales} {collection : String}

/-- **What is shown of a document** is the document or a version of it that satisfies the clause for
its drafts. -/
theorem Draft.keeps_resolve (entity : Entity) (kind : EntityKind) (doc : Document)
    (locale : Option String) (access : Access) :
    Action.Keeps env I (Draft.resolve entity kind doc locale access) fun shown => shown = doc ∨
      ∃ t v held q r, doc.updatedAt = some t ∧
        Backend.Offers I entity.versionsCollection held ∧
        q = ⟨entity.versionsCollection, some ((Draft.clause kind doc.id t access).mapPaths
          (Store.storedPath held.localizedPaths locale)), locale⟩ ∧
        Backend.Selects I q r ∧ Version.ofRecord (Record.sanitize r) = .ok v ∧
        shown = Draft.overlay doc v := by
  unfold Draft.resolve
  split
  · next t hcreated hupdated =>
    split
    · exact .pure (Or.inl rfl)
    · refine (Action.Keeps.buildQuery _ _ _).bind fun q hq => ?_
      obtain ⟨held, hheld, hq⟩ := hq
      refine (Action.Keeps.findOne q _).bind fun found hfound => ?_
      cases found with
      | none => exact .pure (Or.inl rfl)
      | some shown =>
        obtain ⟨r, hr, hshown⟩ := hfound shown rfl
        have hlean : shown = r := hshown
        subst hlean
        refine (Action.Keeps.ofExcept (P := fun v => Version.ofRecord (Record.sanitize shown) = .ok v)
          fun v hv => Except.mapError_eq_ok_iff.1 hv).bind fun v hv => ?_
        exact .pure (Or.inr ⟨t, v, held, q, shown, hupdated, hheld, hq, hr, hv, rfl⟩)
  · exact .pure (Or.inl rfl)

namespace History

variable {entity : Entity} {kind : EntityKind} {parent : Option String}

/-- Pruning a history keeps what deletions of versions keep. -/
theorem keeps_prune (hdelete : ∀ q : Query, q.collection = entity.versionsCollection →
      Action.Keeps env I (Action.deleteMany q) fun _ => True) (max : Nat) :
    Action.Keeps env I (prune entity kind parent max) fun _ => True := by
  unfold prune
  refine (Action.Keeps.buildQuery _ _ _).bind fun q _ => ?_
  refine (Action.Keeps.find q _ _).bind fun history _ => ?_
  dsimp only
  split
  · exact .pure trivial
  · refine (Action.Keeps.buildQuery _ _ _).bind fun q hq => ?_
    obtain ⟨_, _, rfl⟩ := hq
    exact hdelete _ rfl

/-- Saving a version keeps what its insertion and deletions of versions keep. -/
theorem keeps_save {data : Record} {status : Status} {time : Instant}
    (hinsert : Action.Keeps env I
      (Action.insert entity.versionsCollection (newRecord kind parent data status time)) fun _ => True)
    (hdelete : ∀ q : Query, q.collection = entity.versionsCollection →
      Action.Keeps env I (Action.deleteMany q) fun _ => True) :
    Action.Keeps env I (save entity kind parent data status time) fun _ => True := by
  unfold save
  refine hinsert.bind fun stored _ => ?_
  refine .ofExcept_bind fun version _ => ?_
  split
  · split
    · exact (keeps_prune hdelete _).bind fun _ _ => .pure trivial
    · exact .pure trivial
  · exact .pure trivial

/-- **A version breaks no law if its record does not.** -/
theorem keeps_save_lawful {law : Store.Law} {data : Record} {status : Status} {time : Instant}
    (h : ∀ n sequence, law.record entity.versionsCollection
      (Store.stamp (env.ids n) sequence 0 (newRecord kind parent data status time))) :
    Action.Keeps env (Backend.Lawful env law) (save entity kind parent data status time)
      fun _ => True :=
  keeps_save ((Action.Keeps.insert (id?_newRecord _ _ _ _ _) h).imp fun _ _ => trivial)
    fun q _ => Action.Keeps.deleteMany q

end History

namespace Service

/-! ### Documents -/

/-- Reading a record as a document leaves the store as it is. -/
theorem keeps_documentOf (record : Record) :
    Action.Keeps env I (documentOf record) fun d => Document.ofRecord record = .ok d :=
  .ofExcept fun _ hd => Except.mapError_eq_ok_iff.1 hd

/-- A document that is loaded is stored, and satisfies the clause. -/
theorem keeps_load_selected (collection : String) (clause : Predicate) :
    Action.Keeps env I (load collection clause) fun existing => ∀ d ∈ existing, ∃ r,
      Backend.Selects I ⟨collection, some (clause.mapPaths Path.toData), none⟩ r ∧
      Document.ofRecord (Record.sanitize r) = .ok d := by
  unfold load
  refine ((Action.Keeps.buildQuery _ _ _).mapError _).bind fun q hq => ?_
  obtain ⟨_, _, rfl⟩ := hq
  refine ((Action.Keeps.findOne _ _).mapError _).bind fun found hfound => ?_
  cases found with
  | none => exact .pure fun d hd => by cases hd
  | some shown =>
    obtain ⟨r, hr, rfl⟩ := hfound shown rfl
    refine (keeps_documentOf _).bind fun doc hdoc => .pure fun d hd => ?_
    cases hd
    exact ⟨r, hr, hdoc⟩

/-- A document that is loaded is read from a record that the store holds. -/
theorem keeps_load (collection : String) (clause : Predicate) :
    Action.Keeps env I (load collection clause) fun existing => ∀ d ∈ existing, ∃ held r,
      Backend.Offers I collection held ∧ r ∈ held.records ∧
      Document.ofRecord (Record.sanitize r) = .ok d := by
  refine (keeps_load_selected collection clause).imp fun existing hexisting d hd => ?_
  obtain ⟨r, hr, hread⟩ := hexisting d hd
  obtain ⟨held, hheld, hmem⟩ := hr.mem
  exact ⟨held, r, hheld, hmem, hread⟩

/-- The content that a published save starts from. -/
def publishedBase (existing : Option Document) : Record :=
  match existing with
  | none => []
  | some doc => doc.data

/-- **A save starts** from the content of the document, or from that of its newest draft if it leaves
a draft itself. -/
theorem keeps_baseOf {existing : Option Document} {draft : Bool} {P : Record → Prop}
    (hpublished : existing = none ∨ draft = false → P (publishedBase existing))
    (hdraft : draft = true → ∀ doc ∈ existing, Action.Keeps env I
      (Draft.resolve c.entity c.kind doc none .unrestricted) fun newest => P newest.data) :
    Action.Keeps env I (baseOf c existing draft) P := by
  unfold baseOf
  cases existing with
  | none => exact .pure (hpublished (Or.inl rfl))
  | some doc =>
    cases draft with
    | true => exact ((hdraft rfl doc rfl).mapError _).bind fun _ hnewest => .pure hnewest
    | false => exact .pure (hpublished (Or.inr rfl))

/-- Looking for the base of an update keeps every invariant that looking keeps. -/
theorem keeps_baseOf_any {existing : Option Document} (draft : Bool) :
    Action.Keeps env I (baseOf c existing draft) fun _ => True :=
  keeps_baseOf (fun _ => trivial) fun _ _ _ => (Draft.keeps_resolve _ _ _ _ _).imp fun _ _ => trivial

/-- **Storing a document keeps what its update and its insertion keep.** -/
theorem keeps_store_of_writes {existing : Option Document} {draft : Bool}
    {createdAt updatedAt : Option Instant} {data : Record} {P : String → Record → Prop}
    {Q : Record → Prop}
    (hupdate : ∀ id, Action.Keeps env I
      (Action.update collection id (Document.toRecord ⟨id, createdAt, updatedAt, data⟩)) (P id))
    (hinsert : Action.Keeps env I (Action.insert collection
      (Table.erase "id" (Document.toRecord ⟨"", createdAt, updatedAt, data⟩))) Q) :
    Action.Keeps env I (store collection existing draft createdAt updatedAt data) fun _ => True := by
  unfold store
  cases existing with
  | some doc =>
    dsimp only
    split
    · exact .pure trivial
    · exact ((hupdate doc.id).mapError _).bind fun _ _ => (keeps_documentOf _).imp fun _ _ => trivial
  | none =>
    exact (hinsert.mapError _).bind fun _ _ => (keeps_documentOf _).imp fun _ _ => trivial

/-! ### Saves -/

/-- Whether a save leaves a draft. -/
def draftOf (c : CompiledEntity) (params : SaveParams) : Bool :=
  params.draft && c.entity.hasDrafts

/-- The status with which a save tags what it writes. -/
def statusOf (c : CompiledEntity) (params : SaveParams) : Status :=
  if draftOf c params then .draft else .published

/-- When a document that a save stores was created: now, if it is new or does not say. -/
def creationOf (existing : Option Document) (time : Instant) : Instant :=
  (existing.bind (·.createdAt)).getD time

omit [PatternEngine] in
/-- What is so of the time of a save and of all times of creation that it may find. -/
theorem of_creationOf {P : Instant → Prop} {existing : Option Document}
    (h : ∀ d ∈ existing, ∀ t ∈ d.createdAt, P t) {time : Instant} (htime : P time) :
    P (creationOf existing time) := by
  unfold creationOf
  cases hcreated : existing.bind (·.createdAt) with
  | none => exact htime
  | some t =>
    obtain ⟨doc, hdoc, ht⟩ := Option.bind_eq_some_iff.1 hcreated
    exact h doc hdoc t ht

omit [PatternEngine] in
/-- What is so of a time that is written if the entity has times. -/
theorem of_mem_timestamp {P : Instant → Prop} {time : Instant}
    (h : c.entity.timestamps = true → P time) :
    ∀ t ∈ (if c.entity.timestamps then some time else none), P t := by
  intro t ht
  split at ht
  · next htimestamps =>
    cases ht
    exact h htimestamps
  · cases ht

/-- Whether a version is saved or not, what its saving keeps is kept. -/
theorem keeps_versioned {saved : Document} {status : Status} {time : Instant}
    (h : c.entity.isVersioned = true → Action.Keeps env I
      (History.save c.entity c.kind (some saved.id) saved.toRecord status time) fun _ => True)
    (result : Document) :
    Action.Keeps env I (do
      if c.entity.isVersioned then do
        let _ ← onStore (History.save c.entity c.kind (some saved.id) saved.toRecord status time)
      pure result) fun _ => True := by
  split
  · next hversioned => exact ((h hversioned).mapError _).bind fun _ _ => .pure trivial
  · exact .pure trivial

/-- **What the steps of a save keep is kept by the save,** once it has taken a time.  What is known of the
result of a step is known to the later ones. -/
theorem left_save_of_steps {s : Service} {b : Backend} {selection : Option LocaleSelection}
    {existing : Option Document} {patch : Record} {params : SaveParams} {B : Record → Prop}
    {D : Document → Prop} (hselect : s.selectLocale params.locale none = .ok selection)
    (hwrite : localeOf selection ≠ some allLocales)
    (hnow : I { b with clock := (b.clock.next env.readings).2 })
    (hbase : Action.Keeps env I (baseOf c existing (draftOf c params)) B)
    (hstore : ∀ base, B base → Action.Keeps env I
      (store collection existing (draftOf c params)
        (if c.entity.timestamps then some (creationOf existing (b.clock.next env.readings).1) else none)
        (if c.entity.timestamps then some (b.clock.next env.readings).1 else none)
        (s.patched c selection (statusOf c params) base patch)) D)
    (hversion : c.entity.isVersioned = true → ∀ saved status, D saved → Action.Keeps env I
      (History.save c.entity c.kind (some saved.id) saved.toRecord status (b.clock.next env.readings).1)
        fun _ => True) :
    I (Action.runOn env (s.save c collection existing patch params) b).2 := by
  unfold save
  rw [Action.runOn_bind_ok (Action.runOn_ofExcept_ok hselect), if_neg hwrite]
  dsimp only
  rw [Action.runOn_bind_ok Action.runOn_now]
  refine (hbase.bind (Q := fun _ => True) fun base hb => ?_) _ hnow |>.1
  have hstored := hstore base hb
  have hleft (saved : Document) (hsaved : D saved) :=
    keeps_versioned (fun hversioned => hversion hversioned saved (statusOf c params) hsaved)
      { saved with data := s.localize c.localizedPaths selection saved.data }
  split
  · next htimestamps =>
    rw [if_pos htimestamps, if_pos htimestamps] at hstored
    exact hstored.bind hleft
  · next htimestamps =>
    rw [if_neg htimestamps, if_neg htimestamps] at hstored
    exact hstored.bind hleft

/-- A save takes a time, or it does nothing. -/
theorem takes_time_or_idle (env : Surroundings) (s : Service) (c : CompiledEntity) (collection : String)
    (existing : Option Document) (patch : Record) (params : SaveParams) :
    (∃ selection, s.selectLocale params.locale none = .ok selection ∧
      localeOf selection ≠ some allLocales) ∨
    ∀ b, (Action.runOn env (s.save c collection existing patch params) b).2 = b := by
  unfold save
  cases hselect : s.selectLocale params.locale none with
  | error e =>
    right
    intro b
    rw [Action.runOn_bind_error (Prod.ext rfl rfl)]
    rfl
  | ok selection =>
    by_cases hwrite : localeOf selection = some allLocales
    · right
      intro b
      rw [Action.runOn_bind_ok (Action.runOn_ofExcept_ok rfl), if_pos hwrite]
      rfl
    · exact .inl ⟨selection, rfl, hwrite⟩

/-- **A save keeps what its steps keep:** taking a time, looking up what it starts from, storing the
document and storing its version.  What is known of the result of a step is known to the later ones. -/
theorem keeps_save_of_steps {s : Service} {existing : Option Document} {patch : Record}
    {params : SaveParams} {T : Instant → Prop} {B : Record → Prop} {D : Instant → Document → Prop}
    (hnow : Action.Keeps env I (Action.now : Action ServiceError Instant) T)
    (hbase : Action.Keeps env I (baseOf c existing (draftOf c params)) B)
    (hstore : ∀ selection time base, s.selectLocale params.locale none = .ok selection →
      localeOf selection ≠ some allLocales → T time → B base → Action.Keeps env I
        (store collection existing (draftOf c params)
          (if c.entity.timestamps then some (creationOf existing time) else none)
          (if c.entity.timestamps then some time else none)
          (s.patched c selection (statusOf c params) base patch)) (D time))
    (hversion : c.entity.isVersioned = true → ∀ time saved status, T time → D time saved →
      Action.Keeps env I
        (History.save c.entity c.kind (some saved.id) saved.toRecord status time) fun _ => True) :
    Action.Keeps env I (s.save c collection existing patch params) fun _ => True := by
  intro b hb
  refine ⟨?_, fun _ _ => trivial⟩
  rcases takes_time_or_idle env s c collection existing patch params with
    ⟨selection, hselect, hwrite⟩ | hidle
  · obtain ⟨hkept, htime⟩ := hnow b hb
    rw [Action.runOn_now] at hkept htime
    exact left_save_of_steps hselect hwrite hkept hbase
      (fun base hbase => hstore selection _ base hselect hwrite (htime _ rfl) hbase)
      fun hversioned saved status hsaved => hversion hversioned _ saved status (htime _ rfl) hsaved
  · rwa [hidle]

/-- **A save starts from tidy content.** -/
theorem keeps_baseOf_tidy {existing : Option Document}
    (h : other = c → ∀ d ∈ existing, d.Tidy (c.shape locales)) (draft : Bool) :
    Action.Keeps env (Backend.Lawful env (c.law locales)) (baseOf other existing draft)
      fun base => other = c → base.Tidy (c.shape locales) := by
  refine keeps_baseOf (fun _ heq => ?_) fun _ doc hdoc => ?_
  · cases existing with
    | none => exact .nil
    | some doc => exact (h heq doc rfl).data
  · refine (Draft.keeps_resolve _ _ _ _ _).imp fun newest hnewest heq => ?_
    subst heq
    rcases hnewest with rfl | ⟨t, v, held, q, r, _, hheld, rfl, hr, hread, rfl⟩
    · exact (h rfl newest hdoc).data
    · exact ((hr.record.2 rfl).read hread).tidy

/-- **What is stored is a tidy document,** with the times that it has been given. -/
theorem keeps_store (henv : env.Proper) (hapart : c.SetApart other collection)
    {existing : Option Document} {draft : Bool} {createdAt updatedAt : Option Instant}
    {data : Record}
    (hexisting : other = c → ∀ d ∈ existing, d.Tidy (c.shape locales))
    (hdata : other = c → data.Tidy (c.shape locales))
    (hcreated : other = c → ∀ t ∈ createdAt, t.Regular)
    (hupdated : other = c → ∀ t ∈ updatedAt, t.Regular ∧ c.entity.timestamps = true) :
    Action.Keeps env (Backend.Lawful env (c.law locales))
      (store collection existing draft createdAt updatedAt data)
      fun saved => other = c → saved.Tidy (c.shape locales) ∧ saved.updatedAt = updatedAt := by
  -- The document as it should read, apart from its id.
  have htidy : other = c → ∀ id, Time.readStrict? id = none →
      Document.Tidy (c.shape locales) ⟨id, createdAt, updatedAt, data⟩ :=
    fun heq id hid => ⟨hdata heq, hid, hcreated heq, hupdated heq⟩
  unfold store
  cases existing with
  | some doc =>
    dsimp only
    split
    · exact .pure fun heq => ⟨htidy heq doc.id (hexisting heq doc rfl).plain, rfl⟩
    · have hlaw : ∀ sequence revision, (c.law locales).record collection
          (Store.stamp doc.id sequence revision
            (Document.toRecord ⟨doc.id, createdAt, updatedAt, data⟩)) := by
        intro sequence revision
        refine ⟨fun hcollection => ?_, fun hversions => absurd hversions hapart.docsNotVersions⟩
        have heq := hapart.docs hcollection
        have hplain := (hexisting heq doc rfl).plain
        exact Store.isDocument_stamp (htidy heq doc.id hplain) hplain sequence revision
          (Document.ascending_toRecord _) fun _ _ => rfl
      refine ((Action.Keeps.update hlaw).mapError _).bind fun shown hshown => ?_
      obtain ⟨sequence, revision, rfl⟩ := hshown
      refine (keeps_documentOf _).imp fun saved hread heq => ?_
      have hplain := (hexisting heq doc rfl).plain
      exact Store.read_stamp (htidy heq doc.id hplain) hplain (Document.ascending_toRecord _)
        (fun _ _ => rfl) hread
  | none =>
    dsimp only
    have hnew : Time.readStrict? "" = none := rfl
    have hascending : Table.Ascending
        (Table.erase "id" (Document.toRecord ⟨"", createdAt, updatedAt, data⟩)) :=
      Table.ascending_erase (Document.ascending_toRecord _)
    have hget : ∀ key, key ≠ "id" →
        Table.get? key (Table.erase "id" (Document.toRecord ⟨"", createdAt, updatedAt, data⟩)) =
          Table.get? key (Document.toRecord ⟨"", createdAt, updatedAt, data⟩) := fun key hkey => by
      rw [Table.get?_erase, if_neg hkey]
    have hlaw : ∀ n sequence, (c.law locales).record collection
        (Store.stamp (env.ids n) sequence 0
          (Table.erase "id" (Document.toRecord ⟨"", createdAt, updatedAt, data⟩))) := by
      intro n sequence
      refine ⟨fun hcollection => ?_, fun hversions => absurd hversions hapart.docsNotVersions⟩
      exact Store.isDocument_stamp (htidy (hapart.docs hcollection) "" hnew) (henv.plain n) sequence 0
        hascending hget
    refine ((Action.Keeps.insert (Record.id?_erase_id _) hlaw).mapError _).bind fun shown hshown => ?_
    obtain ⟨n, sequence, rfl⟩ := hshown
    refine (keeps_documentOf _).imp fun saved hread heq => ?_
    exact Store.read_stamp (htidy heq "" hnew) (henv.plain n) hascending hget hread

/-- **The version that a save leaves is in shape,** if it carries the time of the document. -/
theorem keeps_version (hapart : c.SetApart other collection) (hkind : c.kind = .collection)
    {saved : Document} {time : Instant} (htime : time.Regular)
    (hsaved : other = c → saved.Tidy (c.shape locales) ∧
      (c.entity.timestamps = true → saved.updatedAt = some time))
    (hversioned : other.entity.isVersioned = true) (status : Status) :
    Action.Keeps env (Backend.Lawful env (c.law locales))
      (History.save other.entity other.kind (some saved.id) saved.toRecord status time)
      fun _ => True := by
  refine History.keeps_save_lawful fun n sequence => ?_
  refine ⟨fun hdocs => absurd hdocs (hapart.versionsNotDocs hversioned), fun hversions => ?_⟩
  have heq := hapart.versions hversioned hversions
  obtain ⟨htidy, hupdated⟩ := hsaved heq
  subst heq
  rw [hkind]
  exact Store.isVersion_stamp htidy htime hupdated status _ _ _

/-- **Saves keep the shape of records.** -/
theorem keeps_save {s : Service} (henv : env.Proper) (hapart : c.SetApart other collection)
    (hkind : c.kind = .collection) {existing : Option Document} {patch : Record}
    {params : SaveParams}
    (hexisting : other = c → ∀ d ∈ existing, d.Tidy (c.shape s.localization))
    (hpatch : Table.Ascending patch) :
    Action.Keeps env (Backend.Lawful env (c.law s.localization))
      (s.save other collection existing patch params) fun _ => True := by
  refine keeps_save_of_steps (D := fun time saved => other = c → saved.Tidy (c.shape s.localization) ∧
      (c.entity.timestamps = true → saved.updatedAt = some time))
    (.now_regular henv.regular) (keeps_baseOf_tidy hexisting _)
    (fun selection time base hselect hwrite htime hbase => ?_)
    fun hversioned time saved status htime hsaved =>
      keeps_version hapart hkind htime hsaved hversioned status
  have hdata : other = c → Record.Tidy (c.shape s.localization)
      (s.patched other selection (statusOf other params) base patch) := by
    intro heq
    subst heq
    exact tidy_patched hselect hwrite (hbase rfl) hpatch _
  have hcreated : other = c → (creationOf existing time).Regular := fun heq =>
    of_creationOf (fun d hd => (hexisting heq d hd).createdAt) htime
  refine (keeps_store henv hapart hexisting hdata (fun heq => of_mem_timestamp fun _ => hcreated heq)
    fun heq => of_mem_timestamp fun htimestamps => ⟨htime, heq ▸ htimestamps⟩).imp
    fun saved hsaved heq => ⟨(hsaved heq).1, fun htimestamps => ?_⟩
  rw [(hsaved heq).2, if_pos (heq ▸ htimestamps)]

end Service

end HeadlessCms
