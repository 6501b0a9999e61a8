import HeadlessCms.Proofs.Localization.Undoing
import HeadlessCms.Proofs.Service.Succeeding

/-!
# Documents read back

A document can be created in every locale but the one that stands for all of them, and then it is found
under its id in this locale with what it has been created with (`Service.created_reads_back`).  A member
may fail to read back where one of the localized paths goes on from another one, which block types that
are declared beside each other can bring about (`Service.not_read_back`).
-/

namespace HeadlessCms

open Time (Instant)

/-- A name of members whose localized paths are apart: none of them goes on from another one. -/
def CompiledEntity.Untangled (c : CompiledEntity) (name : String) : Prop :=
  ∀ a ∈ c.localizedPaths, ∀ b ∈ c.localizedPaths, Path.startsAt name a = true → Path.Apart a b

namespace Service

variable {env : Surroundings} {config : Config} {registry : Registry} {s : Service}
  {c : CompiledEntity} {slug : String} {b b' : Backend} {locales : Locales} {locale : String}

/-! ### What is written and what is read -/

/-- A new document has the members of the patch as they are put under the locale, apart from its
state. -/
theorem get?_patched_new (hlocales : s.localization = some locales) {fallback : Option String}
    {data : Record} (hdata : Table.Ascending data) {name : String}
    (hstatus : name = Status.field → c.entity.hasDrafts = false) (status : Status) :
    Table.get? name (s.patched c (some ⟨locale, fallback⟩) status [] data) =
      Table.get? name (Record.mergeLocalized ⟨locales.names, locale⟩ (some []) c.localizedPaths
        (Document.stripEnvelope data)) := by
  have hincoming : s.incoming c (some ⟨locale, fallback⟩) [] data =
      Record.mergeLocalized ⟨locales.names, locale⟩ (some []) c.localizedPaths
        (Document.stripEnvelope data) := by
    unfold incoming
    rw [hlocales]
  have hinserted : Table.get? name
      (Table.insertAll (s.incoming c (some ⟨locale, fallback⟩) [] data) []) =
        Table.get? name (s.incoming c (some ⟨locale, fallback⟩) [] data) := by
    rw [Table.get?_insertAll (ascending_incoming hdata)]
    exact Option.or_none
  rw [← hincoming, ← hinserted]
  unfold patched
  dsimp only
  split
  · next hdrafts =>
    have hne : name ≠ Status.field := fun heq => by
      rw [hstatus heq] at hdrafts
      cases hdrafts
    rw [Table.get?_insert, if_neg hne]
  · rfl

/-- **A member of a new document reads in its locale as it has been written.** -/
theorem get?_localize_of_patched (hlocales : s.localization = some locales)
    (hlocale : locale ∈ locales.names) (hone : locale ≠ allLocales) {fallback : Option String}
    {data record : Record} (hdata : Table.Ascending data) {name : String}
    (huntangled : c.Untangled name) (hname : name ∉ Document.envelope)
    (hstatus : name = Status.field → c.entity.hasDrafts = false) {status : Status}
    (hrecord : Table.get? name record =
      Table.get? name (s.patched c (some ⟨locale, fallback⟩) status [] data)) :
    Table.get? name (s.localize c.localizedPaths (some ⟨locale, none⟩) record) =
      Table.get? name data := by
  have hread : s.localize c.localizedPaths (some ⟨locale, none⟩) record =
      c.localizedPaths.foldl (LocaleChoice.pickAt ⟨locales.names, locale, none⟩) record := by
    unfold localize
    rw [hlocales]
    exact if_neg hone
  rw [hread, Record.get?_foldl_pickAt_mergeLocalized (t := ⟨locales.names, locale⟩) hlocale huntangled
    (some []) (Document.stripEnvelope data)
    (hrecord.trans (get?_patched_new hlocales hdata hstatus status)),
    Document.get?_stripEnvelope, if_neg hname]

/-! ### Creating and finding -/

/-- Every locale can be written in. -/
theorem exists_selectLocale_of_mem (hlocales : s.localization = some locales)
    (h : locale ∈ locales.names) :
    ∃ fallback, s.selectLocale (some locale) none = .ok (some ⟨locale, fallback⟩) := by
  have hhas : locales.has locale = true := List.contains_iff_mem.2 h
  refine ⟨if locales.fallback then some locales.default else none, ?_⟩
  unfold selectLocale
  rw [hlocales]
  dsimp only [Option.getD_some]
  rw [if_neg fun hunknown => by simp [hhas] at hunknown]
  rfl

/-- Who asks for one locale does not read all of them. -/
theorem localeOf_ne_allLocales (hone : locale ≠ allLocales) (fallback : Option String) :
    localeOf (some ⟨locale, fallback⟩) ≠ some allLocales :=
  fun heq => hone (Option.some.inj heq)

section

variable [PatternEngine]

/-- In all locales at once nothing can be created. -/
theorem create_allLocales (hc : s.registry.collection slug = .ok c)
    (hlocales : s.localization = some locales) (h : allLocales ∈ locales.names) (data : Record)
    (draft : Bool) :
    Action.runOn env (s.create slug data ⟨draft, some allLocales⟩) b =
      (.error .everyLocaleAtOnce, b) := by
  obtain ⟨fallback, hselect⟩ := exists_selectLocale_of_mem hlocales h
  unfold create
  rw [Action.runOn_bind_ok (Action.runOn_ofExcept_ok hc)]
  unfold save
  rw [Action.runOn_bind_ok (Action.runOn_ofExcept_ok hselect)]
  rfl

/-- **A document is created in every other locale.** -/
theorem exists_created (henv : env.Proper) (hbuild : Registry.build config = .ok registry)
    (hc : registry.collection slug = .ok c) (hlocales : config.localization = some locales)
    (hlater : Later env registry config (startedBackend env registry config) b)
    (hserving : b.refused = []) (htime : (b.clock.next env.readings).1.Storable)
    (hlocale : locale ∈ locales.names) (hone : locale ≠ allLocales) (data : Record) (draft : Bool) :
    ∃ fallback saved b',
      (ofRegistry registry config).selectLocale (some locale) none =
        .ok (some ⟨locale, fallback⟩) ∧
      Action.runOn env
        ((ofRegistry registry config).save c slug none data ⟨draft, some locale⟩) b =
          (.ok ((ofRegistry registry config).inLocale c.localizedPaths (some ⟨locale, fallback⟩) saved),
            b') ∧
      (∃ r ∈ b'.store.recordsOf slug, r.IsNew env
        (if c.entity.timestamps then some (b.clock.next env.readings).1 else none)
        ((ofRegistry registry config).patched c (some ⟨locale, fallback⟩)
          (statusOf c ⟨draft, some locale⟩) [] data) saved) ∧
      (c.entity.isVersioned = true →
        (Table.get? c.entity.versionsCollection b'.store.collections).isSome = true) := by
  obtain ⟨fallback, hselect⟩ :=
    exists_selectLocale_of_mem (s := ofRegistry registry config) hlocales hlocale
  have hcollection : c.entity.versionsCollection ≠ slug :=
    (Registry.compiles_of_collection hbuild hc).slug_eq ▸
      (CompiledEntity.slug_ne_versionsCollection c.entity).symm
  obtain ⟨hname, hversions⟩ := mem_storeCollections hbuild hc
  have hserves : b.Serves env ((storeCollections registry).map (·.1)) :=
    ⟨hserving, (hlater.reachable (.started .empty)).drawn, fun _ h => hlater.declares h⟩
  have hsucceeds : Action.Succeeds env
      ((ofRegistry registry config).save c slug none data ⟨draft, some locale⟩) b :=
    succeeds_save henv.ids_injective hserves hname hversions hselect
      (localeOf_ne_allLocales hone fallback) htime data
  obtain ⟨created, hcreated⟩ := hsucceeds
  have hsave : Action.runOn env ((ofRegistry registry config).save c slug none data
      ⟨draft, some locale⟩) b = (.ok created, _) := Prod.ext hcreated rfl
  obtain ⟨chosen, saved, hchosen, -, rfl, hnew, hthere⟩ := isNew_of_save hcollection hsave
  obtain rfl := Except.ok.inj (hselect.symm.trans hchosen)
  exact ⟨fallback, saved, _, hselect, hsave, hnew, hthere⟩

/-- **A document that has been created is found again,** in every locale. -/
theorem runOn_findById_of_created (henv : env.Proper) (hvalid : config.validate = .ok ())
    (hbuild : Registry.build config = .ok registry) (hc : registry.collection slug = .ok c)
    (hopen : c.entity.read = .allow true) (hlocales : config.localization = some locales)
    (hid : "id" ∉ c.localizedPaths) (hreach : Reachable env registry config b)
    (hserving : b.refused = []) {selection : Option LocaleSelection} {data content : Record}
    (hdata : Table.Ascending data) {params : SaveParams}
    (hselect : (ofRegistry registry config).selectLocale params.locale none = .ok selection)
    (hwrite : localeOf selection ≠ some allLocales) {created saved : Document}
    (hsave : Action.runOn env ((ofRegistry registry config).save c slug none data params) b =
      (.ok created, b'))
    {r : Record} (hr : r ∈ b'.store.recordsOf slug)
    (hnew : r.IsNew env (if c.entity.timestamps then some (b.clock.next env.readings).1 else none)
      content saved)
    (hversions : c.entity.isVersioned = true →
      (Table.get? c.entity.versionsCollection b'.store.collections).isSome = true)
    (hlocale : locale ∈ locales.names) {draft : Bool}
    (hprint : draft = true → ∀ i ≤ b.clock.taken, (Clock.times env.readings i).Printable) :
    Action.runOn env ((ofRegistry registry config).findById slug saved.id
      ⟨draft, some locale, some noFallback⟩) b' =
        (.ok ((ofRegistry registry config).inLocale c.localizedPaths (some ⟨locale, none⟩) saved),
          b') := by
  have hdated := hreach.dated hvalid hbuild hc hid
  obtain ⟨n, hclock⟩ := hdated.clock
  have htaken : b.clock.taken = n := by rw [hclock, Clock.taken_after]
  rw [hclock, Clock.next_after] at hnew
  have hserving' : b'.refused = [] := (Action.refused_of_runOn hsave).trans hserving
  have hids : b'.store.Identified := by
    have hcreate : Action.runOn env ((ofRegistry registry config).create slug data params) b =
        (.ok created, b') := (Action.runOn_bind_ok (Action.runOn_ofExcept_ok hc) _).trans hsave
    have hreach' := (hreach.created slug params hdata).identified
    rwa [hcreate] at hreach'
  have hlawful : b'.Lawful env (Store.datedLaw env.readings slug (n + 1)) := by
    have hnone : ∀ d ∈ (none : Option Document), d.Restorable := fun d hd => by cases hd
    have hleft : (Action.runOn env ((ofRegistry registry config).save c slug none data params)
        b).2.Lawful env (Store.datedLaw env.readings slug (b.clock.taken + 1)) :=
      lawful_save hselect hwrite hdated hnone
    rwa [hsave, htaken] at hleft
  have hdraft : draft = true → c.entity.hasDrafts = true →
      Action.runOn env (Draft.resolve c.entity c.kind saved (some locale) .unrestricted) b' =
        (.ok saved, b') := by
    intro hasked hdrafts
    obtain ⟨held, hheld⟩ :=
      Option.isSome_iff_exists.1 (hversions (Entity.isVersioned_of_hasDrafts hdrafts))
    exact Draft.runOn_resolve_of_dated hserving' hheld (hlawful.store _ _ hheld).2
      (htaken ▸ hprint hasked) (hnew.time_of_timestamps henv) c.kind _
  obtain ⟨held, hheld, _⟩ := Store.exists_of_mem_recordsOf hr
  exact runOn_findById_of_isNew henv hserving' hc hopen (selectLocale_of_mem hlocales hlocale) hids
    hheld ((hlawful.store slug held hheld).1 rfl) hr hnew hdraft

omit [PatternEngine] in
/-- A document that has been created has no members of the system in its data, in whatever locale it
reads. -/
theorem get?_localize_of_reserved {updatedAt : Option Instant} {content r : Record} {saved : Document}
    (hnew : r.IsNew env updatedAt content saved) {name : String} (hname : name ∈ Record.reservedNames)
    (paths : List String) (selection : Option LocaleSelection) :
    Table.get? name (s.localize paths selection saved.data) = none := by
  have hstored : Table.get? name saved.data = none := by
    rw [(Document.of_ofRecord hnew.read).2, Document.get?_stripEnvelope]
    split
    · rfl
    · next henvelope =>
      have hnumbers : name = "_seq" ∨ name = "__v" := by
        simpa [Record.reservedNames, henvelope, Record.sequenceField, Record.revisionField] using hname
      rw [Record.get?_sanitize, if_pos hnumbers]
  rw [Table.get?_eq_none_iff, keys_localize]
  exact Table.get?_eq_none_iff.1 hstored

/-- **Documents read back as they have been created.**  Let a collection that everybody may read be
written on any backend that the service has reached since its start and that refuses nothing.  In the
locale that stands for all of them nothing can be created.  In every other locale every document can be,
and found again under its id in this locale, without a fallback: apart from its state, each of its
members is what has been written, localized or not, if none of the localized paths that begin with the
name of the member goes on from another one.  The time of the save must be one that can be written and
read back; where drafts are asked for, the clock must not have left the years of four digits. -/
theorem created_reads_back (henv : env.Proper) (hvalid : config.validate = .ok ())
    (hbuild : Registry.build config = .ok registry) (hc : registry.collection slug = .ok c)
    (hopen : c.entity.read = .allow true) (hlocales : config.localization = some locales)
    (hid : "id" ∉ c.localizedPaths)
    (hlater : Later env registry config (startedBackend env registry config) b)
    (hserving : b.refused = []) (htime : (b.clock.next env.readings).1.Storable) {data : Record}
    (hdata : Table.Ascending data) (hfree : ∀ name ∈ Record.reservedNames, Table.get? name data = none)
    (hlocale : locale ∈ locales.names) (draft : Bool) {asked : Bool}
    (hprint : asked = true → ∀ i ≤ b.clock.taken, (Clock.times env.readings i).Printable) :
    (locale = allLocales →
      Action.runOn env ((ofRegistry registry config).create slug data ⟨draft, some locale⟩) b =
        (.error .everyLocaleAtOnce, b)) ∧
    (locale ≠ allLocales → ∃ created b' found,
      Action.runOn env ((ofRegistry registry config).create slug data ⟨draft, some locale⟩) b =
        (.ok created, b') ∧
      Action.runOn env ((ofRegistry registry config).findById slug created.id
        ⟨asked, some locale, some noFallback⟩) b' = (.ok found, b') ∧
      ∀ name, c.Untangled name → (name = Status.field → c.entity.hasDrafts = false) →
        Table.get? name found.data = Table.get? name data) := by
  constructor
  · rintro rfl
    exact create_allLocales hc hlocales hlocale data draft
  · intro hone
    obtain ⟨fallback, saved, b', hselect, hsave, ⟨r, hr, hnew⟩, hversions⟩ :=
      exists_created henv hbuild hc hlocales hlater hserving htime hlocale hone data draft
    have hfound := runOn_findById_of_created henv hvalid hbuild hc hopen hlocales hid
      (hlater.reachable (.started .empty)) hserving hdata hselect
      (localeOf_ne_allLocales hone fallback) hsave hr hnew hversions hlocale hprint
    refine ⟨_, b', _, (Action.runOn_bind_ok (Action.runOn_ofExcept_ok hc) _).trans hsave, hfound,
      fun name huntangled hstatus => ?_⟩
    by_cases hname : name ∈ Record.reservedNames
    · rw [hfree name hname]
      exact get?_localize_of_reserved hnew hname _ _
    · exact get?_localize_of_patched hlocales hlocale hone hdata huntangled
        (fun henvelope => hname (List.mem_append_left _ henvelope)) hstatus (hnew.content name hname)

end

/-- A track that is created in German reads back in German. -/
theorem created_reads_back_track :
    ∃ created b' found,
      Action.runOn .backward ((ofRegistry tracksRegistry tracksConfig).create "tracks" track
        ⟨false, some "de"⟩) (startedBackend .backward tracksRegistry tracksConfig) =
          (.ok created, b') ∧
      Action.runOn .backward ((ofRegistry tracksRegistry tracksConfig).findById "tracks" created.id
        ⟨false, some "de", some noFallback⟩) b' = (.ok found, b') ∧
      Table.get? "parts" found.data = Table.get? "parts" track := by
  obtain ⟨hvalid, hbuild, c, hc, hopen, hpaths⟩ := compiled_tracks
  have hid : "id" ∉ c.localizedPaths := by
    rw [hpaths]
    decide
  have htime : ((startedBackend .backward tracksRegistry tracksConfig).clock.next
      Surroundings.backward.readings).1.Storable := by
    decide +kernel
  have hfree : ∀ name ∈ Record.reservedNames, Table.get? name track = none := by decide
  have hlocale : "de" ∈ ["en", "de"] := by decide
  have hpublished : false = true → ∀ i ≤ (startedBackend .backward tracksRegistry
      tracksConfig).clock.taken, (Clock.times Surroundings.backward.readings i).Printable :=
    fun h => by cases h
  obtain ⟨created, b', found, hcreated, hfound, hread⟩ :=
    (created_reads_back Surroundings.proper_backward hvalid hbuild hc hopen rfl hid .same rfl htime
      (List.pairwise_singleton _ _) hfree hlocale false hpublished).2 (by decide)
  refine ⟨created, b', found, hcreated, hfound, hread "parts" (fun a ha b hb _ => ?_) nofun⟩
  rw [hpaths] at ha hb
  exact .inl ((List.mem_singleton.1 ha).trans (List.mem_singleton.1 hb).symm)

/-! Songbooks of lines with a group of which the caption is localized, and of songs with a localized
group of the same name. -/

def songbooks : Entity :=
  { Entity.ofFields "songbooks" [{ Field.ofKind "parts" .blocks with
      blocks := [⟨"line", [Field.container "meta" .group
          [{ Field.ofKind "caption" .text with localized := true }]]⟩,
        ⟨"song", [{ Field.container "meta" .group [Field.ofKind "title" .text] with
          localized := true }]⟩] }] with
    timestamps := false }

def songbooksConfig : Config :=
  ⟨[songbooks], [], some ⟨["en", "all"], "en", true⟩, .standard, .standard⟩

def songbooksRegistry : Registry :=
  (Registry.build songbooksConfig).toOption.getD ⟨[], []⟩

/-- One line. -/
def songbook : Record :=
  [("parts", .arr [.obj [("blockType", .str "line"), ("meta", .obj [("caption", .str "x")])]])]

/-- The outcome of creating the songbook in a locale. -/
def songbookCreated (locale : String) : Except ServiceError Document × Backend :=
  Action.runOn .backward ((ofRegistry songbooksRegistry songbooksConfig).create "songbooks" songbook
    ⟨false, some locale⟩) (startedBackend .backward songbooksRegistry songbooksConfig)

/-- The outcome of reading in English what has been created in English. -/
def songbookRead (id : String) : Except ServiceError Document × Backend :=
  Action.runOn .backward ((ofRegistry songbooksRegistry songbooksConfig).findById "songbooks" id
    ⟨false, some "en", some noFallback⟩) (songbookCreated "en").2

/-- In the configuration of songbooks one localized path lies below another. -/
theorem compiled_songbooks :
    songbooksConfig.validate = .ok () ∧ Registry.build songbooksConfig = .ok songbooksRegistry ∧
      ∃ c, songbooksRegistry.collection "songbooks" = .ok c ∧ c.entity.read = .allow true ∧
        c.localizedPaths = ["parts.meta.caption", "parts.meta"] := by
  have hbuild : Registry.build songbooksConfig = .ok songbooksRegistry := rfl
  obtain ⟨c, hc, hregistry⟩ := Registry.build_singleton rfl rfl hbuild
  obtain ⟨hentity, _, hpaths⟩ := CompiledEntity.of_compile hc
  refine ⟨rfl, hbuild, c, ?_, ?_, hpaths⟩
  · rw [hregistry]
    rfl
  · rw [hentity]
    rfl

/-- **Not every locale can be written and read back.**  A configuration that is accepted may name a
locale in which nothing can be created; and in English the caption of a line reads as a map of locales,
because the captions are wrapped before the groups around them and are looked for in that order, too. -/
theorem not_read_back :
    songbooksConfig.validate = .ok () ∧ Registry.build songbooksConfig = .ok songbooksRegistry ∧
      (∃ c, songbooksRegistry.collection "songbooks" = .ok c ∧ c.entity.read = .allow true ∧
        "id" ∉ c.localizedPaths) ∧
      songbooksConfig.localization = some ⟨["en", "all"], "en", true⟩ ∧
      (songbookCreated "all").1 = .error .everyLocaleAtOnce ∧
      ∃ created found, songbookCreated "en" = (.ok created, (songbookCreated "en").2) ∧
        (songbookRead created.id).1 = .ok found ∧
        Json.at? [.member "parts", .item 0, .member "meta", .member "caption"] (.obj songbook) =
          some (.str "x") ∧
        Json.at? [.member "parts", .item 0, .member "meta", .member "caption"] (.obj found.data) ≠
          some (.str "x") := by
  obtain ⟨hvalid, hbuild, c, hc, hopen, hpaths⟩ := compiled_songbooks
  have hid : "id" ∉ c.localizedPaths := by
    rw [hpaths]
    decide
  have hall : (songbookCreated "all").1 = .error .everyLocaleAtOnce :=
    congrArg Prod.fst (create_allLocales (s := ofRegistry songbooksRegistry songbooksConfig) hc rfl
      (by decide) songbook false)
  have hcreated : (songbookCreated "en").1.toOption.map (·.id) = some "n" := by decide +kernel
  obtain ⟨created, hok, hname⟩ := Option.map_eq_some_iff.1 hcreated
  have hread : ((songbookRead "n").1.toOption.bind fun found =>
      Json.at? [.member "parts", .item 0, .member "meta", .member "caption"]
        (.obj found.data)).map (Json.same (.str "x")) = some false := by
    decide +kernel
  obtain ⟨v, hv, hother⟩ := Option.map_eq_some_iff.1 hread
  obtain ⟨found, hfound, hvalue⟩ := Option.bind_eq_some_iff.1 hv
  refine ⟨hvalid, hbuild, ⟨c, hc, hopen, hid⟩, rfl, hall, created, found,
    Prod.ext (Except.eq_ok_of_toOption hok) rfl, ?_, rfl, fun heq => ?_⟩
  · rw [hname]
    exact Except.eq_ok_of_toOption hfound
  · obtain rfl := Option.some.inj (hvalue.symm.trans heq)
    cases hother

end Service

end HeadlessCms
