import HeadlessCms.Proofs.Localization.Positions
import HeadlessCms.Proofs.Schema.Addressing
import HeadlessCms.Proofs.Service.Creating
import HeadlessCms.Proofs.Service.Dating
import HeadlessCms.Proofs.Service.Showing

/-!
# What reads the same in every locale

Localization works on paths: writing and reading change a record at the localized paths of its entity
and nowhere else.  A value is plain if no localized path leads to it, to something around it or to
something in it (`CompiledEntity.Plain`).  A plain value of a new document reads in every locale as it
has been created in one of them (`Service.reads_as_created`).  Paths say nothing of block types: a field
of one block type is not plain if a field of the same name in another one is localized
(`Service.reads_null_elsewhere`).
-/

namespace HeadlessCms

open Json (Step)
open Time (Instant)

/-! ### No drafts of a new document -/

/-- A single name is stored under itself, unless a locale is put behind it. -/
theorem Store.storedPath_name_or {name : String} (hdata : Path.toData name = name)
    (hpoint : '.' ∉ name.toList) (localized : List String) (locale : Option String) :
    storedPath localized locale name = name ∨
      ∃ l, storedPath localized locale name = name ++ "." ++ l := by
  unfold storedPath
  cases locale with
  | none => exact Or.inl hdata
  | some l =>
    dsimp only
    rw [hdata]
    split
    · exact Or.inl rfl
    · induction localized with
      | nil => exact Or.inl rfl
      | cons above rest ih =>
        unfold Path.inLocale
        split
        · exact Or.inr ⟨l, rfl⟩
        · split
          · next below hbelow =>
            have hsplit := Text.dropStart?_eq_some_iff.1 hbelow
            exact absurd (hsplit ▸ List.mem_append_right _ List.mem_cons_self) hpoint
          · exact ih

/-- Below a text there is nothing, so a member that is a text is found at its own name only. -/
theorem Record.resolve_storedPath_name {name : String} (hdata : Path.toData name = name)
    (hpoint : '.' ∉ name.toList) (localized : List String) (locale : Option String) {r : Record}
    (htext : ∀ v, Table.get? name r = some v → ∃ w, v = .str w) :
    resolve r (Store.storedPath localized locale name) = [] ∨
      resolve r (Store.storedPath localized locale name) = (Table.get? name r).toList := by
  rcases Store.storedPath_name_or hdata hpoint localized locale with hpath | ⟨l, hpath⟩
  · rw [hpath]
    exact Or.inr (resolve_name (Path.segments_of_notMem hpoint) r)
  · left
    have hsegments : Path.segments (name ++ "." ++ l) = name :: Path.segments l := by
      have hsplit : (name ++ "." ++ l).toList = name.toList ++ '.' :: l.toList := by
        simp
      rw [Path.segments_append_point hsplit, Path.segments_of_notMem hpoint]
      rfl
    obtain ⟨head, rest, hlocale⟩ := List.exists_cons_of_ne_nil (Path.segments_ne_nil l)
    rw [hpath, resolve, hsegments]
    dsimp only
    rw [reachMember_eq, hlocale]
    cases hget : Table.get? name r with
    | none => rfl
    | some v =>
      obtain ⟨w, rfl⟩ := htext v hget
      rfl

section Dated

variable [PatternEngine] {readings : Nat → Instant} {k : Nat} {r : Record}

/-- **A dated record is not later than the last time.** -/
theorem Record.Dated.holds_later (h : r.Dated readings (k + 1))
    (hprint : ∀ i ≤ k, (Clock.times readings i).Printable) (localized : List String)
    (locale : Option String) :
    (Predicate.compare (Store.storedPath localized locale "updatedAt") .greaterThan
      (.ofInstant (Clock.times readings k))).holds r = .ok false := by
  have htext : ∀ v, Table.get? "updatedAt" r = some v → ∃ w, v = .str w := by
    intro v hv
    obtain ⟨i, _, rfl⟩ := h v hv
    exact ⟨_, rfl⟩
  have hvalues := Record.resolve_storedPath_name (by decide) (by decide) localized locale htext
  have hempty (hnone : Record.resolve r (Store.storedPath localized locale "updatedAt") = []) :
      (Predicate.compare (Store.storedPath localized locale "updatedAt") .greaterThan
        (.ofInstant (Clock.times readings k))).holds r = .ok false := by
    rw [Predicate.compare, Predicate.holds_leaf, Constraint.holds, hnone]
    rfl
  rcases hvalues with hnone | hvalue
  · exact hempty hnone
  · cases hget : Table.get? "updatedAt" r with
    | none => exact hempty (by rw [hvalue, hget]; rfl)
    | some v =>
      obtain ⟨i, hi, rfl⟩ := h v hget
      rw [hget] at hvalue
      have hik : i ≤ k := Nat.le_of_lt_succ hi
      rw [Predicate.holds_later hvalue (Time.readStrict?_write (hprint i hik))
        (hprint k (Nat.le_refl k))]
      rcases Nat.lt_or_eq_of_le hik with hlt | rfl
      · rw [Time.Instant.isBefore_asymm (Clock.isBefore_times hlt)]
      · rw [Time.Instant.isBefore_irrefl]

/-- A conjunction of clauses that are decided fails with one of them. -/
theorem Predicate.allHold_eq_false {ps : List Predicate}
    (hdecided : ∀ p ∈ ps, ∃ b, p.holds r = .ok b) (hfails : ∃ p ∈ ps, p.holds r = .ok false) :
    allHold r ps = .ok false := by
  induction ps with
  | nil =>
    obtain ⟨p, hp, _⟩ := hfails
    cases hp
  | cons p rest ih =>
    obtain ⟨b, hb⟩ := hdecided p List.mem_cons_self
    rw [allHold_cons_of_ok hb]
    cases b with
    | false => rfl
    | true =>
      refine ih (fun q hq => hdecided q (List.mem_cons_of_mem _ hq)) ?_
      obtain ⟨q, hq, hfalse⟩ := hfails
      rcases List.mem_cons.1 hq with rfl | hrest
      · rw [hb] at hfalse
        cases hfalse
      · exact ⟨q, hrest, hfalse⟩

/-- The clause on drafts that are later than the last time holds of no dated record. -/
theorem Draft.holds_newerThan_of_dated (h : r.Dated readings (k + 1))
    (hprint : ∀ i ≤ k, (Clock.times readings i).Printable) (kind : EntityKind) (id : String)
    (localized : List String) (locale : Option String) :
    ((newerThan kind id (Clock.times readings k)).mapPaths
      (Store.storedPath localized locale)).holds r = .ok false := by
  have hequals (path : String) (operand : Json) :
      ∃ b, (Predicate.compare path .equals operand).holds r = .ok b :=
    ⟨_, by rw [Predicate.compare, Predicate.holds_leaf]; rfl⟩
  have hlater := h.holds_later hprint localized locale
  rw [newerThan, Predicate.mapPaths_and, Predicate.holds_and]
  apply Predicate.allHold_eq_false
  · intro p hp
    obtain ⟨q, hq, rfl⟩ := List.mem_map.1 hp
    rw [List.mem_append] at hq
    rcases hq with hq | hq
    · split at hq
      · rw [List.mem_singleton.1 hq, Predicate.mapPaths_compare]
        exact hequals _ _
      · cases hq
    · rcases List.mem_pair.1 hq with rfl | rfl
      · rw [Predicate.mapPaths_compare]
        exact hequals _ _
      · rw [Predicate.mapPaths_compare]
        exact ⟨false, hlater⟩
  · refine ⟨_, List.mem_map_of_mem (List.mem_append_right _ (List.mem_pair.2 (Or.inr rfl))), ?_⟩
    rw [Predicate.mapPaths_compare]
    exact hlater

/-- Where a query holds of no record, nothing is found. -/
theorem Store.findOne_eq_none {s : Store} {q : Query} {held : Collection}
    (hheld : Table.get? q.collection s.collections = some held)
    (h : ∀ r ∈ held.records, Predicate.holdsFor q.filter r = .ok false) (options : FindOptions) :
    s.findOne q options = .ok none := by
  have hnone : held.records.filter (fun _ => false) = [] :=
    List.filter_eq_nil_iff.2 fun _ _ => Bool.false_ne_true
  have hdecides : ∀ x y, y ∈ held.records → x = y → Predicate.holdsFor q.filter x = .ok false :=
    fun x y hy hxy => hxy ▸ h y hy
  obtain ⟨found, hfound, hshown⟩ := select_unique options (List.forall₂_same.2 fun _ _ => rfl)
    hdecides (by rw [hnone]; exact Nat.zero_le _)
  rw [hnone, List.forall₂_nil_right_iff] at hshown
  subst hshown
  exact findOne_of_select hheld hfound

/-- **A document that is as late as anything has no newer draft.** -/
theorem Draft.runOn_resolve_of_dated {env : Surroundings} {b : Backend} (hserving : b.refused = [])
    {entity : Entity} {held : Collection}
    (hheld : Table.get? entity.versionsCollection b.store.collections = some held)
    (hrecords : ∀ r ∈ held.records, r.Dated env.readings (k + 1))
    (hprint : ∀ i ≤ k, (Clock.times env.readings i).Printable) {doc : Document}
    (htime : ∀ t ∈ doc.updatedAt, t = Clock.times env.readings k) (kind : EntityKind)
    (locale : Option String) :
    Action.runOn env (resolve entity kind doc locale .unrestricted) b = (.ok doc, b) := by
  unfold resolve
  split
  · next t _ hupdated =>
    obtain rfl := htime t hupdated
    have hclause : clause kind doc.id (Clock.times env.readings k) .unrestricted =
        newerThan kind doc.id (Clock.times env.readings k) := rfl
    rw [if_neg (by decide), hclause]
    generalize hwanted : newerThan kind doc.id (Clock.times env.readings k) = wanted
    have hnone : ∀ r ∈ held.records, Predicate.holdsFor (some (wanted.mapPaths
        (Store.storedPath held.localizedPaths locale))) r = .ok false := by
      intro r hr
      rw [← hwanted]
      exact holds_newerThan_of_dated (hrecords r hr) hprint kind doc.id held.localizedPaths locale
    have hquery : Action.runOn env
        (Action.buildQuery entity.versionsCollection (some wanted) locale) b =
          (.ok ⟨entity.versionsCollection, some (wanted.mapPaths
            (Store.storedPath held.localizedPaths locale)), locale⟩, b) := by
      rw [Action.runOn_buildQuery hserving, Store.buildQuery_of_get? hheld, Option.map_some]
    have hfind : Action.runOn env (Action.findOne ⟨entity.versionsCollection, some (wanted.mapPaths
        (Store.storedPath held.localizedPaths locale)), locale⟩ (options wanted)) b =
          (.ok none, b) := by
      rw [Action.runOn_findOne hserving, Store.findOne_eq_none hheld hnone]
    rw [Action.runOn_bind_ok hquery, Action.runOn_bind_ok hfind]
    rfl
  · rfl

end Dated

/-! ### Finding a new document -/

/-- A new document names the time that it was created at, if it names a time. -/
theorem Record.IsNew.time_of_timestamps {env : Surroundings} (henv : env.Proper) {r content : Record}
    {d : Document} {timestamps : Bool} {n : Nat}
    (h : r.IsNew env (if timestamps then some (Clock.times env.readings n) else none) content d) :
    ∀ t ∈ d.updatedAt, t = Clock.times env.readings n := by
  have hregular : ∀ t ∈ (if timestamps then some (Clock.times env.readings n) else none),
      t.Regular := by
    intro t ht
    split at ht
    · cases ht
      exact Clock.regular_times henv.regular n
    · cases ht
  have hget : Table.get? "updatedAt" (Record.sanitize r) =
      (if timestamps then some (Clock.times env.readings n) else none).map .ofInstant := by
    rw [Record.get?_sanitize, if_neg (by decide), h.updatedAt]
  rw [Document.updatedAt_of_ofRecord hget hregular h.read]
  intro t ht
  split at ht
  · cases ht
    rfl
  · cases ht

namespace Service

variable {env : Surroundings} {s : Service} {c : CompiledEntity} {slug : String}
  {selection : Option LocaleSelection} {b : Backend} {r content : Record} {d : Document}
  {updatedAt : Option Instant}

/-- **A new document is found by its id,** in whatever locale it is asked for. -/
theorem runOn_findById_of_isNew [PatternEngine] (henv : env.Proper) (hserving : b.refused = [])
    (hc : s.registry.collection slug = .ok c) (hopen : c.entity.read = .allow true)
    {params : ReadParams}
    (hselect : s.selectLocale params.locale params.fallbackLocale = .ok selection)
    (hids : b.store.Identified) {held : Collection}
    (hheld : Table.get? slug b.store.collections = some held) (hid : "id" ∉ held.localizedPaths)
    (hr : r ∈ b.store.recordsOf slug) (hnew : r.IsNew env updatedAt content d)
    (hdraft : params.draft = true → c.entity.hasDrafts = true →
      Action.runOn env (Draft.resolve c.entity c.kind d (localeOf selection) .unrestricted) b =
        (.ok d, b)) :
    Action.runOn env (s.findById slug d.id params) b =
      (.ok (s.inLocale c.localizedPaths selection d), b) := by
  have hplain : Time.readStrict? d.id = none := by
    obtain ⟨k, hk⟩ := hnew.drawn
    rw [hk]
    exact henv.plain k
  have hscope : withScope (some (.compare "id" .equals (.str d.id))) .unrestricted =
      some (.compare "id" .equals (.str d.id)) := rfl
  have hquery : Action.runOn env (onStore (Action.buildQuery slug
      (some (.compare "id" .equals (.str d.id))) (localeOf selection))) b =
        (.ok ⟨slug, some (.compare "id" .equals (.str d.id)), localeOf selection⟩, b) := by
    apply runOn_onStore
    rw [Action.runOn_buildQuery hserving, Store.buildQuery_of_get? hheld, Option.map_some,
      Predicate.mapPaths_compare, Store.storedPath_name (by decide) (by decide) hid]
  have hfound : Action.runOn env (onStore (Action.findOne
      ⟨slug, some (.compare "id" .equals (.str d.id)), localeOf selection⟩ (.sortedBy []))) b =
        (.ok (some (Record.sanitize r)), b) := by
    apply runOn_onStore
    rw [Action.runOn_findOne hserving, hids.findOne_id hr hnew.id hplain]
  have hread : Action.runOn env (documentOf (Record.sanitize r)) b = (.ok d, b) := by
    rw [documentOf, Action.runOn_ofExcept, hnew.read]
    rfl
  unfold findById
  rw [Action.runOn_bind_ok (Action.runOn_ofExcept_ok hc),
    Action.runOn_bind_ok (Action.runOn_ofExcept_ok (Ledger.Standing.readAccess_of_allow hopen)),
    Action.runOn_bind_ok (Action.runOn_ofExcept_ok hselect)]
  dsimp only
  rw [hscope, Action.runOn_bind_ok hquery, Action.runOn_bind_ok hfound]
  dsimp only
  rw [Action.runOn_bind_ok hread]
  unfold present
  split
  · next hshows =>
    rw [Bool.and_eq_true] at hshows
    rw [Action.runOn_bind_ok (runOn_onStore (hdraft hshows.1 hshows.2))]
    rfl
  · rfl

end Service

/-! ### Plain values -/

/-- What tests as null is null. -/
theorem Json.eq_null_of_isNull {v : Json} (h : v.isNull = true) : v = .null := by
  cases v with
  | null => rfl
  | _ => cases h

/-- Records that agree on a member agree at all positions in it. -/
theorem Json.at?_obj_congr {head : String} {rest : List String} {position : List Step}
    (hleads : Path.Leads (head :: rest) position) {r r' : Record}
    (h : Table.get? head r = Table.get? head r') :
    at? position (.obj r) = at? position (.obj r') := by
  cases position with
  | nil => exact absurd hleads id
  | cons step position =>
    cases step with
    | member name =>
      obtain ⟨rfl, _⟩ := hleads
      rw [at?_cons, at?_cons, down?_member_obj, down?_member_obj, h]
    | item i => rfl

/-- Names that no localized path has anything to do with: none leads to where they lead, to something
around it or to something in it.  The ids must not be localized either. -/
structure CompiledEntity.Plain (c : CompiledEntity) (names : List String) : Prop where
  id : "id" ∉ c.localizedPaths
  apart : ∀ path ∈ c.localizedPaths, Path.Diverge (Path.segments path) names

namespace Service

variable {s : Service} {c : CompiledEntity} {selection : Option LocaleSelection}
  {names : List String} {position : List Step}

/-- **Reading in a locale keeps plain values.** -/
theorem at?_localize (h : c.Plain names) (hleads : Path.Leads names position) (data : Record) :
    Json.at? position (.obj (s.localize c.localizedPaths selection data)) =
      Json.at? position (.obj data) := by
  rw [localize_eq]
  split
  · next l _ =>
    unfold Record.localize
    split
    · rfl
    · exact Json.at?_foldl l.sameBeside_pickAt hleads h.apart data
  · rfl

/-- **Writing in a locale keeps plain values.** -/
theorem at?_incoming (h : c.Plain names) (hleads : Path.Leads names position)
    (stored patch : Record) :
    Json.at? position (.obj (s.incoming c selection stored patch)) =
      Json.at? position (.obj (Document.stripEnvelope patch)) := by
  unfold incoming
  split
  · next l chosen _ =>
    exact Json.at?_foldl (LocaleTarget.sameBeside_wrapAt ⟨l.names, chosen.locale⟩ (some stored))
      hleads h.apart _
  · rfl

variable {head : String} {rest : List String}

/-- A document has the same plain values in every locale. -/
theorem at?_toRecord_inLocale (h : c.Plain (head :: rest)) (hleads : Path.Leads (head :: rest) position)
    {d : Document} (hdata : Record.IsData d.data) :
    Json.at? position (.obj (s.inLocale c.localizedPaths selection d).toRecord) =
      Json.at? position (.obj d.toRecord) := by
  have hshown : Record.IsData (s.inLocale c.localizedPaths selection d).data :=
    hdata.of_keys (by rw [inLocale, keys_localize])
  by_cases henvelope : head ∈ Document.envelope
  · apply Json.at?_obj_congr hleads
    rw [Document.get?_toRecord_of_mem_envelope hshown.isBare henvelope,
      Document.get?_toRecord_of_mem_envelope hdata.isBare henvelope]
    rfl
  · rw [Json.at?_obj_congr hleads (Document.get?_toRecord_of_notMem_envelope hshown henvelope),
      Json.at?_obj_congr hleads (Document.get?_toRecord_of_notMem_envelope hdata henvelope)]
    exact at?_localize h hleads d.data

/-- The content of a new document has the plain values that it has been created with. -/
theorem at?_patched (h : c.Plain (head :: rest)) (hleads : Path.Leads (head :: rest) position)
    {data : Record} (hdata : Table.Ascending data) (hhead : head ∉ Record.reservedNames)
    (hstatus : head = Status.field → c.entity.hasDrafts = false) (status : Status) :
    Json.at? position (.obj (s.patched c selection status [] data)) =
      Json.at? position (.obj data) := by
  have hincoming : Table.get? head (s.patched c selection status [] data) =
      Table.get? head (s.incoming c selection [] data) := by
    have hinserted : Table.get? head (Table.insertAll (s.incoming c selection [] data) []) =
        Table.get? head (s.incoming c selection [] data) := by
      rw [Table.get?_insertAll (ascending_incoming hdata)]
      exact Option.or_none
    unfold patched
    dsimp only
    split
    · next hdrafts =>
      have hne : head ≠ Status.field := by
        intro heq
        rw [hstatus heq] at hdrafts
        cases hdrafts
      rw [Table.get?_insert, if_neg hne, hinserted]
    · exact hinserted
  have hstrip : Table.get? head (Document.stripEnvelope data) = Table.get? head data := by
    rw [Document.get?_stripEnvelope, if_neg fun hmem => hhead (List.mem_append_left _ hmem)]
  rw [Json.at?_obj_congr hleads hincoming, at?_incoming h hleads, Json.at?_obj_congr hleads hstrip]

/-! ### In every locale -/

variable {env : Surroundings} {config : Config} {registry : Registry} {slug : String} {b b' : Backend}

/-- Every locale can be asked for, without a fallback. -/
theorem selectLocale_of_mem {locales : Locales} (hlocales : s.localization = some locales)
    {locale : String} (h : locale ∈ locales.names) :
    s.selectLocale (some locale) (some noFallback) = .ok (some ⟨locale, none⟩) := by
  have hhas : locales.has locale = true := List.contains_iff_mem.2 h
  unfold selectLocale
  rw [hlocales]
  dsimp only [Option.getD_some]
  rw [if_neg fun hunknown => by simp [hhas] at hunknown]
  rfl

/-- **Plain values read in every locale as they have been created.**  Let a document be created in a
collection that everybody may read, on any backend that has been reached and refuses nothing.  Reading
it in any of the locales, without a fallback, finds it, and what it has at a position of plain names is
what has been answered when it was created.  Unless the position lies under a name of the system, this
is what the data had there.  Where drafts are asked for, the clock must not have left the years of four
digits. -/
theorem reads_as_created [PatternEngine] (henv : env.Proper) (hvalid : config.validate = .ok ())
    (hbuild : Registry.build config = .ok registry) (hc : registry.collection slug = .ok c)
    (hopen : c.entity.read = .allow true) {locales : Locales}
    (hlocales : config.localization = some locales) (hreach : Reachable env registry config b)
    (hserving : b.refused = []) {data : Record} (hdata : Table.Ascending data) {params : SaveParams}
    {created : Document}
    (hcreate : Action.runOn env ((ofRegistry registry config).create slug data params) b =
      (.ok created, b'))
    (hplain : c.Plain (head :: rest)) (hleads : Path.Leads (head :: rest) position)
    {locale : String} (hlocale : locale ∈ locales.names) {draft : Bool}
    (hprint : draft = true → ∀ i ≤ b.clock.taken, (Clock.times env.readings i).Printable) :
    ∃ found, Action.runOn env ((ofRegistry registry config).findById slug created.id
        ⟨draft, some locale, some noFallback⟩) b' = (.ok found, b') ∧
      Json.at? position (.obj found.toRecord) = Json.at? position (.obj created.toRecord) ∧
      (head ∉ Record.reservedNames → (head = Status.field → c.entity.hasDrafts = false) →
        Json.at? position (.obj found.toRecord) = Json.at? position (.obj data)) := by
  have hcompiles := Registry.compiles_of_collection hbuild hc
  have hsave := save_of_create (s := ofRegistry registry config) hc hcreate
  have hcollection : c.entity.versionsCollection ≠ slug :=
    hcompiles.slug_eq ▸ (CompiledEntity.slug_ne_versionsCollection c.entity).symm
  obtain ⟨selection, saved, hselect, hwrite, rfl, ⟨r, hr, hnew⟩, hversions⟩ :=
    isNew_of_save hcollection hsave
  have hdated := hreach.dated hvalid hbuild hc hplain.id
  obtain ⟨n, hclock⟩ := hdated.clock
  have htaken : b.clock.taken = n := by rw [hclock, Clock.taken_after]
  rw [hclock, Clock.next_after] at hnew
  have hserving' : b'.refused = [] := (Action.refused_of_runOn hcreate).trans hserving
  have hids : b'.store.Identified := by
    have hreach' := (hreach.created slug params hdata).identified
    rwa [hcreate] at hreach'
  have hlawful : b'.Lawful env (Store.datedLaw env.readings slug (n + 1)) := by
    have hnone : ∀ d ∈ (none : Option Document), d.Restorable := fun d hd => by cases hd
    have hleft : (Action.runOn env ((ofRegistry registry config).save c slug none data params)
        b).2.Lawful env (Store.datedLaw env.readings slug (b.clock.taken + 1)) :=
      lawful_save hselect hwrite hdated hnone
    rwa [hsave, htaken] at hleft
  -- No version is newer than what has just been created, so no draft is shown in its place.
  have hdraft : draft = true → c.entity.hasDrafts = true →
      Action.runOn env (Draft.resolve c.entity c.kind saved (some locale) .unrestricted) b' =
        (.ok saved, b') := by
    intro hasked hdrafts
    obtain ⟨held, hheld⟩ := Option.isSome_iff_exists.1 (hversions (Entity.isVersioned_of_hasDrafts hdrafts))
    exact Draft.runOn_resolve_of_dated hserving' hheld (hlawful.store _ _ hheld).2
      (htaken ▸ hprint hasked) (hnew.time_of_timestamps henv) c.kind _
  obtain ⟨held, hheld, _⟩ := Store.exists_of_mem_recordsOf hr
  have hfound : Action.runOn env ((ofRegistry registry config).findById slug saved.id
      ⟨draft, some locale, some noFallback⟩) b' =
        (.ok ((ofRegistry registry config).inLocale c.localizedPaths (some ⟨locale, none⟩) saved), b') :=
    runOn_findById_of_isNew henv hserving' hc hopen (selectLocale_of_mem hlocales hlocale) hids hheld
      ((hlawful.store slug held hheld).1 rfl) hr hnew hdraft
  have hsame (selection : Option LocaleSelection) : Json.at? position
      (.obj ((ofRegistry registry config).inLocale c.localizedPaths selection saved).toRecord) =
        Json.at? position (.obj saved.toRecord) :=
    at?_toRecord_inLocale hplain hleads hnew.isData
  refine ⟨_, hfound, ?_, fun hhead hstatus => ?_⟩
  · rw [hsame, hsame]
  · have henvelope : head ∉ Document.envelope := fun hmem => hhead (List.mem_append_left _ hmem)
    rw [hsame, Json.at?_obj_congr hleads
      (Document.get?_toRecord_of_notMem_envelope hnew.isData henvelope),
      Json.at?_obj_congr hleads (hnew.content head hhead)]
    exact at?_patched hplain hleads hdata hhead hstatus _

/-! Tracks whose parts are lines with plain words, or songs with localized words and a plain key. -/

def tracks : Entity :=
  { Entity.ofFields "tracks" [{ Field.ofKind "parts" .blocks with
      blocks := [⟨"line", [Field.ofKind "words" .text]⟩,
        ⟨"song", [{ Field.ofKind "words" .text with localized := true },
          Field.ofKind "key" .text]⟩] }] with
    timestamps := false }

def tracksConfig : Config :=
  ⟨[tracks], [], some ⟨["en", "de"], "en", true⟩, .standard, .standard⟩

def tracksRegistry : Registry :=
  (Registry.build tracksConfig).toOption.getD ⟨[], []⟩

/-- A line and a song. -/
def track : Record :=
  [("parts", .arr [.obj [("blockType", .str "line"), ("words", .str "Once")],
    .obj [("blockType", .str "song"), ("key", .str "C"), ("words", .str "La")]])]

/-- The outcome of creating the track in English. -/
def trackCreated : Except ServiceError Document × Backend :=
  Action.runOn .backward
    ((ofRegistry tracksRegistry tracksConfig).create "tracks" track ⟨false, some "en"⟩)
    (Action.runOn .backward (start tracksRegistry tracksConfig) .empty).2

/-- The outcome of reading it in German. -/
def trackRead (id : String) : Except ServiceError Document × Backend :=
  Action.runOn .backward ((ofRegistry tracksRegistry tracksConfig).findById "tracks" id
    ⟨false, some "de", some noFallback⟩) trackCreated.2

/-- The track is created. -/
theorem exists_trackCreated : ∃ created, trackCreated = (.ok created, trackCreated.2) := by
  have hcreated : trackCreated.1.isOk = true := by decide +kernel
  obtain ⟨created, hok⟩ := Except.exists_of_isOk hcreated
  exact ⟨created, Prod.ext hok rfl⟩

/-- The configuration of tracks is accepted, and its words are localized. -/
theorem compiled_tracks :
    tracksConfig.validate = .ok () ∧ Registry.build tracksConfig = .ok tracksRegistry ∧
      ∃ c, tracksRegistry.collection "tracks" = .ok c ∧ c.entity.read = .allow true ∧
        c.localizedPaths = ["parts.words"] := by
  have hbuild : Registry.build tracksConfig = .ok tracksRegistry := rfl
  obtain ⟨c, hc, hregistry⟩ := Registry.build_singleton rfl rfl hbuild
  obtain ⟨hentity, _, hpaths⟩ := CompiledEntity.of_compile hc
  refine ⟨rfl, hbuild, c, ?_, ?_, hpaths⟩
  · rw [hregistry]
    rfl
  · rw [hentity]
    rfl

/-- The key of the second part reads in each locale as it was created. -/
theorem reads_as_created_key :
    ∃ created found, trackCreated = (.ok created, trackCreated.2) ∧
      trackRead created.id = (.ok found, trackCreated.2) ∧
      Json.at? [.member "parts", .item 1, .member "key"] (.obj found.toRecord) =
        some (.str "C") := by
  obtain ⟨hvalid, hbuild, c, hc, hopen, hpaths⟩ := compiled_tracks
  obtain ⟨created, hcreated⟩ := exists_trackCreated
  have hplain : c.Plain ["parts", "key"] := by
    constructor
    · rw [hpaths]
      decide
    · rw [hpaths]
      intro path hpath
      rw [List.mem_singleton.1 hpath]
      decide
  have hleads : Path.Leads ["parts", "key"] [.member "parts", .item 1, .member "key"] :=
    ⟨rfl, rfl, rfl⟩
  have hlocale : "de" ∈ ["en", "de"] := by decide
  have hstatus : "parts" = Status.field → c.entity.hasDrafts = false := fun h => absurd h (by decide)
  have hpublished (b : Backend) : false = true →
      ∀ i ≤ b.clock.taken, (Clock.times Surroundings.backward.readings i).Printable :=
    fun h => by cases h
  obtain ⟨found, hfound, _, hvalue⟩ := reads_as_created Surroundings.proper_backward hvalid hbuild hc
    hopen rfl (.started .empty) rfl (List.pairwise_singleton _ _) hcreated hplain hleads hlocale
    (hpublished _)
  exact ⟨created, found, hcreated, hfound, (hvalue (by decide) hstatus).trans rfl⟩

/-- **The words of a line are not plain,** because those of a song are localized: in German there are
none. -/
theorem reads_null_elsewhere :
    tracksConfig.validate = .ok () ∧ Registry.build tracksConfig = .ok tracksRegistry ∧
      (∃ c, tracksRegistry.collection "tracks" = .ok c ∧ c.entity.read = .allow true) ∧
      Field.LeafIn tracks.fields ["parts", "words"] (Field.ofKind "words" .text) ∧
      (Field.ofKind "words" .text).localized = false ∧
      ∃ created found, trackCreated = (.ok created, trackCreated.2) ∧
        (trackRead created.id).1 = .ok found ∧
        Json.at? [.member "parts", .item 0, .member "words"] (.obj track) = some (.str "Once") ∧
        Json.at? [.member "parts", .item 0, .member "words"] (.obj found.toRecord) = some .null := by
  obtain ⟨hvalid, hbuild, c, hc, hopen, _⟩ := compiled_tracks
  obtain ⟨created, hcreated⟩ := exists_trackCreated
  have hid : created.id = "n" := by
    have hcalled : trackCreated.1.toOption.map (·.id) = some "n" := by decide +kernel
    rw [hcreated] at hcalled
    exact Option.some.inj hcalled
  have hread : ((trackRead "n").1.toOption.bind fun found =>
      Json.at? [.member "parts", .item 0, .member "words"] (.obj found.toRecord)).map Json.isNull =
        some true := by
    decide +kernel
  have hleaf : Field.LeafIn tracks.fields ["parts", "words"] (Field.ofKind "words" .text) :=
    ⟨_, List.mem_singleton_self _, .block rfl rfl List.mem_cons_self (List.mem_singleton_self _)
      (.here rfl trivial)⟩
  obtain ⟨v, hv, hnull⟩ := Option.map_eq_some_iff.1 hread
  obtain ⟨found, hfound, hvalue⟩ := Option.bind_eq_some_iff.1 hv
  refine ⟨hvalid, hbuild, ⟨c, hc, hopen⟩, hleaf, rfl, created, found, hcreated, ?_, rfl, ?_⟩
  · rw [hid]
    exact Except.eq_ok_of_toOption hfound
  · rw [hvalue, Json.eq_null_of_isNull hnull]

end Service

end HeadlessCms
