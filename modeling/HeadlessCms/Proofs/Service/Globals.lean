import HeadlessCms.Proofs.Service.GlobalsApart

/-!
# Globals beside each other

All globals are stored in one collection, which declares the localized paths of all of them.  Still a
global reads as if it were the only one: if its own saves are replayed in a configuration that is reduced
to it, with the times and ids that they got among all saves, then it is found there as it is found beside
the others (`Service.findGlobal_alone`).  This asks for some care from the configuration
(`Service.Undisturbed`).  In particular the localized paths of other globals must not lead the clause of
its readers elsewhere, as they can (`Service.findGlobal_disturbed`).
-/

namespace HeadlessCms

open Service (globalsCollection globalPaths storeCollections)

/-! ### The configuration of one global -/

namespace Config

/-- The configuration reduced to one global. -/
def only (config : Config) (slug : String) : Config :=
  { config with collections := [], globals := config.globals.filter (·.slug == slug) }

/-- A global of a checked configuration, compiled. -/
structure HoldsGlobal (config : Config) (registry : Registry) (slug : String) (c : CompiledEntity) :
    Prop where
  valid : config.validate = .ok ()
  built : Registry.build config = .ok registry
  global : registry.global slug = .ok c

variable {config : Config} {registry : Registry} {slug : String} {c : CompiledEntity}

/-- A configuration stays valid with one of its globals alone. -/
theorem validate_only (h : config.validate = .ok ()) (slug : String) :
    (config.only slug).validate = .ok () := by
  obtain ⟨_, hslugs, hrest⟩ := Except.bind_eq_ok_iff.1 h
  refine Except.bind_eq_ok_iff.2 ⟨(), checkSlugs_of_sublist hslugs ?_ fun _ h => h, hrest⟩
  exact (List.filter_sublist.trans (List.sublist_append_right _ _)).map _

/-- Where slugs differ, one entity has the slug of an entity: itself. -/
theorem filter_slug_eq_singleton {entities : List Entity} (hnodup : (entities.map (·.slug)).Nodup)
    {e : Entity} (he : e ∈ entities) : entities.filter (·.slug == e.slug) = [e] := by
  induction entities with
  | nil => cases he
  | cons f rest ih =>
    rw [List.map_cons, List.nodup_cons] at hnodup
    rw [List.filter_cons]
    rcases List.mem_cons.1 he with rfl | he
    · rw [if_pos (beq_self_eq_true _), List.filter_eq_nil_iff.2 fun g hg heq => hnodup.1 ?_]
      exact beq_iff_eq.1 heq ▸ List.mem_map_of_mem hg
    · rw [if_neg fun heq => hnodup.1 ?_, ih hnodup.2 he]
      exact beq_iff_eq.1 heq ▸ List.mem_map_of_mem he

namespace HoldsGlobal

/-- The global has been compiled from one of the configuration. -/
theorem compiles (h : config.HoldsGlobal registry slug c) :
    Registry.Compiles .global config.globals slug c :=
  Registry.compiles_of_global h.built h.global

/-- The global has the slug that it is found under. -/
theorem slug_eq (h : config.HoldsGlobal registry slug c) : c.slug = slug :=
  h.compiles.slug_eq

/-- The global is one of the registry. -/
theorem mem_globals (h : config.HoldsGlobal registry slug c) : (slug, c) ∈ registry.globals := by
  have hglobal := h.global
  unfold Registry.global at hglobal
  split at hglobal
  · next found hfound =>
    cases hglobal
    exact Table.mem_of_get? hfound
  · cases hglobal

/-- The slugs of the globals differ. -/
theorem nodup_globals (h : config.HoldsGlobal registry slug c) :
    (config.globals.map (·.slug)).Nodup := by
  have hnodup := (slugs_of_validate h.valid).1
  rw [List.map_append, List.nodup_append] at hnodup
  exact hnodup.2.1

/-- **The reduced configuration has the same global,** and no other one. -/
theorem only (h : config.HoldsGlobal registry slug c) :
    (config.only slug).HoldsGlobal ⟨[], [(slug, c)]⟩ slug c := by
  obtain ⟨e, he, rfl, hcompile⟩ := h.compiles
  refine ⟨validate_only h.valid _, ?_, ?_⟩
  · have hglobals : Registry.addAll .global [] (config.only e.slug).globals =
        .ok [(e.slug, c)] := by
      rw [Config.only, filter_slug_eq_singleton h.nodup_globals he]
      exact Except.bind_eq_ok_iff.2 ⟨c, hcompile, rfl⟩
    exact Except.bind_eq_ok_iff.2 ⟨[], rfl, Except.bind_eq_ok_iff.2 ⟨_, hglobals, rfl⟩⟩
  · simp [Registry.global, Table.get?]

/-- No other entity has the same versions. -/
theorem eq_of_versionsCollection (h : config.HoldsGlobal registry slug c) {other : CompiledEntity}
    (hother : other ∈ registry.allCollections ++ registry.allGlobals)
    (hname : other.entity.versionsCollection = c.entity.versionsCollection) : other = c := by
  have hslugs : other.slug = slug := (Entity.versionsCollection_injective hname).trans h.slug_eq
  obtain ⟨hcollections, hglobals⟩ := Registry.compiles_of_mem h.built
  rcases List.mem_append.1 hother with hother | hother
  · obtain ⟨entry, hentry, rfl⟩ := List.mem_map.1 hother
    have hcompiles := hcollections entry hentry
    rw [← hcompiles.slug_eq, hslugs] at hcompiles
    exact absurd rfl (hcompiles.slug_ne h.valid h.compiles)
  · obtain ⟨entry, hentry, rfl⟩ := List.mem_map.1 hother
    have hcompiles := hglobals entry hentry
    rw [← hcompiles.slug_eq, hslugs] at hcompiles
    exact h.compiles.unique_of_nodup h.nodup_globals hcompiles

/-- **What a service declares for a global:** two empty collections, one with the localized paths of all
globals, and one with those of its versions. -/
theorem declared (h : config.HoldsGlobal registry slug c) {name : String}
    (hname : name = globalsCollection ∨
      c.entity.isVersioned = true ∧ name = c.entity.versionsCollection) :
    Table.get? name (Store.empty.declare (storeCollections registry)).collections =
      some ⟨[], if name = globalsCollection then globalPaths registry else c.versionLocalizedPaths⟩ := by
  -- The declarations of the versions come last.
  have hversions : ∀ other ∈ (registry.allCollections ++ registry.allGlobals).filter
      (·.entity.isVersioned), other.entity.versionsCollection = name → name ≠ globalsCollection ∧
        other.versionLocalizedPaths = c.versionLocalizedPaths := by
    intro other hother heq
    have hne : name ≠ globalsCollection := heq ▸ other.entity.versionsCollection_ne_globals
    refine ⟨hne, ?_⟩
    rw [h.eq_of_versionsCollection (List.mem_filter.1 hother).1
      (heq.trans (hname.resolve_left hne).2)]
  rw [storeCollections, List.append_assoc, Store.declare_append]
  refine (Store.get?_declare ?_ ?_).trans (by rw [Store.recordsOf_declare]; rfl)
  · rw [List.map_append, List.mem_append]
    rcases hname with rfl | ⟨hversioned, rfl⟩
    · exact Or.inl (List.mem_singleton_self _)
    · refine Or.inr (List.mem_map.2 ⟨(c.entity.versionsCollection, c.versionLocalizedPaths),
        List.mem_map.2 ⟨c, List.mem_filter.2 ⟨?_, hversioned⟩, rfl⟩, rfl⟩)
      exact List.mem_append_right _ (List.mem_map.2 ⟨_, h.mem_globals, rfl⟩)
  · intro p hp
    rcases List.mem_append.1 hp with hp | hp
    · obtain ⟨rfl, rfl⟩ := Prod.mk.inj (List.mem_singleton.1 hp)
      rw [if_pos rfl]
    · obtain ⟨other, hother, heq⟩ := List.mem_map.1 hp
      obtain ⟨hsame, rfl⟩ := Prod.mk.inj heq
      obtain ⟨hne, hpaths⟩ := hversions other hother hsame
      rw [if_neg hne, hpaths]

end HoldsGlobal

end Config

/-! ### Localized paths declared twice -/

/-- Where a path is stored if it is a localized path or lies below it. -/
def Path.below? (locale path above : String) : Option String :=
  if path = above then some (path ++ "." ++ locale)
  else
    match Text.dropStart? above.toList path.toList with
    | some ('.' :: below) => some (above ++ "." ++ locale ++ "." ++ String.ofList below)
    | _ => none

/-- The first localized path that a path lies at or below decides where it goes. -/
theorem Path.inLocale_cons (above : String) (rest : List String) (locale path : String) :
    inLocale (above :: rest) locale path = (below? locale path above).getD (inLocale rest locale path) := by
  rw [inLocale, below?]
  by_cases hself : path = above
  · rw [if_pos hself, if_pos hself]
    rfl
  · rw [if_neg hself, if_neg hself]
    rcases Text.dropStart? above.toList path.toList with _ | _ | ⟨c, below⟩
    · rfl
    · rfl
    · by_cases hpoint : c = '.'
      · subst hpoint
        rfl
      · simp [hpoint]

/-- A path goes where the first localized path that it lies at or below sends it. -/
theorem Path.inLocale_eq (localized : List String) (locale path : String) :
    inLocale localized locale path = (localized.findSome? (below? locale path)).getD path := by
  induction localized with
  | nil => rfl
  | cons above rest ih =>
    rw [inLocale_cons, List.findSome?_cons, ih]
    cases below? locale path above <;> rfl

/-- A backend that gives the same times and ids from now on as another one. -/
def Backend.inStepWith (m b : Backend) : Backend :=
  { m with clock := b.clock, store := { m.store with drawn := b.store.drawn } }

namespace Service

variable {env : Surroundings} {config : Config} {registry : Registry} {slug : String}
  {c : CompiledEntity}

/-- Nothing is found first among items that is not found first when each is taken once. -/
theorem findSome?_once {α : Type} (f : String → Option α) (known paths : List String) :
    (paths.foldl (fun known path => if known.contains path then known else known ++ [path])
      known).findSome? f = (known ++ paths).findSome? f := by
  induction paths generalizing known with
  | nil => rw [List.foldl_nil, List.append_nil]
  | cons path rest ih =>
    rw [List.foldl_cons, ih]
    split
    · next hknown =>
      rw [List.findSome?_append, List.findSome?_append, List.findSome?_cons]
      cases hfirst : known.findSome? f with
      | some x => rfl
      | none => rw [List.findSome?_eq_none_iff.1 hfirst path (List.contains_iff_mem.1 hknown)]
    · rw [List.append_assoc, List.singleton_append]

/-- A global alone declares its own localized paths. -/
theorem storedPath_alone (c : CompiledEntity) (locale : Option String) (path : String) :
    Store.storedPath (globalPaths ⟨[], [(slug, c)]⟩) locale path =
      Store.storedPath c.localizedPaths locale path := by
  unfold Store.storedPath
  cases locale with
  | none => rfl
  | some l =>
    dsimp only
    rw [Path.inLocale_eq, Path.inLocale_eq, globalPaths, findSome?_once, List.nil_append,
      Registry.allGlobals, List.map_singleton, List.flatMap_singleton]

/-! ### Services that only differ in other globals -/

variable {s s' : Service}

/-- Reading a global asks for the locales and for the global alone. -/
theorem findGlobal_congr (hlocalization : s'.localization = s.localization)
    (hglobal : s'.registry.global slug = s.registry.global slug) (params : ReadParams) :
    s'.findGlobal slug params = s.findGlobal slug params := by
  obtain ⟨registry, localization, limits⟩ := s
  obtain ⟨registry', localization', limits'⟩ := s'
  subst hlocalization
  unfold findGlobal
  rw [hglobal]
  rfl

/-- Saving a global asks for the locales and for the global alone. -/
theorem saveGlobal_congr (hlocalization : s'.localization = s.localization)
    (hglobal : s'.registry.global slug = s.registry.global slug) (data : Record)
    (params : SaveParams) : s'.saveGlobal slug data params = s.saveGlobal slug data params := by
  obtain ⟨registry, localization, limits⟩ := s
  obtain ⟨registry', localization', limits'⟩ := s'
  subst hlocalization
  unfold saveGlobal
  rw [hglobal]
  rfl

/-! ### Starting -/

section

variable [PatternEngine]

/-- A service that has just been started has no records. -/
theorem sorted_started (env : Surroundings) (registry : Registry) (config : Config)
    (slug versions : String) :
    Sorted env slug versions (Action.runOn env (start registry config) .empty).2 where
  serving := by rw [runOn_start rfl]; rfl
  lawful :=
    have hstart : Action.Keeps env (Backend.Lawful env (nameLaw slug versions))
        (start registry config) fun _ => True :=
      ((keeps_declare fun _ _ _ => trivial).mapError _).bind fun _ _ => .pure trivial
    (hstart _ ⟨Store.obeys_empty _, 0, rfl⟩).1
  identified := Store.identified_empty.run _
  drawn name r hr := by
    rw [runOn_start rfl, Store.recordsOf_declare] at hr
    cases hr
  numbered := Store.numbered_empty.run _

/-- Two services with the same global mirror each other when they have been started. -/
theorem mirrors_started {config' : Config} {registry' : Registry}
    (h : config.HoldsGlobal registry slug c) (h' : config'.HoldsGlobal registry' slug c) :
    (Action.runOn env (start registry config) .empty).2.store.Mirrors
      (globalView c (globalPaths registry) (globalPaths registry'))
      (Action.runOn env (start registry' config') .empty).2.store where
  numbered := Store.numbered_empty.run _
  mirrorNumbered := Store.numbered_empty.run _
  held name hname := by
    rw [runOn_start rfl, runOn_start rfl]
    exact ⟨[], [], h.declared hname, h'.declared hname, .nil⟩

/-! ### Saves and their replay -/

/-- A save of a global. -/
structure GlobalSave where
  slug : String
  data : Record
  params : SaveParams

/-- What a save leaves, whether it succeeds or not. -/
def afterSave (env : Surroundings) (s : Service) (save : GlobalSave) (b : Backend) : Backend :=
  (Action.runOn env (s.saveGlobal save.slug save.data save.params) b).2

/-- What saves leave, one after the other. -/
def afterSaves (env : Surroundings) (s : Service) (saves : List GlobalSave) (b : Backend) : Backend :=
  saves.foldl (fun b save => afterSave env s save b) b

/-- Replays the saves of one global for another service, with the times and ids that they get among all
saves.  What comes after them gets its times and ids in the same way. -/
def replay (env : Surroundings) (s alone : Service) (slug : String) :
    List GlobalSave → Backend → Backend → Backend
  | [], b, m => m.inStepWith b
  | save :: rest, b, m =>
    replay env s alone slug rest (afterSave env s save b)
      (if save.slug = slug then afterSave env alone save (m.inStepWith b) else m)

/-- A backend between saves of globals, and one to which only the saves of one of them go. -/
structure Beside (env : Surroundings) (c : CompiledEntity) (paths mirrorPaths : List String)
    (b m : Backend) : Prop where
  sorted : Sorted env c.slug c.entity.versionsCollection b
  serving : m.refused = []
  mirrors : b.store.Mirrors (globalView c paths mirrorPaths) m.store

namespace Beside

variable {paths mirrorPaths : List String} {b m : Backend}

omit [PatternEngine] in
/-- The records that a global does not show are those of other globals. -/
theorem othersApart (h : Beside env c paths mirrorPaths b m) :
    OthersApart c (b.store.others (globalView c paths mirrorPaths)) where
  globals _ hr := (namesGlobal_of_others h.sorted hr).2
  versions := List.filter_eq_nil_iff.2 fun r _ => by
    rw [own_globalView.2 fun heq => absurd heq c.entity.versionsCollection_ne_globals]
    decide

omit [PatternEngine] in
/-- With the same times and ids ahead of them the two backends are abreast. -/
theorem abreast (h : Beside env c paths mirrorPaths b m) :
    Backend.Abreast env (globalView c paths mirrorPaths)
      (b.store.others (globalView c paths mirrorPaths)) b (m.inStepWith b) where
  serving := h.sorted.serving
  mirrorServing := h.serving
  clock := rfl
  store :=
    { numbered := h.mirrors.numbered
      mirrorNumbered := h.mirrors.mirrorNumbered
      held := h.mirrors.held
      drawn := rfl
      others := fun _ _ => rfl
      old := fun name _ r hr => h.sorted.drawn name r (List.mem_filter.1 hr).1 }

/-- **A save of another global changes nothing here.** -/
theorem other (h : Beside env c paths mirrorPaths b m) {save : GlobalSave}
    (hsave : Table.Ascending save.data)
    (hother : ∀ other, s.registry.global save.slug = .ok other →
      other.slug = save.slug ∧ Alike c.slug false save.slug) :
    Beside env c paths mirrorPaths (afterSave env s save b) m := by
  obtain ⟨hsorted, hmirrors⟩ :=
    (keeps_saveGlobal_other hother hsave save.params b ⟨h.sorted, h.mirrors⟩).1
  exact ⟨hsorted, h.serving, hmirrors⟩

/-- **A save of the global itself has the same effect here.** -/
theorem own (h : Beside env c paths mirrorPaths b m) (hids : Function.Injective env.ids)
    (hc : s.registry.global c.slug = .ok c) {save : GlobalSave} (hslug : save.slug = c.slug)
    (hsave : Table.Ascending save.data) :
    Beside env c paths mirrorPaths (afterSave env s save b) (afterSave env s save (m.inStepWith b)) := by
  unfold afterSave
  rw [hslug]
  obtain ⟨_, ⟨habreast, hsorted⟩, _⟩ :=
    inStep_saveGlobal h.othersApart hids hc hsave save.params b (m.inStepWith b) ⟨h.abreast, h.sorted⟩
  exact ⟨hsorted, habreast.mirrorServing, habreast.store.toMirrors⟩

/-- **All saves of all globals.** -/
theorem replay (h : Beside env c paths mirrorPaths b m) (hids : Function.Injective env.ids)
    (hc : s.registry.global c.slug = .ok c) (hlocalization : s'.localization = s.localization)
    (hglobal : s'.registry.global c.slug = s.registry.global c.slug)
    (hothers : ∀ name other, s.registry.global name = .ok other →
      other.slug = name ∧ (name ≠ c.slug → Alike c.slug false name))
    {saves : List GlobalSave} (hsaves : ∀ save ∈ saves, Table.Ascending save.data) :
    ∃ m', Beside env c paths mirrorPaths (afterSaves env s saves b) m' ∧
      Service.replay env s s' c.slug saves b m = m'.inStepWith (afterSaves env s saves b) := by
  induction saves generalizing b m with
  | nil => exact ⟨m, h, rfl⟩
  | cons save rest ih =>
    obtain ⟨hsave, hrest⟩ := List.forall_mem_cons.1 hsaves
    rw [Service.replay]
    by_cases hslug : save.slug = c.slug
    · have hsame : afterSave env s' save (m.inStepWith b) = afterSave env s save (m.inStepWith b) := by
        unfold afterSave
        rw [hslug, saveGlobal_congr hlocalization hglobal]
      rw [if_pos hslug, hsame]
      exact ih (h.own hids hc hslug hsave) hrest
    · rw [if_neg hslug]
      exact ih (h.other hsave fun other hother =>
        (hothers save.slug other hother).imp_right fun hne => hne hslug) hrest

end Beside

/-! ### A global among others and alone -/

omit [PatternEngine] in
/-- The locale that is selected is the one that is asked for, or the default. -/
theorem localeOf_selectLocale {requested fallback : Option String}
    {selection : Option LocaleSelection} (h : s.selectLocale requested fallback = .ok selection) :
    localeOf selection = s.localization.map (requested.getD ·.default) := by
  unfold selectLocale at h
  cases hlocalization : s.localization with
  | none =>
    rw [hlocalization] at h
    cases h
    rfl
  | some l =>
    rw [hlocalization] at h
    dsimp only at h
    split at h
    · cases h
    · obtain ⟨found, _, h⟩ := Except.bind_eq_ok_iff.1 h
      cases h
      rfl

/-- Other globals do not disturb look-ups of a global in a locale. -/
structure Undisturbed (registry : Registry) (c : CompiledEntity) (locale : Option String) : Prop where
  /-- No other slug compares equal, as another way to write the same time does. -/
  slugs : ∀ other ∈ registry.allGlobals, other.slug ≠ c.slug → compareTexts other.slug c.slug ≠ .eq
  /-- The clause of the readers does not ask for the number that the store gives to the record. -/
  numbers : ∀ k ∈ lookedUpBy c,
    (Path.segments (Path.toData k.path)).head? ≠ some Record.sequenceField
  /-- Among the localized paths of all globals the clause finds the same ones as among its own. -/
  paths : ∀ k ∈ lookedUpBy c, Store.storedPath (globalPaths registry) locale k.path =
    Store.storedPath c.localizedPaths locale k.path

/-- **Globals do not influence each other,** unless they disturb look-ups.  Whatever is saved to all
globals of a checked configuration, each of them is found with the same outcome, be it a record or an
error, as in the configuration that is reduced to it, to which only its own saves have gone. -/
theorem findGlobal_alone (hids : Function.Injective env.ids)
    (h : config.HoldsGlobal registry slug c) {saves : List GlobalSave}
    (hsaves : ∀ save ∈ saves, Table.Ascending save.data) (params : ReadParams)
    (hundisturbed : Undisturbed registry c
      (config.localization.map (params.locale.getD ·.default))) :
    ∃ alone, (config.only slug).HoldsGlobal alone slug c ∧
      let s := ofRegistry registry config
      let s' := ofRegistry alone (config.only slug)
      let b := (Action.runOn env (start registry config) .empty).2
      let m := (Action.runOn env (start alone (config.only slug)) .empty).2
      (Action.runOn env (s'.findGlobal slug params) (replay env s s' slug saves b m)).1 =
        (Action.runOn env (s.findGlobal slug params) (afterSaves env s saves b)).1 := by
  refine ⟨_, h.only, ?_⟩
  intro s s' b m
  have hslug := h.slug_eq
  subst hslug
  have hlocalization : s'.localization = s.localization := rfl
  have hglobal : s'.registry.global c.slug = s.registry.global c.slug := by
    rw [show s.registry.global c.slug = .ok c from h.global]
    exact h.only.global
  have hothers : ∀ name other, s.registry.global name = .ok other →
      other.slug = name ∧ (name ≠ c.slug → Alike c.slug false name) := by
    intro name other hother
    have hheld : config.HoldsGlobal registry name other := ⟨h.valid, h.built, hother⟩
    refine ⟨hheld.slug_eq, fun hne => ?_⟩
    obtain rfl := hheld.slug_eq
    exact beq_eq_false_iff_ne.2
      (hundisturbed.slugs other (List.mem_map.2 ⟨_, hheld.mem_globals, rfl⟩) hne)
  have hbeside : Beside env c (globalPaths registry) (globalPaths ⟨[], [(c.slug, c)]⟩) b m :=
    ⟨sorted_started env registry config _ _, (sorted_started env _ _ c.slug c.slug).serving,
      mirrors_started h h.only⟩
  obtain ⟨m', hafter, hreplay⟩ :=
    hbeside.replay hids h.global hlocalization hglobal hothers hsaves
  rw [hreplay, findGlobal_congr hlocalization hglobal]
  refine (inStep_findGlobal hafter.othersApart h.global params hundisturbed.numbers ?_ _ _
    hafter.abreast).1
  intro selection hselect k hk
  rw [storedPath_alone, localeOf_selectLocale hselect]
  exact (hundisturbed.paths k hk).symm

end

/-! A brand with a localized title, and a site with a plain one.  The site is shown if the value at a path
is `x`. -/

def brand : Entity :=
  Entity.ofFields "brand" [{ Field.ofKind "title" .text with localized := true }]

def site (path : String) : Entity :=
  { Entity.ofFields "site" [Field.ofKind "title" .text, Field.ofKind "tone" .text] with
    read := .scope (.obj [(path, .obj [("equals", .str "x")])]) }

def siteConfig (path : String) : Config :=
  ⟨[], [brand, site path], some ⟨["en", "de"], "en", true⟩, .standard, .standard⟩

def siteRegistry (path : String) : Registry :=
  (Registry.build (siteConfig path)).toOption.getD ⟨[], []⟩

def siteAloneRegistry (path : String) : Registry :=
  (Registry.build ((siteConfig path).only "site")).toOption.getD ⟨[], []⟩

def siteSaves : List GlobalSave :=
  [⟨"brand", [("title", .str "Acme")], ⟨false, some "en"⟩⟩,
    ⟨"site", [("title", .str "x"), ("tone", .str "x")], ⟨false, some "en"⟩⟩]

/-- The site in English, beside the brand. -/
def siteAmong (path : String) : Except ServiceError Record :=
  let s := ofRegistry (siteRegistry path) (siteConfig path)
  (Action.runOn .backward (s.findGlobal "site" ⟨false, some "en", none⟩)
    (afterSaves .backward s siteSaves
      (Action.runOn .backward (start (siteRegistry path) (siteConfig path)) .empty).2)).1

/-- The site in English, alone. -/
def siteAlone (path : String) : Except ServiceError Record :=
  let s' := ofRegistry (siteAloneRegistry path) ((siteConfig path).only "site")
  (Action.runOn .backward (s'.findGlobal "site" ⟨false, some "en", none⟩)
    (replay .backward (ofRegistry (siteRegistry path) (siteConfig path)) s' "site" siteSaves
      (Action.runOn .backward (start (siteRegistry path) (siteConfig path)) .empty).2
      (Action.runOn .backward (start (siteAloneRegistry path) ((siteConfig path).only "site"))
        .empty).2)).1

/-- The title that is shown. -/
def titleOf (r : Record) : Option String :=
  match Table.get? "title" r with
  | some (.str title) => some title
  | _ => none

theorem holds_site (path : String) (hpath : path ∈ ["title", "tone"]) :
    ∃ c, (siteConfig path).HoldsGlobal (siteRegistry path) "site" c ∧
      ((siteConfig path).only "site").HoldsGlobal (siteAloneRegistry path) "site" c := by
  have hchecked : ∀ path ∈ ["title", "tone"], (siteConfig path).validate.isOk = true ∧
      (Registry.build (siteConfig path)).isOk = true ∧
      ((siteRegistry path).global "site").isOk = true := by
    decide +kernel
  obtain ⟨hvalid, hbuild, hglobal⟩ := hchecked path hpath
  obtain ⟨_, hvalid⟩ := Except.exists_of_isOk hvalid
  obtain ⟨registry, hbuild⟩ := Except.exists_of_isOk hbuild
  obtain ⟨c, hglobal⟩ := Except.exists_of_isOk hglobal
  have hregistry : siteRegistry path = registry := by rw [siteRegistry, hbuild]; rfl
  have hsite : (siteConfig path).HoldsGlobal (siteRegistry path) "site" c :=
    ⟨hvalid, hregistry ▸ hbuild, hglobal⟩
  have halone : siteAloneRegistry path = ⟨[], [("site", c)]⟩ := by
    rw [siteAloneRegistry, hsite.only.built]
    rfl
  exact ⟨c, hsite, halone ▸ hsite.only⟩

/-- The data of these saves are in order. -/
theorem ascending_siteSaves : ∀ save ∈ siteSaves, Table.Ascending save.data :=
  List.forall_mem_cons.2 ⟨List.pairwise_singleton _ _,
    List.forall_mem_singleton.2 (List.pairwise_pair.2 (by decide : "title" < "tone"))⟩

theorem lookedUpBy_site {c : CompiledEntity}
    (h : (siteConfig "tone").HoldsGlobal (siteRegistry "tone") "site" c) :
    lookedUpBy c = [⟨globalTypeField, .equals, .str "site"⟩, ⟨"tone", .equals, .str "x"⟩] ∧
      c.localizedPaths = [] := by
  obtain ⟨e, he, hslug, hcompile⟩ := h.compiles
  obtain ⟨hentity, _, hpaths⟩ := CompiledEntity.of_compile hcompile
  rcases List.mem_pair.1 he with rfl | rfl
  · exact absurd hslug (by decide)
  · refine ⟨?_, hpaths⟩
    rw [lookedUpBy, readAccess, CompiledEntity.slug, hentity]
    rfl

/-- The tone is localized by neither of them. -/
theorem findGlobal_alone_site :
    (∃ c, (siteConfig "tone").HoldsGlobal (siteRegistry "tone") "site" c ∧
      Undisturbed (siteRegistry "tone") c (some "en")) ∧
    (siteAmong "tone").toOption.map titleOf = some (some "x") ∧
    siteAlone "tone" = siteAmong "tone" := by
  obtain ⟨c, hsite, halone⟩ := holds_site "tone" (by decide)
  obtain ⟨hlooked, hpaths⟩ := lookedUpBy_site hsite
  have hundisturbed : Undisturbed (siteRegistry "tone") c (some "en") := by
    constructor
    · rw [hsite.slug_eq]
      decide +kernel
    · rw [hlooked]
      decide
    · rw [hlooked, hpaths]
      decide +kernel
  obtain ⟨alone, hheld, hsame⟩ := findGlobal_alone Surroundings.proper_backward.ids_injective hsite
    ascending_siteSaves ⟨false, some "en", none⟩ hundisturbed
  obtain rfl : alone = siteAloneRegistry "tone" := Except.ok.inj (hheld.built.symm.trans halone.built)
  exact ⟨⟨c, hsite, hundisturbed⟩, by decide +kernel, hsame⟩

/-- **The brand hides the site,** because the clause on its title asks for a title in English. -/
theorem findGlobal_disturbed :
    (∃ c, (siteConfig "title").HoldsGlobal (siteRegistry "title") "site" c ∧
      ((siteConfig "title").only "site").HoldsGlobal (siteAloneRegistry "title") "site" c) ∧
    Function.Injective Surroundings.backward.ids ∧
    (∀ save ∈ siteSaves, Table.Ascending save.data) ∧
    (siteAmong "title").toOption.map titleOf = some none ∧
    (siteAlone "title").toOption.map titleOf = some (some "x") :=
  ⟨holds_site "title" (by decide), Surroundings.proper_backward.ids_injective, ascending_siteSaves,
    by decide +kernel, by decide +kernel⟩

end Service

end HeadlessCms
