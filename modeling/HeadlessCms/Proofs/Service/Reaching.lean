import HeadlessCms.Proofs.Config
import HeadlessCms.Proofs.Service.Shaping
import HeadlessCms.Proofs.Service.Starting

/-!
# What the service can reach

A backend is reached from the empty one by starting the service and by requests that write, in any
order, while the backend may refuse any of its methods at any time (`Service.Reachable`).  On every
backend that is reached the records of a collection are in shape (`Service.Reachable.lawful`), unless
its collections in the store are those of another entity, too (`Config.Unshared`).
-/

namespace HeadlessCms

/-! ### Names of store collections -/

/-- Entities with the same collection of versions have the same slug. -/
theorem Entity.versionsCollection_injective {e f : Entity}
    (h : e.versionsCollection = f.versionsCollection) : e.slug = f.slug := by
  have hchars := congrArg String.toList h
  simp only [versionsCollection, String.toList_append, List.append_cancel_right_eq] at hchars
  exact String.toList_inj.1 (List.append_cancel_left hchars)

/-- Versions are not stored where the globals are. -/
theorem Entity.versionsCollection_ne_globals (e : Entity) :
    e.versionsCollection ≠ Service.globalsCollection := by
  intro heq
  have hhead := congrArg (fun s : String => s.toList.head?) heq
  simp [versionsCollection, Service.globalsCollection] at hhead

/-- No entity has its documents stored under the name for the versions of a collection, or its
versions under the name for the documents. -/
def Config.Unshared (config : Config) (slug : String) : Prop :=
  ∀ e ∈ config.collections ++ config.globals, e.slug ≠ "_" ++ slug ++ "_versions" ∧
    (e.isVersioned = true → e.versionsCollection ≠ slug)

instance (config : Config) (slug : String) : Decidable (config.Unshared slug) :=
  inferInstanceAs (Decidable (∀ e ∈ _, _ ∧ (_ → _)))

/-! ### Compiled entities -/

namespace Registry

variable {config : Config} {registry : Registry}

/-- Compiled entities have been there before, or come from one of the entities. -/
theorem mem_of_addAll {kind : EntityKind} {t t' : Table CompiledEntity} {entities : List Entity}
    (h : addAll kind t entities = .ok t') {entry : String × CompiledEntity} (hentry : entry ∈ t') :
    entry ∈ t ∨ ∃ e ∈ entities, entry.1 = e.slug ∧ CompiledEntity.compile kind e = .ok entry.2 := by
  induction entities generalizing t with
  | nil =>
    cases h
    exact Or.inl hentry
  | cons e rest ih =>
    obtain ⟨compiled, hcompiled, h⟩ := Except.bind_eq_ok_iff.1 h
    rcases ih h with hinserted | ⟨f, hf, hcompile⟩
    · rcases Table.mem_insert hinserted with rfl | hold
      · exact Or.inr ⟨e, List.mem_cons_self, rfl, hcompiled⟩
      · exact Or.inl hold
    · exact Or.inr ⟨f, List.mem_cons_of_mem _ hf, hcompile⟩

/-- An entity of a configuration, compiled. -/
def Compiles (kind : EntityKind) (entities : List Entity) (slug : String) (c : CompiledEntity) :
    Prop :=
  ∃ e ∈ entities, slug = e.slug ∧ CompiledEntity.compile kind e = .ok c

/-- All entries of a registry have been compiled from entities of the configuration. -/
theorem compiles_of_mem (h : build config = .ok registry) :
    (∀ entry ∈ registry.collections, Compiles .collection config.collections entry.1 entry.2) ∧
      ∀ entry ∈ registry.globals, Compiles .global config.globals entry.1 entry.2 := by
  obtain ⟨collections, hcollections, h⟩ := Except.bind_eq_ok_iff.1 h
  obtain ⟨globals, hglobals, h⟩ := Except.bind_eq_ok_iff.1 h
  cases h
  refine ⟨fun entry hentry => ?_, fun entry hentry => ?_⟩
  · exact (mem_of_addAll hcollections hentry).resolve_left (by simp)
  · exact (mem_of_addAll hglobals hentry).resolve_left (by simp)

/-- A collection that is found has been compiled from one of the configuration. -/
theorem compiles_of_collection (h : build config = .ok registry) {slug : String} {c : CompiledEntity}
    (hc : registry.collection slug = .ok c) : Compiles .collection config.collections slug c := by
  unfold collection at hc
  split at hc
  · next c' hget =>
    cases hc
    exact (compiles_of_mem h).1 _ (Table.mem_of_get? hget)
  · cases hc

/-- A global that is found has been compiled from one of the configuration. -/
theorem compiles_of_global (h : build config = .ok registry) {slug : String} {c : CompiledEntity}
    (hc : registry.global slug = .ok c) : Compiles .global config.globals slug c := by
  unfold global at hc
  split at hc
  · next c' hget =>
    cases hc
    exact (compiles_of_mem h).2 _ (Table.mem_of_get? hget)
  · cases hc

/-- A compiled entity keeps its slug. -/
theorem Compiles.slug_eq {kind : EntityKind} {entities : List Entity} {slug : String}
    {c : CompiledEntity} (h : Compiles kind entities slug c) : c.slug = slug := by
  obtain ⟨e, _, rfl, hcompile⟩ := h
  exact congrArg Entity.slug (CompiledEntity.of_compile hcompile).1

/-- A compiled entity keeps its kind. -/
theorem Compiles.kind_eq {kind : EntityKind} {entities : List Entity} {slug : String}
    {c : CompiledEntity} (h : Compiles kind entities slug c) : c.kind = kind := by
  obtain ⟨e, _, _, hcompile⟩ := h
  exact (CompiledEntity.of_compile hcompile).2.1

/-- Entities of one kind with the same slug are the same. -/
theorem Compiles.unique_of_nodup {kind : EntityKind} {entities : List Entity}
    (hnodup : (entities.map (·.slug)).Nodup) {slug : String} {c other : CompiledEntity}
    (h : Compiles kind entities slug c) (hother : Compiles kind entities slug other) : other = c := by
  obtain ⟨e, he, rfl, hcompile⟩ := h
  obtain ⟨f, hf, hslug, hcompile'⟩ := hother
  have hsame : f = e := List.inj_on_of_nodup_map hnodup hf he hslug.symm
  subst hsame
  exact Except.ok.inj (hcompile'.symm.trans hcompile)

/-- In a checked configuration a slug belongs to one collection. -/
theorem Compiles.unique (hvalid : config.validate = .ok ()) {slug : String} {c other : CompiledEntity}
    (h : Compiles .collection config.collections slug c)
    (hother : Compiles .collection config.collections slug other) : other = c := by
  have hnodup := (Config.slugs_of_validate hvalid).1
  rw [List.map_append, List.nodup_append] at hnodup
  exact h.unique_of_nodup hnodup.1 hother

/-- No global has the slug of a collection. -/
theorem Compiles.slug_ne (hvalid : config.validate = .ok ()) {slug slug' : String}
    {c other : CompiledEntity} (h : Compiles .collection config.collections slug c)
    (hother : Compiles .global config.globals slug' other) : slug' ≠ slug := by
  obtain ⟨e, he, rfl, _⟩ := h
  obtain ⟨f, hf, rfl, _⟩ := hother
  have hnodup := (Config.slugs_of_validate hvalid).1
  rw [List.map_append, List.nodup_append] at hnodup
  exact fun heq => hnodup.2.2 _ (List.mem_map_of_mem he) _ (List.mem_map_of_mem hf) heq.symm

/-- What two entities have in common with the names of a collection. -/
theorem Compiles.unshared {kind : EntityKind} {entities : List Entity} {slug slug' : String}
    {c other : CompiledEntity} (hshared : config.Unshared slug)
    (hsub : ∀ e ∈ entities, e ∈ config.collections ++ config.globals)
    (hc : c.slug = slug) (h : Compiles kind entities slug' other) :
    slug' ≠ c.entity.versionsCollection ∧
      (other.entity.isVersioned = true → other.entity.versionsCollection ≠ c.slug) := by
  obtain ⟨e, he, rfl, hcompile⟩ := h
  obtain ⟨hdocs, hversions⟩ := hshared e (hsub e he)
  have hentity := (CompiledEntity.of_compile hcompile).1
  have hname : c.entity.versionsCollection = "_" ++ slug ++ "_versions" := by
    rw [← hc]
    rfl
  rw [hname, hc, hentity]
  exact ⟨hdocs, hversions⟩

end Registry

/-- A collection of a checked configuration that shares its store collections with no other
entity. -/
structure Config.Holds (config : Config) (registry : Registry) (slug : String) (c : CompiledEntity) :
    Prop where
  valid : config.validate = .ok ()
  built : Registry.build config = .ok registry
  collection : registry.collection slug = .ok c
  unshared : config.Unshared slug

namespace Config.Holds

variable {config : Config} {registry : Registry} {slug : String} {c : CompiledEntity}

/-- The collection has been compiled from one of the configuration. -/
theorem compiles (h : config.Holds registry slug c) :
    Registry.Compiles .collection config.collections slug c :=
  Registry.compiles_of_collection h.built h.collection

/-- The collection has the slug that it is found under. -/
theorem slug_eq (h : config.Holds registry slug c) : c.slug = slug :=
  h.compiles.slug_eq

/-- Its documents are not stored where the globals are. -/
theorem slug_ne_globals (h : config.Holds registry slug c) :
    Service.globalsCollection ≠ c.slug := by
  obtain ⟨e, he, heq, _⟩ := h.compiles
  have hreserved := (Config.slugs_of_validate h.valid).2 e.slug
    (List.mem_map_of_mem (List.mem_append_left _ he))
  rw [h.slug_eq, heq]
  intro hglobals
  exact hreserved (hglobals ▸ List.mem_singleton_self _)

/-- **Other collections stay apart.** -/
theorem setApart (h : config.Holds registry slug c) {slug' : String} {other : CompiledEntity}
    (hother : Registry.Compiles .collection config.collections slug' other) :
    c.SetApart other slug' := by
  have hnames := hother.unshared h.unshared (fun e he => List.mem_append_left _ he) h.slug_eq
  have hsame : slug' = c.slug → other = c := by
    rintro rfl
    exact h.compiles.unique h.valid (h.slug_eq ▸ hother)
  refine ⟨hsame, hnames.1, fun _ hversions => hsame ?_, hnames.2⟩
  rw [← hother.slug_eq]
  exact Entity.versionsCollection_injective hversions

/-- Globals stay apart, too. -/
theorem setApart_global (h : config.Holds registry slug c) {slug' : String} {other : CompiledEntity}
    (hother : Registry.Compiles .global config.globals slug' other) :
    c.SetApart other Service.globalsCollection := by
  have hnames := hother.unshared h.unshared (fun e he => List.mem_append_right _ he) h.slug_eq
  refine ⟨fun hdocs => absurd hdocs h.slug_ne_globals,
    c.entity.versionsCollection_ne_globals.symm, fun _ hversions => ?_, hnames.2⟩
  have hslugs : other.slug = c.slug := Entity.versionsCollection_injective hversions
  rw [hother.slug_eq, h.slug_eq] at hslugs
  exact absurd hslugs (h.compiles.slug_ne h.valid hother)

/-- **What is declared to the store is what is known of it.** -/
theorem paths_of_mem (h : config.Holds registry slug c) {name : String} {paths : List String}
    (hmem : (name, paths) ∈ Service.storeCollections registry) (locales : Option Locales) :
    (c.law locales).paths name paths := by
  have hall := Registry.compiles_of_mem h.built
  -- Each entity that is compiled is set apart under the collection that it goes to.
  have hcollections : ∀ other ∈ registry.allCollections,
      Registry.Compiles .collection config.collections other.slug other := by
    intro other hother
    obtain ⟨entry, hentry, rfl⟩ := List.mem_map.1 hother
    have hcompiles := hall.1 entry hentry
    rwa [hcompiles.slug_eq]
  have hversioned : ∀ other ∈ registry.allCollections ++ registry.allGlobals,
      ∃ collection, c.SetApart other collection := by
    intro other hother
    rcases List.mem_append.1 hother with hother | hother
    · exact ⟨_, h.setApart (hcollections other hother)⟩
    · obtain ⟨entry, hentry, rfl⟩ := List.mem_map.1 hother
      exact ⟨_, h.setApart_global (hall.2 entry hentry)⟩
  unfold Service.storeCollections at hmem
  rw [List.mem_append, List.mem_append] at hmem
  rcases hmem with (hmem | hmem) | hmem
  · obtain ⟨other, hother, heq⟩ := List.mem_map.1 hmem
    cases heq
    have hapart := h.setApart (hcollections other hother)
    exact ⟨fun hname => by rw [hapart.docs hname],
      fun hname => absurd hname hapart.docsNotVersions⟩
  · rw [List.mem_singleton] at hmem
    cases hmem
    exact ⟨fun hname => absurd hname h.slug_ne_globals,
      fun hname => absurd hname.symm c.entity.versionsCollection_ne_globals⟩
  · obtain ⟨other, hother, heq⟩ := List.mem_map.1 hmem
    cases heq
    obtain ⟨hother, hisVersioned⟩ := List.mem_filter.1 hother
    obtain ⟨collection, hapart⟩ := hversioned other hother
    exact ⟨fun hname => absurd hname (hapart.versionsNotDocs hisVersioned),
      fun hname => by rw [hapart.versions hisVersioned hname]⟩

end Config.Holds

namespace Service

variable [PatternEngine]

/-- The backends that are reached from the empty one by starting the service and by requests that
write, whatever methods the backend refuses in between. -/
inductive Reachable (env : Surroundings) (registry : Registry) (config : Config) : Backend → Prop
  | empty : Reachable env registry config .empty
  | started {b : Backend} (before : Reachable env registry config b) :
      Reachable env registry config (Action.runOn env (start registry config) b).2
  | created {b : Backend} (before : Reachable env registry config b) (slug : String) {data : Record}
      (params : SaveParams) (table : Table.Ascending data) :
      Reachable env registry config
        (Action.runOn env ((ofRegistry registry config).create slug data params) b).2
  | updated {b : Backend} (before : Reachable env registry config b) (slug id : String)
      {patch : Record} (params : SaveParams) (table : Table.Ascending patch) :
      Reachable env registry config
        (Action.runOn env ((ofRegistry registry config).update slug id patch params) b).2
  | savedGlobal {b : Backend} (before : Reachable env registry config b) (slug : String)
      {data : Record} (params : SaveParams) (table : Table.Ascending data) :
      Reachable env registry config
        (Action.runOn env ((ofRegistry registry config).saveGlobal slug data params) b).2
  | refusing {b : Backend} (before : Reachable env registry config b) (methods : List Method) :
      Reachable env registry config { b with refused := methods }

variable {env : Surroundings} {config : Config} {registry : Registry} {slug : String}
  {c : CompiledEntity} {b : Backend}

/-- Declaring collections with lawful paths keeps a law. -/
theorem keeps_declare {law : Store.Law} {names : List (String × List String)}
    (h : ∀ name paths, (name, paths) ∈ names → law.paths name paths) :
    Action.Keeps env (Backend.Lawful env law) (declare names) fun _ => True := by
  induction names with
  | nil => exact .pure trivial
  | cons n rest ih =>
    exact (Action.Keeps.register (h n.1 n.2 List.mem_cons_self)).bind fun _ _ =>
      ih fun name paths hmem => h name paths (List.mem_cons_of_mem _ hmem)

/-- Starting the service keeps the law of a collection. -/
theorem keeps_start (h : config.Holds registry slug c) :
    Action.Keeps env (Backend.Lawful env (c.law config.localization)) (start registry config)
      fun _ => True :=
  ((keeps_declare fun _ _ hmem => h.paths_of_mem hmem _).mapError _).bind fun _ _ => .pure trivial

/-- Creating a document, in whatever collection, keeps it. -/
theorem keeps_create (henv : env.Proper) (h : config.Holds registry slug c) (slug' : String)
    {data : Record} (params : SaveParams) (hdata : Table.Ascending data) :
    Action.Keeps env (Backend.Lawful env (c.law config.localization))
      ((ofRegistry registry config).create slug' data params) fun _ => True := by
  unfold create
  refine .ofExcept_bind fun other hother => ?_
  have hcompiles := Registry.compiles_of_collection h.built hother
  exact keeps_save (s := ofRegistry registry config) henv (h.setApart hcompiles) h.compiles.kind_eq
    (fun _ d hd => by cases hd) hdata

/-- Updating a document, in whatever collection, keeps the law of a collection. -/
theorem keeps_update (henv : env.Proper) (h : config.Holds registry slug c) (slug' id : String)
    {patch : Record} (params : SaveParams) (hpatch : Table.Ascending patch) :
    Action.Keeps env (Backend.Lawful env (c.law config.localization))
      ((ofRegistry registry config).update slug' id patch params) fun _ => True := by
  unfold update
  refine .ofExcept_bind fun other hother => ?_
  have hcompiles := Registry.compiles_of_collection h.built hother
  refine (keeps_load _ _).bind fun existing hexisting => ?_
  cases existing with
  | none => exact .throw _
  | some doc =>
    refine keeps_save (s := ofRegistry registry config) henv (h.setApart hcompiles)
      h.compiles.kind_eq (fun heq d hd => ?_) hpatch
    obtain ⟨held, r, hheld, hr, hread⟩ := hexisting d hd
    have hslug : slug' = c.slug := by rw [← heq, hcompiles.slug_eq]
    exact (((hheld.record hr).1 hslug).read hread).1

/-- Saving a global keeps the law of a collection. -/
theorem keeps_saveGlobal (henv : env.Proper) (h : config.Holds registry slug c) (slug' : String)
    {data : Record} (params : SaveParams) (hdata : Table.Ascending data) :
    Action.Keeps env (Backend.Lawful env (c.law config.localization))
      ((ofRegistry registry config).saveGlobal slug' data params) fun _ => True := by
  unfold saveGlobal
  refine .ofExcept_bind fun other hother => ?_
  have hcompiles := Registry.compiles_of_global h.built hother
  refine (keeps_load _ _).bind fun existing _ => ?_
  refine (keeps_save (s := ofRegistry registry config) henv (h.setApart_global hcompiles)
    h.compiles.kind_eq (fun heq => ?_) (Table.ascending_insert hdata)).bind fun _ _ =>
      .pure trivial
  have hkind := hcompiles.kind_eq
  rw [heq, h.compiles.kind_eq] at hkind
  cases hkind

/-- **On every backend that is reached the records of a collection are in shape.** -/
theorem Reachable.lawful (henv : env.Proper) (h : config.Holds registry slug c)
    (hreach : Reachable env registry config b) :
    b.Lawful env (c.law config.localization) := by
  induction hreach with
  | empty => exact ⟨Store.obeys_empty _, 0, rfl⟩
  | started _ ih => exact (keeps_start h _ ih).1
  | created _ slug params table ih => exact (keeps_create henv h slug params table _ ih).1
  | updated _ slug id params table ih => exact (keeps_update henv h slug id params table _ ih).1
  | savedGlobal _ slug params table ih => exact (keeps_saveGlobal henv h slug params table _ ih).1
  | refusing _ methods ih => exact ⟨ih.store, ih.clock⟩

end Service

end HeadlessCms
