import HeadlessCms.Proofs.Service.Reaching

/-!
# The names of store collections

A collection is stored under its slug, all globals are stored together, and the versions of an entity
are stored under a name that is made from its slug.  Slugs are different from each other, but a slug may
look like the name that is made from another one.  Only then two entities share a store collection
(`Service.nodup_storeCollections_iff`, `Config.notMem_storeNames`).
-/

namespace HeadlessCms

open Service (globalsCollection storeCollections)

/-- The store collections of an entity: the one with its documents, and the one with its versions if it
is versioned. -/
def CompiledEntity.storeNames (c : CompiledEntity) : List String :=
  (if c.kind = .collection then c.slug else globalsCollection) ::
    (if c.entity.isVersioned then [c.entity.versionsCollection] else [])

/-- A collection keeps its store collections to itself: no versions are stored under its slug, and no
collection has the slug that its versions are stored under. -/
structure Config.KeepsApart (config : Config) (e : Entity) : Prop where
  docs : ∀ f ∈ config.collections ++ config.globals, f.isVersioned = true →
    f.versionsCollection ≠ e.slug
  versions : e.isVersioned = true → ∀ f ∈ config.collections, f.slug ≠ e.versionsCollection

/-! ### Every entity is compiled -/

namespace Registry

variable {config : Config} {registry : Registry} {kind : EntityKind} {entities : List Entity}
  {t t' : Table CompiledEntity}

/-- Adding entities keeps the table in order. -/
theorem ascending_addAll (ht : Table.Ascending t) (h : addAll kind t entities = .ok t') :
    Table.Ascending t' := by
  induction entities generalizing t with
  | nil =>
    cases h
    exact ht
  | cons e rest ih =>
    obtain ⟨compiled, _, h⟩ := Except.bind_eq_ok_iff.1 h
    exact ih (Table.ascending_insert ht) h

/-- Other slugs lead where they led before. -/
theorem get?_addAll_of_notMem (h : addAll kind t entities = .ok t') {slug : String}
    (hslug : slug ∉ entities.map (·.slug)) : Table.get? slug t' = Table.get? slug t := by
  induction entities generalizing t with
  | nil =>
    cases h
    rfl
  | cons e rest ih =>
    simp only [List.map_cons, List.mem_cons, not_or] at hslug
    obtain ⟨compiled, _, h⟩ := Except.bind_eq_ok_iff.1 h
    rw [ih h hslug.2, Table.get?_insert, if_neg hslug.1]

/-- **Entities with different slugs are all in the table.** -/
theorem exists_of_addAll (hnodup : (entities.map (·.slug)).Nodup)
    (h : addAll kind t entities = .ok t') {e : Entity} (he : e ∈ entities) :
    ∃ c, (e.slug, c) ∈ t' ∧ c.entity = e := by
  induction entities generalizing t with
  | nil => cases he
  | cons f rest ih =>
    obtain ⟨hfirst, hrest⟩ := List.nodup_cons.1 hnodup
    obtain ⟨compiled, hcompiled, h⟩ := Except.bind_eq_ok_iff.1 h
    rcases List.mem_cons.1 he with rfl | he
    · refine ⟨compiled, Table.mem_of_get? ?_, (CompiledEntity.of_compile hcompiled).1⟩
      rw [get?_addAll_of_notMem h hfirst, Table.get?_insert, if_pos rfl]
    · exact ih hrest h he

variable (hvalid : config.validate = .ok ()) (hbuild : build config = .ok registry)

include hvalid hbuild

/-- Every collection of the configuration has been compiled. -/
theorem exists_collection {e : Entity} (he : e ∈ config.collections) :
    ∃ c ∈ registry.allCollections, c.entity = e := by
  have hnodup := (Config.slugs_of_validate hvalid).1
  rw [List.map_append, List.nodup_append] at hnodup
  obtain ⟨collections, hcollections, hrest⟩ := Except.bind_eq_ok_iff.1 hbuild
  obtain ⟨globals, _, hrest⟩ := Except.bind_eq_ok_iff.1 hrest
  cases hrest
  obtain ⟨c, hc, hentity⟩ := exists_of_addAll hnodup.1 hcollections he
  exact ⟨c, List.mem_map.2 ⟨_, hc, rfl⟩, hentity⟩

/-- Every entity of the configuration has been compiled. -/
theorem exists_entity {e : Entity} (he : e ∈ config.collections ++ config.globals) :
    ∃ c ∈ registry.allCollections ++ registry.allGlobals, c.entity = e := by
  rcases List.mem_append.1 he with he | he
  · obtain ⟨c, hc, hentity⟩ := exists_collection hvalid hbuild he
    exact ⟨c, List.mem_append_left _ hc, hentity⟩
  · have hnodup := (Config.slugs_of_validate hvalid).1
    rw [List.map_append, List.nodup_append] at hnodup
    obtain ⟨collections, _, hrest⟩ := Except.bind_eq_ok_iff.1 hbuild
    obtain ⟨globals, hglobals, hrest⟩ := Except.bind_eq_ok_iff.1 hrest
    cases hrest
    obtain ⟨c, hc, hentity⟩ := exists_of_addAll hnodup.2.1 hglobals he
    exact ⟨c, List.mem_append_right _ (List.mem_map.2 ⟨_, hc, rfl⟩), hentity⟩

omit hvalid in
/-- Compiled collections come from the configuration. -/
theorem mem_of_allCollections {c : CompiledEntity} (hc : c ∈ registry.allCollections) :
    Compiles .collection config.collections c.slug c := by
  obtain ⟨entry, hentry, rfl⟩ := List.mem_map.1 hc
  have hcompiles := (compiles_of_mem hbuild).1 entry hentry
  rwa [hcompiles.slug_eq]

omit hvalid in
/-- Compiled globals come from the configuration. -/
theorem mem_of_allGlobals {c : CompiledEntity} (hc : c ∈ registry.allGlobals) :
    Compiles .global config.globals c.slug c := by
  obtain ⟨entry, hentry, rfl⟩ := List.mem_map.1 hc
  have hcompiles := (compiles_of_mem hbuild).2 entry hentry
  rwa [hcompiles.slug_eq]

omit hvalid in
/-- Every compiled entity comes from the configuration. -/
theorem entity_mem {c : CompiledEntity} (hc : c ∈ registry.allCollections ++ registry.allGlobals) :
    c.entity ∈ config.collections ++ config.globals := by
  rcases List.mem_append.1 hc with hc | hc
  · obtain ⟨e, he, _, hcompile⟩ := mem_of_allCollections hbuild hc
    rw [(CompiledEntity.of_compile hcompile).1]
    exact List.mem_append_left _ he
  · obtain ⟨e, he, _, hcompile⟩ := mem_of_allGlobals hbuild hc
    rw [(CompiledEntity.of_compile hcompile).1]
    exact List.mem_append_right _ he

/-- The compiled entities have different slugs, as the declared ones have. -/
theorem nodup_slugs : ((registry.allCollections ++ registry.allGlobals).map (·.slug)).Nodup := by
  have hentries (t : Table CompiledEntity) (ht : Table.Ascending t)
      (hslug : ∀ entry ∈ t, entry.2.slug = entry.1) : ((t.map (·.2)).map (·.slug)).Nodup := by
    have hkeys : (t.map (·.2)).map (·.slug) = t.map (·.1) :=
      List.map_map.trans (List.map_congr_left hslug)
    rw [hkeys]
    exact ht.nodup_keys
  obtain ⟨hcollections, hglobals⟩ := compiles_of_mem hbuild
  obtain ⟨collections, hadded, hrest⟩ := Except.bind_eq_ok_iff.1 hbuild
  obtain ⟨globals, hadded', hrest⟩ := Except.bind_eq_ok_iff.1 hrest
  cases hrest
  rw [List.map_append, List.nodup_append]
  refine ⟨hentries _ (ascending_addAll List.Pairwise.nil hadded) fun entry hentry =>
      (hcollections entry hentry).slug_eq,
    hentries _ (ascending_addAll List.Pairwise.nil hadded') fun entry hentry =>
      (hglobals entry hentry).slug_eq, fun a ha b hb => ?_⟩
  obtain ⟨c, hc, rfl⟩ := List.mem_map.1 ha
  obtain ⟨d, hd, rfl⟩ := List.mem_map.1 hb
  obtain ⟨entry, hentry, rfl⟩ := List.mem_map.1 hc
  obtain ⟨entry', hentry', rfl⟩ := List.mem_map.1 hd
  rw [(hcollections entry hentry).slug_eq, (hglobals entry' hentry').slug_eq]
  exact fun heq => (hcollections entry hentry).slug_ne hvalid (hglobals entry' hentry') heq.symm

end Registry

/-! ### When names are different -/

variable {config : Config} {registry : Registry}

/-- No collection is stored where the globals are. -/
theorem Registry.Compiles.slug_ne_globals (hvalid : config.validate = .ok ()) {slug : String}
    {c : CompiledEntity} (h : Compiles .collection config.collections slug c) :
    c.slug ≠ globalsCollection := by
  rw [h.slug_eq]
  obtain ⟨e, he, rfl, _⟩ := h
  have hreserved := (Config.slugs_of_validate hvalid).2 e.slug
    (List.mem_map_of_mem (List.mem_append_left _ he))
  exact fun heq => hreserved (heq ▸ List.mem_singleton_self _)

/-- **Two entities share a store collection only if a slug looks like the name for the versions of
another one.** -/
theorem Service.nodup_storeCollections_iff (hvalid : config.validate = .ok ())
    (hbuild : Registry.build config = .ok registry) :
    ((storeCollections registry).map (·.1)).Nodup ↔
      ∀ e ∈ config.collections, config.KeepsApart e := by
  have hslugs := Registry.nodup_slugs hvalid hbuild
  have hcollections : (registry.allCollections.map (·.slug)).Nodup := by
    rw [List.map_append, List.nodup_append] at hslugs
    exact hslugs.1
  have hversions : (((registry.allCollections ++ registry.allGlobals).filter
      (·.entity.isVersioned)).map (·.entity.versionsCollection)).Nodup := by
    refine List.pairwise_map.2 (((List.pairwise_map.1 hslugs).filter _).imp fun hne heq => hne ?_)
    exact Entity.versionsCollection_injective heq
  have hnames : (storeCollections registry).map (·.1) =
      registry.allCollections.map (·.slug) ++ [globalsCollection] ++
        ((registry.allCollections ++ registry.allGlobals).filter (·.entity.isVersioned)).map
          (·.entity.versionsCollection) := by
    simp only [storeCollections, List.map_append, List.map_map, List.map_cons, List.map_nil]
    rfl
  rw [hnames, List.nodup_append]
  constructor
  · rintro ⟨_, _, hapart⟩ e he
    obtain ⟨c, hc, rfl⟩ := Registry.exists_collection hvalid hbuild he
    constructor
    · intro f hf hversioned heq
      obtain ⟨d, hd, rfl⟩ := Registry.exists_entity hvalid hbuild hf
      exact hapart c.slug (List.mem_append_left _ (List.mem_map_of_mem hc)) d.entity.versionsCollection
        (List.mem_map.2 ⟨d, List.mem_filter.2 ⟨hd, hversioned⟩, rfl⟩) heq.symm
    · intro hversioned f hf heq
      obtain ⟨d, hd, rfl⟩ := Registry.exists_collection hvalid hbuild hf
      exact hapart d.slug (List.mem_append_left _ (List.mem_map_of_mem hd)) c.entity.versionsCollection
        (List.mem_map.2 ⟨c, List.mem_filter.2 ⟨List.mem_append_left _ hc, hversioned⟩, rfl⟩) heq
  · intro h
    refine ⟨List.nodup_append.2 ⟨hcollections, List.nodup_singleton _, ?_⟩, hversions, ?_⟩
    · intro a ha b hb
      obtain ⟨c, hc, rfl⟩ := List.mem_map.1 ha
      rw [List.mem_singleton.1 hb]
      exact (Registry.mem_of_allCollections hbuild hc).slug_ne_globals hvalid
    · intro a ha b hb
      obtain ⟨d, hd, rfl⟩ := List.mem_map.1 hb
      obtain ⟨hd, hversioned⟩ := List.mem_filter.1 hd
      rcases List.mem_append.1 ha with ha | ha
      · obtain ⟨c, hc, rfl⟩ := List.mem_map.1 ha
        obtain ⟨e, he, _, hcompile⟩ := Registry.mem_of_allCollections hbuild hc
        have hentity := (CompiledEntity.of_compile hcompile).1
        intro heq
        refine (h e he).docs d.entity (Registry.entity_mem hbuild hd) hversioned ?_
        rw [← hentity]
        exact heq.symm
      · rw [List.mem_singleton.1 ha]
        exact d.entity.versionsCollection_ne_globals.symm

/-- **A collection that keeps its store collections to itself shares none with another entity.** -/
theorem Config.notMem_storeNames (hvalid : config.validate = .ok ()) {slug slug' : String}
    {c other : CompiledEntity} (hc : Registry.Compiles .collection config.collections slug c)
    (hapart : config.KeepsApart c.entity) (hne : other ≠ c)
    (hother : Registry.Compiles .collection config.collections slug' other ∨
      Registry.Compiles .global config.globals slug' other) {name : String}
    (hname : name ∈ c.storeNames) : name ∉ other.storeNames := by
  -- What is known of the other entity, whichever kind it has.
  obtain ⟨hdeclared, hslugs⟩ : other.entity ∈ config.collections ++ config.globals ∧
      other.slug ≠ c.slug := by
    rcases hother with hother | hother
    · refine ⟨?_, fun heq => hne (hc.unique hvalid ?_)⟩
      · obtain ⟨f, hf, _, hcompile⟩ := hother
        rw [(CompiledEntity.of_compile hcompile).1]
        exact List.mem_append_left _ hf
      · rw [hc.slug_eq, hother.slug_eq] at heq
        exact heq ▸ hother
    · refine ⟨?_, ?_⟩
      · obtain ⟨f, hf, _, hcompile⟩ := hother
        rw [(CompiledEntity.of_compile hcompile).1]
        exact List.mem_append_right _ hf
      · rw [hc.slug_eq, hother.slug_eq]
        exact hc.slug_ne hvalid hother
  have hdocs : ∀ docs, docs = (if other.kind = .collection then other.slug else globalsCollection) →
      docs ≠ c.slug ∧ (c.entity.isVersioned = true → docs ≠ c.entity.versionsCollection) := by
    rintro docs rfl
    rcases hother with hother | hother
    · rw [if_pos hother.kind_eq]
      refine ⟨hslugs, fun hversioned => ?_⟩
      obtain ⟨f, hf, _, hcompile⟩ := hother
      have hentity := (CompiledEntity.of_compile hcompile).1
      exact hapart.versions hversioned other.entity (hentity ▸ hf)
    · rw [if_neg (by rw [hother.kind_eq]; decide)]
      exact ⟨(hc.slug_ne_globals hvalid).symm, fun _ =>
        c.entity.versionsCollection_ne_globals.symm⟩
  obtain ⟨hdocs, hdocsVersions⟩ := hdocs _ rfl
  unfold CompiledEntity.storeNames at hname ⊢
  rw [if_pos hc.kind_eq] at hname
  rw [List.mem_cons, not_or]
  rcases List.mem_cons.1 hname with rfl | hname
  · refine ⟨hdocs.symm, fun hmem => ?_⟩
    split at hmem
    · next hversioned =>
      exact hapart.docs other.entity hdeclared hversioned (List.mem_singleton.1 hmem).symm
    · cases hmem
  · split at hname
    · next hversioned =>
      rw [List.mem_singleton.1 hname]
      refine ⟨(hdocsVersions hversioned).symm, fun hmem => ?_⟩
      split at hmem
      · exact hslugs (Entity.versionsCollection_injective (List.mem_singleton.1 hmem)).symm
      · cases hmem
    · cases hname

end HeadlessCms
