import HeadlessCms.Proofs.Service.Failing
import HeadlessCms.Proofs.Service.StoreNames
import HeadlessCms.Proofs.Store.Touching

/-!
# Entities do not touch each other

A request that writes to an entity writes to the store collections of this entity only
(`WriteRequest.keeps_has`), and a collection is read from its own store collections only
(`Service.inStep_find_agreesOn` and so on).  So a collection that keeps its store collections to itself
is not affected by writes to other entities (`Service.entities_apart`).  A collection with the slug that
the versions of another entity are stored under is (`Service.entities_not_apart`).
-/

namespace HeadlessCms

open Time (Instant)

variable {env : Surroundings}

/-! ### What writes keep -/

namespace Service

variable {s : Service} {c : CompiledEntity} {collection name : String} {existing : Option Document}
  {held : Option Collection}

/-- A save changes no collection but those of its entity. -/
theorem keeps_save_has [PatternEngine] (hname : name ≠ collection)
    (hversions : c.entity.isVersioned = true → name ≠ c.entity.versionsCollection) (patch : Record)
    (params : SaveParams) :
    Action.Keeps env (Backend.Has name held) (s.save c collection existing patch params)
      fun _ => True :=
  keeps_save_of_steps (D := fun _ _ => True) .now_has (keeps_baseOf_any _)
    (fun _ _ _ _ _ _ _ => keeps_store_of_writes (fun _ => .update_has hname) (.insert_has hname))
    fun hversioned _ _ _ _ _ => History.keeps_save (.insert_has (hversions hversioned))
      fun _ hq => .deleteMany_has (hq ▸ hversions hversioned)

end Service

/-- **A request that writes keeps all collections but those of its entity.** -/
theorem WriteRequest.keeps_has [PatternEngine]
    {s : Service} {request : WriteRequest} {name : String}
    {held : Option Collection} (h : ∀ other, request.entity s = .ok other →
      name ≠ request.collection ∧
      (other.entity.isVersioned = true → name ≠ other.entity.versionsCollection)) :
    Action.Keeps env (Backend.Has name held) (request.run s) fun _ => True :=
  keeps_run fun c hc _ _ => Service.keeps_save_has (h c hc).1 (h c hc).2 _ _

/-! ### What reads look at -/

/-- The newest draft depends on the versions. -/
theorem Draft.inStep_agreesOn [PatternEngine] {entity : Entity} {names : List String}
    (hname : entity.versionsCollection ∈ names) (kind : EntityKind) (doc : Document)
    (locale : Option String) (access : Access) :
    Action.InStep env (Backend.AgreesOn names) (resolve entity kind doc locale access)
      fun _ => True := by
  unfold resolve
  split
  · split
    · exact .pure trivial
    · dsimp only
      refine (Action.InStep.buildQuery_agreesOn hname _ _).bind fun q hq => ?_
      refine (Action.InStep.findOne_agreesOn (hq ▸ hname) _).bind fun found _ => ?_
      cases found with
      | none => exact .pure trivial
      | some record =>
        exact .ofExcept_bind fun _ _ => .pure trivial
  · exact .pure trivial

/-- Backends that agree on the collection of versions list the same versions. -/
theorem History.inStep_find_agreesOn [PatternEngine] {entity : Entity} {names : List String}
    (hname : entity.versionsCollection ∈ names) (access : Access) (request : Request) :
    Action.InStep env (Backend.AgreesOn names) (find entity access request) fun _ => True := by
  unfold find
  dsimp only
  refine (Action.InStep.buildQuery_agreesOn hname _ _).bind fun q hq => ?_
  refine (Action.InStep.find_agreesOn (hq ▸ hname) _ _).bind fun page _ => ?_
  exact .ofExcept_bind fun _ _ => .pure trivial

namespace Service

section

variable [PatternEngine] {s : Service} {c : CompiledEntity} {slug : String} {names : List String}

/-- Backends that agree on the collection of versions present a document alike. -/
theorem inStep_present_agreesOn
    (hversions : c.entity.hasDrafts = true → c.entity.versionsCollection ∈ names) (draft : Bool)
    (selection : Option LocaleSelection) (access : Access) (doc : Document) :
    Action.InStep env (Backend.AgreesOn names) (s.present c draft selection access doc)
      fun _ => True := by
  unfold present
  split
  · next hdraft =>
    have hname := hversions (Bool.and_eq_true_iff.1 hdraft).2
    exact ((Draft.inStep_agreesOn hname _ _ _ _).mapError _).bind fun _ _ => .pure trivial
  · exact (Action.InStep.pure (P := fun _ => True) trivial).bind fun _ _ => .pure trivial

/-- **A page depends on the documents and the versions of the collection.** -/
theorem inStep_find_agreesOn (hc : s.registry.collection slug = .ok c) (hname : slug ∈ names)
    (hversions : c.entity.hasDrafts = true → c.entity.versionsCollection ∈ names)
    (params : FindParams) :
    Action.InStep env (Backend.AgreesOn names) (s.find slug params) fun _ => True := by
  unfold find
  refine .ofExcept_bind fun found hfound => ?_
  obtain rfl : found = c := Except.ok.inj (hfound.symm.trans hc)
  refine .ofExcept_bind fun access _ => ?_
  refine .ofExcept_bind fun selection _ => ?_
  refine .ofExcept_bind fun filter _ => ?_
  dsimp only
  refine ((Action.InStep.buildQuery_agreesOn hname _ _).mapError _).bind fun q hq => ?_
  refine ((Action.InStep.find_agreesOn (hq ▸ hname) _ _).mapError _).bind fun page _ => ?_
  refine (Action.InStep.mapM (Q := fun _ => True) fun record _ => ?_).bind fun docs _ => .pure trivial
  exact .ofExcept_bind fun doc _ =>
    inStep_present_agreesOn hversions _ _ _ doc

/-- Backends that agree on a collection and on its versions find the same document by its id. -/
theorem inStep_findById_agreesOn (hc : s.registry.collection slug = .ok c) (hname : slug ∈ names)
    (hversions : c.entity.hasDrafts = true → c.entity.versionsCollection ∈ names) (id : String)
    (params : ReadParams) :
    Action.InStep env (Backend.AgreesOn names) (s.findById slug id params) fun _ => True := by
  unfold findById
  refine .ofExcept_bind fun found hfound => ?_
  obtain rfl : found = c := Except.ok.inj (hfound.symm.trans hc)
  refine .ofExcept_bind fun access _ => ?_
  refine .ofExcept_bind fun selection _ => ?_
  dsimp only
  refine ((Action.InStep.buildQuery_agreesOn hname _ _).mapError _).bind fun q hq => ?_
  refine ((Action.InStep.findOne_agreesOn (hq ▸ hname) _).mapError _).bind fun record _ => ?_
  cases record with
  | none => exact .throw _
  | some record =>
    exact .ofExcept_bind fun doc _ =>
      inStep_present_agreesOn hversions _ _ _ doc

/-- Backends that agree on the collection of versions find the same page of it. -/
theorem inStep_findVersions_agreesOn (hc : s.registry.collection slug = .ok c)
    (hversions : c.versionWhereSchema.isSome = true → c.entity.versionsCollection ∈ names)
    (params : FindParams) :
    Action.InStep env (Backend.AgreesOn names) (s.findVersions slug params) fun _ => True := by
  unfold findVersions
  refine .ofExcept_bind fun found hfound => ?_
  obtain rfl : found = c := Except.ok.inj (hfound.symm.trans hc)
  unfold versionsOf
  split
  · exact .throw _
  · next schema hschema =>
    have hname : found.entity.versionsCollection ∈ names := hversions (by rw [hschema]; rfl)
    refine .ofExcept_bind fun access _ => ?_
    refine .ofExcept_bind fun selection _ => ?_
    refine .ofExcept_bind fun filter _ => ?_
    exact ((History.inStep_find_agreesOn hname _ _).mapError _).bind fun page _ => .pure trivial

/-! ### Writes to other entities -/

omit [PatternEngine] in
/-- Only versioned entities have a where-schema for versions. -/
theorem isVersioned_of_versionWhereSchema {kind : EntityKind} {e : Entity}
    (h : CompiledEntity.compile kind e = .ok c) (hschema : c.versionWhereSchema.isSome = true) :
    c.entity.isVersioned = true := by
  obtain ⟨schema, _, h⟩ := Except.bind_eq_ok_iff.1 h
  split at h
  · next hversioned =>
    obtain ⟨versions, _, h⟩ := Except.bind_eq_ok_iff.1 h
    cases h
    exact hversioned
  · cases h
    cases hschema

/-- **What is read of a collection has not changed:** the store has the same in its store collections,
and every read has the same outcome. -/
structure Unaffected (env : Surroundings) (s : Service) (c : CompiledEntity) (b b' : Backend) :
    Prop where
  stored : ∀ name ∈ c.storeNames,
    Table.get? name b'.store.collections = Table.get? name b.store.collections
  find : ∀ params,
    (Action.runOn env (s.find c.slug params) b').1 = (Action.runOn env (s.find c.slug params) b).1
  findById : ∀ id params, (Action.runOn env (s.findById c.slug id params) b').1 =
    (Action.runOn env (s.findById c.slug id params) b).1
  findVersions : ∀ params, (Action.runOn env (s.findVersions c.slug params) b').1 =
    (Action.runOn env (s.findVersions c.slug params) b).1

/-- Reads of a collection have the same outcome where its store collections are the same. -/
theorem unaffected_of_agreesOn {config : Config} {b b' : Backend}
    (hcompiles : Registry.Compiles .collection config.collections c.slug c)
    (hc : s.registry.collection c.slug = .ok c) (h : Backend.AgreesOn c.storeNames b b') :
    Unaffected env s c b b' := by
  have hslug : c.slug ∈ c.storeNames := by
    rw [CompiledEntity.storeNames, if_pos hcompiles.kind_eq]
    exact List.mem_cons_self
  have hversions (hversioned : c.entity.isVersioned = true) :
      c.entity.versionsCollection ∈ c.storeNames := by
    rw [CompiledEntity.storeNames, if_pos hversioned]
    exact List.mem_cons_of_mem _ (List.mem_singleton_self _)
  have hdrafts (hdrafts : c.entity.hasDrafts = true) :=
    hversions (Entity.isVersioned_of_hasDrafts hdrafts)
  refine ⟨h.held, fun params => ?_, fun id params => ?_, fun params => ?_⟩
  · exact (inStep_find_agreesOn hc hslug hdrafts params b b' h).1
  · exact (inStep_findById_agreesOn hc hslug hdrafts id params b b' h).1
  · obtain ⟨_, _, _, hcompile⟩ := hcompiles
    exact (inStep_findVersions_agreesOn hc (fun hschema =>
      hversions (isVersioned_of_versionWhereSchema hcompile hschema)) params b b' h).1

/-- **Entities live in store collections of their own,** unless a slug looks like the name for the
versions of another entity.  In a checked configuration the names of all store collections are different
from each other exactly if every collection keeps its own ones to itself; and a collection that does is
not affected by any request that writes to another entity, whether it succeeds or fails, on whatever
backend. -/
theorem entities_apart {config : Config} {registry : Registry} (hvalid : config.validate = .ok ())
    (hbuild : Registry.build config = .ok registry) :
    (((storeCollections registry).map (·.1)).Nodup ↔
      ∀ e ∈ config.collections, config.KeepsApart e) ∧
    ∀ (slug : String) (c : CompiledEntity), registry.collection slug = .ok c →
      config.KeepsApart c.entity →
      ∀ (request : WriteRequest) (other : CompiledEntity),
        request.entity (ofRegistry registry config) = .ok other → other ≠ c →
        ∀ (env : Surroundings) (b : Backend),
          Unaffected env (ofRegistry registry config) c b
            (Action.runOn env (request.run (ofRegistry registry config)) b).2 := by
  refine ⟨nodup_storeCollections_iff hvalid hbuild, ?_⟩
  intro slug c hc hapart request other hother hne env b
  have hcompiles := Registry.compiles_of_collection hbuild hc
  obtain ⟨hcollection, hcompilesOther⟩ :
      request.collection = (if other.kind = .collection then other.slug else globalsCollection) ∧
        (Registry.Compiles .collection config.collections other.slug other ∨
          Registry.Compiles .global config.globals other.slug other) := by
    cases request with
    | create slug' data params =>
      have hslug := Registry.compiles_of_collection hbuild hother
      rw [if_pos hslug.kind_eq, hslug.slug_eq]
      exact ⟨rfl, Or.inl hslug⟩
    | update slug' id patch params =>
      have hslug := Registry.compiles_of_collection hbuild hother
      rw [if_pos hslug.kind_eq, hslug.slug_eq]
      exact ⟨rfl, Or.inl hslug⟩
    | saveGlobal slug' data params =>
      have hslug := Registry.compiles_of_global hbuild hother
      rw [if_neg (by rw [hslug.kind_eq]; decide), hslug.slug_eq]
      exact ⟨rfl, Or.inr hslug⟩
  have hslug : c.slug = slug := hcompiles.slug_eq
  subst hslug
  refine unaffected_of_agreesOn hcompiles hc ⟨Process.refused_run env _ b, fun name hname => ?_⟩
  -- The other entity writes to its own documents and versions only.
  have hforeign := Config.notMem_storeNames hvalid hcompiles hapart hne hcompilesOther hname
  rw [CompiledEntity.storeNames, List.mem_cons, not_or] at hforeign
  have hkeeps : Action.Keeps env (Backend.Has name (Table.get? name b.store.collections))
      (request.run (ofRegistry registry config)) fun _ => True := by
    refine WriteRequest.keeps_has fun found hfound => ?_
    obtain rfl : found = other := Except.ok.inj (hfound.symm.trans hother)
    refine ⟨hcollection ▸ hforeign.1, fun hversioned heq => hforeign.2 ?_⟩
    rw [if_pos hversioned]
    exact List.mem_singleton.2 heq
  exact (hkeeps b rfl).1

end

/-! Poems with a history, beside another collection. -/

def poems : Entity :=
  { Entity.ofFields "poems" [Field.ofKind "title" .text] with
    versions := some ⟨false, Entity.defaultMaxPerDoc⟩ }

def poemsConfig (slug : String) : Config :=
  ⟨[poems, Entity.ofFields slug [Field.ofKind "name" .text]], [], none, .standard, .standard⟩

def poemsRegistry (slug : String) : Registry :=
  (Registry.build (poemsConfig slug)).toOption.getD ⟨[], []⟩

def poemsService (slug : String) : Service :=
  ofRegistry (poemsRegistry slug) (poemsConfig slug)

/-- A service for them that has just been started. -/
def poemsBackend (slug : String) : Backend :=
  (Action.runOn .backward (start (poemsRegistry slug) (poemsConfig slug)) .empty).2

/-- Writes a poem. -/
def poem : WriteRequest :=
  .create "poems" [("title", .str "On names")] ⟨false, none⟩

/-- How many documents the other collection has, before and after a poem is written. -/
def countBeside (slug : String) : Option Nat × Option Nat :=
  let count (b : Backend) : Option Nat :=
    (Action.runOn .backward ((poemsService slug).find slug ⟨none, [], none, none, false, none, none⟩)
      b).1.toOption.map (·.totalDocs)
  (count (poemsBackend slug),
    count (Action.runOn .backward (poem.run (poemsService slug)) (poemsBackend slug)).2)

/-- Tags are not affected by a poem. -/
theorem entities_apart_tags :
    ((storeCollections (poemsRegistry "tags")).map (·.1)).Nodup ∧
      ∃ c, (poemsRegistry "tags").collection "tags" = .ok c ∧
        Unaffected .backward (poemsService "tags") c (poemsBackend "tags")
          (Action.runOn .backward (poem.run (poemsService "tags")) (poemsBackend "tags")).2 := by
  have hbuild : Registry.build (poemsConfig "tags") = .ok (poemsRegistry "tags") := rfl
  have hapart : ∀ e ∈ (poemsConfig "tags").collections, (poemsConfig "tags").KeepsApart e :=
    List.forall_mem_cons.2 ⟨⟨by decide, by decide⟩,
      List.forall_mem_singleton.2 ⟨by decide, by decide⟩⟩
  have hvalid : (poemsConfig "tags").validate = .ok () := rfl
  obtain ⟨hnodup, hunaffected⟩ := entities_apart hvalid hbuild
  refine ⟨hnodup.2 hapart, ?_⟩
  obtain ⟨c, hc⟩ : ∃ c, (poemsRegistry "tags").collection "tags" = .ok c := ⟨_, rfl⟩
  obtain ⟨other, hother⟩ : ∃ other, (poemsRegistry "tags").collection "poems" = .ok other :=
    ⟨_, rfl⟩
  have hslug := (Registry.compiles_of_collection hbuild hc).slug_eq
  have hslugOther := (Registry.compiles_of_collection hbuild hother).slug_eq
  have hne : other ≠ c := by
    rintro rfl
    exact absurd (hslug.symm.trans hslugOther) (by decide)
  have hkept : (poemsConfig "tags").KeepsApart c.entity := by
    obtain ⟨e, he, _, hcompile⟩ := Registry.compiles_of_collection hbuild hc
    rw [(CompiledEntity.of_compile hcompile).1]
    exact hapart e he
  exact ⟨c, hc, hunaffected "tags" c hc hkept poem other hother hne .backward (poemsBackend "tags")⟩

/-- **A collection with the slug that the versions of poems are stored under has the version of a new
poem among its documents.** -/
theorem entities_not_apart :
    (poemsConfig "_poems_versions").validate = .ok () ∧
      Registry.build (poemsConfig "_poems_versions") = .ok (poemsRegistry "_poems_versions") ∧
      ¬ ((storeCollections (poemsRegistry "_poems_versions")).map (·.1)).Nodup ∧
      countBeside "_poems_versions" = (some 0, some 1) :=
  ⟨rfl, rfl, by decide +kernel, by decide +kernel⟩

end Service

end HeadlessCms
