import HeadlessCms.Proofs.Service.Failing

/-!
# When records were changed

A record that says when it was last changed names one of the times that the clock has handed out so far
(`Record.Dated`).  This holds of all records of all backends that are reached
(`Service.Reachable.dated`), in whatever collection they are, so nothing is stored that is later than
the document of a save that has just been made (`Service.lawful_save`).
-/

namespace HeadlessCms

open Time (Instant)

/-- A record that names as the time of its last change one of the first times of the clock, or does not
say when it was changed. -/
def Record.Dated (readings : Nat → Instant) (n : Nat) (r : Record) : Prop :=
  ∀ v, Table.get? "updatedAt" r = some v → ∃ i < n, v = .ofInstant (Clock.times readings i)

namespace Store

variable {readings : Nat → Instant} {slug : String} {n m : Nat} {s : Store}

/-- All records are dated, and the ids in one collection are the same in every locale. -/
def datedLaw (readings : Nat → Instant) (slug : String) (n : Nat) : Law where
  paths name paths := name = slug → "id" ∉ paths
  record _ r := r.Dated readings n

/-- What is dated stays so while the clock goes on. -/
theorem Obeys.later (h : s.Obeys (datedLaw readings slug n)) (hnm : n ≤ m) :
    s.Obeys (datedLaw readings slug m) := by
  intro name c hc
  obtain ⟨hpaths, hrecords⟩ := h name c hc
  refine ⟨hpaths, fun r hr v hv => ?_⟩
  obtain ⟨i, hi, heq⟩ := hrecords r hr v hv
  exact ⟨i, Nat.lt_of_lt_of_le hi hnm, heq⟩

/-- A record is dated by the time that it was made with. -/
theorem dated_stamp {id : String} {sequence revision : Nat} {record : Record} {time : Option Instant}
    (hget : Table.get? "updatedAt" record = time.map .ofInstant)
    (htime : ∀ t ∈ time, ∃ i < n, t = Clock.times readings i) :
    (stamp id sequence revision record).Dated readings n := by
  intro v hv
  rw [get?_stamp (by decide), if_neg (by decide), hget] at hv
  obtain ⟨t, ht, rfl⟩ := Option.map_eq_some_iff.1 hv
  obtain ⟨i, hi, rfl⟩ := htime t ht
  exact ⟨i, hi, rfl⟩

end Store

/-- A new version is dated to the time of its update. -/
theorem History.get?_updatedAt_newRecord (kind : EntityKind) (parent : Option String) (data : Record)
    (status : Status) (time : Instant) :
    Table.get? "updatedAt" (newRecord kind parent data status time) = some (.ofInstant time) := by
  cases kind <;> cases parent <;> rfl

/-- A backend whose records are dated by the times that its clock has handed out. -/
def Backend.Dated (env : Surroundings) (slug : String) (b : Backend) : Prop :=
  b.Lawful env (Store.datedLaw env.readings slug b.clock.taken)

namespace Service

variable {env : Surroundings} {s : Service} {c : CompiledEntity} {slug collection : String}
  {existing : Option Document} {selection : Option LocaleSelection} {n : Nat} {b : Backend}

/-! ### Saves -/

variable [PatternEngine]

/-- A document that is stored with a reading of the clock keeps the records dated. -/
theorem keeps_store_dated {draft : Bool} {createdAt updatedAt : Option Instant} {data : Record}
    (hdata : Record.IsBare data)
    (htime : ∀ t ∈ updatedAt, ∃ i < n, t = Clock.times env.readings i) :
    Action.Keeps env (Backend.Lawful env (Store.datedLaw env.readings slug n))
      (store collection existing draft createdAt updatedAt data) fun _ => True := by
  have hget (id : String) : Table.get? "updatedAt"
      (Document.toRecord ⟨id, createdAt, updatedAt, data⟩) = updatedAt.map .ofInstant :=
    Document.get?_updatedAt_toRecord hdata
  refine keeps_store_of_writes
    (fun id => .update fun sequence revision => Store.dated_stamp (hget id) htime)
    (.insert (Record.id?_erase_id _) fun k sequence => Store.dated_stamp ?_ htime)
  rw [Table.get?_erase, if_neg (by decide), hget]

/-- **A save that gets a time leaves dated records:** nothing is later than its own document. -/
theorem lawful_save {patch : Record} {params : SaveParams}
    (hselect : s.selectLocale params.locale none = .ok selection)
    (hwrite : localeOf selection ≠ some allLocales) (hb : b.Dated env slug)
    (hexisting : ∀ d ∈ existing, d.Restorable) :
    (Action.runOn env (s.save c collection existing patch params) b).2.Lawful env
      (Store.datedLaw env.readings slug (b.clock.taken + 1)) := by
  obtain ⟨hnext, hmoved⟩ := Backend.Lawful.next hb
  -- From here on the time of the save is one of the times that are allowed.
  have hnew : ∃ i < b.clock.taken + 1,
      (b.clock.next env.readings).1 = Clock.times env.readings i :=
    ⟨b.clock.taken, Nat.lt_succ_self _, hnext⟩
  have hversion : ∀ t ∈ some (b.clock.next env.readings).1, ∃ i < b.clock.taken + 1,
      t = Clock.times env.readings i := by
    intro t ht
    cases ht
    exact hnew
  exact left_save_of_steps hselect hwrite (D := fun _ => True)
    ⟨hmoved.store.later (Nat.le_succ _), hmoved.clock⟩ (keeps_baseOf_bare hexisting _)
    (fun base hbase => keeps_store_dated (isBare_patched hbase.1 patch _)
      (of_mem_timestamp fun _ => hnew))
    fun _ saved status _ => History.keeps_save_lawful fun k sequence =>
      Store.dated_stamp (History.get?_updatedAt_newRecord _ _ _ _ _) hversion

/-- A save keeps the records dated. -/
theorem keeps_save_dated (patch : Record) (params : SaveParams)
    (hexisting : ∀ d ∈ existing, d.Restorable) :
    Action.Keeps env (Backend.Dated env slug) (s.save c collection existing patch params)
      fun _ => True := by
  intro b hb
  refine ⟨?_, fun _ _ => trivial⟩
  rcases takes_time_or_idle env s c collection existing patch params with
    ⟨selection, hselect, hwrite⟩ | hidle
  · have hleft : (Action.runOn env (s.save c collection existing patch params) b).2.Lawful env
        (Store.datedLaw env.readings slug (b.clock.taken + 1)) :=
      lawful_save hselect hwrite hb hexisting
    obtain ⟨hstore, hclock⟩ := hleft
    exact ⟨hstore.later (taken_lt_save hselect hwrite), hclock⟩
  · rwa [hidle]

/-! ### Requests -/

variable {config : Config} {registry : Registry}

/-- **What the empty backend has, and starts and saves keep, is so on every backend that is reached.**
All requests that write are saves of a document that can be stored again, or of a new one. -/
theorem Reachable.invariant {I : Backend → Prop} (hreach : Reachable env registry config b)
    (hempty : I .empty) (hstart : Action.Keeps env I (start registry config) fun _ => True)
    (hsave : ∀ (c : CompiledEntity) (collection : String) (existing : Option Document),
      (∀ d ∈ existing, d.Restorable) → ∀ (patch : Record) (params : SaveParams),
        Action.Keeps env I ((ofRegistry registry config).save c collection existing patch params)
          fun _ => True)
    (hrefusing : ∀ (b : Backend) (methods : List Method), I b → I { b with refused := methods }) :
    I b := by
  have hrun (request : WriteRequest) :
      Action.Keeps env I (request.run (ofRegistry registry config)) fun _ => True :=
    WriteRequest.keeps_run fun c _ existing hexisting => hsave c _ existing hexisting _ _
  induction hreach with
  | empty => exact hempty
  | started _ ih => exact (hstart _ ih).1
  | @created _ _ slug data params _ ih =>
    exact Action.left_bind_pure _ () ▸ (hrun (.create slug data params) _ ih).1
  | @updated _ _ slug id patch params _ ih =>
    exact Action.left_bind_pure _ () ▸ (hrun (.update slug id patch params) _ ih).1
  | @savedGlobal _ _ slug data params _ ih =>
    exact Action.left_bind_pure _ () ▸ (hrun (.saveGlobal slug data params) _ ih).1
  | refusing _ methods ih => exact hrefusing _ methods ih

omit [PatternEngine] in
/-- The ids of a collection are declared without locales, if they are not localized. -/
theorem id_notMem_of_declared (hvalid : config.validate = .ok ())
    (hbuild : Registry.build config = .ok registry) (hc : registry.collection slug = .ok c)
    (hid : "id" ∉ c.localizedPaths) {paths : List String}
    (hmem : (slug, paths) ∈ storeCollections registry) : "id" ∉ paths := by
  have hcompiles := Registry.compiles_of_collection hbuild hc
  unfold storeCollections at hmem
  rw [List.mem_append, List.mem_append] at hmem
  rcases hmem with (hmem | hmem) | hmem
  · obtain ⟨other, hother, heq⟩ := List.mem_map.1 hmem
    obtain ⟨entry, hentry, rfl⟩ := List.mem_map.1 hother
    have hother := (Registry.compiles_of_mem hbuild).1 entry hentry
    obtain ⟨hslug, rfl⟩ := Prod.mk.inj heq
    rw [hother.slug_eq] at hslug
    have hsame : entry.2 = c := hcompiles.unique hvalid (hslug ▸ hother)
    rw [hsame]
    exact hid
  · rw [List.mem_singleton] at hmem
    obtain ⟨e, he, heq, _⟩ := hcompiles
    have hreserved := (Config.slugs_of_validate hvalid).2 e.slug
      (List.mem_map_of_mem (List.mem_append_left _ he))
    rw [← heq, (Prod.mk.inj hmem).1] at hreserved
    exact absurd (List.mem_singleton_self _) hreserved
  · obtain ⟨other, _, heq⟩ := List.mem_map.1 hmem
    obtain ⟨_, rfl⟩ := Prod.mk.inj heq
    intro hversion
    obtain ⟨path, _, hpath⟩ := List.mem_map.1 hversion
    have hhead := congrArg (fun s : String => s.toList.head?) hpath
    simp at hhead

/-- Starting the service keeps the records dated. -/
theorem keeps_start_dated (hvalid : config.validate = .ok ())
    (hbuild : Registry.build config = .ok registry) (hc : registry.collection slug = .ok c)
    (hid : "id" ∉ c.localizedPaths) :
    Action.Keeps env (Backend.Dated env slug) (start registry config) fun _ => True := by
  intro b hb
  have hstart : Action.Keeps env
      (Backend.Lawful env (Store.datedLaw env.readings slug b.clock.taken))
      (start registry config) fun _ => True :=
    ((keeps_declare fun name paths hmem hname =>
      id_notMem_of_declared hvalid hbuild hc hid (hname ▸ hmem)).mapError _).bind fun _ _ =>
        .pure trivial
  obtain ⟨hstore, hclock⟩ := (hstart b hb).1
  exact ⟨⟨hstore.later (Action.taken_le_runOn env _ b), hclock⟩, fun _ _ => trivial⟩

/-- **On every backend that is reached the records are dated.** -/
theorem Reachable.dated (hvalid : config.validate = .ok ())
    (hbuild : Registry.build config = .ok registry) (hc : registry.collection slug = .ok c)
    (hid : "id" ∉ c.localizedPaths) (hreach : Reachable env registry config b) :
    b.Dated env slug := by
  refine hreach.invariant ⟨Store.obeys_empty _, 0, rfl⟩
    (keeps_start_dated hvalid hbuild hc hid) ?_ fun b methods hb => ⟨hb.store, hb.clock⟩
  exact fun _ _ _ hexisting patch params => keeps_save_dated patch params hexisting

end Service

end HeadlessCms
