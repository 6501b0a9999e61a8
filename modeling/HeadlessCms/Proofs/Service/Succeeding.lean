import HeadlessCms.Proofs.Service.Answering
import HeadlessCms.Proofs.Service.Listing
import HeadlessCms.Proofs.Store.Succeeding

/-!
# Documents can be created

To create a document is to draw an id for it, to store it, to leave a version of it and to delete the
versions that are too many.  Each of these steps succeeds on a backend that refuses nothing and declares
the collections of the entity, so every document can be created in every locale but the one that stands
for all of them (`Service.succeeds_save`).
-/

namespace HeadlessCms

open Time (Instant)

variable {env : Surroundings} {b b' : Backend}

/-- A backend on which collections can be written: it refuses nothing, its ids have been drawn, and the
collections are declared. -/
structure Backend.Serves (env : Surroundings) (names : List String) (b : Backend) : Prop where
  refused : b.refused = []
  drawn : b.store.Drawn env.ids
  declares : ∀ name ∈ names, b.store.Declares name

variable [PatternEngine]

namespace Backend.Serves

variable {names : List String}

/-- What an action leaves can be written if all its ids have been drawn. -/
theorem left (h : b.Serves env names) {ε α : Type} {a : Action ε α} {x : Except ε α}
    (hrun : Action.runOn env a b = (x, b')) (hdrawn : b'.store.Drawn env.ids) :
    b'.Serves env names := by
  refine ⟨(Action.refused_of_runOn hrun).trans h.refused, hdrawn, fun name hname => ?_⟩
  have hdeclared := (Action.keeps_declares env a b (h.declares name hname)).1
  rwa [hrun] at hdeclared

/-- A backend serves its collections after an insertion as well. -/
theorem insert (h : b.Serves env names) {name : String} {record shown : Record}
    (hid : Record.id? record = none)
    (hrun : Action.runOn env (Action.insert name record) b = (.ok shown, b')) :
    b'.Serves env names := by
  refine h.left hrun ?_
  have hdrawn := h.drawn.insert name hid
  rwa [Action.insert_of_runOn hrun] at hdrawn

end Backend.Serves

namespace History

variable {entity : Entity}

/-- The clause on the owner of versions can be decided on all records. -/
theorem evaluable_ownerClause (kind : EntityKind) (parent : Option String) :
    ∀ p ∈ ownerClause kind parent, ∀ k ∈ p.leaves, k.Evaluable := by
  intro p hp k hk
  unfold ownerClause at hp
  split at hp
  · cases hp
    obtain rfl := List.mem_singleton.1 hk
    trivial
  · cases hp

/-- **Old versions can be deleted.** -/
theorem succeeds_prune (hserving : b.refused = [])
    (hdeclared : b.store.Declares entity.versionsCollection) (kind : EntityKind)
    (parent : Option String) (max : Nat) :
    Action.Succeeds env (prune entity kind parent max) b := by
  obtain ⟨held, hheld⟩ := hdeclared
  have hquery (clause : Option Predicate) {q : Query} {b' : Backend}
      (h : Action.runOn env (Action.buildQuery entity.versionsCollection clause none) b = (.ok q, b')) :
      b' = b ∧ q = ⟨entity.versionsCollection,
        clause.map (·.mapPaths (Store.storedPath held.localizedPaths none)), none⟩ := by
    obtain ⟨hsame, hbuilt⟩ := Action.buildQuery_of_runOn h
    rw [Store.buildQuery_of_get? hheld] at hbuilt
    exact ⟨hsame, (Except.ok.inj hbuilt).symm⟩
  have hstored (clause : Option Predicate) (h : ∀ p ∈ clause, ∀ k ∈ p.leaves, k.Evaluable) :
      ∀ p ∈ clause.map (·.mapPaths (Store.storedPath held.localizedPaths none)), ∀ k ∈ p.leaves,
        k.Evaluable := by
    intro p hp
    obtain ⟨own, hown, rfl⟩ := Option.map_eq_some_iff.1 hp
    exact Predicate.evaluable_mapPaths (h own hown) _
  unfold prune
  refine (Action.succeeds_buildQuery hserving ⟨held, hheld⟩ _ _).bind fun q b₁ hq => ?_
  obtain ⟨rfl, rfl⟩ := hquery _ hq
  refine (Action.succeeds_find hserving ⟨held, hheld⟩
    (hstored _ (evaluable_ownerClause kind parent)) _ _).bind fun history b₂ hfound => ?_
  obtain ⟨rfl, -⟩ := Action.find_of_runOn hfound
  dsimp only
  split
  · exact .pure 0
  · refine (Action.succeeds_buildQuery hserving ⟨held, hheld⟩ _ _).bind fun q b₃ hq => ?_
    obtain ⟨rfl, rfl⟩ := hquery _ hq
    refine Action.succeeds_deleteMany hserving ⟨held, hheld⟩ (hstored (some _) fun p hp k hk => ?_)
    cases hp
    obtain rfl := List.mem_singleton.1 hk
    trivial

/-- **A version can be saved.** -/
theorem succeeds_save (hids : Function.Injective env.ids) {names : List String}
    (hserves : b.Serves env names) (hname : entity.versionsCollection ∈ names) {time : Instant}
    (htime : time.Storable) (kind : EntityKind) (parent : Option String) (data : Record)
    (status : Status) :
    Action.Succeeds env (save entity kind parent data status time) b := by
  have hid := id?_newRecord kind parent data status time
  unfold save
  refine (Action.succeeds_insert hserves.refused hids hserves.drawn (hserves.declares _ hname)
    hid).bind fun stored b₁ hinsert => ?_
  have hserves₁ := hserves.insert hid hinsert
  obtain ⟨own, -, -, -, -, rfl⟩ := Store.gains_of_insert (Action.insert_of_runOn hinsert)
  obtain ⟨version, hread⟩ :=
    exists_read_stamp htime kind parent data status own b.store.sequence 0
  refine (Action.Succeeds.ofExcept
    (congrArg (Except.mapError StoreError.mismatch) hread)).bind fun v b₂ hversion => ?_
  obtain ⟨-, rfl⟩ := Prod.mk.inj hversion
  cases entity.versions with
  | none => exact .pure v
  | some kept =>
    dsimp only
    split
    · exact (succeeds_prune hserves₁.refused (hserves₁.declares _ hname) kind parent _).bind
        fun _ _ _ => .pure v
    · exact .pure v

end History

namespace Service

variable {s : Service} {c : CompiledEntity} {collection : String} {names : List String}

/-- **A new document can be stored.** -/
theorem succeeds_store (hids : Function.Injective env.ids) (hserves : b.Serves env names)
    (hname : collection ∈ names) {draft : Bool} {createdAt updatedAt : Option Instant}
    {data : Record} (hdata : Record.IsBare data) (hcreated : ∀ t ∈ createdAt, t.Storable)
    (hupdated : ∀ t ∈ updatedAt, t.Storable) :
    Action.Succeeds env (store collection none draft createdAt updatedAt data) b := by
  have hstorable : Document.Restorable ⟨"", createdAt, updatedAt, data⟩ := ⟨hdata, hcreated⟩
  unfold store
  refine ((Action.succeeds_insert hserves.refused hids hserves.drawn (hserves.declares _ hname)
    (Record.id?_erase_id _)).mapError _).bind fun shown b₁ hinsert => ?_
  obtain ⟨own, -, -, -, -, rfl⟩ :=
    Store.gains_of_insert (Action.insert_of_runOn (Action.runOn_of_mapError hinsert))
  obtain ⟨saved, hread⟩ := hstorable.exists_read_stamp hupdated
    (fun key hkey => by rw [Table.get?_erase, if_neg hkey]) own b.store.sequence 0
  exact .ofExcept (congrArg (Except.mapError ServiceError.mismatch) hread)

/-- A backend serves its collections after a document has been stored. -/
theorem serves_of_store (hserves : b.Serves env names) {draft : Bool}
    {createdAt updatedAt : Option Instant} {data : Record} {saved : Document}
    (h : Action.runOn env (store collection none draft createdAt updatedAt data) b =
      (.ok saved, b')) : b'.Serves env names := by
  obtain ⟨shown, b₁, hinsert, hread⟩ := Action.of_runOn_bind h
  obtain ⟨-, rfl⟩ := Prod.mk.inj hread
  exact hserves.insert (Record.id?_erase_id _) (Action.runOn_of_mapError hinsert)

/-- A new document can be stored with its version. -/
theorem succeeds_stored (hids : Function.Injective env.ids) (hserves : b.Serves env names)
    (hname : collection ∈ names)
    (hversions : c.entity.isVersioned = true → c.entity.versionsCollection ∈ names) {draft : Bool}
    {createdAt updatedAt : Option Instant} {data : Record} {time : Instant}
    (hdata : Record.IsBare data) (hcreated : ∀ t ∈ createdAt, t.Storable)
    (hupdated : ∀ t ∈ updatedAt, t.Storable) (htime : time.Storable) (status : Status)
    (result : Document → Document) :
    Action.Succeeds env (do
      let saved ← store collection none draft createdAt updatedAt data
      if c.entity.isVersioned = true then do
        let _ ← onStore (History.save c.entity c.kind (some saved.id) saved.toRecord status time)
        pure (result saved)
      else pure (result saved)) b := by
  refine (succeeds_store hids hserves hname hdata hcreated hupdated).bind fun saved b₁ hstored => ?_
  have hserves₁ := serves_of_store hserves hstored
  split
  · next hversioned =>
    exact ((History.succeeds_save hids hserves₁ (hversions hversioned) htime _ _ _ _).mapError _).bind
      fun _ _ _ => .pure _
  · exact .pure _

/-- **A new document can be saved in every locale but the one that stands for all of them.** -/
theorem succeeds_save (hids : Function.Injective env.ids) (hserves : b.Serves env names)
    (hname : collection ∈ names)
    (hversions : c.entity.isVersioned = true → c.entity.versionsCollection ∈ names)
    {params : SaveParams} {selection : Option LocaleSelection}
    (hselect : s.selectLocale params.locale none = .ok selection)
    (hwrite : localeOf selection ≠ some allLocales)
    (htime : (b.clock.next env.readings).1.Storable) (data : Record) :
    Action.Succeeds env (s.save c collection none data params) b := by
  have hcontent : Record.IsBare (s.patched c selection (statusOf c params) [] data) :=
    isBare_patched (fun _ _ => rfl) data _
  have hstorable : ∀ t ∈ some (b.clock.next env.readings).1, t.Storable := by
    intro t ht
    cases ht
    exact htime
  have hnone : ∀ t ∈ (none : Option Instant), t.Storable := fun t ht => by cases ht
  have hserves' : Backend.Serves env names { b with clock := (b.clock.next env.readings).2 } :=
    ⟨hserves.refused, hserves.drawn, hserves.declares⟩
  have hbase (b : Backend) : Action.runOn env
      (baseOf c none (params.draft && c.entity.hasDrafts)) b = (.ok [], b) := rfl
  unfold save
  rw [Action.Succeeds, Action.runOn_bind_ok (Action.runOn_ofExcept_ok hselect), if_neg hwrite]
  dsimp only
  rw [Action.runOn_bind_ok Action.runOn_now, Action.runOn_bind_ok (hbase _)]
  split
  · exact succeeds_stored hids hserves' hname hversions hcontent hstorable hstorable htime _ _
  · exact succeeds_stored hids hserves' hname hversions hcontent hnone hnone htime _ _

end Service

end HeadlessCms
