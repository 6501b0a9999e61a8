import HeadlessCms.Proofs.Store.InStep

/-!
# Which collections a call touches

A call that changes a collection leaves all others as they are (`Store.sameBut_insert` and so on), and
what a call answers depends on the collection that it is about and on what the backend refuses.  So an
action keeps the collections that it does not write to, and it has the same outcome on two backends that
agree on the collections that it reads (`Backend.AgreesOn`).  No call takes a collection away
(`Backend.declares_perform`).
-/

namespace HeadlessCms

namespace Store

/-- An insertion changes one collection at most. -/
theorem sameBut_insert (ids : Nat → String) (s : Store) (name : String) (record : Record) :
    SameBut name s (s.insert ids name record).2 := by
  unfold insert
  split
  · exact .refl name s
  · next c _ =>
    cases Record.id? record with
    | some own =>
      dsimp only
      split
      · exact .refl name s
      · exact sameBut_withRecords s name c _
    | none =>
      dsimp only
      split
      · exact .refl name s
      · exact sameBut_withRecords { s with drawn := s.drawn + 1 } name c _

/-- An update changes one collection only. -/
theorem sameBut_update (s : Store) (name id : String) (record : Record) :
    SameBut name s (s.update name id record).2 := by
  unfold update
  split
  · exact .refl name s
  · next c _ =>
    split
    · exact .refl name s
    · exact sameBut_withRecords s name c _

/-- A deletion changes one collection only. -/
theorem sameBut_deleteMany [PatternEngine] (s : Store) (q : Query) :
    SameBut q.collection s (s.deleteMany q).2 := by
  unfold deleteMany
  split
  · exact .refl q.collection s
  · next c _ =>
    split
    · exact .refl q.collection s
    · exact sameBut_withRecords s q.collection c _

/-! ### Collections stay declared -/

/-- There is a collection with a name. -/
def Declares (s : Store) (name : String) : Prop :=
  ∃ held, Table.get? name s.collections = some held

variable {s : Store} {name : String}

/-- Putting in a collection takes no declaration away. -/
theorem Declares.insert_collection (h : s.Declares name) (other : String) (c : Collection) :
    Declares { s with collections := Table.insert other c s.collections } name := by
  unfold Declares
  rw [Table.get?_insert]
  split
  · exact ⟨c, rfl⟩
  · exact h

/-- An insertion takes no declaration away. -/
theorem Declares.insert (h : s.Declares name) (ids : Nat → String) (other : String)
    (record : Record) : (s.insert ids other record).2.Declares name := by
  unfold Store.insert
  split
  · exact h
  · cases Record.id? record with
    | some own =>
      dsimp only
      split
      · exact h
      · exact h.insert_collection _ _
    | none =>
      dsimp only
      split
      · exact h
      · exact h.insert_collection _ _

/-- An update takes no declaration away. -/
theorem Declares.update (h : s.Declares name) (other id : String) (record : Record) :
    (s.update other id record).2.Declares name := by
  unfold Store.update
  split
  · exact h
  · split
    · exact h
    · exact h.insert_collection _ _

/-- A deletion takes no declaration away. -/
theorem Declares.deleteMany [PatternEngine] (h : s.Declares name) (q : Query) :
    (s.deleteMany q).2.Declares name := by
  unfold Store.deleteMany
  split
  · exact h
  · split
    · exact h
    · exact h.insert_collection _ _

end Store

variable [PatternEngine]

/-- No call takes a collection away. -/
theorem Backend.declares_perform {name : String} (env : Surroundings) {b : Backend}
    (h : b.store.Declares name) (c : Call) : (b.perform env c).2.store.Declares name :=
  Store.keeps_perform (I := (Store.Declares · name)) h
    (fun _ other _ hs => hs.insert_collection other _)
    (fun _ other record hs => hs.insert env.ids other record)
    (fun _ other id record hs => hs.update other id record) (fun _ q hs => hs.deleteMany q) c

/-- What is declared stays so whatever a process does. -/
theorem Process.declares_run {α : Type} {name : String} (env : Surroundings) (p : Process α)
    {b : Backend} (h : b.store.Declares name) : (p.run env b).2.store.Declares name := by
  induction p generalizing b with
  | done a => exact h
  | call c next ih => exact ih _ (b.declares_perform env h c)

/-- What is declared stays so whatever an action does. -/
theorem Action.keeps_declares {ε α : Type} {name : String} (env : Surroundings) (a : Action ε α) :
    Keeps env (·.store.Declares name) a fun _ => True :=
  fun _ hb => ⟨Process.declares_run env (ExceptT.run a) hb, fun _ _ => trivial⟩

/-- A collection of a backend is this one, or there is none. -/
def Backend.Has (name : String) (held : Option Collection) (b : Backend) : Prop :=
  Table.get? name b.store.collections = held

/-- Two backends refuse the same and have the same collections under some names. -/
structure Backend.AgreesOn (names : List String) (b b' : Backend) : Prop where
  refused : b'.refused = b.refused
  held : ∀ name ∈ names,
    Table.get? name b'.store.collections = Table.get? name b.store.collections

namespace Action

variable {ε α β : Type} {env : Surroundings} {name other id : String} {held : Option Collection}
  {record : Record}

/-! ### Calls on other collections -/

namespace Keeps

/-- Reading the clock leaves a collection as it is. -/
theorem now_has : Keeps env (Backend.Has name held) (Action.now : Action ε Time.Instant)
    fun _ => True :=
  .now_store fun s => Table.get? name s.collections = held

/-- An insertion elsewhere leaves a collection as it is. -/
theorem insert_has (h : name ≠ other) :
    Keeps env (Backend.Has name held) (Action.insert other record) fun _ => True :=
  .insert_store fun s hs => (s.sameBut_insert env.ids other record name h).trans hs

/-- An update elsewhere leaves a collection as it is. -/
theorem update_has (h : name ≠ other) :
    Keeps env (Backend.Has name held) (Action.update other id record) fun _ => True :=
  .update_store fun s hs => (s.sameBut_update other id record name h).trans hs

/-- A deletion elsewhere leaves a collection as it is. -/
theorem deleteMany_has {q : Query} (h : name ≠ q.collection) :
    Keeps env (Backend.Has name held) (Action.deleteMany q) fun _ => True :=
  .deleteMany_store fun s hs => (s.sameBut_deleteMany q name h).trans hs

end Keeps

/-! ### Look-ups on backends that agree -/

namespace InStep

variable {R : Backend → Backend → Prop} {P : α → Prop} {Q : β → Prop} {names : List String}

/-- A call that only looks at the store. -/
theorem of_look {a : Action StoreError α} {m : Method} {look : Store → Except StoreError α}
    (hcall : ∀ b, runOn env a b = b.look m look)
    (hlook : ∀ b b', R b b' → b'.refused = b.refused ∧ look b'.store = look b.store)
    (hP : ∀ (b : Backend) x, look b.store = .ok x → P x) : InStep env R a P := by
  intro b b' hbb'
  obtain ⟨hrefused, hsame⟩ := hlook b b' hbb'
  rw [hcall b, hcall b']
  unfold Backend.look
  dsimp only
  rw [hrefused, hsame]
  refine ⟨rfl, hbb', fun x hx => ?_⟩
  split at hx
  · cases hx
  · exact hP b x hx

/-- A traversal stays in step if each of its steps does. -/
theorem mapM {f : α → Action ε β} {items : List α} (h : ∀ x ∈ items, InStep env R (f x) Q) :
    InStep env R (items.mapM f) fun _ => True := by
  induction items with
  | nil =>
    rw [List.mapM_nil]
    exact .pure trivial
  | cons x rest ih =>
    rw [List.mapM_cons]
    refine (h x List.mem_cons_self).bind fun y _ => ?_
    refine (ih fun z hz => h z (List.mem_cons_of_mem _ hz)).bind fun results _ => ?_
    exact .pure trivial

/-- Backends that agree on a collection build the same queries on it. -/
theorem buildQuery_agreesOn (hname : name ∈ names) (clause : Option Predicate)
    (locale : Option String) :
    InStep env (Backend.AgreesOn names) (Action.buildQuery name clause locale) fun q =>
      q.collection = name := by
  refine of_look (look_buildQuery name clause locale) (fun b b' h => ⟨h.refused, ?_⟩) fun b q hq => ?_
  · rw [Store.buildQuery, Store.buildQuery, Store.collection?, Store.collection?, h.held name hname]
  · obtain ⟨_, _, hq⟩ := Except.bind_eq_ok_iff.1 hq
    cases hq
    rfl

/-- Backends that agree on a collection find the same record in it. -/
theorem findOne_agreesOn {q : Query} (hname : q.collection ∈ names) (options : FindOptions) :
    InStep env (Backend.AgreesOn names) (Action.findOne q options) fun _ => True := by
  refine of_look (look_findOne q options) (fun b b' h => ⟨h.refused, ?_⟩) fun _ _ _ => trivial
  rw [Store.findOne, Store.findOne, Store.collection?, Store.collection?, h.held _ hname]

/-- Backends that agree on a collection find the same page of it. -/
theorem find_agreesOn {q : Query} (hname : q.collection ∈ names) (options : FindOptions)
    (pagination : Option Pagination) :
    InStep env (Backend.AgreesOn names) (Action.find q options pagination) fun _ => True := by
  refine of_look (look_find q options pagination) (fun b b' h => ⟨h.refused, ?_⟩) fun _ _ _ => trivial
  rw [Store.find, Store.find, Store.collection?, Store.collection?, h.held _ hname]

end InStep

end Action

end HeadlessCms
