import HeadlessCms.Store.Process

/-!
# Running actions on a backend

`Action.runOn` is the outcome of an action that runs alone: its result or error, and the backend it
leaves.  The lemmas take an action apart along its steps.  A step that succeeds hands its result and
its backend to the next one (`runOn_bind_ok`); a step that fails is the outcome of the whole
(`runOn_bind_error`).  A backend that refuses no method answers each call with the operation of the
store.
-/

namespace HeadlessCms

open Time (Instant)

/-! ### Readings of the clock -/

/-- No call takes a time back. -/
theorem Backend.taken_le_perform [PatternEngine] (env : Surroundings) (b : Backend) (c : Call) :
    b.clock.taken ≤ (b.perform env c).2.clock.taken := by
  cases c with
  | now => exact Nat.le_succ _
  | buildQuery | findOne | find => exact Nat.le_refl _
  | register | insert | update | deleteMany =>
    simp only [perform, change]
    split <;> exact Nat.le_refl _

/-- The readings that have been taken are never given back. -/
theorem Process.taken_le_run [PatternEngine]
    {α : Type} (env : Surroundings) (p : Process α) (b : Backend) :
    b.clock.taken ≤ (p.run env b).2.clock.taken := by
  induction p generalizing b with
  | done a => exact Nat.le_refl _
  | call c next ih => exact Nat.le_trans (b.taken_le_perform env c) (ih _ _)

/-- No call changes what a backend refuses. -/
theorem Backend.refused_perform [PatternEngine] (env : Surroundings) (b : Backend) (c : Call) :
    (b.perform env c).2.refused = b.refused := by
  cases c with
  | now | buildQuery | findOne | find => rfl
  | register | insert | update | deleteMany =>
    simp only [perform, change]
    split <;> rfl

/-- A process does not change which methods the backend refuses. -/
theorem Process.refused_run [PatternEngine]
    {α : Type} (env : Surroundings) (p : Process α) (b : Backend) :
    (p.run env b).2.refused = b.refused := by
  induction p generalizing b with
  | done a => rfl
  | call c next ih => exact (ih _ _).trans (b.refused_perform env c)

/-- A look-up that is answered leaves the backend alone. -/
theorem Backend.look_eq_ok {α : Type} {b b' : Backend} {m : Method}
    {operation : Store → Except StoreError α} {x : α} (h : b.look m operation = (.ok x, b')) :
    b' = b ∧ operation b.store = .ok x := by
  unfold Backend.look at h
  obtain ⟨hanswer, rfl⟩ := Prod.mk.inj h
  refine ⟨rfl, ?_⟩
  split at hanswer
  · cases hanswer
  · exact hanswer

/-- A look-up that is answered is not refused. -/
theorem Backend.not_refused_of_look {α : Type} {b b' : Backend} {m : Method}
    {operation : Store → Except StoreError α} {x : α} (h : b.look m operation = (.ok x, b')) :
    b.refused.contains m = false := by
  cases hrefused : b.refused.contains m with
  | false => rfl
  | true =>
    rw [Backend.look, hrefused] at h
    cases h

/-- A change that succeeds is the operation of the store. -/
theorem Backend.change_eq_ok {α : Type} {b b' : Backend} {m : Method}
    {operation : Store → Except StoreError α × Store} {x : α}
    (h : b.change m operation = (.ok x, b')) :
    operation b.store = (.ok x, b'.store) := by
  unfold Backend.change at h
  split at h
  · cases h
  · obtain ⟨hanswer, rfl⟩ := Prod.mk.inj h
    exact Prod.ext hanswer rfl

namespace Action

variable [PatternEngine] {ε δ α β : Type} {env : Surroundings} {b b' : Backend}

/-- The outcome of an action that runs alone on a backend. -/
def runOn (env : Surroundings) (a : Action ε α) (b : Backend) : Except ε α × Backend :=
  Process.run env (ExceptT.run a) b

/-- Times that have been taken stay taken. -/
theorem taken_le_runOn (env : Surroundings) (a : Action ε α) (b : Backend) :
    b.clock.taken ≤ (runOn env a b).2.clock.taken :=
  Process.taken_le_run env _ b

/-- An action that ends in some way does not change which methods the backend refuses. -/
theorem refused_of_runOn {a : Action ε α} {x : Except ε α} (h : runOn env a b = (x, b')) :
    b'.refused = b.refused := by
  have hrun : (runOn env a b).2.refused = b.refused := Process.refused_run env _ b
  rwa [h] at hrun

@[simp] theorem runOn_pure (x : α) : runOn env (pure x : Action ε α) b = (.ok x, b) := rfl

@[simp] theorem runOn_throw (e : ε) : runOn env (throw e : Action ε α) b = (.error e, b) := rfl

@[simp] theorem runOn_ofExcept (r : Except ε α) : runOn env (ofExcept r) b = (r, b) := rfl

/-- A result that is there is handed on, and the backend stays as it is. -/
theorem runOn_ofExcept_ok {r : Except ε α} {x : α} (h : r = .ok x) :
    runOn env (ofExcept r) b = (.ok x, b) := by
  rw [runOn_ofExcept, h]

/-- **A step that succeeds is followed by the next.** -/
theorem runOn_bind_ok {a : Action ε α} {x : α} (h : runOn env a b = (.ok x, b'))
    (f : α → Action ε β) : runOn env (a >>= f) b = runOn env (f x) b' := by
  have hrun : Process.run env (ExceptT.run a) b = (.ok x, b') := h
  simp only [runOn, ExceptT.run_bind, Process.bind_eq, Process.run_bind, hrun]

/-- **A step that fails is the last.** -/
theorem runOn_bind_error {a : Action ε α} {e : ε} (h : runOn env a b = (.error e, b'))
    (f : α → Action ε β) : runOn env (a >>= f) b = (.error e, b') := by
  have hrun : Process.run env (ExceptT.run a) b = (.error e, b') := h
  simp only [runOn, ExceptT.run_bind, Process.bind_eq, Process.run_bind, hrun]
  rfl

/-- A chain of steps that succeeds has passed each of them. -/
theorem of_runOn_bind {a : Action ε α} {f : α → Action ε β} {y : β} {b'' : Backend}
    (h : runOn env (a >>= f) b = (.ok y, b'')) :
    ∃ x b', runOn env a b = (.ok x, b') ∧ runOn env (f x) b' = (.ok y, b'') := by
  cases hfirst : runOn env a b with
  | mk result b' =>
    cases result with
    | error e =>
      rw [runOn_bind_error hfirst] at h
      cases h
    | ok x =>
      rw [runOn_bind_ok hfirst] at h
      exact ⟨x, b', rfl, h⟩

/-- A sequence that succeeds has succeeded in both of its parts. -/
theorem exists_of_runOn_bind {a : Action ε α} {f : α → Action ε β} {y : β}
    (h : (runOn env (a >>= f) b).1 = .ok y) :
    ∃ x b', runOn env a b = (.ok x, b') ∧ (runOn env (f x) b').1 = .ok y := by
  have hrun : runOn env (a >>= f) b = (.ok y, (runOn env (a >>= f) b).2) := Prod.ext h rfl
  obtain ⟨x, b', hfirst, hrest⟩ := of_runOn_bind hrun
  exact ⟨x, b', hfirst, congrArg Prod.fst hrest⟩

/-- **A list of steps that leave the backend alone.** -/
theorem runOn_mapM {f : α → Action ε β} {items : List α} {p : β → Prop}
    (h : ∀ x ∈ items, ∃ y, runOn env (f x) b = (.ok y, b) ∧ p y) :
    ∃ results, runOn env (items.mapM f) b = (.ok results, b) ∧ ∀ y ∈ results, p y := by
  induction items with
  | nil => exact ⟨[], by simp, by simp⟩
  | cons x rest ih =>
    obtain ⟨y, hx, hy⟩ := h x List.mem_cons_self
    obtain ⟨results, hrest, hresults⟩ := ih fun z hz => h z (List.mem_cons_of_mem _ hz)
    refine ⟨y :: results, ?_, List.forall_mem_cons.2 ⟨hy, hresults⟩⟩
    rw [List.mapM_cons, runOn_bind_ok hx, runOn_bind_ok hrest, runOn_pure]

/-- A chain that succeeds has passed its first result. -/
theorem of_runOn_ofExcept_bind {r : Except ε α} {f : α → Action ε β} {y : β} {b b' : Backend}
    (h : runOn env (ofExcept r >>= f) b = (.ok y, b')) :
    ∃ x, r = .ok x ∧ runOn env (f x) b = (.ok y, b') := by
  obtain ⟨x, b₁, hfirst, h⟩ := of_runOn_bind h
  obtain ⟨hr, rfl⟩ := Prod.mk.inj hfirst
  exact ⟨x, hr, h⟩

/-- Nothing is left by what comes after the last call. -/
theorem left_bind_pure (a : Action ε α) (x : β) :
    (runOn env (a >>= fun _ => pure x) b).2 = (runOn env a b).2 := by
  cases h : runOn env a b with
  | mk result b' =>
    cases result with
    | error e => rw [runOn_bind_error h]
    | ok y => rw [runOn_bind_ok h, runOn_pure]

/-- Renaming errors changes the answer only. -/
theorem runOn_mapError (f : ε → δ) (a : Action ε α) :
    runOn env (mapError f a) b = ((runOn env a b).1.mapError f, (runOn env a b).2) := by
  simp only [runOn, mapError, ExceptT.run_mk, Process.run_bind]
  rfl

/-- A success has no error to rename. -/
theorem runOn_mapError_ok {a : Action ε α} {x : α} (h : runOn env a b = (.ok x, b'))
    (f : ε → δ) : runOn env (mapError f a) b = (.ok x, b') := by
  rw [runOn_mapError, h]
  rfl

/-- What succeeds with its errors renamed succeeds without. -/
theorem runOn_of_mapError {a : Action ε α} {f : ε → δ} {x : α}
    (h : runOn env (mapError f a) b = (.ok x, b')) : runOn env a b = (.ok x, b') := by
  rw [runOn_mapError] at h
  obtain ⟨hresult, hleft⟩ := Prod.mk.inj h
  cases hrun : (runOn env a b).1 with
  | error e =>
    rw [hrun] at hresult
    cases hresult
  | ok y =>
    rw [hrun] at hresult
    cases hresult
    exact Prod.ext hrun hleft

/-- Taking a time moves the clock and nothing else. -/
theorem runOn_now :
    runOn env (now : Action ε Instant) b =
      (.ok (b.clock.next env.readings).1, { b with clock := (b.clock.next env.readings).2 }) := rfl

/-! ### Calls

Each call looks at the store or changes it, unless the backend refuses the method. -/

/-- Building a query looks at the store. -/
theorem look_buildQuery (name : String) (clause : Option Predicate) (locale : Option String)
    (b : Backend) : runOn env (buildQuery name clause locale) b =
      b.look .buildQuery fun s => s.buildQuery name clause locale := rfl

/-- Looking for one record looks at the store. -/
theorem look_findOne (q : Query) (options : FindOptions) (b : Backend) :
    runOn env (findOne q options) b = b.look .findOne fun s => s.findOne q options := rfl

/-- Looking for a page looks at the store. -/
theorem look_find (q : Query) (options : FindOptions) (pagination : Option Pagination) (b : Backend) :
    runOn env (find q options pagination) b =
      b.look .find fun s => s.find q options pagination := rfl

/-- Declaring a collection changes the store, and cannot fail there. -/
theorem change_register (name : String) (paths : List String) (b : Backend) :
    runOn env (register name paths) b =
      b.change .registerCollection fun s => (.ok (), s.register name paths) := rfl

/-- An insertion changes the store, with an id that is drawn from the surroundings. -/
theorem change_insert (name : String) (record : Record) (b : Backend) :
    runOn env (insert name record) b =
      b.change .insert fun s => s.insert env.ids name record := rfl

/-- An update changes the store. -/
theorem change_update (name id : String) (record : Record) (b : Backend) :
    runOn env (update name id record) b =
      b.change .update fun s => s.update name id record := rfl

/-- A deletion changes the store. -/
theorem change_deleteMany (q : Query) (b : Backend) :
    runOn env (deleteMany q) b = b.change .deleteMany fun s => s.deleteMany q := rfl

/-! ### Calls that are answered -/

/-- A query that has been built left the backend as it was. -/
theorem buildQuery_of_runOn {name : String} {clause : Option Predicate} {locale : Option String}
    {q : Query} (h : runOn env (buildQuery name clause locale) b = (.ok q, b')) :
    b' = b ∧ b.store.buildQuery name clause locale = .ok q := by
  rw [look_buildQuery] at h
  exact Backend.look_eq_ok h

/-- A record that has been looked for was found in the store as it was. -/
theorem findOne_of_runOn {q : Query} {options : FindOptions} {found : Option Record}
    (h : runOn env (findOne q options) b = (.ok found, b')) :
    b' = b ∧ b.store.findOne q options = .ok found := by
  rw [look_findOne] at h
  exact Backend.look_eq_ok h

/-- An insertion that succeeds has succeeded in the store. -/
theorem insert_of_runOn {name : String} {record shown : Record}
    (h : runOn env (insert name record) b = (.ok shown, b')) :
    b.store.insert env.ids name record = (.ok shown, b'.store) := by
  rw [change_insert] at h
  exact Backend.change_eq_ok h

/-- An update that succeeds has succeeded in the store. -/
theorem update_of_runOn {name id : String} {record shown : Record}
    (h : runOn env (update name id record) b = (.ok shown, b')) :
    b.store.update name id record = (.ok shown, b'.store) := by
  rw [change_update] at h
  exact Backend.change_eq_ok h

/-- A page that has been looked for was found in the store as it was. -/
theorem find_of_runOn {q : Query} {options : FindOptions} {pagination : Option Pagination}
    {page : Page Record} (h : runOn env (find q options pagination) b = (.ok page, b')) :
    b' = b ∧ b.store.find q options pagination = .ok page := by
  rw [look_find] at h
  exact Backend.look_eq_ok h

/-- A deletion that succeeds has succeeded in the store. -/
theorem deleteMany_of_runOn {q : Query} {n : Nat}
    (h : runOn env (deleteMany q) b = (.ok n, b')) :
    b.store.deleteMany q = (.ok n, b'.store) := by
  rw [change_deleteMany] at h
  exact Backend.change_eq_ok h

/-! ### Calls on a backend that refuses nothing -/

/-- A backend that refuses nothing declares collections as its store does. -/
theorem runOn_register (h : b.refused = []) (name : String) (paths : List String) :
    runOn env (register name paths) b =
      (.ok (), { b with store := b.store.register name paths }) := by
  rw [change_register]
  simp [Backend.change, h]

/-- A backend that refuses nothing builds queries as its store does. -/
theorem runOn_buildQuery (h : b.refused = []) (name : String) (clause : Option Predicate)
    (locale : Option String) :
    runOn env (buildQuery name clause locale) b = (b.store.buildQuery name clause locale, b) := by
  rw [look_buildQuery]
  simp [Backend.look, h]

/-- A backend that refuses nothing finds the record that its store finds. -/
theorem runOn_findOne (h : b.refused = []) (q : Query) (options : FindOptions) :
    runOn env (findOne q options) b = (b.store.findOne q options, b) := by
  rw [look_findOne]
  simp [Backend.look, h]

/-- A backend that refuses nothing finds the page that its store finds. -/
theorem runOn_find (h : b.refused = []) (q : Query) (options : FindOptions)
    (pagination : Option Pagination) :
    runOn env (find q options pagination) b = (b.store.find q options pagination, b) := by
  rw [look_find]
  simp [Backend.look, h]

/-- A backend that refuses nothing inserts as its store does. -/
theorem runOn_insert (h : b.refused = []) (name : String) (record : Record) :
    runOn env (insert name record) b =
      ((b.store.insert env.ids name record).1,
        { b with store := (b.store.insert env.ids name record).2 }) := by
  rw [change_insert]
  simp [Backend.change, h]

/-- A backend that refuses nothing updates as its store does. -/
theorem runOn_update (h : b.refused = []) (name id : String) (record : Record) :
    runOn env (update name id record) b =
      ((b.store.update name id record).1,
        { b with store := (b.store.update name id record).2 }) := by
  rw [change_update]
  simp [Backend.change, h]

/-- A backend that refuses nothing deletes as its store does. -/
theorem runOn_deleteMany (h : b.refused = []) (q : Query) :
    runOn env (deleteMany q) b =
      ((b.store.deleteMany q).1, { b with store := (b.store.deleteMany q).2 }) := by
  rw [change_deleteMany]
  simp [Backend.change, h]

end Action

end HeadlessCms
