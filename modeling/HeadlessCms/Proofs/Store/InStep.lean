import HeadlessCms.Proofs.Store.Mirroring
import HeadlessCms.Proofs.Store.Upkeep

/-!
# One action on two backends

An action goes in step on two backends that are related if it has the same outcome on both and leaves
them related (`Action.InStep`).  As with what an action keeps, this goes through the action step by step
(`Action.InStep.bind`).  Keeping an invariant is going in step with oneself
(`Action.Keeps.inStep`, `Action.InStep.keeps`), so what is shown of a long action for any relation holds
for invariants, too.

The calls of the store go in step on a backend and on a mirror of it (`Backend.Abreast`).
-/

namespace HeadlessCms

open Time (Instant)

variable [PatternEngine]

namespace Action

variable {ε δ α β : Type} {env : Surroundings} {R : Backend → Backend → Prop} {I : Backend → Prop}
  {P P' : α → Prop} {Q : β → Prop}

/-- An action has the same outcome on related backends and leaves them related, and its results have a
property. -/
def InStep (env : Surroundings) (R : Backend → Backend → Prop) (a : Action ε α) (P : α → Prop) :
    Prop :=
  ∀ b m, R b m → (runOn env a m).1 = (runOn env a b).1 ∧ R (runOn env a b).2 (runOn env a m).2 ∧
    ∀ x, (runOn env a b).1 = .ok x → P x

/-- Keeping an invariant is going in step with oneself. -/
theorem Keeps.inStep {a : Action ε α} (h : Keeps env I a P) :
    InStep env (fun b m => m = b ∧ I b) a P := by
  rintro b m ⟨rfl, hb⟩
  obtain ⟨hkept, hresult⟩ := h m hb
  exact ⟨rfl, ⟨rfl, hkept⟩, hresult⟩

namespace InStep

/-- An action that stays in step with itself keeps the invariant. -/
theorem keeps {a : Action ε α} (h : InStep env (fun b m => m = b ∧ I b) a P) : Keeps env I a P := by
  intro b hb
  obtain ⟨_, ⟨_, hkept⟩, hresult⟩ := h b b ⟨rfl, hb⟩
  exact ⟨hkept, hresult⟩

/-- What an action keeps of the first backend it keeps while it goes in step. -/
theorem and_keeps {a : Action ε α} (h : InStep env R a P) (hkeeps : Keeps env I a P') :
    InStep env (fun b m => R b m ∧ I b) a fun x => P x ∧ P' x := by
  rintro b m ⟨hbm, hb⟩
  obtain ⟨hsame, hrelated, hresult⟩ := h b m hbm
  obtain ⟨hkept, hresult'⟩ := hkeeps b hb
  exact ⟨hsame, ⟨hrelated, hkept⟩, fun x hx => ⟨hresult x hx, hresult' x hx⟩⟩

/-- What is known of results from an invariant of the first backend. -/
theorem and_results {a : Action ε α} (h : InStep env R a P) (hkeeps : Keeps env I a P')
    (hR : ∀ b m, R b m → I b) : InStep env R a fun x => P x ∧ P' x := by
  intro b m hbm
  obtain ⟨hsame, hrelated, hresult⟩ := h b m hbm
  exact ⟨hsame, hrelated, fun x hx => ⟨hresult x hx, (hkeeps b (hR b m hbm)).2 x hx⟩⟩

theorem imp {a : Action ε α} (h : InStep env R a P) (hP : ∀ x, P x → P' x) : InStep env R a P' :=
  fun b m hbm => ⟨(h b m hbm).1, (h b m hbm).2.1, fun x hx => hP x ((h b m hbm).2.2 x hx)⟩

theorem pure {x : α} (h : P x) : InStep env R (pure x : Action ε α) P := by
  intro b m hbm
  refine ⟨rfl, hbm, fun y hy => ?_⟩
  cases hy
  exact h

theorem throw (e : ε) : InStep env R (throw e : Action ε α) P := by
  intro b m hbm
  refine ⟨rfl, hbm, fun y hy => ?_⟩
  cases hy

theorem ofExcept {r : Except ε α} (h : ∀ x, r = .ok x → P x) :
    InStep env R (Action.ofExcept r) P :=
  fun _ _ hbm => ⟨rfl, hbm, h⟩

/-- **One step after the other.** -/
theorem bind {a : Action ε α} {f : α → Action ε β} (ha : InStep env R a P)
    (hf : ∀ x, P x → InStep env R (f x) Q) : InStep env R (a >>= f) Q := by
  intro b m hbm
  obtain ⟨hsame, hrelated, hresult⟩ := ha b m hbm
  cases hb : runOn env a b with
  | mk result b' =>
    cases hm : runOn env a m with
    | mk result' m' =>
      rw [hb, hm] at hsame hrelated
      rw [hb] at hresult
      cases hsame
      cases result with
      | error e =>
        rw [runOn_bind_error hb, runOn_bind_error hm]
        refine ⟨rfl, hrelated, fun y hy => ?_⟩
        cases hy
      | ok x =>
        rw [runOn_bind_ok hb, runOn_bind_ok hm]
        exact hf x (hresult x rfl) b' m' hrelated

theorem ofExcept_bind {r : Except ε α} {f : α → Action ε β}
    (h : ∀ x, r = .ok x → InStep env R (f x) Q) : InStep env R (Action.ofExcept r >>= f) Q :=
  (ofExcept fun _ hx => hx).bind h

theorem mapError {a : Action ε α} (h : InStep env R a P) (f : ε → δ) :
    InStep env R (Action.mapError f a) P := by
  intro b m hbm
  obtain ⟨hsame, hrelated, hresult⟩ := h b m hbm
  rw [runOn_mapError, runOn_mapError, hsame]
  exact ⟨rfl, hrelated, fun x hx => hresult x (Except.mapError_eq_ok_iff.1 hx)⟩

end InStep

/-! ### What a mirror does not show -/

namespace Keeps

variable {v : View} {m : Store} {name id : String} {record : Record}

/-- Reading the clock on one side only leaves the mirror as it is. -/
theorem now_other :
    Keeps env (fun b => b.store.Mirrors v m) (Action.now : Action ε Instant) fun _ => True :=
  .now_store (Store.Mirrors v · m)

/-- Inserting a record that the mirror does not show leaves the mirror as it is. -/
theorem insert_other (hid : Record.id? record = none) (hown : v.shows name → ∀ n sequence,
      v.own name (Store.stamp (env.ids n) sequence 0 record) = false) :
    Keeps env (fun b => b.store.Mirrors v m) (Action.insert name record) fun _ => True :=
  .insert_store fun s (hs : s.Mirrors v m) => hs.insert_other hid hown

/-- Updating a record that the mirror does not have, by one that it does not show, leaves it as it
is. -/
theorem update_other (hname : v.shows name) (hid : ∀ r ∈ m.recordsOf name, Record.id? r ≠ some id)
    (hown : ∀ sequence revision, v.own name (Store.stamp id sequence revision record) = false) :
    Keeps env (fun b => b.store.Mirrors v m) (Action.update name id record) fun _ => True :=
  .update_store fun s (hs : s.Mirrors v m) => hs.update_other hname hid hown

/-- Deleting in a collection that the mirror does not show leaves it as it is. -/
theorem deleteMany_other {q : Query} (hname : ¬ v.shows q.collection) :
    Keeps env (fun b => b.store.Mirrors v m) (Action.deleteMany q) fun _ => True :=
  .deleteMany_store fun s (hs : s.Mirrors v m) => hs.deleteMany_other hname

end Keeps

end Action

/-! ### A backend and its mirror -/

/-- Two backends that refuse nothing, one of which mirrors the other, and that have the same ids and
times ahead of them. -/
structure Backend.Abreast (env : Surroundings) (v : View) (rest : String → List Record)
    (b m : Backend) : Prop where
  serving : b.refused = []
  mirrorServing : m.refused = []
  clock : m.clock = b.clock
  store : b.store.Abreast env.ids v rest m.store

namespace Action

namespace InStep

variable {ε : Type} {env : Surroundings} {v : View} {rest : String → List Record} {name : String}

/-- Both sides read their clocks, which show the same. -/
theorem now : InStep env (Backend.Abreast env v rest) (Action.now : Action ε Instant)
    fun _ => True := by
  intro b m h
  rw [runOn_now, runOn_now, h.clock]
  exact ⟨rfl, ⟨h.serving, h.mirrorServing, rfl, h.store⟩, fun _ _ => trivial⟩

/-- A query is built on the same paths. -/
theorem buildQuery {clause : Option Predicate} {locale : Option String} (hname : v.shows name)
    (hpaths : ∀ p ∈ clause, p.mapPaths (Store.storedPath (v.mirrorPaths name) locale) =
      p.mapPaths (Store.storedPath (v.paths name) locale)) :
    InStep env (Backend.Abreast env v rest) (Action.buildQuery name clause locale) fun q =>
      q = ⟨name, clause.map (·.mapPaths (Store.storedPath (v.paths name) locale)), locale⟩ := by
  intro b m h
  rw [runOn_buildQuery h.serving, runOn_buildQuery h.mirrorServing,
    h.store.buildQuery hname hpaths]
  refine ⟨rfl, h, fun q hq => ?_⟩
  obtain ⟨records, _, hheld, _⟩ := h.store.held name hname
  rw [Store.buildQuery_of_get? hheld] at hq
  exact (Except.ok.inj hq).symm

variable {q : Query} {options : FindOptions}

/-- Both sides find the same record, if no key sorts by the numbers. -/
theorem findOne (hq : q.Mirrored v rest) (hlean : options.lean = false)
    (hkeys : ∀ key ∈ options.sort, (Path.segments key.path).head? ≠ some Record.sequenceField) :
    InStep env (Backend.Abreast env v rest) (Action.findOne q options) fun _ => True := by
  intro b m h
  rw [runOn_findOne h.serving, runOn_findOne h.mirrorServing]
  exact ⟨h.store.findOne hq hlean hkeys, h, fun _ _ => trivial⟩

/-- A record that is found with what the store keeps in it, if only the rest of it matters. -/
theorem findOne_bind {β : Type} {Q : β → Prop} {f : Option Record → Action StoreError β}
    (hq : q.Mirrored v rest)
    (hkeys : ∀ key ∈ options.sort, (Path.segments key.path).head? ≠ some Record.sequenceField)
    (hf : ∀ found, f found = f (found.map Record.sanitize))
    (hstep : ∀ found, InStep env (Backend.Abreast env v rest) (f found) Q) :
    InStep env (Backend.Abreast env v rest) (Action.findOne q options >>= f) Q := by
  intro b m h
  have hfind (b : Backend) (hserving : b.refused = []) :
      runOn env (Action.findOne q options >>= f) b =
        runOn env (Action.ofExcept ((b.store.findOne q options).map (Option.map Record.sanitize))
          >>= f) b := by
    have hcall : runOn env (Action.findOne q options) b = (b.store.findOne q options, b) :=
      runOn_findOne hserving q options
    cases hfound : b.store.findOne q options with
    | error e =>
      rw [hfound] at hcall
      rw [runOn_bind_error hcall]
      exact (runOn_bind_error (runOn_ofExcept _) _).symm
    | ok found =>
      rw [hfound] at hcall
      rw [runOn_bind_ok hcall, hf found]
      exact (runOn_bind_ok (runOn_ofExcept _) _).symm
  rw [hfind b h.serving, hfind m h.mirrorServing, h.store.findOne_shown hq hkeys]
  exact ofExcept_bind (fun found _ => hstep found) b m h

/-- Both sides find the same page, if no key sorts by the numbers and the total is counted. -/
theorem find (hq : q.Mirrored v rest) (hlean : options.lean = false)
    (hexact : options.estimatedCount = false)
    (hkeys : ∀ key ∈ options.sort, (Path.segments key.path).head? ≠ some Record.sequenceField)
    (pagination : Option Pagination) :
    InStep env (Backend.Abreast env v rest) (Action.find q options pagination) fun _ => True := by
  intro b m h
  rw [runOn_find h.serving, runOn_find h.mirrorServing]
  exact ⟨h.store.find hq hlean hexact hkeys pagination, h, fun _ _ => trivial⟩

variable {record : Record}

/-- Both sides insert a record that the mirror shows, under the same id. -/
theorem insert (hids : Function.Injective env.ids) (hname : v.shows name)
    (hrecord : Table.Ascending record) (hid : Record.id? record = none)
    (hown : ∀ n sequence, v.own name (Store.stamp (env.ids n) sequence 0 record) = true) :
    InStep env (Backend.Abreast env v rest) (Action.insert name record) fun _ => True := by
  intro b m h
  rw [runOn_insert h.serving, runOn_insert h.mirrorServing]
  obtain ⟨hsame, hstore⟩ := h.store.insert hids hname hrecord hid (hown _)
  exact ⟨hsame, ⟨h.serving, h.mirrorServing, h.clock, hstore⟩, fun _ _ => trivial⟩

/-- Both sides update a record that the mirror shows. -/
theorem update {id : String} (hname : v.shows name) (hrecord : Table.Ascending record)
    (hid : ∀ r ∈ rest name, Record.id? r ≠ some id)
    (hown : ∀ sequence revision, v.own name (Store.stamp id sequence revision record) = true) :
    InStep env (Backend.Abreast env v rest) (Action.update name id record) fun _ => True := by
  intro b m h
  rw [runOn_update h.serving, runOn_update h.mirrorServing]
  obtain ⟨hsame, hstore⟩ := h.store.update hname hrecord hid hown
  exact ⟨hsame, ⟨h.serving, h.mirrorServing, h.clock, hstore⟩, fun _ _ => trivial⟩

/-- Both sides delete in a collection that is shown as a whole, by a clause that does not ask for
numbers. -/
theorem deleteMany (hname : v.shows q.collection) (hall : ∀ r, v.own q.collection r = true)
    (hfilter : ∀ p ∈ q.filter, p.IgnoresNumbers) :
    InStep env (Backend.Abreast env v rest) (Action.deleteMany q) fun _ => True := by
  intro b m h
  rw [runOn_deleteMany h.serving, runOn_deleteMany h.mirrorServing]
  obtain ⟨hsame, hstore⟩ := h.store.deleteMany hname hall hfilter
  exact ⟨hsame, ⟨h.serving, h.mirrorServing, h.clock, hstore⟩, fun _ _ => trivial⟩

end InStep

end Action

end HeadlessCms
