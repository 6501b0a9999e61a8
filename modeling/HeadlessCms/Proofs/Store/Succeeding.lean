import HeadlessCms.Proofs.Query.Operands
import HeadlessCms.Proofs.Store.Drawing
import HeadlessCms.Proofs.Store.Touching

/-!
# Calls that succeed

On a backend that refuses nothing, calls on collections that are declared do not fail, as long as the
operands of their filters have the form of the operators and no id is drawn twice.  Which actions
succeed follows step by step (`Action.Succeeds.bind`).
-/

namespace HeadlessCms

variable [PatternEngine]

/-- A clause of which all constraints can be decided is decided on every record. -/
theorem Predicate.exists_holds_of_evaluable {p : Predicate} (h : ∀ k ∈ p.leaves, k.Evaluable)
    (record : Record) : ∃ b, p.holds record = .ok b := by
  cases hp : p.holds record with
  | ok b => exact ⟨b, rfl⟩
  | error e =>
    obtain ⟨k, hreach, hbad, -⟩ := (p.holds_eq_error_iff record e).1 hp
    exact absurd (h k hreach.mem_leaves) hbad

namespace Store

variable {s : Store}

/-- Where a clause can be decided on all records, it is known what remains. -/
theorem exists_remaining {filter : Option Predicate} {records : List Record}
    (h : ∀ r ∈ records, ∃ b, Predicate.holdsFor filter r = .ok b) :
    ∃ kept, remaining filter records = .ok kept := by
  induction records with
  | nil => exact ⟨[], rfl⟩
  | cons r rest ih =>
    obtain ⟨⟨doomed, hr⟩, hrest⟩ := List.forall_mem_cons.1 h
    obtain ⟨kept, hkept⟩ := ih hrest
    refine ⟨if doomed then kept else r :: kept, ?_⟩
    rw [remaining, hr, hkept]
    rfl

omit [PatternEngine] in
/-- Ids that have not been drawn are not taken. -/
theorem exists_insert {ids : Nat → String} (hids : Function.Injective ids) (hdrawn : s.Drawn ids)
    {name : String} (hdeclared : s.Declares name) {record : Record}
    (hid : Record.id? record = none) :
    ∃ shown, (s.insert ids name record).1 = .ok shown := by
  obtain ⟨c, hc⟩ := hdeclared
  have hfresh : ¬ c.records.any (Record.id? · == some (ids s.drawn)) = true := by
    rw [List.any_eq_true]
    rintro ⟨r, hr, htaken⟩
    obtain ⟨k, hk, hown⟩ := hdrawn name r (recordsOf_of_get? hc ▸ hr)
    have hsame : ids k = ids s.drawn :=
      Option.some.inj (hown.symm.trans (beq_iff_eq.1 htaken))
    exact absurd (hids hsame) (Nat.ne_of_lt hk)
  rw [insert_eq ids hc hid, if_neg hfresh]
  exact ⟨_, rfl⟩

/-- A deletion succeeds by a clause that can be decided. -/
theorem exists_deleteMany {q : Query} (hdeclared : s.Declares q.collection)
    (hfilter : ∀ p ∈ q.filter, ∀ k ∈ p.leaves, k.Evaluable) :
    ∃ n, (s.deleteMany q).1 = .ok n := by
  obtain ⟨held, hheld⟩ := hdeclared
  have hdecided : ∀ r ∈ held.records, ∃ b, Predicate.holdsFor q.filter r = .ok b := by
    intro r _
    cases hq : q.filter with
    | none => exact ⟨true, rfl⟩
    | some p => exact p.exists_holds_of_evaluable (hfilter p hq) r
  obtain ⟨kept, hkept⟩ := exists_remaining hdecided
  rw [deleteMany, hheld]
  dsimp only
  rw [hkept]
  exact ⟨_, rfl⟩

end Store

namespace Action

variable {ε δ α β : Type} {env : Surroundings} {b : Backend}

/-- The action ends in a result. -/
def Succeeds (env : Surroundings) (a : Action ε α) (b : Backend) : Prop :=
  ∃ x, (runOn env a b).1 = .ok x

/-- **A chain succeeds if each step does,** after what the steps before have left. -/
theorem Succeeds.bind {a : Action ε α} {f : α → Action ε β} (ha : Succeeds env a b)
    (hf : ∀ x b', runOn env a b = (.ok x, b') → Succeeds env (f x) b') :
    Succeeds env (a >>= f) b := by
  obtain ⟨x, hx⟩ := ha
  have hrun : runOn env a b = (.ok x, (runOn env a b).2) := Prod.ext hx rfl
  obtain ⟨y, hy⟩ := hf x _ hrun
  exact ⟨y, (congrArg Prod.fst (runOn_bind_ok hrun f)).trans hy⟩

theorem Succeeds.pure (x : α) : Succeeds env (pure x : Action ε α) b :=
  ⟨x, rfl⟩

theorem Succeeds.ofExcept {r : Except ε α} {x : α} (h : r = .ok x) :
    Succeeds env (ofExcept r) b :=
  ⟨x, h⟩

theorem Succeeds.mapError {a : Action ε α} (h : Succeeds env a b) (f : ε → δ) :
    Succeeds env (mapError f a) b := by
  obtain ⟨x, hx⟩ := h
  exact ⟨x, by rw [runOn_mapError, hx]; rfl⟩

section Serving

variable (hserving : b.refused = [])

include hserving

/-- An insertion with a fresh id succeeds in a declared collection. -/
theorem succeeds_insert {name : String} (hids : Function.Injective env.ids)
    (hdrawn : b.store.Drawn env.ids) (hdeclared : b.store.Declares name) {record : Record}
    (hid : Record.id? record = none) : Succeeds env (insert name record) b := by
  rw [Succeeds, runOn_insert hserving]
  exact Store.exists_insert hids hdrawn hdeclared hid

/-- A query can be built on a declared collection. -/
theorem succeeds_buildQuery {name : String} (hdeclared : b.store.Declares name)
    (clause : Option Predicate) (locale : Option String) :
    Succeeds env (buildQuery name clause locale) b := by
  obtain ⟨held, hheld⟩ := hdeclared
  rw [Succeeds, runOn_buildQuery hserving]
  exact ⟨_, Store.buildQuery_of_get? hheld clause locale⟩

/-- A page is found by a clause that can be decided. -/
theorem succeeds_find {q : Query} (hdeclared : b.store.Declares q.collection)
    (hfilter : ∀ p ∈ q.filter, ∀ k ∈ p.leaves, k.Evaluable) (options : FindOptions)
    (pagination : Option Pagination) : Succeeds env (find q options pagination) b := by
  obtain ⟨held, hheld⟩ := hdeclared
  obtain ⟨found, hfound⟩ := Store.exists_select_of_evaluable held options hfilter
  rw [Succeeds, runOn_find hserving]
  exact ⟨_, Store.find_eq_of_select hheld hfound pagination⟩

/-- A deletion succeeds by a clause that can be decided. -/
theorem succeeds_deleteMany {q : Query} (hdeclared : b.store.Declares q.collection)
    (hfilter : ∀ p ∈ q.filter, ∀ k ∈ p.leaves, k.Evaluable) :
    Succeeds env (deleteMany q) b := by
  rw [Succeeds, runOn_deleteMany hserving]
  exact Store.exists_deleteMany hdeclared hfilter

end Serving

end Action

end HeadlessCms
