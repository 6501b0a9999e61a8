import HeadlessCms.Proofs.Store.Bookkeeping

/-!
# Two processes on one backend

Nothing keeps two processes from working on one backend at the same time.  Each call happens at once,
and whose call is the next one is not in their hands: a list of turns decides it (`Pair.after`), and each
list gives one order of their calls (`Pair.events`).  What a single turn keeps holds after all turns
(`Pair.invariant_after`).  A process that has failed stays so (`Pair.Failed.turn`), and what a process
may still do is said of all calls that it may come to make (`Process.Makes`).
-/

namespace HeadlessCms

/-- Two processes that take turns on a backend: what is left of each of them, and the backend. -/
structure Pair (α : Type) where
  remaining : Bool → Process α
  backend : Backend

namespace Pair

variable [PatternEngine] {α : Type} {env : Surroundings} {p : Pair α}

/-- One of the processes makes its next call, unless it is done. -/
def turn (env : Surroundings) (p : Pair α) (w : Bool) : Pair α :=
  match p.remaining w with
  | .done _ => p
  | .call c next =>
    let (answer, b) := p.backend.perform env c
    ⟨Function.update p.remaining w (next answer), b⟩

/-- What happens at a turn, and whose doing it is. -/
def eventsAt (env : Surroundings) (p : Pair α) (w : Bool) : List (Bool × Event) :=
  match p.remaining w with
  | .done _ => []
  | .call c _ => [(w, ⟨c, (p.backend.perform env c).1⟩)]

/-- Where the processes stand after turns. -/
def after (env : Surroundings) (p : Pair α) (turns : List Bool) : Pair α :=
  turns.foldl (turn env) p

/-- What happens at turns, one after the other. -/
def events (env : Surroundings) (p : Pair α) : List Bool → List (Bool × Event)
  | [] => []
  | w :: rest => p.eventsAt env w ++ events env (p.turn env w) rest

/-- The last of several turns is taken where the others lead. -/
theorem after_concat (p : Pair α) (turns : List Bool) (w : Bool) :
    p.after env (turns ++ [w]) = (p.after env turns).turn env w := by
  rw [after, List.foldl_append]
  rfl

/-- The last events are those of the last turn. -/
theorem events_concat (p : Pair α) (turns : List Bool) (w : Bool) :
    p.events env (turns ++ [w]) = p.events env turns ++ (p.after env turns).eventsAt env w := by
  induction turns generalizing p with
  | nil => exact (List.append_nil _)
  | cons first rest ih =>
    rw [List.cons_append, events, ih, events, List.append_assoc]
    rfl

/-- **What is kept at each turn holds after all of them,** together with what has happened. -/
theorem invariant_after {I : List (Bool × Event) → Pair α → Prop} (hstart : I [] p)
    (hturn : ∀ before p w, I before p → I (before ++ p.eventsAt env w) (p.turn env w))
    (turns : List Bool) : I (p.events env turns) (p.after env turns) := by
  induction turns using List.reverseRecOn with
  | nil => exact hstart
  | append_singleton turns w ih =>
    rw [events_concat, after_concat]
    exact hturn _ _ w ih

/-! ### A turn -/

/-- Who is done changes nothing with a turn. -/
theorem turn_of_done (env : Surroundings) {w : Bool} {x : α} (h : p.remaining w = .done x) :
    p.turn env w = p ∧ p.eventsAt env w = [] := by
  rw [turn, eventsAt, h]
  exact ⟨rfl, rfl⟩

/-- A turn with a call. -/
theorem turn_of_call (env : Surroundings) {w : Bool} {c : Call} {next : c.Answer → Process α}
    (h : p.remaining w = .call c next) :
    p.turn env w = ⟨Function.update p.remaining w (next (p.backend.perform env c).1),
        (p.backend.perform env c).2⟩ ∧
      p.eventsAt env w = [(w, ⟨c, (p.backend.perform env c).1⟩)] := by
  rw [turn, eventsAt, h]
  exact ⟨rfl, rfl⟩

/-! ### Processes that may fail -/

section

variable {ε α : Type} {p : Pair (Except ε α)}

/-- One of the processes has failed. -/
def Failed (p : Pair (Except ε α)) : Prop :=
  ∃ w e, p.remaining w = .done (.error e)

/-- Both processes have succeeded. -/
def Succeeded (p : Pair (Except ε α)) : Prop :=
  ∀ w, ∃ x, p.remaining w = .done (.ok x)

omit [PatternEngine] in
/-- A pair of which one has failed has not succeeded. -/
theorem Failed.not_succeeded (h : p.Failed) : ¬ p.Succeeded := by
  obtain ⟨w, e, hfailed⟩ := h
  intro hsucceeded
  obtain ⟨x, hdone⟩ := hsucceeded w
  cases hfailed.symm.trans hdone

/-- A process whose call is followed by an error has failed. -/
theorem failed_of_call {w : Bool} {e : ε} {c : Call} {next : c.Answer → Process (Except ε α)}
    (hcall : p.remaining w = .call c next)
    (hnext : next (p.backend.perform env c).1 = .done (.error e)) : (p.turn env w).Failed := by
  refine ⟨w, e, ?_⟩
  rw [(turn_of_call env hcall).1, ← hnext]
  exact Function.update_self _ _ _

/-- A failure lasts. -/
theorem Failed.turn (h : p.Failed) (w : Bool) : (p.turn env w).Failed := by
  obtain ⟨v, e, hv⟩ := h
  refine ⟨v, e, ?_⟩
  by_cases hw : v = w
  · subst hw
    rw [(turn_of_done env hv).1, hv]
  · cases hrest : p.remaining w with
    | done x => rw [(turn_of_done env hrest).1, hv]
    | call c next =>
      rw [(turn_of_call env hrest).1, ← hv]
      exact Function.update_of_ne hw _ _

end

end Pair

/-- A process is done and has not failed. -/
def Process.succeeds {ε α : Type} : Process (Except ε α) → Bool
  | .done (.ok _) => true
  | _ => false

/-- A process has succeeded if it is done with a result. -/
theorem Process.succeeds_iff {ε α : Type} {p : Process (Except ε α)} :
    p.succeeds = true ↔ ∃ x, p = .done (.ok x) := by
  match p with
  | .done (.ok x) => exact ⟨fun _ => ⟨x, rfl⟩, fun _ => rfl⟩
  | .done (.error e) => exact ⟨nofun, nofun⟩
  | .call c next => exact ⟨nofun, nofun⟩

instance {ε α : Type} (p : Pair (Except ε α)) : Decidable p.Succeeded :=
  decidable_of_iff (∀ w, (p.remaining w).succeeds = true) (forall_congr' fun _ => Process.succeeds_iff)

/-! ### What the rest of a process does -/

/-- Queries are for the collection that they have been built for. -/
def Call.Honest : (c : Call) → c.Answer → Prop
  | .buildQuery name _ _, .ok q => q.collection = name
  | _, _ => True

/-- A backend answers as its refusals and its store have it. -/
theorem Backend.honest_perform [PatternEngine] (env : Surroundings) (b : Backend) (c : Call) :
    c.Honest (b.perform env c).1 := by
  cases c with
  | buildQuery name clause locale =>
    cases h : (b.perform env (.buildQuery name clause locale)).1 with
    | error e => trivial
    | ok q =>
      obtain ⟨-, hquery⟩ := Backend.look_eq_ok (b := b) (Prod.ext h rfl)
      obtain ⟨held, -, hquery⟩ := Except.bind_eq_ok_iff.1 hquery
      cases hquery
      rfl
  | _ => trivial

namespace Process

variable {α β : Type} {P : Call → Prop}

/-- All calls that a process may come to make have a property. -/
def Makes (P : Call → Prop) : Process α → Prop
  | .done _ => True
  | .call c next => P c ∧ ∀ answer, c.Honest answer → (next answer).Makes P

theorem Makes.bind {p : Process α} {f : α → Process β} (hp : p.Makes P)
    (hf : ∀ a, (f a).Makes P) : (p.bind f).Makes P := by
  induction p with
  | done a => exact hf a
  | call c next ih => exact ⟨hp.1, fun answer honest => ih answer (hp.2 answer honest)⟩

end Process

namespace Action

variable {ε δ α β : Type} {P : Call → Prop}

/-- All calls that an action may come to make have a property, and its results another. -/
def Makes (P : Call → Prop) (a : Action ε α) : Prop :=
  Process.Makes P (ExceptT.run a)

namespace Makes

theorem pure (x : α) : Makes P (pure x : Action ε α) :=
  trivial

theorem ofExcept (r : Except ε α) : Makes P (Action.ofExcept r) :=
  trivial

theorem bind {a : Action ε α} {f : α → Action ε β} (ha : Makes P a) (hf : ∀ x, Makes P (f x)) :
    Makes P (a >>= f) := by
  refine Process.Makes.bind ha fun r => ?_
  cases r with
  | error e => trivial
  | ok x => exact hf x

theorem mapError {a : Action ε α} (h : Makes P a) (f : ε → δ) : Makes P (Action.mapError f a) :=
  Process.Makes.bind h fun _ => trivial

/-- A query is for the collection that it has been built for. -/
theorem buildQuery_bind {name : String} {clause : Option Predicate} {locale : Option String}
    {f : Query → Action StoreError α} (hcall : P (.buildQuery name clause locale))
    (hf : ∀ q, q.collection = name → Makes P (f q)) :
    Makes P (Action.buildQuery name clause locale >>= f) := by
  refine ⟨hcall, fun answer honest => ?_⟩
  cases answer with
  | error e => trivial
  | ok q => exact hf q honest

/-- Looking for a page makes one call. -/
theorem find {q : Query} {options : FindOptions} {pagination : Option Pagination}
    (hcall : P (.find q options pagination)) : Makes P (Action.find q options pagination) :=
  ⟨hcall, fun _ _ => trivial⟩

/-- An insertion makes one call. -/
theorem insert {name : String} {record : Record} (hcall : P (.insert name record)) :
    Makes P (Action.insert name record) :=
  ⟨hcall, fun _ _ => trivial⟩

/-- A deletion makes one call. -/
theorem deleteMany {q : Query} (hcall : P (.deleteMany q)) : Makes P (Action.deleteMany q) :=
  ⟨hcall, fun _ _ => trivial⟩

end Makes

end Action

/-- Only the taking of a time moves the clock. -/
theorem Backend.clock_perform [PatternEngine]
    (env : Surroundings) (b : Backend) {c : Call} (h : c ≠ .now) :
    (b.perform env c).2.clock = b.clock := by
  cases c with
  | now => exact absurd rfl h
  | buildQuery | findOne | find => rfl
  | register | insert | update | deleteMany =>
    simp only [perform, change]
    split <;> rfl

end HeadlessCms
