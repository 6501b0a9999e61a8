import HeadlessCms.Store.Basic
import HeadlessCms.Store.Clock

/-!
# Processes of atomic calls

Whatever works on the store does so by calls, each of which happens at once: the store calls and the
reading of the clock.  A process is the plan of such calls, the next one chosen by the answers to
those before.  A process says nothing about where the answers come from, so it can be run alone on a
backend (`Process.run`) or step by step beside other processes.

Main statements: processes form a lawful monad, and running two processes one after the other is
running the second from where the first ended (`run_bind`).
-/

namespace HeadlessCms

open Time (Instant)

/-- A call that happens at once. -/
inductive Call where
  | register (collection : String) (localizedPaths : List String)
  | buildQuery (collection : String) (clause : Option Predicate) (locale : Option String)
  | findOne (query : Query) (options : FindOptions)
  | find (query : Query) (options : FindOptions) (pagination : Option Pagination)
  | insert (collection : String) (record : Record)
  | update (collection id : String) (record : Record)
  | deleteMany (query : Query)
  /-- Takes a time for a save. -/
  | now

/-- The answer to a call. -/
abbrev Call.Answer : Call → Type
  | .register .. => Except StoreError Unit
  | .buildQuery .. => Except StoreError Query
  | .findOne .. => Except StoreError (Option Record)
  | .find .. => Except StoreError (Page Record)
  | .insert .. => Except StoreError Record
  | .update .. => Except StoreError Record
  | .deleteMany .. => Except StoreError Nat
  | .now => Instant

/-- A plan of calls that ends in a result. -/
inductive Process (α : Type) where
  | done (result : α)
  | call (c : Call) (next : c.Answer → Process α)

namespace Process

variable {α β γ : Type}

/-- One process after the other. -/
def bind : Process α → (α → Process β) → Process β
  | .done a, f => f a
  | .call c next, f => .call c fun answer => (next answer).bind f

instance : Monad Process where
  pure := .done
  bind := .bind

@[simp] theorem pure_eq (a : α) : (pure a : Process α) = .done a := rfl

@[simp] theorem bind_eq (p : Process α) (f : α → Process β) : p >>= f = p.bind f := rfl

/-- A process goes on as it is if nothing follows. -/
theorem bind_done (p : Process α) : p.bind .done = p := by
  induction p with
  | done a => rfl
  | call c next ih => simp [bind, ih]

/-- Processes follow one another in any grouping. -/
theorem bind_bind (p : Process α) (f : α → Process β) (g : β → Process γ) :
    (p.bind f).bind g = p.bind fun a => (f a).bind g := by
  induction p with
  | done a => rfl
  | call c next ih => simp [bind, ih]

instance : LawfulMonad Process :=
  LawfulMonad.mk' Process bind_done (fun _ _ => rfl) bind_bind

/-- The process of one call. -/
def ask (c : Call) : Process c.Answer :=
  .call c .done

end Process

/-! ### Backends -/

/-- The calls that a backend may refuse. -/
inductive Method where
  | registerCollection
  | buildQuery
  | findOne
  | find
  | insert
  | update
  | deleteMany
  deriving DecidableEq, Repr

def Method.name : Method → String
  | registerCollection => "register_collection"
  | buildQuery => "build_query"
  | findOne => "find_one"
  | find => "find"
  | insert => "insert"
  | update => "update"
  | deleteMany => "delete_many"

/-- The method of a store call; reading the clock is none. -/
def Call.method? : Call → Option Method
  | .register .. => some .registerCollection
  | .buildQuery .. => some .buildQuery
  | .findOne .. => some .findOne
  | .find .. => some .find
  | .insert .. => some .insert
  | .update .. => some .update
  | .deleteMany .. => some .deleteMany
  | .now => none

/-- What a backend takes from outside: the ids it gives to new records and the readings of the clock
on the wall. -/
structure Surroundings where
  ids : Nat → String
  readings : Nat → Instant

/-- A store with the methods that it refuses at the moment, and the clock of saves. -/
structure Backend where
  store : Store
  refused : List Method
  clock : Clock

variable [PatternEngine]

namespace Backend

def empty : Backend :=
  ⟨.empty, [], .fresh⟩

/-- The answer to a method that is refused. -/
def refusal (m : Method) : StoreError :=
  .unavailable (m.name ++ " failed")

/-- An operation that changes the store, unless its method is refused. -/
def change {α : Type} (b : Backend) (m : Method) (operation : Store → Except StoreError α × Store) :
    Except StoreError α × Backend :=
  if b.refused.contains m then (.error (refusal m), b)
  else
    let (answer, store) := operation b.store
    (answer, { b with store })

/-- An operation that only looks at the store, unless its method is refused. -/
def look {α : Type} (b : Backend) (m : Method) (operation : Store → Except StoreError α) :
    Except StoreError α × Backend :=
  (if b.refused.contains m then .error (refusal m) else operation b.store, b)

/-- Answers a call. -/
def perform (env : Surroundings) (b : Backend) : (c : Call) → c.Answer × Backend
  | .register name paths =>
    b.change .registerCollection fun s => (.ok (), s.register name paths)
  | .buildQuery name clause locale => b.look .buildQuery fun s => s.buildQuery name clause locale
  | .findOne q options => b.look .findOne fun s => s.findOne q options
  | .find q options pagination => b.look .find fun s => s.find q options pagination
  | .insert name record => b.change .insert fun s => s.insert env.ids name record
  | .update name id record => b.change .update fun s => s.update name id record
  | .deleteMany q => b.change .deleteMany fun s => s.deleteMany q
  | .now =>
    let (t, clock) := b.clock.next env.readings
    (t, { b with clock })

end Backend

namespace Process

variable {α β : Type}

/-- Runs a process alone on a backend. -/
def run (env : Surroundings) : Process α → Backend → α × Backend
  | .done a, b => (a, b)
  | .call c next, b =>
    let (answer, b) := b.perform env c
    (next answer).run env b

/-- The calls that a process makes when it runs alone on a backend. -/
def calls (env : Surroundings) : Process α → Backend → List Call
  | .done _, _ => []
  | .call c next, b =>
    let (answer, b) := b.perform env c
    c :: (next answer).calls env b

/-- **One process after the other.** -/
theorem run_bind (env : Surroundings) (p : Process α) (f : α → Process β) (b : Backend) :
    (p.bind f).run env b = (f (p.run env b).1).run env (p.run env b).2 := by
  induction p generalizing b with
  | done a => rfl
  | call c next ih => simp [bind, run, ih]

end Process

/-! ### Processes that may fail -/

/-- A process that ends in a result or an error.  What it has changed before an error stays. -/
abbrev Action (ε α : Type) := ExceptT ε Process α

namespace Action

def register (collection : String) (localizedPaths : List String) : Action StoreError Unit :=
  ExceptT.mk (Process.ask (.register collection localizedPaths))

def buildQuery (collection : String) (clause : Option Predicate) (locale : Option String) :
    Action StoreError Query :=
  ExceptT.mk (Process.ask (.buildQuery collection clause locale))

def findOne (q : Query) (options : FindOptions) : Action StoreError (Option Record) :=
  ExceptT.mk (Process.ask (.findOne q options))

def find (q : Query) (options : FindOptions) (pagination : Option Pagination) :
    Action StoreError (Page Record) :=
  ExceptT.mk (Process.ask (.find q options pagination))

def insert (collection : String) (record : Record) : Action StoreError Record :=
  ExceptT.mk (Process.ask (.insert collection record))

def update (collection id : String) (record : Record) : Action StoreError Record :=
  ExceptT.mk (Process.ask (.update collection id record))

def deleteMany (q : Query) : Action StoreError Nat :=
  ExceptT.mk (Process.ask (.deleteMany q))

/-- Takes a time for a save. -/
def now {ε : Type} : Action ε Instant :=
  ExceptT.mk (Process.bind (Process.ask .now) fun t => .done (.ok t))

/-- A result that is there without any call. -/
def ofExcept {ε α : Type} (r : Except ε α) : Action ε α :=
  ExceptT.mk (.done r)

/-- An action with its errors put into another type. -/
def mapError {ε δ α : Type} (f : ε → δ) (a : Action ε α) : Action δ α :=
  ExceptT.mk (Process.bind (ExceptT.run a) fun r => .done (r.mapError f))

end Action

end HeadlessCms
