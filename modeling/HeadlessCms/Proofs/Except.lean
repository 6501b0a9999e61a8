import Mathlib.Logic.Basic

/-!
# Results that may fail

A chain of steps succeeds exactly if each step does (`Except.bind_eq_ok_iff`).  Two results agree if both
are fine and related, or both are the same error (`Except.Agree`).
-/

namespace HeadlessCms.Except

variable {ε δ α β : Type}

/-- **A chain succeeds exactly if its first step does and then the rest.** -/
theorem bind_eq_ok_iff {x : Except ε α} {f : α → Except ε β} {r : β} :
    (x >>= f) = .ok r ↔ ∃ a, x = .ok a ∧ f a = .ok r := by
  cases x with
  | error e => simp [bind, Except.bind]
  | ok a => simp [bind, Except.bind]

/-- A chain whose first step succeeds goes on with the rest. -/
theorem bind_eq_ok {x : Except ε α} {f : α → Except ε β} {a : α} {r : β} (hx : x = .ok a)
    (hf : f a = .ok r) : (x >>= f) = .ok r :=
  bind_eq_ok_iff.2 ⟨a, hx, hf⟩

/-- What is fine has a result. -/
theorem exists_of_isOk {x : Except ε α} (h : x.isOk = true) : ∃ a, x = .ok a := by
  cases x with
  | error e => cases h
  | ok a => exact ⟨a, rfl⟩

/-- A result that is left without the error was the result. -/
theorem eq_ok_of_toOption {x : Except ε α} {a : α} (h : x.toOption = some a) : x = .ok a := by
  cases x with
  | error e => cases h
  | ok b => exact congrArg _ (Option.some.inj h)

/-- What has been made of a result comes from one. -/
theorem map_eq_ok_iff {x : Except ε α} {f : α → β} {r : β} :
    x.map f = .ok r ↔ ∃ a, x = .ok a ∧ f a = r := by
  cases x with
  | error e => simp [Except.map]
  | ok a => simp [Except.map]

@[simp] theorem mapError_ok (f : ε → δ) (a : α) : (.ok a : Except ε α).mapError f = .ok a := rfl

@[simp] theorem mapError_error (f : ε → δ) (e : ε) :
    (.error e : Except ε α).mapError f = .error (f e) := rfl

/-- Two maps of a result are one. -/
theorem map_map {γ : Type} (g : β → γ) (f : α → β) (x : Except ε α) :
    (x.map f).map g = x.map (g ∘ f) := by
  cases x <;> rfl

/-- Renaming errors neither adds results nor loses any. -/
theorem mapError_eq_ok_iff {x : Except ε α} {f : ε → δ} {r : α} :
    x.mapError f = .ok r ↔ x = .ok r := by
  cases x with
  | error e => constructor <;> intro h <;> cases h
  | ok a => constructor <;> intro h <;> cases h <;> rfl

/-- Two results that are both fine and related, or are the same error. -/
inductive Agree (R : α → β → Prop) : Except ε α → Except ε β → Prop
  | ok {x : α} {y : β} (h : R x y) : Agree R (.ok x) (.ok y)
  | error (e : ε) : Agree R (.error e) (.error e)

end HeadlessCms.Except
