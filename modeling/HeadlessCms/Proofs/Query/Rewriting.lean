import HeadlessCms.Proofs.Query.Matching
import HeadlessCms.Service.Basic
import Mathlib.Data.List.Forall2

/-!
# Clauses with other paths

A clause looks at a record only through the values at its paths.  Two records whose values at the
paths of a clause, each at the paths as they are rewritten for it, decide its constraints alike decide
the clause alike (`Predicate.holds_mapPaths`).  Null may stand there for no value
(`Constraint.test_null`).  A conjunction holds exactly if all its parts do, so whatever is
found for a reader satisfies the clause of the reader (`Service.holds_scope_of_withScope`).
-/

namespace HeadlessCms

namespace Constraint

/-- The path of a constraint is only for its errors. -/
theorem test_path [PatternEngine] {c : Constraint} {values : List Json} {b : Bool} (path : String) :
    ({ c with path } : Constraint).test values = .ok b ↔ c.test values = .ok b := by
  obtain ⟨own, operator, value⟩ := c
  cases operator with
  | like =>
    simp only [test]
    split
    · split <;> simp
    · simp
  | near | within | intersects => simp only [test]; split <;> simp
  | _ => simp only [test]

/-- Null equals what no value equals. -/
theorem anyEquals_null (operand : Json) : anyEquals [.null] operand = anyEquals [] operand := by
  cases operand <;> rfl

/-- Null contains what no value contains. -/
theorem anyContains_null (operand : Json) : anyContains [.null] operand = anyContains [] operand := by
  cases operand with
  | str s => rfl
  | _ => exact anyEquals_null _

/-- Null compares with nothing but null. -/
theorem anyCompares_null {operand : Json} {accepts : Ordering → Bool}
    (h : operand = .null → accepts .eq = false) :
    anyCompares [.null] operand accepts = anyCompares [] operand accepts := by
  have hcompare : compareValues .null operand = compareAlike .null operand := by
    unfold compareValues
    split <;> rfl
  cases operand with
  | null => simp [anyCompares, elements, hcompare, compareAlike, h rfl]
  | _ => simp [anyCompares, elements, hcompare, compareAlike]

/-- Whether a constraint asks for an order in which null stands to itself. -/
def OrdersNull (c : Constraint) : Prop :=
  c.value = .null ∧ (c.operator = .greaterThanEqual ∨ c.operator = .lessThanEqual)

/-- **A constraint takes null for no value,** unless it orders null. -/
theorem test_null [PatternEngine]
    {c : Constraint} (h : ¬ c.OrdersNull) : c.test [.null] = c.test [] := by
  have hequals : anyEquals [.null] = anyEquals [] := funext anyEquals_null
  obtain ⟨path, operator, value⟩ := c
  cases operator with
  | greaterThanEqual =>
    exact congrArg Except.ok (anyCompares_null fun hnull => absurd ⟨hnull, Or.inl rfl⟩ h)
  | lessThanEqual =>
    exact congrArg Except.ok (anyCompares_null fun hnull => absurd ⟨hnull, Or.inr rfl⟩ h)
  | greaterThan => exact congrArg Except.ok (anyCompares_null fun _ => rfl)
  | lessThan => exact congrArg Except.ok (anyCompares_null fun _ => rfl)
  | contains => exact congrArg Except.ok (anyContains_null value)
  | like | near | within | intersects => rfl
  | _ => simp only [test, hequals]

end Constraint

namespace Predicate

variable {record other : Record} {f g : String → String}

@[simp] theorem holds_leaf [PatternEngine] (record : Record) (c : Constraint) :
    (Predicate.leaf c).holds record = c.holds record := by
  simp only [holds]

@[simp] theorem holds_or [PatternEngine] (record : Record) (children : List Predicate) :
    (Predicate.or children).holds record = someHolds record children := by
  simp only [holds]

/-- **A conjunction holds exactly if all its parts do.** -/
theorem allHold_eq_true_iff [PatternEngine] {ps : List Predicate} :
    allHold record ps = .ok true ↔ ∀ p ∈ ps, p.holds record = .ok true := by
  induction ps with
  | nil => simp
  | cons p rest ih =>
    rw [List.forall_mem_cons, ← ih, allHold]
    cases hp : p.holds record with
    | error e => simp
    | ok b => cases b <;> simp

/-- What decides clauses alike decides their conjunction alike. -/
theorem allHold_of_forall₂ [PatternEngine] {ps qs : List Predicate} {b : Bool}
    (h : List.Forall₂ (fun p q => ∀ b, p.holds record = .ok b → q.holds other = .ok b) ps qs)
    (hall : allHold record ps = .ok b) : allHold other qs = .ok b := by
  induction h with
  | nil => exact hall
  | @cons p q ps qs hpq _ ih =>
    rw [allHold] at hall ⊢
    cases hp : p.holds record with
    | error e => rw [hp] at hall; cases hall
    | ok here =>
      rw [hp] at hall
      rw [hpq here hp]
      cases here with
      | false => exact hall
      | true => exact ih hall

/-- A disjunction is decided alike of parts that are decided alike. -/
theorem someHolds_of_forall₂ [PatternEngine] {ps qs : List Predicate} {b : Bool}
    (h : List.Forall₂ (fun p q => ∀ b, p.holds record = .ok b → q.holds other = .ok b) ps qs)
    (hsome : someHolds record ps = .ok b) : someHolds other qs = .ok b := by
  induction h with
  | nil => exact hsome
  | @cons p q ps qs hpq _ ih =>
    rw [someHolds] at hsome ⊢
    cases hp : p.holds record with
    | error e => rw [hp] at hsome; cases hsome
    | ok here =>
      rw [hp] at hsome
      rw [hpq here hp]
      cases here with
      | true => exact hsome
      | false => exact ih hsome

mutual

/-- **Clauses are decided by the values at their paths.** -/
theorem holds_mapPaths [PatternEngine] : (p : Predicate) →
    (∀ c ∈ p.leaves, ∀ b, c.test (Record.resolve record (f c.path)) = .ok b →
      c.test (Record.resolve other (g c.path)) = .ok b) →
    ∀ b, (p.mapPaths f).holds record = .ok b → (p.mapPaths g).holds other = .ok b
  | .leaf c, h, b, hp => by
    simp only [mapPaths, holds_leaf, Constraint.holds, Constraint.test_path] at hp ⊢
    exact h c (by simp [leaves]) b hp
  | .and children, h, b, hp => by
    rw [mapPaths, mapPathsOf_eq_map, holds_and] at hp ⊢
    rw [leaves] at h
    exact allHold_of_forall₂ (holds_mapPathsOf children h) hp
  | .or children, h, b, hp => by
    rw [mapPaths, mapPathsOf_eq_map, holds_or] at hp ⊢
    rw [leaves] at h
    exact someHolds_of_forall₂ (holds_mapPathsOf children h) hp

/-- Clauses in a list are decided alike at paths where their constraints are. -/
theorem holds_mapPathsOf [PatternEngine] : (ps : List Predicate) →
    (∀ c ∈ leavesOf ps, ∀ b, c.test (Record.resolve record (f c.path)) = .ok b →
      c.test (Record.resolve other (g c.path)) = .ok b) →
    List.Forall₂ (fun p q => ∀ b, p.holds record = .ok b → q.holds other = .ok b)
      (ps.map (mapPaths f)) (ps.map (mapPaths g))
  | [], _ => .nil
  | p :: rest, h => by
    rw [leavesOf, List.forall_mem_append] at h
    exact .cons (holds_mapPaths p h.1) (holds_mapPathsOf rest h.2)

end

mutual

/-- Paths that are rewritten twice. -/
theorem mapPaths_mapPaths : (p : Predicate) →
    (p.mapPaths f).mapPaths g = p.mapPaths fun path => g (f path)
  | .leaf c => by simp only [mapPaths]
  | .and children => by simp only [mapPaths, mapPathsOf_mapPathsOf children]
  | .or children => by simp only [mapPaths, mapPathsOf_mapPathsOf children]

/-- Paths of a list of clauses that are mapped twice are mapped by both maps. -/
theorem mapPathsOf_mapPathsOf : (ps : List Predicate) →
    mapPathsOf g (mapPathsOf f ps) = mapPathsOf (fun path => g (f path)) ps
  | [] => rfl
  | p :: rest => by simp only [mapPathsOf, mapPaths_mapPaths p, mapPathsOf_mapPathsOf rest]

end

mutual

/-- Mapping the paths of a clause maps those of its constraints. -/
theorem leaves_mapPaths : (p : Predicate) →
    (p.mapPaths f).leaves = p.leaves.map fun k => { k with path := f k.path }
  | .leaf _ => by simp only [mapPaths, leaves, List.map_cons, List.map_nil]
  | .and children => by simp only [mapPaths, leaves, leavesOf_mapPathsOf children]
  | .or children => by simp only [mapPaths, leaves, leavesOf_mapPathsOf children]

/-- Mapping the paths of a list of clauses maps those of its constraints. -/
theorem leavesOf_mapPathsOf : (ps : List Predicate) →
    leavesOf (mapPathsOf f ps) = (leavesOf ps).map fun k => { k with path := f k.path }
  | [] => rfl
  | p :: rest => by
    simp only [mapPathsOf, leavesOf, List.map_append, leaves_mapPaths p, leavesOf_mapPathsOf rest]

end

mutual

/-- Only what happens to the paths of a clause matters. -/
theorem mapPaths_congr : (p : Predicate) → (∀ k ∈ p.leaves, f k.path = g k.path) →
    p.mapPaths f = p.mapPaths g
  | .leaf k, h => by rw [mapPaths, mapPaths, h k (by simp [leaves])]
  | .and children, h => by
    rw [leaves] at h
    rw [mapPaths, mapPaths, mapPathsOf_congr children h]
  | .or children, h => by
    rw [leaves] at h
    rw [mapPaths, mapPaths, mapPathsOf_congr children h]

/-- Only the paths of the constraints matter to the map. -/
theorem mapPathsOf_congr : (ps : List Predicate) → (∀ k ∈ leavesOf ps, f k.path = g k.path) →
    mapPathsOf f ps = mapPathsOf g ps
  | [], _ => rfl
  | p :: rest, h => by
    rw [leavesOf, List.forall_mem_append] at h
    rw [mapPathsOf, mapPathsOf, mapPaths_congr p h.1, mapPathsOf_congr rest h.2]

end

/-- A conjunction has the constraints of both parts. -/
theorem leaves_conjoin (p q : Predicate) : (p.conjoin q).leaves = p.leaves ++ q.leaves := by
  cases p <;> simp [conjoin, leaves, leavesOf, leavesOf_eq_flatMap]

/-- **Two clauses that are joined hold exactly if both do.** -/
theorem holds_conjoin_iff [PatternEngine] {p q : Predicate} :
    ((p.conjoin q).mapPaths f).holds record = .ok true ↔
      (p.mapPaths f).holds record = .ok true ∧ (q.mapPaths f).holds record = .ok true := by
  cases p with
  | and children =>
    rw [conjoin, mapPaths_and, mapPaths_and, holds_and, holds_and, allHold_eq_true_iff,
      allHold_eq_true_iff, List.map_append, List.forall_mem_append, List.map_singleton,
      List.forall_mem_singleton]
  | leaf c =>
    rw [conjoin, mapPaths_and, holds_and, allHold_eq_true_iff, List.map_cons, List.forall_mem_cons,
      List.map_singleton, List.forall_mem_singleton]
    exact fun _ h => by cases h
  | or children =>
    rw [conjoin, mapPaths_and, holds_and, allHold_eq_true_iff, List.map_cons, List.forall_mem_cons,
      List.map_singleton, List.forall_mem_singleton]
    exact fun _ h => by cases h

end Predicate

namespace Service

variable [PatternEngine]

/-- **What satisfies a filter with the clause of a reader satisfies the clause.** -/
theorem holds_scope_of_withScope {filter : Option Predicate} {scope : Predicate}
    {f : String → String} {record : Record}
    (h : Predicate.holdsFor ((withScope filter (.scoped scope)).map (·.mapPaths f)) record =
      .ok true) : (scope.mapPaths f).holds record = .ok true := by
  cases filter with
  | none => exact h
  | some p =>
    have hboth : ((Predicate.and [p, scope]).mapPaths f).holds record = .ok true := h
    rw [Predicate.mapPaths_and, Predicate.holds_and, Predicate.allHold_eq_true_iff] at hboth
    exact hboth _ (by simp)

/-- What does not satisfy a filter does not satisfy it with the clause of a reader either, whatever that
says. -/
theorem holdsFor_withScope_of_not {p : Predicate} {f : String → String} {record : Record}
    (h : (p.mapPaths f).holds record = .ok false) (access : Access) :
    Predicate.holdsFor ((withScope (some p) access).map (·.mapPaths f)) record = .ok false := by
  rcases access with _ | _ | scope
  · exact h
  · exact h
  · show ((Predicate.and [p, scope]).mapPaths f).holds record = .ok false
    rw [Predicate.mapPaths_and, Predicate.holds_and, List.map_cons, Predicate.allHold, h]

/-- A clause in front of that of a reader is decided where both are decided. -/
theorem holdsFor_withScope {p : Predicate} {f : String → String} {record : Record} {access : Access}
    {own seen : Bool} (h : (p.mapPaths f).holds record = .ok own)
    (hscope : Predicate.holdsFor ((withScope none access).map (·.mapPaths f)) record = .ok seen) :
    Predicate.holdsFor ((withScope (some p) access).map (·.mapPaths f)) record =
      .ok (own && seen) := by
  have hopen (hseen : (Except.ok true : Except InvalidOperand Bool) = .ok seen) :
      (p.mapPaths f).holds record = .ok (own && seen) := by
    rw [← Except.ok.inj hseen, Bool.and_true, h]
  rcases access with _ | _ | scope
  · exact hopen hscope
  · exact hopen hscope
  · show ((Predicate.and [p, scope]).mapPaths f).holds record = .ok (own && seen)
    have hscope : (scope.mapPaths f).holds record = .ok seen := hscope
    rw [Predicate.mapPaths_and, Predicate.holds_and, List.map_cons, List.map_cons, List.map_nil,
      Predicate.allHold, h]
    cases own with
    | false => rfl
    | true =>
      rw [Predicate.allHold, hscope]
      cases seen <;> rfl

end Service

end HeadlessCms
