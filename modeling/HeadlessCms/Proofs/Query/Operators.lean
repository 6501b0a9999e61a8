import HeadlessCms.Proofs.Decimal.WholeNumbers
import HeadlessCms.Proofs.Query.Comparison
import HeadlessCms.Proofs.Query.Rewriting

/-!
# How operators agree

Equality looks at a list and at its items, comparison at its items alone; equality takes values that are
the same or that compare equal, comparison only values that have an order.  On operands that are texts,
numbers or truth values this makes no difference (`anyEquals_eq_anyCompares`), so the operators agree as
their names say (`Record.operators_agree`).
-/

namespace HeadlessCms

/-! ### Equal numbers -/

/-- Doubles that are equal compare equal. -/
theorem compareFloats_of_beq {x y : Float} (h : (x == y) = true) : compareFloats x y = some .eq := by
  rw [compareFloats_eq, ← Place.compare_eq]
  exact beq_iff_unpack.1 h

/-- A float that is a number compares as equal to itself. -/
theorem compareFloats_self {x : Float} (h : x.isNaN = false) : compareFloats x x = some .eq := by
  obtain ⟨p, hp⟩ := Option.isSome_iff_exists.1 (Place.isSome_of?_iff.2 h)
  rw [compareFloats_eq, hp]
  exact congrArg some Std.ReflCmp.compare_self

/-- Numbers that are the same compare as equal. -/
theorem Number.compareFloats_of_same {m n : Number} (h : m.same n = true) :
    compareFloats m.toFloat n.toFloat = some .eq := by
  cases m with
  | int i =>
    cases n with
    | int j =>
      obtain rfl : i = j := beq_iff_eq.1 h
      exact compareFloats_self (isNaN_ofInt i)
    | float y => cases h
  | float x =>
    cases n with
    | int j => cases h
    | float y => exact compareFloats_of_beq h

/-! ### Operands without parts -/

/-- A text, a number or a truth value. -/
def Json.IsScalar : Json → Prop
  | .str _ | .num _ | .bool _ => True
  | .null | .arr _ | .obj _ => False

/-- A value that is the same as a scalar compares equal with it. -/
theorem compareValues_of_same {v operand : Json} (hoperand : operand.IsScalar)
    (h : v.same operand = true) : compareValues v operand = some .eq := by
  cases operand with
  | null | arr _ | obj _ => cases hoperand
  | str b =>
    cases v with
    | str a =>
      obtain rfl : a = b := beq_iff_eq.1 h
      exact congrArg some (compareTexts_self a)
    | _ => cases h
  | num n =>
    cases v with
    | num m => exact Number.compareFloats_of_same h
    | _ => cases h
  | bool b =>
    cases v with
    | bool a =>
      obtain rfl : a = b := beq_iff_eq.1 h
      exact congrArg some Std.ReflCmp.compare_self
    | _ => cases h

/-- Scalars are loosely equal exactly if they compare as equal. -/
theorem looselyEqual_eq {operand : Json} (hoperand : operand.IsScalar) (v : Json) :
    looselyEqual v operand = (compareValues v operand == some .eq) := by
  unfold looselyEqual
  cases h : v.same operand with
  | false => rfl
  | true => rw [compareValues_of_same hoperand h]; rfl

/-- A list has no order. -/
theorem compareValues_arr (items : List Json) (operand : Json) :
    compareValues (.arr items) operand = none := by
  cases operand <;> rfl

/-- A value equals a scalar operand if one of its elements compares as equal to it. -/
theorem equalsOperand_eq {operand : Json} (hoperand : operand.IsScalar) (v : Json) :
    equalsOperand operand v = (elements v).any fun x => compareValues x operand == some .eq := by
  unfold equalsOperand
  rw [looselyEqual_eq hoperand]
  cases v with
  | arr items =>
    rw [compareValues_arr]
    simp only [looselyEqual_eq hoperand, elements]
    rfl
  | _ => simp [elements]

/-- **A scalar equals one of the values exactly if one of their elements compares equal with it.** -/
theorem anyEquals_eq_anyCompares {operand : Json} (hoperand : operand.IsScalar)
    (values : List Json) : anyEquals values operand = anyCompares values operand (· == .eq) := by
  have hnull : operand.isNull = false := by
    cases operand with
    | null => cases hoperand
    | _ => rfl
  unfold anyEquals anyCompares
  rw [hnull, if_neg Bool.false_ne_true, List.any_flatMap]
  refine congrArg (values.any ·) (funext fun v => ?_)
  rw [equalsOperand_eq hoperand]
  refine congrArg ((elements v).any ·) (funext fun x => ?_)
  cases compareValues x operand <;> rfl

/-- Orders that are accepted in one of two ways. -/
theorem anyCompares_or (values : List Json) (operand : Json) (p q : Ordering → Bool) :
    anyCompares values operand (fun o => p o || q o) =
      (anyCompares values operand p || anyCompares values operand q) := by
  unfold anyCompares
  induction values.flatMap elements with
  | nil => rfl
  | cons v rest ih =>
    rw [List.any_cons, List.any_cons, List.any_cons, ih]
    cases compareValues v operand with
    | none => rfl
    | some o => dsimp only; ac_rfl

/-! ### Operators on records -/

namespace Record

section

variable [PatternEngine]

/-- A record satisfies what an operator says of the values at a path. -/
def Meets (r : Record) (path : String) (operator : Operator) (operand : Json) : Prop :=
  (Predicate.compare path operator operand).holds r = .ok true

variable {r : Record} {path : String}

/-- An operator that is decided by a test of the values at the path. -/
theorem meets_iff {operator : Operator} {operand : Json} {met : Bool}
    (h : Constraint.test ⟨path, operator, operand⟩ (r.resolve path) = .ok met) :
    r.Meets path operator operand ↔ met = true := by
  rw [Meets, Predicate.compare, Predicate.holds_leaf, Constraint.holds, h, Except.ok.injEq]

/-- **Operators agree as their names say.**  Operators of equality and comparison are decided on every
record and at every path.  At least and at most mean greater or equal and less or equal, whatever text,
number or truth value they are asked of, and comparing the other way round turns the order round.  To
be in a list is to equal one of its items, to equal all of them implies it, and the negations are
exact. -/
theorem operators_agree (r : Record) (path : String) :
    (∀ operator operand, operator.category = .equality ∨ operator.category = .comparison →
      ∃ met, (Predicate.compare path operator operand).holds r = .ok met) ∧
    (∀ v : Json, v.IsScalar →
      (r.Meets path .greaterThanEqual v ↔ r.Meets path .greaterThan v ∨ r.Meets path .equals v) ∧
      (r.Meets path .lessThanEqual v ↔ r.Meets path .lessThan v ∨ r.Meets path .equals v)) ∧
    (∀ v w, compareValues w v = (compareValues v w).map Ordering.swap) ∧
    ∀ w, (r.Meets path .isIn w ↔ ∃ v ∈ operandList w, r.Meets path .equals v) ∧
      (r.Meets path .notIn w ↔ ¬ r.Meets path .isIn w) ∧
      (r.Meets path .notEquals w ↔ ¬ r.Meets path .equals w) ∧
      (r.Meets path .all w → r.Meets path .isIn w) := by
  refine ⟨fun operator operand hcategory => ?_, fun v hv => ?_, compareValues_swap, fun w => ?_⟩
  · rw [Predicate.compare, Predicate.holds_leaf, Constraint.holds]
    cases operator with
    | contains | near | within | intersects | like => rcases hcategory with h | h <;> cases h
    | _ => exact ⟨_, rfl⟩
  · have hequal : r.Meets path .equals v ↔ anyCompares (r.resolve path) v (· == .eq) = true := by
      rw [← anyEquals_eq_anyCompares hv]
      exact meets_iff rfl
    have hnotLess : (fun o : Ordering => o != .lt) = fun o => (o == .gt) || (o == .eq) := by
      funext o
      cases o <;> rfl
    have hnotGreater : (fun o : Ordering => o != .gt) = fun o => (o == .lt) || (o == .eq) := by
      funext o
      cases o <;> rfl
    constructor
    · rw [meets_iff rfl, meets_iff rfl, hequal, hnotLess, anyCompares_or, Bool.or_eq_true]
    · rw [meets_iff rfl, meets_iff rfl, hequal, hnotGreater, anyCompares_or, Bool.or_eq_true]
  · have hin : r.Meets path .isIn w ↔ ∃ v ∈ operandList w, anyEquals (r.resolve path) v = true := by
      rw [meets_iff rfl, List.any_eq_true]
    have hequal (v : Json) : r.Meets path .equals v ↔ anyEquals (r.resolve path) v = true :=
      meets_iff rfl
    refine ⟨?_, ?_, ?_, fun hall => ?_⟩
    · simp only [hin, hequal]
    · rw [meets_iff rfl, meets_iff rfl, Bool.not_eq_true', Bool.not_eq_true]
    · rw [meets_iff rfl, hequal, Bool.not_eq_true', Bool.not_eq_true]
    · rw [meets_iff rfl, Bool.and_eq_true, List.all_eq_true, Bool.not_eq_true',
        List.isEmpty_eq_false_iff_exists_mem] at hall
      obtain ⟨⟨v, hv⟩, hall⟩ := hall
      exact hin.2 ⟨v, hv, hall v hv⟩

end

/-- Scores of which one is written as text.  The text `10` is compared with numbers by size, with other
texts by characters. -/
def scores : Record :=
  [("scores", .arr [.num (.float 9.5), .str "10"])]

/-- A list of scores meets and fails these operators. -/
theorem operators_agree_scores :
    scores.Meets "scores" .greaterThanEqual (.str "10") ∧
      ¬ scores.Meets "scores" .lessThanEqual (.num (.int 9)) ∧
      scores.Meets "scores" .isIn (.str "8, 10") ∧ ¬ scores.Meets "scores" .notIn (.str "8, 10") := by
  obtain ⟨-, hscalar, -, hlist⟩ := operators_agree scores "scores"
  have hin : scores.Meets "scores" .isIn (.str "8, 10") :=
    (hlist (.str "8, 10")).1.2 ⟨.str "10", List.mem_cons_of_mem _ List.mem_cons_self, rfl⟩
  refine ⟨(hscalar (.str "10") trivial).1.2 (.inr rfl), fun h => ?_, hin, fun h =>
    (hlist (.str "8, 10")).2.1.1 h hin⟩
  rcases (hscalar (.num (.int 9)) trivial).2.1 h with hless | hequal
  · cases hless
  · cases hequal

end Record

end HeadlessCms
