import HeadlessCms.Proofs.Query.Rewriting
import HeadlessCms.Proofs.Store.Selection

/-!
# Clauses that cannot be decided

Some operators work on operands of a certain form only.  Whether an operand has it does not depend on
the values that it is compared with (`Constraint.test_eq_error_iff`).  A clause is decided from left
to right and only as far as needed, so it cannot be decided on a record exactly if the decision reaches
a constraint whose operand has not the form of its operator (`Predicate.holds_eq_error_iff`).
-/

namespace HeadlessCms

variable [PatternEngine]

/-- A pattern is refused for one of its words, or not at all. -/
theorem patternRefusal?_eq_none_iff {pattern : List Char} :
    patternRefusal? pattern = none ↔
      ∀ word ∈ Text.words pattern, PatternEngine.refusal? word = none :=
  List.findSome?_eq_none_iff

/-- What an operator says of an operand that it does not work on: of a text that is searched for, what
the engine says of the first word that it refuses.  Operators without a word work on all operands. -/
def Operator.reason (operand : Json) : Operator → String
  | .like => ((textOf? operand).bind patternRefusal?).getD "expected text"
  | .near => "expected [longitude, latitude, maxDistance?, minDistance?]"
  | .within | .intersects => "expected a GeoJSON Polygon or MultiPolygon"
  | _ => ""

namespace Constraint

/-- The operand has a form that the operator works on. -/
def Evaluable (c : Constraint) : Prop :=
  match c.operator with
  | .like => ∃ pattern ∈ textOf? c.value,
      ∀ word ∈ Text.words pattern, PatternEngine.refusal? word = none
  | .near => (NearQuery.ofJson? c.value).isSome = true
  | .within | .intersects => (polygonsOf? c.value).isSome = true
  | _ => True

/-- What is said of a constraint that cannot be decided. -/
def complaint (c : Constraint) : InvalidOperand :=
  ⟨c.path, c.operator, c.operator.reason c.value⟩

/-- **Whether a constraint can be decided is a matter of its operand alone.** -/
theorem test_eq_error_iff {c : Constraint} {values : List Json} {e : InvalidOperand} :
    c.test values = .error e ↔ ¬ c.Evaluable ∧ e = c.complaint := by
  obtain ⟨path, operator, value⟩ := c
  cases operator with
  | like =>
    simp only [test, Evaluable, complaint, Operator.reason, ← patternRefusal?_eq_none_iff]
    cases textOf? value with
    | none => simp [eq_comm]
    | some pattern => cases h : patternRefusal? pattern <;> simp [h, eq_comm]
  | near =>
    cases h : NearQuery.ofJson? value <;>
      simp [test, Evaluable, complaint, Operator.reason, h, eq_comm]
  | within | intersects =>
    cases h : polygonsOf? value <;> simp [test, Evaluable, complaint, Operator.reason, h, eq_comm]
  | _ => simp [test, Evaluable]

end Constraint

namespace Predicate

variable {record : Record}

/-- A constraint that the decision of a clause reaches: all that stands before it in a conjunction
holds, and nothing that stands before it in a disjunction. -/
inductive Reaches (record : Record) : Predicate → Constraint → Prop
  | leaf (c : Constraint) : Reaches record (.leaf c) c
  | and {before after : List Predicate} {p : Predicate} {c : Constraint}
      (hold : ∀ q ∈ before, q.holds record = .ok true) (here : Reaches record p c) :
      Reaches record (.and (before ++ p :: after)) c
  | or {before after : List Predicate} {p : Predicate} {c : Constraint}
      (fail : ∀ q ∈ before, q.holds record = .ok false) (here : Reaches record p c) :
      Reaches record (.or (before ++ p :: after)) c

/-- What is reached is a constraint of the clause. -/
theorem Reaches.mem_leaves {p : Predicate} {c : Constraint} (h : Reaches record p c) :
    c ∈ p.leaves := by
  induction h with
  | leaf c => simp [leaves]
  | and _ _ ih => simp [leaves, leavesOf_eq_flatMap, ih]
  | or _ _ ih => simp [leaves, leavesOf_eq_flatMap, ih]

/-- Parts that are decided one after the other, as long as they say the same, are not decided because
of the first that says neither. -/
theorem eq_error_iff_of_steps {decide : List Predicate → Except InvalidOperand Bool} {go : Bool}
    (hnil : decide [] = .ok go)
    (hcons : ∀ p rest, decide (p :: rest) =
      (p.holds record >>= fun b => if b = go then decide rest else .ok b))
    {ps : List Predicate} {e : InvalidOperand} :
    decide ps = .error e ↔ ∃ before p after, ps = before ++ p :: after ∧
      (∀ q ∈ before, q.holds record = .ok go) ∧ p.holds record = .error e := by
  induction ps with
  | nil => simp [hnil]
  | cons p rest ih =>
    rw [hcons]
    constructor
    · intro h
      cases hp : p.holds record with
      | error d =>
        rw [hp] at h
        cases h
        exact ⟨[], p, rest, rfl, by simp, hp⟩
      | ok b =>
        rw [hp] at h
        by_cases hgo : b = go
        · have hrest : decide rest = .error e := (if_pos hgo).symm.trans h
          obtain ⟨before, q, after, rfl, hbefore, hq⟩ := ih.1 hrest
          exact ⟨p :: before, q, after, rfl, List.forall_mem_cons.2 ⟨hgo ▸ hp, hbefore⟩, hq⟩
        · cases (if_neg hgo).symm.trans h
    · rintro ⟨before, q, after, heq, hbefore, hq⟩
      cases before with
      | nil =>
        obtain ⟨rfl, rfl⟩ := List.cons.inj heq
        rw [hq]
        rfl
      | cons first before =>
        obtain ⟨rfl, rfl⟩ := List.cons.inj heq
        obtain ⟨hp, hbefore⟩ := List.forall_mem_cons.1 hbefore
        rw [hp]
        exact (if_pos rfl).trans (ih.2 ⟨before, q, after, rfl, hbefore, hq⟩)

/-- A conjunction cannot be decided because of the first part that does not hold and cannot be
decided. -/
theorem allHold_eq_error_iff {ps : List Predicate} {e : InvalidOperand} :
    allHold record ps = .error e ↔ ∃ before p after, ps = before ++ p :: after ∧
      (∀ q ∈ before, q.holds record = .ok true) ∧ p.holds record = .error e := by
  refine eq_error_iff_of_steps (allHold_nil record) fun p rest => ?_
  rw [allHold]
  rcases p.holds record with _ | _ | _ <;> rfl

/-- A disjunction cannot be decided because of the first part that does not fail and cannot be
decided. -/
theorem someHolds_eq_error_iff {ps : List Predicate} {e : InvalidOperand} :
    someHolds record ps = .error e ↔ ∃ before p after, ps = before ++ p :: after ∧
      (∀ q ∈ before, q.holds record = .ok false) ∧ p.holds record = .error e := by
  refine eq_error_iff_of_steps (by rw [someHolds]) fun p rest => ?_
  rw [someHolds]
  rcases p.holds record with _ | _ | _ <;> rfl

/-! The parts of a clause that cannot be decided lead to what cannot be decided in the clause. -/

/-- The decision of a constraint reaches this constraint. -/
theorem reaches_leaf_iff {c k : Constraint} : Reaches record (.leaf c) k ↔ k = c := by
  constructor
  · rintro ⟨⟩
    rfl
  · rintro rfl
    exact .leaf k

/-- That of a conjunction reaches what its parts reach behind parts that hold. -/
theorem reaches_and_iff {ps : List Predicate} {k : Constraint} :
    Reaches record (.and ps) k ↔ ∃ before p after, ps = before ++ p :: after ∧
      (∀ q ∈ before, q.holds record = .ok true) ∧ Reaches record p k := by
  constructor
  · intro h
    cases h with
    | and hold here => exact ⟨_, _, _, rfl, hold, here⟩
  · rintro ⟨before, p, after, rfl, hold, here⟩
    exact .and hold here

/-- That of a disjunction reaches what its parts reach behind parts that fail. -/
theorem reaches_or_iff {ps : List Predicate} {k : Constraint} :
    Reaches record (.or ps) k ↔ ∃ before p after, ps = before ++ p :: after ∧
      (∀ q ∈ before, q.holds record = .ok false) ∧ Reaches record p k := by
  constructor
  · intro h
    cases h with
    | or fail here => exact ⟨_, _, _, rfl, fail, here⟩
  · rintro ⟨before, p, after, rfl, fail, here⟩
    exact .or fail here

/-- What makes a part undecided makes the whole undecided. -/
theorem exists_part_iff {ps : List Predicate} {go : Bool} {e : InvalidOperand}
    (hparts : ∀ p ∈ ps, ∀ e, p.holds record = .error e ↔
      ∃ k, Reaches record p k ∧ ¬ k.Evaluable ∧ e = k.complaint) :
    (∃ before p after, ps = before ++ p :: after ∧
      (∀ q ∈ before, q.holds record = .ok go) ∧ p.holds record = .error e) ↔
    ∃ k, (∃ before p after, ps = before ++ p :: after ∧
      (∀ q ∈ before, q.holds record = .ok go) ∧ Reaches record p k) ∧
        ¬ k.Evaluable ∧ e = k.complaint := by
  constructor
  · rintro ⟨before, p, after, rfl, hbefore, hp⟩
    obtain ⟨k, hreach, hk⟩ := (hparts p (by simp) e).1 hp
    exact ⟨k, ⟨before, p, after, rfl, hbefore, hreach⟩, hk⟩
  · rintro ⟨k, ⟨before, p, after, rfl, hbefore, hreach⟩, hk⟩
    exact ⟨before, p, after, rfl, hbefore, (hparts p (by simp) e).2 ⟨k, hreach, hk⟩⟩

mutual

/-- **A clause cannot be decided exactly if the decision reaches a constraint that cannot be.** -/
theorem holds_eq_error_iff (record : Record) : (p : Predicate) → ∀ e : InvalidOperand,
    p.holds record = .error e ↔ ∃ k, Reaches record p k ∧ ¬ k.Evaluable ∧ e = k.complaint
  | .leaf c => fun e => by
    rw [holds_leaf, Constraint.holds, Constraint.test_eq_error_iff]
    simp only [reaches_leaf_iff, exists_eq_left]
  | .and children => fun e => by
    rw [holds_and, allHold_eq_error_iff, exists_part_iff (forall_holds_eq_error_iff record children)]
    simp only [reaches_and_iff]
  | .or children => fun e => by
    rw [holds_or, someHolds_eq_error_iff,
      exists_part_iff (forall_holds_eq_error_iff record children)]
    simp only [reaches_or_iff]

/-- A clause of a list fails exactly with the complaint of a constraint that it reaches. -/
theorem forall_holds_eq_error_iff (record : Record) : (ps : List Predicate) →
    ∀ p ∈ ps, ∀ e : InvalidOperand,
      p.holds record = .error e ↔ ∃ k, Reaches record p k ∧ ¬ k.Evaluable ∧ e = k.complaint
  | [] => by simp
  | p :: rest => List.forall_mem_cons.2
    ⟨holds_eq_error_iff record p, forall_holds_eq_error_iff record rest⟩

end

/-- Whether the constraints of a clause can be decided does not depend on their paths. -/
theorem evaluable_mapPaths {p : Predicate} (h : ∀ k ∈ p.leaves, k.Evaluable) (f : String → String) :
    ∀ k ∈ (p.mapPaths f).leaves, k.Evaluable := by
  intro k hk
  rw [leaves_mapPaths] at hk
  obtain ⟨own, hown, rfl⟩ := List.mem_map.1 hk
  exact h own hown

end Predicate

namespace Store

/-- **Records are matched, or one of them cannot be decided.** -/
theorem matching_cases (filter : Option Predicate) (records : List Record) :
    (∃ found, matching filter records = .ok found ∧
      ∀ r ∈ records, ∃ b, Predicate.holdsFor filter r = .ok b) ∨
    ∃ r ∈ records, ∃ e, Predicate.holdsFor filter r = .error e ∧
      matching filter records = .error (.invalidOperand e) := by
  induction records with
  | nil => exact .inl ⟨[], rfl, by simp⟩
  | cons r rest ih =>
    cases hr : Predicate.holdsFor filter r with
    | error e => exact .inr ⟨r, List.mem_cons_self, e, hr, by rw [matching, hr]⟩
    | ok keep =>
      rcases ih with ⟨found, hfound, hrest⟩ | ⟨x, hx, e, he, hfound⟩
      · refine .inl ⟨if keep then r :: found else found, ?_, List.forall_mem_cons.2 ⟨⟨keep, hr⟩, hrest⟩⟩
        rw [matching, hr, hfound]
        rfl
      · refine .inr ⟨x, List.mem_cons_of_mem _ hx, e, he, ?_⟩
        rw [matching, hr, hfound]
        rfl

/-- **Records are selected, or one of them cannot be decided.** -/
theorem select_cases (held : Collection) (q : Query) (options : FindOptions) :
    (∃ found, select held q options = .ok found ∧
      ∀ p ∈ q.filter, ∀ r ∈ held.records, ∀ k, p.Reaches r k → k.Evaluable) ∨
    ∃ p ∈ q.filter, ∃ r ∈ held.records, ∃ k, p.Reaches r k ∧ ¬ k.Evaluable ∧
      select held q options = .error (.invalidOperand k.complaint) := by
  rcases matching_cases q.filter held.records with ⟨found, hfound, hdecided⟩ | ⟨r, hr, e, he, hfailed⟩
  · refine .inl ⟨_, by rw [select, hfound]; rfl, fun p hp r hr k hreach => ?_⟩
    obtain ⟨b, hb⟩ := hdecided r hr
    by_contra hbad
    have hundecided := (p.holds_eq_error_iff r k.complaint).2 ⟨k, hreach, hbad, rfl⟩
    rw [hp, Predicate.holdsFor] at hb
    cases hb.symm.trans hundecided
  · cases hfilter : q.filter with
    | none =>
      rw [hfilter] at he
      cases he
    | some p =>
      rw [hfilter] at he
      obtain ⟨k, hreach, hbad, rfl⟩ := (p.holds_eq_error_iff r e).1 he
      exact .inr ⟨p, rfl, r, hr, k, hreach, hbad, by rw [select, hfailed]; rfl⟩

/-- A filter of which all constraints can be decided selects records of every collection. -/
theorem exists_select_of_evaluable (held : Collection) {q : Query} (options : FindOptions)
    (h : ∀ p ∈ q.filter, ∀ k ∈ p.leaves, k.Evaluable) :
    ∃ found, select held q options = .ok found := by
  rcases select_cases held q options with ⟨found, hfound, -⟩ | ⟨p, hp, r, -, k, hreach, hbad, -⟩
  · exact ⟨found, hfound⟩
  · exact absurd (h p hp k hreach.mem_leaves) hbad

end Store

end HeadlessCms
