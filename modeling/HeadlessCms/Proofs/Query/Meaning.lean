import HeadlessCms.Proofs.Except
import HeadlessCms.Proofs.Query.Rewriting

/-!
# What where-clauses say

A where-clause in JSON says something of a record by itself: all its members, one after the other
(`Json.verdict`).  Reading makes a tree of it, in which single clauses stand for themselves and the
operators of a path stand beside the other members.  This changes nothing: on every record the tree is
decided as the JSON value says, with the same complaint where it cannot be
(`Predicate.holds_of_ofJson`).  Joining clauses decides them one after the other, too, so the scope of a
reader is asked only of records that satisfy the reader's own clause
(`Predicate.reading_and_joining`).
-/

namespace HeadlessCms

/-- What comes of deciding something: whether it holds, or why it cannot be decided. -/
abbrev Verdict := Except InvalidOperand Bool

namespace Verdict

/-- Both, the second one being asked only if the first one holds. -/
def both (first second : Verdict) : Verdict :=
  first >>= fun holds => if holds then second else .ok false

/-- One of two, the second one being asked only if the first one does not hold. -/
def either (first second : Verdict) : Verdict :=
  first >>= fun holds => if holds then .ok true else second

/-- All of a list, up to the first that does not hold. -/
def all (verdicts : List Verdict) : Verdict :=
  verdicts.foldr both (.ok true)

/-- One of a list, up to the first that holds. -/
def any (verdicts : List Verdict) : Verdict :=
  verdicts.foldr either (.ok false)

@[simp] theorem both_true (v : Verdict) : both v (.ok true) = v := by
  rcases v with e | _ | _ <;> rfl

@[simp] theorem true_both (v : Verdict) : both (.ok true) v = v := rfl

/-- Asking in turn can be grouped in any way. -/
theorem both_assoc (u v w : Verdict) : both (both u v) w = both u (both v w) := by
  rcases u with e | _ | _ <;> rfl

@[simp] theorem all_nil : all [] = .ok true := rfl

@[simp] theorem all_cons (v : Verdict) (rest : List Verdict) :
    all (v :: rest) = both v (all rest) := rfl

@[simp] theorem any_nil : any [] = .ok false := rfl

@[simp] theorem any_cons (v : Verdict) (rest : List Verdict) :
    any (v :: rest) = either v (any rest) := rfl

/-- **Two lists one after the other.** -/
theorem all_append (vs ws : List Verdict) : all (vs ++ ws) = both (all vs) (all ws) := by
  induction vs with
  | nil => rfl
  | cons v rest ih => rw [List.cons_append, all_cons, all_cons, ih, both_assoc]

end Verdict

namespace Json

variable [PatternEngine]

/-- What an operand under a token says of the values at a path.  Under a token of no operator it says
nothing. -/
def operandVerdict (record : Record) (path : String) (operand : String × Json) : Verdict :=
  match Operator.ofToken? operand.1 with
  | some operator => Constraint.holds ⟨path, operator, operand.2⟩ record
  | none => .ok true

mutual

/-- What a where-clause says of a record: all its members, in their order.  Other values say
nothing. -/
def verdict (record : Record) : Json → Verdict
  | .obj members => Verdict.all (memberVerdicts record members)
  | _ => .ok true

/-- What each of the members says. -/
def memberVerdicts (record : Record) : List (String × Json) → List Verdict
  | [] => []
  | (key, v) :: rest => memberVerdict record key v :: memberVerdicts record rest

/-- What a member says: all clauses of an array under `and`, one of those under `or`, and on a path
all operands in their order. -/
def memberVerdict (record : Record) (key : String) : Json → Verdict
  | .arr items =>
    if key = "and" then Verdict.all (itemVerdicts record items)
    else Verdict.any (itemVerdicts record items)
  | .obj operands => Verdict.all (operands.map (operandVerdict record key))
  | _ => .ok true

/-- What each of the items says. -/
def itemVerdicts (record : Record) : List Json → List Verdict
  | [] => []
  | v :: rest => verdict record v :: itemVerdicts record rest

end

end Json

namespace Predicate

variable {record : Record}

/-! ### Lists of clauses -/

section

variable [PatternEngine]

/-- A conjunction has the verdict of its parts together. -/
theorem allHold_eq_all (record : Record) (ps : List Predicate) :
    allHold record ps = Verdict.all (ps.map (holds record)) := by
  induction ps with
  | nil => exact allHold_nil record
  | cons p rest ih =>
    rw [List.map_cons, Verdict.all_cons, ← ih, allHold]
    rcases p.holds record with e | _ | _ <;> rfl

/-- A disjunction has the verdict of one of its parts. -/
theorem someHolds_eq_any (record : Record) (ps : List Predicate) :
    someHolds record ps = Verdict.any (ps.map (holds record)) := by
  induction ps with
  | nil => simp only [someHolds, List.map_nil, Verdict.any_nil]
  | cons p rest ih =>
    rw [List.map_cons, Verdict.any_cons, ← ih, someHolds]
    rcases p.holds record with e | _ | _ <;> rfl

/-- **One clause for several is decided as all of them.**  A single one stands for itself. -/
theorem holds_ofBranches (record : Record) (branches : List Predicate) :
    (ofBranches branches).holds record = Verdict.all (branches.map (holds record)) := by
  unfold ofBranches
  split
  · next single => rw [List.map_singleton, Verdict.all_cons, Verdict.all_nil, Verdict.both_true]
  · next branches _ => rw [holds_and, allHold_eq_all]

/-! ### Reading -/

/-- The constraints on a path say what the operands say. -/
theorem holds_of_constraintsOf {path : String} {operands : List (String × Json)}
    {ps : List Predicate} (h : constraintsOf path operands = .ok ps) :
    ps.map (holds record) = operands.map (Json.operandVerdict record path) := by
  induction operands generalizing ps with
  | nil =>
    cases h
    rfl
  | cons operand rest ih =>
    obtain ⟨token, v⟩ := operand
    rw [constraintsOf] at h
    cases hop : Operator.ofToken? token with
    | none => simp [hop] at h
    | some op =>
      rw [hop] at h
      obtain ⟨more, hmore, h⟩ := Except.bind_eq_ok_iff.1 h
      cases h
      have hfirst : (compare path op v).holds record = Json.operandVerdict record path (token, v) := by
        rw [compare, holds_leaf, Json.operandVerdict, hop]
      rw [List.map_cons, List.map_cons, ih hmore, hfirst]

mutual

/-- **A clause is decided as its JSON says.** -/
theorem holds_of_ofJson (record : Record) : (v : Json) → ∀ p, ofJson v = .ok p →
    p.holds record = v.verdict record
  | .obj members, p, h => by
    obtain ⟨branches, hbranches, h⟩ := Except.bind_eq_ok_iff.1 h
    cases h
    rw [holds_ofBranches, Json.verdict]
    exact all_of_branchesOf record members branches hbranches
  | .null, _, h | .bool _, _, h | .num _, _, h | .str _, _, h | .arr _, _, h => by cases h

/-- The branches that members are read as have the verdicts of the members. -/
theorem all_of_branchesOf (record : Record) : (members : List (String × Json)) → ∀ ps,
    branchesOf members = .ok ps →
      Verdict.all (ps.map (holds record)) = Verdict.all (Json.memberVerdicts record members)
  | [], _, h => by
    cases h
    rfl
  | (key, v) :: rest, _, h => by
    obtain ⟨here, hhere, h⟩ := Except.bind_eq_ok_iff.1 h
    obtain ⟨more, hmore, h⟩ := Except.bind_eq_ok_iff.1 h
    cases h
    rw [List.map_append, Verdict.all_append, all_of_branchesAt record key v here hhere,
      all_of_branchesOf record rest more hmore, Json.memberVerdicts, Verdict.all_cons]

/-- The branches that one member is read as have its verdict. -/
theorem all_of_branchesAt (record : Record) (key : String) : (v : Json) → ∀ ps,
    branchesAt key v = .ok ps →
      Verdict.all (ps.map (holds record)) = v.memberVerdict record key
  | .arr items, ps, h => by
    rw [branchesAt] at h
    by_cases hand : key = "and"
    · rw [if_pos hand] at h
      obtain ⟨children, hchildren, h⟩ := Except.bind_eq_ok_iff.1 h
      cases h
      rw [List.map_singleton, Verdict.all_cons, Verdict.all_nil, Verdict.both_true, holds_and,
        allHold_eq_all, holds_of_clausesOf record items children hchildren, Json.memberVerdict,
        if_pos hand]
    · rw [if_neg hand] at h
      by_cases hor : key = "or"
      · rw [if_pos hor] at h
        obtain ⟨children, hchildren, h⟩ := Except.bind_eq_ok_iff.1 h
        cases h
        rw [List.map_singleton, Verdict.all_cons, Verdict.all_nil, Verdict.both_true, holds_or,
          someHolds_eq_any, holds_of_clausesOf record items children hchildren, Json.memberVerdict,
          if_neg hand]
      · rw [if_neg hor] at h
        cases h
  | .obj operands, ps, h => by
    rw [branchesAt] at h
    split at h
    · cases h
    · rw [holds_of_constraintsOf h, Json.memberVerdict]
  | .null, _, h | .bool _, _, h | .num _, _, h | .str _, _, h => by
    rw [branchesAt] at h
    · split at h <;> cases h
    all_goals exact fun _ h => by cases h

/-- The clauses that items are read as have the verdicts of the items. -/
theorem holds_of_clausesOf (record : Record) : (items : List Json) → ∀ ps,
    clausesOf items = .ok ps → ps.map (holds record) = Json.itemVerdicts record items
  | [], _, h => by
    cases h
    rfl
  | v :: rest, _, h => by
    obtain ⟨clause, hclause, h⟩ := Except.bind_eq_ok_iff.1 h
    obtain ⟨more, hmore, h⟩ := Except.bind_eq_ok_iff.1 h
    cases h
    rw [List.map_cons, holds_of_ofJson record v clause hclause,
      holds_of_clausesOf record rest more hmore, Json.itemVerdicts]

end

/-! ### Joining -/

/-- **A conjunction that takes a clause in asks it last.** -/
theorem holds_conjoin (record : Record) (p q : Predicate) :
    (p.conjoin q).holds record = Verdict.both (p.holds record) (q.holds record) := by
  cases p with
  | and children =>
    rw [conjoin, holds_and, holds_and, allHold_eq_all, allHold_eq_all, List.map_append,
      Verdict.all_append, List.map_singleton, Verdict.all_cons, Verdict.all_nil, Verdict.both_true]
  | leaf c | or children =>
    rw [conjoin, holds_and, allHold_eq_all, List.map_cons, List.map_singleton, Verdict.all_cons,
      Verdict.all_cons, Verdict.all_nil, Verdict.both_true]
    intro children heq
    cases heq

/-- Joined clauses have the verdict of all of them together. -/
theorem holdsFor_conjoinAll (record : Record) (clauses : List Predicate) :
    holdsFor (conjoinAll clauses) record = Verdict.all (clauses.map (holds record)) := by
  unfold conjoinAll
  split
  · rfl
  · next single =>
    rw [List.map_singleton, Verdict.all_cons, Verdict.all_nil, Verdict.both_true]
    rfl
  · next clauses _ _ =>
    rw [← allHold_eq_all, ← holds_and]
    rfl

/-- A clause that may be absent, among others. -/
theorem all_toList (record : Record) (filter : Option Predicate) :
    Verdict.all (filter.toList.map (holds record)) = holdsFor filter record := by
  cases filter with
  | none => rfl
  | some p => exact Verdict.both_true _

/-- **Reading and joining clauses keeps what they say and what they complain about.**  On every record
a where-clause is decided as its JSON says, member by member and up to the first that decides it.  A
clause joined to another one is asked only if that one holds; several joined ones are asked one after
the other, and none of them holds everywhere.  So the scope of a reader is asked of what satisfies the
filter. -/
theorem reading_and_joining (record : Record) :
    (∀ v p, ofJson v = .ok p → p.holds record = v.verdict record) ∧
    (∀ p q : Predicate, (p.conjoin q).holds record = Verdict.both (p.holds record) (q.holds record)) ∧
    (∀ clauses : List Predicate,
      holdsFor (conjoinAll clauses) record = Verdict.all (clauses.map (holds record))) ∧
    ∀ (filter : Option Predicate) (access : Access),
      holdsFor (Service.withScope filter access) record =
        Verdict.both (holdsFor filter record) (holdsFor access.clause? record) := by
  refine ⟨holds_of_ofJson record, holds_conjoin record, holdsFor_conjoinAll record, ?_⟩
  intro filter access
  rw [Service.withScope, holdsFor_conjoinAll, List.map_append, Verdict.all_append, all_toList,
    all_toList]

end

/-- Of a record that is open, the second alternative cannot be decided; the first one is left before it
comes to that. -/
theorem reading_and_joining_open : ∃ p,
    ofJson (.obj [("or", .arr [
      .obj [("state", .obj [("equals", .str "closed"), ("like", .null)])],
      .obj [("state", .obj [("like", .null)])]])]) = .ok p ∧
    p.holds [("state", .str "open")] = .error ⟨"state", .like, "expected text"⟩ := by
  obtain ⟨p, hp⟩ : ∃ p, ofJson (.obj [("or", .arr [
      .obj [("state", .obj [("equals", .str "closed"), ("like", .null)])],
      .obj [("state", .obj [("like", .null)])]])]) = .ok p := ⟨_, rfl⟩
  refine ⟨p, hp, ?_⟩
  rw [(reading_and_joining [("state", .str "open")]).1 _ p hp]
  rfl

end Predicate

end HeadlessCms
