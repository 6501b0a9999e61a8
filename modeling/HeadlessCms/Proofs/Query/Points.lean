import HeadlessCms.Proofs.Query.Operands
import HeadlessCms.Proofs.Query.Operators

/-!
# Points and lists of points

A constraint on points takes each value at its path for one point: a pair of numbers, or an object with
coordinates.  A list of points is neither (`Point.ofJson?_list`), so constraints on points never hold of
it, whatever holds of the points in it (`Record.geo_on_list`).  Comparison and equality look into lists.
-/

namespace HeadlessCms

/-! ### Replacing the value at a path -/

mutual

/-- A value of which all values that segments of a path reach are replaced. -/
def replaceReached (new : Json) : Json → List String → Json
  | _, [] => new
  | .obj members, head :: rest => .obj (replaceMember new members head rest)
  | .arr items, head :: rest =>
    match arrayIndex? head with
    | some i => .arr (replaceItem new items i rest)
    | none => .arr (replaceItems new items (head :: rest))
  | v, _ :: _ => v

/-- Members of which the values are replaced that are reached through a name. -/
def replaceMember (new : Json) :
    List (String × Json) → String → List String → List (String × Json)
  | [], _, _ => []
  | (key, v) :: more, head, rest =>
    if key = head then (key, replaceReached new v rest) :: more
    else (key, v) :: replaceMember new more head rest

/-- Items of which the values are replaced that are reached through a position. -/
def replaceItem (new : Json) : List Json → Nat → List String → List Json
  | [], _, _ => []
  | v :: more, 0, rest => replaceReached new v rest :: more
  | v :: more, i + 1, rest => v :: replaceItem new more i rest

/-- Items of which the values are replaced that are reached through any of them. -/
def replaceItems (new : Json) : List Json → List String → List Json
  | [], _ => []
  | v :: more, segments => replaceReached new v segments :: replaceItems new more segments

end

/-- A record of which the values at a data path are replaced. -/
def Record.replaceAt (r : Record) (path : String) (new : Json) : Record :=
  match Path.segments path with
  | [] => r
  | head :: rest => replaceMember new r head rest

mutual

/-- **What has been replaced is reached in its place.** -/
theorem reach_replaceReached (new : Json) : (v : Json) → (segments : List String) →
    reach (replaceReached new v segments) segments = (reach v segments).map fun _ => new
  | v, [] => by simp [replaceReached]
  | .obj members, head :: rest => by
    simp only [replaceReached, reach]
    exact reachMember_replaceMember new members head rest
  | .arr items, head :: rest => by
    cases h : arrayIndex? head with
    | some i =>
      simp only [replaceReached, h, reach]
      exact reachItem_replaceItem new items i rest
    | none =>
      simp only [replaceReached, h, reach]
      exact reachItems_replaceItems new items (head :: rest)
  | .null, _ :: _ | .bool _, _ :: _ | .num _, _ :: _ | .str _, _ :: _ => rfl

/-- A replacement in members is reached at its path, as often as something has been there. -/
theorem reachMember_replaceMember (new : Json) : (members : List (String × Json)) →
    (head : String) → (rest : List String) →
    reachMember (replaceMember new members head rest) head rest =
      (reachMember members head rest).map fun _ => new
  | [], _, _ => rfl
  | (key, v) :: more, head, rest => by
    by_cases h : key = head
    · rw [replaceMember, if_pos h, reachMember, if_pos h, reachMember, if_pos h]
      exact reach_replaceReached new v rest
    · rw [replaceMember, if_neg h, reachMember, if_neg h, reachMember, if_neg h]
      exact reachMember_replaceMember new more head rest

/-- A replacement at a position in a list is reached at its path, as often as something has been
there. -/
theorem reachItem_replaceItem (new : Json) : (items : List Json) → (i : Nat) →
    (rest : List String) →
    reachItem (replaceItem new items i rest) i rest = (reachItem items i rest).map fun _ => new
  | [], _, _ => rfl
  | v :: _, 0, rest => reach_replaceReached new v rest
  | _ :: more, i + 1, rest => reachItem_replaceItem new more i rest

/-- A replacement in all items of a list is reached at its path, as often as something has been
there. -/
theorem reachItems_replaceItems (new : Json) : (items : List Json) → (segments : List String) →
    reachItems (replaceItems new items segments) segments =
      (reachItems items segments).map fun _ => new
  | [], _ => rfl
  | v :: more, segments => by
    rw [replaceItems, reachItems, reachItems, List.map_append, reach_replaceReached new v segments,
      reachItems_replaceItems new more segments]

end

/-- A replacement in a record is reached at its path, as often as something has been there. -/
theorem Record.resolve_replaceAt (r : Record) (path : String) (new : Json) :
    (r.replaceAt path new).resolve path = (r.resolve path).map fun _ => new := by
  unfold replaceAt resolve
  cases Path.segments path with
  | nil => rfl
  | cons head rest => exact reachMember_replaceMember new r head rest

/-! ### Lists of points -/

/-- A list of points is no point: the parts of a pair are numbers, and a number is no point. -/
theorem Point.ofJson?_list {points : List Json}
    (h : ∀ q ∈ points, (Point.ofJson? q).isSome = true) : Point.ofJson? (.arr points) = none := by
  cases points with
  | nil => rfl
  | cons q rest =>
    have hq : q.asFloat? = none := by
      have hpoint := h q List.mem_cons_self
      cases q with
      | num n => cases hpoint
      | _ => rfl
    match rest with
    | [] => rfl
    | [other] => rw [ofJson?, hq]; rfl
    | _ :: _ :: _ => rfl

namespace Constraint

/-- The points that a constraint on points accepts, if its operand has the form for it. -/
def accepts? (c : Constraint) : Option (Point → Bool) :=
  match c.operator with
  | .near => (NearQuery.ofJson? c.value).map NearQuery.accepts
  | .within | .intersects => (polygonsOf? c.value).map fun polygons p => polygons.any (·.contains p)
  | _ => none

/-- An operand that accepts points is a matter of the points among the values. -/
theorem test_of_accepts? [PatternEngine]
    {c : Constraint} {accepts : Point → Bool} (h : c.accepts? = some accepts)
    (values : List Json) : c.test values = .ok (anyPoint values accepts) := by
  obtain ⟨path, operator, value⟩ := c
  cases operator with
  | near =>
    obtain ⟨query, hquery, rfl⟩ := Option.map_eq_some_iff.1 h
    simp only [test, hquery]
  | within | intersects =>
    obtain ⟨polygons, hpolygons, rfl⟩ := Option.map_eq_some_iff.1 h
    simp only [test, hpolygons]
  | _ => cases h

/-- A geographic operand that can be evaluated accepts points. -/
theorem exists_accepts? [PatternEngine] {c : Constraint} (hgeo : c.operator.category = .geo)
    (h : c.Evaluable) :
    ∃ accepts, c.accepts? = some accepts := by
  obtain ⟨path, operator, value⟩ := c
  cases operator with
  | near =>
    obtain ⟨query, hquery⟩ := Option.isSome_iff_exists.1 h
    exact ⟨_, Option.map_eq_some_iff.2 ⟨query, hquery, rfl⟩⟩
  | within | intersects =>
    obtain ⟨polygons, hpolygons⟩ := Option.isSome_iff_exists.1 h
    exact ⟨_, Option.map_eq_some_iff.2 ⟨polygons, hpolygons, rfl⟩⟩
  | _ => cases hgeo

end Constraint

namespace Record

variable {r : Record} {path : String} {operator : Operator} {operand : Json}

/-- A constraint on points, where there is one value at its path. -/
theorem holds_of_accepts? [PatternEngine] {accepts : Point → Bool} {v : Json}
    (haccepts : Constraint.accepts? ⟨path, operator, operand⟩ = some accepts)
    (hvalue : r.resolve path = [v]) :
    (Predicate.compare path operator operand).holds r = .ok ((Point.ofJson? v).any accepts) := by
  rw [Predicate.compare, Predicate.holds_leaf, Constraint.holds,
    Constraint.test_of_accepts? haccepts, hvalue, anyPoint]
  cases h : Point.ofJson? v <;> simp [h]

/-- **A list of points meets no constraint on points.**  The constraint can be decided and does not
hold, while in place of the list each of its points meets it if it is accepted.  So a list meets what
one of its points meets only if no point is accepted. -/
theorem geo_on_list [PatternEngine] {points : List Json} (hlist : r.resolve path = [.arr points])
    (hpoints : ∀ q ∈ points, (Point.ofJson? q).isSome = true) (hgeo : operator.category = .geo)
    (hoperand : Constraint.Evaluable ⟨path, operator, operand⟩) :
    (Predicate.compare path operator operand).holds r = .ok false ∧
    ∃ accepts, Constraint.accepts? ⟨path, operator, operand⟩ = some accepts ∧
      (∀ q ∈ points, (Predicate.compare path operator operand).holds (r.replaceAt path q) =
        .ok ((Point.ofJson? q).any accepts)) ∧
      ((r.Meets path operator operand ↔
          ∃ q ∈ points, (r.replaceAt path q).Meets path operator operand) ↔
        ∀ q ∈ points, (Point.ofJson? q).any accepts = false) := by
  obtain ⟨accepts, haccepts⟩ := Constraint.exists_accepts? hgeo hoperand
  have hfalse : (Predicate.compare path operator operand).holds r = .ok false := by
    rw [holds_of_accepts? haccepts hlist, Point.ofJson?_list hpoints]
    rfl
  have hpoint (q : Json) : (Predicate.compare path operator operand).holds (r.replaceAt path q) =
      .ok ((Point.ofJson? q).any accepts) :=
    holds_of_accepts? haccepts (by rw [resolve_replaceAt, hlist]; rfl)
  refine ⟨hfalse, accepts, haccepts, fun q _ => hpoint q, ?_⟩
  have hnever : ¬ r.Meets path operator operand := fun h => by
    cases hfalse.symm.trans h
  have heach (q : Json) : (r.replaceAt path q).Meets path operator operand ↔
      (Point.ofJson? q).any accepts = true := by
    rw [Meets, hpoint q, Except.ok.injEq]
  simp only [heach, iff_false_left hnever, not_exists, not_and, Bool.not_eq_true]

/-- A stop of a walk. -/
def stop : Json :=
  .arr [.num (.int 5), .num (.int 5)]

/-- A walk with one stop on it. -/
def walk : Record :=
  [("spots", .arr [stop])]

/-- A square around the stop. -/
def square : Json :=
  .obj [("coordinates", .arr [.arr [
      .arr [.num (.int 0), .num (.int 0)], .arr [.num (.int 10), .num (.int 0)],
      .arr [.num (.int 10), .num (.int 10)], .arr [.num (.int 0), .num (.int 10)],
      .arr [.num (.int 0), .num (.int 0)]]]),
    ("type", .str "Polygon")]

/-- A walk with a list of spots is not found within the square around them. -/
theorem geo_on_list_walk :
    (Predicate.compare "spots" .within square).holds walk = .ok false := by
  have hoperand : Constraint.Evaluable ⟨"spots", .within, square⟩ :=
    show (polygonsOf? square).isSome = true from rfl
  have hlist : walk.resolve "spots" = [.arr [stop]] := rfl
  exact (geo_on_list hlist (by decide) rfl hoperand).1

/-- **The stop lies in the square, but the walk has no stop there.** -/
theorem walk_misses_square :
    ¬ (walk.Meets "spots" .within square ↔
      ∃ q ∈ [stop], (walk.replaceAt "spots" q).Meets "spots" .within square) := by
  intro h
  have hinside : (Point.ofJson? stop).any
      (fun p => ((polygonsOf? square).getD []).any (·.contains p)) = true := by
    decide +kernel
  have hstop : (walk.replaceAt "spots" stop).Meets "spots" .within square := by
    have hvalue : (walk.replaceAt "spots" stop).resolve "spots" = [stop] := rfl
    rw [Meets, holds_of_accepts? rfl hvalue]
    exact congrArg Except.ok hinside
  cases h.2 ⟨stop, List.mem_singleton_self _, hstop⟩

end Record

end HeadlessCms
