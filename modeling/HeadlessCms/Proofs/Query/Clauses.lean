import HeadlessCms.Proofs.Except
import HeadlessCms.Query.Predicate

/-!
# Where-clauses and their JSON

`Json.IsClause` describes the values that are where-clauses, without reading them.  Exactly these are
read (`Predicate.exists_ofJson_iff`).  A member is a combinator by its name alone, so no constraint that
has been read is on a path of such a name, and all other clauses are read as they are written
(`Predicate.ofJson_toJson`).  Together: writing a clause and reading it again changes nothing
(`Predicate.json_roundTrip`).
-/

namespace HeadlessCms

namespace Predicate

/-- The names of members that hold further clauses. -/
def combinators : List String :=
  ["and", "or"]

/-- No constraint is on a path that is taken for a combinator. -/
def NamesNoCombinator (p : Predicate) : Prop :=
  ∀ c ∈ p.leaves, c.path ∉ combinators

/-- There are two combinators. -/
theorem mem_combinators_iff {key : String} : key ∈ combinators ↔ key = "and" ∨ key = "or" := by
  simp [combinators]

end Predicate

mutual

/-- A where-clause in JSON: an object each of whose members is part of a clause. -/
inductive Json.IsClause : Json → Prop
  | object {members : List (String × Json)}
      (each : ∀ m, m ∈ members → Json.IsClausePart m.1 m.2) : Json.IsClause (.obj members)

/-- A member of a where-clause: clauses in an array under the name of a combinator, or operands under
the tokens of operators under any other name. -/
inductive Json.IsClausePart : String → Json → Prop
  | combinator {key : String} {items : List Json} (name : key ∈ Predicate.combinators)
      (each : ∀ v, v ∈ items → Json.IsClause v) : Json.IsClausePart key (.arr items)
  | path {key : String} {operands : List (String × Json)} (name : key ∉ Predicate.combinators)
      (each : ∀ m, m ∈ operands → ∃ op : Operator, op.token = m.1) :
      Json.IsClausePart key (.obj operands)

end

namespace Predicate

/-! ### What is read -/

/-- Constraints are read from operands under tokens. -/
theorem exists_constraintsOf_iff (path : String) {operands : List (String × Json)} :
    (∃ ps, constraintsOf path operands = .ok ps) ↔
      ∀ m ∈ operands, ∃ op : Operator, op.token = m.1 := by
  induction operands with
  | nil => simp [constraintsOf]
  | cons operand rest ih =>
    obtain ⟨token, v⟩ := operand
    rw [List.forall_mem_cons, ← ih, constraintsOf]
    cases hop : Operator.ofToken? token with
    | none =>
      refine ⟨fun ⟨_, h⟩ => (by cases h), ?_⟩
      rintro ⟨⟨op, rfl⟩, -⟩
      rw [Operator.ofToken?_token] at hop
      cases hop
    | some op =>
      simp only [Except.bind_eq_ok_iff]
      constructor
      · rintro ⟨_, more, hmore, -⟩
        exact ⟨⟨op, Operator.token_of_ofToken? hop⟩, more, hmore⟩
      · rintro ⟨-, more, hmore⟩
        exact ⟨_, more, hmore, rfl⟩

/-- A list is part of a clause below a combinator, if all its items are clauses. -/
theorem isClausePart_arr_iff {key : String} {items : List Json} :
    Json.IsClausePart key (.arr items) ↔ key ∈ combinators ∧ ∀ v ∈ items, v.IsClause := by
  constructor
  · rintro ⟨hname, heach⟩
    exact ⟨hname, heach⟩
  · rintro ⟨hname, heach⟩
    exact .combinator hname heach

/-- An object is part of a clause below a path, if all its members name operators. -/
theorem isClausePart_obj_iff {key : String} {operands : List (String × Json)} :
    Json.IsClausePart key (.obj operands) ↔ key ∉ combinators ∧
      ∀ m ∈ operands, ∃ op : Operator, op.token = m.1 := by
  constructor
  · rintro (_ | ⟨hname, heach⟩)
    exact ⟨hname, heach⟩
  · rintro ⟨hname, heach⟩
    exact .path hname heach

mutual

/-- **Exactly the where-clauses are read.** -/
theorem exists_ofJson_iff : (v : Json) → ((∃ p, ofJson v = .ok p) ↔ v.IsClause)
  | .obj members => by
    rw [ofJson]
    constructor
    · rintro ⟨p, hp⟩
      obtain ⟨branches, hbranches, -⟩ := Except.bind_eq_ok_iff.1 hp
      exact .object ((exists_branchesOf_iff members).1 ⟨branches, hbranches⟩)
    · rintro ⟨heach⟩
      obtain ⟨branches, hbranches⟩ := (exists_branchesOf_iff members).2 heach
      exact ⟨_, Except.bind_eq_ok_iff.2 ⟨branches, hbranches, rfl⟩⟩
  | .null | .bool _ | .num _ | .str _ | .arr _ => by
    constructor
    · rintro ⟨p, hp⟩
      cases hp
    · rintro ⟨⟩

/-- Members are read exactly if each of them is part of a clause. -/
theorem exists_branchesOf_iff : (members : List (String × Json)) →
    ((∃ ps, branchesOf members = .ok ps) ↔
      ∀ m ∈ members, Json.IsClausePart m.1 m.2)
  | [] => by simp [branchesOf]
  | (key, v) :: rest => by
    rw [List.forall_mem_cons, ← exists_branchesAt_iff key v, ← exists_branchesOf_iff rest, branchesOf]
    constructor
    · rintro ⟨ps, hps⟩
      obtain ⟨here, hhere, hps⟩ := Except.bind_eq_ok_iff.1 hps
      obtain ⟨more, hmore, -⟩ := Except.bind_eq_ok_iff.1 hps
      exact ⟨⟨here, hhere⟩, more, hmore⟩
    · rintro ⟨⟨here, hhere⟩, more, hmore⟩
      exact ⟨_, Except.bind_eq_ok_iff.2 ⟨here, hhere,
        Except.bind_eq_ok_iff.2 ⟨more, hmore, rfl⟩⟩⟩

/-- One member is read exactly if it is part of a clause. -/
theorem exists_branchesAt_iff (key : String) : (v : Json) →
    ((∃ ps, branchesAt key v = .ok ps) ↔ Json.IsClausePart key v)
  | .arr items => by
    have hmade (make : List Predicate → Predicate) :
        (∃ ps, (clausesOf items >>= fun children => .ok [make children]) = .ok ps) ↔
          ∃ ps, clausesOf items = .ok ps := by
      constructor
      · rintro ⟨_, h⟩
        obtain ⟨children, hchildren, -⟩ := Except.bind_eq_ok_iff.1 h
        exact ⟨children, hchildren⟩
      · rintro ⟨children, hchildren⟩
        exact ⟨_, Except.bind_eq_ok_iff.2 ⟨children, hchildren, rfl⟩⟩
    rw [isClausePart_arr_iff, ← exists_clausesOf_iff items, mem_combinators_iff, branchesAt]
    by_cases hand : key = "and"
    · simpa [hand] using hmade .and
    · by_cases hor : key = "or"
      · simpa [hor] using hmade .or
      · simp [hand, hor]
  | .obj operands => by
    rw [isClausePart_obj_iff, ← exists_constraintsOf_iff key, mem_combinators_iff,
      branchesAt]
    by_cases hname : key = "and" ∨ key = "or"
    · simp [hname]
    · simp [hname]
  | .null | .bool _ | .num _ | .str _ => by
    constructor
    · rintro ⟨ps, hps⟩
      rw [branchesAt] at hps
      · split at hps <;> cases hps
      all_goals exact fun _ h => by cases h
    · rintro ⟨⟩

/-- Items are read exactly if all of them are clauses. -/
theorem exists_clausesOf_iff : (items : List Json) →
    ((∃ ps, clausesOf items = .ok ps) ↔ ∀ v ∈ items, v.IsClause)
  | [] => by simp [clausesOf]
  | v :: rest => by
    rw [List.forall_mem_cons, ← exists_ofJson_iff v, ← exists_clausesOf_iff rest, clausesOf]
    constructor
    · rintro ⟨ps, hps⟩
      obtain ⟨clause, hclause, hps⟩ := Except.bind_eq_ok_iff.1 hps
      obtain ⟨more, hmore, -⟩ := Except.bind_eq_ok_iff.1 hps
      exact ⟨⟨clause, hclause⟩, more, hmore⟩
    · rintro ⟨⟨clause, hclause⟩, more, hmore⟩
      exact ⟨_, Except.bind_eq_ok_iff.2 ⟨clause, hclause,
        Except.bind_eq_ok_iff.2 ⟨more, hmore, rfl⟩⟩⟩

end

/-! ### The paths of what is read -/

/-- Joining branches neither adds constraints nor loses any. -/
theorem leaves_ofBranches (branches : List Predicate) :
    (ofBranches branches).leaves = leavesOf branches := by
  unfold ofBranches
  split
  · simp [leavesOf]
  · simp [leaves]

/-- The constraints of a path have this path. -/
theorem path_of_constraintsOf {path : String} {operands : List (String × Json)}
    {ps : List Predicate} (h : constraintsOf path operands = .ok ps) :
    ∀ c ∈ leavesOf ps, c.path = path := by
  induction operands generalizing ps with
  | nil =>
    cases h
    simp [leavesOf]
  | cons operand rest ih =>
    obtain ⟨token, v⟩ := operand
    rw [constraintsOf] at h
    cases hop : Operator.ofToken? token with
    | none => simp [hop] at h
    | some op =>
      rw [hop] at h
      obtain ⟨more, hmore, h⟩ := Except.bind_eq_ok_iff.1 h
      cases h
      intro c hc
      rw [leavesOf, compare, leaves] at hc
      rcases List.mem_append.1 hc with hc | hc
      · rw [List.mem_singleton.1 hc]
      · exact ih hmore c hc

mutual

/-- **No constraint is read under the name of a combinator.** -/
theorem namesNoCombinator_of_ofJson : (v : Json) → ∀ p, ofJson v = .ok p → p.NamesNoCombinator
  | .obj members, p, h => by
    obtain ⟨branches, hbranches, h⟩ := Except.bind_eq_ok_iff.1 h
    cases h
    rw [NamesNoCombinator, leaves_ofBranches]
    exact path_of_branchesOf members branches hbranches
  | .null, _, h | .bool _, _, h | .num _, _, h | .str _, _, h | .arr _, _, h => by cases h

/-- No constraint that is read from members has a combinator for its path. -/
theorem path_of_branchesOf : (members : List (String × Json)) → ∀ ps,
    branchesOf members = .ok ps → ∀ c ∈ leavesOf ps, c.path ∉ combinators
  | [], _, h => by
    cases h
    simp [leavesOf]
  | (key, v) :: rest, _, h => by
    obtain ⟨here, hhere, h⟩ := Except.bind_eq_ok_iff.1 h
    obtain ⟨more, hmore, h⟩ := Except.bind_eq_ok_iff.1 h
    cases h
    rw [leavesOf_eq_flatMap, List.flatMap_append, ← leavesOf_eq_flatMap, ← leavesOf_eq_flatMap]
    intro c hc
    rcases List.mem_append.1 hc with hc | hc
    · exact path_of_branchesAt key v here hhere c hc
    · exact path_of_branchesOf rest more hmore c hc

/-- No constraint that is read from a single member has a combinator for its path. -/
theorem path_of_branchesAt (key : String) : (v : Json) → ∀ ps,
    branchesAt key v = .ok ps → ∀ c ∈ leavesOf ps, c.path ∉ combinators
  | .arr items, ps, h => by
    have hchildren : ∃ children, clausesOf items = .ok children ∧
        leavesOf ps = leavesOf children := by
      rw [branchesAt] at h
      split at h
      · obtain ⟨children, hchildren, h⟩ := Except.bind_eq_ok_iff.1 h
        cases h
        exact ⟨children, hchildren, by simp [leavesOf, leaves]⟩
      · split at h
        · obtain ⟨children, hchildren, h⟩ := Except.bind_eq_ok_iff.1 h
          cases h
          exact ⟨children, hchildren, by simp [leavesOf, leaves]⟩
        · cases h
    obtain ⟨children, hchildren, hleaves⟩ := hchildren
    rw [hleaves]
    exact path_of_clausesOf items children hchildren
  | .obj operands, ps, h => by
    rw [branchesAt] at h
    split at h
    · cases h
    · next hname =>
      intro c hc
      rw [path_of_constraintsOf h c hc, mem_combinators_iff]
      exact hname
  | .null, _, h | .bool _, _, h | .num _, _, h | .str _, _, h => by
    rw [branchesAt] at h
    · split at h <;> cases h
    all_goals exact fun _ h => by cases h

/-- No constraint that is read from items has a combinator for its path. -/
theorem path_of_clausesOf : (items : List Json) → ∀ ps,
    clausesOf items = .ok ps → ∀ c ∈ leavesOf ps, c.path ∉ combinators
  | [], _, h => by
    cases h
    simp [leavesOf]
  | v :: rest, _, h => by
    obtain ⟨clause, hclause, h⟩ := Except.bind_eq_ok_iff.1 h
    obtain ⟨more, hmore, h⟩ := Except.bind_eq_ok_iff.1 h
    cases h
    intro c hc
    rw [leavesOf] at hc
    rcases List.mem_append.1 hc with hc | hc
    · exact namesNoCombinator_of_ofJson v clause hclause c hc
    · exact path_of_clausesOf rest more hmore c hc

end

/-! ### What is written -/

mutual

/-- **A clause is read as it is written,** unless a path is taken for a combinator. -/
theorem ofJson_toJson : (p : Predicate) → p.NamesNoCombinator → ofJson p.toJson = .ok p
  | .leaf ⟨path, op, v⟩, h => by
    have hpath : ¬ (path = "and" ∨ path = "or") :=
      fun hname => h ⟨path, op, v⟩ (by simp [leaves]) (mem_combinators_iff.2 hname)
    simp [toJson, ofJson, branchesOf, branchesAt, hpath, constraintsOf, Operator.ofToken?_token,
      bind, Except.bind, ofBranches, compare]
  | .and children, h => by
    have hchildren := clausesOf_listToJson children fun c hc => h c (by rwa [leaves])
    simp [toJson, ofJson, branchesOf, branchesAt, hchildren, bind, Except.bind, ofBranches]
  | .or children, h => by
    have hchildren := clausesOf_listToJson children fun c hc => h c (by rwa [leaves])
    simp [toJson, ofJson, branchesOf, branchesAt, hchildren, bind, Except.bind, ofBranches]

/-- A list of clauses is read back, if no path is a combinator. -/
theorem clausesOf_listToJson : (ps : List Predicate) →
    (∀ c ∈ leavesOf ps, c.path ∉ combinators) → clausesOf (listToJson ps) = .ok ps
  | [], _ => rfl
  | p :: rest, h => by
    have hfirst := ofJson_toJson p fun c hc => h c (List.mem_append_left _ hc)
    have hrest := clausesOf_listToJson rest fun c hc => h c (List.mem_append_right _ hc)
    simp [listToJson, clausesOf, hfirst, hrest, bind, Except.bind]

end

/-- **Writing and reading again changes nothing.**  A clause is read as it is written exactly if no path
is taken for a combinator, which is so of every clause that has been read; and exactly the objects that
are where-clauses, however deep, are read. -/
theorem json_roundTrip :
    (∀ p : Predicate, ofJson p.toJson = .ok p ↔ p.NamesNoCombinator) ∧
    (∀ (v : Json) (p : Predicate), ofJson v = .ok p →
      p.NamesNoCombinator ∧ ofJson p.toJson = .ok p) ∧
    ∀ v : Json, (∃ p, ofJson v = .ok p) ↔ v.IsClause := by
  refine ⟨fun p => ⟨namesNoCombinator_of_ofJson p.toJson p, ofJson_toJson p⟩, ?_,
    exists_ofJson_iff⟩
  intro v p h
  have hnames := namesNoCombinator_of_ofJson v p h
  exact ⟨hnames, ofJson_toJson p hnames⟩

/-- A clause with two operators on one path is read as their conjunction, and so is what is written of
it. -/
theorem json_roundTrip_between : ∃ p : Predicate,
    ofJson (.obj [("or", .arr [.obj [("price", .obj [("greater_than", .nat 5),
      ("less_than", .nat 9)])], .obj []])]) = .ok p ∧
    p.NamesNoCombinator ∧ ofJson p.toJson = .ok p := by
  have hread : ofJson (.obj [("or", .arr [.obj [("price", .obj [("greater_than", .nat 5),
      ("less_than", .nat 9)])], .obj []])]) = .ok (.or [.and [compare "price" .greaterThan (.nat 5),
        compare "price" .lessThan (.nat 9)], .and []]) := by rfl
  exact ⟨_, hread, json_roundTrip.2.1 _ _ hread⟩

end Predicate

end HeadlessCms
