import HeadlessCms.Proofs.Except
import HeadlessCms.Proofs.Localization.Clauses
import HeadlessCms.Proofs.Query.Rewriting
import HeadlessCms.Proofs.Store.Selection

/-!
# Clauses on versions

The clause of a reader is written for documents, and is asked of versions with every path moved one
name deeper.  Two rewritings meet there: the move into the version, and the store's own, which puts
points for underscores and the locale behind localized paths.  They commute
(`Store.storedPath_inVersion_eq`), and a moved path reaches in a version what the path reaches in the
document (`Record.resolve_inVersion`).  So a clause is decided on a version as it is decided on the
document with the content of the version (`Store.decides_scopeToVersion`).
-/

namespace HeadlessCms

/-! ### Clauses on moved paths -/

/-- The same fault, at another path. -/
def InvalidOperand.moved (f : String → String) (e : InvalidOperand) : InvalidOperand :=
  { e with path := f e.path }

/-- The path of a constraint does not matter for the outcome, only for its fault. -/
theorem Constraint.test_moved [PatternEngine]
    (f : String → String) (c : Constraint) (values : List Json) :
    ({ c with path := f c.path } : Constraint).test values =
      (c.test values).mapError (InvalidOperand.moved f) := by
  obtain ⟨path, operator, value⟩ := c
  cases operator <;> simp only [test]
  case like =>
    cases textOf? value with
    | none => rfl
    | some pattern => cases h : patternRefusal? pattern <;> simp only [h] <;> rfl
  case near => cases NearQuery.ofJson? value <;> rfl
  case within => cases polygonsOf? value <;> rfl
  case intersects => cases polygonsOf? value <;> rfl
  all_goals rfl

namespace Predicate

variable [PatternEngine] {record other : Record} {f : String → String}

mutual

/-- **A clause is decided alike where its moved paths reach the same values.**  This includes the
clauses that cannot be decided: the same operand is at fault, and evaluation stops at the same
place. -/
theorem holds_moved : (p : Predicate) →
    (∀ c ∈ p.leaves, Record.resolve other (f c.path) = Record.resolve record c.path) →
    (p.mapPaths f).holds other = (p.holds record).mapError (InvalidOperand.moved f)
  | .leaf c, h => by
    rw [mapPaths, holds_leaf, holds_leaf, Constraint.holds, Constraint.holds,
      h c (by simp [leaves])]
    exact c.test_moved f _
  | .and children, h => by
    rw [leaves] at h
    rw [mapPaths, holds_and, holds_and]
    exact allHold_moved children h
  | .or children, h => by
    rw [leaves] at h
    rw [mapPaths, holds_or, holds_or]
    exact someHolds_moved children h

/-- Clauses whose paths lead to the same values elsewhere all hold there alike. -/
theorem allHold_moved : (ps : List Predicate) →
    (∀ c ∈ leavesOf ps, Record.resolve other (f c.path) = Record.resolve record c.path) →
    allHold other (mapPathsOf f ps) = (allHold record ps).mapError (InvalidOperand.moved f)
  | [], _ => by rw [mapPathsOf, allHold, allHold, Except.mapError_ok]
  | p :: rest, h => by
    rw [leavesOf, List.forall_mem_append] at h
    rw [mapPathsOf, allHold, allHold, holds_moved p h.1]
    cases p.holds record with
    | error e => rfl
    | ok here =>
      cases here with
      | false => rfl
      | true => exact allHold_moved rest h.2

/-- Some of them holds there exactly if some of them holds here. -/
theorem someHolds_moved : (ps : List Predicate) →
    (∀ c ∈ leavesOf ps, Record.resolve other (f c.path) = Record.resolve record c.path) →
    someHolds other (mapPathsOf f ps) = (someHolds record ps).mapError (InvalidOperand.moved f)
  | [], _ => by rw [mapPathsOf, someHolds, someHolds, Except.mapError_ok]
  | p :: rest, h => by
    rw [leavesOf, List.forall_mem_append] at h
    rw [mapPathsOf, someHolds, someHolds, holds_moved p h.1]
    cases p.holds record with
    | error e => rfl
    | ok here =>
      cases here with
      | true => rfl
      | false => exact someHolds_moved rest h.2

end

end Predicate

/-! ### Paths into versions -/

/-- A path other than `id` does not become `id` by what the store does to it. -/
theorem Store.storedPath_ne_id {localized : List String} {locale : Option String} {path : String}
    (h : path ≠ "id") : storedPath localized locale path ≠ "id" := by
  have hdata : Path.toData path ≠ "id" := by
    intro heq
    apply h
    apply Path.eq_id_of_segments
    rw [heq]
    rfl
  -- Where a locale is put in there is a point.
  have hpoint (l : String) : Path.inLocale localized l (Path.toData path) ≠ "id" := by
    induction localized with
    | nil => exact hdata
    | cons above rest ih =>
      have hdot (s t : String) : s ++ "." ++ t ≠ "id" := by
        intro heq
        have hmem : '.' ∈ (s ++ "." ++ t).toList := by simp
        rw [heq] at hmem
        exact absurd hmem (by decide)
      unfold Path.inLocale
      split
      · exact hdot _ _
      · split
        · exact hdot _ _
        · exact ih
  unfold storedPath
  cases locale with
  | none => exact hdata
  | some l =>
    dsimp only
    split
    · exact hdata
    · exact hpoint l

/-- **The move into a version commutes with what the store does to a path.** -/
theorem Store.storedPath_inVersion_eq {localized : List String} (h : "id" ∉ localized)
    (locale : Option String) (path : String) :
    storedPath (localized.map ("version." ++ ·)) locale (Path.inVersion path) =
      Path.inVersion (storedPath localized locale path) := by
  by_cases hid : path = "id"
  · subst hid
    -- `id` and `parent` stay as they are: nothing localized lies at or above them.
    have hparent : storedPath (localized.map ("version." ++ ·)) locale "parent" = "parent" := by
      apply storedPath_eq_self rfl
      intro above habove hbelow
      obtain ⟨a, _, rfl⟩ := List.mem_map.1 habove
      rw [Path.atOrBelow_iff, Path.segments_version] at hbelow
      exact absurd (List.cons_prefix_cons.1 hbelow).1 (by decide)
    have hself : storedPath localized locale "id" = "id" := by
      apply storedPath_eq_self rfl
      intro above habove hbelow
      rcases hbelow with heq | ⟨below, hbelow⟩
      · exact h (heq ▸ habove)
      · have hdot : '.' ∈ "id".toList := by
          rw [hbelow]
          simp
        exact absurd hdot (by decide)
    have hmoved : Path.inVersion "id" = "parent" := rfl
    rw [hself, hmoved, hparent]
  · have hmoved : Path.inVersion path = "version." ++ path := if_neg hid
    have hstored : Path.inVersion (storedPath localized locale path) =
        "version." ++ storedPath localized locale path := if_neg (storedPath_ne_id hid)
    rw [hmoved, hstored, storedPath_inVersion]

/-- **A moved path reaches in a version what the path reaches in the document** with the content of
the version. -/
theorem Record.resolve_inVersion {version data : Record} {id : String}
    (hfree : Table.get? "id" data = none)
    (hparent : Table.get? "parent" version = some (.str id))
    (hversion : Table.get? "version" version = some (.obj data)) (path : String) :
    Record.resolve version (Path.inVersion path) =
      Record.resolve (Table.insert "id" (.str id) data) path := by
  by_cases hid : path = "id"
  · subst hid
    have hmoved : Path.inVersion "id" = "parent" := rfl
    have hlive : Table.get? "id" (Table.insert "id" (.str id) data) = some (.str id) := by
      rw [Table.get?_insert, if_pos rfl]
    have howner : Path.segments "parent" = ["parent"] := rfl
    have hname : Path.segments "id" = ["id"] := rfl
    rw [hmoved, resolve_name howner, resolve_name hname, hparent, hlive]
  · have hmoved : Path.inVersion path = "version." ++ path := if_neg hid
    obtain ⟨name, rest, hnames⟩ := List.exists_cons_of_ne_nil (Path.segments_ne_nil path)
    rw [hmoved, resolve_eq_reach, resolve_eq_reach, Path.segments_version, Json.reach_obj_cons,
      hversion, Option.toList_some, List.flatMap_singleton, hnames, Json.reach_obj_cons,
      Json.reach_obj_cons, Table.get?_insert]
    by_cases hname : name = "id"
    · -- Below the id of a document there is nothing, and the content has no id.
      subst hname
      rw [if_pos rfl, hfree]
      cases rest with
      | nil =>
        have hjoin := Text.join_splitOn '.' path.toList
        have hsplit : Text.splitOn '.' path.toList = ["id".toList] := by
          have hmap := congrArg (List.map String.toList) hnames
          simpa only [Path.segments, List.map_map, Function.comp_def, String.toList_ofList,
            List.map_id', List.map_cons, List.map_nil] using hmap
        rw [hsplit, Text.join] at hjoin
        exact absurd (String.toList_inj.1 hjoin.symm) hid
      | cons next more => rfl
    · rw [if_neg hname]

/-! ### Clauses of readers -/

section

variable [PatternEngine]

/-- Whether a record satisfies a clause, as a query on a collection decides it. -/
def Store.decides (s : Store) (name : String) (clause : Predicate) (locale : Option String)
    (record : Record) : Except StoreError Bool := do
  let query ← s.buildQuery name (some clause) locale
  (Predicate.holdsFor query.filter record).mapError .invalidOperand

/-- A registered collection decides a clause at its stored paths. -/
theorem Store.decides_register (s : Store) (name : String) (localized : List String)
    (clause : Predicate) (locale : Option String) (record : Record) :
    (s.register name localized).decides name clause locale record =
      ((clause.mapPaths (storedPath localized locale)).holds record).mapError .invalidOperand := by
  have hget : Table.get? name (s.register name localized).collections =
      some ⟨s.recordsOf name, localized⟩ := by
    rw [register, Table.get?_insert, if_pos rfl]
  rw [decides, buildQuery_of_get? hget]
  rfl

/-- **A clause on documents, asked of versions, means the same.**  On a version it is decided as on
the document with the content of the version, in every locale and for all paths: it holds of both, or
of none, or the same operand cannot be evaluated on both. -/
theorem Store.decides_scopeToVersion (s t : Store) (docs versions : String) (p : Predicate)
    {data version : Record} {id : String} {localized : List String}
    (hfree : Table.get? "id" data = none)
    (hparent : Table.get? "parent" version = some (.str id))
    (hversion : Table.get? "version" version = some (.obj data)) (hid : "id" ∉ localized)
    (locale : Option String) :
    ∃ decision : Except InvalidOperand Bool,
      (t.register docs localized).decides docs p locale (Table.insert "id" (.str id) data) =
        decision.mapError .invalidOperand ∧
      (s.register versions (localized.map ("version." ++ ·))).decides versions p.scopeToVersion
        locale version = (decision.mapError (InvalidOperand.moved Path.inVersion)).mapError
          .invalidOperand := by
  refine ⟨_, decides_register t docs localized p locale _, ?_⟩
  have hpaths : (fun path => storedPath (localized.map ("version." ++ ·)) locale
      (Path.inVersion path)) = fun path => Path.inVersion (storedPath localized locale path) := by
    funext path
    exact storedPath_inVersion_eq hid locale path
  rw [decides_register, Predicate.scopeToVersion, Predicate.mapPaths_mapPaths, hpaths,
    ← Predicate.mapPaths_mapPaths]
  apply congrArg (Except.mapError StoreError.invalidOperand)
  apply Predicate.holds_moved
  intro c _
  exact Record.resolve_inVersion hfree hparent hversion c.path

end

/-- A post of which the reader may see the one with the id `p` and those with `open` in the English
title; the German one cannot be asked for in this way. -/
theorem Store.decides_scopeToVersion_post :
    Table.get? "id" [("title", Json.obj [("en", .str "open")])] = none ∧
      ∃ decision : Except InvalidOperand Bool,
        (Store.empty.register "posts" ["title"]).decides "posts"
            (.or [.compare "id" .equals (.str "p"), .compare "title" .like .null]) (some "en")
            (Table.insert "id" (.str "q") [("title", .obj [("en", .str "open")])]) =
          decision.mapError .invalidOperand ∧
        (Store.empty.register "_posts_versions" (["title"].map ("version." ++ ·))).decides
            "_posts_versions"
            (.scopeToVersion (.or [.compare "id" .equals (.str "p"), .compare "title" .like .null]))
            (some "en")
            [("parent", .str "q"), ("version", .obj [("title", .obj [("en", .str "open")])])] =
          (decision.mapError (InvalidOperand.moved Path.inVersion)).mapError .invalidOperand :=
  ⟨rfl, Store.decides_scopeToVersion Store.empty Store.empty "posts" "_posts_versions" _ rfl rfl rfl
    (by decide) _⟩

end HeadlessCms
