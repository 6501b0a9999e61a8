import HeadlessCms.Proofs.Document.Snapshot
import HeadlessCms.Proofs.Localization.Clauses
import HeadlessCms.Proofs.Store.InStep

/-!
# Versions in a mirror

A mirror may show the versions of an entity as a whole (`View.ShowsAll`).  The clauses on versions do not
ask for numbers, so the newest draft of a document is the same in the mirror
(`Draft.inStep_resolve`), and a version that is saved is saved in the mirror, too
(`History.inStep_save`).
-/

namespace HeadlessCms

open Time (Instant)

namespace Predicate

/-- A clause on stored documents ignores numbers if it names none of them. -/
theorem ignoresNumbers_storedPath {p : Predicate} (h : ∀ k ∈ p.leaves,
      (Path.segments (Path.toData k.path)).head? ≠ some Record.sequenceField)
    (localized : List String) (locale : Option String) :
    (p.mapPaths (Store.storedPath localized locale)).IgnoresNumbers := by
  intro k hk
  rw [leaves_mapPaths] at hk
  obtain ⟨leaf, hleaf, rfl⟩ := List.mem_map.1 hk
  rw [Store.head?_segments_storedPath]
  exact h leaf hleaf

/-- A comparison at a path that does not start at the numbers does not ask for them. -/
theorem head?_compare {path : String} {op : Operator} {value : Json}
    (h : (Path.segments (Path.toData path)).head? ≠ some Record.sequenceField) :
    ∀ k ∈ (compare path op value).leaves,
      (Path.segments (Path.toData k.path)).head? ≠ some Record.sequenceField := by
  rw [compare, leaves]
  exact List.forall_mem_singleton.2 h

/-- No path in a version leads to its number. -/
theorem head?_inVersion (path : String) :
    (Path.segments (Path.toData (Path.inVersion path))).head? ≠ some Record.sequenceField := by
  unfold Path.inVersion
  split
  · decide
  · rw [Path.toData_version, Path.segments_version, List.head?_cons]
    decide

end Predicate

/-- A collection that is shown as a whole, with the same localized paths. -/
structure View.ShowsAll (v : View) (rest : String → List Record) (name : String) : Prop where
  shown : v.shows name
  own : ∀ r, v.own name r = true
  paths : v.mirrorPaths name = v.paths name
  rest : rest name = []

variable [PatternEngine]
variable {env : Surroundings} {v : View} {rest : String → List Record} {entity : Entity}
  {kind : EntityKind}

/-- Every query on it that ignores numbers is answered alike. -/
theorem View.ShowsAll.mirrored {name : String} (h : v.ShowsAll rest name) {filter : Option Predicate}
    (hfilter : ∀ p ∈ filter, p.IgnoresNumbers) (locale : Option String) :
    (Query.mk name filter locale).Mirrored v rest where
  shown := h.shown
  ignores := hfilter
  blind r hr := by
    rw [h.rest] at hr
    cases hr

/-! ### Drafts -/

namespace Draft

omit [PatternEngine] in
/-- The clause that looks for the newest version does not ask for the numbers. -/
theorem head?_clause (kind : EntityKind) (id : String) (updatedAt : Instant) (access : Access) :
    ∀ k ∈ (clause kind id updatedAt access).leaves,
      (Path.segments (Path.toData k.path)).head? ≠ some Record.sequenceField := by
  have hnewer : ∀ k ∈ (newerThan kind id updatedAt).leaves,
      (Path.segments (Path.toData k.path)).head? ≠ some Record.sequenceField := by
    cases kind <;>
      simp only [newerThan, Predicate.compare, Predicate.leaves, Predicate.leavesOf,
        List.nil_append, List.cons_append, List.append_nil, List.forall_mem_cons, if_true, if_false,
        reduceCtorEq] <;>
      decide
  unfold clause
  split
  · intro k hk
    rw [Predicate.leaves_conjoin, Predicate.scopeToVersion, Predicate.leaves_mapPaths,
      List.mem_append] at hk
    rcases hk with hk | hk
    · exact hnewer k hk
    · obtain ⟨k, _, rfl⟩ := List.mem_map.1 hk
      exact Predicate.head?_inVersion k.path
  · exact hnewer

/-- **The newest draft is the same.** -/
theorem inStep_resolve (h : v.ShowsAll rest entity.versionsCollection) (doc : Document)
    (locale : Option String) (access : Access) :
    Action.InStep env (Backend.Abreast env v rest) (resolve entity kind doc locale access)
      fun _ => True := by
  unfold resolve
  split
  · next _ updatedAt _ _ =>
    split
    · exact .pure trivial
    · dsimp only
      refine (Action.InStep.buildQuery h.shown fun p _ => by rw [h.paths]).bind fun q hq => ?_
      subst hq
      have hignores : ∀ p ∈ (some (clause kind doc.id updatedAt access)).map
          (·.mapPaths (Store.storedPath (v.paths entity.versionsCollection) locale)),
          p.IgnoresNumbers := by
        intro p hp
        cases hp
        exact Predicate.ignoresNumbers_storedPath (head?_clause _ _ _ _) _ _
      refine Action.InStep.findOne_bind (h.mirrored hignores locale) ?_ (fun found => ?_)
        fun found => ?_
      · exact List.forall_mem_singleton.2 (by decide)
      · cases found with
        | none => rfl
        | some r =>
          rw [Option.map_some]
          dsimp only
          rw [Record.sanitize_sanitize]
      · cases found with
        | none => exact .pure trivial
        | some r =>
          exact .ofExcept_bind fun _ _ => .pure trivial
  · exact .pure trivial

end Draft

/-! ### History -/

namespace History

/-- Pruning deletes the same versions. -/
theorem inStep_prune (h : v.ShowsAll rest entity.versionsCollection) (parent : Option String)
    (max : Nat) :
    Action.InStep env (Backend.Abreast env v rest) (prune entity kind parent max) fun _ => True := by
  unfold prune
  dsimp only
  refine (Action.InStep.buildQuery h.shown fun p _ => by rw [h.paths]).bind fun q hq => ?_
  subst hq
  have howner : ∀ p ∈ (ownerClause kind parent).map
      (·.mapPaths (Store.storedPath (v.paths entity.versionsCollection) none)),
      p.IgnoresNumbers := by
    intro p hp
    obtain ⟨owner, howner, rfl⟩ := Option.map_eq_some_iff.1 hp
    refine Predicate.ignoresNumbers_storedPath ?_ _ _
    unfold ownerClause at howner
    split at howner
    · cases howner
      exact Predicate.head?_compare (by decide)
    · cases howner
  refine (Action.InStep.find (h.mirrored howner none) rfl rfl
    (List.forall_mem_singleton.2 (by decide)) none).bind fun history _ => ?_
  split
  · exact .pure trivial
  · refine (Action.InStep.buildQuery h.shown fun p _ => by rw [h.paths]).bind fun q hq => ?_
    subst hq
    refine Action.InStep.deleteMany h.shown h.own fun p hp => ?_
    cases hp
    exact Predicate.ignoresNumbers_storedPath (Predicate.head?_compare (by decide)) _ _

/-- **A version is saved in both.** -/
theorem inStep_save (hids : Function.Injective env.ids)
    (h : v.ShowsAll rest entity.versionsCollection) (parent : Option String) {data : Record}
    (status : Status) (time : Instant) :
    Action.InStep env (Backend.Abreast env v rest) (save entity kind parent data status time)
      fun _ => True := by
  unfold save
  refine (Action.InStep.insert hids h.shown (ascending_newRecord kind parent data status time)
    (id?_newRecord kind parent data status time) fun _ _ => h.own _).bind fun stored _ => ?_
  refine .ofExcept_bind fun version _ => ?_
  split
  · split
    · exact (inStep_prune h parent _).bind fun _ _ => .pure trivial
    · exact .pure trivial
  · exact .pure trivial

end History

end HeadlessCms
