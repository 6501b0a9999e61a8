import HeadlessCms.Proofs.Config
import HeadlessCms.Proofs.Except
import HeadlessCms.Proofs.Store.Actions
import HeadlessCms.Proofs.Store.Contents
import HeadlessCms.Service.Basic

/-!
# Starting a service

Starting a service declares its collections to the store (`Service.runOn_start`).  A collection that
has just been declared holds nothing (`Store.holds_nil_declared`).
-/

namespace HeadlessCms

/-! ### The registry -/

/-- What a compiled entity keeps of its declaration. -/
theorem CompiledEntity.of_compile {kind : EntityKind} {e : Entity} {c : CompiledEntity}
    (h : compile kind e = .ok c) :
    c.entity = e ∧ c.kind = kind ∧ c.localizedPaths = Field.localizedPaths e.fields := by
  obtain ⟨schema, _, h⟩ := Except.bind_eq_ok_iff.1 h
  split at h
  · obtain ⟨versions, _, h⟩ := Except.bind_eq_ok_iff.1 h
    cases h
    exact ⟨rfl, rfl, rfl⟩
  · cases h
    exact ⟨rfl, rfl, rfl⟩

/-- The registry of a configuration with one entity, a collection. -/
theorem Registry.build_singleton {config : Config} {e : Entity} {registry : Registry}
    (hcollections : config.collections = [e]) (hglobals : config.globals = [])
    (h : build config = .ok registry) :
    ∃ c, CompiledEntity.compile .collection e = .ok c ∧ registry = ⟨[(e.slug, c)], []⟩ := by
  obtain ⟨collections, hadded, h⟩ := Except.bind_eq_ok_iff.1 h
  obtain ⟨globals, hnone, h⟩ := Except.bind_eq_ok_iff.1 h
  rw [hcollections] at hadded
  rw [hglobals] at hnone
  obtain ⟨c, hcompile, hadded⟩ := Except.bind_eq_ok_iff.1 hadded
  cases hadded
  cases hnone
  cases h
  exact ⟨c, hcompile, rfl⟩

/-! ### Declaring collections -/

namespace Store

/-- The store once collections have been declared. -/
def declare (s : Store) (names : List (String × List String)) : Store :=
  names.foldl (fun s n => s.register n.1 n.2) s

/-- Declaring a collection changes this collection only. -/
theorem sameBut_register (s : Store) (name : String) (paths : List String) :
    SameBut name s (s.register name paths) := by
  intro other hother
  simp [register, Table.get?_insert, hother]

/-- A declared collection is there, with its records and the paths declared. -/
theorem get?_register (s : Store) (name : String) (paths : List String) :
    Table.get? name (s.register name paths).collections = some ⟨s.recordsOf name, paths⟩ := by
  simp [register, Table.get?_insert]

/-- Declaring collections draws no ids. -/
theorem drawn_declare (s : Store) (names : List (String × List String)) :
    (s.declare names).drawn = s.drawn := by
  induction names generalizing s with
  | nil => rfl
  | cons n rest ih => exact (ih _).trans rfl

/-- Collections are declared one after the other. -/
theorem declare_append (s : Store) (names names' : List (String × List String)) :
    s.declare (names ++ names') = (s.declare names).declare names' :=
  List.foldl_append

/-- What is not declared stays as it was. -/
theorem get?_declare_of_notMem {s : Store} {name : String} {names : List (String × List String)}
    (h : name ∉ names.map (·.1)) :
    Table.get? name (s.declare names).collections = Table.get? name s.collections := by
  induction names generalizing s with
  | nil => rfl
  | cons n rest ih =>
    simp only [List.map_cons, List.mem_cons, not_or] at h
    exact (ih h.2).trans (sameBut_register s n.1 n.2 name h.1)

/-- A declaration moves no records. -/
theorem recordsOf_declare (s : Store) (name : String) (names : List (String × List String)) :
    (s.declare names).recordsOf name = s.recordsOf name := by
  induction names generalizing s with
  | nil => rfl
  | cons n rest ih =>
    refine (ih _).trans ?_
    by_cases hname : name = n.1
    · rw [hname, recordsOf, get?_register]
    · rw [recordsOf, sameBut_register s n.1 n.2 name hname, recordsOf]

/-- **A collection has the paths that are declared for it,** if all declarations of it agree. -/
theorem get?_declare {s : Store} {name : String} {paths : List String}
    {names : List (String × List String)} (hmem : name ∈ names.map (·.1))
    (hpaths : ∀ p, (name, p) ∈ names → p = paths) :
    Table.get? name (s.declare names).collections = some ⟨s.recordsOf name, paths⟩ := by
  induction names generalizing s with
  | nil => cases hmem
  | cons n rest ih =>
    by_cases hlater : name ∈ rest.map (·.1)
    · rw [← recordsOf_declare s name [n]]
      exact ih hlater fun p hp => hpaths p (List.mem_cons_of_mem _ hp)
    · obtain rfl : name = n.1 := (List.mem_cons.1 hmem).resolve_right hlater
      refine (get?_declare_of_notMem hlater).trans ?_
      rw [get?_register, hpaths n.2 List.mem_cons_self]

/-- **Collections that are declared for the first time hold nothing.** -/
theorem holds_nil_declared {α : Type} {s : Store} {name : String} {paths : List String}
    {names : List (String × List String)} (hmem : (name, paths) ∈ names)
    (hnodup : (names.map (·.1)).Nodup) (hnew : Table.get? name s.collections = none)
    (f : α → Record) : (s.declare names).Holds name paths f [] := by
  induction names generalizing s with
  | nil => simp at hmem
  | cons n rest ih =>
    obtain ⟨hn, hrest⟩ := List.nodup_cons.1 hnodup
    rcases List.mem_cons.1 hmem with rfl | hmem
    · refine ⟨[], ?_, .nil⟩
      refine (get?_declare_of_notMem hn).trans ?_
      rw [get?_register, recordsOf, hnew]
    · have hname : name ∈ rest.map (·.1) := List.mem_map_of_mem hmem
      have hne : name ≠ n.1 := by
        rintro rfl
        exact hn hname
      exact ih hmem hrest ((sameBut_register s n.1 n.2 name hne).trans hnew)

end Store

namespace Service

variable [PatternEngine]

/-- A backend that refuses nothing declares collections as its store does. -/
theorem runOn_declare {env : Surroundings} {b : Backend} (h : b.refused = [])
    (names : List (String × List String)) :
    Action.runOn env (declare names) b =
      (.ok (), { b with store := b.store.declare names }) := by
  induction names generalizing b with
  | nil => rfl
  | cons n rest ih =>
    have hregister : Action.runOn env (Action.register n.1 n.2) b =
        (.ok (), { b with store := b.store.register n.1 n.2 }) :=
      Action.runOn_register h n.1 n.2
    exact (Action.runOn_bind_ok hregister _).trans (ih h)

/-- **A service starts, and its collections are declared.** -/
theorem runOn_start {env : Surroundings} {b : Backend} (h : b.refused = []) (registry : Registry)
    (config : Config) :
    Action.runOn env (start registry config) b =
      (.ok (ofRegistry registry config),
        { b with store := b.store.declare (storeCollections registry) }) :=
  Action.runOn_bind_ok (Action.runOn_mapError_ok (runOn_declare h _) _) _

end Service

end HeadlessCms
