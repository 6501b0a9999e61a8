import HeadlessCms.Proofs.Document.InStep
import HeadlessCms.Proofs.Service.Naming

/-!
# What the save of a global does

The save of a global loads the document that is stored for it, may look for its newest draft, puts a
document into the collection of all globals and a version into the collection of its versions.  All that
it writes says which global it belongs to.  If each of these steps goes in step on two backends so does
the save (`Service.SavesInStep.saveGlobal`).
-/

namespace HeadlessCms

open Time (Instant)

namespace Service

variable [PatternEngine]
variable {env : Surroundings} {R : Backend → Backend → Prop} {P known : String → Prop} {s : Service}
  {c : CompiledEntity}

/-- The steps of a save of a global go in step.  Documents with known ids may be replaced. -/
structure SavesInStep (env : Surroundings) (R : Backend → Backend → Prop) (P known : String → Prop)
    (c : CompiledEntity) : Prop where
  now : Action.InStep env R (Action.now : Action ServiceError Instant) fun _ => True
  load : Action.InStep env R (load globalsCollection (globalClause c.slug)) fun existing =>
    ∀ d ∈ existing, known d.id ∧ d.data.NamesGlobal P
  resolve : c.entity.hasDrafts = true → ∀ d : Document, d.data.NamesGlobal P →
    Action.InStep env R (Draft.resolve c.entity c.kind d none .unrestricted) fun newest =>
      newest.data.NamesGlobal P
  insert : ∀ record : Record, record.NamesGlobal P → Record.id? record = none →
    Action.InStep env R (Action.insert globalsCollection record) fun shown => shown.NamesGlobal P
  update : ∀ id, known id → ∀ record : Record, record.NamesGlobal P →
    Action.InStep env R (Action.update globalsCollection id record) fun shown => shown.NamesGlobal P
  version : c.entity.isVersioned = true → ∀ (parent : Option String) (data : Record),
    data.NamesGlobal P → ∀ (status : Status) (time : Instant),
      Action.InStep env R (History.save c.entity c.kind parent data status time) fun _ => True

namespace SavesInStep

variable {existing : Option Document} {data patch : Record}

/-- A document that is read from a record belongs to the same global. -/
theorem documentOf {record : Record} (h : record.NamesGlobal P) :
    Action.InStep env R (Service.documentOf record) fun d => d.data.NamesGlobal P := by
  refine .ofExcept fun d hd => ?_
  rw [(Document.of_ofRecord (Except.mapError_eq_ok_iff.1 hd)).2]
  exact h.stripEnvelope

/-- A save starts from content of the same global, or from nothing. -/
theorem baseOf (h : SavesInStep env R P known c)
    (hexisting : ∀ d ∈ existing, known d.id ∧ d.data.NamesGlobal P) {draft : Bool}
    (hdraft : draft = true → c.entity.hasDrafts = true) :
    Action.InStep env R (Service.baseOf c existing draft) fun base => base.MayNameGlobal P := by
  unfold Service.baseOf
  cases existing with
  | none => exact .pure (Record.mayNameGlobal_nil P)
  | some doc =>
    have hdoc := (hexisting doc rfl).2
    dsimp only
    split
    · next hdrafts =>
      refine ((h.resolve (hdraft hdrafts) doc hdoc).mapError _).bind fun newest hnewest => ?_
      exact .pure hnewest.may
    · exact .pure hdoc.may

/-- What is stored belongs to the same global. -/
theorem store (h : SavesInStep env R P known c)
    (hexisting : ∀ d ∈ existing, known d.id ∧ d.data.NamesGlobal P) (hdata : data.NamesGlobal P)
    (draft : Bool) (createdAt updatedAt : Option Instant) :
    Action.InStep env R
      (Service.store globalsCollection existing draft createdAt updatedAt data)
      fun saved => saved.data.NamesGlobal P := by
  have hrecord (id : String) :
      Record.NamesGlobal P (Document.toRecord ⟨id, createdAt, updatedAt, data⟩) :=
    Record.NamesGlobal.toRecord hdata
  unfold Service.store
  cases existing with
  | some doc =>
    dsimp only
    split
    · exact .pure hdata
    · exact ((h.update doc.id (hexisting doc rfl).1 _ (hrecord doc.id)).mapError _).bind
        fun shown hshown => documentOf hshown
  | none =>
    exact ((h.insert _ (hrecord "").erase_id (Record.id?_erase_id _)).mapError _).bind
      fun shown hshown => documentOf hshown

/-- A save of a global stays in step where its steps do. -/
theorem save (h : SavesInStep env R P known c)
    (hexisting : ∀ d ∈ existing, known d.id ∧ d.data.NamesGlobal P) (hpatch : patch.NamesGlobal P)
    (params : SaveParams) :
    Action.InStep env R (s.save c globalsCollection existing patch params) fun _ => True := by
  unfold Service.save
  refine .ofExcept_bind fun selection _ => ?_
  dsimp only
  by_cases hwrite : localeOf selection = some allLocales
  · rw [if_pos hwrite]
    exact (Action.InStep.throw (P := fun _ => False) _).bind fun _ h => h.elim
  · rw [if_neg hwrite]
    refine h.now.bind fun time _ => ?_
    refine (h.baseOf hexisting fun hdraft => (Bool.and_eq_true_iff.1 hdraft).2).bind
      fun base hbase => ?_
    have hcontent (status : Status) : (s.patched c selection status base patch).NamesGlobal P :=
      namesGlobal_patched hbase hpatch status
    have hversion (saved : Document) (hsaved : saved.data.NamesGlobal P) (status : Status)
        (result : Document) : Action.InStep env R (do
          if c.entity.isVersioned then do
            let _ ← onStore
              (History.save c.entity c.kind (some saved.id) saved.toRecord status time)
          pure result) fun _ => True := by
      split
      · next hversioned =>
        exact ((h.version hversioned _ _ hsaved.toRecord status time).mapError _).bind fun _ _ =>
          .pure trivial
      · exact .pure trivial
    split
    · exact (h.store hexisting (hcontent _) _ _ _).bind fun saved hsaved =>
        hversion saved hsaved _ _
    · exact (h.store hexisting (hcontent _) _ _ _).bind fun saved hsaved =>
        hversion saved hsaved _ _

/-- **If its steps go in step, the save of a global does.** -/
theorem saveGlobal (h : SavesInStep env R P known c) {slug : String}
    (hc : s.registry.global slug = .ok c) (hslug : c.slug = slug) (hadmitted : P slug)
    (hdata : Table.Ascending data) (params : SaveParams) :
    Action.InStep env R (s.saveGlobal slug data params) fun _ => True := by
  have hpatch : Record.NamesGlobal P (Table.insert globalTypeField (.str slug) data) :=
    ⟨Table.ascending_insert hdata, .str slug, (Table.get?_insert _ _ _ _).trans (if_pos rfl),
      .text hadmitted⟩
  unfold Service.saveGlobal
  refine .ofExcept_bind fun found hfound => ?_
  obtain rfl : found = c := Except.ok.inj (hfound.symm.trans hc)
  rw [← hslug]
  refine h.load.bind fun existing hexisting => ?_
  rw [hslug]
  exact (h.save hexisting hpatch params).bind fun _ _ => .pure trivial

end SavesInStep

end Service

end HeadlessCms
