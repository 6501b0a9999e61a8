import HeadlessCms.Proofs.Store.Bookkeeping

/-!
# What actions do to the records of a collection

An action leads from one property of backends to another one if it always ends in the second where it
starts from the first, also where it fails (`Action.Leads`).  With the records of a collection named at
the start this says what becomes of them: a look-up that is answered decides about each of them
(`Action.Keeps.findOne_records`), an insertion adds one at most (`Action.Leads.insert_records`), and an
update replaces one at most (`Action.Leads.update_records`).
-/

namespace HeadlessCms

variable [PatternEngine]

namespace Store

/-- Where nothing is found no record is selected. -/
theorem selects_of_findOne_none {s : Store} {q : Query} {options : FindOptions}
    (h : s.findOne q options = .ok none) {r : Record} (hr : r ∈ s.recordsOf q.collection) :
    Predicate.selects q.filter r = false := by
  obtain ⟨c, hc, h⟩ := Except.bind_eq_ok_iff.1 h
  obtain ⟨found, hselect, h⟩ := Except.bind_eq_ok_iff.1 h
  obtain ⟨matched, hmatched, hsorted⟩ := Except.bind_eq_ok_iff.1 hselect
  cases hsorted
  have hnone := List.head?_eq_none_iff.1 (Option.map_eq_none_iff.1 (Except.ok.inj h))
  have hempty : matched = [] := List.Perm.nil_eq (hnone ▸ perm_sortStably _ matched) |>.symm
  rw [eq_filter_of_matching hmatched, List.filter_eq_nil_iff] at hempty
  rw [recordsOf_of_get? (get?_of_collection? hc)] at hr
  exact Bool.eq_false_iff.2 (hempty r hr)

end Store

namespace Action

variable {ε δ α β : Type} {env : Surroundings} {I J : Backend → Prop} {name : String}
  {records : List Record}

/-! ### Look-ups -/

/-- **A look-up that is answered has decided about all records.** -/
theorem Keeps.findOne_records (q : Query) (hname : q.collection = name) (options : FindOptions) :
    Keeps env (fun b => b.store.recordsOf name = records) (Action.findOne q options) fun found =>
      (found = none → ∀ r ∈ records, Predicate.selects q.filter r = false) ∧
      ∀ shown ∈ found, ∃ r ∈ records, Predicate.selects q.filter r = true ∧
        shown = Store.present options r := by
  subst hname
  refine of_look (look_findOne q options) fun b found hb hfound => ⟨?_, ?_⟩
  · rintro rfl r hr
    exact Store.selects_of_findOne_none hfound (hb ▸ hr)
  · intro shown hshown
    obtain ⟨c, hc, hfound⟩ := Except.bind_eq_ok_iff.1 hfound
    obtain ⟨selected, hselect, hfound⟩ := Except.bind_eq_ok_iff.1 hfound
    cases hfound
    obtain ⟨r, hr, rfl⟩ := Option.map_eq_some_iff.1 hshown
    obtain ⟨hmem, hholds⟩ := Store.mem_select hselect (List.mem_of_head? hr)
    refine ⟨r, ?_, Predicate.selects_iff.2 hholds, rfl⟩
    rwa [← hb, Store.recordsOf_of_get? (Store.get?_of_collection? hc)]

/-! ### From one property to another -/

/-- An action leads from backends with one property to backends with another one. -/
def Leads (env : Surroundings) (I J : Backend → Prop) (a : Action ε α) : Prop :=
  ∀ b, I b → J (runOn env a b).2

namespace Leads

theorem mapError {a : Action ε α} (h : Leads env I J a) (f : ε → δ) :
    Leads env I J (Action.mapError f a) := by
  intro b hb
  rw [runOn_mapError]
  exact h b hb

/-- A first step that keeps the property that there is. -/
theorem after {a : Action ε α} {P : α → Prop} {f : α → Action ε β} (ha : Keeps env I a P)
    (hIJ : ∀ b, I b → J b) (hf : ∀ x, P x → Leads env I J (f x)) : Leads env I J (a >>= f) := by
  intro b hb
  obtain ⟨hkept, hresult⟩ := ha b hb
  cases h : runOn env a b with
  | mk result b' =>
    rw [h] at hkept hresult
    cases result with
    | error e =>
      rw [runOn_bind_error h]
      exact hIJ b' hkept
    | ok x =>
      rw [runOn_bind_ok h]
      exact hf x (hresult x rfl) b' hkept

/-- Further steps that keep what has been led to. -/
theorem followed {a : Action ε α} {f : α → Action ε β} (ha : Leads env I J a)
    (hf : ∀ x, Keeps env J (f x) fun _ => True) : Leads env I J (a >>= f) := by
  intro b hb
  have hleft := ha b hb
  cases h : runOn env a b with
  | mk result b' =>
    rw [h] at hleft
    cases result with
    | error e =>
      rw [runOn_bind_error h]
      exact hleft
    | ok x =>
      rw [runOn_bind_ok h]
      exact (hf x b' hleft).1

/-! ### Writes -/

/-- **An insertion adds one record at most.** -/
theorem insert_records {record : Record} :
    Leads env (fun b => b.store.recordsOf name = records)
      (fun b => b.store.recordsOf name = records ∨ ∃ own sequence,
        b.store.recordsOf name = records ++ [Store.stamp own sequence 0 record])
      (Action.insert name record) := by
  intro b hb
  cases h : runOn env (Action.insert name record) b with
  | mk answer b' =>
    cases answer with
    | error e =>
      exact Or.inl ((Store.recordsOf_of_collections (Leaves.insert name record e b' h) name).trans hb)
    | ok shown =>
      obtain ⟨own, _, _, hgains, _, _⟩ := Store.gains_of_insert (insert_of_runOn h)
      exact Or.inr ⟨own, b.store.sequence, hb ▸ hgains.1⟩

/-- **An update replaces one record at most,** that with the id. -/
theorem update_records {id : String} {record : Record} :
    Leads env (fun b => b.store.recordsOf name = records)
      (fun b => b.store.recordsOf name = records ∨ ∃ before r after,
        Record.id? r = some id ∧ records = before ++ r :: after ∧
        b.store.recordsOf name = before ++ Store.revise r id record :: after)
      (Action.update name id record) := by
  intro b hb
  cases h : runOn env (Action.update name id record) b with
  | mk answer b' =>
    cases answer with
    | error e =>
      obtain rfl := Leaves.update name id record e b' h
      exact Or.inl hb
    | ok shown =>
      obtain ⟨r, hown, ⟨⟨before, after, hbefore, hafter⟩, _⟩, _⟩ :=
        Store.revises_of_update (update_of_runOn h)
      exact Or.inr ⟨before, r, after, hown, hb ▸ hbefore, hafter⟩

end Leads

end Action

end HeadlessCms
