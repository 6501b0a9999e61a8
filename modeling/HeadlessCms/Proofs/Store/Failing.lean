import HeadlessCms.Proofs.Store.Upkeep

/-!
# What is left where something fails

A single operation of the store that fails changes no collection (`Store.kept_of_insert_error`
and so on); one that succeeds adds a record or puts one in the place of another
(`Store.gains_of_insert`, `Store.revises_of_update`).  An action is a chain of such operations.  Where
it fails, whatever its earlier steps have done stays; `Action.Leaves` says what that is, and goes
through the chain step by step (`Action.Leaves.bind`).
-/

namespace HeadlessCms

namespace Store

/-- A collection has a record more, at its end; the other collections are the same. -/
def Gains (name : String) (r : Record) (s s' : Store) : Prop :=
  s'.recordsOf name = s.recordsOf name ++ [r] ∧ SameBut name s s'

/-- In a collection a record has been replaced by another; everything else is the same. -/
def Revises (name : String) (r r' : Record) (s s' : Store) : Prop :=
  (∃ before after, s.recordsOf name = before ++ r :: after ∧
    s'.recordsOf name = before ++ r' :: after) ∧ SameBut name s s'

variable {s s' : Store} {name id : String} {record shown : Record} {e : StoreError}

/-- The records of a collection that is there. -/
theorem recordsOf_of_get? {c : Collection} (hc : Table.get? name s.collections = some c) :
    s.recordsOf name = c.records := by
  rw [recordsOf, hc]

/-- Records that have been put in are there. -/
theorem recordsOf_withRecords (s : Store) (name : String) (c : Collection) (records : List Record) :
    (s.withRecords name c records).recordsOf name = records := by
  rw [recordsOf, get?_withRecords]

/-! ### Failed operations -/

/-- An insertion that fails may use up an id, but changes no collection and uses up no number. -/
theorem kept_of_insert_error {ids : Nat → String}
    (h : s.insert ids name record = (.error e, s')) :
    s'.collections = s.collections ∧ s'.sequence = s.sequence := by
  unfold insert at h
  split at h
  · cases h
    exact ⟨rfl, rfl⟩
  · cases hid : Record.id? record with
    | some own =>
      rw [hid] at h
      dsimp only at h
      split at h
      · cases h
        exact ⟨rfl, rfl⟩
      · cases h
    | none =>
      rw [hid] at h
      dsimp only at h
      split at h
      · cases h
        exact ⟨rfl, rfl⟩
      · cases h

/-- An update that fails changes nothing. -/
theorem eq_of_update_error (h : s.update name id record = (.error e, s')) : s' = s := by
  unfold update at h
  split at h
  · cases h
    rfl
  · split at h
    · cases h
      rfl
    · cases h

/-- A deletion that fails changes nothing. -/
theorem eq_of_deleteMany_error [PatternEngine]
    {q : Query} (h : s.deleteMany q = (.error e, s')) : s' = s := by
  unfold deleteMany at h
  split at h
  · cases h
    rfl
  · split at h
    · cases h
      rfl
    · cases h

/-! ### Operations that succeed -/

/-- Only insertions use up numbers. -/
theorem sequence_update (s : Store) (name id : String) (record : Record) :
    (s.update name id record).2.sequence = s.sequence := by
  unfold update
  split
  · rfl
  · split <;> rfl

/-- A deletion takes no number. -/
theorem sequence_deleteMany [PatternEngine]
    (s : Store) (q : Query) : (s.deleteMany q).2.sequence = s.sequence := by
  unfold deleteMany
  split
  · rfl
  · split <;> rfl

/-- **An insertion adds one record.**  Its id, its own or the next one drawn, is new in the collection,
and its number is the next one. -/
theorem gains_of_insert {ids : Nat → String} (h : s.insert ids name record = (.ok shown, s')) :
    ∃ own, (Record.id? record).getD (ids s.drawn) = own ∧
      (∀ r ∈ s.recordsOf name, Record.id? r ≠ some own) ∧
      Gains name (stamp own s.sequence 0 record) s s' ∧ s'.sequence = s.sequence + 1 ∧
      shown = Record.sanitize (stamp own s.sequence 0 record) := by
  unfold insert at h
  split at h
  · cases h
  · next c hc =>
    have hgains (own : String) (drawn : Nat) :
        Gains name (stamp own s.sequence 0 record) s
          { { s with drawn }.withRecords name c (c.records ++ [stamp own s.sequence 0 record]) with
            sequence := s.sequence + 1 } := by
      constructor
      · rw [recordsOf_of_get? hc]
        exact recordsOf_withRecords { s with drawn } name c _
      · exact sameBut_withRecords { s with drawn } name c (c.records ++ [stamp own s.sequence 0 record])
    have hfresh {own : String} (hnone : ¬ c.records.any (Record.id? · == some own) = true) :
        ∀ r ∈ s.recordsOf name, Record.id? r ≠ some own := by
      intro r hr heq
      rw [recordsOf_of_get? hc] at hr
      exact hnone (List.any_eq_true.2 ⟨r, hr, beq_iff_eq.2 heq⟩)
    cases hid : Record.id? record with
    | some own =>
      rw [hid] at h
      dsimp only at h
      split at h
      · cases h
      · next hnone =>
        cases h
        exact ⟨own, rfl, hfresh hnone, hgains own s.drawn, rfl, rfl⟩
    | none =>
      rw [hid] at h
      dsimp only at h
      split at h
      · cases h
      · next hnone =>
        cases h
        exact ⟨ids s.drawn, rfl, hfresh hnone, hgains (ids s.drawn) (s.drawn + 1), rfl, rfl⟩

/-- The record with an id is replaced where it stands. -/
theorem replaceFirst_split {records : List Record} {existing : Record}
    (h : records.find? (Record.id? · == some id) = some existing) :
    ∃ before after, records = before ++ existing :: after ∧
      replaceFirst id record records = before ++ revise existing id record :: after := by
  induction records with
  | nil => cases h
  | cons r rest ih =>
    by_cases hr : Record.id? r = some id
    · have hfound : (Record.id? r == some id) = true := beq_iff_eq.2 hr
      rw [List.find?_cons, hfound] at h
      cases h
      exact ⟨[], rest, rfl, if_pos hr⟩
    · have hother : (Record.id? r == some id) = false := beq_eq_false_iff_ne.2 hr
      rw [List.find?_cons, hother] at h
      obtain ⟨before, after, hrest, hreplaced⟩ := ih h
      refine ⟨r :: before, after, ?_, ?_⟩
      · rw [hrest, List.cons_append]
      · rw [replaceFirst, if_neg hr, hreplaced, List.cons_append]

/-- **An update replaces one record.** -/
theorem revises_of_update (h : s.update name id record = (.ok shown, s')) :
    ∃ r, Record.id? r = some id ∧ Revises name r (revise r id record) s s' ∧
      shown = Record.sanitize (revise r id record) := by
  unfold update at h
  split at h
  · cases h
  · next c hc =>
    split at h
    · cases h
    · next existing hexisting =>
      cases h
      obtain ⟨before, after, hrecords, hreplaced⟩ := @replaceFirst_split _ record _ _ hexisting
      have hfound : (Record.id? existing == some id) = true :=
        @List.find?_some _ (Record.id? · == some id) _ _ hexisting
      refine ⟨existing, beq_iff_eq.1 hfound, ⟨⟨before, after, ?_, ?_⟩,
        sameBut_withRecords s name c _⟩, rfl⟩
      · rw [recordsOf_of_get? hc, hrecords]
      · rw [recordsOf_withRecords, hreplaced]

/-- **A deletion takes away the records that its filter selects,** and says how many they were. -/
theorem shrinks_of_deleteMany [PatternEngine]
    {q : Query} {n : Nat} (h : s.deleteMany q = (.ok n, s')) :
    (∀ r ∈ s.recordsOf q.collection, ∃ keep, Predicate.holdsFor q.filter r = .ok keep) ∧
      s'.recordsOf q.collection =
        (s.recordsOf q.collection).filter (!Predicate.selects q.filter ·) ∧
      n = (s.recordsOf q.collection).countP (Predicate.selects q.filter) ∧
      SameBut q.collection s s' := by
  unfold deleteMany at h
  split at h
  · cases h
  · next c hc =>
    split at h
    · cases h
    · next kept hkept =>
      obtain ⟨hdecided, hfilter⟩ := eq_filter_of_remaining hkept
      cases h
      rw [recordsOf_of_get? hc, recordsOf_withRecords]
      refine ⟨hdecided, hfilter, ?_, sameBut_withRecords s q.collection c kept⟩
      have hlength := List.length_eq_countP_add_countP (Predicate.selects q.filter) (l := c.records)
      have hkeeps : c.records.countP (fun r => ¬ Predicate.selects q.filter r = true) =
          kept.length := by
        rw [hfilter, ← List.countP_eq_length_filter]
        simp only [Bool.not_eq_true, Bool.decide_eq_false]
      omega

end Store

namespace Action

variable [PatternEngine] {ε δ α β : Type} {env : Surroundings} {b : Backend} {Q : Backend → Prop}

/-- Where an action fails on a backend, it leaves a backend with a property. -/
def Leaves (env : Surroundings) (a : Action ε α) (b : Backend) (Q : Backend → Prop) : Prop :=
  ∀ e b', runOn env a b = (.error e, b') → Q b'

/-- What is known of the result of an action on one backend, and that it is its result. -/
theorem Keeps.outcome {a : Action ε α} {P : α → Prop} (h : Keeps env (· = b) a P) :
    Keeps env (· = b) a fun x => P x ∧ (runOn env a b).1 = .ok x := by
  intro b' hb'
  obtain ⟨hkept, hresult⟩ := h b' hb'
  subst hb'
  exact ⟨hkept, fun x hx => ⟨hresult x hx, hx⟩⟩

namespace Leaves

theorem pure (x : α) : Leaves env (pure x : Action ε α) b Q := by
  intro e b' h
  cases h

/-- **A chain fails at its first step or after it.** -/
theorem bind {a : Action ε α} {f : α → Action ε β} (ha : Leaves env a b Q)
    (hf : ∀ x b', runOn env a b = (.ok x, b') → Leaves env (f x) b' Q) :
    Leaves env (a >>= f) b Q := by
  intro e b' h
  cases hfirst : runOn env a b with
  | mk result b₁ =>
    cases result with
    | error e₁ =>
      rw [runOn_bind_error hfirst] at h
      cases h
      exact ha e b' hfirst
    | ok x =>
      rw [runOn_bind_ok hfirst] at h
      exact hf x b₁ hfirst e b' h

theorem imp {a : Action ε α} {Q' : Backend → Prop} (h : Leaves env a b Q)
    (hQ : ∀ b', Q b' → Q' b') : Leaves env a b Q' :=
  fun e b' hfail => hQ b' (h e b' hfail)

/-- A step that keeps an invariant leaves it where the step fails. -/
theorem of_keeps {a : Action ε α} {I : Backend → Prop} {P : α → Prop} (h : Keeps env I a P)
    (hb : I b) : Leaves env a b I := by
  intro e b' hfail
  have hkept := (h b hb).1
  rw [hfail] at hkept
  exact hkept

/-- A first step that leaves the backend as it is. -/
theorem bind_keeps {a : Action ε α} {f : α → Action ε β} {P : α → Prop}
    (ha : Keeps env (· = b) a P) (hb : Q b) (hf : ∀ x, P x → Leaves env (f x) b Q) :
    Leaves env (a >>= f) b Q := by
  refine bind ((of_keeps ha rfl).imp fun b' hb' => ?_) fun x b' hfirst => ?_
  · subst hb'
    exact hb
  · obtain ⟨hkept, hresult⟩ := ha b rfl
    rw [hfirst] at hkept hresult
    subst hkept
    exact hf x (hresult x rfl)

theorem mapError {a : Action ε α} (h : Leaves env a b Q) (f : ε → δ) :
    Leaves env (Action.mapError f a) b Q := by
  intro e b' hfail
  rw [runOn_mapError] at hfail
  obtain ⟨hresult, hleft⟩ := Prod.mk.inj hfail
  cases hrun : (runOn env a b).1 with
  | ok x =>
    rw [hrun] at hresult
    cases hresult
  | error e₁ => exact h e₁ b' (Prod.ext hrun hleft)

/-- A call that fails leaves what the operation of the store leaves. -/
theorem of_change {a : Action StoreError α} {m : Method}
    {change : Store → Except StoreError α × Store}
    (hcall : runOn env a b = b.change m change) (hrefused : Q b)
    (hfailed : ∀ e s', change b.store = (.error e, s') → Q { b with store := s' }) :
    Leaves env a b Q := by
  intro e b' h
  rw [hcall] at h
  unfold Backend.change at h
  split at h
  · cases h
    exact hrefused
  · cases hop : change b.store with
    | mk result s' =>
      rw [hop] at h
      cases h
      exact hfailed e s' hop

/-! ### Calls -/

/-- An insertion that fails leaves the collections as they were. -/
theorem insert (name : String) (record : Record) :
    Leaves env (Action.insert name record) b fun b' =>
      b'.store.collections = b.store.collections := by
  exact of_change (change_insert name record b) rfl fun _ _ h => (Store.kept_of_insert_error h).1

/-- An update that fails leaves everything as it was. -/
theorem update (name id : String) (record : Record) :
    Leaves env (Action.update name id record) b (· = b) := by
  exact of_change (change_update name id record b) rfl fun _ _ h => by rw [Store.eq_of_update_error h]

/-- A deletion that fails leaves everything as it was. -/
theorem deleteMany (q : Query) : Leaves env (Action.deleteMany q) b (· = b) := by
  exact of_change (change_deleteMany q b) rfl fun _ _ h => by rw [Store.eq_of_deleteMany_error h]

end Leaves

end Action

end HeadlessCms
