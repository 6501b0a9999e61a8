import HeadlessCms.Proofs.Store.Failing
import HeadlessCms.Proofs.Store.Numbering
import Mathlib.Data.List.Nodup

/-!
# What the store writes into records

The store gives each record an id, a number and a count of changes, whatever the record says of
itself.  A call does one of four things: it adds a record, puts one in the place of another, takes
records away, or leaves all records as they are (`Store.Step.of_perform`).  Each invariant of these
books is kept by the four of them, so it holds after any calls (`Store.wellKept_after`): the ids in a
collection differ, the numbers grow and are given once in the whole store, and the count of changes is
the number of updates since the record was inserted.
-/

namespace HeadlessCms

/-! ### Events -/

/-- A call and the answer to it. -/
abbrev Event := (c : Call) × c.Answer

namespace Event

/-- Whether a record has been inserted. -/
def isInsertion : Event → Bool
  | ⟨.insert .., .ok _⟩ => true
  | _ => false

/-- Whether a record of a collection has been updated. -/
def updates (name id : String) : Event → Bool
  | ⟨.update other own _, .ok _⟩ => other == name && own == id
  | _ => false

/-- Whether a call to change records has succeeded. -/
def changes : Event → Bool
  | ⟨.insert .., .ok _⟩ => true
  | ⟨.update .., .ok _⟩ => true
  | ⟨.deleteMany _, .ok _⟩ => true
  | _ => false

/-- The error that a call was answered with. -/
def error? : Event → Option StoreError
  | ⟨.register .., .error e⟩ => some e
  | ⟨.buildQuery .., .error e⟩ => some e
  | ⟨.findOne .., .error e⟩ => some e
  | ⟨.find .., .error e⟩ => some e
  | ⟨.insert .., .error e⟩ => some e
  | ⟨.update .., .error e⟩ => some e
  | ⟨.deleteMany .., .error e⟩ => some e
  | _ => none

/-- An event that changes nothing is no insertion. -/
theorem isInsertion_of_changes {e : Event} (h : e.changes = false) : e.isInsertion = false := by
  unfold isInsertion
  split
  · cases h
  · rfl

/-- An event that changes nothing updates no record. -/
theorem updates_of_changes {e : Event} (h : e.changes = false) (name id : String) :
    e.updates name id = false := by
  unfold updates
  split
  · cases h
  · rfl

end Event

/-- The collection whose records a call may change. -/
def Call.target? : Call → Option String
  | .insert name _ => some name
  | .update name _ _ => some name
  | .deleteMany q => some q.collection
  | _ => none

/-- An event on another collection updates no record of this one. -/
theorem Event.updates_of_target {e : Event} {name : String} (h : e.1.target? ≠ some name)
    (id : String) : e.updates name id = false := by
  unfold updates
  split
  · next other own _ _ =>
    have hother : other ≠ name := fun heq => h (congrArg some heq)
    rw [beq_eq_false_iff_ne.2 hother, Bool.false_and]
  · rfl

namespace Backend

variable [PatternEngine] {env : Surroundings}

/-- A backend after calls, one after the other. -/
def after (env : Surroundings) (b : Backend) (calls : List Call) : Backend :=
  calls.foldl (fun b c => (b.perform env c).2) b

/-- What happens at calls, one after the other. -/
def events (env : Surroundings) (b : Backend) : List Call → List Event
  | [] => []
  | c :: rest => ⟨c, (b.perform env c).1⟩ :: events env (b.perform env c).2 rest

/-- The last of several calls is made on the backend that the others leave. -/
theorem after_concat (b : Backend) (calls : List Call) (c : Call) :
    b.after env (calls ++ [c]) = ((b.after env calls).perform env c).2 := by
  rw [after, List.foldl_append]
  rfl

/-- The last event is that of the last call. -/
theorem events_concat (b : Backend) (calls : List Call) (c : Call) :
    b.events env (calls ++ [c]) =
      b.events env calls ++ [⟨c, ((b.after env calls).perform env c).1⟩] := by
  induction calls generalizing b with
  | nil => rfl
  | cons first rest ih => exact congrArg _ (ih _)

end Backend

/-! ### Stamped records -/

/-- A record as the store keeps it, with its id and the numbers of the store. -/
def Record.Stamped (r : Record) : Prop :=
  ∃ id sequence revision record, r = Store.stamp id sequence revision record

namespace Store

variable {id : String} {sequence revision : Nat} {record : Record}

/-- A stamped record tells its id. -/
theorem get?_id_stamp :
    Table.get? "id" (stamp id sequence revision record) = some (.str id) := by
  rw [get?_stamp (by decide), if_pos rfl]

/-- A stamped record tells its number. -/
theorem get?_sequence_stamp : Table.get? Record.sequenceField (stamp id sequence revision record) =
    some (.nat sequence) := by
  rw [stamp, Table.get?_insert, if_neg (by decide), Table.get?_insert, if_pos rfl]

/-- A stamped record tells its revision. -/
theorem get?_revision_stamp : Table.get? Record.revisionField (stamp id sequence revision record) =
    some (.nat revision) := by
  rw [stamp, Table.get?_insert, if_pos rfl]

/-- The id of a stamped record is the one it has been stamped with. -/
theorem id?_stamp : Record.id? (stamp id sequence revision record) = some id := by
  rw [Record.id?, get?_id_stamp]
  rfl

/-- The id stays when the record is shown. -/
theorem id?_sanitize_stamp :
    Record.id? (Record.sanitize (stamp id sequence revision record)) = some id := by
  rw [Record.id?, get?_sanitize_stamp, if_neg (by decide), if_pos rfl]
  rfl

/-- A number that is stored is counted from there. -/
theorem counter_of_get? {field : String} {n : Nat} {r : Record}
    (h : Table.get? field r = some (.nat n)) : Record.counter field r = n := by
  rw [Record.counter, h]
  rfl

/-- The number of a stamped record is stored in it. -/
theorem get?_sequence_of_stamped {r : Record} (h : r.Stamped) :
    Table.get? Record.sequenceField r = some (.nat (Record.counter Record.sequenceField r)) := by
  obtain ⟨id, sequence, revision, record, rfl⟩ := h
  rw [get?_sequence_stamp, counter_stamp]

/-! ### What a call does -/

/-- The records of a store are those of its collections. -/
theorem recordsOf_of_collections {s s' : Store} (h : s'.collections = s.collections)
    (name : String) : s'.recordsOf name = s.recordsOf name := by
  rw [recordsOf, recordsOf, h]

/-- Stores that are the same but for a collection have the same records in the others. -/
theorem SameBut.recordsOf {s s' : Store} {name other : String} (h : SameBut name s s')
    (hother : other ≠ name) : s'.recordsOf other = s.recordsOf other := by
  rw [Store.recordsOf, Store.recordsOf, h other hother]

/-- Declaring a collection leaves all records where they are. -/
theorem recordsOf_register (s : Store) (name : String) (paths : List String) (other : String) :
    (s.register name paths).recordsOf other = s.recordsOf other := by
  by_cases hother : other = name
  · subst hother
    rw [recordsOf_of_get? (c := ⟨s.recordsOf other, paths⟩)]
    rw [register, Table.get?_insert, if_pos rfl]
  · rw [recordsOf, register, Table.get?_insert, if_neg hother]
    rfl

variable {s s' : Store} {e : Event} {events : List Event} {name : String} {r r' : Record}

section

variable [PatternEngine]

/-- **What can happen to the records of a store.**  Nothing does unless a call to change them
succeeds. -/
inductive Step (s s' : Store) : Event → Prop
  | idle {e : Event} (unchanged : e.changes = false)
      (records : ∀ name, s'.recordsOf name = s.recordsOf name) (sequence : s'.sequence = s.sequence)
      (failed : e.error?.isSome → s'.collections = s.collections) : Step s s' e
  | insert {name id : String} {record : Record}
      (fresh : ∀ r ∈ s.recordsOf name, Record.id? r ≠ some id)
      (gains : Gains name (stamp id s.sequence 0 record) s s')
      (sequence : s'.sequence = s.sequence + 1) :
      Step s s' ⟨.insert name record, .ok (Record.sanitize (stamp id s.sequence 0 record))⟩
  | update {name id : String} {record r : Record} (own : Record.id? r = some id)
      (revises : Revises name r (revise r id record) s s') (sequence : s'.sequence = s.sequence) :
      Step s s' ⟨.update name id record, .ok (Record.sanitize (revise r id record))⟩
  | delete {q : Query} {n : Nat}
      (decided : ∀ r ∈ s.recordsOf q.collection, ∃ keep, Predicate.holdsFor q.filter r = .ok keep)
      (kept : s'.recordsOf q.collection =
        (s.recordsOf q.collection).filter (!Predicate.selects q.filter ·))
      (count : n = (s.recordsOf q.collection).countP (Predicate.selects q.filter))
      (others : SameBut q.collection s s') (sequence : s'.sequence = s.sequence) :
      Step s s' ⟨.deleteMany q, .ok n⟩

/-- Every call does one of these things. -/
theorem Step.of_perform (env : Surroundings) (b : Backend) (c : Call) :
    Step b.store (b.perform env c).2.store ⟨c, (b.perform env c).1⟩ := by
  cases c with
  | buildQuery | findOne | find | now =>
    exact .idle rfl (fun _ => rfl) rfl fun _ => rfl
  | register name paths =>
    simp only [Backend.perform, Backend.change]
    split
    · exact .idle rfl (fun _ => rfl) rfl fun _ => rfl
    · refine .idle rfl (recordsOf_register b.store name paths) rfl ?_
      intro herror
      cases herror
  | insert name record =>
    simp only [Backend.perform, Backend.change]
    split
    · exact .idle rfl (fun _ => rfl) rfl fun _ => rfl
    · cases hinsert : b.store.insert env.ids name record with
      | mk answer s' =>
        cases answer with
        | error e =>
          -- A failed insertion may still have drawn an id.
          obtain ⟨hcollections, hsequence⟩ := kept_of_insert_error hinsert
          exact .idle rfl (recordsOf_of_collections hcollections) hsequence fun _ => hcollections
        | ok shown =>
          obtain ⟨own, _, hfresh, hgains, hsequence, rfl⟩ := gains_of_insert hinsert
          exact .insert hfresh hgains hsequence
  | update name id record =>
    simp only [Backend.perform, Backend.change]
    split
    · exact .idle rfl (fun _ => rfl) rfl fun _ => rfl
    · have hsequence := sequence_update b.store name id record
      cases hupdate : b.store.update name id record with
      | mk answer s' =>
        rw [hupdate] at hsequence
        cases answer with
        | error e =>
          obtain rfl := eq_of_update_error hupdate
          exact .idle rfl (fun _ => rfl) rfl fun _ => rfl
        | ok shown =>
          obtain ⟨r, hown, hrevises, rfl⟩ := revises_of_update hupdate
          exact .update hown hrevises hsequence
  | deleteMany q =>
    simp only [Backend.perform, Backend.change]
    split
    · exact .idle rfl (fun _ => rfl) rfl fun _ => rfl
    · have hsequence := sequence_deleteMany b.store q
      cases hdelete : b.store.deleteMany q with
      | mk answer s' =>
        rw [hdelete] at hsequence
        cases answer with
        | error e =>
          obtain rfl := eq_of_deleteMany_error hdelete
          exact .idle rfl (fun _ => rfl) rfl fun _ => rfl
        | ok n =>
          obtain ⟨hdecided, hkept, hcount, hothers⟩ := shrinks_of_deleteMany hdelete
          exact .delete hdecided hkept hcount hothers hsequence

/-- **A record that is there after a call** was there before, replaces one that was, or is new. -/
theorem Step.origin (h : Step s s' e) (hr : r' ∈ s'.recordsOf name) :
    r' ∈ s.recordsOf name ∨
      (∃ r ∈ s.recordsOf name, ∃ id record, r' = revise r id record) ∨
      ∃ id record answer, r' = stamp id s.sequence 0 record ∧ e = ⟨.insert name record, answer⟩ := by
  cases h with
  | idle unchanged records sequence failed =>
    rw [records] at hr
    exact Or.inl hr
  | @insert other id record fresh gains sequence =>
    by_cases hname : name = other
    · subst hname
      rw [gains.1, List.mem_append, List.mem_singleton] at hr
      cases hr with
      | inl hold => exact Or.inl hold
      | inr hnew => exact Or.inr (Or.inr ⟨id, record, _, hnew, rfl⟩)
    · rw [gains.2.recordsOf hname] at hr
      exact Or.inl hr
  | @update other id record r own revises sequence =>
    obtain ⟨⟨before, after, hbefore, hafter⟩, hothers⟩ := revises
    by_cases hname : name = other
    · subst hname
      rw [hafter, List.mem_append, List.mem_cons] at hr
      rw [hbefore]
      rcases hr with hr | hr | hr
      · exact Or.inl (List.mem_append_left _ hr)
      · exact Or.inr (Or.inl ⟨r, by simp, id, record, hr⟩)
      · exact Or.inl (List.mem_append_right _ (List.mem_cons_of_mem _ hr))
    · rw [hothers.recordsOf hname] at hr
      exact Or.inl hr
  | @delete q n decided kept count others sequence =>
    by_cases hname : name = q.collection
    · subst hname
      rw [kept] at hr
      exact Or.inl (List.mem_of_mem_filter hr)
    · rw [others.recordsOf hname] at hr
      exact Or.inl hr

/-- A call changes the records of one collection at most. -/
theorem Step.others (h : Step s s' e) (hname : e.1.target? ≠ some name) :
    s'.recordsOf name = s.recordsOf name := by
  cases h with
  | idle unchanged records sequence failed => exact records name
  | insert fresh gains sequence => exact gains.2.recordsOf fun heq => hname (congrArg some heq.symm)
  | update own revises sequence => exact revises.2.recordsOf fun heq => hname (congrArg some heq.symm)
  | delete decided kept count others sequence =>
    exact others.recordsOf fun heq => hname (congrArg some heq.symm)

/-- A call takes a number exactly if it inserts a record. -/
theorem Step.sequence_eq (h : Step s s' e) :
    s'.sequence = s.sequence + [e].countP Event.isInsertion := by
  cases h with
  | idle unchanged records sequence failed =>
    rw [List.countP_singleton, Event.isInsertion_of_changes unchanged]
    exact sequence
  | insert fresh gains sequence => exact sequence
  | update own revises sequence => exact sequence
  | delete decided kept count others sequence => exact sequence

/-- A call on another collection leaves the records of this one alone. -/
theorem recordsOf_perform {c : Call} (env : Surroundings) (b : Backend)
    (hname : c.target? ≠ some name) :
    (b.perform env c).2.store.recordsOf name = b.store.recordsOf name :=
  (Step.of_perform env b c).others hname

end

/-! ### Ids -/

/-- All records are stamped, and the ids in a collection differ. -/
structure Identified (s : Store) : Prop where
  stamped : ∀ name, ∀ r ∈ s.recordsOf name, r.Stamped
  distinct : ∀ name, ((s.recordsOf name).map Record.id?).Nodup

/-- In an empty store all records have ids of their own. -/
theorem identified_empty : Store.empty.Identified :=
  ⟨fun _ _ hr => absurd hr List.not_mem_nil, fun _ => List.nodup_nil⟩

/-- **A call keeps the ids of a collection apart.** -/
theorem Identified.step [PatternEngine] (h : s.Identified) (hstep : Step s s' e) : s'.Identified := by
  constructor
  · intro name r' hr'
    rcases hstep.origin hr' with hold | ⟨r, _, id, record, rfl⟩ | ⟨id, record, _, rfl, _⟩
    · exact h.stamped name r' hold
    · exact ⟨_, _, _, _, rfl⟩
    · exact ⟨_, _, _, _, rfl⟩
  · intro name
    have hdistinct := h.distinct name
    cases hstep with
    | idle unchanged records sequence failed => rwa [records]
    | @insert other id record fresh gains sequence =>
      by_cases hname : name = other
      · subst hname
        rw [gains.1, List.map_append, List.map_singleton, id?_stamp, List.nodup_append]
        refine ⟨hdistinct, List.nodup_singleton _, ?_⟩
        intro a ha b hb
        obtain ⟨r, hr, rfl⟩ := List.mem_map.1 ha
        rw [List.mem_singleton.1 hb]
        exact fresh r hr
      · rwa [gains.2.recordsOf hname]
    | @update other id record r own revises sequence =>
      obtain ⟨⟨before, after, hbefore, hafter⟩, hothers⟩ := revises
      by_cases hname : name = other
      · subst hname
        rw [hbefore, List.map_append, List.map_cons, own] at hdistinct
        rwa [hafter, List.map_append, List.map_cons, revise, id?_stamp]
      · rwa [hothers.recordsOf hname]
    | @delete q n decided kept count others sequence =>
      by_cases hname : name = q.collection
      · subst hname
        rw [kept]
        exact hdistinct.sublist (List.filter_sublist.map _)
      · rwa [others.recordsOf hname]

/-- No record beside another one has its id. -/
theorem Identified.id?_ne {before after : List Record} (h : s.Identified)
    (hrecords : s.recordsOf name = before ++ r :: after) (hr' : r' ∈ before ++ after) :
    Record.id? r' ≠ Record.id? r := by
  have hdistinct := h.distinct name
  rw [hrecords, List.map_append, List.map_cons] at hdistinct
  have hnot := (List.nodup_cons.1 (List.perm_middle.nodup_iff.1 hdistinct)).1
  rw [← List.map_append] at hnot
  intro hsame
  exact hnot (hsame ▸ List.mem_map_of_mem hr')

/-- Whatever a process does, ids stay apart. -/
theorem Identified.run [PatternEngine] {α : Type} {env : Surroundings} (p : Process α) {b : Backend}
    (h : b.store.Identified) : (p.run env b).2.store.Identified := by
  induction p generalizing b with
  | done a => exact h
  | call c next ih => exact ih _ (h.step (.of_perform env b c))

/-! ### Numbers -/

/-- The numbers of records lie below the next one. -/
theorem Numbered.below (h : s.Numbered) (hr : r ∈ s.recordsOf name) :
    Record.counter Record.sequenceField r < s.sequence := by
  unfold Store.recordsOf at hr
  split at hr
  · next c hc => exact (h name c hc).below _ (List.mem_map_of_mem hr)
  · simp at hr

/-- No number is given to records of two collections. -/
def NumbersApart (s : Store) : Prop :=
  ∀ name other, name ≠ other → ∀ a ∈ s.recordsOf name, ∀ b ∈ s.recordsOf other,
    Record.counter Record.sequenceField a ≠ Record.counter Record.sequenceField b

/-- The number of a record is that of a record before the call, or the next one. -/
theorem Step.number_origin [PatternEngine] (h : Step s s' e) (hr : r' ∈ s'.recordsOf name) :
    (∃ r ∈ s.recordsOf name,
      Record.counter Record.sequenceField r = Record.counter Record.sequenceField r') ∨
      Record.counter Record.sequenceField r' = s.sequence ∧
        ∃ record answer, e = ⟨.insert name record, answer⟩ := by
  rcases h.origin hr with hold | ⟨r, hold, id, record, rfl⟩ | ⟨id, record, answer, rfl, he⟩
  · exact Or.inl ⟨r', hold, rfl⟩
  · exact Or.inl ⟨r, hold, by rw [revise, counter_stamp]⟩
  · exact Or.inr ⟨counter_stamp _ _ _ _, record, answer, he⟩

/-- A step keeps the numbers of records apart. -/
theorem NumbersApart.step [PatternEngine] (h : s.NumbersApart) (hnumbered : s.Numbered)
    (hstep : Step s s' e) :
    s'.NumbersApart := by
  intro name other hne a' ha' b' hb'
  rcases hstep.number_origin ha' with ⟨a, ha, hsame⟩ | ⟨hnew, record, answer, he⟩
  · rcases hstep.number_origin hb' with ⟨b, hb, hsame'⟩ | ⟨hnew', _⟩
    · rw [← hsame, ← hsame']
      exact h name other hne a ha b hb
    · have hbelow := hnumbered.below ha
      omega
  · rcases hstep.number_origin hb' with ⟨b, hb, hsame'⟩ | ⟨_, record', answer', he'⟩
    · have hbelow := hnumbered.below hb
      omega
    · -- One call inserts into one collection.
      rw [he] at he'
      have hcall : Call.insert name record = Call.insert other record' := congrArg Sigma.fst he'
      injection hcall with hname
      exact absurd hname hne

/-! ### Changes -/

/-- How a record came into a collection and how often it has been updated.  Its number tells the
insertion from all others. -/
def Entered (events : List Event) (name : String) (r : Record) : Prop :=
  ∃ id before record shown after, Record.id? r = some id ∧
    events = before ++ ⟨.insert name record, .ok shown⟩ :: after ∧ Record.id? shown = some id ∧
    Record.counter Record.sequenceField r = before.countP Event.isInsertion ∧
    Table.get? Record.revisionField r = some (.nat (after.countP (Event.updates name id)))

/-- A record that has been entered stays so while no event updates it. -/
theorem Entered.concat (h : Entered events name r)
    (he : ∀ id, Record.id? r = some id → e.updates name id = false) :
    Entered (events ++ [e]) name r := by
  obtain ⟨id, before, record, shown, after, hid, rfl, hshown, hnumber, hcount⟩ := h
  refine ⟨id, before, record, shown, after ++ [e], hid, by simp, hshown, hnumber, ?_⟩
  rw [List.countP_append, List.countP_singleton, he id hid, hcount]
  simp

/-- **An update is counted in the record.** -/
theorem Entered.revise (h : Entered events name r) {id : String} (hid : Record.id? r = some id)
    (record : Record) (answer : Record) :
    Entered (events ++ [⟨.update name id record, .ok answer⟩]) name (revise r id record) := by
  obtain ⟨own, before, first, shown, after, hown, rfl, hshown, hnumber, hcount⟩ := h
  rw [hid, Option.some.injEq] at hown
  subst hown
  refine ⟨id, before, first, shown, after ++ [⟨.update name id record, .ok answer⟩], id?_stamp,
    by simp, hshown, ?_, ?_⟩
  · rw [Store.revise, counter_stamp, hnumber]
  · rw [Store.revise, get?_revision_stamp, counter_of_get? hcount, List.countP_append,
      List.countP_singleton]
    simp [Event.updates]

/-- What the events of a run say of the store after it. -/
structure Recounts (events : List Event) (s : Store) : Prop where
  sequence : s.sequence = events.countP Event.isInsertion
  entered : ∀ name, ∀ r ∈ s.recordsOf name, Entered events name r

/-- An empty store has nothing to recount. -/
theorem recounts_empty : Recounts [] Store.empty :=
  ⟨rfl, fun _ _ hr => absurd hr List.not_mem_nil⟩

/-- An update is counted in the record that it replaces, and in no other one of the collection. -/
theorem Recounts.entered_update {id : String} {record old : Record} {before after : List Record}
    (h : Recounts events s) (hids : s.Identified) (own : Record.id? old = some id)
    (hbefore : s.recordsOf name = before ++ old :: after)
    (hr : r ∈ before ++ revise old id record :: after) (answer : Record) :
    Entered (events ++ [⟨.update name id record, .ok answer⟩]) name r := by
  rcases List.mem_cons.1 (List.perm_middle.mem_iff.1 hr) with hnew | hbeside
  · have hold : old ∈ s.recordsOf name := by
      rw [hbefore]
      exact List.mem_append_right _ List.mem_cons_self
    rw [hnew]
    exact (h.entered name old hold).revise own record answer
  · have hmem : r ∈ s.recordsOf name := by
      rw [hbefore]
      exact List.perm_middle.mem_iff.2 (List.mem_cons_of_mem _ hbeside)
    refine (h.entered name r hmem).concat fun other hother => ?_
    have hne : id ≠ other := by
      intro heq
      rw [heq] at own
      exact hids.id?_ne hbefore hbeside (hother.trans own.symm)
    simp [Event.updates, hne]

/-- A step goes on with the recount by its own event. -/
theorem Recounts.step [PatternEngine] (h : Recounts events s) (hids : s.Identified)
    (hstep : Step s s' e) :
    Recounts (events ++ [e]) s' := by
  constructor
  · rw [hstep.sequence_eq, h.sequence, List.countP_append]
  · intro name r hr
    by_cases htarget : e.1.target? = some name
    · cases hstep with
      | idle unchanged records sequence failed =>
        rw [records] at hr
        exact (h.entered name r hr).concat fun id _ => Event.updates_of_changes unchanged name id
      | @insert other id record fresh gains sequence =>
        cases htarget
        rw [gains.1, List.mem_append, List.mem_singleton] at hr
        cases hr with
        | inl hold => exact (h.entered _ r hold).concat fun _ _ => rfl
        | inr hnew =>
          subst hnew
          refine ⟨id, events, record, _, [], id?_stamp, rfl, id?_sanitize_stamp, ?_, ?_⟩
          · rw [counter_stamp, h.sequence]
          · rw [get?_revision_stamp, List.countP_nil]
      | update own revises sequence =>
        cases htarget
        obtain ⟨⟨before, after, hbefore, hafter⟩, _⟩ := revises
        rw [hafter] at hr
        exact h.entered_update hids own hbefore hr _
      | delete decided kept count others sequence =>
        cases htarget
        rw [kept] at hr
        exact (h.entered _ r (List.mem_of_mem_filter hr)).concat fun _ _ => rfl
    · rw [hstep.others htarget] at hr
      exact (h.entered name r hr).concat fun id _ => Event.updates_of_target htarget id

/-! ### Runs -/

/-- The books of a store after the events of a run. -/
structure WellKept (s : Store) (events : List Event) : Prop where
  /-- Every record has an id. -/
  ids : ∀ name, ∀ r ∈ s.recordsOf name, ∃ id, Table.get? "id" r = some (.str id)
  /-- The ids in a collection differ. -/
  distinct : ∀ name, ((s.recordsOf name).map Record.id?).Nodup
  /-- Every record has a number, below that of the next insertion. -/
  numbers : ∀ name, ∀ r ∈ s.recordsOf name, ∃ n, n < s.sequence ∧
    Table.get? Record.sequenceField r = some (.nat n)
  /-- The numbers grow along a collection. -/
  increasing : ∀ name, (s.recordsOf name).Pairwise fun a b =>
    Record.counter Record.sequenceField a < Record.counter Record.sequenceField b
  /-- No two collections share a number. -/
  apart : s.NumbersApart
  /-- The changes of a record are counted from its insertion. -/
  entered : ∀ name, ∀ r ∈ s.recordsOf name, Entered events name r

/-- What a call changes, and what it does not. -/
structure Changes [PatternEngine] (s s' : Store) (e : Event) : Prop where
  /-- A call that fails leaves all collections and the numbering as they are. -/
  failed : e.error?.isSome → s'.collections = s.collections ∧ s'.sequence = s.sequence
  /-- A call changes the records of one collection at most. -/
  others : ∀ name, e.1.target? ≠ some name → s'.recordsOf name = s.recordsOf name
  /-- An update replaces everything but the id, the number and the place of a record. -/
  update : ∀ name id record shown, e = ⟨.update name id record, .ok shown⟩ →
    ∃ before r r' after, s.recordsOf name = before ++ r :: after ∧
      s'.recordsOf name = before ++ r' :: after ∧ Record.id? r = some id ∧
      Table.get? "id" r' = Table.get? "id" r ∧
      Table.get? Record.sequenceField r' = Table.get? Record.sequenceField r ∧
      ∀ key, key ∉ ["id", Record.sequenceField, Record.revisionField] →
        Table.get? key r' = Table.get? key record
  /-- A deletion takes away what its filter selects, and answers how many records these were. -/
  delete : ∀ q n, e = ⟨.deleteMany q, .ok n⟩ →
    (∀ r ∈ s.recordsOf q.collection, ∃ keep, Predicate.holdsFor q.filter r = .ok keep) ∧
      s'.recordsOf q.collection =
        (s.recordsOf q.collection).filter (!Predicate.selects q.filter ·) ∧
      n = (s.recordsOf q.collection).countP (Predicate.selects q.filter)

/-- An update puts the new data into the place of the old. -/
theorem get?_revise_of_notMem {key id : String} {record r : Record}
    (h : key ∉ ["id", Record.sequenceField, Record.revisionField]) :
    Table.get? key (revise r id record) = Table.get? key record := by
  simp only [List.mem_cons, List.not_mem_nil, or_false, not_or] at h
  obtain ⟨hid, hsequence, hrevision⟩ := h
  rw [revise, get?_stamp ⟨hsequence, hrevision⟩, if_neg hid]

/-- **What any call changes.** -/
theorem Step.changes [PatternEngine] (h : Step s s' e) (hids : s.Identified) : Changes s s' e := by
  refine ⟨?_, fun _ => h.others, ?_, ?_⟩
  · intro herror
    cases h with
    | idle unchanged records sequence failed => exact ⟨failed herror, sequence⟩
    | insert | update | delete => cases herror
  · intro name id record shown he
    subst he
    cases h with
    | idle unchanged records sequence failed => cases unchanged
    | @update name id record r own revises sequence =>
      obtain ⟨⟨before, after, hbefore, hafter⟩, _⟩ := revises
      have hstamped := hids.stamped name r (by simp [hbefore])
      refine ⟨before, r, revise r id record, after, hbefore, hafter, own, ?_, ?_, ?_⟩
      · obtain ⟨own', _, _, _, rfl⟩ := hstamped
        rw [id?_stamp, Option.some.injEq] at own
        rw [revise, get?_id_stamp, get?_id_stamp, own]
      · rw [get?_sequence_of_stamped hstamped, revise, get?_sequence_stamp]
      · intro key hkey
        exact get?_revise_of_notMem hkey
  · intro q n he
    subst he
    cases h with
    | idle unchanged records sequence failed => cases unchanged
    | delete decided kept count others sequence => exact ⟨decided, kept, count⟩

/-- What is kept from call to call. -/
structure Kept [PatternEngine] (events : List Event) (s : Store) : Prop where
  reached : s.Reached
  identified : s.Identified
  apart : s.NumbersApart
  recounts : Recounts events s

/-- All of this is kept on every backend that calls lead to. -/
theorem Kept.after [PatternEngine] (env : Surroundings) (refused : List Method) (clock : Clock)
    (calls : List Call) :
    Kept (Backend.events env ⟨.empty, refused, clock⟩ calls)
      (Backend.after env ⟨.empty, refused, clock⟩ calls).store := by
  induction calls using List.reverseRecOn with
  | nil =>
    exact ⟨.empty, identified_empty, fun _ _ _ _ ha => absurd ha List.not_mem_nil, recounts_empty⟩
  | append_singleton calls c ih =>
    rw [Backend.after_concat, Backend.events_concat]
    have hstep := Step.of_perform env (Backend.after env ⟨.empty, refused, clock⟩ calls) c
    exact ⟨ih.reached.perform c, ih.identified.step hstep, ih.apart.step ih.reached.numbered hstep,
      ih.recounts.step ih.identified hstep⟩

/-- From what is kept the books can be told to be in order. -/
theorem Kept.wellKept [PatternEngine] (h : Kept events s) : WellKept s events where
  ids name r hr := by
    obtain ⟨id, _, _, _, rfl⟩ := h.identified.stamped name r hr
    exact ⟨id, get?_id_stamp⟩
  distinct := h.identified.distinct
  numbers name r hr :=
    ⟨_, h.reached.numbered.below hr, get?_sequence_of_stamped (h.identified.stamped name r hr)⟩
  increasing := h.reached.numbered.recordsOf
  apart := h.apart
  entered := h.recounts.entered

/-- **The books of the store are well kept, whatever calls are made.**  After any calls on an empty
store, whether they succeed or not, the ids, the numbers and the counts of changes are in order, and
the next call changes what it should and nothing else. -/
theorem wellKept_after [PatternEngine] (env : Surroundings) (refused : List Method) (clock : Clock)
    (calls : List Call) :
    let before := Backend.after env ⟨.empty, refused, clock⟩ calls
    before.store.WellKept (Backend.events env ⟨.empty, refused, clock⟩ calls) ∧
      ∀ c, before.store.Changes (before.perform env c).2.store ⟨c, (before.perform env c).1⟩ := by
  intro before
  have hkept := Kept.after env refused clock calls
  exact ⟨hkept.wellKept, fun c => (Step.of_perform env before c).changes hkept.identified⟩

end Store

end HeadlessCms
