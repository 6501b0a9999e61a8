import HeadlessCms.Proofs.Except
import HeadlessCms.Proofs.Store.Actions
import HeadlessCms.Proofs.Store.Clock
import HeadlessCms.Proofs.Store.Contents

/-!
# What actions keep

An action keeps an invariant of backends if it leads from backends with the invariant to such
backends, also where it fails, and its results have a property (`Action.Keeps`).  This goes through
an action step by step (`Action.Keeps.bind`), so it is enough to know it of single calls.

The invariant of a store is a law: a property of the records of each collection (`Store.Obeys`).
Calls that put records into a collection keep it if these records are lawful.
-/

namespace HeadlessCms

open Time (Instant)

/-- A collection that is found has been declared. -/
theorem Store.get?_of_collection? {s : Store} {name : String} {c : Collection}
    (h : s.collection? name = .ok c) : Table.get? name s.collections = some c := by
  unfold collection? at h
  split at h
  · next hc =>
    cases h
    exact hc
  · cases h

namespace Backend

/-- A collection that some backend with a property has under a name. -/
def Offers (I : Backend → Prop) (name : String) (c : Collection) : Prop :=
  ∃ b, I b ∧ Table.get? name b.store.collections = some c

/-- A record that a query selects from some backend with a property. -/
structure Selects [PatternEngine] (I : Backend → Prop) (q : Query) (r : Record) : Prop where
  mem : ∃ c, Offers I q.collection c ∧ r ∈ c.records
  holds : Predicate.holdsFor q.filter r = .ok true

end Backend

namespace Action

variable [PatternEngine]
variable {ε δ α β : Type} {env : Surroundings} {I : Backend → Prop} {P : α → Prop} {Q : β → Prop}

/-- An action keeps an invariant, and its results have a property. -/
def Keeps (env : Surroundings) (I : Backend → Prop) (a : Action ε α) (P : α → Prop) : Prop :=
  ∀ b, I b → I (runOn env a b).2 ∧ ∀ x, (runOn env a b).1 = .ok x → P x

namespace Keeps

theorem pure {x : α} (h : P x) : Keeps env I (pure x : Action ε α) P := by
  intro b hb
  refine ⟨hb, fun y hy => ?_⟩
  cases hy
  exact h

theorem throw (e : ε) : Keeps env I (throw e : Action ε α) P := by
  intro b hb
  refine ⟨hb, fun y hy => ?_⟩
  cases hy

theorem ofExcept {r : Except ε α} (h : ∀ x, r = .ok x → P x) :
    Keeps env I (Action.ofExcept r) P :=
  fun _ hb => ⟨hb, h⟩

/-- **One step after the other.** -/
theorem bind {a : Action ε α} {f : α → Action ε β} (ha : Keeps env I a P)
    (hf : ∀ x, P x → Keeps env I (f x) Q) : Keeps env I (a >>= f) Q := by
  intro b hb
  obtain ⟨hkept, hresult⟩ := ha b hb
  cases h : runOn env a b with
  | mk result b' =>
    rw [h] at hkept hresult
    cases result with
    | error e =>
      rw [runOn_bind_error h]
      refine ⟨hkept, fun y hy => ?_⟩
      cases hy
    | ok x =>
      rw [runOn_bind_ok h]
      exact hf x (hresult x rfl) b' hkept

/-- What follows a step that is decided without the backend. -/
theorem ofExcept_bind {r : Except ε α} {f : α → Action ε β}
    (h : ∀ x, r = .ok x → Keeps env I (f x) Q) : Keeps env I (Action.ofExcept r >>= f) Q :=
  (ofExcept fun _ hx => hx).bind h

theorem imp {a : Action ε α} {P' : α → Prop} (h : Keeps env I a P) (hP : ∀ x, P x → P' x) :
    Keeps env I a P' :=
  fun b hb => ⟨(h b hb).1, fun x hx => hP x ((h b hb).2 x hx)⟩

/-- Two invariants are kept together if each is. -/
theorem and {a : Action ε α} {J : Backend → Prop} {P' : α → Prop} (h : Keeps env I a P)
    (h' : Keeps env J a P') : Keeps env (fun b => I b ∧ J b) a fun x => P x ∧ P' x :=
  fun b hb => ⟨⟨(h b hb.1).1, (h' b hb.2).1⟩, fun x hx => ⟨(h b hb.1).2 x hx, (h' b hb.2).2 x hx⟩⟩

theorem mapError {a : Action ε α} (h : Keeps env I a P) (f : ε → δ) :
    Keeps env I (Action.mapError f a) P := by
  intro b hb
  obtain ⟨hkept, hresult⟩ := h b hb
  rw [runOn_mapError]
  exact ⟨hkept, fun x hx => hresult x (Except.mapError_eq_ok_iff.1 hx)⟩

/-- A traversal keeps what each of its steps keeps, and each result is as the step makes it. -/
theorem mapM {f : α → Action ε β} {items : List α} (h : ∀ x ∈ items, Keeps env I (f x) Q) :
    Keeps env I (items.mapM f) fun results => ∀ y ∈ results, Q y := by
  induction items with
  | nil =>
    rw [List.mapM_nil]
    exact .pure (by simp)
  | cons x rest ih =>
    rw [List.mapM_cons]
    refine (h x List.mem_cons_self).bind fun y hy => ?_
    refine (ih fun z hz => h z (List.mem_cons_of_mem _ hz)).bind fun results hresults => ?_
    exact .pure (List.forall_mem_cons.2 ⟨hy, hresults⟩)

/-! ### Calls -/

/-- A call that only looks at the store keeps everything. -/
theorem of_look {a : Action StoreError α} {m : Method} {look : Store → Except StoreError α}
    (hcall : ∀ b, runOn env a b = b.look m look)
    (h : ∀ b x, I b → look b.store = .ok x → P x) : Keeps env I a P := by
  intro b hb
  rw [hcall b]
  refine ⟨hb, fun x hx => ?_⟩
  unfold Backend.look at hx
  dsimp only at hx
  split at hx
  · cases hx
  · exact h b x hb hx

/-- A call that changes the store keeps what the change keeps. -/
theorem of_change {a : Action StoreError α} {m : Method}
    {change : Store → Except StoreError α × Store}
    (hcall : ∀ b, runOn env a b = b.change m change)
    (h : ∀ b, I b → I { b with store := (change b.store).2 } ∧
      ∀ x, (change b.store).1 = .ok x → P x) : Keeps env I a P := by
  intro b hb
  rw [hcall b]
  unfold Backend.change
  split
  · exact ⟨hb, fun x hx => by cases hx⟩
  · exact h b hb

/-- A call keeps of the store what its operation keeps. -/
theorem insert_store {J : Store → Prop} {name : String} {record : Record}
    (h : ∀ s, J s → J (s.insert env.ids name record).2) :
    Keeps env (fun b => J b.store) (Action.insert name record) fun _ => True := by
  exact of_change (change_insert name record) fun b hb => ⟨h _ hb, fun _ _ => trivial⟩

/-- An update keeps what updates keep of a store. -/
theorem update_store {J : Store → Prop} {name id : String} {record : Record}
    (h : ∀ s, J s → J (s.update name id record).2) :
    Keeps env (fun b => J b.store) (Action.update name id record) fun _ => True := by
  exact of_change (change_update name id record) fun b hb => ⟨h _ hb, fun _ _ => trivial⟩

/-- A deletion keeps what deletions keep of a store. -/
theorem deleteMany_store {J : Store → Prop} {q : Query} (h : ∀ s, J s → J (s.deleteMany q).2) :
    Keeps env (fun b => J b.store) (Action.deleteMany q) fun _ => True := by
  exact of_change (change_deleteMany q) fun b hb => ⟨h _ hb, fun _ _ => trivial⟩

/-- Reading the clock leaves the store alone. -/
theorem now_store (J : Store → Prop) :
    Keeps env (fun b => J b.store) (Action.now : Action ε Instant) fun _ => True := by
  intro b hb
  rw [runOn_now]
  exact ⟨hb, fun _ _ => trivial⟩

/-- A query is built for a collection that is there, on the paths that it declares. -/
theorem buildQuery (name : String) (clause : Option Predicate) (locale : Option String) :
    Keeps env I (Action.buildQuery name clause locale) fun q => ∃ c, Backend.Offers I name c ∧
      q = ⟨name, clause.map (·.mapPaths (Store.storedPath c.localizedPaths locale)), locale⟩ := by
  refine of_look (look_buildQuery name clause locale) fun b q hb hq => ?_
  obtain ⟨c, hc, hq⟩ := Except.bind_eq_ok_iff.1 hq
  cases hq
  exact ⟨c, ⟨b, hb, Store.get?_of_collection? hc⟩, rfl⟩

/-- **What is found is there and satisfies the query.** -/
theorem findOne (q : Query) (options : FindOptions) :
    Keeps env I (Action.findOne q options) fun found => ∀ shown ∈ found, ∃ r,
      Backend.Selects I q r ∧ shown = Store.present options r := by
  refine of_look (look_findOne q options) fun b found hb hfound shown hshown => ?_
  obtain ⟨c, hc, hfound⟩ := Except.bind_eq_ok_iff.1 hfound
  obtain ⟨records, hselect, hfound⟩ := Except.bind_eq_ok_iff.1 hfound
  cases hfound
  obtain ⟨r, hr, rfl⟩ := Option.map_eq_some_iff.1 hshown
  obtain ⟨hmem, hholds⟩ := Store.mem_select hselect (List.mem_of_head? hr)
  exact ⟨r, ⟨⟨c, ⟨b, hb, Store.get?_of_collection? hc⟩, hmem⟩, hholds⟩, rfl⟩

/-- A page shows records that the query selects in some backend of the invariant. -/
theorem find (q : Query) (options : FindOptions) (pagination : Option Pagination) :
    Keeps env I (Action.find q options pagination) fun page => ∀ shown ∈ page.docs, ∃ r,
      Backend.Selects I q r ∧ shown = Store.present options r := by
  refine of_look (look_find q options pagination) fun b page hb hpage shown hshown => ?_
  obtain ⟨c, hc, _⟩ := Except.bind_eq_ok_iff.1 hpage
  obtain ⟨r, hmem, hholds, rfl⟩ :=
    Store.mem_docs_of_find (Store.get?_of_collection? hc) hpage hshown
  exact ⟨r, ⟨⟨c, ⟨b, hb, Store.get?_of_collection? hc⟩, hmem⟩, hholds⟩, rfl⟩

end Keeps

end Action

/-! ### Laws of stores -/

namespace Store

/-- What is known of each collection: the localized paths that it declares, and its records. -/
structure Law where
  paths : String → List String → Prop
  record : String → Record → Prop

/-- A store all of whose collections are lawful. -/
def Obeys (law : Law) (s : Store) : Prop :=
  ∀ name c, Table.get? name s.collections = some c →
    law.paths name c.localizedPaths ∧ ∀ r ∈ c.records, law.record name r

variable {law : Law} {s : Store}

/-- An empty store obeys every law. -/
theorem obeys_empty (law : Law) : Store.empty.Obeys law := by
  intro name c hc
  cases hc

/-- Records of a lawful store are lawful. -/
theorem Obeys.recordsOf (h : s.Obeys law) {name : String} {r : Record}
    (hr : r ∈ s.recordsOf name) : law.record name r := by
  unfold Store.recordsOf at hr
  split at hr
  · next c hc => exact (h name c hc).2 r hr
  · simp at hr

/-- A collection may be replaced by a lawful one. -/
theorem Obeys.insert_collection (h : s.Obeys law) {name : String} {c : Collection}
    (hpaths : law.paths name c.localizedPaths) (hrecords : ∀ r ∈ c.records, law.record name r) :
    Obeys law { s with collections := Table.insert name c s.collections } := by
  intro other c' hc'
  rw [Table.get?_insert] at hc'
  split at hc'
  · next heq =>
    cases hc'
    exact heq ▸ ⟨hpaths, hrecords⟩
  · exact h other c' hc'

/-- Lawful records may take the place of those of a collection. -/
theorem Obeys.withRecords (h : s.Obeys law) {name : String} {c : Collection}
    (hc : Table.get? name s.collections = some c) {records : List Record}
    (hrecords : ∀ r ∈ records, law.record name r) : (s.withRecords name c records).Obeys law :=
  h.insert_collection (h name c hc).1 hrecords

/-- Collections may be declared with lawful paths. -/
theorem Obeys.register (h : s.Obeys law) {name : String} {paths : List String}
    (hpaths : law.paths name paths) : (s.register name paths).Obeys law := by
  exact h.insert_collection hpaths fun r hr => h.recordsOf hr

/-- **An insertion is lawful if the new record is,** whatever id and numbers it is given. -/
theorem Obeys.insert (h : s.Obeys law) {ids : Nat → String} {name : String} {record : Record}
    (hid : Record.id? record = none)
    (hlaw : ∀ n sequence, law.record name (stamp (ids n) sequence 0 record)) :
    (s.insert ids name record).2.Obeys law ∧
      ∀ shown, (s.insert ids name record).1 = .ok shown →
        ∃ n sequence, shown = Record.sanitize (stamp (ids n) sequence 0 record) := by
  unfold Store.insert
  split
  · exact ⟨h, fun shown hshown => by cases hshown⟩
  · next c hc =>
    rw [hid]
    dsimp only
    split
    · exact ⟨h, fun shown hshown => by cases hshown⟩
    · refine ⟨?_, fun shown hshown => ?_⟩
      · refine Obeys.withRecords (s := { s with drawn := s.drawn + 1 }) h hc fun r hr => ?_
        rcases List.mem_append.1 hr with hr | hr
        · exact (h name c hc).2 r hr
        · exact List.mem_singleton.1 hr ▸ hlaw s.drawn s.sequence
      · cases hshown
        exact ⟨s.drawn, s.sequence, rfl⟩

/-- After a replacement there are the records from before, and a stamped one. -/
theorem mem_replaceFirst {id : String} {record r : Record} {records : List Record}
    (h : r ∈ replaceFirst id record records) :
    r ∈ records ∨ ∃ sequence revision, r = stamp id sequence revision record := by
  induction records with
  | nil => simp [replaceFirst] at h
  | cons existing rest ih =>
    unfold replaceFirst at h
    split at h
    · rcases List.mem_cons.1 h with rfl | h
      · exact Or.inr ⟨_, _, rfl⟩
      · exact Or.inl (List.mem_cons_of_mem _ h)
    · rcases List.mem_cons.1 h with rfl | h
      · exact Or.inl List.mem_cons_self
      · exact (ih h).imp_left (List.mem_cons_of_mem _)

/-- **An update is lawful if the record that it puts in is.** -/
theorem Obeys.update (h : s.Obeys law) {name id : String} {record : Record}
    (hlaw : ∀ sequence revision, law.record name (stamp id sequence revision record)) :
    (s.update name id record).2.Obeys law ∧
      ∀ shown, (s.update name id record).1 = .ok shown →
        ∃ sequence revision, shown = Record.sanitize (stamp id sequence revision record) := by
  unfold Store.update
  split
  · exact ⟨h, fun shown hshown => by cases hshown⟩
  · next c hc =>
    split
    · exact ⟨h, fun shown hshown => by cases hshown⟩
    · refine ⟨h.withRecords hc fun r hr => ?_, fun shown hshown => ?_⟩
      · rcases mem_replaceFirst hr with hr | ⟨sequence, revision, rfl⟩
        · exact (h name c hc).2 r hr
        · exact hlaw sequence revision
      · cases hshown
        exact ⟨_, _, rfl⟩

variable [PatternEngine]

/-- What remains after a deletion has been there before. -/
theorem mem_of_mem_remaining {filter : Option Predicate} {records kept : List Record}
    (h : remaining filter records = .ok kept) {r : Record} (hr : r ∈ kept) : r ∈ records := by
  induction records generalizing kept with
  | nil =>
    cases h
    simp at hr
  | cons x rest ih =>
    unfold remaining at h
    split at h
    · cases h
    · next doomed _ =>
      obtain ⟨more, hmore, h⟩ := Except.bind_eq_ok_iff.1 h
      cases h
      cases doomed with
      | true => exact List.mem_cons_of_mem _ (ih hmore hr)
      | false =>
        rcases List.mem_cons.1 hr with rfl | hr
        · exact List.mem_cons_self
        · exact List.mem_cons_of_mem _ (ih hmore hr)

/-- Deletions break no law. -/
theorem Obeys.deleteMany (h : s.Obeys law) (q : Query) : (s.deleteMany q).2.Obeys law := by
  unfold Store.deleteMany
  split
  · exact h
  · next c hc =>
    split
    · exact h
    · next kept hkept =>
      exact h.withRecords hc fun r hr => (h _ c hc).2 r (mem_of_mem_remaining hkept hr)

end Store

/-! ### Lawful backends -/

/-- A backend with a lawful store and a clock that has handed out times. -/
structure Backend.Lawful (env : Surroundings) (law : Store.Law) (b : Backend) : Prop where
  store : b.store.Obeys law
  clock : ∃ n, b.clock = Clock.after env.readings n

namespace Backend

variable {env : Surroundings} {law : Store.Law} {name : String}

/-- The clock hands out the next time. -/
theorem Lawful.next {b : Backend} (h : b.Lawful env law) :
    (b.clock.next env.readings).1 = Clock.times env.readings b.clock.taken ∧
      Lawful env law { b with clock := (b.clock.next env.readings).2 } := by
  obtain ⟨hstore, n, hclock⟩ := h
  rw [hclock, Clock.next_after, Clock.taken_after]
  exact ⟨rfl, hstore, n + 1, rfl⟩

/-- A collection of a lawful backend has lawful paths. -/
theorem Offers.paths {c : Collection} (h : Offers (Lawful env law) name c) :
    law.paths name c.localizedPaths := by
  obtain ⟨b, hb, hc⟩ := h
  exact (hb.store name c hc).1

/-- A collection of a lawful backend has lawful records. -/
theorem Offers.record {c : Collection} (h : Offers (Lawful env law) name c) {r : Record}
    (hr : r ∈ c.records) : law.record name r := by
  obtain ⟨b, hb, hc⟩ := h
  exact (hb.store name c hc).2 r hr

/-- A query selects lawful records on a lawful backend. -/
theorem Selects.record [PatternEngine] {q : Query} {r : Record} (h : Selects (Lawful env law) q r) :
    law.record q.collection r := by
  obtain ⟨c, hc, hr⟩ := h.mem
  exact hc.record hr

end Backend

namespace Action

variable {ε α : Type} {env : Surroundings} {law : Store.Law}

namespace Keeps

variable [PatternEngine]

/-- The clock shows one of the times that its readings lead to. -/
theorem now : Keeps env (Backend.Lawful env law) (Action.now : Action ε Instant) fun t =>
    ∃ n, t = Clock.times env.readings n := by
  intro b hb
  obtain ⟨htime, hmoved⟩ := hb.next
  rw [runOn_now]
  refine ⟨hmoved, fun t ht => ?_⟩
  cases ht
  exact ⟨_, htime⟩

/-- The times of a proper clock are regular. -/
theorem now_regular (h : ∀ n, (env.readings n).Regular) :
    Keeps env (Backend.Lawful env law) (Action.now : Action ε Instant) Instant.Regular := by
  refine now.imp fun time htime => ?_
  obtain ⟨n, rfl⟩ := htime
  exact Clock.regular_times h n

/-- Declaring a collection with lawful paths keeps a law. -/
theorem register {name : String} {paths : List String} (h : law.paths name paths) :
    Keeps env (Backend.Lawful env law) (Action.register name paths) fun _ => True := by
  exact of_change (change_register name paths) fun b hb =>
    ⟨⟨hb.store.register h, hb.clock⟩, fun _ _ => trivial⟩

/-- An insertion keeps a law that the stamped record obeys, whatever its id and its number are. -/
theorem insert {name : String} {record : Record} (hid : Record.id? record = none)
    (h : ∀ n sequence, law.record name (Store.stamp (env.ids n) sequence 0 record)) :
    Keeps env (Backend.Lawful env law) (Action.insert name record) fun shown =>
      ∃ n sequence, shown = Record.sanitize (Store.stamp (env.ids n) sequence 0 record) := by
  refine of_change (change_insert name record) fun b hb => ?_
  obtain ⟨hstore, hshown⟩ := hb.store.insert hid h
  exact ⟨⟨hstore, hb.clock⟩, hshown⟩

/-- An update keeps a law that the stamped record obeys, whatever its number and revision are. -/
theorem update {name id : String} {record : Record}
    (h : ∀ sequence revision, law.record name (Store.stamp id sequence revision record)) :
    Keeps env (Backend.Lawful env law) (Action.update name id record) fun shown =>
      ∃ sequence revision, shown = Record.sanitize (Store.stamp id sequence revision record) := by
  refine of_change (change_update name id record) fun b hb => ?_
  obtain ⟨hstore, hshown⟩ := hb.store.update h
  exact ⟨⟨hstore, hb.clock⟩, hshown⟩

/-- A deletion keeps every law. -/
theorem deleteMany (q : Query) :
    Keeps env (Backend.Lawful env law) (Action.deleteMany q) fun _ => True := by
  exact of_change (change_deleteMany q) fun b hb =>
    ⟨⟨hb.store.deleteMany q, hb.clock⟩, fun _ _ => trivial⟩

end Keeps

end Action

end HeadlessCms
