import HeadlessCms.Proofs.Service.SavingGlobals

/-!
# The records of one global among those of others

Seen from one global the records of all globals are of two kinds: those with a name that compares equal to
its slug, and the others (`nameLaw`).  Saves of globals keep them apart, and ids are drawn but once
(`Service.Sorted`).  So the save of another global changes no record of the first
(`Service.keeps_saveGlobal_other`), and its own saves and look-ups go in step with a mirror that shows its
own records only (`Service.inStep_saveGlobal`, `Service.inStep_findGlobal`).
-/

namespace HeadlessCms

open Time (Instant)

/-! ### What is known between saves -/

namespace Service

/-- The names that compare equal to the slug of a global, or those that do not. -/
def Alike (slug : String) (own : Bool) (name : String) : Prop :=
  (compareTexts name slug == .eq) = own

/-- A name of one kind compares equal to none of the other kind. -/
theorem Alike.ne {slug name other : String} {own : Bool} (h : Alike slug own name)
    (hother : Alike slug (!own) other) : compareTexts name other ≠ .eq := by
  intro heq
  unfold Alike at h hother
  cases own with
  | true =>
    have hslug : compareTexts name slug = .eq := beq_iff_eq.1 h
    have hback : compareTexts other name = .eq := by rw [compareTexts_swap, heq]; rfl
    rw [compareTexts_eq_trans hback hslug] at hother
    cases hother
  | false =>
    have hslug : compareTexts other slug = .eq := beq_iff_eq.1 hother
    rw [compareTexts_eq_trans heq hslug] at h
    cases h

/-- All records of globals say which kind they are of, and the snapshots of one global are of its own
kind and those of other globals are not. -/
def nameLaw (slug versions : String) : Store.Law where
  paths _ _ := True
  record name r :=
    (name = globalsCollection → ∃ own, r.NamesGlobal (Alike slug own)) ∧
      (name ≠ globalsCollection → ∀ snapshot, Table.get? "version" r = some (.obj snapshot) →
        Record.NamesGlobal (Alike slug (name == versions)) snapshot)

/-- What is known of a backend to which only globals have been saved. -/
structure Sorted (env : Surroundings) (slug versions : String) (b : Backend) : Prop where
  serving : b.refused = []
  lawful : b.Lawful env (nameLaw slug versions)
  identified : b.store.Identified
  drawn : b.store.Drawn env.ids
  numbered : b.store.Numbered

variable {env : Surroundings} {slug versions : String} {ε α : Type} {P : α → Prop}

/-- It is enough to know of an action what it writes, and that it gives no ids itself. -/
theorem keeps_sorted [PatternEngine] {a : Action ε α}
    (hlawful : Action.Keeps env (Backend.Lawful env (nameLaw slug versions)) a P)
    (hdrawn : Action.Keeps env (fun b => b.store.Drawn env.ids) a fun _ => True) :
    Action.Keeps env (Sorted env slug versions) a P := by
  intro b hb
  obtain ⟨hkept, hresult⟩ := hlawful b hb.lawful
  refine ⟨⟨?_, hkept, hb.identified.run _, (hdrawn b hb.drawn).1, hb.numbered.run _⟩, hresult⟩
  exact (Process.refused_run env _ b).trans hb.serving

/-- Reading the clock keeps the records sorted by their globals. -/
theorem keeps_now_sorted [PatternEngine] : Action.Keeps env (Sorted env slug versions)
    (Action.now : Action ε Instant) fun _ => True :=
  keeps_sorted (Action.Keeps.now.imp fun _ _ => trivial) (.now_store _)

/-- Inserting a lawful record keeps the records sorted by their globals. -/
theorem keeps_insert_sorted [PatternEngine]
    {name : String} {record : Record} (hid : Record.id? record = none)
    (hlaw : ∀ n sequence, (nameLaw slug versions).record name
      (Store.stamp (env.ids n) sequence 0 record)) :
    Action.Keeps env (Sorted env slug versions) (Action.insert name record) fun shown =>
      ∃ n sequence, shown = Record.sanitize (Store.stamp (env.ids n) sequence 0 record) :=
  keeps_sorted (.insert hid hlaw) (.insert_store fun _ hs => hs.insert name hid)

/-- Updating by a lawful record keeps the records sorted by their globals. -/
theorem keeps_update_sorted [PatternEngine] {name id : String} {record : Record}
    (hlaw : ∀ sequence revision, (nameLaw slug versions).record name
      (Store.stamp id sequence revision record)) :
    Action.Keeps env (Sorted env slug versions) (Action.update name id record) fun shown =>
      ∃ sequence revision, shown = Record.sanitize (Store.stamp id sequence revision record) :=
  keeps_sorted (.update hlaw) (.update_store fun _ hs => hs.update name id record)

/-- Every deletion keeps the records sorted by their globals. -/
theorem keeps_deleteMany_sorted [PatternEngine] (q : Query) :
    Action.Keeps env (Sorted env slug versions) (Action.deleteMany q) fun _ => True :=
  keeps_sorted (.deleteMany q) (.deleteMany_store fun _ hs => hs.deleteMany q)

/-! ### What is read and written -/

variable {I : Backend → Prop} {own : Bool} {record data : Record}

/-- The record of a global that names itself is lawful. -/
theorem record_document (h : record.NamesGlobal (Alike slug own)) (id : String)
    (sequence revision : Nat) :
    (nameLaw slug versions).record globalsCollection (Store.stamp id sequence revision record) :=
  ⟨fun _ => ⟨own, h.stamp id sequence revision⟩, fun hne => absurd rfl hne⟩

/-- The record of a version of a global that names itself is lawful. -/
theorem record_version {entity : Entity} (hown : (entity.versionsCollection == versions) = own)
    (h : data.NamesGlobal (Alike slug own)) (kind : EntityKind) (parent : Option String)
    (status : Status) (time : Instant) (id : String) (sequence revision : Nat) :
    (nameLaw slug versions).record entity.versionsCollection
      (Store.stamp id sequence revision (History.newRecord kind parent data status time)) := by
  refine ⟨fun heq => absurd heq entity.versionsCollection_ne_globals, fun _ snapshot hget => ?_⟩
  have hsnapshot : Table.get? "version" (History.newRecord kind parent data status time) =
      some (.obj (History.snapshot data status)) := by
    cases kind <;> cases parent <;> rfl
  rw [Store.get?_stamp (by decide), if_neg (by decide), hsnapshot] at hget
  cases hget
  rw [hown]
  exact h.snapshot status

/-- **Whatever is found under the name of a global belongs to one of its kind.** -/
theorem namesGlobal_of_selects [PatternEngine]
    (hI : ∀ b, I b → Sorted env slug versions b) {name : String}
    (hname : Alike slug own name) {r : Record} (hr : Backend.Selects I
      ⟨globalsCollection, some ((globalClause name).mapPaths Path.toData), none⟩ r) :
    r.NamesGlobal (Alike slug own) := by
  obtain ⟨c, ⟨b, hb, hc⟩, hmem⟩ := hr.mem
  obtain ⟨found, hfound⟩ := (((hI b hb).lawful.store _ _ hc).2 r hmem).1 rfl
  by_cases hsame : found = own
  · exact hsame ▸ hfound
  · obtain rfl : found = !own := by cases found <;> cases own <;> simp at hsame ⊢
    have hnot : ((globalClause name).mapPaths Path.toData).holds r = .ok false :=
      hfound.holds_globalClause (fun other hother => by
        rw [compareTexts_swap]
        exact fun heq => hname.ne hother (by cases h : compareTexts name other <;> simp_all)) rfl
    cases hnot.symm.trans hr.holds

/-- The document that is loaded for a global names a global of its sort. -/
theorem keeps_load_sorted [PatternEngine]
    (hI : ∀ b, I b → Sorted env slug versions b) {name : String}
    (hname : Alike slug own name) :
    Action.Keeps env I (load globalsCollection (globalClause name)) fun existing =>
      ∀ d ∈ existing, (∃ b, I b ∧ ∃ r ∈ b.store.recordsOf globalsCollection,
        r.NamesGlobal (Alike slug own) ∧ Record.id? r = some d.id) ∧
          d.data.NamesGlobal (Alike slug own) := by
  refine (keeps_load_selected _ _).imp fun existing hexisting d hd => ?_
  obtain ⟨r, hr, hread⟩ := hexisting d hd
  have hnames := namesGlobal_of_selects hI hname hr
  obtain ⟨hid, hdata⟩ := Document.of_ofRecord hread
  obtain ⟨c, ⟨b, hb, hc⟩, hmem⟩ := hr.mem
  refine ⟨⟨b, hb, r, Store.recordsOf_of_get? hc ▸ hmem, hnames, ?_⟩, hdata ▸ hnames.sanitize.stripEnvelope⟩
  rw [Record.get?_sanitize, if_neg (by decide)] at hid
  rw [Record.id?, hid]
  rfl

/-- The draft that is shown in place of a global names a global of its sort. -/
theorem keeps_resolve_sorted [PatternEngine]
    (hI : ∀ b, I b → Sorted env slug versions b) {entity : Entity}
    (hown : (entity.versionsCollection == versions) = own) (kind : EntityKind) {doc : Document}
    (hdoc : doc.data.NamesGlobal (Alike slug own)) (locale : Option String) (access : Access) :
    Action.Keeps env I (Draft.resolve entity kind doc locale access) fun newest =>
      newest.data.NamesGlobal (Alike slug own) := by
  refine (Draft.keeps_resolve _ _ _ _ _).imp fun newest hnewest => ?_
  rcases hnewest with rfl | ⟨t, version, held, q, r, _, _, rfl, hr, hread, rfl⟩
  · exact hdoc
  · obtain ⟨c, ⟨b, hb, hc⟩, hmem⟩ := hr.mem
    have hget := Version.snapshot_of_ofRecord hread
    rw [Record.get?_sanitize, if_neg (by decide)] at hget
    have hnames := (((hI b hb).lawful.store _ _ hc).2 r hmem).2 entity.versionsCollection_ne_globals
      _ hget
    rw [hown] at hnames
    exact hnames.stripEnvelope

/-- Recording a version keeps the records sorted. -/
theorem keeps_version_sorted [PatternEngine]
    {entity : Entity} (hown : (entity.versionsCollection == versions) = own)
    (kind : EntityKind) (parent : Option String) (hdata : data.NamesGlobal (Alike slug own))
    (status : Status) (time : Instant) :
    Action.Keeps env (Sorted env slug versions)
      (History.save entity kind parent data status time) fun _ => True :=
  History.keeps_save
    ((keeps_insert_sorted (History.id?_newRecord _ _ _ _ _) fun _ _ =>
      record_version hown hdata kind parent status time _ _ _).imp fun _ _ => trivial)
    fun q _ => keeps_deleteMany_sorted q

/-! ### The mirror of a global -/

variable {c other : CompiledEntity} {paths mirrorPaths : List String} {b : Backend}

/-- No record is of both kinds. -/
theorem kind_unique {r : Record} (h : r.NamesGlobal (Alike slug own)) :
    ¬ r.NamesGlobal (Alike slug !own) := by
  intro h'
  obtain ⟨v, hv, hnames⟩ := h.name
  obtain ⟨v', hv', hnames'⟩ := h'.name
  obtain rfl := Option.some.inj (hv.symm.trans hv')
  obtain ⟨name, heq, hne⟩ := hnames.exists_both hnames'
  have hboth : own = !own := heq.symm.trans hne
  cases own <;> cases hboth

/-- Globals of different kinds have different records. -/
theorem id?_ne_of_kinds (hb : Sorted env slug versions b) {r r' : Record}
    (hr : r ∈ b.store.recordsOf globalsCollection) (hr' : r' ∈ b.store.recordsOf globalsCollection)
    (h : r.NamesGlobal (Alike slug own)) (h' : r'.NamesGlobal (Alike slug !own)) :
    Record.id? r ≠ Record.id? r' := by
  intro heq
  obtain rfl := List.inj_on_of_nodup_map (hb.identified.distinct globalsCollection) hr hr' heq
  exact kind_unique h h'

open Classical in
/-- A mirror for one global shows its own records among those of all globals, and all its versions. -/
noncomputable def globalView (c : CompiledEntity) (paths mirrorPaths : List String) : View where
  shows name :=
    name = globalsCollection ∨ c.entity.isVersioned = true ∧ name = c.entity.versionsCollection
  own name r := decide (name = globalsCollection → r.NamesGlobal (Alike c.slug true))
  paths name := if name = globalsCollection then paths else c.versionLocalizedPaths
  mirrorPaths name := if name = globalsCollection then mirrorPaths else c.versionLocalizedPaths

/-- The view of a global shows all records of other collections, and of the globals those that name
it. -/
theorem own_globalView {name : String} {r : Record} :
    (globalView c paths mirrorPaths).own name r = true ↔
      (name = globalsCollection → r.NamesGlobal (Alike c.slug true)) := by
  simp [globalView]

/-- The view of a global does not show the records of other globals. -/
theorem own_globalView_of_other {r : Record} (h : r.NamesGlobal (Alike c.slug false)) :
    (globalView c paths mirrorPaths).own globalsCollection r = false :=
  Bool.eq_false_iff.2 fun hown => kind_unique h (own_globalView.1 hown rfl)

/-- The versions of a global are shown as a whole. -/
theorem showsAll_globalView {rest : String → List Record} (hversioned : c.entity.isVersioned = true)
    (hrest : rest c.entity.versionsCollection = []) :
    (globalView c paths mirrorPaths).ShowsAll rest c.entity.versionsCollection where
  shown := Or.inr ⟨hversioned, rfl⟩
  own _ := own_globalView.2 fun heq => absurd heq c.entity.versionsCollection_ne_globals
  paths := by
    rw [globalView]
    dsimp only
    rw [if_neg c.entity.versionsCollection_ne_globals, if_neg c.entity.versionsCollection_ne_globals]
  rest := hrest

/-- What is known of the records that are not shown. -/
theorem namesGlobal_of_others (hb : Sorted env c.slug c.entity.versionsCollection b) {r : Record}
    (hr : r ∈ b.store.others (globalView c paths mirrorPaths) globalsCollection) :
    r ∈ b.store.recordsOf globalsCollection ∧ r.NamesGlobal (Alike c.slug false) := by
  obtain ⟨hmem, hnot⟩ := List.mem_filter.1 hr
  obtain ⟨own, hnames⟩ := (hb.lawful.store.recordsOf hmem).1 rfl
  refine ⟨hmem, ?_⟩
  cases own with
  | false => exact hnames
  | true =>
    rw [own_globalView.2 fun _ => hnames] at hnot
    cases hnot

/-! ### Saves of other globals -/

variable [PatternEngine]

/-- **What the save of another global does is not shown,** whatever it does. -/
theorem savesInStep_other {m : Store} (hother : Alike c.slug false other.slug) :
    SavesInStep env
      (fun b m' => m' = b ∧ (Sorted env c.slug c.entity.versionsCollection b ∧
        b.store.Mirrors (globalView c paths mirrorPaths) m))
      (Alike c.slug false) (fun id => ∀ r ∈ m.recordsOf globalsCollection, Record.id? r ≠ some id)
      other := by
  have hslugs : other.slug ≠ c.slug := by
    intro heq
    rw [heq, Alike, compareTexts_self] at hother
    cases hother
  have hversions : other.entity.versionsCollection ≠ c.entity.versionsCollection := fun heq =>
    hslugs (Entity.versionsCollection_injective heq)
  have hapart : (other.entity.versionsCollection == c.entity.versionsCollection) = false :=
    beq_eq_false_iff_ne.2 hversions
  have hnotShown : ¬ (globalView c paths mirrorPaths).shows other.entity.versionsCollection := by
    rintro (heq | ⟨_, heq⟩)
    · exact other.entity.versionsCollection_ne_globals heq
    · exact hversions heq
  have hshown : (globalView c paths mirrorPaths).shows globalsCollection := Or.inl rfl
  have hversion (parent : Option String) (data : Record) (status : Status) (time : Instant) :
      Action.Keeps env (fun b => b.store.Mirrors (globalView c paths mirrorPaths) m)
        (History.save other.entity other.kind parent data status time) fun _ => True :=
    History.keeps_save (.insert_other (History.id?_newRecord _ _ _ _ _) fun h => absurd h hnotShown)
      fun q hq => .deleteMany_other (hq ▸ hnotShown)
  constructor
  case now => exact ((keeps_now_sorted.and .now_other).imp fun _ _ => trivial).inStep
  case load =>
    refine ((keeps_load_sorted (fun _ => And.left) hother).imp
      fun existing hexisting d hd => ?_).inStep
    obtain ⟨⟨b, ⟨hb, hmirrors⟩, r, hr, hnames, hid⟩, hdata⟩ := hexisting d hd
    refine ⟨fun r' hr' heq => ?_, hdata⟩
    obtain ⟨mine, hmine, hown, hsame⟩ := Store.Mirrors.exists_own hmirrors hshown hr'
    exact id?_ne_of_kinds hb hr hmine hnames (own_globalView.1 hown rfl)
      (hid.trans (heq.symm.trans hsame.symm))
  case resolve =>
    intro _ d hd
    exact (keeps_resolve_sorted (fun _ => And.left) hapart other.kind hd none .unrestricted).inStep
  case insert =>
    intro record hrecord hid
    refine (((keeps_insert_sorted hid fun _ _ => record_document hrecord _ _ _).and
      (.insert_other hid fun _ _ _ => own_globalView_of_other (hrecord.stamp _ _ _))).imp
        fun stored hresult => ?_).inStep
    obtain ⟨⟨n, sequence, rfl⟩, _⟩ := hresult
    exact (hrecord.stamp _ _ _).sanitize
  case update =>
    intro id hid record hrecord
    refine (((keeps_update_sorted fun _ _ => record_document hrecord _ _ _).and
      (.update_other hshown hid fun _ _ => own_globalView_of_other (hrecord.stamp _ _ _))).imp
        fun stored hresult => ?_).inStep
    obtain ⟨⟨sequence, revision, rfl⟩, _⟩ := hresult
    exact (hrecord.stamp _ _ _).sanitize
  case version =>
    intro _ parent data hdata status time
    exact (((keeps_version_sorted hapart other.kind parent hdata status time).and
      (hversion parent data status time)).imp fun _ _ => trivial).inStep

/-- **The save of another global is not shown in the mirror of a global.** -/
theorem keeps_saveGlobal_other {s : Service} {m : Store} {name : String}
    (hname : ∀ other, s.registry.global name = .ok other → other.slug = name ∧ Alike c.slug false name)
    {data : Record} (hdata : Table.Ascending data) (params : SaveParams) :
    Action.Keeps env (fun b => Sorted env c.slug c.entity.versionsCollection b ∧
        b.store.Mirrors (globalView c paths mirrorPaths) m)
      (s.saveGlobal name data params) fun _ => True := by
  cases hother : s.registry.global name with
  | ok other =>
    obtain ⟨hslug, halike⟩ := hname other hother
    exact ((savesInStep_other (hslug ▸ halike)).saveGlobal hother hslug halike hdata params).keeps
  | error e =>
    unfold saveGlobal
    rw [hother]
    exact (Action.Keeps.ofExcept (P := fun _ => False) fun _ h => by cases h).bind fun _ h => h.elim

/-! ### Saves and look-ups of the global itself -/

/-- The constraints that a global is looked up by: its name and the clause of its readers. -/
def lookedUpBy (c : CompiledEntity) : List Constraint :=
  match readAccess c with
  | .ok access => (withScope (some (globalClause c.slug)) access).toList.flatMap (·.leaves)
  | .error _ => []

section Own

variable {rest : String → List Record}

/-- The records of other globals, as they are known beside a mirror of one of them. -/
structure OthersApart (c : CompiledEntity) (rest : String → List Record) : Prop where
  globals : ∀ r ∈ rest globalsCollection, r.NamesGlobal (Alike c.slug false)
  versions : rest c.entity.versionsCollection = []

variable (hrest : OthersApart c rest)

include hrest

/-- A clause that asks for the global first does not find other ones. -/
theorem mirrored_globals (access : Access) {locale : Option String} {localized : List String}
    (hscope : ∀ p ∈ withScope (some (globalClause c.slug)) access, ∀ k ∈ p.leaves,
      (Path.segments (Path.toData k.path)).head? ≠ some Record.sequenceField) :
    (Query.mk globalsCollection ((withScope (some (globalClause c.slug)) access).map
      (·.mapPaths (Store.storedPath localized locale))) locale).Mirrored
        (globalView c paths mirrorPaths) rest where
  shown := Or.inl rfl
  ignores q hq := by
    obtain ⟨p, hp, rfl⟩ := Option.map_eq_some_iff.1 hq
    exact Predicate.ignoresNumbers_storedPath (hscope p hp) _ _
  blind r hr := by
    refine holdsFor_withScope_of_not ((hrest.globals r hr).holds_globalClause
      (fun name hname heq => ?_) (Store.head?_segments_storedPath _ _ _)) access
    rw [Alike, heq] at hname
    cases hname

/-- The same document is loaded. -/
theorem inStep_load :
    Action.InStep env (Backend.Abreast env (globalView c paths mirrorPaths) rest)
      (load globalsCollection (globalClause c.slug)) fun _ => True := by
  unfold load
  refine ((Action.InStep.buildQuery (Or.inl rfl) fun p _ => rfl).mapError _).bind fun q hq => ?_
  subst hq
  refine ((Action.InStep.findOne (mirrored_globals hrest .unrestricted fun p hp => ?_) rfl
    fun key hkey => ?_).mapError _).bind fun found _ => ?_
  · cases hp
    exact Predicate.head?_compare (by decide)
  · cases hkey
  · cases found with
    | none => exact .pure trivial
    | some record =>
      exact .ofExcept_bind fun _ _ => .pure trivial

/-- **What the save of a global does is done to its mirror, too.** -/
theorem savesInStep_own (hids : Function.Injective env.ids) :
    SavesInStep env
      (fun b m => Backend.Abreast env (globalView c paths mirrorPaths) rest b m ∧
        Sorted env c.slug c.entity.versionsCollection b)
      (Alike c.slug true) (fun id => ∀ r ∈ rest globalsCollection, Record.id? r ≠ some id) c := by
  have hself : Alike c.slug true c.slug := by rw [Alike, compareTexts_self]; rfl
  have hown : (c.entity.versionsCollection == c.entity.versionsCollection) = true :=
    beq_self_eq_true _
  have hshown : (globalView c paths mirrorPaths).shows globalsCollection := Or.inl rfl
  have hstamp {record : Record} (hrecord : record.NamesGlobal (Alike c.slug true)) (id : String)
      (sequence revision : Nat) : (globalView c paths mirrorPaths).own globalsCollection
        (Store.stamp id sequence revision record) = true :=
    own_globalView.2 fun _ => hrecord.stamp _ _ _
  constructor
  case now => exact (Action.InStep.now.and_keeps keeps_now_sorted).imp fun _ _ => trivial
  case load =>
    -- The document has the id of a record in the store, which is none of the others.
    refine (((inStep_load hrest).and_keeps (keeps_load_sorted (fun _ h => h) hself)).and_results
      (keeps_load_sorted (I := fun b => Sorted env c.slug c.entity.versionsCollection b ∧
        b.store.others (globalView c paths mirrorPaths) globalsCollection = rest globalsCollection)
          (fun _ => And.left) hself) fun b m h => ⟨h.2, h.1.store.others _ hshown⟩).imp
      fun existing hexisting d hd => ?_
    obtain ⟨⟨b, ⟨hb, hothers⟩, r, hr, hnames, hid⟩, hdata⟩ := hexisting.2 d hd
    refine ⟨fun r' hr' heq => ?_, hdata⟩
    obtain ⟨hmem, hother⟩ := namesGlobal_of_others hb (hothers.symm ▸ hr')
    exact id?_ne_of_kinds hb hr hmem hnames hother (hid.trans heq.symm)
  case resolve =>
    intro hdrafts d hd
    exact ((Draft.inStep_resolve (showsAll_globalView (Entity.isVersioned_of_hasDrafts hdrafts)
      hrest.versions) d none .unrestricted).and_keeps
        (keeps_resolve_sorted (fun _ h => h) hown c.kind hd none .unrestricted)).imp fun _ => And.right
  case insert =>
    intro record hrecord hid
    refine ((Action.InStep.insert hids hshown hrecord.ascending hid fun _ _ =>
      hstamp hrecord _ _ _).and_keeps (keeps_insert_sorted hid fun _ _ =>
        record_document hrecord _ _ _)).imp fun stored hresult => ?_
    obtain ⟨_, n, sequence, rfl⟩ := hresult
    exact (hrecord.stamp _ _ _).sanitize
  case update =>
    intro id hid record hrecord
    refine ((Action.InStep.update hshown hrecord.ascending hid fun _ _ =>
      hstamp hrecord _ _ _).and_keeps (keeps_update_sorted fun _ _ =>
        record_document hrecord _ _ _)).imp fun stored hresult => ?_
    obtain ⟨_, sequence, revision, rfl⟩ := hresult
    exact (hrecord.stamp _ _ _).sanitize
  case version =>
    intro hversioned parent data hdata status time
    exact ((History.inStep_save hids (showsAll_globalView hversioned hrest.versions) parent status
      time).and_keeps (keeps_version_sorted hown c.kind parent hdata status time)).imp
        fun _ _ => trivial

/-- **The save of a global goes in step with its mirror.** -/
theorem inStep_saveGlobal (hids : Function.Injective env.ids) {s : Service}
    (hc : s.registry.global c.slug = .ok c) {data : Record} (hdata : Table.Ascending data)
    (params : SaveParams) :
    Action.InStep env
      (fun b m => Backend.Abreast env (globalView c paths mirrorPaths) rest b m ∧
        Sorted env c.slug c.entity.versionsCollection b)
      (s.saveGlobal c.slug data params) fun _ => True :=
  (savesInStep_own hrest hids).saveGlobal hc rfl (by rw [Alike, compareTexts_self]; rfl) hdata params

/-- A document is presented alike. -/
theorem inStep_present {s : Service} (draft : Bool) (selection : Option LocaleSelection)
    (access : Access) (doc : Document) :
    Action.InStep env (Backend.Abreast env (globalView c paths mirrorPaths) rest)
      (s.present c draft selection access doc) fun _ => True := by
  unfold present
  split
  · next hdraft =>
    have hversioned := Entity.isVersioned_of_hasDrafts (Bool.and_eq_true_iff.1 hdraft).2
    exact ((Draft.inStep_resolve (showsAll_globalView hversioned hrest.versions) doc _
      _).mapError _).bind fun _ _ => .pure trivial
  · exact .pure trivial

/-- **A global is found alike,** if what it is looked up by does not name numbers and stands at the
same paths. -/
theorem inStep_findGlobal {s : Service} (hc : s.registry.global c.slug = .ok c) (params : ReadParams)
    (hnumbers : ∀ k ∈ lookedUpBy c,
      (Path.segments (Path.toData k.path)).head? ≠ some Record.sequenceField)
    (hpaths : ∀ selection, s.selectLocale params.locale params.fallbackLocale = .ok selection →
      ∀ k ∈ lookedUpBy c, Store.storedPath mirrorPaths (localeOf selection) k.path =
        Store.storedPath paths (localeOf selection) k.path) :
    Action.InStep env (Backend.Abreast env (globalView c paths mirrorPaths) rest)
      (s.findGlobal c.slug params) fun _ => True := by
  unfold findGlobal
  refine .ofExcept_bind fun found hfound => ?_
  obtain rfl : found = c := Except.ok.inj (hfound.symm.trans hc)
  refine .ofExcept_bind fun access haccess => ?_
  refine .ofExcept_bind fun selection hselect => ?_
  have hleaves : ∀ p ∈ withScope (some (globalClause found.slug)) access, ∀ k ∈ p.leaves,
      k ∈ lookedUpBy found := by
    intro p hp k hk
    rw [lookedUpBy, haccess]
    exact List.mem_flatMap.2 ⟨p, Option.mem_toList.2 hp, hk⟩
  dsimp only
  refine ((Action.InStep.buildQuery (Or.inl rfl) fun p hp => p.mapPaths_congr fun k hk =>
    hpaths selection hselect k (hleaves p hp k hk)).mapError _).bind fun q hq => ?_
  subst hq
  refine ((Action.InStep.findOne (mirrored_globals hrest access fun p hp k hk =>
    hnumbers k (hleaves p hp k hk)) rfl fun key hkey => ?_).mapError _).bind fun shown _ => ?_
  · cases hkey
  · cases shown with
    | none => exact .pure trivial
    | some record =>
      refine .ofExcept_bind fun doc _ => ?_
      exact (inStep_present hrest _ _ _ doc).bind fun _ _ => .pure trivial

end Own

end Service

end HeadlessCms
