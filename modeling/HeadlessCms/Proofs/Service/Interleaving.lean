import HeadlessCms.Proofs.Document.Ledger
import HeadlessCms.Proofs.Service.Courses
import HeadlessCms.Proofs.Service.Updating

/-!
# Two updates of one document at a time

An update looks its document up, takes a time and writes the whole document, and nothing keeps another
one from writing in between.  Where the one that writes last has looked after the other one wrote, the
document is what one update after the other makes of it, with both patches and the later of the two
times.  Where it has looked before, the patch of the first writer is lost, and the document has the time
of the last writer, which may be the earlier one (`UpdatePair.in_turn_or_overtaken`).
-/

namespace HeadlessCms

open Time (Instant)

/-- Calls aside are no milestones. -/
theorem Event.milestone?_of_aside {slug : String} {call : Call} (h : Service.Aside slug call)
    (answer : call.Answer) : milestone? slug ⟨call, answer⟩ = none := by
  unfold milestone?
  split
  · next heq => exact absurd (congrArg Sigma.fst heq) (h.findOne _ _)
  · next heq => exact absurd (congrArg Sigma.fst heq) h.now
  · next name own record shown heq =>
    refine if_neg fun hname => h.target ?_
    have hcall : call = .update name own record := congrArg Sigma.fst heq
    rw [hcall, ← hname]
    rfl
  · rfl

open Service (updateFound updateWritten)

/-- Two published updates of one document, with patches over different names. -/
structure UpdatePair where
  config : Config
  service : Service
  slug : String
  id : String
  entity : CompiledEntity
  patch : Bool → Record
  params : Bool → SaveParams
  selection : Bool → Option LocaleSelection
  built : Registry.build config = .ok service.registry
  compiled : service.registry.collection slug = .ok entity
  published : ∀ w, Service.draftOf entity (params w) = false
  selects : ∀ w, service.selectLocale (params w).locale none = .ok (selection w)
  ascending : ∀ w, Table.Ascending (patch w)
  disjoint : ∀ w, ∀ name ∈ (patch w).keys, name ∉ (patch !w).keys

namespace UpdatePair

/-- The entity of both updates has their slug. -/
theorem slug_entity (u : UpdatePair) : u.entity.entity.slug = u.slug := by
  obtain ⟨e, -, hslug, hcompile⟩ := Registry.compiles_of_collection u.built u.compiled
  rw [(CompiledEntity.of_compile hcompile).1, hslug]

variable (u : UpdatePair)

/-- What one of them does. -/
def update (w : Bool) : Process (Except ServiceError Document) :=
  ExceptT.run (u.service.update u.slug u.id (u.patch w) (u.params w))

/-- What one of them makes of a document. -/
def rewrite (w : Bool) (doc : Document) (t : Instant) : Document :=
  u.service.rewritten u.entity (u.selection w) (u.patch w) doc t

/-- What one of them sends to the store. -/
def write (w : Bool) (doc : Document) (t : Instant) : Process (Except ServiceError Document) :=
  .call (.update u.slug doc.id (u.service.changed u.entity (u.selection w) (u.patch w) doc t).toRecord)
    (u.service.updateWritten u.entity (u.selection w) t)

/-- What is left of one of them that has come so far. -/
inductive Stage (own : String) (w : Bool) :
    Progress → Process (Except ServiceError Document) → Prop
  | asks : Stage own w .begun
      (.call (.buildQuery u.slug (some (.compare "id" .equals (.str u.id))) none)
        (u.service.updateQueried u.entity u.slug u.id (u.patch w) (u.params w)))
  | looks : Stage own w .begun
      (.call (.findOne (Store.idQuery u.slug u.id) (.sortedBy []))
        (u.service.updateFound u.entity u.slug u.id (u.patch w) (u.params w)))
  | takesTime {found : Document} (sound : found.Sound) (same : found.id = own) :
      Stage own w (.looked found) (.call .now (u.write w found))
  | writes {found : Document} {t : Instant} (sound : found.Sound) (same : found.id = own)
      (regular : t.Regular) : Stage own w (.timed found t) (u.write w found t)
  | leaves {t : Instant} {rest : Process (Except ServiceError Document)}
      (aside : rest.Makes (Service.Aside u.slug)) : Stage own w (.wrote t) rest

/-- The updates of a document are under way. -/
structure UnderWay [PatternEngine]
    (env : Surroundings) (d₀ : Document) (ms : List (Bool × Milestone))
    (p : Pair (Except ServiceError Document)) (progress : Bool → Progress) (d : Document) : Prop where
  course : Course u.rewrite d₀ ms progress d
  stage : ∀ w, u.Stage d₀.id w (progress w) (p.remaining w)
  stores : p.backend.Stores u.slug u.id d
  sound : d.Sound
  same : d.id = d₀.id
  regular : ∀ t ∈ p.backend.clock.last, t.Regular
  taken : ∀ v t, (v, .timed t) ∈ ms → t.isBefore (p.backend.clock.next env.readings).1 = true

/-- The updates are under way, unless one of them has failed. -/
def Lasts [PatternEngine] (env : Surroundings) (d₀ : Document) (ms : List (Bool × Milestone))
    (p : Pair (Except ServiceError Document)) : Prop :=
  p.Failed ∨ ∃ progress d, u.UnderWay env d₀ ms p progress d

variable {u} {env : Surroundings} {d₀ d : Document} {ms : List (Bool × Milestone)}
  {p : Pair (Except ServiceError Document)} {progress : Bool → Progress}

/-- The next stage of one of them. -/
theorem stage_update {own : String} {w : Bool} {q : Progress}
    {rest : Process (Except ServiceError Document)}
    (h : ∀ v, u.Stage own v (progress v) (p.remaining v)) (hrest : u.Stage own w q rest) (v : Bool) :
    u.Stage own v (Function.update progress w q v) (Function.update p.remaining w rest v) := by
  by_cases hv : v = w
  · subst hv
    rwa [Function.update_self, Function.update_self]
  · rw [Function.update_of_ne hv, Function.update_of_ne hv]
    exact h v

/-- The other update stays at its stage while one goes on. -/
theorem stage_same {own : String} {w : Bool} {rest : Process (Except ServiceError Document)}
    (h : ∀ v, u.Stage own v (progress v) (p.remaining v)) (hrest : u.Stage own w (progress w) rest)
    (v : Bool) : u.Stage own v (progress v) (Function.update p.remaining w rest v) := by
  have hstage := stage_update h hrest v
  rwa [Function.update_eq_self] at hstage

namespace UnderWay

variable [PatternEngine] {w : Bool}

/-- An update that has begun asks for its document. -/
theorem turn_asks (h : u.UnderWay env d₀ ms p progress d) (hprogress : progress w = .begun)
    (hrest : p.remaining w = .call (.buildQuery u.slug (some (.compare "id" .equals (.str u.id))) none)
      (u.service.updateQueried u.entity u.slug u.id (u.patch w) (u.params w))) :
    u.Lasts env d₀ (ms ++ milestones u.slug (p.eventsAt env w)) (p.turn env w) := by
  obtain ⟨hturn, hevents⟩ := Pair.turn_of_call env hrest
  rw [h.stores.buildQuery] at hturn hevents
  rw [hturn, hevents, milestones_singleton_none rfl, List.append_nil]
  exact Or.inr ⟨progress, d, h.course, stage_same h.stage (hprogress ▸ .looks), h.stores, h.sound,
    h.same, h.regular, h.taken⟩

/-- **An update that looks finds the stored document.** -/
theorem turn_looks (h : u.UnderWay env d₀ ms p progress d) (hprogress : progress w = .begun)
    (hrest : p.remaining w = .call (.findOne (Store.idQuery u.slug u.id) (.sortedBy []))
      (u.service.updateFound u.entity u.slug u.id (u.patch w) (u.params w))) :
    u.Lasts env d₀ (ms ++ milestones u.slug (p.eventsAt env w)) (p.turn env w) := by
  obtain ⟨shown, hread, hfind⟩ := h.stores.findOne env
  have hnext : u.service.updateFound u.entity u.slug u.id (u.patch w) (u.params w)
      (.ok (some shown)) = ExceptT.run (u.service.save u.entity u.slug (some d) (u.patch w)
        (u.params w)) := by
    simp only [updateFound, hread]
  by_cases hall : Service.localeOf (u.selection w) = some allLocales
  · refine Or.inl (Pair.failed_of_call (e := .everyLocaleAtOnce) hrest ?_)
    rw [hfind, hnext]
    exact Service.run_save_everyLocale (u.selects w) hall _
  · obtain ⟨hturn, hevents⟩ := Pair.turn_of_call env hrest
    have hlooked : milestones u.slug [(w, ⟨.findOne (Store.idQuery u.slug u.id) (.sortedBy []),
        .ok (some shown)⟩)] = [(w, .looked)] :=
      milestones_singleton (Event.milestone?_findOne rfl _ shown)
    rw [hfind] at hturn hevents
    dsimp only at hevents
    rw [hturn, hevents, hnext, Service.run_save (u.selects w) hall (u.published w), hlooked]
    refine Or.inr ⟨Function.update progress w (.looked d), d, h.course.looked hprogress,
      stage_update h.stage (.takesTime h.sound h.same), h.stores, h.sound, h.same, h.regular,
      fun v t ht => h.taken v t ?_⟩
    simpa using ht

/-- **An update takes a time after all that have been taken.** -/
theorem turn_takesTime (h : u.UnderWay env d₀ ms p progress d)
    (hreadings : ∀ n, (env.readings n).Regular) {found : Document} (sound : found.Sound)
    (same : found.id = d₀.id) (hprogress : progress w = .looked found)
    (hrest : p.remaining w = .call .now (u.write w found)) :
    u.Lasts env d₀ (ms ++ milestones u.slug (p.eventsAt env w)) (p.turn env w) := by
  obtain ⟨hturn, hevents⟩ := Pair.turn_of_call env hrest
  rw [hturn, hevents, milestones_singleton (m := .timed (p.backend.clock.next env.readings).1) rfl]
  have hregular : (p.backend.clock.next env.readings).1.Regular :=
    Clock.regular_advance h.regular (hreadings _)
  refine Or.inr ⟨_, d, h.course.timed hprogress h.taken,
    stage_update h.stage (.writes sound same hregular), h.stores.perform nofun, h.sound, h.same,
    fun t ht => ?_, fun v t ht => ?_⟩
  · cases ht
    exact hregular
  · have hlater : (p.backend.clock.next env.readings).1.isBefore
        ((p.backend.clock.next env.readings).2.next env.readings).1 = true :=
      Clock.isBefore_next _ _ rfl
    rcases List.mem_append.1 ht with hold | hnew
    · exact Time.Instant.isBefore_trans (h.taken v t hold) hlater
    · cases List.mem_singleton.1 hnew
      exact hlater

/-- **An update writes what it makes of the document that it has found,** whatever is stored. -/
theorem turn_writes (h : u.UnderWay env d₀ ms p progress d) {found : Document} {t : Instant}
    (sound : found.Sound) (same : found.id = d₀.id) (regular : t.Regular)
    (hprogress : progress w = .timed found t) (hrest : p.remaining w = u.write w found t) :
    u.Lasts env d₀ (ms ++ milestones u.slug (p.eventsAt env w)) (p.turn env w) := by
  have hclock := Backend.clock_perform env p.backend (c := .update u.slug found.id
    (u.service.changed u.entity (u.selection w) (u.patch w) found t).toRecord) nofun
  -- The write may be refused, and what comes back may be unreadable; then this update has failed.
  cases hanswer : (p.backend.perform env (.update u.slug found.id
      (u.service.changed u.entity (u.selection w) (u.patch w) found t).toRecord)).1 with
  | error e =>
    refine Or.inl (Pair.failed_of_call (e := .store e) hrest ?_)
    rw [hanswer]
    rfl
  | ok shown =>
    cases hread : Document.ofRecord shown with
    | error e =>
      refine Or.inl (Pair.failed_of_call (e := .mismatch e) hrest ?_)
      rw [hanswer]
      simp only [updateWritten, hread]
    | ok saved =>
      obtain ⟨hturn, hevents⟩ := Pair.turn_of_call env hrest
      rw [hanswer] at hturn hevents
      rw [hturn, hevents, milestones_singleton (Event.milestone?_update u.slug found.id _ shown)]
      have hstores := Service.stores_rewritten h.stores sound (same.trans h.same.symm) regular
        hanswer hread
      have hrecorded : Action.Makes (Service.Aside u.slug)
          (u.service.recorded u.entity (u.selection w) t saved) :=
        Service.makes_recorded u.slug_entity t saved
      refine Or.inr ⟨_, _, h.course.wrote hprogress, stage_update h.stage (.leaves ?_), hstores,
        Service.sound_rewritten sound regular, same, ?_, ?_⟩
      · simp only [updateWritten, hread]
        exact hrecorded
      · rw [hclock]
        exact h.regular
      · intro v t' ht'
        rw [hclock]
        exact h.taken v t' (by simpa using ht')

/-- What an update does after it has written is no matter to the document. -/
theorem turn_leaves (h : u.UnderWay env d₀ ms p progress d) {t : Instant}
    (aside : (p.remaining w).Makes (Service.Aside u.slug)) (hprogress : progress w = .wrote t) :
    u.Lasts env d₀ (ms ++ milestones u.slug (p.eventsAt env w)) (p.turn env w) := by
  cases hrest : p.remaining w with
  | done x =>
    obtain ⟨hturn, hevents⟩ := Pair.turn_of_done env hrest
    rw [hturn, hevents]
    exact Or.inr ⟨progress, d, (List.append_nil ms).symm ▸ h⟩
  | call call next =>
    obtain ⟨hturn, hevents⟩ := Pair.turn_of_call env hrest
    rw [hrest] at aside
    obtain ⟨hcall, hnext⟩ := aside
    have hclock := Backend.clock_perform env p.backend hcall.now
    rw [hturn, hevents, milestones_singleton_none (Event.milestone?_of_aside hcall _),
      List.append_nil]
    refine Or.inr ⟨progress, d, h.course, stage_same h.stage ?_, h.stores.perform hcall.target,
      h.sound, h.same, ?_, ?_⟩
    · rw [hprogress]
      exact .leaves (hnext _ (p.backend.honest_perform env call))
    · rw [hclock]
      exact h.regular
    · rw [hclock]
      exact h.taken

/-- **A turn keeps the updates under way,** unless one of them fails. -/
theorem turn (h : u.UnderWay env d₀ ms p progress d) (hreadings : ∀ n, (env.readings n).Regular)
    (w : Bool) : u.Lasts env d₀ (ms ++ milestones u.slug (p.eventsAt env w)) (p.turn env w) := by
  have hstage := h.stage w
  generalize hrest : p.remaining w = rest at hstage
  generalize hprogress : progress w = q at hstage
  cases hstage with
  | asks => exact h.turn_asks hprogress hrest
  | looks => exact h.turn_looks hprogress hrest
  | takesTime sound same => exact h.turn_takesTime hreadings sound same hprogress hrest
  | writes sound same regular => exact h.turn_writes sound same regular hprogress hrest
  | leaves aside => exact h.turn_leaves (hrest ▸ aside) hprogress

end UnderWay

/-- **In whatever turns, the updates stay under way** until one of them fails. -/
theorem lasts_after [PatternEngine] (hreadings : ∀ n, (env.readings n).Regular) {b : Backend}
    (hstores : b.Stores u.slug u.id d₀) (hsound : d₀.Sound) (hclock : ∀ t ∈ b.clock.last, t.Regular)
    (turns : List Bool) :
    u.Lasts env d₀ (milestones u.slug (Pair.events env ⟨u.update, b⟩ turns))
      (Pair.after env ⟨u.update, b⟩ turns) := by
  refine Pair.invariant_after (I := fun events p => u.Lasts env d₀ (milestones u.slug events) p)
    ?_ (fun before p w h => ?_) turns
  · refine Or.inr ⟨_, d₀, .start, fun w => ?_, hstores, hsound, rfl, hclock, nofun⟩
    show u.Stage d₀.id w .begun (u.update w)
    rw [update, Service.run_update u.compiled]
    exact .asks
  · rw [milestones_append]
    rcases h with hfailed | ⟨progress, d, hunder⟩
    · exact Or.inl (hfailed.turn w)
    · exact hunder.turn hreadings w

/-! ### What comes of two updates -/

variable (u)

/-- A document has what the patch of one of them stores, put on the document that it was meant for. -/
def Carries (w : Bool) (base d : Document) : Prop :=
  ∀ name ∈ (u.patch w).keys, name ∉ Record.systemNames →
    Table.get? name d.data =
      Table.get? name (u.service.incoming u.entity (u.selection w) base.data (u.patch w))

/-- What one update after the other makes of a document. -/
structure InTurn (d₀ : Document) (t : Bool → Instant) (first : Bool) (d : Document) : Prop where
  document : d = u.rewrite (!first) (u.rewrite first d₀ (t first)) (t !first)
  later : (t first).isBefore (t !first) = true
  updatedAt : u.entity.entity.timestamps = true → d.updatedAt = some (t !first)
  carriesFirst : u.Carries first d₀ d
  carriesLast : u.Carries (!first) (u.rewrite first d₀ (t first)) d

/-- What is left where the last one has not seen what the first one wrote. -/
structure Overtaken (d₀ : Document) (t : Bool → Instant) (first : Bool) (d : Document) : Prop where
  document : d = u.rewrite (!first) d₀ (t !first)
  updatedAt : u.entity.entity.timestamps = true → d.updatedAt = some (t !first)
  carriesLast : u.Carries (!first) d₀ d
  lost : ∀ name ∈ (u.patch first).keys, name ∉ Record.systemNames →
    Table.get? name d.data = Table.get? name d₀.data

variable {u}

/-- A rewritten document carries the patch. -/
theorem carries_rewrite (w : Bool) (doc : Document) (t : Instant) :
    u.Carries w doc (u.rewrite w doc t) :=
  fun _ hmem hname => Service.get?_rewritten_of_mem (u.ascending w) hname hmem doc t

/-- The patch of one of them leaves the names of the other alone. -/
theorem get?_rewrite_other {w : Bool} {name : String} (hmem : name ∈ (u.patch w).keys)
    (hname : name ∉ Record.systemNames) (doc : Document) (t : Instant) :
    Table.get? name (u.rewrite (!w) doc t).data = Table.get? name doc.data :=
  Service.get?_rewritten_of_notMem (u.ascending !w) hname (u.disjoint w name hmem) doc t

/-- A rewritten document tells the time of its save. -/
theorem updatedAt_rewrite (h : u.entity.entity.timestamps = true) (w : Bool) (doc : Document)
    (t : Instant) : (u.rewrite w doc t).updatedAt = some t :=
  if_pos h

/-- Two rewritings one after the other are updates in turn. -/
theorem inTurn_rewrite {t : Bool → Instant} {first : Bool}
    (hlater : (t first).isBefore (t !first) = true) :
    u.InTurn d₀ t first (u.rewrite (!first) (u.rewrite first d₀ (t first)) (t !first)) where
  document := rfl
  later := hlater
  updatedAt h := updatedAt_rewrite h _ _ _
  carriesFirst name hmem hname := by
    rw [get?_rewrite_other hmem hname]
    exact carries_rewrite first d₀ (t first) name hmem hname
  carriesLast := carries_rewrite _ _ _

/-- A rewriting of what has been read before is an update that overtakes. -/
theorem overtaken_rewrite (t : Bool → Instant) (first : Bool) :
    u.Overtaken d₀ t first (u.rewrite (!first) d₀ (t !first)) where
  document := rfl
  updatedAt h := updatedAt_rewrite h _ _ _
  carriesLast := carries_rewrite _ _ _
  lost _ hmem hname := get?_rewrite_other hmem hname d₀ (t !first)

/-- When both updates have settled, the second either has seen the first or overtakes it. -/
theorem of_settles {t : Bool → Instant} (h : Settles u.rewrite d₀ t ms d) :
    ∃ (first : Bool) (before between : List (Bool × Milestone)),
      ms = before ++ (first, .wrote) :: between ++ [(!first, .wrote)] ∧
      ((!first, .looked) ∈ between ∧ u.InTurn d₀ t first d ∨
        (!first, .looked) ∈ before ∧ u.Overtaken d₀ t first d) := by
  cases h with
  | inTurn first looks later =>
    exact ⟨first, _, _, rfl, Or.inl ⟨looks, inTurn_rewrite later⟩⟩
  | overtaken first looks => exact ⟨first, _, _, rfl, Or.inr ⟨looks, overtaken_rewrite t first⟩⟩

/-- **Two updates of one document are in turn, or the last writer undoes the first.**  In whatever
turns they make their calls, if both succeed then each has found the document, taken its time and
written.  If the last writer has found the document after the other one wrote, the stored document is
what one update after the other makes of it: it carries both patches and the later of the two times.
If it has found the document before, the stored document is what the last writer alone makes of it. -/
theorem in_turn_or_overtaken [PatternEngine]
    {b : Backend} (hreadings : ∀ n, (env.readings n).Regular)
    (hclock : ∀ t ∈ b.clock.last, t.Regular)
    (hdistinct : ((b.store.recordsOf u.slug).map Record.id?).Nodup)
    (hfound : Service.Finds env u.slug u.id b d₀) (hdata : Table.Ascending d₀.data)
    (turns : List Bool) (hsucceeded : (Pair.after env ⟨u.update, b⟩ turns).Succeeded) :
    let ms := milestones u.slug (Pair.events env ⟨u.update, b⟩ turns)
    ∃ (t : Bool → Instant) (first : Bool) (before between : List (Bool × Milestone)) (d : Document),
      (∀ w, milestonesOf w ms = [.looked, .timed (t w), .wrote]) ∧
      ms = before ++ (first, .wrote) :: between ++ [(!first, .wrote)] ∧
      Service.Finds env u.slug u.id (Pair.after env ⟨u.update, b⟩ turns).backend d ∧
      ((!first, .looked) ∈ between ∧ u.InTurn d₀ t first d ∨
        (!first, .looked) ∈ before ∧ u.Overtaken d₀ t first d) := by
  intro ms
  have hstores := Service.stores_of_finds hfound hdistinct
  obtain ⟨r, hleads, hread⟩ := hstores.leads
  rcases lasts_after hreadings hstores (Document.sound_of_ofRecord hread hdata) hclock turns with
    hfailed | ⟨progress, d, hunder⟩
  · exact absurd hsucceeded hfailed.not_succeeded
  · have hwrote (w : Bool) : ∃ t, progress w = .wrote t := by
      obtain ⟨saved, hsaved⟩ := hsucceeded w
      have hstage := hunder.stage w
      rw [hsaved] at hstage
      generalize progress w = q at hstage
      cases hstage with
      | leaves aside => exact ⟨_, rfl⟩
    obtain ⟨t, hms, hsettles⟩ := hunder.course.settles hwrote
    obtain ⟨first, before, between, heq, houtcome⟩ := of_settles hsettles
    exact ⟨t, first, before, between, d, hms, heq, Service.finds_of_stores hunder.stores, houtcome⟩

/-! A memo, whose title is changed by one update and whose body by another one. -/

def memos : Entity :=
  .ofFields "memos" [Field.ofKind "title" .text, Field.ofKind "body" .text]

def memosConfig : Config :=
  ⟨[memos], [], none, .standard, .standard⟩

def memosRegistry : Registry :=
  (Registry.build memosConfig).toOption.getD ⟨[], []⟩

def memosEntity : CompiledEntity :=
  (memosRegistry.collection "memos").toOption.get (by decide +kernel)

/-- The registry knows the memos. -/
theorem collection_memos : memosRegistry.collection "memos" = .ok memosEntity := by
  have hsome : (memosRegistry.collection "memos").toOption = some memosEntity :=
    (Option.some_get _).symm
  cases hc : memosRegistry.collection "memos" with
  | error e =>
    rw [hc] at hsome
    cases hsome
  | ok c =>
    rw [hc] at hsome
    exact congrArg Except.ok (Option.some.inj hsome)

def memoUpdates : UpdatePair where
  config := memosConfig
  service := .ofRegistry memosRegistry memosConfig
  slug := "memos"
  id := "n"
  entity := memosEntity
  patch w := if w then [("title", .str "new")] else [("body", .str "long")]
  params _ := ⟨false, none⟩
  selection _ := none
  built := rfl
  compiled := collection_memos
  published _ := rfl
  selects _ := rfl
  ascending w := by cases w <;> exact List.pairwise_singleton _ _
  disjoint w := by cases w <;> decide

/-- The memo before the updates. -/
def memo : Document :=
  ⟨"n", some ⟨1700000000, 0⟩, some ⟨1700000000, 0⟩, [("body", .str "short"), ("title", .str "old")]⟩

/-- A backend with the memo. -/
def memosBackend : Backend :=
  (Action.runOn .backward (do
    let s ← Service.start memosRegistry memosConfig
    s.create "memos" memo.data ⟨false, none⟩) .empty).2

/-- The memo is found where it has been created. -/
theorem finds_memo : Service.Finds .backward "memos" "n" memosBackend memo :=
  rfl

theorem in_turn_memos :
    let turns := [false, true, true, true, true, false, false, false]
    let ms := milestones "memos" (Pair.events .backward ⟨memoUpdates.update, memosBackend⟩ turns)
    ∃ (t : Bool → Instant) (first : Bool) (before between : List (Bool × Milestone)) (d : Document),
      (∀ w, milestonesOf w ms = [.looked, .timed (t w), .wrote]) ∧
      ms = before ++ (first, .wrote) :: between ++ [(!first, .wrote)] ∧
      Service.Finds .backward "memos" "n"
        (Pair.after .backward ⟨memoUpdates.update, memosBackend⟩ turns).backend d ∧
      ((!first, .looked) ∈ between ∧ memoUpdates.InTurn memo t first d ∨
        (!first, .looked) ∈ before ∧ memoUpdates.Overtaken memo t first d) := by
  have hclock : memosBackend.clock.last = some ⟨1700000000, 0⟩ := by decide +kernel
  refine in_turn_or_overtaken (u := memoUpdates) Surroundings.proper_backward.regular ?_ ?_ finds_memo
    ?_ _ ?_
  · rw [hclock]
    intro t ht
    cases ht
    exact Or.inl (by decide)
  · decide +kernel
  · exact List.pairwise_pair.2 (by decide : "body" < "title")
  · decide +kernel

/-- The body of the memo that is found, and when it was changed. -/
def foundMemo (b : Backend) : Option (Option String × Option Instant) :=
  match (Action.runOn .backward (Service.load "memos" (.compare "id" .equals (.str "n"))) b).1 with
  | .ok (some d) => some ((Table.get? "body" d.data).bind Json.asString?, d.updatedAt)
  | _ => none

theorem finds_of_foundMemo {b : Backend} {body : String} {time : Option Instant}
    (h : foundMemo b = some (some body, time)) :
    ∃ d, Service.Finds .backward "memos" "n" b d ∧ Table.get? "body" d.data = some (.str body) ∧
      d.updatedAt = time := by
  unfold foundMemo at h
  split at h
  · next d hfound =>
    obtain ⟨hbody, rfl⟩ := Prod.mk.inj (Option.some.inj h)
    obtain ⟨v, hget, hv⟩ := Option.bind_eq_some_iff.1 hbody
    cases v <;> cases hv
    exact ⟨d, hfound, hget, rfl⟩
  · cases h

/-- **An update can be lost, and a document can go back in time.**  The update of the title finds the
memo and takes its time, the one of the body is made from beginning to end at a later time, and then the
memo is stored with the old body and the earlier time. -/
theorem overtaken_memos :
    let turns := [true, true, true, false, false, false, false, true]
    let start : Pair (Except ServiceError Document) := ⟨memoUpdates.update, memosBackend⟩
    (start.after .backward turns).Succeeded ∧
      Service.Finds .backward "memos" "n" memosBackend memo ∧
      (false, .timed ⟨1700000000, 2000000⟩) ∈ milestones "memos" (start.events .backward turns) ∧
      ∃ d, Service.Finds .backward "memos" "n" (start.after .backward turns).backend d ∧
        ¬ memoUpdates.Carries false memo d ∧ d.updatedAt = some ⟨1700000000, 1000000⟩ := by
  intro turns start
  have hfound : foundMemo (start.after .backward turns).backend =
      some (some "short", some ⟨1700000000, 1000000⟩) := by decide +kernel
  obtain ⟨d, hfinds, hbody, htime⟩ := finds_of_foundMemo hfound
  refine ⟨by decide +kernel, finds_memo, by decide +kernel, d, hfinds, fun hcarries => ?_, htime⟩
  have hlong : Table.get? "body" d.data = some (.str "long") :=
    hcarries "body" (by decide) (by decide)
  exact absurd (Json.str.inj (Option.some.inj (hbody.symm.trans hlong))) (by decide)

end UpdatePair

end HeadlessCms
