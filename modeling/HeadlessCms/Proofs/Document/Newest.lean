import HeadlessCms.Proofs.Document.Scoping
import HeadlessCms.Proofs.Document.Snapshot
import HeadlessCms.Proofs.Store.Numbering
import HeadlessCms.Proofs.Store.Upkeep
import HeadlessCms.Proofs.Time.Agreement

/-!
# The newest draft

A reader who asks for drafts gets the newest version that is a draft of the document, is later than
the document and may be seen (`Draft.Eligible`).  The look-up says this by a clause on texts and a
sort key.  Here it is shown to choose by time: timestamps are compared as instants in whatever form
they are written, and of several versions of one instant the one inserted last is taken
(`Draft.resolve_newest`).
-/

namespace HeadlessCms

open Time (Instant)

/-! ### Versions in the store -/

/-- A record in which the store holds a version.  Its times may be written in any form of RFC 3339. -/
structure Version.IsStored (record : Record) (v : Version) : Prop where
  id : Table.get? "id" record = some (.str v.id)
  parent : Table.get? "parent" record = v.parent.map .str
  content : Table.get? "version" record = some (.obj v.version)
  status : ∃ status, Table.get? Status.field v.version = some (.str status)
  createdAt : ∃ text, Table.get? "createdAt" record = some (.str text) ∧
    Time.readStrict? text = some v.createdAt
  updatedAt : ∃ text, Table.get? "updatedAt" record = some (.str text) ∧
    Time.readStrict? text = some v.updatedAt

/-- A version together with the record that holds it. -/
structure StoredVersion where
  record : Record
  version : Version
  stored : version.IsStored record

namespace Version.IsStored

variable {record : Record} {v : Version}

/-- A stored version tells its parent at the path of the parent. -/
theorem resolve_parent (h : v.IsStored record) :
    Record.resolve record "parent" = (v.parent.map Json.str).toList := by
  have hpath : Path.segments "parent" = ["parent"] := rfl
  rw [Record.resolve_name hpath, h.parent]

/-- A stored version tells its time at the path of the time, in whatever form. -/
theorem resolve_updatedAt (h : v.IsStored record) :
    ∃ text, Record.resolve record "updatedAt" = [.str text] ∧
      Time.readStrict? text = some v.updatedAt := by
  obtain ⟨text, htext, hread⟩ := h.updatedAt
  have hpath : Path.segments "updatedAt" = ["updatedAt"] := rfl
  refine ⟨text, ?_, hread⟩
  rw [Record.resolve_name hpath, htext]
  rfl

/-- **A stored version is decoded with the times by which it is chosen.** -/
theorem ofRecord_sanitize (h : v.IsStored record) :
    Version.ofRecord (Record.sanitize record) = .ok v := by
  have hget (key : String) (hkey : key ≠ "_seq" ∧ key ≠ "__v") :
      Table.get? key (Record.sanitize record) = Table.get? key record := by
    rw [Record.get?_sanitize, if_neg (not_or.2 hkey)]
  have hinstant {name text : String} {t : Instant}
      (htext : Table.get? name (Record.sanitize record) = some (.str text))
      (ht : Time.readStrict? text = some t) :
      Typed.optional name Json.readInstant (Record.sanitize record) = .ok (some t) := by
    refine Typed.optional_eq_ok_some_iff.2 ⟨_, htext, ?_⟩
    rw [Json.readInstant, Time.readRelaxed_of_readStrict? ht]
    rfl
  obtain ⟨created, hcreated, hcreated'⟩ := h.createdAt
  obtain ⟨updated, hupdated, hupdated'⟩ := h.updatedAt
  refine Version.ofRecord_eq_ok_iff.2 ⟨?_, ?_, ?_, ?_, ?_⟩
  · exact hinstant ((hget _ (by decide)).trans hcreated) hcreated'
  · exact (hget _ (by decide)).trans h.id
  · exact Typed.nullable_string ((hget _ (by decide)).trans h.parent)
  · exact hinstant ((hget _ (by decide)).trans hupdated) hupdated'
  · exact (hget _ (by decide)).trans h.content

end Version.IsStored

/-! ### The order of versions -/

namespace StoredVersion

/-- **Versions are ordered by time,** and by insertion if their times are the same instant. -/
theorem compareBy_newestFirst (x y : StoredVersion) :
    Record.compareBy [.desc "updatedAt"] none x.record y.record =
      (y.version.updatedAt.order x.version.updatedAt).then
        (compare (Record.counter Record.sequenceField y.record)
          (Record.counter Record.sequenceField x.record)) := by
  obtain ⟨s, hs, hs'⟩ := x.stored.resolve_updatedAt
  obtain ⟨t, ht, ht'⟩ := y.stored.resolve_updatedAt
  rw [Record.compareBy, SortKey.compare_desc_times hs hs' ht ht']
  rfl

/-- Whether a version is shown before another one when the newest comes first. -/
def precedes (x y : StoredVersion) : Bool :=
  Record.compareBy [.desc "updatedAt"] none x.record y.record == .lt

/-- A version that is no earlier, and inserted later, comes first. -/
theorem precedes_of_isBefore_eq_false {x y : StoredVersion}
    (htime : x.version.updatedAt.isBefore y.version.updatedAt = false)
    (hinserted : Record.counter Record.sequenceField y.record <
      Record.counter Record.sequenceField x.record) : x.precedes y = true := by
  have hnumber : compare (Record.counter Record.sequenceField y.record)
      (Record.counter Record.sequenceField x.record) = .lt := Nat.compare_eq_lt.2 hinserted
  have hnotLater : y.version.updatedAt.order x.version.updatedAt ≠ .gt := by
    intro hgt
    rw [Instant.order_eq_gt_iff, htime] at hgt
    cases hgt
  rw [precedes, compareBy_newestFirst, hnumber]
  cases horder : y.version.updatedAt.order x.version.updatedAt with
  | lt => rfl
  | eq => rfl
  | gt => exact absurd horder hnotLater

/-- An earlier version does not. -/
theorem precedes_eq_false_of_isBefore {x y : StoredVersion}
    (h : y.version.updatedAt.isBefore x.version.updatedAt = true) : y.precedes x = false := by
  rw [precedes, compareBy_newestFirst, Instant.order_eq_gt_iff.2 h]
  rfl

/-- The newest of the wanted versions, which are listed as they were inserted: no other one is later,
and none of the same instant was inserted after it. -/
def IsNewest (wanted : StoredVersion → Prop) (versions : List StoredVersion) (x : StoredVersion) :
    Prop :=
  ∃ before after, versions = before ++ x :: after ∧ wanted x ∧
    (∀ y ∈ before, wanted y → x.version.updatedAt.isBefore y.version.updatedAt = false) ∧
    (∀ y ∈ after, wanted y → y.version.updatedAt.isBefore x.version.updatedAt = true)

/-- **Among the wanted versions there is a newest one,** unless none is wanted. -/
theorem exists_isNewest (wanted : StoredVersion → Prop) (versions : List StoredVersion) :
    (∀ x ∈ versions, ¬ wanted x) ∨ ∃ x, IsNewest wanted versions x := by
  induction versions with
  | nil => exact Or.inl (by simp)
  | cons first rest ih =>
    cases ih with
    | inl hnone =>
      by_cases hfirst : wanted first
      · right
        refine ⟨first, [], rest, rfl, hfirst, by simp, ?_⟩
        intro y hy hwanted
        exact absurd hwanted (hnone y hy)
      · left
        intro y hy
        cases List.mem_cons.1 hy with
        | inl heq => exact heq ▸ hfirst
        | inr hy => exact hnone y hy
    | inr hsome =>
      obtain ⟨x, before, after, rfl, hx, hbefore, hafter⟩ := hsome
      right
      by_cases hlater : wanted first ∧
          x.version.updatedAt.isBefore first.version.updatedAt = true
      · -- The first version is later than the newest of the others, hence than all others.
        obtain ⟨hfirst, hlater⟩ := hlater
        refine ⟨first, [], before ++ x :: after, rfl, hfirst, by simp, ?_⟩
        intro y hy hwanted
        cases List.mem_append.1 hy with
        | inl hy =>
          have hle := hbefore y hy hwanted
          rw [Bool.eq_false_iff, ne_eq, Instant.isBefore_iff] at hle
          rw [Instant.isBefore_iff] at hlater ⊢
          omega
        | inr hy =>
          cases List.mem_cons.1 hy with
          | inl heq => exact heq ▸ hlater
          | inr hy => exact Instant.isBefore_trans (hafter y hy hwanted) hlater
      · refine ⟨x, first :: before, after, rfl, hx, ?_, hafter⟩
        intro y hy hwanted
        cases List.mem_cons.1 hy with
        | inl heq =>
          rw [heq] at hwanted ⊢
          rw [Bool.eq_false_iff]
          exact fun hafter => hlater ⟨hwanted, hafter⟩
        | inr hy => exact hbefore y hy hwanted

/-- **The newest of the wanted versions is shown first.** -/
theorem IsNewest.head? {wanted : StoredVersion → Prop} {versions : List StoredVersion}
    {x : StoredVersion} (h : IsNewest wanted versions x)
    (hinserted : versions.Pairwise fun y z =>
      Record.counter Record.sequenceField y.record < Record.counter Record.sequenceField z.record)
    {chosen : StoredVersion → Bool} (hchosen : ∀ y, chosen y = true ↔ wanted y) :
    (sortStably (fun a b => Record.compareBy [.desc "updatedAt"] none a b == .lt)
      ((versions.filter chosen).map StoredVersion.record)).head? = some x.record := by
  obtain ⟨before, after, rfl, hx, hbefore, hafter⟩ := h
  rw [List.filter_append, List.filter_cons_of_pos ((hchosen x).2 hx), List.map_append,
    List.map_cons]
  apply head?_sortStably
  · intro r hr
    obtain ⟨y, hy, rfl⟩ := List.mem_map.1 hr
    obtain ⟨hmem, hy⟩ := List.mem_filter.1 hy
    apply precedes_of_isBefore_eq_false (hbefore y hmem ((hchosen y).1 hy))
    exact (List.pairwise_append.1 hinserted).2.2 y hmem x List.mem_cons_self
  · intro r hr
    obtain ⟨y, hy, rfl⟩ := List.mem_map.1 hr
    obtain ⟨hmem, hy⟩ := List.mem_filter.1 hy
    exact precedes_eq_false_of_isBefore (hafter y hmem ((hchosen y).1 hy))

end StoredVersion

/-! ### The drafts that may be shown -/

/-- Only access within a scope has a clause. -/
theorem Access.clause?_eq_some_iff {access : Access} {scope : Predicate} :
    access.clause? = some scope ↔ access = .scoped scope := by
  cases access <;> simp [clause?]

namespace Draft

/-- A draft of the document with this id that is later than `updatedAt` and may be seen. -/
structure Eligible [PatternEngine] (s : Store) (entity : Entity) (kind : EntityKind) (id : String)
    (updatedAt : Instant) (access : Access) (x : StoredVersion) : Prop where
  owned : kind = .collection → x.version.parent = some id
  isDraft : Table.get? Status.field x.version.version = some (.str Status.draft.name)
  later : updatedAt.isBefore x.version.updatedAt = true
  visible : ∀ scope, access = .scoped scope →
    s.decides entity.versionsCollection scope.scopeToVersion none x.record = .ok true

variable {kind : EntityKind} {id : String} {updatedAt : Instant} {access : Access}

/-- Without a locale the paths of the clause on drafts stay as they are. -/
theorem mapPaths_storedPath_newerThan (localized : List String) :
    (newerThan kind id updatedAt).mapPaths (Store.storedPath localized none) =
      newerThan kind id updatedAt := by
  have hdata : Store.storedPath localized none = Path.toData := rfl
  have hparent : Path.toData "parent" = "parent" := by decide
  have hstatus : Path.toData ("version." ++ Status.field) = "version." ++ Status.field := by decide
  have htime : Path.toData "updatedAt" = "updatedAt" := by decide
  cases kind <;>
    simp only [newerThan, if_true, reduceCtorEq, if_false, List.singleton_append, List.nil_append,
      Predicate.mapPaths_and, List.map_cons, List.map_nil, Predicate.mapPaths_compare, hdata,
      hparent, hstatus, htime]

section

variable [PatternEngine]

/-- The clause on drafts holds of a version exactly if it is a later draft of the document. -/
theorem holds_newerThan_iff (hplain : Time.readStrict? id = none) (hprint : updatedAt.Printable)
    (x : StoredVersion) :
    (newerThan kind id updatedAt).holds x.record = .ok true ↔
      (kind = .collection → x.version.parent = some id) ∧
        Table.get? Status.field x.version.version = some (.str Status.draft.name) ∧
        updatedAt.isBefore x.version.updatedAt = true := by
  have hparent := Predicate.holds_equals_plain x.stored.resolve_parent hplain
  obtain ⟨status, hstatus⟩ := x.stored.status
  have hdraft : Time.readStrict? Status.draft.name = none := rfl
  have hvalue : Record.resolve x.record ("version." ++ Status.field) =
      ((some status).map Json.str).toList := by
    have hpath : Path.segments ("version." ++ Status.field) = ["version", Status.field] := by decide
    rw [Record.resolve_member hpath x.stored.content, hstatus]
    rfl
  have hisDraft := Predicate.holds_equals_plain hvalue hdraft
  obtain ⟨text, htext, hread⟩ := x.stored.resolve_updatedAt
  have hlater := Predicate.holds_later htext hread hprint
  rw [newerThan, Predicate.holds_and, Predicate.allHold_eq_true_iff]
  simp only [List.forall_mem_append, List.forall_mem_cons, hisDraft, hlater]
  cases kind <;> simp [hparent, hstatus]

/-- **The clause of the look-up selects the drafts that may be shown.** -/
theorem selects_clause_iff {s : Store} {entity : Entity} {c : Collection}
    (hc : Table.get? entity.versionsCollection s.collections = some c)
    (hplain : Time.readStrict? id = none) (hprint : updatedAt.Printable) (x : StoredVersion) :
    Predicate.selects (some ((clause kind id updatedAt access).mapPaths
        (Store.storedPath c.localizedPaths none))) x.record = true ↔
      Eligible s entity kind id updatedAt access x := by
  rw [Predicate.selects_iff, Predicate.holdsFor]
  have hnewer := @holds_newerThan_iff kind _ _ _ hplain hprint x
  have hvisible (scope : Predicate) :
      s.decides entity.versionsCollection scope.scopeToVersion none x.record = .ok true ↔
        (scope.scopeToVersion.mapPaths (Store.storedPath c.localizedPaths none)).holds x.record =
          .ok true := by
    rw [Store.decides, Store.buildQuery_of_get? hc]
    exact Except.mapError_eq_ok_iff
  -- A reader within a scope asks the version for one more clause.
  cases hscope : access.clause? with
  | none =>
    simp only [clause, hscope]
    rw [mapPaths_storedPath_newerThan, hnewer]
    constructor
    · intro h
      refine ⟨h.1, h.2.1, h.2.2, ?_⟩
      intro scope heq
      rw [Access.clause?_eq_some_iff.2 heq] at hscope
      cases hscope
    · intro h
      exact ⟨h.owned, h.isDraft, h.later⟩
  | some scope =>
    simp only [clause, hscope]
    rw [Predicate.holds_conjoin_iff, mapPaths_storedPath_newerThan, hnewer, ← hvisible]
    constructor
    · intro h
      refine ⟨h.1.1, h.1.2.1, h.1.2.2, ?_⟩
      intro other heq
      rw [Access.clause?_eq_some_iff.2 heq] at hscope
      cases hscope
      exact h.2
    · intro h
      exact ⟨⟨h.owned, h.isDraft, h.later⟩, h.visible scope (Access.clause?_eq_some_iff.1 hscope)⟩

/-! ### The look-up -/

variable {s : Store} {entity : Entity} {versions : List StoredVersion}

/-- **The look-up finds the newest of the drafts that may be shown.** -/
theorem findOne_newest (hreached : s.Reached)
    (hversions : s.recordsOf entity.versionsCollection = versions.map StoredVersion.record)
    (hplain : Time.readStrict? id = none) (hprint : updatedAt.Printable) {q : Query}
    (hquery : s.buildQuery entity.versionsCollection (some (clause kind id updatedAt access)) none =
      .ok q) {found : Option Record}
    (hfound : s.findOne q (options (clause kind id updatedAt access)) = .ok found) :
    ((∀ x ∈ versions, ¬ Eligible s entity kind id updatedAt access x) ∧ found = none) ∨
      ∃ x, StoredVersion.IsNewest (Eligible s entity kind id updatedAt access) versions x ∧
        found = some x.record := by
  obtain ⟨c, hcollection, hq⟩ := Except.bind_eq_ok_iff.1 hquery
  cases hq
  have hc := Store.get?_of_collection? hcollection
  obtain ⟨c', hcollection', hfound⟩ := Except.bind_eq_ok_iff.1 hfound
  cases hcollection.symm.trans hcollection'
  obtain ⟨sorted, hselect, hfound⟩ := Except.bind_eq_ok_iff.1 hfound
  cases hfound
  obtain ⟨matched, hmatched, hsorted⟩ := Except.bind_eq_ok_iff.1 hselect
  cases hsorted
  have hrecords : c.records = versions.map StoredVersion.record := by
    rw [← hversions, Store.recordsOf, hc]
  have hinserted := hreached.numbered.recordsOf entity.versionsCollection
  rw [hversions, List.pairwise_map] at hinserted
  -- A version is wanted if the clause selects its record.
  have hfiltered : matched = c.records.filter (Predicate.selects (some ((clause kind id updatedAt
      access).mapPaths (Store.storedPath c.localizedPaths none)))) :=
    Store.eq_filter_of_matching hmatched
  rw [hfiltered, hrecords, List.filter_map]
  have hwanted (x : StoredVersion) := @selects_clause_iff kind _ _ access _ _ _ _ hc hplain hprint x
  cases StoredVersion.exists_isNewest (Eligible s entity kind id updatedAt access) versions with
  | inl hnone =>
    left
    refine ⟨hnone, ?_⟩
    rw [List.filter_eq_nil_iff.2]
    · rfl
    · intro x hx hselects
      exact hnone x hx ((hwanted x).1 hselects)
  | inr hsome =>
    obtain ⟨x, hx⟩ := hsome
    right
    exact ⟨x, hx, congrArg (Option.map _) (hx.head? hinserted hwanted)⟩

/-! ### The resolution -/

/-- **The newest draft that may be shown takes the place of the document.**  When drafts are asked
for without a locale and the look-up does not fail, the document stays as it is if it has no draft
that may be shown.  Otherwise the content and the times are those of the newest one. -/
theorem resolve_newest {env : Surroundings} {b : Backend} (hreached : b.store.Reached)
    (hversions : b.store.recordsOf entity.versionsCollection = versions.map StoredVersion.record)
    {doc result : Document} {createdAt : Instant} (hcreated : doc.createdAt = some createdAt)
    (hupdated : doc.updatedAt = some updatedAt) (hprint : updatedAt.Printable)
    (hplain : Time.readStrict? doc.id = none) (hallowed : access ≠ .denied)
    (hresult : (Action.runOn env (resolve entity kind doc none access) b).1 = .ok result) :
    ((∀ x ∈ versions, ¬ Eligible b.store entity kind doc.id updatedAt access x) ∧ result = doc) ∨
      ∃ x, StoredVersion.IsNewest (Eligible b.store entity kind doc.id updatedAt access) versions x ∧
        result = ⟨doc.id, some x.version.createdAt, some x.version.updatedAt,
          Document.stripEnvelope x.version.version⟩ := by
  have hopen : access.isDenied = false := by
    cases access with
    | denied => exact absurd rfl hallowed
    | _ => rfl
  simp only [resolve, hcreated, hupdated, hopen, Bool.false_eq_true, if_false] at hresult
  obtain ⟨q, b₁, hasked, hrest⟩ := Action.exists_of_runOn_bind hresult
  obtain ⟨rfl, hquery⟩ := Action.buildQuery_of_runOn hasked
  obtain ⟨found, b₂, hlooked, hlast⟩ := Action.exists_of_runOn_bind hrest
  obtain ⟨rfl, hfound⟩ := Action.findOne_of_runOn hlooked
  cases findOne_newest hreached hversions hplain hprint hquery hfound with
  | inl hnone =>
    obtain ⟨hnone, rfl⟩ := hnone
    left
    refine ⟨hnone, ?_⟩
    cases hlast
    rfl
  | inr hsome =>
    obtain ⟨x, hx, rfl⟩ := hsome
    right
    refine ⟨x, hx, ?_⟩
    dsimp only at hlast
    rw [x.stored.ofRecord_sanitize] at hlast
    cases hlast
    rfl

end

/-! Two drafts of a post, saved at the same instant and dated in different offsets. -/

/-- The record of a draft of the post with the id `p`. -/
def postDraft (time title : String) : Record :=
  [("createdAt", .str time), ("parent", .str "p"), ("updatedAt", .str time),
    ("version", .obj [("_status", .str "draft"), ("title", .str title)])]

/-- The instant of both drafts. -/
def postDraftTime : Instant :=
  ⟨1709424000, 0⟩

/-- A stored draft of the post. -/
def storedPostDraft (id : String) (sequence : Nat) (time title : String)
    (h : Time.readStrict? time = some postDraftTime) : StoredVersion where
  record := Store.stamp id sequence 0 (postDraft time title)
  version := ⟨id, some "p", [("_status", .str "draft"), ("title", .str title)], postDraftTime,
    postDraftTime⟩
  stored := ⟨rfl, rfl, rfl, ⟨_, rfl⟩, ⟨time, rfl, h⟩, ⟨time, rfl, h⟩⟩

/-- The store with both drafts. -/
def postDraftStore : Store :=
  (((Store.empty.register "_posts_versions" []).insert (fun _ => "a") "_posts_versions"
    (postDraft "2024-03-03T00:00:00Z" "one")).2.insert (fun _ => "b") "_posts_versions"
    (postDraft "2024-03-03t01:00:00.0+01:00" "two")).2

/-- Both drafts as they are stored. -/
def postDrafts : List StoredVersion :=
  [storedPostDraft "a" 0 "2024-03-03T00:00:00Z" "one" (by decide),
    storedPostDraft "b" 1 "2024-03-03t01:00:00.0+01:00" "two" (by decide)]

/-- The post with its drafts asked for. -/
def postWithDrafts : Except StoreError Document :=
  (Action.runOn ⟨fun _ => "c", fun _ => postDraftTime⟩ (resolve (.ofFields "posts" []) .collection
    ⟨"p", some ⟨0, 0⟩, some ⟨0, 0⟩, []⟩ none .unrestricted) ⟨postDraftStore, [], .fresh⟩).1

theorem resolve_newest_tie :
    ∃ result, postWithDrafts = .ok result ∧
      ∃ x, StoredVersion.IsNewest (Eligible postDraftStore (.ofFields "posts" []) .collection "p"
          ⟨0, 0⟩ .unrestricted) postDrafts x ∧
        result = ⟨"p", some x.version.createdAt, some x.version.updatedAt,
          Document.stripEnvelope x.version.version⟩ := by
  have hreached : postDraftStore.Reached :=
    ((Store.Reached.empty.register _ _).insert _ _ _).insert _ _ _
  have hversions : postDraftStore.recordsOf (Entity.ofFields "posts" []).versionsCollection =
      postDrafts.map StoredVersion.record := rfl
  have hsome : postWithDrafts.isOk = true := by decide +kernel
  obtain ⟨result, hresult⟩ := Except.exists_of_isOk hsome
  refine ⟨result, hresult, ?_⟩
  cases resolve_newest hreached hversions rfl rfl ⟨by decide, by decide⟩ rfl (by simp) hresult with
  | inl hnone =>
    exfalso
    apply hnone.1 _ List.mem_cons_self
    refine ⟨fun _ => rfl, rfl, by decide, ?_⟩
    intro scope heq
    cases heq
  | inr hsome => exact hsome

end Draft

end HeadlessCms
