import HeadlessCms.Proofs.Service.Failing
import HeadlessCms.Proofs.Store.Bookkeeping

/-!
# Creating a document and finding it again

A document that is created is stored in one record under an id that is new in its collection
(`Service.isNew_of_save`), its version changes no document, and as long as the ids are not localized
the store finds this record by its id, in whatever locale it is asked (`Store.Identified.findOne_id`).
-/

namespace HeadlessCms

open Time (Instant)

/-! ### What is read from a record -/

/-- A document has the id of the record that it is read from, and its content is the rest. -/
theorem Document.of_ofRecord {record : Record} {d : Document} (h : ofRecord record = .ok d) :
    Table.get? "id" record = some (.str d.id) ∧ d.data = stripEnvelope record := by
  obtain ⟨-, hid, -, hdata⟩ := ofRecord_eq_ok_iff.1 h
  exact ⟨hid, hdata.symm⟩

/-- The record of a document that has just been created with some content: its id is one of those that
are drawn, it shows the document, and apart from names of the system the document has this content. -/
structure Record.IsNew (r : Record) (env : Surroundings) (updatedAt : Option Instant)
    (content : Record) (d : Document) : Prop where
  id : Record.id? r = some d.id
  drawn : ∃ k, d.id = env.ids k
  read : Document.ofRecord (Record.sanitize r) = .ok d
  updatedAt : Table.get? "updatedAt" r = updatedAt.map .ofInstant
  isData : Record.IsData d.data
  content : ∀ name, name ∉ Record.reservedNames → Table.get? name d.data = Table.get? name content

/-- A stamped record of new content is the one of the new document. -/
theorem Store.isNew_stamp {env : Surroundings} {k sequence : Nat} {createdAt updatedAt : Option Instant}
    {content : Record} {d : Document} (hcontent : Record.IsData content)
    (hread : Document.ofRecord (Record.sanitize (stamp (env.ids k) sequence 0
      (Table.erase "id" (Document.toRecord ⟨"", createdAt, updatedAt, content⟩)))) = .ok d) :
    (stamp (env.ids k) sequence 0
      (Table.erase "id" (Document.toRecord ⟨"", createdAt, updatedAt, content⟩))).IsNew env updatedAt
        content d := by
  obtain ⟨hid, hdata⟩ := Document.of_ofRecord hread
  rw [get?_sanitize_stamp, if_neg (by decide), if_pos rfl] at hid
  have hown : env.ids k = d.id := Json.str.inj (Option.some.inj hid)
  refine ⟨hown ▸ id?_stamp, ⟨k, hown.symm⟩, hread, ?_, ?_, ?_⟩
  · rw [get?_stamp (by decide), if_neg (by decide), Table.get?_erase, if_neg (by decide),
      Document.get?_updatedAt_toRecord hcontent.isBare]
  · exact Document.isData_of_ofRecord (Record.ascending_sanitize (ascending_stamp
      (Table.ascending_erase (Document.ascending_toRecord _)))) hread
  · intro name hname
    simp only [Record.reservedNames, List.mem_append, not_or] at hname
    obtain ⟨henvelope, hkept⟩ := hname
    have hid : name ≠ "id" := fun heq => henvelope (heq ▸ by decide)
    have hnumbers : ¬ (name = "_seq" ∨ name = "__v") := by
      simpa [Record.sequenceField, Record.revisionField] using hkept
    rw [hdata, Document.get?_stripEnvelope, if_neg henvelope, get?_sanitize_stamp, if_neg hnumbers,
      if_neg hid, Table.get?_erase, if_neg hid,
      Document.get?_toRecord_of_notMem_envelope hcontent henvelope]

/-! ### What a version leaves alone -/

namespace Store

variable {s s' : Store} {name : String}

/-- Records are those of a collection in the table. -/
theorem exists_of_mem_recordsOf {r : Record} (h : r ∈ s.recordsOf name) :
    ∃ c, Table.get? name s.collections = some c ∧ r ∈ c.records := by
  unfold recordsOf at h
  split at h
  · next c hc => exact ⟨c, hc, h⟩
  · cases h

/-- Deleting records deletes no collection. -/
theorem isSome_deleteMany [PatternEngine]
    (h : (Table.get? name s.collections).isSome = true) (q : Query) :
    (Table.get? name (s.deleteMany q).2.collections).isSome = true := by
  unfold deleteMany
  split
  · exact h
  · split
    · exact h
    · rw [withRecords, Table.get?_insert]
      split
      · rfl
      · exact h

end Store

variable [PatternEngine]

namespace History

variable {env : Surroundings} {entity : Entity} {kind : EntityKind} {parent : Option String}
  {name : String} {records : List Record}

/-- **Saving a version changes only the versions.** -/
theorem keeps_save_beside (hname : entity.versionsCollection ≠ name) (data : Record) (status : Status)
    (time : Instant) :
    Action.Keeps env (fun b => b.store.recordsOf name = records)
      (save entity kind parent data status time) fun _ => True := by
  have hcall (c : Call) (hc : c.target? = some entity.versionsCollection) (b : Backend) :
      (b.perform env c).2.store.recordsOf name = b.store.recordsOf name :=
    Store.recordsOf_perform env b fun heq => hname (Option.some.inj (hc.symm.trans heq))
  refine keeps_save (fun b hb => ⟨?_, fun _ _ => trivial⟩) fun q hq b hb => ⟨?_, fun _ _ => trivial⟩
  · exact (hcall (.insert entity.versionsCollection _) rfl b).trans hb
  · exact (hcall (.deleteMany q) (congrArg some hq) b).trans hb

/-- Where a version has been saved there is a collection of versions. -/
theorem isSome_of_save {data : Record} {status : Status} {time : Instant} {v : Version}
    {b b' : Backend}
    (h : Action.runOn env (save entity kind parent data status time) b = (.ok v, b')) :
    (Table.get? entity.versionsCollection b'.store.collections).isSome = true := by
  unfold save at h
  obtain ⟨stored, b₁, hinsert, h⟩ := Action.of_runOn_bind h
  obtain ⟨version, b₂, hread, h⟩ := Action.of_runOn_bind h
  obtain ⟨_, rfl⟩ := Prod.mk.inj hread
  have hthere : (Table.get? entity.versionsCollection b₁.store.collections).isSome = true := by
    obtain ⟨own, _, _, hgains, _, _⟩ := Store.gains_of_insert (Action.insert_of_runOn hinsert)
    obtain ⟨held, hheld, _⟩ := Store.exists_of_mem_recordsOf
      (hgains.1 ▸ List.mem_append_right _ (List.mem_singleton_self _))
    rw [hheld]
    rfl
  split at h
  · split at h
    · next v _ _ =>
      have hpruned : Action.Keeps env
          (fun b => (Table.get? entity.versionsCollection b.store.collections).isSome = true)
          (prune entity kind parent v.maxPerDoc) fun _ => True := by
        refine keeps_prune (fun q _ => ?_) _
        exact Action.Keeps.of_change (Action.change_deleteMany q) fun b hb =>
          ⟨Store.isSome_deleteMany hb q, fun _ _ => trivial⟩
      obtain ⟨count, b₃, hprune, h⟩ := Action.of_runOn_bind h
      have hleft := (hpruned b₁ hthere).1
      rw [hprune] at hleft
      cases h
      exact hleft
    · cases h
      exact hthere
  · cases h
    exact hthere

end History

/-! ### Creating -/

namespace Service

variable {env : Surroundings} {s : Service} {c : CompiledEntity} {collection : String}
  {selection : Option LocaleSelection} {params : SaveParams} {data : Record} {b b' : Backend}
  {created saved : Document}

/-- To create a document is to save one that is not there yet. -/
theorem save_of_create {slug : String} (hc : s.registry.collection slug = .ok c)
    (h : Action.runOn env (s.create slug data params) b = (.ok created, b')) :
    Action.runOn env (s.save c slug none data params) b = (.ok created, b') := by
  unfold create at h
  rwa [Action.runOn_bind_ok (Action.runOn_ofExcept_ok hc)] at h

omit [PatternEngine] in
/-- Patches keep content data of documents. -/
theorem isData_patched {stored : Record} (h : Record.IsData stored) (data : Record) (status : Status) :
    Record.IsData (s.patched c selection status stored data) := by
  refine ⟨?_, isBare_patched h.isBare data status⟩
  unfold patched
  dsimp only
  split
  · exact Table.ascending_insert (Table.ascending_insertAll h.ascending)
  · exact Table.ascending_insertAll h.ascending

/-- Storing a new document leaves its record in the collection. -/
theorem isNew_of_store {draft : Bool} {createdAt updatedAt : Option Instant} {content : Record}
    (hcontent : Record.IsData content)
    (h : Action.runOn env (store collection none draft createdAt updatedAt content) b =
      (.ok saved, b')) :
    ∃ r ∈ b'.store.recordsOf collection, r.IsNew env updatedAt content saved := by
  obtain ⟨shown, b₁, hinsert, hread⟩ := Action.of_runOn_bind h
  obtain ⟨hsaved, rfl⟩ := Prod.mk.inj hread
  obtain ⟨own, hown, _, hgains, _, rfl⟩ :=
    Store.gains_of_insert (Action.insert_of_runOn (Action.runOn_of_mapError hinsert))
  rw [Record.id?_erase_id, Option.getD_none] at hown
  subst hown
  refine ⟨_, ?_, Store.isNew_stamp hcontent (Except.mapError_eq_ok_iff.1 hsaved)⟩
  rw [hgains.1]
  exact List.mem_append_right _ (List.mem_singleton_self _)

/-- A new document is still there when its version has been saved. -/
theorem isNew_of_stored {draft : Bool} {createdAt updatedAt : Option Instant} {content : Record}
    {status : Status} {time : Instant} {result : Document → Document}
    (hcollection : c.entity.versionsCollection ≠ collection) (hcontent : Record.IsData content)
    (h : Action.runOn env (do
      let saved ← store collection none draft createdAt updatedAt content
      if c.entity.isVersioned = true then do
        let _ ← onStore (History.save c.entity c.kind (some saved.id) saved.toRecord status time)
        pure (result saved)
      else pure (result saved)) b = (.ok created, b')) :
    ∃ saved, created = result saved ∧
      (∃ r ∈ b'.store.recordsOf collection, r.IsNew env updatedAt content saved) ∧
      (c.entity.isVersioned = true →
        (Table.get? c.entity.versionsCollection b'.store.collections).isSome = true) := by
  obtain ⟨saved, b₁, hstored, h⟩ := Action.of_runOn_bind h
  obtain ⟨r, hr, hnew⟩ := isNew_of_store hcontent hstored
  refine ⟨saved, ?_⟩
  split at h
  · obtain ⟨v, b₂, hversion, h⟩ := Action.of_runOn_bind h
    cases h
    have hsaved := Action.runOn_of_mapError hversion
    have hkept : (Action.runOn env (History.save c.entity c.kind (some saved.id) saved.toRecord status
        time) b₁).2.store.recordsOf collection = b₁.store.recordsOf collection :=
      (History.keeps_save_beside hcollection _ _ _ b₁ rfl).1
    rw [hsaved] at hkept
    exact ⟨rfl, ⟨r, hkept ▸ hr, hnew⟩, fun _ => History.isSome_of_save hsaved⟩
  · next hversioned =>
    cases h
    exact ⟨rfl, ⟨r, hr, hnew⟩, fun h => absurd h hversioned⟩

/-- **A new document is stored.**  It is answered in the locale of the request, and if it has versions
there is a collection of them. -/
theorem isNew_of_save (hcollection : c.entity.versionsCollection ≠ collection)
    (h : Action.runOn env (s.save c collection none data params) b = (.ok created, b')) :
    ∃ selection saved, s.selectLocale params.locale none = .ok selection ∧
      localeOf selection ≠ some allLocales ∧ created = s.inLocale c.localizedPaths selection saved ∧
      (∃ r ∈ b'.store.recordsOf collection, r.IsNew env
        (if c.entity.timestamps then some (b.clock.next env.readings).1 else none)
        (s.patched c selection (statusOf c params) [] data) saved) ∧
      (c.entity.isVersioned = true →
        (Table.get? c.entity.versionsCollection b'.store.collections).isSome = true) := by
  unfold save at h
  obtain ⟨selection, b₁, hselect, h⟩ := Action.of_runOn_bind h
  rw [Action.runOn_ofExcept, Prod.mk.injEq] at hselect
  obtain ⟨hselect, rfl⟩ := hselect
  dsimp only at h
  by_cases hwrite : localeOf selection = some allLocales
  · rw [if_pos hwrite] at h
    cases h
  · have hbase (b : Backend) : Action.runOn env
        (baseOf c none (params.draft && c.entity.hasDrafts)) b = (.ok [], b) := rfl
    rw [if_neg hwrite, Action.runOn_bind_ok Action.runOn_now, Action.runOn_bind_ok (hbase _)] at h
    refine ⟨selection, ?_⟩
    split at h
    · next htimestamps =>
      obtain ⟨saved, hcreated, hnew, hversions⟩ :=
        isNew_of_stored hcollection (isData_patched Record.IsContent.nil.isData data _) h
      rw [if_pos htimestamps]
      exact ⟨saved, hselect, hwrite, hcreated, hnew, hversions⟩
    · next htimestamps =>
      obtain ⟨saved, hcreated, hnew, hversions⟩ :=
        isNew_of_stored hcollection (isData_patched Record.IsContent.nil.isData data _) h
      rw [if_neg htimestamps]
      exact ⟨saved, hselect, hwrite, hcreated, hnew, hversions⟩

end Service

/-! ### Finding it again -/

/-- Whatever is called, ids stay apart. -/
theorem Service.Reachable.identified {env : Surroundings} {registry : Registry} {config : Config}
    {b : Backend} (h : Reachable env registry config b) : b.store.Identified := by
  induction h with
  | empty => exact Store.identified_empty
  | started _ ih | created _ _ _ _ ih | updated _ _ _ _ _ ih | savedGlobal _ _ _ _ ih =>
    exact ih.run _
  | refusing _ _ ih => exact ih

namespace Store

variable {s : Store} {slug id : String} {r : Record}

/-- The clause on the id decides every record that the store has stamped. -/
theorem holds_id_of_stamped (h : r.Stamped) (hplain : Time.readStrict? id = none) :
    (Predicate.compare "id" .equals (.str id)).holds r = .ok (Record.id? r == some id) := by
  obtain ⟨own, sequence, revision, record, rfl⟩ := h
  have hpath : Path.segments "id" = ["id"] := rfl
  have hvalue : Record.resolve (stamp own sequence revision record) "id" =
      ((some own).map Json.str).toList := by
    rw [Record.resolve_name hpath, get?_id_stamp]
    rfl
  rw [id?_stamp]
  exact Predicate.holds_equals_plain hvalue hplain

/-- **A record is found by its id,** if that is no timestamp. -/
theorem Identified.findOne_id (h : s.Identified) (hr : r ∈ s.recordsOf slug)
    (hid : Record.id? r = some id) (hplain : Time.readStrict? id = none) (locale : Option String) :
    s.findOne ⟨slug, some (.compare "id" .equals (.str id)), locale⟩ (.sortedBy []) =
      .ok (some (Record.sanitize r)) := by
  obtain ⟨held, hheld, hmem⟩ := exists_of_mem_recordsOf hr
  have hrecords : s.recordsOf slug = held.records := recordsOf_of_get? hheld
  have hdecides : ∀ x y, y ∈ held.records → x = y →
      Predicate.holdsFor (some (.compare "id" .equals (.str id))) x =
        .ok (Record.id? y == some id) := by
    intro x y hy hxy
    subst hxy
    exact holds_id_of_stamped (h.stamped slug x (hrecords ▸ hy)) hplain
  have hthere : r ∈ held.records.filter (Record.id? · == some id) :=
    List.mem_filter.2 ⟨hmem, beq_iff_eq.2 hid⟩
  have hone : (held.records.filter (Record.id? · == some id)).length ≤ 1 := by
    have hcount := List.nodup_iff_count_le_one.1 (hrecords ▸ h.distinct slug) (some id)
    rwa [List.count, List.countP_map, List.countP_eq_length_filter] at hcount
  obtain ⟨found, hfound, hshown⟩ := select_unique (c := held)
    (q := ⟨slug, some (.compare "id" .equals (.str id)), locale⟩) (.sortedBy [])
    (List.forall₂_same.2 fun _ _ => rfl) hdecides hone
  obtain ⟨x, hx⟩ := List.length_eq_one_iff.1
    (Nat.le_antisymm hone (List.length_pos_of_mem hthere))
  rw [List.forall₂_eq_eq_eq, hx] at hshown
  rw [hx] at hthere
  rw [findOne_of_select hheld hfound, hshown, ← List.mem_singleton.1 hthere]
  rfl

end Store

end HeadlessCms
