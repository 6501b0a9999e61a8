import HeadlessCms.Config
import HeadlessCms.Document.History
import HeadlessCms.Proofs.Document.Snapshot
import HeadlessCms.Proofs.Except
import HeadlessCms.Proofs.Localization.Records

/-!
# The shape of stored records

The records of an entity have a certain shape, whatever has been saved: a document has an id that is
no timestamp and times that can be read back, a version belongs to such a document, and at localized
paths all values are stored by locale (`Record.IsDocument`, `Record.IsVersion`).  What is saved has
the shape (`Store.isDocument_stamp`, `Store.isVersion_stamp`), and so does what is read
(`Record.IsDocument.read`, `Record.IsVersion.read`).
-/

namespace HeadlessCms

open Time (Instant)

/-- What the shape of the records of an entity depends on. -/
structure Shape where
  locales : Option Locales
  /-- The paths of the localized fields. -/
  paths : List String
  timestamps : Bool

/-- The names under which records hold what the service and the store put there. -/
def Record.systemNames : List String :=
  Record.reservedNames ++ [Status.field]

/-- A localized path that no other localized path comes near, and no name of the system. -/
structure Shape.Localizes (shape : Shape) (path : String) : Prop where
  mem : path ∈ shape.paths
  lone : Path.Lone shape.paths path
  head : ∀ name ∈ (Path.segments path).head?, name ∉ Record.systemNames

variable {shape : Shape}

namespace Record

/-- A record all of whose values at localized paths are stored by locale. -/
def IsLocalized (shape : Shape) (record : Record) : Prop :=
  ∀ l ∈ shape.locales, ∀ path, shape.Localizes path → LocalizedAt l.names path record

/-- Each value of a field may come from one of two records. -/
theorem IsLocalized.merge {first second merged : Record} (hfirst : IsLocalized shape first)
    (hsecond : IsLocalized shape second)
    (h : ∀ name ∉ systemNames, Table.get? name merged = Table.get? name first ∨
      Table.get? name merged = Table.get? name second) : IsLocalized shape merged := by
  intro l hl path hpath v hv
  obtain ⟨head, rest, hsegments⟩ := List.exists_cons_of_ne_nil (Path.segments_ne_nil path)
  have hhead : head ∉ systemNames := hpath.head head (by rw [hsegments]; rfl)
  rw [hsegments] at hv
  rcases h head hhead with hget | hget
  · rw [Json.under_obj_congr hget, ← hsegments] at hv
    exact hfirst l hl path hpath v hv
  · rw [Json.under_obj_congr hget, ← hsegments] at hv
    exact hsecond l hl path hpath v hv

theorem IsLocalized.congr {record other : Record} (hrecord : IsLocalized shape record)
    (h : ∀ name ∉ systemNames, Table.get? name other = Table.get? name record) :
    IsLocalized shape other :=
  hrecord.merge hrecord fun name hname => Or.inl (h name hname)

/-- The names of the envelope are names of the system. -/
theorem notMem_envelope {name : String} (h : name ∉ systemNames) : name ∉ Document.envelope :=
  fun hmem => h (List.mem_append_left _ (List.mem_append_left _ hmem))

/-- The content of a document of the shape. -/
structure Tidy (shape : Shape) (data : Record) : Prop extends IsData data where
  localized : IsLocalized shape data

theorem Tidy.nil : Tidy shape [] where
  ascending := List.Pairwise.nil
  free _ _ := rfl
  localized _ _ path _ v hv := by
    obtain ⟨head, rest, hsegments⟩ := List.exists_cons_of_ne_nil (Path.segments_ne_nil path)
    rw [hsegments] at hv
    simp [Json.under_cons, Table.get?] at hv

/-- A record without the members of the envelope is tidy content. -/
theorem Tidy.stripEnvelope {record : Record} (hasc : Table.Ascending record)
    (h : IsLocalized shape record) : Tidy shape (Document.stripEnvelope record) where
  ascending := Document.ascending_stripEnvelope hasc
  free name hname := by rw [Document.get?_stripEnvelope, if_pos hname]
  localized := h.congr fun name hname => by
    rw [Document.get?_stripEnvelope, if_neg (notMem_envelope hname)]

end Record

/-- A document of the shape. -/
structure Document.Tidy (shape : Shape) (d : Document) : Prop where
  data : Record.Tidy shape d.data
  plain : Time.readStrict? d.id = none
  createdAt : ∀ t ∈ d.createdAt, t.Regular
  updatedAt : ∀ t ∈ d.updatedAt, t.Regular ∧ shape.timestamps = true

namespace Record

/-- A stored document of the shape. -/
structure IsDocument (shape : Shape) (record : Record) : Prop where
  ascending : Table.Ascending record
  id : ∃ id, Table.get? "id" record = some (.str id) ∧ Time.readStrict? id = none
  createdAt : ∃ time : Option Instant, Table.get? "createdAt" record = time.map .ofInstant ∧
    ∀ t ∈ time, t.Regular
  updatedAt : ∃ time : Option Instant, Table.get? "updatedAt" record = time.map .ofInstant ∧
    ∀ t ∈ time, t.Regular ∧ shape.timestamps = true
  localized : IsLocalized shape record

/-- The snapshot in a version of the shape. -/
structure IsSnapshot (shape : Shape) (updatedAt : Option Json) (snapshot : Record) : Prop where
  ascending : Table.Ascending snapshot
  id : Table.get? "id" snapshot = none
  localized : IsLocalized shape snapshot
  updatedAt : shape.timestamps = true → Table.get? "updatedAt" snapshot = updatedAt

/-- A stored version of the shape. -/
structure IsVersion (shape : Shape) (record : Record) : Prop where
  parent : ∃ id, Table.get? "parent" record = some (.str id) ∧ Time.readStrict? id = none
  updatedAt : ∃ t : Instant, Table.get? "updatedAt" record = some (.ofInstant t) ∧ t.Regular
  snapshot : ∃ snapshot, Table.get? "version" record = some (.obj snapshot) ∧
    IsSnapshot shape (Table.get? "updatedAt" record) snapshot

end Record

/-! ### What is saved -/

namespace Document

variable {d : Document}

/-- The record of a tidy document is localized. -/
theorem Tidy.isLocalized_toRecord (h : d.Tidy shape) : Record.IsLocalized shape d.toRecord :=
  h.data.localized.congr fun _ hname =>
    get?_toRecord_of_notMem_envelope h.data.toIsData (Record.notMem_envelope hname)

end Document

namespace Store

/-- **A tidy document is stored in shape,** also under another id. -/
theorem isDocument_stamp {d : Document} (h : d.Tidy shape) {id : String}
    (hid : Time.readStrict? id = none) (sequence revision : Nat) {record : Record}
    (hrecord : Table.Ascending record)
    (hget : ∀ key, key ≠ "id" → Table.get? key record = Table.get? key d.toRecord) :
    Record.IsDocument shape (stamp id sequence revision record) where
  ascending := ascending_stamp hrecord
  id := ⟨id, get?_stamp (by decide), hid⟩
  createdAt := ⟨d.createdAt, by
    rw [get?_stamp (by decide), if_neg (by decide), hget _ (by decide),
      Document.get?_createdAt_toRecord h.data.isBare],
    h.createdAt⟩
  updatedAt := ⟨d.updatedAt, by
    rw [get?_stamp (by decide), if_neg (by decide), hget _ (by decide),
      Document.get?_updatedAt_toRecord h.data.isBare],
    h.updatedAt⟩
  localized := by
    refine h.isLocalized_toRecord.congr fun name hname => ?_
    have hid : name ≠ "id" := by
      rintro rfl
      exact hname (by decide)
    have hsequence : name ≠ "_seq" := by
      rintro rfl
      exact hname (by decide)
    have hrevision : name ≠ "__v" := by
      rintro rfl
      exact hname (by decide)
    rw [get?_stamp ⟨hsequence, hrevision⟩, if_neg hid, hget name hid]

/-- **A version of a tidy document is stored in shape,** if it carries the time of the document. -/
theorem isVersion_stamp {d : Document} (h : d.Tidy shape) {time : Instant} (htime : time.Regular)
    (hupdated : shape.timestamps = true → d.updatedAt = some time) (status : Status) (id : String)
    (sequence revision : Nat) :
    Record.IsVersion shape (stamp id sequence revision
      (History.newRecord .collection (some d.id) d.toRecord status time)) where
  parent := ⟨d.id, by rw [get?_stamp (by decide), if_neg (by decide)]; rfl, h.plain⟩
  updatedAt := ⟨time, by rw [get?_stamp (by decide), if_neg (by decide)]; rfl, htime⟩
  snapshot := by
    refine ⟨History.snapshot d.toRecord status, ?_, ?_⟩
    · rw [get?_stamp (by decide), if_neg (by decide)]
      rfl
    · refine ⟨Snapshot.ascending_snapshot d.ascending_toRecord status, ?_, ?_, fun htimestamps => ?_⟩
      · rw [Snapshot.get?_snapshot, if_neg (by decide), if_pos rfl]
      · refine h.isLocalized_toRecord.congr fun name hname => ?_
        have hid : name ≠ "id" := by
          rintro rfl
          exact hname (by decide)
        have hstatus : name ≠ Status.field := by
          rintro rfl
          exact hname (by decide)
        rw [Snapshot.get?_snapshot, if_neg hstatus, if_neg hid]
      · rw [Snapshot.get?_snapshot, if_neg (by decide), if_neg (by decide),
          Document.get?_updatedAt_toRecord h.data.isBare, hupdated htimestamps,
          get?_stamp (by decide), if_neg (by decide)]
        rfl

end Store

/-! ### What is read -/

/-- A proper time is read as itself. -/
theorem Json.eq_of_readInstant {t u : Instant} (h : t.Regular)
    (hread : Json.readInstant (.ofInstant t) = .ok u) : u = t := by
  rw [Json.ofInstant, Json.readInstant, Except.mapError_eq_ok_iff] at hread
  exact Time.eq_of_readRelaxed_write h hread

/-- A member with a proper time is read as that time. -/
theorem Typed.eq_of_nullable_instant {name : String} {record : Record} {time found : Option Instant}
    (hget : Table.get? name record = time.map .ofInstant) (h : ∀ t ∈ time, t.Regular)
    (hread : Typed.nullable name Json.readInstant record = .ok found) : found = time := by
  unfold Typed.nullable at hread
  rw [hget] at hread
  cases time with
  | none => exact (Except.ok.inj hread).symm
  | some t =>
    obtain ⟨u, hu, rfl⟩ := Except.map_eq_ok_iff.1 hread
    rw [Json.eq_of_readInstant (h t rfl) hu]

/-- A proper time under a name of a record is read as itself. -/
theorem Typed.eq_of_optional_instant {name : String} {record : Record} {t : Instant}
    {found : Option Instant} (hget : Table.get? name record = some (.ofInstant t)) (h : t.Regular)
    (hread : Typed.optional name Json.readInstant record = .ok found) : found = some t := by
  unfold Typed.optional at hread
  rw [hget] at hread
  obtain ⟨u, hu, rfl⟩ := Except.map_eq_ok_iff.1 hread
  rw [Json.eq_of_readInstant h hu]

namespace Record

/-- What the record says about a document that has been read from it. -/
structure Shows (record : Record) (d : Document) : Prop where
  id : Table.get? "id" record = some (.str d.id)
  createdAt : Table.get? "createdAt" record = d.createdAt.map .ofInstant
  updatedAt : Table.get? "updatedAt" record = d.updatedAt.map .ofInstant
  data : d.data = Document.stripEnvelope (sanitize record)

/-- **A document in shape is read as it is stored.** -/
theorem IsDocument.read {record : Record} (h : IsDocument shape record) {d : Document}
    (hread : Document.ofRecord (sanitize record) = .ok d) : d.Tidy shape ∧ Shows record d := by
  have hkept : ∀ {key : String}, key ≠ "_seq" ∧ key ≠ "__v" →
      Table.get? key (sanitize record) = Table.get? key record := fun hkey => by
    rw [get?_sanitize, if_neg (not_or.2 hkey)]
  obtain ⟨createdAt, hcreated, hplainCreated⟩ := h.createdAt
  obtain ⟨updatedAt, hupdated, hplainUpdated⟩ := h.updatedAt
  obtain ⟨id, hid, hplain⟩ := h.id
  obtain ⟨foundId, foundCreated, foundUpdated, data⟩ := d
  obtain ⟨hreadCreated, hreadId, hreadUpdated, hdata⟩ := Document.ofRecord_eq_ok_iff.1 hread
  dsimp only at hreadCreated hreadId hreadUpdated hdata
  rw [hkept (by decide), hid] at hreadId
  cases hreadId
  have hfoundCreated := Typed.eq_of_nullable_instant ((hkept (by decide)).trans hcreated)
    hplainCreated hreadCreated
  have hfoundUpdated := Typed.eq_of_nullable_instant ((hkept (by decide)).trans hupdated)
    (fun t ht => (hplainUpdated t ht).1) hreadUpdated
  subst hfoundCreated hfoundUpdated hdata
  have hlocalized : IsLocalized shape (sanitize record) := h.localized.congr fun name hname => by
    refine hkept ⟨?_, ?_⟩ <;> rintro rfl <;> exact hname (by decide)
  exact ⟨⟨.stripEnvelope (ascending_sanitize h.ascending) hlocalized, hplain, hplainCreated,
    hplainUpdated⟩, hid, hcreated, hupdated, rfl⟩

end Record

/-- The time of the last change is read back. -/
theorem Document.updatedAt_of_ofRecord {record : Record} {time : Option Instant}
    (hget : Table.get? "updatedAt" record = time.map .ofInstant)
    (h : ∀ t ∈ time, t.Regular) {d : Document}
    (hread : Document.ofRecord record = .ok d) : d.updatedAt = time := by
  obtain ⟨-, -, hupdated, -⟩ := Document.ofRecord_eq_ok_iff.1 hread
  exact Typed.eq_of_nullable_instant hget h hupdated

/-- A document without what the store keeps for itself. -/
def Document.sanitized (d : Document) : Document :=
  { d with data := Record.sanitize d.data }

/-- **A document is read back as it has been written,** without what the store keeps for itself. -/
theorem Document.eq_of_read_stamp {d saved : Document} (hdata : Record.IsData d.data)
    (hcreated : ∀ t ∈ d.createdAt, t.Regular) (hupdated : ∀ t ∈ d.updatedAt, t.Regular)
    {sequence revision : Nat}
    (hread : ofRecord (Record.sanitize (Store.stamp d.id sequence revision d.toRecord)) =
      .ok saved) : saved = d.sanitized := by
  have hshown {name : String} (hnumbers : ¬(name = "_seq" ∨ name = "__v")) (hid : name ≠ "id") :
      Table.get? name (Record.sanitize (Store.stamp d.id sequence revision d.toRecord)) =
        Table.get? name d.toRecord := by
    rw [Store.get?_sanitize_stamp, if_neg hnumbers, if_neg hid]
  obtain ⟨foundId, foundCreated, foundUpdated, data⟩ := saved
  obtain ⟨hreadCreated, hreadId, hreadUpdated, hreadData⟩ := ofRecord_eq_ok_iff.1 hread
  dsimp only at hreadCreated hreadId hreadUpdated hreadData
  rw [Store.get?_sanitize_stamp, if_neg (by decide), if_pos rfl] at hreadId
  cases hreadId
  rw [Typed.eq_of_nullable_instant ((hshown (by decide) (by decide)).trans
      (get?_createdAt_toRecord hdata.isBare)) hcreated hreadCreated,
    Typed.eq_of_nullable_instant ((hshown (by decide) (by decide)).trans
      (get?_updatedAt_toRecord hdata.isBare)) hupdated hreadUpdated, ← hreadData]
  refine congrArg (Document.mk d.id d.createdAt d.updatedAt) ?_
  refine Table.ext (ascending_stripEnvelope (Record.ascending_sanitize
    (Store.ascending_stamp d.ascending_toRecord))) (Record.ascending_sanitize hdata.ascending)
    fun key => ?_
  rw [get?_stripEnvelope, Record.get?_sanitize key d.data]
  split
  · next hmem =>
    rw [hdata.isBare key hmem, ite_self]
  · next hmem =>
    have hid : key ≠ "id" := fun heq => hmem (heq ▸ by decide)
    rw [Store.get?_sanitize_stamp, if_neg hid, get?_toRecord_of_notMem_envelope hdata hmem]

/-- **A document that has been stored is read back in shape,** with the time of its last change. -/
theorem Store.read_stamp {d saved : Document} (h : d.Tidy shape) {id : String}
    (hid : Time.readStrict? id = none) {sequence revision : Nat} {record : Record}
    (hrecord : Table.Ascending record)
    (hget : ∀ key, key ≠ "id" → Table.get? key record = Table.get? key d.toRecord)
    (hread : Document.ofRecord (Record.sanitize (stamp id sequence revision record)) = .ok saved) :
    saved.Tidy shape ∧ saved.updatedAt = d.updatedAt := by
  have hstored := isDocument_stamp h hid sequence revision hrecord hget
  refine ⟨(hstored.read hread).1, Document.updatedAt_of_ofRecord ?_ ?_ hread⟩
  · rw [get?_sanitize_stamp, if_neg (by decide), if_neg (by decide), hget _ (by decide),
      Document.get?_updatedAt_toRecord h.data.isBare]
  · exact fun t ht => (h.updatedAt t ht).1

namespace Record

/-- What the record says about a version that has been read from it. -/
structure ShowsVersion (shape : Shape) (record : Record) (v : Version) : Prop where
  parent : ∃ id, v.parent = some id ∧ Table.get? "parent" record = some (.str id) ∧
    Time.readStrict? id = none
  snapshot : Table.get? "version" record = some (.obj v.version)
  shaped : IsSnapshot shape (some (.ofInstant v.updatedAt)) v.version

/-- **A version in shape is read as it is stored.** -/
theorem IsVersion.read {record : Record} (h : IsVersion shape record) {v : Version}
    (hread : Version.ofRecord (sanitize record) = .ok v) : ShowsVersion shape record v := by
  have hkept : ∀ {key : String}, key ≠ "_seq" ∧ key ≠ "__v" →
      Table.get? key (sanitize record) = Table.get? key record := fun hkey => by
    rw [get?_sanitize, if_neg (not_or.2 hkey)]
  obtain ⟨id, hid, hplain⟩ := h.parent
  obtain ⟨t, hupdated, hregular⟩ := h.updatedAt
  obtain ⟨snapshot, hsnapshot, hshaped⟩ := h.snapshot
  obtain ⟨-, -, hreadParent, hreadUpdated, hreadVersion⟩ := Version.ofRecord_eq_ok_iff.1 hread
  have htime : v.updatedAt = t := Option.some.inj
    (Typed.eq_of_optional_instant ((hkept (by decide)).trans hupdated) hregular hreadUpdated)
  have hparent : v.parent = some id := by
    unfold Typed.nullable at hreadParent
    rw [hkept (by decide), hid] at hreadParent
    exact (Except.ok.inj hreadParent).symm
  rw [hkept (by decide)] at hreadVersion
  obtain rfl : snapshot = v.version :=
    Json.obj.inj (Option.some.inj (hsnapshot.symm.trans hreadVersion))
  refine ⟨⟨id, hparent, hid, hplain⟩, hsnapshot, ?_⟩
  rw [htime, ← hupdated]
  exact hshaped

/-- The content of a version in shape is tidy. -/
theorem ShowsVersion.tidy {record : Record} {v : Version} (h : ShowsVersion shape record v) :
    Tidy shape (Document.stripEnvelope v.version) :=
  .stripEnvelope h.shaped.ascending h.shaped.localized

end Record

end HeadlessCms
