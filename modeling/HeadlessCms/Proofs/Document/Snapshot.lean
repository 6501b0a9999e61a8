import HeadlessCms.Document.History
import HeadlessCms.Proofs.Document.RecordForm
import HeadlessCms.Proofs.Query.Matching

/-!
# What the history keeps of a save

A snapshot is a document as it reads after a save, together with the state and the time of the save.
It is kept as a version (`Snapshot.toVersion`), and the content of the document is read back from
that (`Snapshot.overlay_toVersion`).  The clauses by which the service finds a document, the versions
of a document and its newer drafts are decided on the records of documents and snapshots
(`Document.holds_id`, `Snapshot.holds_parent`, `Snapshot.holds_newerThan`).
-/

namespace HeadlessCms

open Time (Instant)

/-- A look-up does not see what the store keeps for itself. -/
theorem Record.get?_of_sanitize {key : String} {record shown : Record}
    (h : Record.sanitize record = shown) (hkey : key ≠ "_seq" ∧ key ≠ "__v") :
    Table.get? key record = Table.get? key shown := by
  rw [← h, Record.get?_sanitize, if_neg (not_or.2 hkey)]

/-! ### Documents -/

namespace Document

variable {d : Document} {record : Record}

/-- The record of a document has its id at the path of the id. -/
theorem resolve_id (h : Record.sanitize record = d.toRecord) (hd : Record.IsContent d.data) :
    Record.resolve record "id" = [.str d.id] := by
  have hpath : Path.segments "id" = ["id"] := rfl
  rw [Record.resolve_name hpath, Record.get?_of_sanitize h (by decide), get?_id_toRecord hd.isData.isBare]
  rfl

/-- The id of the document is the id of its record. -/
theorem id?_of_sanitize (h : Record.sanitize record = d.toRecord) (hd : Record.IsContent d.data) :
    Record.id? record = some d.id := by
  rw [Record.id?, Record.get?_of_sanitize h (by decide), get?_id_toRecord hd.isData.isBare]
  rfl

/-- **The clause on the id selects the document with that id.** -/
theorem holds_id [PatternEngine]
    (h : Record.sanitize record = d.toRecord) (hd : Record.IsContent d.data)
    (hplain : Time.readStrict? d.id = none) (id : String) :
    (Predicate.compare "id" .equals (.str id)).holds record = .ok (d.id == id) :=
  Predicate.holds_equals_text (resolve_id h hd) hplain

end Document

/-- The members of a new version stand in order. -/
theorem History.ascending_newRecord (kind : EntityKind) (parent : Option String) (data : Record)
    (status : Status) (time : Instant) :
    Table.Ascending (newRecord kind parent data status time) := by
  refine Table.ascending_of_keys ["createdAt", "parent", "updatedAt", "version"] ?_ (by decide)
  cases kind <;> cases parent <;>
    simp only [newRecord, Table.keys, List.nil_append, List.cons_append, List.map_cons,
      List.map_nil] <;>
    decide

/-- A new version has no id of its own. -/
theorem History.id?_newRecord (kind : EntityKind) (parent : Option String) (data : Record)
    (status : Status) (time : Instant) :
    Record.id? (newRecord kind parent data status time) = none := by
  cases kind <;> cases parent <;> rfl

/-! ### Snapshots -/

/-- A save as the history keeps it. -/
structure Snapshot where
  /-- The id of the version. -/
  id : String
  /-- The document as it reads after the save. -/
  doc : Document
  status : Status
  time : Instant

namespace Snapshot

/-- The version that is stored for a save. -/
def toVersion (x : Snapshot) : Version where
  id := x.id
  parent := some x.doc.id
  version := History.snapshot x.doc.toRecord x.status
  createdAt := x.time
  updatedAt := x.time

/-- A snapshot from whose version the save can be read back. -/
structure Sound (x : Snapshot) : Prop where
  content : Record.IsContent x.doc.data
  tagged : Table.get? Status.field x.doc.data = some (.str x.status.name)
  printable : x.time.Printable
  plain : Time.readStrict? x.doc.id = none
  plainId : Time.readStrict? x.id = none

variable {x : Snapshot}

/-- The version of a sound snapshot can be stored. -/
theorem Sound.storable (h : x.Sound) : x.toVersion.Storable :=
  ⟨h.printable, h.printable⟩

/-- The content of a snapshot is in order. -/
theorem ascending_snapshot {data : Record} (h : Table.Ascending data) (status : Status) :
    Table.Ascending (History.snapshot data status) :=
  Table.ascending_insert (Table.ascending_erase h)

/-- A snapshot has the members of the data, without the id and with its own status. -/
theorem get?_snapshot (key : String) (data : Record) (status : Status) :
    Table.get? key (History.snapshot data status) =
      if key = Status.field then some (.str status.name)
      else if key = "id" then none
      else Table.get? key data := by
  simp only [History.snapshot, Table.get?_insert, Table.get?_erase]

/-- The record of a new version shows the version once the store has stamped it. -/
theorem sanitize_stamp_newRecord (x : Snapshot) (sequence revision : Nat) :
    Record.sanitize (Store.stamp x.id sequence revision
      (History.newRecord .collection (some x.doc.id) x.doc.toRecord x.status x.time)) =
        x.toVersion.toRecord := by
  refine Store.sanitize_stamp_version x.toVersion sequence revision
    (History.ascending_newRecord _ _ _ _ _) fun key hkey => ?_
  simp only [History.newRecord, Version.get?_toRecord, toVersion, List.cons_append,
    List.nil_append, Table.get?, Option.map_some]
  grind

/-- **The content of a document is read back from its snapshot.** -/
theorem stripEnvelope_toVersion (h : x.Sound) :
    Document.stripEnvelope x.toVersion.version = x.doc.data := by
  have hasc := ascending_snapshot x.doc.ascending_toRecord x.status
  refine Table.ext (Document.ascending_stripEnvelope hasc) h.content.ascending fun key => ?_
  have hread : Table.get? key (Document.stripEnvelope x.doc.toRecord) = Table.get? key x.doc.data :=
    congrArg (Table.get? key) (Document.stripEnvelope_toRecord h.content.isData)
  rw [Document.get?_stripEnvelope] at hread ⊢
  by_cases henv : key ∈ Document.envelope
  · rw [if_pos henv] at hread ⊢
    exact hread
  · rw [if_neg henv] at hread ⊢
    rw [toVersion, get?_snapshot]
    split
    · next hstatus => rw [hstatus, h.tagged]
    · next =>
      rw [if_neg fun hid : key = "id" => henv (by rw [hid]; decide)]
      exact hread

/-- A document under its newest draft. -/
theorem overlay_toVersion (h : x.Sound) (d : Document) :
    Draft.overlay d x.toVersion = ⟨d.id, some x.time, some x.time, x.doc.data⟩ := by
  simp only [Draft.overlay, stripEnvelope_toVersion h]
  rfl

/-- The version of a save is read from what the store shows of its record. -/
theorem ofRecord_sanitize (h : x.Sound) {record : Record}
    (hr : Record.sanitize record = x.toVersion.toRecord) :
    Version.ofRecord (Record.sanitize record) = .ok x.toVersion := by
  rw [hr, Version.ofRecord_toRecord h.storable]

variable {record : Record}

/-- The record of a snapshot has the id of the version. -/
theorem resolve_id (h : Record.sanitize record = x.toVersion.toRecord) :
    Record.resolve record "id" = [.str x.id] := by
  rw [Record.resolve_name rfl, Record.get?_of_sanitize h (by decide), Version.get?_toRecord]
  rfl

/-- The record of a snapshot names the document for its parent. -/
theorem resolve_parent (h : Record.sanitize record = x.toVersion.toRecord) :
    Record.resolve record "parent" = [.str x.doc.id] := by
  rw [Record.resolve_name rfl, Record.get?_of_sanitize h (by decide), Version.get?_toRecord]
  rfl

/-- The record of a snapshot tells the time of the save. -/
theorem resolve_updatedAt (h : Record.sanitize record = x.toVersion.toRecord) :
    Record.resolve record "updatedAt" = [.ofInstant x.time] := by
  rw [Record.resolve_name rfl, Record.get?_of_sanitize h (by decide), Version.get?_toRecord]
  rfl

/-- The record of a snapshot tells its status. -/
theorem resolve_status (h : Record.sanitize record = x.toVersion.toRecord) :
    Record.resolve record "version._status" = [.str x.status.name] := by
  have hobj : Table.get? "version" record = some (.obj x.toVersion.version) := by
    rw [Record.get?_of_sanitize h (by decide), Version.get?_toRecord]
    rfl
  have hpath : Path.segments "version._status" = ["version", Status.field] := by decide
  rw [Record.resolve_member hpath hobj, toVersion, get?_snapshot, if_pos rfl]
  rfl

/-- The clause on the parent selects the versions of a document. -/
theorem holds_parent [PatternEngine]
    (hr : Record.sanitize record = x.toVersion.toRecord) (h : x.Sound)
    (id : String) :
    (Predicate.compare "parent" .equals (.str id)).holds record = .ok (x.doc.id == id) :=
  Predicate.holds_equals_text (resolve_parent hr) h.plain

/-- Whether a save is a draft of a document that came later than a time. -/
def isDraftAfter (id : String) (t : Instant) (x : Snapshot) : Bool :=
  x.doc.id == id && (x.status == .draft && t.isBefore x.time)

/-- The name of a status is no timestamp. -/
theorem readStrict?_name (s : Status) : Time.readStrict? s.name = none := by
  cases s <;> rfl

/-- The status of a draft is known by its name. -/
theorem name_beq (s : Status) : (s.name == Status.draft.name) = (s == .draft) := by
  cases s <;> rfl

/-- **The clause for drafts selects the later drafts of a document.** -/
theorem holds_newerThan [PatternEngine]
    (hr : Record.sanitize record = x.toVersion.toRecord) (h : x.Sound)
    (id : String) {t : Instant} (ht : t.Printable) :
    (Draft.newerThan .collection id t).holds record = .ok (x.isDraftAfter id t) := by
  have hstatus : (Predicate.compare "version._status" .equals (.str Status.draft.name)).holds record
      = .ok (x.status == .draft) := by
    rw [Predicate.holds_equals_text (resolve_status hr) (readStrict?_name _), name_beq]
  have hlater := Predicate.holds_later (resolve_updatedAt hr)
    (Time.readStrict?_write h.printable) ht
  have hfield : "version." ++ Status.field = "version._status" := rfl
  simp only [Draft.newerThan, if_true, List.singleton_append, Predicate.holds_and, hfield,
    Predicate.allHold_cons_of_ok (holds_parent hr h id), Predicate.allHold_cons_of_ok hstatus,
    Predicate.allHold_cons_of_ok hlater, Predicate.allHold_nil, isDraftAfter]
  cases x.doc.id == id <;> cases x.status == .draft <;> cases t.isBefore x.time <;> rfl

end Snapshot

end HeadlessCms
