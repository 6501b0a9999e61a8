import HeadlessCms.Document.Version
import HeadlessCms.Proofs.Except
import HeadlessCms.Proofs.Table
import HeadlessCms.Proofs.Time.Storable
import HeadlessCms.Store.Basic

/-!
# Documents and versions as records

The store keeps records, the service works with documents and versions.  What a record must be like
to be read as one of them is said once (`Document.ofRecord_eq_ok_iff`, `Version.ofRecord_eq_ok_iff`).
Both are read back from their records (`Document.ofRecord_toRecord`, `Version.ofRecord_toRecord`), and
what the store adds to a record it keeps is gone once the record is shown
(`Store.sanitize_stamp_document`, `Store.sanitize_stamp_version`).  The data of a document must be
content: a table that leaves alone the names which records use for other things.
-/

namespace HeadlessCms

open Time (Instant)

/-- The names under which stored records hold something other than the values of fields. -/
def Record.reservedNames : List String :=
  Document.envelope ++ [Record.sequenceField, Record.revisionField]

/-- Data without members of the envelope. -/
def Record.IsBare (data : Record) : Prop :=
  ∀ name ∈ Document.envelope, Table.get? name data = none

/-- The data of a document: a table without the names of the envelope. -/
structure Record.IsData (data : Record) : Prop where
  ascending : Table.Ascending data
  free : ∀ name ∈ Document.envelope, Table.get? name data = none

/-- Data of documents have no member of the envelope. -/
theorem Record.IsData.isBare {data : Record} (h : IsData data) : IsBare data :=
  h.free

/-- Data stays data if names are taken away. -/
theorem Record.IsData.of_keys {data other : Record} (h : IsData data)
    (hkeys : (Table.keys other).Sublist (Table.keys data)) : IsData other where
  ascending := Table.ascending_of_keys (Table.keys data) hkeys (List.pairwise_map.2 h.ascending)
  free name hname := by
    rw [Table.get?_eq_none_iff]
    exact fun hmem => Table.get?_eq_none_iff.1 (h.free name hname) (hkeys.subset hmem)

/-- Values of fields: a table without reserved names. -/
structure Record.IsContent (data : Record) : Prop where
  ascending : Table.Ascending data
  free : ∀ name ∈ Record.reservedNames, Table.get? name data = none

namespace Record.IsContent

variable {data : Record}

theorem nil : IsContent [] :=
  ⟨List.Pairwise.nil, fun _ _ => rfl⟩

/-- Content of documents is data. -/
theorem isData (h : IsContent data) : IsData data :=
  ⟨h.ascending, fun name hname => h.free name (List.mem_append_left _ hname)⟩

end Record.IsContent

/-! ### Reading members -/

/-- What is read from an optional member that is there. -/
theorem Typed.optional_eq_ok_some_iff {α : Type} {name : String} {read : Json → Typed α}
    {record : Record} {a : α} : optional name read record = .ok (some a) ↔
      ∃ v, Table.get? name record = some v ∧ read v = .ok a := by
  unfold optional
  cases Table.get? name record with
  | none => simp
  | some v => simp [Except.map_eq_ok_iff]

/-- A text is read from that text alone. -/
theorem Json.readString_eq_ok_iff {v : Json} {s : String} : v.readString = .ok s ↔ v = .str s := by
  cases v <;> simp [readString]

/-- A record is read from an object with the same members. -/
theorem Json.readRecord_eq_ok_iff {v : Json} {members : Record} :
    v.readRecord = .ok members ↔ v = .obj members := by
  cases v <;> simp [readRecord]

/-- A text is read from an optional member exactly if it is the member. -/
theorem Typed.optional_readString_eq_ok_iff {name : String} {record : Record} {s : String} :
    Typed.optional name Json.readString record = .ok (some s) ↔
      Table.get? name record = some (.str s) := by
  simp only [optional_eq_ok_some_iff, Json.readString_eq_ok_iff, exists_eq_right]

/-- A text is read back from a member that may be absent. -/
theorem Typed.nullable_string {name : String} {record : Record} {o : Option String}
    (hget : Table.get? name record = o.map .str) :
    Typed.nullable name Json.readString record = .ok o := by
  rw [nullable, hget]
  cases o <;> rfl

/-- A record is found under a name exactly if an object with its members stands there. -/
theorem Typed.optional_readRecord_eq_ok_iff {name : String} {record members : Record} :
    Typed.optional name Json.readRecord record = .ok (some members) ↔
      Table.get? name record = some (.obj members) := by
  simp only [optional_eq_ok_some_iff, Json.readRecord_eq_ok_iff, exists_eq_right]

/-- A time that can be stored is read from its timestamp. -/
theorem Json.readInstant_ofInstant {t : Instant} (h : t.Storable) :
    Json.readInstant (.ofInstant t) = .ok t := by
  simp [Json.readInstant, Json.ofInstant, h.readRelaxed_write]

/-! ### Documents -/

namespace Document

/-- Without the envelope a record has all its other members. -/
theorem get?_stripEnvelope (key : String) (data : Record) :
    Table.get? key (stripEnvelope data) =
      if key ∈ envelope then none else Table.get? key data := by
  simp only [stripEnvelope, Table.get?_erase, envelope, List.mem_cons, List.not_mem_nil, or_false]
  grind

/-- Leaving out the envelope keeps the order of members. -/
theorem ascending_stripEnvelope {data : Record} (h : Table.Ascending data) :
    Table.Ascending (stripEnvelope data) :=
  Table.ascending_erase (Table.ascending_erase (Table.ascending_erase h))

/-- The members of a record that do not hold values of fields. -/
def envelopeMembers (d : Document) : Record :=
  timeMember "createdAt" d.createdAt ++ [("id", .str d.id)] ++ timeMember "updatedAt" d.updatedAt

/-- The members of the envelope are in order. -/
theorem ascending_envelopeMembers (d : Document) : Table.Ascending d.envelopeMembers := by
  refine Table.ascending_of_keys ["createdAt", "id", "updatedAt"] ?_ (by decide)
  unfold envelopeMembers Table.keys
  cases d.createdAt <;> cases d.updatedAt <;>
    simp only [timeMember, List.nil_append, List.cons_append, List.map_cons, List.map_nil] <;>
    decide

/-- The record of a document is in order. -/
theorem ascending_toRecord (d : Document) : Table.Ascending d.toRecord :=
  Table.ascending_insertAll (ascending_envelopeMembers d)

/-- The envelope tells the id, and the times that the document has. -/
theorem get?_envelopeMembers (key : String) (d : Document) :
    Table.get? key d.envelopeMembers =
      if key = "createdAt" then d.createdAt.map .ofInstant
      else if key = "id" then some (.str d.id)
      else if key = "updatedAt" then d.updatedAt.map .ofInstant
      else none := by
  unfold envelopeMembers
  cases d.createdAt <;> cases d.updatedAt <;> simp [timeMember, Table.get?] <;> grind

/-- The envelope has no other members. -/
theorem get?_envelopeMembers_of_notMem {d : Document} {key : String} (h : key ∉ envelope) :
    Table.get? key d.envelopeMembers = none := by
  rw [get?_envelopeMembers]
  simp only [envelope, List.mem_cons, List.not_mem_nil, or_false, not_or] at h
  simp [h]

/-- The record of a document has the members of its data and of its envelope. -/
theorem get?_toRecord {d : Document} (h : Record.IsData d.data) (key : String) :
    Table.get? key d.toRecord = (Table.get? key d.data).or (Table.get? key d.envelopeMembers) :=
  Table.get?_insertAll h.ascending key d.envelopeMembers

/-- Under the names of the envelope the record tells what the envelope does. -/
theorem get?_toRecord_of_mem_envelope {d : Document} (h : Record.IsBare d.data) {key : String}
    (hkey : key ∈ envelope) : Table.get? key d.toRecord = Table.get? key d.envelopeMembers :=
  Table.get?_insertAll_of_notMem (Table.get?_eq_none_iff.1 (h key hkey)) _

/-- Under all other names it tells what the data do. -/
theorem get?_toRecord_of_notMem_envelope {d : Document} (h : Record.IsData d.data) {key : String}
    (hkey : key ∉ envelope) : Table.get? key d.toRecord = Table.get? key d.data := by
  rw [get?_toRecord h, get?_envelopeMembers_of_notMem hkey, Option.or_none]

/-- The record tells when the document was created. -/
theorem get?_createdAt_toRecord {d : Document} (h : Record.IsBare d.data) :
    Table.get? "createdAt" d.toRecord = d.createdAt.map .ofInstant := by
  rw [get?_toRecord_of_mem_envelope h (by decide), get?_envelopeMembers]
  rfl

/-- The record tells when the document was saved last. -/
theorem get?_updatedAt_toRecord {d : Document} (h : Record.IsBare d.data) :
    Table.get? "updatedAt" d.toRecord = d.updatedAt.map .ofInstant := by
  rw [get?_toRecord_of_mem_envelope h (by decide), get?_envelopeMembers]
  rfl

/-- The record tells the id of the document. -/
theorem get?_id_toRecord {d : Document} (h : Record.IsBare d.data) :
    Table.get? "id" d.toRecord = some (.str d.id) := by
  rw [get?_toRecord_of_mem_envelope h (by decide), get?_envelopeMembers]
  rfl

/-- The data are what remains of the record without the envelope. -/
theorem stripEnvelope_toRecord {d : Document} (h : Record.IsData d.data) :
    stripEnvelope d.toRecord = d.data := by
  refine Table.ext (ascending_stripEnvelope d.ascending_toRecord) h.ascending fun key => ?_
  rw [get?_stripEnvelope]
  split
  · next hmem => exact (h.free key hmem).symm
  · next hmem => exact get?_toRecord_of_notMem_envelope h hmem

/-- What a record must be like to be read as a given document. -/
theorem ofRecord_eq_ok_iff {record : Record} {d : Document} :
    ofRecord record = .ok d ↔
      Typed.nullable "createdAt" Json.readInstant record = .ok d.createdAt ∧
        Table.get? "id" record = some (.str d.id) ∧
        Typed.nullable "updatedAt" Json.readInstant record = .ok d.updatedAt ∧
        stripEnvelope record = d.data := by
  constructor
  · intro h
    obtain ⟨createdAt, hcreated, h⟩ := Except.bind_eq_ok_iff.1 h
    obtain ⟨id, hid, h⟩ := Except.bind_eq_ok_iff.1 h
    obtain ⟨updatedAt, hupdated, h⟩ := Except.bind_eq_ok_iff.1 h
    cases id with
    | none => cases h
    | some id =>
      cases h
      exact ⟨hcreated, Typed.optional_readString_eq_ok_iff.1 hid, hupdated, rfl⟩
  · rintro ⟨hcreated, hid, hupdated, hdata⟩
    rw [ofRecord, hcreated, Typed.optional_readString_eq_ok_iff.2 hid, hupdated, hdata]
    rfl

/-- A printed time is read back from a member that may be absent. -/
theorem nullable_ofInstant {name : String} {record : Record} {time : Option Instant}
    (hget : Table.get? name record = time.map .ofInstant) (h : ∀ t ∈ time, t.Storable) :
    Typed.nullable name Json.readInstant record = .ok time := by
  cases time with
  | none => simp [Typed.nullable, hget]
  | some t =>
    have hread := Json.readInstant_ofInstant (h t rfl)
    simp only [Option.map_some, Json.ofInstant] at hget hread
    simp [Typed.nullable, hget, hread, Except.map]

/-- **Documents are read back from their records,** if their times can be stored. -/
theorem ofRecord_toRecord_of_times {d : Document} (h : Record.IsData d.data)
    (hcreated : ∀ t ∈ d.createdAt, t.Storable) (hupdated : ∀ t ∈ d.updatedAt, t.Storable) :
    ofRecord d.toRecord = .ok d :=
  ofRecord_eq_ok_iff.2 ⟨nullable_ofInstant (get?_createdAt_toRecord h.isBare) hcreated,
    get?_id_toRecord h.isBare, nullable_ofInstant (get?_updatedAt_toRecord h.isBare) hupdated,
    stripEnvelope_toRecord h⟩

/-- A document whose record says everything about it. -/
structure Storable (d : Document) : Prop where
  content : Record.IsContent d.data
  createdAt : ∀ t ∈ d.createdAt, t.Printable
  updatedAt : ∀ t ∈ d.updatedAt, t.Printable

/-- A document that can be stored is read back from its record. -/
theorem ofRecord_toRecord {d : Document} (h : d.Storable) : ofRecord d.toRecord = .ok d :=
  ofRecord_toRecord_of_times h.content.isData (fun t ht => (h.createdAt t ht).storable)
    fun t ht => (h.updatedAt t ht).storable

end Document

/-! ### Versions -/

namespace Version

/-- A version whose record says everything about it. -/
structure Storable (v : Version) : Prop where
  createdAt : v.createdAt.Printable
  updatedAt : v.updatedAt.Printable

/-- The record of a version is in order. -/
theorem ascending_toRecord (v : Version) : Table.Ascending v.toRecord := by
  refine Table.ascending_of_keys ["createdAt", "id", "parent", "updatedAt", "version"] ?_ (by decide)
  unfold toRecord Table.keys
  cases v.parent <;>
    simp only [memberOf, Option.map_none, Option.map_some, List.nil_append, List.cons_append,
      List.map_cons, List.map_nil] <;>
    decide

/-- The members of the record of a version, by name; no document is told where it has no parent. -/
theorem get?_toRecord (key : String) (v : Version) :
    Table.get? key v.toRecord =
      if key = "createdAt" then some (.ofInstant v.createdAt)
      else if key = "id" then some (.str v.id)
      else if key = "parent" then v.parent.map .str
      else if key = "updatedAt" then some (.ofInstant v.updatedAt)
      else if key = "version" then some (.obj v.version)
      else none := by
  unfold toRecord
  cases v.parent <;> simp [memberOf, Table.get?] <;> grind

/-- A member that must be there is read exactly if it is. -/
theorem present_eq_ok_iff {α : Type} {name : String} {member : Option α} {a : α} :
    present name member = .ok a ↔ member = some a := by
  cases member <;> simp [present]

/-- What a record must be like to be read as a given version. -/
theorem ofRecord_eq_ok_iff {record : Record} {v : Version} :
    ofRecord record = .ok v ↔
      Typed.optional "createdAt" Json.readInstant record = .ok (some v.createdAt) ∧
        Table.get? "id" record = some (.str v.id) ∧
        Typed.nullable "parent" Json.readString record = .ok v.parent ∧
        Typed.optional "updatedAt" Json.readInstant record = .ok (some v.updatedAt) ∧
        Table.get? "version" record = some (.obj v.version) := by
  constructor
  · intro h
    -- All members are looked at first, and only then are those asked for that must be there.
    obtain ⟨createdAt, hcreated, h⟩ := Except.bind_eq_ok_iff.1 h
    obtain ⟨id, hid, h⟩ := Except.bind_eq_ok_iff.1 h
    obtain ⟨parent, hparent, h⟩ := Except.bind_eq_ok_iff.1 h
    obtain ⟨updatedAt, hupdated, h⟩ := Except.bind_eq_ok_iff.1 h
    obtain ⟨version, hversion, h⟩ := Except.bind_eq_ok_iff.1 h
    simp only [Except.bind_eq_ok_iff, present_eq_ok_iff] at h
    obtain ⟨_, rfl, _, rfl, _, rfl, _, rfl, hbuilt⟩ := h
    cases hbuilt
    exact ⟨hcreated, Typed.optional_readString_eq_ok_iff.1 hid, hparent, hupdated,
      Typed.optional_readRecord_eq_ok_iff.1 hversion⟩
  · rintro ⟨hcreated, hid, hparent, hupdated, hversion⟩
    rw [ofRecord, hcreated, Typed.optional_readString_eq_ok_iff.2 hid, hparent, hupdated,
      Typed.optional_readRecord_eq_ok_iff.2 hversion]
    rfl

/-- **Versions are read back from their records,** if their times can be stored. -/
theorem ofRecord_toRecord_of_times {v : Version} (hcreated : v.createdAt.Storable)
    (hupdated : v.updatedAt.Storable) : ofRecord v.toRecord = .ok v := by
  have hget := fun key => get?_toRecord key v
  refine ofRecord_eq_ok_iff.2 ⟨?_, hget "id", ?_, ?_, hget "version"⟩
  · exact Typed.optional_eq_ok_some_iff.2 ⟨_, hget "createdAt", Json.readInstant_ofInstant hcreated⟩
  · exact Typed.nullable_string (hget "parent")
  · exact Typed.optional_eq_ok_some_iff.2 ⟨_, hget "updatedAt", Json.readInstant_ofInstant hupdated⟩

/-- A version that can be stored is read back from its record. -/
theorem ofRecord_toRecord {v : Version} (h : v.Storable) : ofRecord v.toRecord = .ok v :=
  ofRecord_toRecord_of_times h.createdAt.storable h.updatedAt.storable

end Version

/-! ### What the store adds -/

namespace Record

/-- Leaving out what the store keeps for itself keeps the order of members. -/
theorem ascending_sanitize {record : Record} (h : Table.Ascending record) :
    Table.Ascending (sanitize record) :=
  Table.ascending_erase (Table.ascending_erase h)

/-- All members but the number and the revision stay. -/
theorem get?_sanitize (key : String) (record : Record) :
    Table.get? key (sanitize record) =
      if key = "_seq" ∨ key = "__v" then none else Table.get? key record := by
  simp only [sanitize, Table.get?_erase, sequenceField, revisionField]
  grind

/-- A record without the member `id` has no id. -/
theorem id?_erase_id (record : Record) : id? (Table.erase "id" record) = none := by
  rw [id?, Table.get?_erase, if_pos rfl]
  rfl

end Record

namespace Store

/-- Stamping keeps the order of members. -/
theorem ascending_stamp {id : String} {sequence revision : Nat} {record : Record}
    (h : Table.Ascending record) : Table.Ascending (stamp id sequence revision record) :=
  Table.ascending_insert (Table.ascending_insert (Table.ascending_insert h))

/-- Besides the numbers of the store, a stamped record has its id and what it was made from. -/
theorem get?_stamp {key id : String} {sequence revision : Nat} {record : Record}
    (h : key ≠ "_seq" ∧ key ≠ "__v") :
    Table.get? key (stamp id sequence revision record) =
      if key = "id" then some (.str id) else Table.get? key record := by
  simp only [stamp, Table.get?_insert, Record.sequenceField, Record.revisionField]
  rw [if_neg h.2, if_neg h.1]

/-- A stamped record shows its id and what it was made from. -/
theorem get?_sanitize_stamp (key id : String) (sequence revision : Nat) (record : Record) :
    Table.get? key (Record.sanitize (stamp id sequence revision record)) =
      if key = "_seq" ∨ key = "__v" then none
      else if key = "id" then some (.str id)
      else Table.get? key record := by
  simp only [Record.get?_sanitize, stamp, Table.get?_insert, Record.sequenceField,
    Record.revisionField]
  grind

/-- A stamped record that tells all of a document but its id shows the record of the document. -/
theorem sanitize_stamp_document {d : Document} (h : Record.IsContent d.data)
    (sequence revision : Nat) {record : Record} (hrecord : Table.Ascending record)
    (hget : ∀ key, key ≠ "id" → Table.get? key record = Table.get? key d.toRecord) :
    Record.sanitize (stamp d.id sequence revision record) = d.toRecord := by
  refine Table.ext (Record.ascending_sanitize (ascending_stamp hrecord)) d.ascending_toRecord
    fun key => ?_
  rw [get?_sanitize_stamp]
  by_cases hid : key = "id"
  · subst hid
    rw [if_neg (by decide), if_pos rfl, Document.get?_id_toRecord h.isData.isBare]
  · rw [if_neg hid, hget key hid]
    split
    · next hkept =>
      have hfree : Table.get? key d.data = none :=
        h.free key (by rcases hkept with rfl | rfl <;> decide)
      rw [Document.get?_toRecord h.isData, hfree, Document.get?_envelopeMembers]
      rcases hkept with rfl | rfl <;> rfl
    · rfl

/-- A stamped record that tells all of a version but its id shows the record of the version. -/
theorem sanitize_stamp_version (v : Version) (sequence revision : Nat) {record : Record}
    (hrecord : Table.Ascending record)
    (hget : ∀ key, key ≠ "id" → Table.get? key record = Table.get? key v.toRecord) :
    Record.sanitize (stamp v.id sequence revision record) = v.toRecord := by
  refine Table.ext (Record.ascending_sanitize (ascending_stamp hrecord)) v.ascending_toRecord
    fun key => ?_
  rw [get?_sanitize_stamp]
  by_cases hid : key = "id"
  · subst hid
    rw [Version.get?_toRecord]
    rfl
  · rw [if_neg hid, hget key hid]
    split
    · next hkept =>
      rw [Version.get?_toRecord]
      rcases hkept with rfl | rfl <;> rfl
    · rfl

end Store

end HeadlessCms
