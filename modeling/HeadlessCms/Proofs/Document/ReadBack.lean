import HeadlessCms.Document.History
import HeadlessCms.Proofs.Document.RecordForm

/-!
# Reading back what has been stored

The store answers a write with the record as it is shown, and the service reads the document or the
version from that answer.  This does not fail: whatever has been read once can be stored and read back
(`Document.restorable_of_ofRecord`, `Document.Restorable.exists_read_stamp`), and so can the version
that is made of it (`History.exists_read_stamp`).
-/

namespace HeadlessCms

open Time (Instant)

/-- What a member that may be absent tells about a time: nothing if it is null. -/
inductive Json.TellsTime : Option Json → Option Instant → Prop
  | absent : TellsTime none none
  | null : TellsTime (some .null) none
  | text {s : String} {t : Instant} (h : Time.readRelaxed s = .ok t) :
      TellsTime (some (.str s)) (some t)

/-- A time can be read from a member exactly if the member tells it. -/
theorem Typed.nullable_readInstant_eq_ok_iff {name : String} {record : Record}
    {time : Option Instant} :
    Typed.nullable name Json.readInstant record = .ok time ↔
      Json.TellsTime (Table.get? name record) time := by
  unfold Typed.nullable
  constructor
  · intro h
    split at h
    · next hget =>
      cases h
      rw [hget]
      exact .absent
    · next hget =>
      cases h
      rw [hget]
      exact .null
    · next v _ hget =>
      obtain ⟨t, hread, rfl⟩ := Except.map_eq_ok_iff.1 h
      rw [hget]
      cases v with
      | str s => exact .text (Except.mapError_eq_ok_iff.1 hread)
      | _ => cases hread
  · intro h
    cases hget : Table.get? name record with
    | none =>
      rw [hget] at h
      cases h
      rfl
    | some v =>
      rw [hget] at h
      cases h with
      | null => rfl
      | text h =>
        show (Json.readInstant _).map some = _
        rw [Json.readInstant, h]
        rfl

/-- A time that has been read can be stored again. -/
theorem Typed.storable_of_nullable {name : String} {record : Record} {time : Option Instant}
    (h : Typed.nullable name Json.readInstant record = .ok time) : ∀ t ∈ time, t.Storable := by
  have htells := Typed.nullable_readInstant_eq_ok_iff.1 h
  generalize Table.get? name record = member at htells
  cases htells with
  | absent | null => exact fun t ht => nomatch ht
  | text hread =>
    intro t ht
    cases ht
    exact Time.storable_of_readRelaxed hread

namespace Document

/-- A document that can be stored again: its content is no part of the envelope, and the time of its
creation can be read back. -/
structure Restorable (d : Document) : Prop where
  bare : Record.IsBare d.data
  createdAt : ∀ t ∈ d.createdAt, t.Storable

/-- A record without its envelope is bare. -/
theorem isBare_stripEnvelope (record : Record) : Record.IsBare (stripEnvelope record) := by
  intro name hname
  rw [get?_stripEnvelope, if_pos hname]

/-- What has been read from a table has a table as its data. -/
theorem isData_of_ofRecord {record : Record} {d : Document} (hrecord : Table.Ascending record)
    (h : ofRecord record = .ok d) : Record.IsData d.data := by
  obtain ⟨-, -, -, hdata⟩ := ofRecord_eq_ok_iff.1 h
  rw [← hdata]
  exact ⟨ascending_stripEnvelope hrecord, isBare_stripEnvelope record⟩

/-- **What has been read can be stored again.** -/
theorem restorable_of_ofRecord {record : Record} {d : Document} (h : ofRecord record = .ok d) :
    d.Restorable := by
  obtain ⟨hcreated, -, -, hdata⟩ := ofRecord_eq_ok_iff.1 h
  exact ⟨hdata ▸ isBare_stripEnvelope record, Typed.storable_of_nullable hcreated⟩

/-- **A record with storable times reads as a document,** whatever the store stamps it with. -/
theorem exists_read_stamp_of_times {record : Record} (createdAt updatedAt : Option Instant)
    (hcreatedAt : Table.get? "createdAt" record = createdAt.map .ofInstant)
    (hupdatedAt : Table.get? "updatedAt" record = updatedAt.map .ofInstant)
    (hcreated : ∀ t ∈ createdAt, t.Storable) (hupdated : ∀ t ∈ updatedAt, t.Storable) (id : String)
    (sequence revision : Nat) :
    ∃ saved, ofRecord (Record.sanitize (Store.stamp id sequence revision record)) = .ok saved := by
  have hshown {name : String} (hnumbers : ¬(name = "_seq" ∨ name = "__v")) (hid : name ≠ "id") :
      Table.get? name (Record.sanitize (Store.stamp id sequence revision record)) =
        Table.get? name record := by
    rw [Store.get?_sanitize_stamp, if_neg hnumbers, if_neg hid]
  have hid : Typed.optional "id" Json.readString (Record.sanitize (Store.stamp id sequence revision
      record)) = .ok (some id) := by
    rw [Typed.optional, Store.get?_sanitize_stamp, if_neg (by decide), if_pos rfl]
    rfl
  rw [ofRecord, nullable_ofInstant ((hshown (by decide) (by decide)).trans hcreatedAt) hcreated, hid,
    nullable_ofInstant ((hshown (by decide) (by decide)).trans hupdatedAt) hupdated]
  exact ⟨_, rfl⟩

/-- **A document that can be stored is read back,** whatever the store stamps it with. -/
theorem Restorable.exists_read_stamp {d : Document} (h : d.Restorable)
    (hupdated : ∀ t ∈ d.updatedAt, t.Storable) {record : Record}
    (hget : ∀ key, key ≠ "id" → Table.get? key record = Table.get? key d.toRecord) (id : String)
    (sequence revision : Nat) :
    ∃ saved, ofRecord (Record.sanitize (Store.stamp id sequence revision record)) = .ok saved :=
  exists_read_stamp_of_times _ _ ((hget _ (by decide)).trans (get?_createdAt_toRecord h.bare))
    ((hget _ (by decide)).trans (get?_updatedAt_toRecord h.bare)) h.createdAt hupdated id sequence
    revision

end Document

/-- **A version is read back,** whatever the store stamps it with. -/
theorem History.exists_read_stamp {time : Instant} (htime : time.Storable) (kind : EntityKind)
    (parent : Option String) (data : Record) (status : Status) (id : String)
    (sequence revision : Nat) :
    ∃ v, Version.ofRecord (Record.sanitize (Store.stamp id sequence revision
      (newRecord kind parent data status time))) = .ok v := by
  have hread := Json.readInstant_ofInstant htime
  cases kind <;> cases parent <;>
    simp only [Version.ofRecord, Typed.optional, Typed.nullable, Store.get?_sanitize_stamp,
      newRecord] <;>
    simp [Table.get?, hread, Json.readString, Json.readRecord, Except.map, bind, Except.bind,
      Version.present]

/-- The record of a version reads as a document, too. -/
theorem History.exists_document_stamp {time : Instant} (htime : time.Storable) (kind : EntityKind)
    (parent : Option String) (data : Record) (status : Status) (id : String)
    (sequence revision : Nat) :
    ∃ d, Document.ofRecord (Record.sanitize (Store.stamp id sequence revision
      (newRecord kind parent data status time))) = .ok d := by
  have hstorable : ∀ t ∈ some time, t.Storable := by
    intro t ht
    cases ht
    exact htime
  refine Document.exists_read_stamp_of_times (some time) (some time) ?_ ?_ hstorable hstorable id
    sequence revision
  · cases kind <;> cases parent <;> rfl
  · cases kind <;> cases parent <;> rfl

end HeadlessCms
