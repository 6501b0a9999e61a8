import HeadlessCms.Proofs.Document.ReadBack

/-!
# From records to documents and back

A document is read back from its record, and so is a version, in every year that timestamps can be
stored in.  The other way round, the record of a document that has been read from a record is that
record again, up to the spelling of its two times (`Record.conversions_keep_everything`): a time may
have been given in any zone and with any number of digits, and comes back in the one form in which
times are printed.
-/

namespace HeadlessCms

open Time (Instant)

/-- Timestamps are printed in UTC. -/
theorem Time.Instant.getLast?_write (t : Instant) : t.write.toList.getLast? = some 'Z' := by
  simp only [Instant.write, String.toList_ofList, Instant.chars, List.getLast?_append,
    List.getLast?_singleton, Option.some_or]

/-- What becomes of a member that tells a time: it tells the same time as it is printed in UTC, and is
left out if there is no time. -/
structure Json.Reprints (before after : Option Json) (time : Option Instant) : Prop where
  told : TellsTime before time
  told_again : TellsTime after time
  printed : after = time.map .ofInstant
  utc : ∀ s, after = some (.str s) → s.toList.getLast? = some 'Z'

/-- A member that tells a time is printed as that time. -/
theorem Json.reprints_of_tellsTime {before : Option Json} {time : Option Instant}
    (h : TellsTime before time) : Reprints before (time.map .ofInstant) time where
  told := h
  told_again := by
    cases h with
    | absent | null => exact .absent
    | text h => exact .text (Time.storable_of_readRelaxed h).readRelaxed_write
  printed := rfl
  utc s hs := by
    obtain ⟨t, -, ht⟩ := Option.map_eq_some_iff.1 hs
    cases ht
    exact t.getLast?_write

namespace Document

variable {record : Record} {d : Document}

/-- **A record is told again by the document that is read from it,** but for the times. -/
theorem get?_toRecord_of_read (hrecord : Table.Ascending record) (h : ofRecord record = .ok d)
    {key : String} (hcreated : key ≠ "createdAt") (hupdated : key ≠ "updatedAt") :
    Table.get? key d.toRecord = Table.get? key record := by
  have hisData := isData_of_ofRecord hrecord h
  obtain ⟨-, hid, -, hdata⟩ := ofRecord_eq_ok_iff.1 h
  by_cases hkey : key = "id"
  · rw [hkey, get?_id_toRecord hisData.isBare, hid]
  · have hfree : key ∉ envelope := by
      simp [envelope, hkey, hcreated, hupdated]
    rw [get?_toRecord_of_notMem_envelope hisData hfree, ← hdata, get?_stripEnvelope,
      if_neg hfree]

/-- The times of a record are told again, too, as they are printed. -/
theorem reprints_of_read (hrecord : Table.Ascending record) (h : ofRecord record = .ok d) :
    Json.Reprints (Table.get? "createdAt" record) (Table.get? "createdAt" d.toRecord) d.createdAt ∧
      Json.Reprints (Table.get? "updatedAt" record) (Table.get? "updatedAt" d.toRecord)
        d.updatedAt := by
  have hbare := (isData_of_ofRecord hrecord h).isBare
  obtain ⟨hcreated, -, hupdated, -⟩ := ofRecord_eq_ok_iff.1 h
  rw [get?_createdAt_toRecord hbare, get?_updatedAt_toRecord hbare]
  exact ⟨Json.reprints_of_tellsTime (Typed.nullable_readInstant_eq_ok_iff.1 hcreated),
    Json.reprints_of_tellsTime (Typed.nullable_readInstant_eq_ok_iff.1 hupdated)⟩

/-- A time that a document does not have leaves no trace in its record. -/
theorem get?_time_toRecord_eq_none (h : Record.IsBare d.data) :
    (d.createdAt = none → Table.get? "createdAt" d.toRecord = none) ∧
      (d.updatedAt = none → Table.get? "updatedAt" d.toRecord = none) := by
  rw [get?_createdAt_toRecord h, get?_updatedAt_toRecord h]
  exact ⟨fun hnone => by rw [hnone, Option.map_none], fun hnone => by rw [hnone, Option.map_none]⟩

end Document

/-- **Going from records to documents and back keeps everything.**  A document whose data has none of
the names of the envelope is read back from its record, and times that it does not have are not in the
record; a version is read back from its record.  Their times may be any of the calendar, whose years go
from -262143 to 262142, with leap seconds where they belong, at the end of a minute.  If a document can
be read from a record at all, then its record has the members of that record, but for the two times:
each is the same time as it is printed in UTC, or is left out if it was null. -/
theorem Record.conversions_keep_everything :
    (∀ d : Document, Record.IsData d.data → (∀ t ∈ d.createdAt, t.Storable) →
      (∀ t ∈ d.updatedAt, t.Storable) →
        Document.ofRecord d.toRecord = .ok d ∧
        (d.createdAt = none → Table.get? "createdAt" d.toRecord = none) ∧
        (d.updatedAt = none → Table.get? "updatedAt" d.toRecord = none)) ∧
    (∀ v : Version, v.createdAt.Storable → v.updatedAt.Storable →
      Version.ofRecord v.toRecord = .ok v) ∧
    ∀ (record : Record) (d : Document), Table.Ascending record → Document.ofRecord record = .ok d →
      (∀ key, key ≠ "createdAt" → key ≠ "updatedAt" →
        Table.get? key d.toRecord = Table.get? key record) ∧
      Json.Reprints (Table.get? "createdAt" record) (Table.get? "createdAt" d.toRecord) d.createdAt ∧
      Json.Reprints (Table.get? "updatedAt" record) (Table.get? "updatedAt" d.toRecord)
        d.updatedAt := by
  refine ⟨fun d hdata hcreated hupdated => ?_, fun v hcreated hupdated => ?_,
    fun record d hrecord hread => ?_⟩
  · exact ⟨Document.ofRecord_toRecord_of_times hdata hcreated hupdated,
      Document.get?_time_toRecord_eq_none hdata.isBare⟩
  · exact Version.ofRecord_toRecord_of_times hcreated hupdated
  · exact ⟨fun key => Document.get?_toRecord_of_read hrecord hread,
      Document.reprints_of_read hrecord hread⟩

/-- A note that was changed in the first hour of a year in Paris.  When it was created is not known. -/
def parisRecord : Record :=
  [("createdAt", .null), ("id", .str "7"), ("title", .str "Hello"),
    ("updatedAt", .str "2024-01-01 0:30:00.50+01:00")]

/-- The note itself, changed in the last hour of the year before in UTC. -/
def parisNote : Document :=
  ⟨"7", none, some ⟨1704065400, 500000000⟩, [("title", .str "Hello")]⟩

/-- A version of the note from the leap second at the end of the year 12016. -/
def parisVersion : Version :=
  ⟨"1", some "7", parisNote.data, ⟨317052748799, 1000000000⟩, ⟨317052748800, 0⟩⟩

/-- A note from Paris is read with its times in universal time, and then stays as it is. -/
theorem Record.conversions_keep_everything_paris :
    Document.ofRecord parisRecord = .ok parisNote ∧
      Document.ofRecord parisNote.toRecord = .ok parisNote ∧
      Table.get? "title" parisNote.toRecord = some (.str "Hello") ∧
      Table.get? "createdAt" parisNote.toRecord = none ∧
      Table.get? "updatedAt" parisNote.toRecord = some (.str "2023-12-31T23:30:00.500Z") ∧
      Version.ofRecord parisVersion.toRecord = .ok parisVersion := by
  obtain ⟨hdocuments, hversions, hrecords⟩ := Record.conversions_keep_everything
  have hdata : Record.IsData parisNote.data := ⟨List.pairwise_singleton _ _, by decide⟩
  obtain ⟨hback, hcreated, -⟩ := hdocuments parisNote hdata (by decide) (by decide)
  have hrecord : Table.Ascending parisRecord :=
    Table.ascending_of_keys ["createdAt", "id", "title", "updatedAt"] (List.Sublist.refl _)
      (by decide)
  have htime : Time.readRelaxed "2024-01-01 0:30:00.50+01:00" = .ok ⟨1704065400, 500000000⟩ := by
    decide +kernel
  have hread : Document.ofRecord parisRecord = .ok parisNote := Document.ofRecord_eq_ok_iff.2
    ⟨rfl, rfl, Typed.nullable_readInstant_eq_ok_iff.2 (.text htime), rfl⟩
  obtain ⟨hkept, -, hagain⟩ := hrecords parisRecord parisNote hrecord hread
  have hprinted : Instant.write ⟨1704065400, 500000000⟩ = "2023-12-31T23:30:00.500Z" := by
    decide +kernel
  refine ⟨hread, hback, hkept "title" (by decide) (by decide), hcreated rfl, ?_,
    hversions parisVersion (by decide) (by decide)⟩
  rw [hagain.printed]
  exact congrArg (fun s => some (Json.str s)) hprinted

end HeadlessCms
