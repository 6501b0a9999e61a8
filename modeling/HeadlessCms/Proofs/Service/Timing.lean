import HeadlessCms.Proofs.Document.Conversion
import HeadlessCms.Proofs.Service.Creating
import HeadlessCms.Proofs.Service.Dating
import HeadlessCms.Proofs.Store.Ordering

/-!
# The times that records tell

The service writes all times of records itself, as timestamps of proper times.  So on every backend that
is reached the times of a record are read back as they are stored (`Service.Reachable.timed`,
`Document.get?_toRecord_of_ofRecord`), whatever year they lie in.  And records can be sorted by their
times (`SortKey.orders_of_tellsTime`).
-/

namespace HeadlessCms

open Time (Instant)

namespace Record

/-- A record that tells a proper time under a name, or tells none. -/
def TellsTime (name : String) (r : Record) : Prop :=
  ∃ time : Option Instant, (∀ t ∈ time, t.Regular) ∧ Table.get? name r = time.map .ofInstant

/-- A record in order, with proper times. -/
structure Timed (r : Record) : Prop where
  ascending : Table.Ascending r
  createdAt : r.TellsTime "createdAt"
  updatedAt : r.TellsTime "updatedAt"

end Record

namespace Store

/-- All records have proper times. -/
def timedLaw : Law where
  paths _ _ := True
  record _ r := r.Timed

/-- A stamped record tells the same times. -/
theorem timed_stamp {id : String} {sequence revision : Nat} {record : Record} (h : record.Timed) :
    (stamp id sequence revision record).Timed := by
  have hget {name : String} (hname : name ≠ "_seq" ∧ name ≠ "__v") (hid : name ≠ "id") :
      Table.get? name (stamp id sequence revision record) = Table.get? name record := by
    rw [get?_stamp hname, if_neg hid]
  obtain ⟨created, hcreated, hcreatedAt⟩ := h.createdAt
  obtain ⟨updated, hupdated, hupdatedAt⟩ := h.updatedAt
  exact ⟨ascending_stamp h.ascending,
    ⟨created, hcreated, (hget (by decide) (by decide)).trans hcreatedAt⟩,
    ⟨updated, hupdated, (hget (by decide) (by decide)).trans hupdatedAt⟩⟩

end Store

/-- The record of a document with proper times tells proper times. -/
theorem Document.timed_toRecord {d : Document} (h : Record.IsBare d.data)
    (hcreated : ∀ t ∈ d.createdAt, t.Regular) (hupdated : ∀ t ∈ d.updatedAt, t.Regular) :
    d.toRecord.Timed :=
  ⟨d.ascending_toRecord, ⟨_, hcreated, get?_createdAt_toRecord h⟩,
    ⟨_, hupdated, get?_updatedAt_toRecord h⟩⟩

/-- A record tells the same times without its id. -/
theorem Record.Timed.erase_id {r : Record} (h : r.Timed) : Record.Timed (Table.erase "id" r) := by
  obtain ⟨created, hcreated, hcreatedAt⟩ := h.createdAt
  obtain ⟨updated, hupdated, hupdatedAt⟩ := h.updatedAt
  refine ⟨Table.ascending_erase h.ascending, ⟨created, hcreated, ?_⟩, ⟨updated, hupdated, ?_⟩⟩
  · rw [Table.get?_erase, if_neg (by decide), hcreatedAt]
  · rw [Table.get?_erase, if_neg (by decide), hupdatedAt]

/-- The record of a new version tells the time of the save. -/
theorem History.timed_newRecord {time : Instant} (h : time.Regular) (kind : EntityKind)
    (parent : Option String) (data : Record) (status : Status) :
    (newRecord kind parent data status time).Timed := by
  have htime : ∀ t ∈ some time, t.Regular := fun t ht => by
    cases ht
    exact h
  refine ⟨ascending_newRecord _ _ _ _ _, ⟨some time, htime, ?_⟩,
    ⟨some time, htime, get?_updatedAt_newRecord _ _ _ _ _⟩⟩
  cases kind <;> cases parent <;> rfl

/-! ### Reading times back -/

/-- A record shows the same times. -/
theorem Record.Timed.sanitize {r : Record} (h : r.Timed) : (Record.sanitize r).Timed := by
  obtain ⟨created, hcreated, hcreatedAt⟩ := h.createdAt
  obtain ⟨updated, hupdated, hupdatedAt⟩ := h.updatedAt
  refine ⟨ascending_sanitize h.ascending, ⟨created, hcreated, ?_⟩, ⟨updated, hupdated, ?_⟩⟩
  · rw [get?_sanitize, if_neg (by decide), hcreatedAt]
  · rw [get?_sanitize, if_neg (by decide), hupdatedAt]

/-- Proper times are read as they are written. -/
theorem Record.Timed.times_of_ofRecord {record : Record} (h : record.Timed) {d : Document}
    (hread : Document.ofRecord record = .ok d) :
    d.createdAt.map .ofInstant = Table.get? "createdAt" record ∧
      d.updatedAt.map .ofInstant = Table.get? "updatedAt" record := by
  obtain ⟨created, hcreated, hcreatedAt⟩ := h.createdAt
  obtain ⟨updated, hupdated, hupdatedAt⟩ := h.updatedAt
  obtain ⟨hfoundCreated, -, hfoundUpdated, -⟩ := Document.ofRecord_eq_ok_iff.1 hread
  rw [hcreatedAt, hupdatedAt, Typed.eq_of_nullable_instant hcreatedAt hcreated hfoundCreated,
    Typed.eq_of_nullable_instant hupdatedAt hupdated hfoundUpdated]
  exact ⟨rfl, rfl⟩

/-- **A document has all members of the record that it is read from.** -/
theorem Document.get?_toRecord_of_ofRecord {record : Record} {d : Document} (h : record.Timed)
    (hread : ofRecord record = .ok d) (name : String) :
    Table.get? name d.toRecord = Table.get? name record := by
  obtain ⟨hcreatedAt, hupdatedAt⟩ := h.times_of_ofRecord hread
  have hbare := (isData_of_ofRecord h.ascending hread).isBare
  by_cases hcreated : name = "createdAt"
  · rw [hcreated, get?_createdAt_toRecord hbare, hcreatedAt]
  · by_cases hupdated : name = "updatedAt"
    · rw [hupdated, get?_updatedAt_toRecord hbare, hupdatedAt]
    · exact get?_toRecord_of_read h.ascending hread hcreated hupdated

/-! ### Sorting by times -/

/-- **Records are in order under the key of a time that they tell.** -/
theorem SortKey.orders_of_tellsTime {key : SortKey} {records : List Record}
    (hpath : Path.segments key.path = [key.path]) (h : ∀ r ∈ records, r.TellsTime key.path) :
    key.Orders records := by
  have hvalue : ∀ r ∈ records, ∀ x ∈ key.value? r, ∃ t : Instant, t.Regular ∧ .ofInstant t = x := by
    intro r hr x hx
    obtain ⟨time, hregular, hget⟩ := h r hr
    rw [value?, Record.resolve_name hpath, hget] at hx
    cases time with
    | none => cases hx
    | some t => exact ⟨t, hregular t rfl, Option.some.inj hx⟩
  refine .of_values fun a ha b hb c hc x hx y hy z hz => ?_
  obtain ⟨r, hr, rfl⟩ := hvalue a ha x hx
  obtain ⟨s, hs, rfl⟩ := hvalue b hb y hy
  obtain ⟨t, ht, rfl⟩ := hvalue c hc z hz
  exact coherent_compareValues_ofInstant hr hs ht

namespace Service

variable [PatternEngine]
variable {env : Surroundings} {c : CompiledEntity} {collection : String} {existing : Option Document}

/-- Storing a document with proper times keeps all times proper. -/
theorem keeps_store_timed {draft : Bool} {createdAt updatedAt : Option Instant} {data : Record}
    (hdata : Record.IsBare data) (hcreated : ∀ t ∈ createdAt, t.Regular)
    (hupdated : ∀ t ∈ updatedAt, t.Regular) :
    Action.Keeps env (Backend.Lawful env Store.timedLaw)
      (store collection existing draft createdAt updatedAt data) fun _ => True := by
  have htimed (id : String) : Record.Timed (Document.toRecord ⟨id, createdAt, updatedAt, data⟩) :=
    Document.timed_toRecord hdata hcreated hupdated
  exact keeps_store_of_writes
    (fun id => .update fun sequence revision => Store.timed_stamp (htimed id))
    (.insert (Record.id?_erase_id _) fun k sequence => Store.timed_stamp (htimed "").erase_id)

/-- **Saves write proper times.** -/
theorem keeps_save_timed {s : Service} (hregular : ∀ n, (env.readings n).Regular) (patch : Record)
    (params : SaveParams) (hexisting : ∀ d ∈ existing, d.Restorable) :
    Action.Keeps env (Backend.Lawful env Store.timedLaw) (s.save c collection existing patch params)
      fun _ => True := by
  refine keeps_save_of_steps (D := fun _ _ => True) (.now_regular hregular)
    (keeps_baseOf_bare hexisting _)
    (fun selection time base _ _ htime hbase => ?_)
    fun _ time saved status htime _ => History.keeps_save_lawful fun _ _ =>
      Store.timed_stamp (History.timed_newRecord htime _ _ _ _)
  have hcreated : (creationOf existing time).Regular :=
    of_creationOf (fun d hd t ht => ((hexisting d hd).createdAt t ht).regular) htime
  exact keeps_store_timed (isBare_patched hbase.1 patch _) (of_mem_timestamp fun _ => hcreated)
    (of_mem_timestamp fun _ => htime)

/-- **On every backend that is reached the records have proper times.** -/
theorem Reachable.timed {registry : Registry} {config : Config} {b : Backend}
    (hregular : ∀ n, (env.readings n).Regular) (hreach : Reachable env registry config b) :
    b.Lawful env Store.timedLaw := by
  refine hreach.invariant ⟨Store.obeys_empty _, 0, rfl⟩ ?_ ?_ fun b methods hb =>
    ⟨hb.store, hb.clock⟩
  · exact ((keeps_declare fun _ _ _ => trivial).mapError _).bind fun _ _ => .pure trivial
  · exact fun _ _ _ hexisting patch params => keeps_save_timed hregular patch params hexisting

end Service

end HeadlessCms
