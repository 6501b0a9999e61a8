import HeadlessCms.Proofs.Store.Bookkeeping
import HeadlessCms.Proofs.Store.Renumbering
import HeadlessCms.Proofs.Store.Touching

/-!
# Looking for a record that is replaced

Where the ids of a collection differ, an update changes one record and keeps its id, its number and its
place.  So a look-up by id that shows a record before an update of it shows what has replaced the record
afterwards (`Store.Leads.update`), and the changes of other collections do not matter to it
(`Store.Leads.congr`).
-/

namespace HeadlessCms

namespace Store

variable {records : List Record} {record : Record} {filter : Option Predicate} {f : Record → Record}

/-! ### Records that are replaced -/

/-- The record with an id makes room for another one. -/
def replacing (id : String) (record r : Record) : Record :=
  if Record.id? r = some id then revise r id record else r

/-- A record that is replaced keeps its number. -/
theorem counter_replacing (id : String) (record r : Record) :
    Record.counter Record.sequenceField (replacing id record r) =
      Record.counter Record.sequenceField r := by
  unfold replacing
  split
  · rw [revise, counter_stamp]
  · rfl

/-- A record that is replaced keeps its id. -/
theorem get?_id_replacing (id : String) (record r : Record) :
    Table.get? "id" (replacing id record r) = Table.get? "id" r := by
  unfold replacing
  split
  · next hid =>
    rw [revise, get?_id_stamp]
    obtain ⟨v, hget, hv⟩ := Option.bind_eq_some_iff.1 hid
    cases v <;> cases hv
    exact hget.symm
  · rfl

/-- **Where ids differ the first record with an id is the only one.** -/
theorem replaceFirst_eq_map (id : String) (record : Record)
    (h : (records.map Record.id?).Nodup) :
    replaceFirst id record records = records.map (replacing id record) := by
  induction records with
  | nil => rfl
  | cons r rest ih =>
    obtain ⟨hnot, hrest⟩ := List.nodup_cons.1 h
    rw [replaceFirst, List.map_cons, replacing]
    split
    · next hid =>
      refine congrArg (revise r id record :: ·) ?_
      refine ((List.map_congr_left fun x hx => ?_).trans (List.map_id rest)).symm
      exact if_neg fun hx' => hnot (List.mem_map.2 ⟨x, hx, hx'.trans hid.symm⟩)
    · rw [ih hrest]

variable [PatternEngine]

/-- Records that a clause decides alike are matched alike. -/
theorem matching_map
    (hf : ∀ r ∈ records, Predicate.holdsFor filter (f r) = Predicate.holdsFor filter r) :
    matching filter (records.map f) = (matching filter records).map (List.map f) := by
  induction records with
  | nil => rfl
  | cons r rest ih =>
    have hrest := ih fun x hx => hf x (List.mem_cons_of_mem _ hx)
    rw [List.map_cons, matching, matching, hf r List.mem_cons_self, hrest]
    cases Predicate.holdsFor filter r with
    | error e => rfl
    | ok keep => cases matching filter rest <;> cases keep <;> rfl

/-! ### Looking for an id -/

/-- The query for the record with an id. -/
def idQuery (name id : String) : Query :=
  ⟨name, some (.compare "id" .equals (.str id)), none⟩

/-- A change that keeps ids and numbers keeps what is selected by an id. -/
theorem select_idQuery_map {c c' : Collection} {name id : String}
    (hrecords : c'.records = c.records.map f)
    (hid : ∀ r, Table.get? "id" (f r) = Table.get? "id" r)
    (hnumber : ∀ r, Record.counter Record.sequenceField (f r) =
      Record.counter Record.sequenceField r) :
    select c' (idQuery name id) (.sortedBy []) =
      (select c (idQuery name id) (.sortedBy [])).map (List.map f) := by
  have hholds (r : Record) : Predicate.holdsFor (idQuery name id).filter (f r) =
      Predicate.holdsFor (idQuery name id).filter r := by
    refine Predicate.holds_congr _ fun k hk => ?_
    obtain rfl := List.mem_singleton.1 hk
    have hpath : Path.segments "id" = ["id"] := Path.segments_of_notMem (by decide)
    rw [Record.resolve_name hpath, Record.resolve_name hpath, hid]
  have horder : (fun a b : Record => Record.compareBy [] none (f a) (f b) == .lt) =
      fun a b => Record.compareBy [] none a b == .lt := by
    funext a b
    rw [Record.compareBy, Record.compareBy, hnumber, hnumber]
  unfold select
  rw [hrecords, matching_map fun r _ => hholds r]
  cases matching (idQuery name id).filter c.records with
  | error e => rfl
  | ok found =>
    have hsorted := sortStably_map (fun a b => Record.compareBy [] none a b == .lt) f found
    rw [horder] at hsorted
    exact congrArg Except.ok hsorted

variable {s s' : Store} {name id own : String} {r : Record}

/-- A look-up by id leads to a record. -/
def Leads (s : Store) (name id : String) (r : Record) : Prop :=
  ∃ held rest, Table.get? name s.collections = some held ∧
    select held (idQuery name id) (.sortedBy []) = .ok (r :: rest)

/-- The record that an id leads to is in the collection. -/
theorem Leads.mem (h : s.Leads name id r) : r ∈ s.recordsOf name := by
  obtain ⟨held, rest, hheld, hselect⟩ := h
  rw [recordsOf_of_get? hheld]
  exact (mem_select hselect List.mem_cons_self).1

/-- An id leads somewhere only in a declared collection. -/
theorem Leads.declares (h : s.Leads name id r) : s.Declares name := by
  obtain ⟨held, rest, hheld, -⟩ := h
  exact ⟨held, hheld⟩

/-- The query for an id can be built where the id leads somewhere. -/
theorem Leads.buildQuery (h : s.Leads name id r) :
    s.buildQuery name (some (.compare "id" .equals (.str id))) none = .ok (idQuery name id) := by
  obtain ⟨held, rest, hheld, hselect⟩ := h
  rw [buildQuery_of_get? hheld, Option.map_some, Predicate.mapPaths_compare]
  rfl

/-- Looking for an id finds the record that it leads to. -/
theorem Leads.findOne (h : s.Leads name id r) :
    s.findOne (idQuery name id) (.sortedBy []) = .ok (some (Record.sanitize r)) := by
  obtain ⟨held, rest, hheld, hselect⟩ := h
  exact findOne_of_select hheld hselect

omit [PatternEngine] in
/-- Without a locale, the query for an id is this one. -/
theorem eq_idQuery_of_buildQuery {q : Query}
    (h : s.buildQuery name (some (.compare "id" .equals (.str id))) none = .ok q) :
    q = idQuery name id := by
  obtain ⟨held, hheld, h⟩ := Except.bind_eq_ok_iff.1 h
  rw [Option.map_some, Predicate.mapPaths_compare] at h
  exact (Except.ok.inj h).symm

/-- What is shown is what the look-up leads to. -/
theorem leads_of_findOne {shown : Record}
    (h : s.findOne (idQuery name id) (.sortedBy []) = .ok (some shown)) :
    ∃ r, s.Leads name id r ∧ shown = Record.sanitize r := by
  obtain ⟨held, hheld, h⟩ := Except.bind_eq_ok_iff.1 h
  obtain ⟨found, hselect, h⟩ := Except.bind_eq_ok_iff.1 h
  cases found with
  | nil => cases h
  | cons r rest =>
    cases h
    exact ⟨r, ⟨held, rest, get?_of_collection? hheld, hselect⟩, rfl⟩

/-- **Nothing but the records of the collection matters.** -/
theorem Leads.congr (h : s.Leads name id r) (hdeclared : s'.Declares name)
    (hrecords : s'.recordsOf name = s.recordsOf name) : s'.Leads name id r := by
  obtain ⟨held, rest, hheld, hselect⟩ := h
  obtain ⟨held', hheld'⟩ := hdeclared
  rw [recordsOf_of_get? hheld, recordsOf_of_get? hheld'] at hrecords
  refine ⟨held', rest, hheld', ?_⟩
  unfold select at hselect ⊢
  rwa [hrecords]

/-- **An update replaces the record that a look-up leads to.** -/
theorem Leads.update (h : s.Leads name id r) (hdistinct : ((s.recordsOf name).map Record.id?).Nodup)
    (hown : Record.id? r = some own) {shown : Record}
    (hupdate : s.update name own record = (.ok shown, s')) :
    shown = Record.sanitize (revise r own record) ∧ s'.Leads name id (revise r own record) ∧
      ((s'.recordsOf name).map Record.id?).Nodup := by
  have hmem := h.mem
  obtain ⟨held, rest, hheld, hselect⟩ := h
  rw [recordsOf_of_get? hheld] at hdistinct hmem
  unfold Store.update at hupdate
  rw [hheld] at hupdate
  dsimp only at hupdate
  split at hupdate
  · cases hupdate
  · next existing hexisting =>
    cases hupdate
    have hfound : Record.id? existing = some own :=
      beq_iff_eq.1 (@List.find?_some _ (Record.id? · == some own) _ _ hexisting)
    obtain rfl : existing = r :=
      List.inj_on_of_nodup_map hdistinct (List.mem_of_find?_eq_some hexisting) hmem
        (hfound.trans hown.symm)
    have hreplaced := replaceFirst_eq_map own record hdistinct
    have hthere := get?_withRecords s name held (replaceFirst own record held.records)
    refine ⟨rfl, ⟨_, rest.map (replacing own record), hthere, ?_⟩, ?_⟩
    · rw [select_idQuery_map hreplaced (get?_id_replacing own record)
        (counter_replacing own record), hselect]
      exact congrArg (fun first => Except.ok (first :: rest.map (replacing own record)))
        (if_pos hown)
    · rw [recordsOf_of_get? hthere]
      show ((replaceFirst own record held.records).map Record.id?).Nodup
      rw [hreplaced, List.map_map]
      refine List.map_congr_left (fun x _ => ?_) ▸ hdistinct
      rw [Function.comp_apply, Record.id?, Record.id?, get?_id_replacing]

end Store

end HeadlessCms
