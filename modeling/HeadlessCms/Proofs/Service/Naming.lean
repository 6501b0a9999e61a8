import HeadlessCms.Proofs.Localization.Naming
import HeadlessCms.Proofs.Query.Rewriting
import HeadlessCms.Proofs.Service.Creating
import HeadlessCms.Proofs.Service.Dating

/-!
# Which global a record belongs to

All globals are stored in one collection.  A record says in one member which global it is the record of
(`Record.NamesGlobal`), and saves write it into documents and versions, for whatever patch
(`Service.namesGlobal_patched`).  A query for a global therefore does not find the records of globals
whose slugs do not compare equal to its own (`Record.NamesGlobal.holds_globalClause`).
-/

namespace HeadlessCms

open Time (Instant)
open Service (globalTypeField globalsCollection globalClause)

/-- A record in order whose global has an admitted name. -/
structure Record.NamesGlobal (P : String → Prop) (r : Record) : Prop where
  ascending : Table.Ascending r
  name : ∃ v, Table.get? globalTypeField r = some v ∧ v.Names P

namespace Record.NamesGlobal

variable {P : String → Prop} {r : Record}

/-- Other members do not matter. -/
theorem congr {other : Record} (h : r.NamesGlobal P) (hother : Table.Ascending other)
    (hget : Table.get? globalTypeField other = Table.get? globalTypeField r) :
    other.NamesGlobal P :=
  ⟨hother, hget ▸ h.name⟩

/-- A stamped record names the same global. -/
theorem stamp (h : r.NamesGlobal P) (id : String) (sequence revision : Nat) :
    (Store.stamp id sequence revision r).NamesGlobal P :=
  h.congr (Store.ascending_stamp h.ascending)
    ((Store.get?_stamp (by decide)).trans (if_neg (by decide)))

/-- The record as it is shown names the same global. -/
theorem sanitize (h : r.NamesGlobal P) : (Record.sanitize r).NamesGlobal P :=
  h.congr (ascending_sanitize h.ascending) ((get?_sanitize _ _).trans (if_neg (by decide)))

/-- The data of a record without the envelope name the same global. -/
theorem stripEnvelope (h : r.NamesGlobal P) : (Document.stripEnvelope r).NamesGlobal P :=
  h.congr (Document.ascending_stripEnvelope h.ascending)
    ((Document.get?_stripEnvelope _ _).trans (if_neg (by decide)))

/-- A record names the same global without its id. -/
theorem erase_id (h : r.NamesGlobal P) : Record.NamesGlobal P (Table.erase "id" r) :=
  h.congr (Table.ascending_erase h.ascending) ((Table.get?_erase _ _ _).trans (if_neg (by decide)))

/-- The record of a document names the global that its data name. -/
theorem toRecord {d : Document} (h : d.data.NamesGlobal P) : d.toRecord.NamesGlobal P := by
  refine h.congr d.ascending_toRecord ?_
  obtain ⟨v, hv, _⟩ := h.name
  rw [Document.toRecord, Table.get?_insertAll h.ascending, hv, Option.some_or]

/-- A snapshot names the global that its data name. -/
theorem snapshot (h : r.NamesGlobal P) (status : Status) :
    (History.snapshot r status).NamesGlobal P :=
  h.erase_id.congr (Table.ascending_insert h.erase_id.ascending)
    ((Table.get?_insert _ _ _ _).trans (if_neg (by decide)))

/-- **A record does not satisfy the clause of a global whose slug compares equal to none of its
names,** wherever the clause looks for the name. -/
theorem holds_globalClause [PatternEngine] (h : r.NamesGlobal P) {slug : String}
    (hslug : ∀ name, P name → compareTexts name slug ≠ .eq) {f : String → String}
    (hpath : (Path.segments (f globalTypeField)).head? = some globalTypeField) :
    ((globalClause slug).mapPaths f).holds r = .ok false := by
  obtain ⟨v, hv, hnames⟩ := h.name
  obtain ⟨rest, hsegments⟩ := List.head?_eq_some_iff.1 hpath
  have hreach : Record.resolve r (f globalTypeField) = reach v rest := by
    rw [Record.resolve, hsegments]
    dsimp only
    rw [reachMember_eq, hv]
  rw [globalClause, Predicate.mapPaths_compare, Predicate.compare, Predicate.holds_leaf,
    Constraint.holds, hreach]
  exact congrArg Except.ok (Json.Names.anyEquals (hnames.reach rest) hslug)

end Record.NamesGlobal

/-- Content to start from: it is in order, and if it says which global it belongs to it says so by an
admitted name. -/
structure Record.MayNameGlobal (P : String → Prop) (r : Record) : Prop where
  ascending : Table.Ascending r
  name : ∀ v ∈ Table.get? globalTypeField r, v.Names P

/-- Where there is nothing no global is named. -/
theorem Record.mayNameGlobal_nil (P : String → Prop) : Record.MayNameGlobal P [] :=
  ⟨List.Pairwise.nil, fun _ hv => by cases hv⟩

/-- What names a global may name it. -/
theorem Record.NamesGlobal.may {P : String → Prop} {r : Record} (h : r.NamesGlobal P) :
    r.MayNameGlobal P := by
  refine ⟨h.ascending, fun v hv => ?_⟩
  obtain ⟨w, hw, hnames⟩ := h.name
  obtain rfl := Option.some.inj (hw.symm.trans hv)
  exact hnames

/-- The snapshot of a version is a member of its record. -/
theorem Version.snapshot_of_ofRecord {record : Record} {v : Version} (h : ofRecord record = .ok v) :
    Table.get? "version" record = some (.obj v.version) := by
  obtain ⟨-, -, -, -, hversion⟩ := ofRecord_eq_ok_iff.1 h
  exact hversion

/-! ### Saves -/

namespace LocaleTarget

variable {P : String → Prop} (t : LocaleTarget)

/-- What is put under a locale still says which global it belongs to. -/
theorem namesGlobal_wrapAt {stored incoming : Record} (hstored : stored.MayNameGlobal P)
    (h : incoming.NamesGlobal P) (path : String) :
    (t.wrapAt (some stored) incoming path).NamesGlobal P := by
  have hascending : Table.Ascending (t.wrapAt (some stored) incoming path) := by
    refine Table.ascending_of_keys incoming.keys ?_ (List.pairwise_map.2 h.ascending)
    rw [Table.keys, t.keys_wrapAt]
    exact List.Sublist.refl _
  refine ⟨hascending, ?_⟩
  obtain ⟨v, hv, hnames⟩ := h.name
  unfold wrapAt
  split
  · exact ⟨v, hv, hnames⟩
  · next head rest _ =>
    rw [t.get?_wrapMember]
    split
    · next hhead =>
      subst hhead
      rw [hv]
      exact ⟨_, rfl, hnames.wrap t hstored.name rest⟩
    · exact ⟨v, hv, hnames⟩

/-- Merging into what may name a global keeps the name that comes in. -/
theorem namesGlobal_mergeLocalized {stored incoming : Record} (hstored : stored.MayNameGlobal P)
    (h : incoming.NamesGlobal P) (paths : List String) :
    (Record.mergeLocalized t (some stored) paths incoming).NamesGlobal P := by
  unfold Record.mergeLocalized
  induction paths generalizing incoming with
  | nil => exact h
  | cons path rest ih => exact ih (t.namesGlobal_wrapAt hstored h path)

end LocaleTarget

namespace Service

variable {P : String → Prop} {s : Service} {c : CompiledEntity} {selection : Option LocaleSelection}

/-- **The content after a patch says which global it belongs to,** as the patch does. -/
theorem namesGlobal_patched {stored patch : Record} (hstored : stored.MayNameGlobal P)
    (hpatch : patch.NamesGlobal P) (status : Status) :
    (s.patched c selection status stored patch).NamesGlobal P := by
  have hincoming : (s.incoming c selection stored patch).NamesGlobal P := by
    unfold incoming
    split
    · exact LocaleTarget.namesGlobal_mergeLocalized _ hstored hpatch.stripEnvelope _
    · exact hpatch.stripEnvelope
  have hinserted : Record.NamesGlobal P
      (Table.insertAll (s.incoming c selection stored patch) stored) := by
    obtain ⟨v, hv, hnames⟩ := hincoming.name
    refine ⟨Table.ascending_insertAll hstored.ascending, v, ?_, hnames⟩
    rw [Table.get?_insertAll hincoming.ascending, hv, Option.some_or]
  unfold patched
  dsimp only
  split
  · exact hinserted.congr (Table.ascending_insert hinserted.ascending)
      ((Table.get?_insert _ _ _ _).trans (if_neg (by decide)))
  · exact hinserted

end Service

end HeadlessCms
