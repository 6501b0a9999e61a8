import HeadlessCms.Proofs.Document.RecordForm
import HeadlessCms.Proofs.Localization.Records
import HeadlessCms.Proofs.Query.Rewriting
import HeadlessCms.Proofs.Store.Numbering
import HeadlessCms.Proofs.Store.Ordering

/-!
# Records with other numbers

The number that the store gives to a record depends on what else has been inserted.  Two records that
differ in nothing but their numbers (`Record.Renumbered`) look alike to every clause that does not ask
for the number, and lists of such records are matched, sorted, replaced and deleted alike as long as
the numbers of both grow (`Store.agree_select`).
-/

namespace HeadlessCms

namespace Record

/-- The same record with another number. -/
def Renumbered (r r' : Record) : Prop :=
  Table.erase sequenceField r = Table.erase sequenceField r'

variable {r r' : Record}

/-- Renumbered records have the same members but for the number. -/
theorem Renumbered.get?_eq (h : r.Renumbered r') {key : String} (hkey : key ≠ sequenceField) :
    Table.get? key r = Table.get? key r' := by
  have hget := congrArg (Table.get? key) h
  rwa [Table.get?_erase, Table.get?_erase, if_neg hkey, if_neg hkey] at hget

/-- Renumbered records show the same. -/
theorem Renumbered.sanitize_eq (h : r.Renumbered r') : sanitize r = sanitize r' :=
  congrArg (Table.erase revisionField) h

/-- Renumbered records have the same id. -/
theorem Renumbered.id?_eq (h : r.Renumbered r') : id? r = id? r' := by
  rw [id?, id?, h.get?_eq (by decide)]

/-- Paths that do not lead to the number reach the same. -/
theorem Renumbered.resolve_eq (h : r.Renumbered r') {path : String}
    (hpath : (Path.segments path).head? ≠ some sequenceField) : resolve r path = resolve r' path := by
  obtain ⟨head, rest, hsegments⟩ := List.exists_cons_of_ne_nil (Path.segments_ne_nil path)
  rw [hsegments] at hpath
  rw [resolve, resolve, hsegments]
  simp only [reachMember_eq, h.get?_eq fun heq => hpath (congrArg some heq)]

end Record

/-! ### Clauses that do not ask for the number -/

namespace Predicate

/-- No path of the clause leads to the number of a record. -/
def IgnoresNumbers (p : Predicate) : Prop :=
  ∀ k ∈ p.leaves, (Path.segments k.path).head? ≠ some Record.sequenceField

variable [PatternEngine] {r r' : Record}

mutual

/-- Records with the same values at all paths of a clause decide it alike, errors included. -/
theorem holds_congr : (p : Predicate) →
    (∀ k ∈ p.leaves, Record.resolve r k.path = Record.resolve r' k.path) → p.holds r = p.holds r'
  | .leaf k, h => by rw [holds_leaf, holds_leaf, Constraint.holds, Constraint.holds, h k (by simp [leaves])]
  | .and children, h => by
    rw [leaves] at h
    rw [holds_and, holds_and, (holdsAll_congr children h).1]
  | .or children, h => by
    rw [leaves] at h
    rw [holds_or, holds_or, (holdsAll_congr children h).2]

/-- Lists of clauses are decided by the values at their paths. -/
theorem holdsAll_congr : (ps : List Predicate) →
    (∀ k ∈ leavesOf ps, Record.resolve r k.path = Record.resolve r' k.path) →
    allHold r ps = allHold r' ps ∧ someHolds r ps = someHolds r' ps
  | [], _ => ⟨rfl, rfl⟩
  | p :: rest, h => by
    rw [leavesOf, List.forall_mem_append] at h
    obtain ⟨hall, hsome⟩ := holdsAll_congr rest h.2
    rw [allHold, allHold, someHolds, someHolds, holds_congr p h.1, hall, hsome]
    exact ⟨rfl, rfl⟩

end

end Predicate

/-- **Clauses that do not ask for the number decide alike.** -/
theorem Record.Renumbered.holdsFor_eq [PatternEngine]
    {r r' : Record} (h : r.Renumbered r') {filter : Option Predicate}
    (hfilter : ∀ p ∈ filter, p.IgnoresNumbers) :
    Predicate.holdsFor filter r = Predicate.holdsFor filter r' := by
  cases filter with
  | none => rfl
  | some p => exact p.holds_congr fun k hk => h.resolve_eq (hfilter p rfl k hk)

/-! ### Lists of records -/

/-- A list is sorted alike by orders that agree on its items. -/
theorem sortStably_congr {α : Type} {precedes precedes' : α → α → Bool} (items : List α)
    (h : ∀ x ∈ items, ∀ y ∈ items, precedes x y = precedes' x y) :
    sortStably precedes items = sortStably precedes' items := by
  have hattach (p : α → α → Bool) : sortStably p items =
      (sortStably (fun x y : { x // x ∈ items } => p x y) items.attach).map Subtype.val := by
    rw [← sortStably_map, List.attach_map_subtype_val]
  have hsame : (fun x y : { x // x ∈ items } => precedes x.1 y.1) = fun x y => precedes' x.1 y.1 :=
    funext fun x => funext fun y => h x.1 x.2 y.1 y.2
  rw [hattach, hattach, hsame]

namespace Store

/-- Lists of renumbered records show the same. -/
theorem map_sanitize_of_forall₂ {records records' : List Record}
    (h : List.Forall₂ Record.Renumbered records records') :
    records.map Record.sanitize = records'.map Record.sanitize := by
  induction h with
  | nil => rfl
  | cons hr _ ih => rw [List.map_cons, List.map_cons, hr.sanitize_eq, ih]

/-- Records of which each has a greater number than those before. -/
def Growing (records : List Record) : Prop :=
  records.Pairwise fun a b =>
    Record.counter Record.sequenceField a < Record.counter Record.sequenceField b

variable {records records' : List Record} {filter : Option Predicate}

/-- **What matches is the same but for the numbers.** -/
theorem agree_matching [PatternEngine] (h : List.Forall₂ Record.Renumbered records records')
    (hfilter : ∀ p ∈ filter, p.IgnoresNumbers) :
    Except.Agree (List.Forall₂ Record.Renumbered) (matching filter records)
      (matching filter records') := by
  induction h with
  | nil => exact .ok .nil
  | @cons r r' rest rest' hr _ ih =>
    rw [matching, matching, hr.holdsFor_eq hfilter]
    cases Predicate.holdsFor filter r' with
    | error e => exact .error _
    | ok keep =>
      dsimp only
      generalize matching filter rest = found at ih
      generalize matching filter rest' = found' at ih
      cases ih with
      | error e => exact .error e
      | ok hmore =>
        refine .ok ?_
        cases keep with
        | true => exact .cons hr hmore
        | false => exact hmore

/-- What a deletion leaves is the same but for the numbers. -/
theorem agree_remaining [PatternEngine] (h : List.Forall₂ Record.Renumbered records records')
    (hfilter : ∀ p ∈ filter, p.IgnoresNumbers) :
    Except.Agree (List.Forall₂ Record.Renumbered) (remaining filter records)
      (remaining filter records') := by
  induction h with
  | nil => exact .ok .nil
  | @cons r r' rest rest' hr _ ih =>
    rw [remaining, remaining, hr.holdsFor_eq hfilter]
    cases Predicate.holdsFor filter r' with
    | error e => exact .error _
    | ok doomed =>
      dsimp only
      generalize remaining filter rest = kept at ih
      generalize remaining filter rest' = kept' at ih
      cases ih with
      | error e => exact .error e
      | ok hmore =>
        refine .ok ?_
        cases doomed with
        | true => exact hmore
        | false => exact .cons hr hmore

/-- The order of two records is that of the same records with other numbers, if these grow alike. -/
theorem compareBy_renumbered {keys : List SortKey} {near : Option (String × Point)}
    (hkeys : ∀ key ∈ keys, (Path.segments key.path).head? ≠ some Record.sequenceField)
    (hnear : ∀ target ∈ near, (Path.segments target.1).head? ≠ some Record.sequenceField)
    {a b a' b' : Record} (ha : a.Renumbered a') (hb : b.Renumbered b')
    (hnumbers : compare (Record.counter Record.sequenceField b) (Record.counter Record.sequenceField a) =
      compare (Record.counter Record.sequenceField b') (Record.counter Record.sequenceField a')) :
    Record.compareBy keys near a b = Record.compareBy keys near a' b' := by
  induction keys with
  | nil =>
    rw [Record.compareBy_nil, Record.compareBy_nil, hnumbers]
    refine congrArg (Ordering.then · _) ?_
    cases near with
    | none => rfl
    | some target =>
      simp only [Record.byDistance, Record.distanceTo, ha.resolve_eq (hnear target rfl),
        hb.resolve_eq (hnear target rfl)]
  | cons key rest ih =>
    have hkey := hkeys key List.mem_cons_self
    rw [Record.compareBy, Record.compareBy, SortKey.compare_eq, SortKey.compare_eq,
      SortKey.value?, SortKey.value?, SortKey.value?, SortKey.value?, ha.resolve_eq hkey,
      hb.resolve_eq hkey, ih fun k hk => hkeys k (List.mem_cons_of_mem _ hk)]

/-- **Records with other numbers are sorted alike,** as long as the numbers of both grow. -/
theorem forall₂_sortStably {keys : List SortKey} {near : Option (String × Point)}
    (hkeys : ∀ key ∈ keys, (Path.segments key.path).head? ≠ some Record.sequenceField)
    (hnear : ∀ target ∈ near, (Path.segments target.1).head? ≠ some Record.sequenceField)
    (h : List.Forall₂ Record.Renumbered records records') (hgrowing : Growing records)
    (hgrowing' : Growing records') :
    List.Forall₂ Record.Renumbered
      (sortStably (fun a b => Record.compareBy keys near a b == .lt) records)
      (sortStably (fun a b => Record.compareBy keys near a b == .lt) records') := by
  -- Both lists are sides of one list of pairs.
  obtain ⟨hlength, hzip⟩ := List.forall₂_iff_zip.1 h
  obtain ⟨pairs, rfl, rfl, hpairs⟩ : ∃ pairs : List (Record × Record), records = pairs.map Prod.fst ∧
      records' = pairs.map Prod.snd ∧ ∀ z ∈ pairs, z.1.Renumbered z.2 :=
    ⟨records.zip records', (List.map_fst_zip hlength.le).symm, (List.map_snd_zip hlength.ge).symm,
      fun z hz => hzip hz⟩
  unfold Growing at hgrowing hgrowing'
  rw [List.pairwise_map] at hgrowing hgrowing'
  let inStep (z w : Record × Record) : Prop :=
    compare (Record.counter Record.sequenceField w.1) (Record.counter Record.sequenceField z.1) =
      compare (Record.counter Record.sequenceField w.2) (Record.counter Record.sequenceField z.2)
  have hnumbers : ∀ z ∈ pairs, ∀ w ∈ pairs, inStep z w := by
    have hboth := hgrowing.and hgrowing'
    refine fun z hz w hw => List.Pairwise.forall_of_forall_of_flip (R := inStep) (fun z _ => ?_)
      (hboth.imp fun {z w} hzw => ?_) (hboth.imp fun {z w} hzw => ?_) hz hw
    · exact (Nat.compare_eq_eq.2 rfl).trans (Nat.compare_eq_eq.2 rfl).symm
    · exact (Nat.compare_eq_gt.2 hzw.1).trans (Nat.compare_eq_gt.2 hzw.2).symm
    · exact (Nat.compare_eq_lt.2 hzw.1).trans (Nat.compare_eq_lt.2 hzw.2).symm
  have hsame := sortStably_congr pairs fun z hz w hw => congrArg (· == Ordering.lt)
    (compareBy_renumbered hkeys hnear (hpairs z hz) (hpairs w hw) (hnumbers z hz w hw))
  rw [sortStably_map, sortStably_map, hsame, List.forall₂_map_left_iff, List.forall₂_map_right_iff,
    List.forall₂_same]
  exact fun z hz => hpairs z (mem_sortStably.1 hz)

/-- The path at which points near another one are asked for is one of the clause. -/
theorem head?_origin? {q : Query} (options : FindOptions) (h : ∀ p ∈ q.filter, p.IgnoresNumbers) :
    ∀ target ∈ origin? q options,
      (Path.segments target.1).head? ≠ some Record.sequenceField := by
  intro target htarget
  unfold origin? at htarget
  split at htarget
  · obtain ⟨p, hp, htarget⟩ := Option.bind_eq_some_iff.1 htarget
    obtain ⟨k, hk, htarget⟩ := List.exists_of_findSome?_eq_some htarget
    split at htarget
    · obtain ⟨_, _, rfl⟩ := Option.map_eq_some_iff.1 htarget
      exact h p hp k hk
    · cases htarget
  · cases htarget

/-- **What is selected is the same but for the numbers,** and stands in the same order. -/
theorem agree_select [PatternEngine] {c c' : Collection} {q : Query} {options : FindOptions}
    (h : List.Forall₂ Record.Renumbered c.records c'.records) (hgrowing : Growing c.records)
    (hgrowing' : Growing c'.records) (hfilter : ∀ p ∈ q.filter, p.IgnoresNumbers)
    (hkeys : ∀ key ∈ options.sort, (Path.segments key.path).head? ≠ some Record.sequenceField) :
    Except.Agree (List.Forall₂ Record.Renumbered) (select c q options) (select c' q options) := by
  have hmatching := agree_matching h hfilter
  unfold select
  generalize hfound : matching q.filter c.records = found at hmatching
  generalize hfound' : matching q.filter c'.records = found' at hmatching
  cases hmatching with
  | error e => exact .error e
  | ok hrelated =>
    refine .ok (forall₂_sortStably hkeys (head?_origin? options hfilter) hrelated ?_ ?_)
    · rw [eq_filter_of_matching hfound]
      exact hgrowing.filter _
    · rw [eq_filter_of_matching hfound']
      exact hgrowing'.filter _

/-! ### What is stored -/

variable {id : String} {record : Record}

/-- Records that are stamped with different numbers are renumbered. -/
theorem renumbered_stamp (hrecord : Table.Ascending record) (sequence sequence' revision : Nat) :
    (stamp id sequence revision record).Renumbered (stamp id sequence' revision record) := by
  refine Table.ext (Table.ascending_erase (ascending_stamp hrecord))
    (Table.ascending_erase (ascending_stamp hrecord)) fun key => ?_
  rw [Table.get?_erase, Table.get?_erase]
  split
  · rfl
  · next hkey => simp only [stamp, Table.get?_insert, if_neg hkey]

/-- A record is revised alike under every number. -/
theorem renumbered_revise (hrecord : Table.Ascending record) {r r' : Record} (h : r.Renumbered r') :
    (revise r id record).Renumbered (revise r' id record) := by
  have hrevision : Record.counter Record.revisionField r = Record.counter Record.revisionField r' := by
    rw [Record.counter, Record.counter, h.get?_eq (by decide)]
  rw [revise, revise, hrevision]
  exact renumbered_stamp hrecord _ _ _

/-- In lists of renumbered records the same ones are replaced. -/
theorem forall₂_replaceFirst (hrecord : Table.Ascending record)
    (h : List.Forall₂ Record.Renumbered records records') :
    List.Forall₂ Record.Renumbered (replaceFirst id record records)
      (replaceFirst id record records') := by
  induction h with
  | nil => exact .nil
  | cons hr hrest ih =>
    rw [replaceFirst, replaceFirst, hr.id?_eq]
    split
    · exact .cons (renumbered_revise hrecord hr) hrest
    · exact .cons hr ih

end Store

end HeadlessCms
