import HeadlessCms.Proofs.Document.RecordForm
import HeadlessCms.Proofs.Store.Selection

/-!
# What a collection holds

A collection holds items if it has one record for each of them, in their order, that is shown as the
record of the item (`Store.Holds`).  Each operation of the store is described by what it does to the
items: look-ups find items (`Holds.findOne_unique`, `Holds.findOne_newest`, `Holds.find_newest`), an
insertion adds one at the end (`Holds.insert`), an update puts one in the place of another
(`Holds.update`) and a deletion takes the accepted ones away (`Holds.deleteMany`).  All of them leave
the other collections alone.
-/

namespace HeadlessCms

open Time (Instant)

namespace Store

variable {α : Type}

/-- A collection holds items, one record for each of them. -/
def Holds (s : Store) (name : String) (paths : List String) (f : α → Record) (items : List α) :
    Prop :=
  ∃ records, Table.get? name s.collections = some ⟨records, paths⟩ ∧
    List.Forall₂ (fun r x => Record.sanitize r = f x) records items

/-- Two stores have the same collections but for one. -/
def SameBut (name : String) (s s' : Store) : Prop :=
  ∀ other, other ≠ name → Table.get? other s'.collections = Table.get? other s.collections

theorem SameBut.refl (name : String) (s : Store) : SameBut name s s :=
  fun _ _ => rfl

/-- The names of the collections of a store. -/
theorem sameBut_withRecords (s : Store) (name : String) (c : Collection) (records : List Record) :
    SameBut name s (s.withRecords name c records) := by
  intro other hother
  simp [withRecords, Table.get?_insert, hother]

/-- The collection is found with its new records and its old paths. -/
theorem get?_withRecords (s : Store) (name : String) (c : Collection) (records : List Record) :
    Table.get? name (s.withRecords name c records).collections =
      some ⟨records, c.localizedPaths⟩ := by
  simp [withRecords, Table.get?_insert]

namespace Holds

variable {s : Store} {name : String} {paths : List String} {f : α → Record} {items : List α}

/-- What happens to other collections does not matter. -/
theorem of_sameBut {s' : Store} {other : String} (h : s.Holds name paths f items)
    (hsame : SameBut other s s') (hne : name ≠ other) : s'.Holds name paths f items := by
  obtain ⟨records, hget, hrel⟩ := h
  exact ⟨records, (hsame name hne).trans hget, hrel⟩

/-- A query of a held collection asks for the stored paths of its clause. -/
theorem buildQuery (h : s.Holds name paths f items) (clause : Option Predicate)
    (locale : Option String) :
    s.buildQuery name clause locale =
      .ok ⟨name, clause.map (·.mapPaths (storedPath paths locale)), locale⟩ := by
  obtain ⟨records, hget, _⟩ := h
  exact buildQuery_of_get? hget clause locale

/-! ### Looking up -/

variable {accepts : α → Bool}

/-- **A clause that accepts at most one item finds it.** -/
theorem findOne_unique [PatternEngine] (h : s.Holds name paths f items) {filter : Option Predicate}
    (hdecides : ∀ r x, x ∈ items → Record.sanitize r = f x →
      Predicate.holdsFor filter r = .ok (accepts x))
    (hone : (items.filter accepts).length ≤ 1) (locale : Option String) (sort : List SortKey) :
    s.findOne ⟨name, filter, locale⟩ (.sortedBy sort) = .ok ((items.find? accepts).map f) := by
  obtain ⟨records, hget, hrel⟩ := h
  obtain ⟨found, hfound, hshown⟩ := select_unique (c := ⟨records, paths⟩)
    (q := ⟨name, filter, locale⟩) (.sortedBy sort) hrel hdecides hone
  rw [findOne_of_select hget hfound, ← List.head?_filter]
  generalize items.filter accepts = chosen at hshown
  cases hshown with
  | nil => rfl
  | cons hr _ => exact congrArg (fun r => Except.ok (some r)) hr

/-- **The newest of the accepted items is found,** if they were changed one after the other. -/
theorem findOne_newest [PatternEngine]
    {time : α → Instant} {filter : Option Predicate} {options : FindOptions}
    (h : s.Holds name paths f items) (hsort : options.sort = [.desc "updatedAt"])
    (hlean : options.lean = true)
    (hdecides : ∀ r x, x ∈ items → Record.sanitize r = f x →
      Predicate.holdsFor filter r = .ok (accepts x))
    (htime : ∀ r x, Record.sanitize r = f x → Record.resolve r "updatedAt" = [.ofInstant (time x)])
    (hprint : ∀ x ∈ items, (time x).Printable)
    (hnewer : items.Pairwise fun x y => (time x).isBefore (time y) = true)
    (locale : Option String) :
    ∃ found, s.findOne ⟨name, filter, locale⟩ options = .ok found ∧
      found.map Record.sanitize = (items.filter accepts).getLast?.map f := by
  obtain ⟨records, hget, hrel⟩ := h
  obtain ⟨found, hfound, hshown⟩ := select_newestFirst (c := ⟨records, paths⟩)
    (q := ⟨name, filter, locale⟩) hsort hrel hdecides htime hprint hnewer
  refine ⟨_, findOne_of_select hget hfound, ?_⟩
  rw [← List.head?_reverse]
  have hpresent : ∀ r, present options r = r := fun r => by simp [present, hlean]
  generalize (items.filter accepts).reverse = newest at hshown
  cases hshown with
  | nil => rfl
  | cons hr _ => simp [hpresent, hr]

/-- Records that show items one by one show the list of them. -/
theorem shown_eq_map {records : List Record} {items : List α}
    (h : List.Forall₂ (fun r x => Record.sanitize r = f x) records items) :
    records.map Record.sanitize = items.map f := by
  induction h with
  | nil => rfl
  | cons hr _ ih => simp [hr, ih]

/-- All accepted items are found, newest first. -/
theorem find_newest [PatternEngine] {time : α → Instant} {filter : Option Predicate}
    (h : s.Holds name paths f items)
    (hdecides : ∀ r x, x ∈ items → Record.sanitize r = f x →
      Predicate.holdsFor filter r = .ok (accepts x))
    (htime : ∀ r x, Record.sanitize r = f x → Record.resolve r "updatedAt" = [.ofInstant (time x)])
    (hprint : ∀ x ∈ items, (time x).Printable)
    (hnewer : items.Pairwise fun x y => (time x).isBefore (time y) = true)
    (locale : Option String) :
    ∃ page, s.find ⟨name, filter, locale⟩ (.sortedBy [.desc "updatedAt"]) none = .ok page ∧
      page.docs = (items.filter accepts).reverse.map f := by
  obtain ⟨records, hget, hrel⟩ := h
  obtain ⟨found, hfound, hshown⟩ := select_newestFirst (c := ⟨records, paths⟩)
    (q := ⟨name, filter, locale⟩) (show (FindOptions.sortedBy _).sort = [.desc "updatedAt"] from rfl)
    hrel hdecides htime hprint hnewer
  exact ⟨_, find_of_select hget hfound rfl none, shown_eq_map hshown⟩

/-! ### Changing -/

/-- **An insertion adds an item at the end.** -/
theorem insert {ids : Nat → String} {key : α → String} {record : Record} {x : α}
    (h : s.Holds name paths f items)
    (hkey : ∀ r y, y ∈ items → Record.sanitize r = f y → Record.id? r = some (key y))
    (hnew : ∀ y ∈ items, key y ≠ ids s.drawn) (hid : Record.id? record = none)
    (hx : ∀ sequence revision,
      Record.sanitize (stamp (ids s.drawn) sequence revision record) = f x) :
    ∃ s', s.insert ids name record = (.ok (f x), s') ∧ s'.Holds name paths f (items ++ [x]) ∧
      SameBut name s s' ∧ s'.drawn = s.drawn + 1 := by
  obtain ⟨records, hget, hrel⟩ := h
  have hfree : records.any (Record.id? · == some (ids s.drawn)) = false := by
    rw [List.any_eq_false]
    intro r hr
    obtain ⟨y, hy, hry⟩ := exists_item_of_mem hrel hr
    simpa [hkey r y hy hry] using hnew y hy
  simp only [Store.insert, hget, hid, hfree, hx]
  refine ⟨_, rfl, ⟨_, get?_withRecords _ name ⟨records, paths⟩ _, ?_⟩,
    sameBut_withRecords _ name _ _, rfl⟩
  exact List.rel_append hrel (.cons (hx _ _) .nil)

/-- The items with another one in the place of the first that has a key. -/
def replaceItem (key : α → String) (id : String) (x : α) : List α → List α
  | [] => []
  | y :: rest => if key y = id then x :: rest else y :: replaceItem key id x rest

/-- Replacing the record of an id replaces the item with that key. -/
theorem replaceFirst_forall₂ {key : α → String} {record : Record} {id : String} {x : α}
    {records : List Record} (h : List.Forall₂ (fun r x => Record.sanitize r = f x) records items)
    (hkey : ∀ r y, y ∈ items → Record.sanitize r = f y → Record.id? r = some (key y))
    (hx : ∀ sequence revision, Record.sanitize (stamp id sequence revision record) = f x) :
    List.Forall₂ (fun r x => Record.sanitize r = f x) (replaceFirst id record records)
      (replaceItem key id x items) := by
  induction h with
  | nil => exact .nil
  | @cons r y records items hr hrest ih =>
    have hid := hkey r y List.mem_cons_self hr
    have ih := ih fun r z hz => hkey r z (List.mem_cons_of_mem _ hz)
    simp only [replaceFirst, replaceItem, hid, Option.some.injEq]
    split
    · exact .cons (hx _ _) hrest
    · exact .cons hr ih

/-- **An update puts an item in the place of another.** -/
theorem update {key : α → String} {record : Record} {id : String} {x : α}
    (h : s.Holds name paths f items)
    (hkey : ∀ r y, y ∈ items → Record.sanitize r = f y → Record.id? r = some (key y))
    (hold : ∃ y ∈ items, key y = id)
    (hx : ∀ sequence revision, Record.sanitize (stamp id sequence revision record) = f x) :
    ∃ s', s.update name id record = (.ok (f x), s') ∧
      s'.Holds name paths f (replaceItem key id x items) ∧ SameBut name s s' ∧
      s'.drawn = s.drawn := by
  obtain ⟨records, hget, hrel⟩ := h
  obtain ⟨existing, hexisting⟩ :
      ∃ existing, records.find? (Record.id? · == some id) = some existing := by
    rw [← Option.isSome_iff_exists, List.find?_isSome]
    obtain ⟨y, hy, hyid⟩ := hold
    obtain ⟨r, hr, hry⟩ := exists_item_of_mem hrel.flip hy
    exact ⟨r, hr, by simp [hkey r y hy hry, hyid]⟩
  simp only [Store.update, hget, hexisting, revise, hx]
  exact ⟨_, rfl, ⟨_, get?_withRecords _ name ⟨records, paths⟩ _, replaceFirst_forall₂ hrel hkey hx⟩,
    sameBut_withRecords _ name _ _, rfl⟩

/-- **A deletion takes the accepted items away.** -/
theorem deleteMany [PatternEngine] (h : s.Holds name paths f items) {filter : Option Predicate}
    (hdecides : ∀ r x, x ∈ items → Record.sanitize r = f x →
      Predicate.holdsFor filter r = .ok (accepts x)) (locale : Option String) :
    ∃ count s', s.deleteMany ⟨name, filter, locale⟩ = (.ok count, s') ∧
      s'.Holds name paths f (items.filter (!accepts ·)) ∧ SameBut name s s' ∧
      s'.drawn = s.drawn := by
  obtain ⟨records, hget, hrel⟩ := h
  obtain ⟨kept, hkept, hshown⟩ := remaining_forall₂ hrel hdecides
  simp only [Store.deleteMany, hget, hkept]
  exact ⟨_, _, rfl, ⟨_, get?_withRecords _ name ⟨records, paths⟩ _, hshown⟩,
    sameBut_withRecords _ name _ _, rfl⟩

end Holds

end Store

end HeadlessCms
