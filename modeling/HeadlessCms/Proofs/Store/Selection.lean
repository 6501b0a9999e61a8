import HeadlessCms.Proofs.Except
import HeadlessCms.Proofs.Query.Matching
import HeadlessCms.Store.Basic
import Mathlib.Data.List.Forall2

/-!
# What a query selects

The records of a collection stand for items of some kind, one record for one item.  A clause that is
decided on every record selects the records of the items that it accepts (`Store.matching_forall₂`),
and deletes the others' (`Store.remaining_forall₂`).  Results come in the order asked for: items whose
time of the last change grows from record to record come back to front (`Store.select_newestFirst`).
-/

namespace HeadlessCms

open Time (Instant)

variable {α : Type}

/-! ### Sorting -/

@[simp] theorem sortStably_nil (precedes : α → α → Bool) : sortStably precedes [] = [] := rfl

@[simp] theorem sortStably_singleton (precedes : α → α → Bool) (x : α) :
    sortStably precedes [x] = [x] := rfl

/-- Placing an item adds it to the list. -/
theorem perm_placeBackwards (precedes : α → α → Bool) (x : α) (sorted : List α) :
    (placeBackwards precedes x sorted).Perm (x :: sorted) := by
  induction sorted with
  | nil => exact List.Perm.refl _
  | cons y rest ih =>
    unfold placeBackwards
    split
    · exact (ih.cons y).trans (List.Perm.swap x y rest)
    · exact List.Perm.refl _

/-- **Sorting neither adds nor loses items.** -/
theorem perm_sortStably (precedes : α → α → Bool) (items : List α) :
    (sortStably precedes items).Perm items := by
  have hfold : ∀ placed : List α, (items.foldl
      (fun sorted x => placeBackwards precedes x sorted) placed).Perm (placed ++ items) := by
    induction items with
    | nil =>
      intro placed
      rw [List.append_nil]
      exact List.Perm.refl _
    | cons x rest ih =>
      intro placed
      have hplaced := (perm_placeBackwards precedes x placed).append_right rest
      exact (ih _).trans (hplaced.trans List.perm_middle.symm)
  exact (List.reverse_perm _).trans (hfold [])

/-- Sorting neither adds items nor loses any. -/
theorem mem_sortStably {precedes : α → α → Bool} {y : α} {items : List α} :
    y ∈ sortStably precedes items ↔ y ∈ items :=
  (perm_sortStably precedes items).mem_iff

/-- Placing an item that can be compared with all others leaves the list in order. -/
theorem pairwise_placeBackwards {precedes : α → α → Bool}
    (htrans : ∀ x y z, precedes x y = true → precedes y z = true → precedes x z = true) {x : α}
    {sorted : List α} (hx : ∀ y ∈ sorted, precedes x y = true ∨ precedes y x = true)
    (hsorted : sorted.Pairwise fun y z => precedes z y = true) :
    (placeBackwards precedes x sorted).Pairwise fun y z => precedes z y = true := by
  induction sorted with
  | nil => exact List.pairwise_singleton _ _
  | cons y rest ih =>
    obtain ⟨hy, hrest⟩ := List.pairwise_cons.1 hsorted
    unfold placeBackwards
    split
    · next hxy =>
      refine List.pairwise_cons.2 ⟨?_, ih (fun z hz => hx z (List.mem_cons_of_mem _ hz)) hrest⟩
      intro z hz
      cases List.mem_cons.1 ((perm_placeBackwards precedes x rest).mem_iff.1 hz) with
      | inl heq => exact heq ▸ hxy
      | inr hz => exact hy z hz
    · next hxy =>
      have hyx : precedes y x = true := (hx y List.mem_cons_self).resolve_left hxy
      refine List.pairwise_cons.2 ⟨?_, hsorted⟩
      intro z hz
      cases List.mem_cons.1 hz with
      | inl heq => exact heq ▸ hyx
      | inr hz => exact htrans z y x (hy z hz) hyx

/-- **Items of which of any two one precedes the other are put in order.** -/
theorem pairwise_sortStably {precedes : α → α → Bool} {items : List α}
    (htrans : ∀ x y z, precedes x y = true → precedes y z = true → precedes x z = true)
    (htotal : items.Pairwise fun x y => precedes x y = true ∨ precedes y x = true) :
    (sortStably precedes items).Pairwise fun x y => precedes x y = true := by
  -- The list of placed items is kept from the last to the first one.
  have hfold : ∀ placed : List α, placed.Pairwise (fun y z => precedes z y = true) →
      (∀ x ∈ items, ∀ y ∈ placed, precedes x y = true ∨ precedes y x = true) →
      (items.foldl (fun sorted x => placeBackwards precedes x sorted) placed).Pairwise
        fun y z => precedes z y = true := by
    induction items with
    | nil => exact fun placed hplaced _ => hplaced
    | cons x rest ih =>
      intro placed hplaced hboth
      obtain ⟨hx, hrest⟩ := List.pairwise_cons.1 htotal
      apply ih hrest _ (pairwise_placeBackwards htrans (hboth x List.mem_cons_self) hplaced)
      intro z hz y hy
      cases List.mem_cons.1 ((perm_placeBackwards precedes x placed).mem_iff.1 hy) with
      | inl heq => exact heq ▸ (hx z hz).symm
      | inr hy => exact hboth z (List.mem_cons_of_mem _ hz) y hy
  exact List.pairwise_reverse.2 (hfold [] List.Pairwise.nil fun _ _ _ hy => absurd hy List.not_mem_nil)

/-- Records of items are sorted as the items are. -/
theorem sortStably_map {β : Type} (precedes : β → β → Bool) (f : α → β) (items : List α) :
    sortStably precedes (items.map f) =
      (sortStably (fun x y => precedes (f x) (f y)) items).map f := by
  have hplace (x : α) (sorted : List α) : placeBackwards precedes (f x) (sorted.map f) =
      (placeBackwards (fun x y => precedes (f x) (f y)) x sorted).map f := by
    induction sorted with
    | nil => rfl
    | cons y rest ih =>
      rw [List.map_cons, placeBackwards, placeBackwards, ih]
      split <;> rfl
  have hfold : ∀ placed : List α,
      (items.map f).foldl (fun sorted x => placeBackwards precedes x sorted) (placed.map f) =
        (items.foldl (fun sorted x => placeBackwards (fun x y => precedes (f x) (f y)) x sorted)
          placed).map f := by
    induction items with
    | nil => exact fun _ => rfl
    | cons x rest ih =>
      intro placed
      rw [List.map_cons, List.foldl_cons, List.foldl_cons, hplace, ih]
  rw [sortStably, sortStably, List.map_reverse]
  exact congrArg List.reverse (hfold [])

/-- What comes before all others is placed at the end of the list, which is in reverse order. -/
theorem placeBackwards_eq_append {precedes : α → α → Bool} {x : α} {sorted : List α}
    (h : ∀ y ∈ sorted, precedes x y = true) : placeBackwards precedes x sorted = sorted ++ [x] := by
  induction sorted with
  | nil => rfl
  | cons y rest ih =>
    have hy : precedes x y = true := h y List.mem_cons_self
    have hrest := ih fun z hz => h z (List.mem_cons_of_mem _ hz)
    simp [placeBackwards, hy, hrest]

/-- **A list in which each item precedes those before it is turned round.** -/
theorem sortStably_eq_reverse {precedes : α → α → Bool} {items : List α}
    (h : items.Pairwise fun a b => precedes b a = true) :
    sortStably precedes items = items.reverse := by
  -- The list is sorted from the left; `placed` is what has been sorted so far.
  have hfold : ∀ placed rest : List α,
      (placed ++ rest).Pairwise (fun a b => precedes b a = true) →
      rest.foldl (fun sorted x => placeBackwards precedes x sorted) placed = placed ++ rest := by
    intro placed rest
    induction rest generalizing placed with
    | nil => intro _; simp
    | cons x rest ih =>
      intro hpair
      have hx : ∀ y ∈ placed, precedes x y = true := fun y hy =>
        (List.pairwise_append.1 hpair).2.2 y hy x List.mem_cons_self
      have hstep : placed ++ x :: rest = (placed ++ [x]) ++ rest := by simp
      rw [List.foldl_cons, placeBackwards_eq_append hx, hstep]
      exact ih (placed ++ [x]) (hstep ▸ hpair)
  have := hfold [] items (by simpa using h)
  simp [sortStably, this]

/-- The first in order stays at the end while nothing comes before it. -/
theorem getLast?_placeBackwards {precedes : α → α → Bool} {x m : α} {sorted : List α}
    (hx : precedes x m = false) (h : sorted.getLast? = some m) :
    (placeBackwards precedes x sorted).getLast? = some m := by
  induction sorted with
  | nil => cases h
  | cons y rest ih =>
    cases rest with
    | nil =>
      have hym : y = m := by simpa using h
      rw [hym]
      simp [placeBackwards, hx]
    | cons z more =>
      rw [List.getLast?_cons_cons] at h
      unfold placeBackwards
      split
      · -- The list behind the first item still ends in `m`, so it is not empty.
        have hrest := ih h
        cases hplaced : placeBackwards precedes x (z :: more) with
        | nil =>
          rw [hplaced] at hrest
          cases hrest
        | cons w ws =>
          rw [List.getLast?_cons_cons, ← hplaced]
          exact hrest
      · rw [List.getLast?_cons_cons, List.getLast?_cons_cons]
        exact h

/-- **What precedes all items before it, and is preceded by none behind it, comes first.** -/
theorem head?_sortStably {precedes : α → α → Bool} {m : α} {before after : List α}
    (hbefore : ∀ y ∈ before, precedes m y = true) (hafter : ∀ y ∈ after, precedes y m = false) :
    (sortStably precedes (before ++ m :: after)).head? = some m := by
  -- Once `m` has been placed it is the last in reverse order, and it stays there.
  have hstays (placed : List α) (hplaced : placed.getLast? = some m) :
      (after.foldl (fun sorted x => placeBackwards precedes x sorted) placed).getLast? = some m := by
    induction after generalizing placed with
    | nil => exact hplaced
    | cons y rest ih =>
      have hrest := ih fun z hz => hafter z (List.mem_cons_of_mem _ hz)
      exact hrest _ (getLast?_placeBackwards (hafter y List.mem_cons_self) hplaced)
  have hmem : ∀ y ∈ before.foldl (fun sorted x => placeBackwards precedes x sorted) [],
      precedes m y = true := by
    intro y hy
    have hsorted : y ∈ sortStably precedes before := List.mem_reverse.2 hy
    exact hbefore y (mem_sortStably.1 hsorted)
  rw [sortStably, List.head?_reverse, List.foldl_append, List.foldl_cons,
    placeBackwards_eq_append hmem]
  apply hstays
  rw [List.getLast?_append, List.getLast?_singleton]
  rfl

namespace SortKey

/-- Records come latest first under the descending key of a time, however the time is written. -/
theorem compare_desc_times {path : String} {textA textB : String} {s t : Instant} {a b : Record}
    (ha : Record.resolve a path = [.str textA]) (hs : Time.readStrict? textA = some s)
    (hb : Record.resolve b path = [.str textB]) (ht : Time.readStrict? textB = some t) :
    (SortKey.desc path).compare a b = t.order s := by
  rw [← Instant.order_swap s t]
  simp [SortKey.compare, SortKey.desc, ha, hb, compareValues_times hs ht]

/-- Records with printed times come latest first under the descending key of the time. -/
theorem compare_desc_instant {path : String} {s t : Instant} {a b : Record}
    (ha : Record.resolve a path = [.ofInstant s]) (hb : Record.resolve b path = [.ofInstant t])
    (hs : s.Printable) (ht : t.Printable) (h : t.isBefore s = true) :
    (SortKey.desc path).compare a b = .lt := by
  rw [compare_desc_times ha (Time.readStrict?_write hs) hb (Time.readStrict?_write ht)]
  exact beq_iff_eq.1 h

end SortKey

/-! ### Records that stand for items -/

/-- Each record stands for one of the items. -/
theorem exists_item_of_mem {β : Type} {R : β → α → Prop} {records : List β} {items : List α}
    (h : List.Forall₂ R records items) {r : β} (hr : r ∈ records) : ∃ x ∈ items, R r x := by
  induction h with
  | nil => simp at hr
  | cons hrx _ ih =>
    rcases List.mem_cons.1 hr with rfl | hr
    · exact ⟨_, List.mem_cons_self, hrx⟩
    · obtain ⟨x, hx, hrx⟩ := ih hr
      exact ⟨x, List.mem_cons_of_mem _ hx, hrx⟩

/-- A relation along two lists carries an order of the items over to the records. -/
theorem pairwise_of_forall₂ {R : Record → α → Prop} {S : α → α → Prop} {T : Record → Record → Prop}
    {records : List Record} {items : List α} (h : List.Forall₂ R records items)
    (hT : ∀ {a b x y}, R a x → R b y → S x y → T a b) (hitems : items.Pairwise S) :
    records.Pairwise T := by
  induction h with
  | nil => exact List.Pairwise.nil
  | @cons r x records items hr hrest ih =>
    obtain ⟨hx, hpair⟩ := List.pairwise_cons.1 hitems
    refine List.pairwise_cons.2 ⟨fun r' hr' => ?_, ih hpair⟩
    obtain ⟨y, hy, hry⟩ := exists_item_of_mem hrest hr'
    exact hT hr hry (hx y hy)

variable [PatternEngine]

/-- Whether a clause that may be absent is decided in favour of a record. -/
def Predicate.selects (filter : Option Predicate) (record : Record) : Bool :=
  (holdsFor filter record).toOption.getD false

/-- A clause selects the records that it is decided to hold of. -/
theorem Predicate.selects_iff {filter : Option Predicate} {record : Record} :
    selects filter record = true ↔ holdsFor filter record = .ok true := by
  unfold selects
  cases holdsFor filter record with
  | error e => simp [Except.toOption]
  | ok b => simp [Except.toOption]

namespace Store

variable {R : Record → α → Prop} {filter : Option Predicate} {accepts : α → Bool}
  {records : List Record} {items : List α}

/-- **A clause that is decided everywhere selects the records of the accepted items.** -/
theorem matching_forall₂ (h : List.Forall₂ R records items)
    (hdecides : ∀ r x, x ∈ items → R r x → Predicate.holdsFor filter r = .ok (accepts x)) :
    ∃ found, matching filter records = .ok found ∧
      List.Forall₂ R found (items.filter accepts) := by
  induction h with
  | nil => exact ⟨[], rfl, .nil⟩
  | @cons r x records items hr _ ih =>
    obtain ⟨found, hfound, hrel⟩ := ih fun r y hy => hdecides r y (List.mem_cons_of_mem _ hy)
    have hhere := hdecides r x List.mem_cons_self hr
    refine ⟨if accepts x then r :: found else found, ?_, ?_⟩
    · simp [matching, hhere, hfound, bind, Except.bind]
    · cases hx : accepts x with
      | true => simpa [hx] using ⟨hr, hrel⟩
      | false => simpa [hx] using hrel

/-- **What is deleted are the records of the accepted items.** -/
theorem remaining_forall₂ (h : List.Forall₂ R records items)
    (hdecides : ∀ r x, x ∈ items → R r x → Predicate.holdsFor filter r = .ok (accepts x)) :
    ∃ kept, remaining filter records = .ok kept ∧
      List.Forall₂ R kept (items.filter (!accepts ·)) := by
  induction h with
  | nil => exact ⟨[], rfl, .nil⟩
  | @cons r x records items hr _ ih =>
    obtain ⟨kept, hkept, hrel⟩ := ih fun r y hy => hdecides r y (List.mem_cons_of_mem _ hy)
    have hhere := hdecides r x List.mem_cons_self hr
    refine ⟨if accepts x then kept else r :: kept, ?_, ?_⟩
    · simp [remaining, hhere, hkept, bind, Except.bind]
    · cases hx : accepts x with
      | true => simpa [hx] using hrel
      | false => simpa [hx] using ⟨hr, hrel⟩

/-- What matches is there and satisfies the clause. -/
theorem mem_matching {found : List Record} (h : matching filter records = .ok found) {r : Record}
    (hr : r ∈ found) : r ∈ records ∧ Predicate.holdsFor filter r = .ok true := by
  induction records generalizing found with
  | nil =>
    cases h
    simp at hr
  | cons x rest ih =>
    unfold matching at h
    cases hx : Predicate.holdsFor filter x with
    | error e => simp [hx] at h
    | ok keep =>
      simp only [hx] at h
      obtain ⟨more, hmore, h⟩ := Except.bind_eq_ok_iff.1 h
      cases h
      cases keep with
      | false => exact ⟨List.mem_cons_of_mem _ (ih hmore hr).1, (ih hmore hr).2⟩
      | true =>
        rcases List.mem_cons.1 hr with rfl | hr
        · exact ⟨List.mem_cons_self, hx⟩
        · exact ⟨List.mem_cons_of_mem _ (ih hmore hr).1, (ih hmore hr).2⟩

/-- **A selection that does not fail keeps what the clause selects,** in its order. -/
theorem eq_filter_of_matching {found : List Record} (h : matching filter records = .ok found) :
    found = records.filter (Predicate.selects filter) := by
  induction records generalizing found with
  | nil =>
    cases h
    rfl
  | cons x rest ih =>
    unfold matching at h
    cases hhere : Predicate.holdsFor filter x with
    | error e => simp [hhere] at h
    | ok keep =>
      simp only [hhere] at h
      obtain ⟨more, hmore, h⟩ := Except.bind_eq_ok_iff.1 h
      cases h
      have hx : Predicate.selects filter x = keep := by
        rw [Predicate.selects, hhere]
        rfl
      rw [List.filter_cons, hx, ← ih hmore]

/-- A selection that does not fail has decided the clause on every record. -/
theorem holdsFor_of_matching {found : List Record} (h : matching filter records = .ok found) :
    ∀ r ∈ records, Predicate.holdsFor filter r = .ok (Predicate.selects filter r) := by
  induction records generalizing found with
  | nil => exact fun _ hr => absurd hr List.not_mem_nil
  | cons x rest ih =>
    unfold matching at h
    cases hhere : Predicate.holdsFor filter x with
    | error e => simp [hhere] at h
    | ok keep =>
      simp only [hhere] at h
      obtain ⟨more, hmore, h⟩ := Except.bind_eq_ok_iff.1 h
      refine List.forall_mem_cons.2 ⟨?_, ih hmore⟩
      rw [Predicate.selects, hhere]
      rfl

/-- **A deletion that does not fail leaves what the clause does not select,** in its order. -/
theorem eq_filter_of_remaining {kept : List Record} (h : remaining filter records = .ok kept) :
    (∀ r ∈ records, ∃ keep, Predicate.holdsFor filter r = .ok keep) ∧
      kept = records.filter (!Predicate.selects filter ·) := by
  induction records generalizing kept with
  | nil =>
    cases h
    exact ⟨by simp, rfl⟩
  | cons x rest ih =>
    unfold remaining at h
    cases hhere : Predicate.holdsFor filter x with
    | error e => simp [hhere] at h
    | ok doomed =>
      simp only [hhere] at h
      obtain ⟨more, hmore, h⟩ := Except.bind_eq_ok_iff.1 h
      obtain ⟨hrest, hkept⟩ := ih hmore
      cases h
      have hx : Predicate.selects filter x = doomed := by
        rw [Predicate.selects, hhere]
        rfl
      refine ⟨List.forall_mem_cons.2 ⟨⟨doomed, hhere⟩, hrest⟩, ?_⟩
      rw [List.filter_cons, hx, ← hkept]
      cases doomed <;> rfl

variable {c : Collection} {q : Query}

/-- **What is selected is there and satisfies the filter.** -/
theorem mem_select {options : FindOptions} {found : List Record} (h : select c q options = .ok found)
    {r : Record} (hr : r ∈ found) :
    r ∈ c.records ∧ Predicate.holdsFor q.filter r = .ok true := by
  obtain ⟨matched, hmatched, h⟩ := Except.bind_eq_ok_iff.1 h
  cases h
  exact mem_matching hmatched (mem_sortStably.1 hr)

omit [PatternEngine] in
/-- A page shows items of the list. -/
theorem mem_slice {items : List α} {pagination : Option Pagination} {x : α}
    (h : x ∈ slice items pagination) : x ∈ items := by
  unfold slice at h
  split at h
  · exact List.mem_of_mem_drop (List.mem_of_mem_take h)
  · exact h

/-- At most one result needs no order. -/
theorem select_unique (options : FindOptions) (h : List.Forall₂ R c.records items)
    (hdecides : ∀ r x, x ∈ items → R r x → Predicate.holdsFor q.filter r = .ok (accepts x))
    (hone : (items.filter accepts).length ≤ 1) :
    ∃ found, select c q options = .ok found ∧ List.Forall₂ R found (items.filter accepts) := by
  obtain ⟨found, hfound, hrel⟩ := matching_forall₂ h hdecides
  refine ⟨found, ?_, hrel⟩
  have hlength : found.length ≤ 1 := hrel.length_eq ▸ hone
  rw [select, hfound]
  match found, hlength with
  | [], _ => rfl
  | [r], _ => rfl

/-- **Results are shown newest first,** if they were changed one after the other. -/
theorem select_newestFirst {time : α → Instant} {options : FindOptions}
    (hsort : options.sort = [.desc "updatedAt"]) (h : List.Forall₂ R c.records items)
    (hdecides : ∀ r x, x ∈ items → R r x → Predicate.holdsFor q.filter r = .ok (accepts x))
    (htime : ∀ r x, R r x → Record.resolve r "updatedAt" = [.ofInstant (time x)])
    (hprint : ∀ x ∈ items, (time x).Printable)
    (hnewer : items.Pairwise fun x y => (time x).isBefore (time y) = true) :
    ∃ found, select c q options = .ok found ∧
      List.Forall₂ R found (items.filter accepts).reverse := by
  obtain ⟨found, hfound, hrel⟩ := matching_forall₂ h hdecides
  refine ⟨found.reverse, ?_, List.rel_reverse hrel⟩
  have hpair : found.Pairwise fun a b =>
      (Record.compareBy options.sort none b a == .lt) = true := by
    have hitems : (items.filter accepts).Pairwise fun x y =>
        (x ∈ items ∧ y ∈ items) ∧ (time x).isBefore (time y) = true := by
      refine (hnewer.filter accepts).imp_of_mem fun {x y} hx hy hxy => ?_
      exact ⟨⟨(List.mem_filter.1 hx).1, (List.mem_filter.1 hy).1⟩, hxy⟩
    refine pairwise_of_forall₂ hrel (fun {a b x y} ha hb hxy => ?_) hitems
    have hlt := SortKey.compare_desc_instant (htime b y hb) (htime a x ha)
      (hprint y hxy.1.2) (hprint x hxy.1.1) hxy.2
    simp [hsort, Record.compareBy, hlt, Ordering.then]
  have hnone : (if options.sort.isEmpty then q.filter.bind Predicate.nearOrigin? else none)
      = none := by simp [hsort]
  simp only [select, hfound, hnone, bind, Except.bind, sortStably_eq_reverse hpair]

/-- The first of the selected records is found. -/
theorem findOne_of_select {s : Store} {options : FindOptions} {found : List Record}
    (hc : Table.get? q.collection s.collections = some c) (hsel : select c q options = .ok found) :
    s.findOne q options = .ok (found.head?.map (present options)) := by
  simp [findOne, collection?, hc, hsel, bind, Except.bind]

/-- What has been selected is shown page by page. -/
theorem find_eq_of_select {s : Store} {options : FindOptions} {found : List Record}
    (hc : Table.get? q.collection s.collections = some c) (hsel : select c q options = .ok found)
    (pagination : Option Pagination) :
    s.find q options pagination = .ok (.ofDocs ((slice found pagination).map (present options))
      (if options.estimatedCount then c.records.length else found.length) pagination) := by
  simp [find, collection?, hc, hsel, bind, Except.bind]

/-- A page fails as its selection does. -/
theorem find_eq_of_select_error {s : Store} {options : FindOptions} {e : StoreError}
    (hc : Table.get? q.collection s.collections = some c) (hsel : select c q options = .error e)
    (pagination : Option Pagination) : s.find q options pagination = .error e := by
  simp [find, collection?, hc, hsel, bind, Except.bind]

/-- A page shows its part of the selected records and counts all of them. -/
theorem find_of_select {s : Store} {options : FindOptions} {found : List Record}
    (hc : Table.get? q.collection s.collections = some c) (hsel : select c q options = .ok found)
    (hexact : options.estimatedCount = false) (pagination : Option Pagination) :
    s.find q options pagination =
      .ok (.ofDocs ((slice found pagination).map (present options)) found.length pagination) := by
  rw [find_eq_of_select hc hsel, hexact]
  rfl

/-- What a page shows. -/
theorem docs_of_find {s : Store} {options : FindOptions} {pagination : Option Pagination}
    {page : Page Record} (hc : Table.get? q.collection s.collections = some c)
    (h : s.find q options pagination = .ok page) :
    ∃ found, select c q options = .ok found ∧
      page.docs = (slice found pagination).map (present options) := by
  obtain ⟨c', hc', h⟩ := Except.bind_eq_ok_iff.1 h
  have hcc : c' = c := by simpa [collection?, hc, eq_comm] using hc'
  subst hcc
  obtain ⟨found, hfound, h⟩ := Except.bind_eq_ok_iff.1 h
  cases h
  refine ⟨found, hfound, ?_⟩
  cases pagination <;> rfl

/-- **A page shows records of the collection that satisfy the filter.** -/
theorem mem_docs_of_find {s : Store} {options : FindOptions} {pagination : Option Pagination}
    {page : Page Record} (hc : Table.get? q.collection s.collections = some c)
    (h : s.find q options pagination = .ok page) {shown : Record} (hshown : shown ∈ page.docs) :
    ∃ r ∈ c.records, Predicate.holdsFor q.filter r = .ok true ∧ shown = present options r := by
  obtain ⟨found, hfound, hdocs⟩ := docs_of_find hc h
  rw [hdocs] at hshown
  obtain ⟨r, hr, rfl⟩ := List.mem_map.1 hshown
  obtain ⟨hmem, hholds⟩ := mem_select hfound (mem_slice hr)
  exact ⟨r, hmem, hholds, rfl⟩

omit [PatternEngine] in
/-- A query asks for the stored paths of its clause. -/
theorem buildQuery_of_get? {s : Store} {name : String}
    (hc : Table.get? name s.collections = some c) (clause : Option Predicate)
    (locale : Option String) :
    s.buildQuery name clause locale =
      .ok ⟨name, clause.map (·.mapPaths (storedPath c.localizedPaths locale)), locale⟩ := by
  simp [buildQuery, collection?, hc, bind, Except.bind]

end Store

end HeadlessCms
