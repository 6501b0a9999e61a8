import HeadlessCms.Proofs.Store.Drawing
import HeadlessCms.Proofs.Store.Renumbering

/-!
# A mirror of a store

A mirror is another store that shows some collections of a store, and of these its own records only,
under numbers of its own (`View`, `Store.Mirrors`).  A look-up that does not ask for numbers, and that
finds none of the other records anyway, finds the same in the mirror (`Store.Mirrors.findOne`,
`Store.Mirrors.find`).  Changes of own records that are made to both leave the one a mirror of the other
(`Store.Abreast.insert` and so on).
-/

namespace HeadlessCms

/-- What of a store a mirror shows. -/
structure View where
  /-- The collections that are shown. -/
  shows : String → Prop
  /-- The records of a collection that are shown. -/
  own : String → Record → Bool
  /-- The localized paths that a collection declares in the store, -/
  paths : String → List String
  /-- and in the mirror. -/
  mirrorPaths : String → List String

/-- A query that a mirror answers in the same way: it does not look at numbers, and only records that
are shown satisfy it. -/
structure Query.Mirrored [PatternEngine]
    (q : Query) (v : View) (others : String → List Record) : Prop where
  shown : v.shows q.collection
  ignores : ∀ p ∈ q.filter, p.IgnoresNumbers
  blind : ∀ r ∈ others q.collection, Predicate.holdsFor q.filter r = .ok false

/-- A record is shown as it is shown. -/
theorem Record.sanitize_sanitize (r : Record) : sanitize (sanitize r) = sanitize r := by
  simp only [sanitize, Table.erase, List.filter_filter]
  refine List.filter_congr fun entry _ => ?_
  grind

namespace Store

/-! ### Own records among others -/

variable {records mirrored : List Record} {filter : Option Predicate} {own : Record → Bool}
  {id : String} {record : Record}

/-- **Records that do not match can be left out.** -/
theorem matching_filter [PatternEngine] (h : ∀ r ∈ records, own r = false →
    Predicate.holdsFor filter r = .ok false) :
    matching filter (records.filter own) = matching filter records := by
  induction records with
  | nil => rfl
  | cons r rest ih =>
    obtain ⟨hr, hrest⟩ := List.forall_mem_cons.1 h
    cases hown : own r with
    | true => rw [List.filter_cons_of_pos hown, matching, matching, ih hrest]
    | false =>
      rw [List.filter_cons_of_neg (ne_true_of_eq_false hown), matching, hr hown, ih hrest]
      cases matching filter rest <;> rfl

/-- A record with an id is found alike among those that the mirror shows, if no other has
this id. -/
theorem find?_id_filter (h : ∀ r ∈ records, own r = false → Record.id? r ≠ some id) :
    (records.filter own).find? (Record.id? · == some id) =
      records.find? (Record.id? · == some id) := by
  induction records with
  | nil => rfl
  | cons r rest ih =>
    obtain ⟨hr, hrest⟩ := List.forall_mem_cons.1 h
    cases hown : own r with
    | true => rw [List.filter_cons_of_pos hown, List.find?_cons, List.find?_cons, ih hrest]
    | false =>
      have hother : (Record.id? r == some id) = false := beq_eq_false_iff_ne.2 (hr hown)
      rw [List.filter_cons_of_neg (ne_true_of_eq_false hown), ih hrest, List.find?_cons, hother]

/-- The replacement of an own record, among the own records. -/
theorem filter_replaceFirst_of_own (h : ∀ r ∈ records, own r = false → Record.id? r ≠ some id)
    (hrecord : ∀ sequence revision, own (stamp id sequence revision record) = true) :
    (replaceFirst id record records).filter own = replaceFirst id record (records.filter own) := by
  induction records with
  | nil => rfl
  | cons r rest ih =>
    obtain ⟨hr, hrest⟩ := List.forall_mem_cons.1 h
    cases hown : own r with
    | true =>
      rw [List.filter_cons_of_pos hown, replaceFirst, replaceFirst]
      split
      · exact List.filter_cons_of_pos (hrecord _ _)
      · rw [List.filter_cons_of_pos hown, ih hrest]
    | false =>
      rw [List.filter_cons_of_neg (ne_true_of_eq_false hown), replaceFirst, if_neg (hr hown),
        List.filter_cons_of_neg (ne_true_of_eq_false hown), ih hrest]

/-- The replacement of a record that is not shown, by another one that is not. -/
theorem filter_replaceFirst_of_other (h : ∀ r ∈ records, own r = true → Record.id? r ≠ some id)
    (hrecord : ∀ sequence revision, own (stamp id sequence revision record) = false) :
    (replaceFirst id record records).filter own = records.filter own := by
  induction records with
  | nil => rfl
  | cons r rest ih =>
    obtain ⟨hr, hrest⟩ := List.forall_mem_cons.1 h
    rw [replaceFirst]
    split
    · next hid =>
      have hown : own r = false := Bool.eq_false_iff.2 fun hown => hr hown hid
      rw [List.filter_cons_of_neg (ne_true_of_eq_false hown), revise,
        List.filter_cons_of_neg (ne_true_of_eq_false (hrecord _ _))]
    · rw [List.filter_cons, List.filter_cons, ih hrest]

/-- Records with the same id are found at the same place. -/
theorem forall₂_find?_id (h : List.Forall₂ Record.Renumbered records mirrored) (id : String) :
    Option.Rel Record.Renumbered (records.find? (Record.id? · == some id))
      (mirrored.find? (Record.id? · == some id)) := by
  induction h with
  | nil => exact .none
  | @cons r r' rest rest' hr _ ih =>
    rw [List.find?_cons, List.find?_cons, hr.id?_eq]
    split
    · exact .some hr
    · exact ih

/-! ### What is shown -/

/-- Unless a search is lean, records are presented as they are shown. -/
theorem present_of_shown {options : FindOptions} (hlean : options.lean = false) :
    present options = Record.sanitize := by
  funext r
  rw [present, hlean]
  rfl

/-- However a record is presented, it shows the same. -/
theorem sanitize_present (options : FindOptions) (r : Record) :
    Record.sanitize (present options r) = Record.sanitize r := by
  cases hlean : options.lean with
  | true => rw [present, if_pos hlean]
  | false => rw [present_of_shown hlean, Record.sanitize_sanitize]

/-- A page of items with something done to them is that of the items, with it done. -/
theorem slice_map {α β : Type} (f : α → β) (items : List α) (pagination : Option Pagination) :
    slice (items.map f) pagination = (slice items pagination).map f := by
  cases pagination with
  | none => rfl
  | some p => rw [slice, slice, List.map_take, List.map_drop]

variable {s : Store} {q : Query} {c : Collection} {options : FindOptions}

/-- Looking for one record presents the first that is selected. -/
theorem findOne_eq_map [PatternEngine] (hc : Table.get? q.collection s.collections = some c) :
    s.findOne q options = (select c q options).map fun found => found.head?.map (present options) := by
  rw [findOne, collection?, hc]
  show (select c q options >>= _) = _
  cases select c q options <;> rfl

/-- Looking for a page presents a part of what is selected. -/
theorem find_eq_map [PatternEngine] (hc : Table.get? q.collection s.collections = some c)
    (pagination : Option Pagination) :
    s.find q options pagination = (select c q options).map fun found =>
      .ofDocs ((slice found pagination).map (present options))
        (if options.estimatedCount then c.records.length else found.length) pagination := by
  rw [find, collection?, hc]
  show (select c q options >>= _) = _
  cases select c q options <;> rfl

/-! ### Stores and their mirrors -/

/-- The store `m` is a mirror of the store `s`. -/
structure Mirrors (v : View) (s m : Store) : Prop where
  numbered : s.Numbered
  mirrorNumbered : m.Numbered
  held : ∀ name, v.shows name → ∃ records mirrored,
    Table.get? name s.collections = some ⟨records, v.paths name⟩ ∧
      Table.get? name m.collections = some ⟨mirrored, v.mirrorPaths name⟩ ∧
      List.Forall₂ Record.Renumbered (records.filter (v.own name)) mirrored

/-- The records of a collection that a mirror does not show. -/
def others (s : Store) (v : View) (name : String) : List Record :=
  (s.recordsOf name).filter (!v.own name ·)

/-- A store and its mirror with the same ids ahead of them.  The records that are not shown are known,
and got their ids before. -/
structure Abreast (ids : Nat → String) (v : View) (rest : String → List Record) (s m : Store) :
    Prop extends Mirrors v s m where
  drawn : m.drawn = s.drawn
  others : ∀ name, v.shows name → s.others v name = rest name
  old : ∀ name, v.shows name → ∀ r ∈ rest name, ∃ k < s.drawn, Record.id? r = some (ids k)

variable {ids : Nat → String} {v : View} {rest : String → List Record} {s m : Store} {name : String}

/-- A record that the mirror does not show is among the others. -/
theorem mem_others {c : Collection} {r : Record} (hc : Table.get? name s.collections = some c)
    (hr : r ∈ c.records) (hown : v.own name r = false) : r ∈ s.others v name := by
  rw [others, recordsOf_of_get? hc, List.mem_filter, hown]
  exact ⟨hr, rfl⟩

namespace Mirrors

/-! ### Changes of other records -/

/-- **A change that leaves the own records alone is not shown.** -/
theorem change_other (h : Mirrors v s m) {c : Collection} {new : List Record}
    (hc : Table.get? name s.collections = some c)
    (hnew : v.shows name → new.filter (v.own name) = c.records.filter (v.own name)) {s' : Store}
    (hs : s'.collections = (s.withRecords name c new).collections) (hnumbered : s'.Numbered) :
    Mirrors v s' m where
  numbered := hnumbered
  mirrorNumbered := h.mirrorNumbered
  held other hother := by
    obtain ⟨records, mirrored, hrecords, hmirrored, hrelated⟩ := h.held other hother
    rw [hs]
    by_cases hname : other = name
    · subst hname
      obtain rfl := Option.some.inj (hc.symm.trans hrecords)
      exact ⟨new, mirrored, get?_withRecords _ _ _ _, hmirrored, hnew hother ▸ hrelated⟩
    · exact ⟨records, mirrored, (sameBut_withRecords s name c new other hname).trans hrecords,
        hmirrored, hrelated⟩

/-- An own record has the id of a record in the mirror. -/
theorem id?_of_own (h : Mirrors v s m) (hname : v.shows name) {r : Record}
    (hr : r ∈ s.recordsOf name) (hown : v.own name r = true) :
    ∃ r' ∈ m.recordsOf name, Record.id? r = Record.id? r' := by
  obtain ⟨records, mirrored, hrecords, hmirrored, hrelated⟩ := h.held name hname
  rw [recordsOf_of_get? hrecords] at hr
  rw [recordsOf_of_get? hmirrored]
  obtain ⟨r', hr', hsame⟩ := exists_item_of_mem hrelated (List.mem_filter.2 ⟨hr, hown⟩)
  exact ⟨r', hr', hsame.id?_eq⟩

/-- A record in the mirror has the id of an own record. -/
theorem exists_own (h : Mirrors v s m) (hname : v.shows name) {r' : Record}
    (hr' : r' ∈ m.recordsOf name) :
    ∃ r ∈ s.recordsOf name, v.own name r = true ∧ Record.id? r = Record.id? r' := by
  obtain ⟨records, mirrored, hrecords, hmirrored, hrelated⟩ := h.held name hname
  rw [recordsOf_of_get? hmirrored] at hr'
  rw [recordsOf_of_get? hrecords]
  obtain ⟨r, hr, hsame⟩ := exists_item_of_mem hrelated.flip hr'
  obtain ⟨hmem, hown⟩ := List.mem_filter.1 hr
  exact ⟨r, hmem, hown, Record.Renumbered.id?_eq hsame⟩

/-- A record that the mirror does not show may be inserted. -/
theorem insert_other (h : Mirrors v s m) (hid : Record.id? record = none)
    (hown : v.shows name → ∀ n sequence, v.own name (stamp (ids n) sequence 0 record) = false) :
    Mirrors v (s.insert ids name record).2 m := by
  have hnumbered := h.numbered.insert ids name record
  cases hc : Table.get? name s.collections with
  | none =>
    unfold insert
    rw [hc]
    exact h
  | some c =>
    rw [insert_eq ids hc hid] at hnumbered ⊢
    split at hnumbered
    · next hany =>
      rw [if_pos hany]
      exact ⟨hnumbered, h.mirrorNumbered, h.held⟩
    · next hany =>
      rw [if_neg hany]
      refine h.change_other hc (fun hname => ?_) rfl hnumbered
      rw [List.filter_append, List.filter_cons_of_neg (ne_true_of_eq_false (hown hname _ _)),
        List.filter_nil, List.append_nil]

/-- A record that the mirror does not show may be updated by another one of the kind. -/
theorem update_other (h : Mirrors v s m) (hname : v.shows name)
    (hid : ∀ r ∈ m.recordsOf name, Record.id? r ≠ some id)
    (hown : ∀ sequence revision, v.own name (stamp id sequence revision record) = false) :
    Mirrors v (s.update name id record).2 m := by
  have hnumbered := h.numbered.update name id record
  unfold update at hnumbered ⊢
  cases hc : Table.get? name s.collections with
  | none => exact h
  | some c =>
    rw [hc] at hnumbered
    dsimp only at hnumbered ⊢
    split at hnumbered
    · exact h
    · refine h.change_other hc (fun _ => filter_replaceFirst_of_other (fun r hr hr' => ?_) hown) rfl
        hnumbered
      obtain ⟨r', hmem, hsame⟩ := h.id?_of_own hname (recordsOf_of_get? hc ▸ hr) hr'
      rw [hsame]
      exact hid r' hmem

/-- Collections that the mirror does not show may be deleted from. -/
theorem deleteMany_other [PatternEngine]
    (h : Mirrors v s m) {q : Query} (hname : ¬ v.shows q.collection) :
    Mirrors v (s.deleteMany q).2 m := by
  have hnumbered := h.numbered.deleteMany q
  unfold deleteMany at hnumbered ⊢
  cases hc : Table.get? q.collection s.collections with
  | none => exact h
  | some c =>
    rw [hc] at hnumbered
    dsimp only at hnumbered ⊢
    split at hnumbered
    · exact h
    · exact h.change_other hc (fun hshown => absurd hshown hname) rfl hnumbered

end Mirrors

namespace Abreast

/-! ### Looking up -/

/-- Queries are built alike if both sides store the paths of the clause alike. -/
theorem buildQuery (h : Abreast ids v rest s m) (hname : v.shows name) {clause : Option Predicate}
    {locale : Option String} (hpaths : ∀ p ∈ clause,
      p.mapPaths (storedPath (v.mirrorPaths name) locale) =
        p.mapPaths (storedPath (v.paths name) locale)) :
    m.buildQuery name clause locale = s.buildQuery name clause locale := by
  obtain ⟨records, mirrored, hs, hm, _⟩ := h.held name hname
  rw [buildQuery_of_get? hs, buildQuery_of_get? hm]
  cases clause with
  | none => rfl
  | some p => rw [Option.map_some, Option.map_some, hpaths p rfl]

variable {q : Query} {options : FindOptions}

/-- **The same is selected,** but for the numbers. -/
theorem select_eq [PatternEngine] (h : Abreast ids v rest s m) (hq : q.Mirrored v rest)
    (hkeys : ∀ key ∈ options.sort, (Path.segments key.path).head? ≠ some Record.sequenceField) :
    ∃ c c', Table.get? q.collection s.collections = some c ∧
      Table.get? q.collection m.collections = some c' ∧
      (select c' q options).map (List.map Record.sanitize) =
        (select c q options).map (List.map Record.sanitize) := by
  obtain ⟨records, mirrored, hs, hm, hrelated⟩ := h.held q.collection hq.shown
  refine ⟨_, _, hs, hm, ?_⟩
  have hblind : ∀ r ∈ records, v.own q.collection r = false →
      Predicate.holdsFor q.filter r = .ok false := fun r hr hown =>
    hq.blind r (h.others _ hq.shown ▸ mem_others hs hr hown)
  have hown : select ⟨records, v.paths q.collection⟩ q options =
      select ⟨records.filter (v.own q.collection), v.paths q.collection⟩ q options := by
    rw [select, select, matching_filter hblind]
  have hgrowing : Growing records := List.pairwise_map.1 (h.numbered _ _ hs).increasing
  have hagree : Except.Agree (List.Forall₂ Record.Renumbered)
      (select ⟨records.filter (v.own q.collection), v.paths q.collection⟩ q options)
      (select ⟨mirrored, v.mirrorPaths q.collection⟩ q options) :=
    agree_select hrelated (hgrowing.filter _)
      (List.pairwise_map.1 (h.mirrorNumbered _ _ hm).increasing) hq.ignores hkeys
  rw [hown]
  generalize select ⟨records.filter (v.own q.collection), _⟩ q options = found at hagree
  generalize select ⟨mirrored, _⟩ q options = found' at hagree
  cases hagree with
  | error e => rfl
  | ok hfound => exact congrArg Except.ok (map_sanitize_of_forall₂ hfound).symm

/-- What is found, without what the store keeps for itself. -/
theorem findOne_shown [PatternEngine] (h : Abreast ids v rest s m) (hq : q.Mirrored v rest)
    (hkeys : ∀ key ∈ options.sort, (Path.segments key.path).head? ≠ some Record.sequenceField) :
    (m.findOne q options).map (Option.map Record.sanitize) =
      (s.findOne q options).map (Option.map Record.sanitize) := by
  obtain ⟨c, c', hs, hm, hselect⟩ := h.select_eq hq hkeys
  have hfirst {t : Store} {d : Collection} (hd : Table.get? q.collection t.collections = some d) :
      (t.findOne q options).map (Option.map Record.sanitize) =
        ((select d q options).map (List.map Record.sanitize)).map List.head? := by
    rw [findOne_eq_map hd, Except.map_map, Except.map_map]
    refine congrArg (Except.map · _) (funext fun found => ?_)
    rw [Function.comp_apply, Function.comp_apply, List.head?_map, Option.map_map]
    exact congrArg (Option.map · found.head?) (funext (sanitize_present options))
  rw [hfirst hs, hfirst hm, hselect]

/-- **The first record that is found is shown alike.** -/
theorem findOne [PatternEngine]
    (h : Abreast ids v rest s m) (hq : q.Mirrored v rest) (hlean : options.lean = false)
    (hkeys : ∀ key ∈ options.sort, (Path.segments key.path).head? ≠ some Record.sequenceField) :
    m.findOne q options = s.findOne q options := by
  obtain ⟨c, c', hs, hm, hselect⟩ := h.select_eq hq hkeys
  have hfirst {t : Store} {d : Collection} (hd : Table.get? q.collection t.collections = some d) :
      t.findOne q options =
        ((select d q options).map (List.map Record.sanitize)).map List.head? := by
    rw [findOne_eq_map hd, present_of_shown hlean, Except.map_map]
    exact congrArg (Except.map · _) (funext fun found => List.head?_map.symm)
  rw [hfirst hs, hfirst hm, hselect]

/-- **So is a page.** -/
theorem find [PatternEngine]
    (h : Abreast ids v rest s m) (hq : q.Mirrored v rest) (hlean : options.lean = false)
    (hexact : options.estimatedCount = false)
    (hkeys : ∀ key ∈ options.sort, (Path.segments key.path).head? ≠ some Record.sequenceField)
    (pagination : Option Pagination) : m.find q options pagination = s.find q options pagination := by
  obtain ⟨c, c', hs, hm, hselect⟩ := h.select_eq hq hkeys
  have hpage {t : Store} {d : Collection} (hd : Table.get? q.collection t.collections = some d) :
      t.find q options pagination = ((select d q options).map (List.map Record.sanitize)).map
        fun shown => .ofDocs (slice shown pagination) shown.length pagination := by
    rw [find_eq_map hd, present_of_shown hlean, hexact, Except.map_map]
    refine congrArg (Except.map · _) (funext fun found => ?_)
    rw [Function.comp_apply, slice_map, List.length_map]
    rfl
  rw [hpage hs, hpage hm, hselect]

/-! ### Changing -/

/-- **A change of the own records of a collection that is made to both.** -/
theorem change (h : Abreast ids v rest s m) {c c' : Collection} {new new' : List Record}
    (hc : Table.get? name s.collections = some c) (hc' : Table.get? name m.collections = some c')
    (hnew : List.Forall₂ Record.Renumbered (new.filter (v.own name)) new')
    (hothers : new.filter (!v.own name ·) = c.records.filter (!v.own name ·)) {s' m' : Store}
    (hs : s'.collections = (s.withRecords name c new).collections)
    (hm : m'.collections = (m.withRecords name c' new').collections)
    (hnumbered : s'.Numbered) (hmirrorNumbered : m'.Numbered) (hdrawn : m'.drawn = s'.drawn)
    (hlater : s.drawn ≤ s'.drawn) : Abreast ids v rest s' m' where
  numbered := hnumbered
  mirrorNumbered := hmirrorNumbered
  held other hother := by
    obtain ⟨records, mirrored, hrecords, hmirrored, hrelated⟩ := h.held other hother
    rw [hs, hm]
    by_cases hname : other = name
    · subst hname
      obtain rfl := Option.some.inj (hc.symm.trans hrecords)
      obtain rfl := Option.some.inj (hc'.symm.trans hmirrored)
      exact ⟨new, new', get?_withRecords _ _ _ _, get?_withRecords _ _ _ _, hnew⟩
    · refine ⟨records, mirrored, ?_, ?_, hrelated⟩
      · rw [sameBut_withRecords s name c new other hname, hrecords]
      · rw [sameBut_withRecords m name c' new' other hname, hmirrored]
  drawn := hdrawn
  others other hother := by
    rw [← h.others other hother, Store.others, Store.others, recordsOf_of_collections hs]
    by_cases hname : other = name
    · subst hname
      rw [recordsOf_withRecords, recordsOf_of_get? hc, hothers]
    · rw [SameBut.recordsOf (sameBut_withRecords s name c new) hname]
  old other hother r hr := by
    obtain ⟨k, hk, hid⟩ := h.old other hother r hr
    exact ⟨k, Nat.lt_of_lt_of_le hk hlater, hid⟩

/-- An id that has been used up. -/
theorem draw (h : Abreast ids v rest s m) :
    Abreast ids v rest { s with drawn := s.drawn + 1 } { m with drawn := m.drawn + 1 } where
  numbered := h.numbered
  mirrorNumbered := h.mirrorNumbered
  held := h.held
  drawn := congrArg (· + 1) h.drawn
  others := h.others
  old name hname r hr := by
    obtain ⟨k, hk, hid⟩ := h.old name hname r hr
    exact ⟨k, Nat.lt_succ_of_lt hk, hid⟩

/-- **An own record that is inserted into both.** -/
theorem insert (h : Abreast ids v rest s m) (hids : Function.Injective ids) (hname : v.shows name)
    (hrecord : Table.Ascending record) (hid : Record.id? record = none)
    (hown : ∀ sequence, v.own name (stamp (ids s.drawn) sequence 0 record) = true) :
    (m.insert ids name record).1 = (s.insert ids name record).1 ∧
      Abreast ids v rest (s.insert ids name record).2 (m.insert ids name record).2 := by
  obtain ⟨records, mirrored, hs, hm, hrelated⟩ := h.held name hname
  have hnumbered := h.numbered.insert ids name record
  have hmirrorNumbered := h.mirrorNumbered.insert ids name record
  -- The id is not taken by a record that is not shown, so it is taken in both or in none.
  have htaken : mirrored.any (Record.id? · == some (ids s.drawn)) =
      records.any (Record.id? · == some (ids s.drawn)) := by
    have hapart : ∀ r ∈ records, v.own name r = false → Record.id? r ≠ some (ids s.drawn) := by
      intro r hr hother heq
      obtain ⟨k, hk, hold⟩ := h.old name hname r (h.others name hname ▸ mem_others hs hr hother)
      have hkey : k = s.drawn := hids (Option.some.inj (hold.symm.trans heq))
      omega
    have hfound := forall₂_find?_id hrelated (ids s.drawn)
    rw [find?_id_filter hapart] at hfound
    rw [← List.isSome_find?, ← List.isSome_find?]
    generalize records.find? (Record.id? · == some (ids s.drawn)) = found at hfound
    generalize mirrored.find? (Record.id? · == some (ids s.drawn)) = found' at hfound
    cases hfound <;> rfl
  rw [insert_eq ids hs hid] at hnumbered ⊢
  rw [insert_eq ids hm hid, h.drawn, htaken] at hmirrorNumbered ⊢
  cases hany : records.any (Record.id? · == some (ids s.drawn)) with
  | true =>
    have hdrawn := h.draw
    rw [h.drawn] at hdrawn
    exact ⟨rfl, hdrawn⟩
  | false =>
    rw [hany, if_neg Bool.false_ne_true] at hnumbered hmirrorNumbered
    rw [if_neg Bool.false_ne_true, if_neg Bool.false_ne_true]
    have hstamps : (stamp (ids s.drawn) s.sequence 0 record).Renumbered
        (stamp (ids s.drawn) m.sequence 0 record) := renumbered_stamp hrecord _ _ _
    refine ⟨congrArg Except.ok hstamps.sanitize_eq.symm, h.change hs hm ?_ ?_ rfl rfl hnumbered
      hmirrorNumbered rfl (Nat.le_succ _)⟩
    · rw [List.filter_append, List.filter_cons_of_pos (hown _), List.filter_nil]
      exact List.rel_append hrelated (.cons hstamps .nil)
    · rw [List.filter_append, List.filter_cons_of_neg (by rw [hown]; decide), List.filter_nil,
        List.append_nil]

/-- **An own record that is replaced in both.** -/
theorem update (h : Abreast ids v rest s m) (hname : v.shows name)
    (hrecord : Table.Ascending record) (hid : ∀ r ∈ rest name, Record.id? r ≠ some id)
    (hown : ∀ sequence revision, v.own name (stamp id sequence revision record) = true) :
    (m.update name id record).1 = (s.update name id record).1 ∧
      Abreast ids v rest (s.update name id record).2 (m.update name id record).2 := by
  obtain ⟨records, mirrored, hs, hm, hrelated⟩ := h.held name hname
  have hapart : ∀ r ∈ records, v.own name r = false → Record.id? r ≠ some id := fun r hr hother =>
    hid r (h.others name hname ▸ mem_others hs hr hother)
  have hnumbered := h.numbered.update name id record
  have hmirrorNumbered := h.mirrorNumbered.update name id record
  have hfound := forall₂_find?_id hrelated id
  rw [find?_id_filter hapart] at hfound
  unfold Store.update at hnumbered hmirrorNumbered ⊢
  rw [hs] at hnumbered ⊢
  rw [hm] at hmirrorNumbered ⊢
  dsimp only at hnumbered hmirrorNumbered ⊢
  generalize records.find? (Record.id? · == some id) = found at hfound hnumbered
  generalize mirrored.find? (Record.id? · == some id) = found' at hfound hmirrorNumbered
  cases hfound with
  | none => exact ⟨rfl, h⟩
  | some hr =>
    refine ⟨congrArg Except.ok (renumbered_revise hrecord hr).sanitize_eq.symm, h.change hs hm ?_ ?_
      rfl rfl hnumbered hmirrorNumbered h.drawn (Nat.le_refl _)⟩
    · rw [filter_replaceFirst_of_own hapart hown]
      exact forall₂_replaceFirst hrecord hrelated
    · refine filter_replaceFirst_of_other (fun r hr hother => hapart r hr ?_) fun sequence revision => ?_
      · rwa [Bool.not_eq_true'] at hother
      · rw [hown]
        rfl

/-- **Records that are deleted from a collection that is shown as a whole.** -/
theorem deleteMany [PatternEngine] (h : Abreast ids v rest s m) (hname : v.shows q.collection)
    (hall : ∀ r, v.own q.collection r = true) (hfilter : ∀ p ∈ q.filter, p.IgnoresNumbers) :
    (m.deleteMany q).1 = (s.deleteMany q).1 ∧
      Abreast ids v rest (s.deleteMany q).2 (m.deleteMany q).2 := by
  obtain ⟨records, mirrored, hs, hm, hrelated⟩ := h.held q.collection hname
  have hwhole (list : List Record) : list.filter (v.own q.collection) = list :=
    List.filter_eq_self.2 fun r _ => hall r
  have hnone (list : List Record) : list.filter (!v.own q.collection ·) = [] :=
    List.filter_eq_nil_iff.2 fun r _ => by rw [hall]; decide
  rw [hwhole] at hrelated
  have hnumbered := h.numbered.deleteMany q
  have hmirrorNumbered := h.mirrorNumbered.deleteMany q
  have hkept := agree_remaining hrelated hfilter
  unfold Store.deleteMany at hnumbered hmirrorNumbered ⊢
  rw [hs] at hnumbered ⊢
  rw [hm] at hmirrorNumbered ⊢
  dsimp only at hnumbered hmirrorNumbered ⊢
  generalize remaining q.filter records = kept at hkept hnumbered
  generalize remaining q.filter mirrored = kept' at hkept hmirrorNumbered
  cases hkept with
  | error e => exact ⟨rfl, h⟩
  | ok hleft =>
    refine ⟨?_, h.change hs hm ?_ ?_ rfl rfl hnumbered hmirrorNumbered h.drawn (Nat.le_refl _)⟩
    · exact congrArg Except.ok (congrArg₂ (· - ·) hrelated.length_eq hleft.length_eq).symm
    · rwa [hwhole]
    · rw [hnone, hnone]

end Abreast

end Store
end HeadlessCms
