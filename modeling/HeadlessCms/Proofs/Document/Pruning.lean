import HeadlessCms.Document.History
import HeadlessCms.Proofs.Document.Ledger
import HeadlessCms.Proofs.Document.Newest
import HeadlessCms.Proofs.Store.Bookkeeping

/-!
# The history keeps the newest versions

A save inserts a version and takes away all but the newest ones of its document.  The versions of a
document are ordered by time, those of one instant by insertion (`StoredVersion.Newer`).  What is left
after a save are the greatest of what was left before it and the new version; these are the greatest of
all versions that have ever been saved (`KeepsGreatest.concat`), in whatever order the times come.

So a history holds, of each document, exactly the newest versions ever saved
(`History.Saves.keeps_newest`).
-/

namespace HeadlessCms

open Time (Instant)

/-! ### The greatest items of a list -/

/-- A list of the `m` greatest items of another one, or of all if there are fewer, in their order. -/
structure KeepsGreatest {α : Type} (greater : α → α → Prop) (m : Nat) (all kept : List α) : Prop where
  sublist : kept.Sublist all
  length : kept.length = min m all.length
  greatest : ∀ x ∈ kept, ∀ y ∈ all, y ∉ kept → greater x y

namespace KeepsGreatest

variable {α : Type} {greater : α → α → Prop} {m : Nat} {all kept sorted : List α} {x : α}

theorem nil (greater : α → α → Prop) (m : Nat) : KeepsGreatest greater m [] [] :=
  ⟨List.Sublist.refl _, by simp, fun _ hx => absurd hx List.not_mem_nil⟩

/-- What is taken from the front of a sorted list is greater than the rest. -/
theorem greater_of_sorted (hsorted : sorted.Pairwise greater) {y : α} (hx : x ∈ sorted.take m)
    (hy : y ∈ sorted.drop m) : greater x y := by
  rw [← List.take_append_drop m sorted] at hsorted
  exact (List.pairwise_append.1 hsorted).2.2 x hx y hy

/-- Without what comes after its front, a sorted list is its front. -/
theorem perm_take_of_filter {items : List α} (hnodup : items.Nodup) (hperm : sorted.Perm items)
    {keeps : α → Bool} (hkeeps : ∀ y ∈ items, keeps y = true ↔ y ∉ sorted.drop m) :
    (items.filter keeps).Perm (sorted.take m) := by
  have happart : (sorted.take m).Disjoint (sorted.drop m) :=
    List.disjoint_take_drop (hperm.nodup_iff.2 hnodup) (Nat.le_refl m)
  have hfilter : sorted.filter keeps = sorted.take m := by
    conv_lhs => rw [← List.take_append_drop m sorted]
    rw [List.filter_append, List.filter_eq_self.2, List.filter_eq_nil_iff.2, List.append_nil]
    · intro y hy hkept
      have hmem := hperm.mem_iff.1 (List.mem_of_mem_drop hy)
      exact (hkeeps y hmem).1 hkept hy
    · intro y hy
      have hmem := hperm.mem_iff.1 (List.mem_of_mem_take hy)
      exact (hkeeps y hmem).2 fun hdropped => happart hy hdropped
  rw [← hfilter]
  exact (hperm.filter keeps).symm

/-- A new item that is among the greatest has pushed out one of them if any item was left out
before. -/
theorem exists_pushed_out (h : KeepsGreatest greater m all kept) (hnodup : sorted.Nodup)
    (hperm : sorted.Perm (kept ++ [x])) (hx : x ∈ sorted.take m) {y : α} (hy : y ∈ all)
    (hleft : y ∉ kept) : ∃ z ∈ kept, z ∈ sorted.drop m := by
  have hfewer : kept.length < all.length := by
    refine Nat.lt_of_le_of_ne h.sublist.length_le fun heq => hleft ?_
    rw [h.sublist.eq_of_length heq]
    exact hy
  have hfull : kept.length = m := by
    have hlength := h.length
    omega
  have hsome : 0 < (sorted.drop m).length := by
    rw [List.length_drop, hperm.length_eq, List.length_append, List.length_singleton, hfull]
    omega
  obtain ⟨z, hz⟩ := List.exists_mem_of_length_pos hsome
  refine ⟨z, ?_, hz⟩
  rcases List.mem_append.1 (hperm.mem_iff.1 (List.mem_of_mem_drop hz)) with hold | hnew
  · exact hold
  · rw [List.mem_singleton.1 hnew] at hz
    exact absurd hz (List.disjoint_take_drop hnodup (Nat.le_refl m) hx)

/-- **The greatest of the greatest and a new item are the greatest of all.** -/
theorem concat (h : KeepsGreatest greater m all kept) (hnodup : (all ++ [x]).Nodup)
    (htrans : ∀ a b c, greater a b → greater b c → greater a c)
    (hperm : sorted.Perm (kept ++ [x])) (hsorted : sorted.Pairwise greater) {keeps : α → Bool}
    (hkeeps : ∀ y ∈ kept ++ [x], keeps y = true ↔ y ∉ sorted.drop m) :
    KeepsGreatest greater m (all ++ [x]) ((kept ++ [x]).filter keeps) := by
  have hsublist : (kept ++ [x]).Sublist (all ++ [x]) := h.sublist.append_right [x]
  have hapart : (kept ++ [x]).Nodup := hnodup.sublist hsublist
  have hleft := perm_take_of_filter hapart hperm hkeeps
  refine ⟨List.filter_sublist.trans hsublist, ?_, ?_⟩
  · rw [hleft.length_eq, List.length_take, hperm.length_eq, List.length_append, List.length_append,
      List.length_singleton, h.length]
    omega
  · intro a ha y hy hdropped
    have hafront := hleft.mem_iff.1 ha
    by_cases hymem : y ∈ kept ++ [x]
    · -- The other item has just been dropped.
      apply greater_of_sorted hsorted hafront
      by_contra hnot
      exact hdropped (List.mem_filter.2 ⟨hymem, (hkeeps y hymem).2 hnot⟩)
    · have hyold : y ∉ kept := fun hmem => hymem (List.mem_append_left _ hmem)
      have hyall : y ∈ all := by
        rcases List.mem_append.1 hy with hold | hnew
        · exact hold
        · exact absurd (List.mem_append_right _ hnew) hymem
      rcases List.mem_append.1 (List.mem_of_mem_filter ha) with hakept | hanew
      · exact h.greatest a hakept y hyall hyold
      · -- The item that the new one has pushed out stands between the two.
        rw [List.mem_singleton] at hanew
        subst hanew
        obtain ⟨z, hzkept, hzdrop⟩ :=
          h.exists_pushed_out (hperm.nodup_iff.2 hapart) hperm hafront hyall hyold
        exact htrans a z y (greater_of_sorted hsorted hafront hzdrop)
          (h.greatest z hzkept y hyall hyold)

end KeepsGreatest

/-! ### The order of versions -/

namespace StoredVersion

/-- One version is newer than another if it is later, or of the same instant and inserted after it. -/
def Newer (x y : StoredVersion) : Prop :=
  y.version.updatedAt.isBefore x.version.updatedAt = true ∨
    x.version.updatedAt = y.version.updatedAt ∧
      Record.counter Record.sequenceField y.record < Record.counter Record.sequenceField x.record

/-- **The newest version is shown first.** -/
theorem precedes_iff {x y : StoredVersion} : x.precedes y = true ↔ x.Newer y := by
  rw [precedes, compareBy_newestFirst, beq_iff_eq, Ordering.then_eq_lt, Instant.order_eq_eq_iff,
    Nat.compare_eq_lt, Newer, Instant.isBefore, beq_iff_eq]
  constructor
  · intro h
    exact h.imp_right fun hsame => ⟨hsame.1.symm, hsame.2⟩
  · intro h
    exact h.imp_right fun hsame => ⟨hsame.1.symm, hsame.2⟩

theorem Newer.trans {x y z : StoredVersion} (hxy : x.Newer y) (hyz : y.Newer z) : x.Newer z := by
  rcases hxy with hxy | ⟨hxy, hinserted⟩
  · rcases hyz with hyz | ⟨hyz, _⟩
    · exact Or.inl (Instant.isBefore_trans hyz hxy)
    · exact Or.inl (hyz ▸ hxy)
  · rcases hyz with hyz | ⟨hyz, hinserted'⟩
    · exact Or.inl (hxy ▸ hyz)
    · exact Or.inr ⟨hxy.trans hyz, Nat.lt_trans hinserted' hinserted⟩

/-- Of two versions that were not inserted at once one is newer. -/
theorem newer_or_newer {x y : StoredVersion} (h : Record.counter Record.sequenceField x.record <
    Record.counter Record.sequenceField y.record) : x.Newer y ∨ y.Newer x := by
  by_cases hbefore : y.version.updatedAt.isBefore x.version.updatedAt = true
  · exact Or.inl (Or.inl hbefore)
  · by_cases hafter : x.version.updatedAt.isBefore y.version.updatedAt = true
    · exact Or.inr (Or.inl hafter)
    · right
      right
      refine ⟨?_, h⟩
      rw [← Instant.order_eq_eq_iff]
      cases horder : y.version.updatedAt.order x.version.updatedAt with
      | eq => rfl
      | lt => exact absurd (beq_iff_eq.2 horder) hbefore
      | gt => exact absurd (Instant.order_eq_gt_iff.1 horder) hafter

end StoredVersion

/-! ### Saving a version -/

namespace History

variable {env : Surroundings} {entity : Entity} {b b' : Backend} {parent : String} {data : Record}
  {status : Status} {time : Instant} {v : Version}

/-- The record of a new version holds it. -/
theorem isStored_stamp (htime : time.Printable) (own parent : String) (data : Record)
    (status : Status) (sequence : Nat) :
    Version.IsStored (Store.stamp own sequence 0 (newRecord .collection (some parent) data status time))
      ⟨own, some parent, snapshot data status, time, time⟩ where
  id := Store.get?_id_stamp
  parent := by
    rw [Store.get?_stamp (by decide), if_neg (by decide)]
    rfl
  content := by
    rw [Store.get?_stamp (by decide), if_neg (by decide)]
    rfl
  status := ⟨status.name, by rw [Snapshot.get?_snapshot, if_pos rfl]⟩
  createdAt := by
    refine ⟨time.write, ?_, Time.readStrict?_write htime⟩
    rw [Store.get?_stamp (by decide), if_neg (by decide)]
    rfl
  updatedAt := by
    refine ⟨time.write, ?_, Time.readStrict?_write htime⟩
    rw [Store.get?_stamp (by decide), if_neg (by decide)]
    rfl

/-- **What a save does that succeeds.**  It inserts the version that it answers, and prunes the history
if the entity keeps a limited number of versions. -/
theorem of_save [PatternEngine] (htime : time.Printable)
    (h : Action.runOn env (save entity .collection (some parent) data status time) b = (.ok v, b')) :
    ∃ b₁, v = ⟨env.ids b.store.drawn, some parent, snapshot data status, time, time⟩ ∧
      (∀ r ∈ b.store.recordsOf entity.versionsCollection, Record.id? r ≠ some v.id) ∧
      Store.Gains entity.versionsCollection (Store.stamp v.id b.store.sequence 0
        (newRecord .collection (some parent) data status time)) b.store b₁.store ∧
      b₁.store.sequence = b.store.sequence + 1 ∧
      ∀ config, entity.versions = some config →
        if 0 < config.maxPerDoc then ∃ n, Action.runOn env
          (prune entity .collection (some parent) config.maxPerDoc) b₁ = (.ok n, b')
        else b' = b₁ := by
  unfold save at h
  obtain ⟨shown, b₁, hinsert, hrest⟩ := Action.of_runOn_bind h
  obtain ⟨own, hown, hfresh, hgains, hsequence, rfl⟩ :=
    Store.gains_of_insert (Action.insert_of_runOn hinsert)
  rw [id?_newRecord, Option.getD_none] at hown
  subst hown
  have hstored := isStored_stamp htime (env.ids b.store.drawn) parent data status b.store.sequence
  obtain ⟨read, b₂, hread, hlast⟩ := Action.of_runOn_bind hrest
  rw [Action.runOn_ofExcept, hstored.ofRecord_sanitize] at hread
  cases hread
  cases hversions : entity.versions with
  | none =>
    rw [hversions] at hlast
    cases hlast
    exact ⟨_, rfl, hfresh, hgains, hsequence, fun config hconfig => by cases hconfig⟩
  | some config =>
    rw [hversions] at hlast
    dsimp only at hlast
    by_cases hmax : 0 < config.maxPerDoc
    · rw [if_pos hmax] at hlast
      obtain ⟨n, b₃, hprune, hanswer⟩ := Action.of_runOn_bind hlast
      cases hanswer
      refine ⟨_, rfl, hfresh, hgains, hsequence, fun config' hconfig => ?_⟩
      cases hconfig
      rw [if_pos hmax]
      exact ⟨n, hprune⟩
    · rw [if_neg hmax] at hlast
      cases hlast
      refine ⟨_, rfl, hfresh, hgains, hsequence, fun config' hconfig => ?_⟩
      cases hconfig
      rw [if_neg hmax]

/-- The versions that are saved are stored as they are answered. -/
theorem isStored_of_save [PatternEngine] (htime : time.Printable)
    (h : Action.runOn env (save entity .collection (some parent) data status time) b = (.ok v, b')) :
    v.IsStored (Store.stamp v.id b.store.sequence 0
      (newRecord .collection (some parent) data status time)) := by
  obtain ⟨_, rfl, _⟩ := of_save htime h
  exact isStored_stamp htime _ _ _ _ _

/-! ### Pruning -/

/-- A version of a document. -/
def ofParent (parent : String) (x : StoredVersion) : Bool :=
  x.version.parent == some parent

/-- The versions of a document, newest first. -/
def newestOf (parent : String) (stored : List StoredVersion) : List StoredVersion :=
  sortStably StoredVersion.precedes (stored.filter (ofParent parent))

/-- Whether a version is not too old to stay. -/
def staysIn (max : Nat) (parent : String) (stored : List StoredVersion) (x : StoredVersion) : Bool :=
  !(((newestOf parent stored).drop max).map (·.version.id)).contains x.version.id

/-- The clause for the versions of a document selects them. -/
theorem selects_ownerClause [PatternEngine]
    (hplain : Time.readStrict? parent = none) (x : StoredVersion) :
    Predicate.selects (some (.compare "parent" .equals (.str parent))) x.record =
      ofParent parent x := by
  rw [Predicate.selects, Predicate.holdsFor,
    Predicate.holds_equals_plain x.stored.resolve_parent hplain]
  rfl

/-- The clause for a list of ids selects the versions with these ids. -/
theorem selects_isIn_ids [PatternEngine]
    {x : StoredVersion} (hplain : Time.readStrict? x.version.id = none)
    (ids : List String) :
    Predicate.selects (some (.compare "id" .isIn (.arr (ids.map .str)))) x.record =
      ids.contains x.version.id := by
  have hpath : Path.segments "id" = ["id"] := rfl
  have hvalue : Record.resolve x.record "id" = [.str x.version.id] := by
    rw [Record.resolve_name hpath, x.stored.id]
    rfl
  rw [Predicate.selects, Predicate.holdsFor, Predicate.holds_isIn_texts ids hvalue hplain]
  rfl

/-- The ids that a list of versions shows. -/
theorem ids_present (versions : List StoredVersion) :
    (versions.map fun x => Record.sanitize x.record).filterMap (Table.get? "id") =
      (versions.map (·.version.id)).map Json.str := by
  induction versions with
  | nil => rfl
  | cons x rest ih =>
    have hid : Table.get? "id" (Record.sanitize x.record) = some (.str x.version.id) := by
      rw [Record.get?_sanitize, if_neg (by decide), x.stored.id]
    rw [List.map_cons, List.filterMap_cons, hid, ih]
    rfl

/-- **The history of a document lists its versions, newest first.** -/
theorem found_of_select [PatternEngine] {c : Collection} {q : Query} {stored : List StoredVersion}
    {found : List Record} (hrecords : c.records = stored.map StoredVersion.record)
    (hfilter : q.filter = some (.compare "parent" .equals (.str parent)))
    (hplain : Time.readStrict? parent = none)
    (h : Store.select c q (.sortedBy newestFirst) = .ok found) :
    found = (newestOf parent stored).map StoredVersion.record := by
  obtain ⟨matched, hmatched, hsorted⟩ := Except.bind_eq_ok_iff.1 h
  have hmatches : matched = (stored.filter (ofParent parent)).map StoredVersion.record := by
    rw [Store.eq_filter_of_matching hmatched, hrecords, List.filter_map, hfilter]
    exact congrArg _ (List.filter_congr fun x _ => selects_ownerClause hplain x)
  cases hsorted
  rw [hmatches]
  exact sortStably_map _ StoredVersion.record _

/-- **Pruning takes away all but the newest versions of the document.** -/
theorem of_prune [PatternEngine] {max n : Nat} {stored : List StoredVersion}
    (hstored : b.store.recordsOf entity.versionsCollection = stored.map StoredVersion.record)
    (hids : ∀ x ∈ stored, Time.readStrict? x.version.id = none)
    (hplain : Time.readStrict? parent = none)
    (h : Action.runOn env (prune entity .collection (some parent) max) b = (.ok n, b')) :
    b'.store.recordsOf entity.versionsCollection =
        (stored.filter (staysIn max parent stored)).map StoredVersion.record ∧
      b'.store.sequence = b.store.sequence := by
  unfold prune at h
  obtain ⟨q, b₁, hasked, hrest⟩ := Action.of_runOn_bind h
  obtain ⟨rfl, hquery⟩ := Action.buildQuery_of_runOn hasked
  obtain ⟨c, hcollection, hq⟩ := Except.bind_eq_ok_iff.1 hquery
  cases hq
  have hc := Store.get?_of_collection? hcollection
  have hrecords : c.records = stored.map StoredVersion.record := by
    rw [← hstored, Store.recordsOf_of_get? hc]
  obtain ⟨page, b₂, hlooked, hdelete⟩ := Action.of_runOn_bind hrest
  obtain ⟨rfl, hfind⟩ := Action.find_of_runOn hlooked
  obtain ⟨found, hselect, hdocs⟩ := Store.docs_of_find hc hfind
  -- No locale is asked for, so the path of the parent is stored as it is.
  have hfilter : (ownerClause .collection (some parent)).map
      (·.mapPaths (Store.storedPath c.localizedPaths none)) =
      some (.compare "parent" .equals (.str parent)) := by
    have hparent : Path.toData "parent" = "parent" := by decide
    simp only [ownerClause, Option.map_some, Predicate.mapPaths_compare, Store.storedPath, hparent]
  have hfound := found_of_select hrecords hfilter hplain hselect
  have hexpired : (page.docs.drop max).filterMap (Table.get? "id") =
      (((newestOf parent stored).drop max).map (·.version.id)).map Json.str := by
    rw [hdocs, hfound, ← ids_present, Store.slice, List.map_map, ← List.map_drop]
    rfl
  dsimp only at hdelete
  rw [hexpired] at hdelete
  -- The store is asked for a deletion only if something has expired.
  cases hdrop : (newestOf parent stored).drop max with
  | nil =>
    rw [hdrop] at hdelete
    cases hdelete
    have hall : stored.filter (staysIn max parent stored) = stored := by
      rw [List.filter_eq_self]
      intro x _
      rw [staysIn, hdrop]
      rfl
    rw [hall]
    exact ⟨hstored, rfl⟩
  | cons first rest =>
    have hsome : (((newestOf parent stored).drop max).map (·.version.id)).map Json.str ≠ [] := by
      rw [hdrop]
      simp
    rw [if_neg (by simpa using hsome)] at hdelete
    obtain ⟨q, b₃, hasked, hdelete⟩ := Action.of_runOn_bind hdelete
    obtain ⟨rfl, hquery⟩ := Action.buildQuery_of_runOn hasked
    rw [Store.buildQuery_of_get? hc] at hquery
    cases hquery
    have hdeleted := Action.deleteMany_of_runOn hdelete
    obtain ⟨_, hkept, _, _⟩ := Store.shrinks_of_deleteMany hdeleted
    have hsequence := congrArg (·.2.sequence) hdeleted
    rw [Store.sequence_deleteMany] at hsequence
    refine ⟨?_, hsequence.symm⟩
    have hid : Path.toData "id" = "id" := by decide
    rw [hkept, hstored, List.filter_map]
    simp only [Option.map_some, Predicate.mapPaths_compare, Store.storedPath, hid]
    refine congrArg _ (List.filter_congr fun x hx => ?_)
    exact congrArg not (selects_isIn_ids (hids x hx) _)

section Stays

variable {max : Nat} {stored : List StoredVersion} {x : StoredVersion}

/-- The history of a document has its versions. -/
theorem mem_newestOf : x ∈ newestOf parent stored ↔ x ∈ stored ∧ ofParent parent x = true := by
  rw [newestOf, mem_sortStably, List.mem_filter]

/-- A version stays unless it comes late in the list of its document. -/
theorem staysIn_iff (hids : (stored.map (·.version.id)).Nodup) (hx : x ∈ stored) :
    staysIn max parent stored x = true ↔ x ∉ (newestOf parent stored).drop max := by
  rw [staysIn, Bool.not_eq_true', Bool.eq_false_iff, ne_eq, List.contains_iff_mem, List.mem_map,
    not_iff_not]
  constructor
  · rintro ⟨y, hy, hid⟩
    have hmem := (mem_newestOf.1 (List.mem_of_mem_drop hy)).1
    exact List.inj_on_of_nodup_map hids hmem hx hid ▸ hy
  · intro hdropped
    exact ⟨x, hdropped, rfl⟩

/-- The versions of other documents stay. -/
theorem staysIn_of_other (hids : (stored.map (·.version.id)).Nodup) (hx : x ∈ stored)
    (hother : ofParent parent x = false) : staysIn max parent stored x = true := by
  rw [staysIn_iff hids hx]
  intro hdropped
  have hown := (mem_newestOf.1 (List.mem_of_mem_drop hdropped)).2
  rw [hother] at hown
  cases hown

/-- Of other documents all versions stay. -/
theorem filter_staysIn_of_other (hids : (stored.map (·.version.id)).Nodup) {other : String}
    (hother : other ≠ parent) : (stored.filter (staysIn max parent stored)).filter (ofParent other) =
      stored.filter (ofParent other) := by
  rw [List.filter_filter]
  refine List.filter_congr fun x hx => ?_
  cases hown : ofParent other x with
  | false => rfl
  | true =>
    rw [ofParent, beq_iff_eq] at hown
    apply staysIn_of_other hids hx
    rw [ofParent, hown, beq_eq_false_iff_ne, ne_eq, Option.some.injEq]
    exact hother

/-- Versions that were inserted one after the other are listed newest first. -/
theorem pairwise_newestOf (hinserted : stored.Pairwise fun x y =>
    Record.counter Record.sequenceField x.record < Record.counter Record.sequenceField y.record) :
    (newestOf parent stored).Pairwise StoredVersion.Newer := by
  have htotal : (stored.filter (ofParent parent)).Pairwise fun x y =>
      x.precedes y = true ∨ y.precedes x = true := by
    refine (hinserted.sublist List.filter_sublist).imp ?_
    intro x y hlt
    rw [StoredVersion.precedes_iff, StoredVersion.precedes_iff]
    exact StoredVersion.newer_or_newer hlt
  refine (pairwise_sortStably ?_ htotal).imp StoredVersion.precedes_iff.1
  intro x y z hxy hyz
  rw [StoredVersion.precedes_iff] at hxy hyz ⊢
  exact hxy.trans hyz

end Stays

/-! ### Runs of saves -/

/-- The versions that come about by saving versions of documents, from a backend on, and the backend
that is left.  A version is listed with its record as it was inserted. -/
inductive Saves [PatternEngine] (env : Surroundings) (entity : Entity) (start : Backend) :
    List StoredVersion → Backend → Prop
  | start : Saves env entity start [] start
  | save {saved : List StoredVersion} {b b' : Backend} {parent : String} {data : Record}
      {status : Status} {time : Instant} {v : Version} (before : Saves env entity start saved b)
      (printable : time.Printable) (plain : Time.readStrict? parent = none)
      (answered : Action.runOn env (save entity .collection (some parent) data status time) b =
        (.ok v, b')) :
      Saves env entity start (saved ++ [⟨Store.stamp v.id b.store.sequence 0
        (newRecord .collection (some parent) data status time), v,
        isStored_of_save printable answered⟩]) b'

/-- What a history keeps of the versions that have been saved, at most `max` of each document. -/
structure Keeps (max : Nat) (saved kept : List StoredVersion) : Prop where
  sublist : kept.Sublist saved
  unlimited : max = 0 → kept = saved
  newest : 0 < max → ∀ parent, KeepsGreatest StoredVersion.Newer max
    (saved.filter (ofParent parent)) (kept.filter (ofParent parent))

/-- A history with what it keeps, in a store. -/
structure Holding (entity : Entity) (saved kept : List StoredVersion) (s : Store) : Prop where
  records : s.recordsOf entity.versionsCollection = kept.map StoredVersion.record
  inserted : saved.Pairwise fun x y => Record.counter Record.sequenceField x.record <
    Record.counter Record.sequenceField y.record
  below : ∀ x ∈ saved, Record.counter Record.sequenceField x.record < s.sequence
  ids : (kept.map (·.version.id)).Nodup
  plain : ∀ x ∈ kept, Time.readStrict? x.version.id = none

/-- Versions with growing numbers are different. -/
theorem nodup_of_inserted {saved : List StoredVersion}
    (h : saved.Pairwise fun x y => Record.counter Record.sequenceField x.record <
      Record.counter Record.sequenceField y.record) : saved.Nodup := by
  refine h.imp ?_
  intro x y hlt heq
  rw [heq] at hlt
  exact Nat.lt_irrefl _ hlt

/-- **The newest versions are kept by one save.** -/
theorem Keeps.concat {max : Nat} {saved kept : List StoredVersion} {x : StoredVersion}
    (h : Keeps max saved kept) (hmax : 0 < max) (hx : x.version.parent = some parent)
    (hinserted : (saved ++ [x]).Pairwise fun x y => Record.counter Record.sequenceField x.record <
      Record.counter Record.sequenceField y.record)
    (hids : ((kept ++ [x]).map (·.version.id)).Nodup) :
    Keeps max (saved ++ [x]) ((kept ++ [x]).filter (staysIn max parent (kept ++ [x]))) := by
  have hsublist : (kept ++ [x]).Sublist (saved ++ [x]) := h.sublist.append_right [x]
  refine ⟨List.filter_sublist.trans hsublist, fun hzero => absurd hzero (by omega), ?_⟩
  intro _ other
  have hold := h.newest hmax other
  rw [List.filter_append]
  by_cases hother : other = parent
  · subst hother
    have hlast : [x].filter (ofParent other) = [x] := by
      rw [List.filter_singleton, ofParent, hx, beq_self_eq_true]
      rfl
    have hown : (kept ++ [x]).filter (ofParent other) = kept.filter (ofParent other) ++ [x] := by
      rw [List.filter_append, hlast]
    have hnodup : (saved.filter (ofParent other) ++ [x]).Nodup := by
      rw [← hlast, ← List.filter_append]
      exact (nodup_of_inserted hinserted).filter _
    have hperm : (newestOf other (kept ++ [x])).Perm (kept.filter (ofParent other) ++ [x]) :=
      hown ▸ perm_sortStably _ _
    have hsorted : (newestOf other (kept ++ [x])).Pairwise StoredVersion.Newer :=
      pairwise_newestOf (hinserted.sublist hsublist)
    have hstays : ∀ y ∈ kept.filter (ofParent other) ++ [x],
        staysIn max other (kept ++ [x]) y = true ↔ y ∉ (newestOf other (kept ++ [x])).drop max :=
      fun y hy => staysIn_iff hids (List.mem_of_mem_filter (hown ▸ hy))
    have hkept := hold.concat hnodup (fun _ _ _ hab hbc => hab.trans hbc) hperm hsorted hstays
    rwa [hlast, List.filter_comm, hown]
  -- Versions of other documents neither expire nor count.
  · have hlast : [x].filter (ofParent other) = [] := by
      have hne : ofParent other x = false := by
        rw [ofParent, hx, beq_eq_false_iff_ne, ne_eq, Option.some.injEq]
        exact fun heq => hother heq.symm
      rw [List.filter_singleton, hne]
      rfl
    rw [filter_staysIn_of_other hids hother, List.filter_append, hlast, List.append_nil,
      List.append_nil]
    exact hold

/-- A new version is in the history before it is pruned. -/
theorem Holding.concat {saved kept : List StoredVersion} {x : StoredVersion} {s s' : Store}
    (h : Holding entity saved kept s)
    (hfresh : ∀ r ∈ s.recordsOf entity.versionsCollection, Record.id? r ≠ some x.version.id)
    (hgains : s'.recordsOf entity.versionsCollection =
      s.recordsOf entity.versionsCollection ++ [x.record])
    (hnumber : Record.counter Record.sequenceField x.record = s.sequence)
    (hsequence : s'.sequence = s.sequence + 1) (hplain : Time.readStrict? x.version.id = none) :
    Holding entity (saved ++ [x]) (kept ++ [x]) s' where
  records := by rw [hgains, h.records, List.map_append, List.map_singleton]
  inserted := by
    rw [List.pairwise_append]
    refine ⟨h.inserted, List.pairwise_singleton _ _, ?_⟩
    intro y hy z hz
    rw [List.mem_singleton.1 hz, hnumber]
    exact h.below y hy
  below := by
    intro y hy
    rw [hsequence]
    rcases List.mem_append.1 hy with hold | hnew
    · exact Nat.lt_succ_of_lt (h.below y hold)
    · rw [List.mem_singleton.1 hnew, hnumber]
      exact Nat.lt_succ_self _
  ids := by
    rw [List.map_append, List.map_singleton, List.nodup_append]
    refine ⟨h.ids, List.nodup_singleton _, ?_⟩
    intro a ha b hb heq
    obtain ⟨y, hy, rfl⟩ := List.mem_map.1 ha
    have hmem : y.record ∈ s.recordsOf entity.versionsCollection :=
      h.records ▸ List.mem_map_of_mem hy
    apply hfresh _ hmem
    rw [Record.id?, y.stored.id, ← List.mem_singleton.1 hb, ← heq]
    rfl
  plain := by
    intro y hy
    rcases List.mem_append.1 hy with hold | hnew
    · exact h.plain y hold
    · exact List.mem_singleton.1 hnew ▸ hplain

/-- A store that has lost some of its versions still holds what was saved. -/
theorem Holding.sublist {saved kept kept' : List StoredVersion} {s s' : Store}
    (h : Holding entity saved kept s) (hkept : kept'.Sublist kept)
    (hrecords : s'.recordsOf entity.versionsCollection = kept'.map StoredVersion.record)
    (hsequence : s'.sequence = s.sequence) : Holding entity saved kept' s' where
  records := hrecords
  inserted := h.inserted
  below := by
    rw [hsequence]
    exact h.below
  ids := h.ids.sublist (hkept.map _)
  plain := fun x hx => h.plain x (hkept.subset hx)

section

variable [PatternEngine]

/-- **One save.**  The new version is put into the history, and versions of the same document may be
taken away. -/
theorem Holding.save {config : Versioning} (hversions : entity.versions = some config)
    (hids : ∀ n, Time.readStrict? (env.ids n) = none) {saved kept : List StoredVersion}
    (h : Holding entity saved kept b.store) (hkeeps : Keeps config.maxPerDoc saved kept)
    (htime : time.Printable) (hplain : Time.readStrict? parent = none)
    (hsave : Action.runOn env (History.save entity .collection (some parent) data status time) b =
      (.ok v, b')) :
    let x : StoredVersion := ⟨Store.stamp v.id b.store.sequence 0
      (newRecord .collection (some parent) data status time), v, isStored_of_save htime hsave⟩
    ∃ kept', Holding entity (saved ++ [x]) kept' b'.store ∧
      Keeps config.maxPerDoc (saved ++ [x]) kept' ∧ kept'.Sublist (kept ++ [x]) ∧
      ∀ y ∈ kept ++ [x], ofParent parent y = false → y ∈ kept' := by
  intro x
  obtain ⟨b₁, hv, hfresh, hgains, hsequence, hrest⟩ := of_save htime hsave
  have hparent : x.version.parent = some parent := by
    show v.parent = some parent
    rw [hv]
  have hplainId : Time.readStrict? x.version.id = none := by
    show Time.readStrict? v.id = none
    rw [hv]
    exact hids _
  have hheld : Holding entity (saved ++ [x]) (kept ++ [x]) b₁.store :=
    h.concat hfresh hgains.1 (Store.counter_stamp _ _ _ _) hsequence hplainId
  have hlast := hrest config hversions
  by_cases hmax : 0 < config.maxPerDoc
  · rw [if_pos hmax] at hlast
    obtain ⟨n, hprune⟩ := hlast
    obtain ⟨hrecords, hsame⟩ := of_prune hheld.records hheld.plain hplain hprune
    refine ⟨_, hheld.sublist List.filter_sublist hrecords hsame,
      hkeeps.concat hmax hparent hheld.inserted hheld.ids, List.filter_sublist, ?_⟩
    intro y hy hother
    exact List.mem_filter.2 ⟨hy, staysIn_of_other hheld.ids hy hother⟩
  · rw [if_neg hmax] at hlast
    subst hlast
    have hzero : config.maxPerDoc = 0 := by omega
    have hall : kept = saved := hkeeps.unlimited hzero
    refine ⟨kept ++ [x], hheld, ⟨hkeeps.sublist.append_right [x], fun _ => by rw [hall],
      fun hpos => absurd hpos hmax⟩, List.Sublist.refl _, fun y hy _ => hy⟩

/-- What is held after any saves. -/
theorem Saves.holding {config : Versioning} (hversions : entity.versions = some config)
    (hids : ∀ n, Time.readStrict? (env.ids n) = none) {start : Backend}
    (hempty : start.store.recordsOf entity.versionsCollection = []) {saved : List StoredVersion}
    (h : Saves env entity start saved b) :
    ∃ kept, Holding entity saved kept b.store ∧ Keeps config.maxPerDoc saved kept := by
  induction h with
  | start =>
    refine ⟨[], ⟨hempty, List.Pairwise.nil, by simp, List.nodup_nil, by simp⟩,
      ⟨List.Sublist.refl _, fun _ => rfl, fun _ _ => KeepsGreatest.nil _ _⟩⟩
  | save before printable plain answered ih =>
    obtain ⟨kept, hheld, hkeeps⟩ := ih
    obtain ⟨kept', hheld', hkeeps', _⟩ := hheld.save hversions hids hkeeps printable plain answered
    exact ⟨kept', hheld', hkeeps'⟩

/-- A record of another document is in the history after a save exactly if it was before. -/
theorem Holding.mem_iff {config : Versioning} (hversions : entity.versions = some config)
    (hids : ∀ n, Time.readStrict? (env.ids n) = none) {saved kept : List StoredVersion}
    (h : Holding entity saved kept b.store) (hkeeps : Keeps config.maxPerDoc saved kept)
    (htime : time.Printable) (hplain : Time.readStrict? parent = none)
    (hsave : Action.runOn env (History.save entity .collection (some parent) data status time) b =
      (.ok v, b')) {r : Record} (hr : Table.get? "parent" r ≠ some (.str parent)) :
    r ∈ b'.store.recordsOf entity.versionsCollection ↔
      r ∈ b.store.recordsOf entity.versionsCollection := by
  obtain ⟨kept', hheld', _, hsublist, hothers⟩ :=
    h.save hversions hids hkeeps htime hplain hsave
  have hother (y : StoredVersion) (hy : y.record = r) : ofParent parent y = false := by
    rw [ofParent, beq_eq_false_iff_ne]
    intro heq
    apply hr
    rw [← hy, y.stored.parent, heq]
    rfl
  rw [hheld'.records, h.records, List.mem_map, List.mem_map]
  constructor
  · intro hmem
    obtain ⟨y, hy, hyr⟩ := hmem
    rcases List.mem_append.1 (hsublist.subset hy) with hold | hnew
    · exact ⟨y, hold, hyr⟩
    · have hown : ofParent parent y = true := by
        obtain ⟨_, hv, _⟩ := of_save htime hsave
        have hparent : v.parent = some parent := by rw [hv]
        rw [List.mem_singleton.1 hnew]
        exact beq_iff_eq.2 hparent
      rw [hother y hyr] at hown
      cases hown
  · intro hmem
    obtain ⟨y, hy, hyr⟩ := hmem
    exact ⟨y, hothers y (List.mem_append_left _ hy) (hother y hyr), hyr⟩

/-- **A history keeps exactly the newest versions of each document.**  After any saves of versions, each
of which succeeds, the collection of versions that was empty before holds records as they were inserted:
of each document those of the newest versions that have ever been saved, as many as the entity keeps, or
of all of them if it keeps any number.  The next save takes away and adds versions of its own document
only. -/
theorem Saves.keeps_newest {config : Versioning} (hversions : entity.versions = some config)
    (hids : ∀ n, Time.readStrict? (env.ids n) = none) {start : Backend}
    (hempty : start.store.recordsOf entity.versionsCollection = []) {saved : List StoredVersion}
    (h : Saves env entity start saved b) :
    (∃ kept, b.store.recordsOf entity.versionsCollection = kept.map StoredVersion.record ∧
      kept.Sublist saved ∧ (config.maxPerDoc = 0 → kept = saved) ∧
      (0 < config.maxPerDoc → ∀ parent, KeepsGreatest StoredVersion.Newer config.maxPerDoc
        (saved.filter (ofParent parent)) (kept.filter (ofParent parent)))) ∧
    ∀ parent data status time v b', time.Printable → Time.readStrict? parent = none →
      Action.runOn env (History.save entity .collection (some parent) data status time) b = (.ok v, b') →
      ∀ r, Table.get? "parent" r ≠ some (.str parent) →
        (r ∈ b'.store.recordsOf entity.versionsCollection ↔
          r ∈ b.store.recordsOf entity.versionsCollection) := by
  obtain ⟨kept, hheld, hkeeps⟩ := h.holding hversions hids hempty
  refine ⟨⟨kept, hheld.records, hkeeps.sublist, hkeeps.unlimited, hkeeps.newest⟩, ?_⟩
  intro parent data status time v b' htime hplain hsave r hr
  exact hheld.mem_iff hversions hids hkeeps htime hplain hsave hr

end

/-! A page of which one version is kept is saved first on a later and then on an earlier day. -/

/-- Pages with one version each. -/
def pages : Entity :=
  { Entity.ofFields "pages" [] with versions := some ⟨true, 1⟩ }

/-- A backend without versions of pages. -/
def pagesStart : Backend :=
  ⟨Store.empty.register pages.versionsCollection [], [], .fresh⟩

/-- Saves the page with the id `p` on a day. -/
def savePage (day : Int) : Action StoreError Version :=
  save pages .collection (some "p") [("title", .str "Start")] .draft ⟨day * 86400, 0⟩

theorem keeps_newest_pages :
    ∃ saved b, Saves .backward pages pagesStart saved b ∧ saved.length = 2 ∧
      ∃ kept : List StoredVersion,
        b.store.recordsOf pages.versionsCollection = kept.map StoredVersion.record ∧
        KeepsGreatest StoredVersion.Newer 1 (saved.filter (ofParent "p"))
          (kept.filter (ofParent "p")) := by
  have hlater : (Action.runOn .backward (savePage 2) pagesStart).1.isOk = true := by decide +kernel
  have hearlier : (Action.runOn .backward (savePage 1)
      (Action.runOn .backward (savePage 2) pagesStart).2).1.isOk = true := by decide +kernel
  obtain ⟨v, hv⟩ := Except.exists_of_isOk hlater
  obtain ⟨w, hw⟩ := Except.exists_of_isOk hearlier
  have hone : Saves .backward pages pagesStart _ _ :=
    .save .start ⟨by decide, by decide⟩ rfl (Prod.ext hv rfl)
  have htwo := Saves.save hone ⟨by decide, by decide⟩ rfl (Prod.ext hw rfl)
  have hversions : pages.versions = some ⟨true, 1⟩ := rfl
  obtain ⟨⟨kept, hrecords, _, _, hnewest⟩, _⟩ :=
    Saves.keeps_newest hversions Surroundings.proper_backward.plain rfl htwo
  exact ⟨_, _, htwo, rfl, kept, hrecords, hnewest Nat.one_pos "p"⟩

end History

end HeadlessCms
