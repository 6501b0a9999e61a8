import HeadlessCms.Proofs.Except
import HeadlessCms.Proofs.Table
import HeadlessCms.Store.Process

/-!
# Records are numbered in the order of insertion

The store numbers the records that it inserts.  An update keeps the number of its record, and a
deletion keeps the order of the others, so in every collection of every store that can come about
(`Store.Reached`) the numbers grow from record to record (`Store.Reached.numbered`).  This is why the
number of a record can stand for the time of its insertion where results are ordered.
-/

namespace HeadlessCms

/-- The numbers of the records of a collection. -/
def Collection.numbers (c : Collection) : List Nat :=
  c.records.map (Record.counter Record.sequenceField)

/-- Numbers that grow and stay below the next one. -/
structure Collection.Numbered (c : Collection) (next : Nat) : Prop where
  increasing : c.numbers.Pairwise (· < ·)
  below : ∀ n ∈ c.numbers, n < next

namespace Store

/-- The number of a stamped record. -/
theorem counter_stamp (id : String) (sequence revision : Nat) (record : Record) :
    Record.counter Record.sequenceField (stamp id sequence revision record) = sequence := by
  have hnumber : Table.get? Record.sequenceField (stamp id sequence revision record) =
      some (.nat sequence) := by
    rw [stamp, Table.get?_insert, if_neg (by decide), Table.get?_insert, if_pos rfl]
  rw [Record.counter, hnumber]
  rfl

/-- **An update keeps all numbers.** -/
theorem numbers_replaceFirst (id : String) (record : Record) (records : List Record) :
    (replaceFirst id record records).map (Record.counter Record.sequenceField) =
      records.map (Record.counter Record.sequenceField) := by
  induction records with
  | nil => rfl
  | cons existing rest ih =>
    unfold replaceFirst
    split
    · rw [List.map_cons, List.map_cons, revise, counter_stamp]
    · rw [List.map_cons, List.map_cons, ih]

/-- A deletion leaves the other records in their order. -/
theorem remaining_sublist [PatternEngine] {filter : Option Predicate} {records kept : List Record}
    (h : remaining filter records = .ok kept) : kept.Sublist records := by
  induction records generalizing kept with
  | nil =>
    cases h
    exact List.Sublist.refl []
  | cons x rest ih =>
    unfold remaining at h
    split at h
    · cases h
    · next doomed _ =>
      obtain ⟨more, hmore, h⟩ := Except.bind_eq_ok_iff.1 h
      cases h
      cases doomed with
      | true => exact (ih hmore).cons x
      | false => exact (ih hmore).cons_cons x

/-! ### Numbered stores -/

/-- A store all of whose collections are numbered. -/
def Numbered (s : Store) : Prop :=
  ∀ name c, Table.get? name s.collections = some c → c.Numbered s.sequence

variable {s : Store} {name : String} {c : Collection}

/-- The records of a numbered collection are in the order of their sequences. -/
theorem Numbered.recordsOf (h : s.Numbered) (name : String) :
    (s.recordsOf name).Pairwise fun a b =>
      Record.counter Record.sequenceField a < Record.counter Record.sequenceField b := by
  unfold Store.recordsOf
  split
  · next c hc => exact List.pairwise_map.1 (h name c hc).increasing
  · exact List.Pairwise.nil

/-- A collection may be replaced by a numbered one. -/
theorem Numbered.insert_collection (h : s.Numbered) (hc : c.Numbered s.sequence) :
    Numbered { s with collections := Table.insert name c s.collections } := by
  intro other c' hc'
  rw [Table.get?_insert] at hc'
  split at hc'
  · cases hc'
    exact hc
  · exact h other c' hc'

/-- A store without collections is numbered. -/
theorem numbered_empty : Store.empty.Numbered := by
  intro name c hc
  cases hc

/-- Registering a collection keeps the records that are there. -/
theorem Numbered.register (h : s.Numbered) (name : String) (paths : List String) :
    (s.register name paths).Numbered := by
  apply h.insert_collection
  unfold Store.recordsOf
  split
  · next c hc => exact ⟨(h name c hc).increasing, (h name c hc).below⟩
  · exact ⟨List.Pairwise.nil, fun n hn => absurd hn (List.not_mem_nil)⟩

/-- **A record that is inserted gets the greatest number.** -/
theorem Numbered.insert (h : s.Numbered) (ids : Nat → String) (name : String) (record : Record) :
    (s.insert ids name record).2.Numbered := by
  unfold Store.insert
  split
  · exact h
  · next c hc =>
    obtain ⟨hincreasing, hbelow⟩ := h name c hc
    -- Whatever id is drawn, the collection grows by a record with the next number.
    have hgrown (id : String) (drawn : Nat) : Numbered
        ⟨Table.insert name { c with records := c.records ++ [stamp id s.sequence 0 record] }
          s.collections, s.sequence + 1, drawn⟩ := by
      have hnext : Collection.Numbered
          { c with records := c.records ++ [stamp id s.sequence 0 record] } (s.sequence + 1) := by
        constructor
        · rw [Collection.numbers, List.map_append, List.map_singleton, counter_stamp,
            List.pairwise_append]
          refine ⟨hincreasing, List.pairwise_singleton _ _, ?_⟩
          intro n hn m hm
          rw [List.mem_singleton.1 hm]
          exact hbelow n hn
        · intro n hn
          rw [Collection.numbers, List.map_append, List.map_singleton, counter_stamp] at hn
          cases List.mem_append.1 hn with
          | inl hold => exact Nat.lt_succ_of_lt (hbelow n hold)
          | inr hnew =>
            rw [List.mem_singleton.1 hnew]
            exact Nat.lt_succ_self _
      have hothers : Numbered ⟨s.collections, s.sequence + 1, drawn⟩ := by
        intro other c' hc'
        have hold := h other c' hc'
        exact ⟨hold.increasing, fun n hn => Nat.lt_succ_of_lt (hold.below n hn)⟩
      exact hothers.insert_collection hnext
    cases Record.id? record with
    | none =>
      dsimp only
      split
      · exact h
      · exact hgrown (ids s.drawn) (s.drawn + 1)
    | some id =>
      dsimp only
      split
      · exact h
      · exact hgrown id s.drawn

/-- An update keeps the sequence of the record. -/
theorem Numbered.update (h : s.Numbered) (name id : String) (record : Record) :
    (s.update name id record).2.Numbered := by
  unfold Store.update
  split
  · exact h
  · next c hc =>
    split
    · exact h
    · obtain ⟨hincreasing, hbelow⟩ := h name c hc
      apply h.insert_collection
      constructor
      · rw [Collection.numbers, numbers_replaceFirst]
        exact hincreasing
      · rw [Collection.numbers, numbers_replaceFirst]
        exact hbelow

variable [PatternEngine]

/-- What a deletion leaves is still in order. -/
theorem Numbered.deleteMany (h : s.Numbered) (q : Query) : (s.deleteMany q).2.Numbered := by
  unfold Store.deleteMany
  split
  · exact h
  · next c hc =>
    split
    · exact h
    · next kept hkept =>
      have hsub := (remaining_sublist hkept).map (Record.counter Record.sequenceField)
      obtain ⟨hincreasing, hbelow⟩ := h q.collection c hc
      exact h.insert_collection ⟨hincreasing.sublist hsub, fun n hn => hbelow n (hsub.subset hn)⟩

/-! ### Stores that can come about -/

/-- The stores that come about from the empty one by any operations, successful or not. -/
inductive Reached : Store → Prop
  | empty : Reached .empty
  | register {s : Store} (before : Reached s) (name : String) (paths : List String) :
      Reached (s.register name paths)
  | insert {s : Store} (before : Reached s) (ids : Nat → String) (name : String) (record : Record) :
      Reached (s.insert ids name record).2
  | update {s : Store} (before : Reached s) (name id : String) (record : Record) :
      Reached (s.update name id record).2
  | deleteMany {s : Store} (before : Reached s) (q : Query) : Reached (s.deleteMany q).2

/-- **In every store that comes about the records are numbered in their order.** -/
theorem Reached.numbered (h : s.Reached) : s.Numbered := by
  induction h with
  | empty => exact numbered_empty
  | register _ name paths ih => exact ih.register name paths
  | insert _ ids name record ih => exact ih.insert ids name record
  | update _ name id record ih => exact ih.update name id record
  | deleteMany _ q ih => exact ih.deleteMany q

/-- What every operation keeps every call keeps. -/
theorem keeps_perform {I : Store → Prop} {env : Surroundings} {b : Backend} (h : I b.store)
    (hregister : ∀ s name paths, I s → I (s.register name paths))
    (hinsert : ∀ s name record, I s → I (s.insert env.ids name record).2)
    (hupdate : ∀ s name id record, I s → I (s.update name id record).2)
    (hdelete : ∀ s q, I s → I (s.deleteMany q).2) (c : Call) : I (b.perform env c).2.store := by
  cases c with
  | buildQuery | findOne | find | now => exact h
  | register name paths =>
    simp only [Backend.perform, Backend.change]
    split
    · exact h
    · exact hregister _ name paths h
  | insert name record =>
    simp only [Backend.perform, Backend.change]
    split
    · exact h
    · exact hinsert _ name record h
  | update name id record =>
    simp only [Backend.perform, Backend.change]
    split
    · exact h
    · exact hupdate _ name id record h
  | deleteMany q =>
    simp only [Backend.perform, Backend.change]
    split
    · exact h
    · exact hdelete _ q h

/-- A call leads from a store that comes about to another one. -/
theorem Reached.perform {env : Surroundings} {b : Backend} (h : b.store.Reached) (c : Call) :
    (b.perform env c).2.store.Reached :=
  keeps_perform h (fun _ name paths hs => hs.register name paths)
    (fun _ name record hs => hs.insert env.ids name record)
    (fun _ name id record hs => hs.update name id record) (fun _ q hs => hs.deleteMany q) c

/-- **Whatever a process does, the store comes about by operations.** -/
theorem Reached.run {α : Type} {env : Surroundings} (p : Process α) {b : Backend}
    (h : b.store.Reached) : (p.run env b).2.store.Reached := by
  induction p generalizing b with
  | done a => exact h
  | call c next ih => exact ih _ (h.perform c)

/-- Whatever a process does, a numbered store stays numbered. -/
theorem Numbered.run {α : Type} {env : Surroundings} (p : Process α) {b : Backend}
    (h : b.store.Numbered) : (p.run env b).2.store.Numbered := by
  induction p generalizing b with
  | done a => exact h
  | call c next ih =>
    exact ih _ (keeps_perform h (fun _ name paths hs => hs.register name paths)
      (fun _ name record hs => hs.insert env.ids name record)
      (fun _ name id record hs => hs.update name id record) (fun _ q hs => hs.deleteMany q) c)

end Store

end HeadlessCms
