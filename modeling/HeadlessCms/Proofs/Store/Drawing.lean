import HeadlessCms.Proofs.Store.Bookkeeping

/-!
# Ids that have been drawn

A record that is inserted without an id gets the next one of a sequence.  So as long as nobody brings an id
along, all records have ids that have been drawn from the sequence (`Store.Drawn`).
-/

namespace HeadlessCms

namespace Store

/-- All records have ids that have been drawn. -/
def Drawn (ids : Nat → String) (s : Store) : Prop :=
  ∀ name, ∀ r ∈ s.recordsOf name, ∃ k < s.drawn, Record.id? r = some (ids k)

variable {ids : Nat → String} {s : Store} {name id : String} {record : Record}

/-- The insertion of a record that gets its id from the store. -/
theorem insert_eq (ids : Nat → String) {c : Collection}
    (hc : Table.get? name s.collections = some c) (hid : Record.id? record = none) :
    s.insert ids name record =
      if c.records.any (Record.id? · == some (ids s.drawn)) then
        (.error (.duplicateId name (ids s.drawn)), { s with drawn := s.drawn + 1 })
      else
        (.ok (Record.sanitize (stamp (ids s.drawn) s.sequence 0 record)),
          { s.withRecords name c (c.records ++ [stamp (ids s.drawn) s.sequence 0 record]) with
            sequence := s.sequence + 1, drawn := s.drawn + 1 }) := by
  unfold insert
  rw [hc, hid]
  rfl

/-- A collection may be replaced by one with drawn ids. -/
theorem Drawn.withRecords (h : s.Drawn ids) {c : Collection} {records : List Record} {s' : Store}
    (hrecords : ∀ r ∈ records, ∃ k < s'.drawn, Record.id? r = some (ids k))
    (hs : s'.collections = (s.withRecords name c records).collections) (hdrawn : s.drawn ≤ s'.drawn) :
    s'.Drawn ids := by
  intro other r hr
  rw [recordsOf_of_collections hs] at hr
  by_cases hother : other = name
  · subst hother
    rw [recordsOf_withRecords] at hr
    exact hrecords r hr
  · rw [(sameBut_withRecords s name c records).recordsOf hother] at hr
    obtain ⟨k, hk, hid⟩ := h other r hr
    exact ⟨k, Nat.lt_of_lt_of_le hk hdrawn, hid⟩

/-- An inserted record gets the next drawn id. -/
theorem Drawn.insert (h : s.Drawn ids) (name : String) (hid : Record.id? record = none) :
    (s.insert ids name record).2.Drawn ids := by
  cases hc : Table.get? name s.collections with
  | none =>
    unfold Store.insert
    rw [hc]
    exact h
  | some c =>
    rw [insert_eq ids hc hid]
    split
    · intro other r hr
      obtain ⟨k, hk, hold⟩ := h other r hr
      exact ⟨k, Nat.lt_succ_of_lt hk, hold⟩
    · refine h.withRecords (fun r hr => ?_) rfl (Nat.le_succ _)
      rcases List.mem_append.1 hr with hr | hr
      · obtain ⟨k, hk, hold⟩ := h name r (recordsOf_of_get? hc ▸ hr)
        exact ⟨k, Nat.lt_succ_of_lt hk, hold⟩
      · rw [List.mem_singleton.1 hr]
        exact ⟨s.drawn, Nat.lt_succ_self _, id?_stamp⟩

/-- An update keeps the id of its record. -/
theorem Drawn.update (h : s.Drawn ids) (name id : String) (record : Record) :
    (s.update name id record).2.Drawn ids := by
  unfold Store.update
  split
  · exact h
  · next c hc =>
    split
    · exact h
    · next existing hexisting =>
      refine h.withRecords (fun r hr => ?_) rfl (Nat.le_refl _)
      rcases mem_replaceFirst hr with hr | ⟨sequence, revision, rfl⟩
      · exact h name r (recordsOf_of_get? hc ▸ hr)
      · obtain ⟨k, hk, hold⟩ := h name existing
          (recordsOf_of_get? hc ▸ List.mem_of_find?_eq_some hexisting)
        have hfound : Record.id? existing = some id := by simpa using List.find?_some hexisting
        exact ⟨k, hk, id?_stamp.trans (hfound.symm.trans hold)⟩

/-- A deletion leaves drawn ids only. -/
theorem Drawn.deleteMany [PatternEngine]
    (h : s.Drawn ids) (q : Query) : (s.deleteMany q).2.Drawn ids := by
  unfold Store.deleteMany
  split
  · exact h
  · next c hc =>
    split
    · exact h
    · next kept hkept =>
      exact h.withRecords (fun r hr => h _ r (recordsOf_of_get? hc ▸ mem_of_mem_remaining hkept hr))
        rfl (Nat.le_refl _)

end Store

end HeadlessCms
