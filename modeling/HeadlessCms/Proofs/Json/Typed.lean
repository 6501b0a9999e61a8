import HeadlessCms.Field.Codec
import HeadlessCms.Proofs.Except
import HeadlessCms.Proofs.Table

/-!
# Reading what has been written

Whatever a reader has made of a value, a writer should write so that the reader makes the same of it
again (`Typed.Rereads`).  Lists inherit this from their items (`Typed.rereads_list`).  A structure is
read member by member, so it inherits this from its members, as long as a member that is not written
has the default that the reader puts in its place.
-/

namespace HeadlessCms

/-! ### Look-ups among written members -/

namespace Table

variable {α : Type}

/-- A name is looked up in the first table, then in the second one. -/
theorem get?_append (key : String) (s t : Table α) :
    get? key (s ++ t) = (get? key s).or (get? key t) := by
  induction s with
  | nil => rfl
  | cons entry rest ih =>
    obtain ⟨k, v⟩ := entry
    by_cases h : k = key <;> simp [get?, h, ih]

/-- Entries with different keys are found in their table as in their list. -/
theorem get?_ofList {entries : List (String × α)} (h : (entries.map (·.1)).Nodup) (key : String) :
    get? key (ofList entries) = get? key entries := by
  rw [ofList, get?_insertAll_of_nodup h, get?, Option.or_none]

/-- Entries of a table with others put into it come from one of both. -/
theorem mem_insertAll {entries : List (String × α)} {t : Table α} {entry : String × α}
    (h : entry ∈ insertAll entries t) : entry ∈ entries ∨ entry ∈ t := by
  induction entries generalizing t with
  | nil => exact .inr h
  | cons first rest ih =>
    rcases ih h with h | h
    · exact .inl (List.mem_cons_of_mem _ h)
    · rcases mem_insert h with rfl | h
      · exact .inl List.mem_cons_self
      · exact .inr h

/-- A table is the table of its entries. -/
theorem ofList_eq_self {t : Table α} (h : Ascending t) : ofList t = t :=
  ext (ascending_ofList t) h (get?_ofList h.nodup_keys)

/-- A member that may be absent is found under its own name only. -/
theorem get?_memberOf (key name : String) (v : Option Json) :
    get? key (memberOf name v) = if name = key then v else none := by
  cases v <;> simp [memberOf, get?]

/-- A member that is there on a condition is found under its own name only. -/
theorem get?_memberWhen (key : String) (present : Bool) (name : String) (v : Json) :
    get? key (memberWhen present name v) =
      if name = key then if present then some v else none else none := by
  cases present <;> simp [memberWhen, get?]

/-- A member that may be absent has no other name. -/
theorem keys_memberOf (name : String) (v : Option Json) :
    (keys (memberOf name v)).Sublist [name] := by
  cases v with
  | none => exact List.nil_sublist _
  | some v => exact List.Sublist.refl _

/-- A member that is there on a condition has no other name. -/
theorem keys_memberWhen (present : Bool) (name : String) (v : Json) :
    (keys (memberWhen present name v)).Sublist [name] := by
  cases present with
  | false => exact List.nil_sublist _
  | true => exact List.Sublist.refl _

end Table

/-- The members of a table are read as they are. -/
theorem Json.readMembers_obj (names : List String) {t : Table Json} (h : t.Ascending) :
    Json.readMembers names (.obj t) = .ok t := by
  have honce (name : String) : (t.filter (·.1 == name)).length ≤ 1 := by
    have hcount := List.nodup_iff_count.1 h.nodup_keys name
    rwa [Table.keys, List.count, List.countP_map, List.countP_eq_length_filter] at hcount
  rw [readMembers, List.find?_eq_none.2]
  intro name _
  simpa using honce name

/-! ### Values that have been put in order -/

namespace Json

/-- Members that are in order already. -/
theorem normalizeMembers?_eq_self {members : List (String × Json)}
    (h : ∀ m ∈ members, m.2.normalize? = some m.2) : normalizeMembers? members = some members := by
  induction members with
  | nil => rfl
  | cons m rest ih =>
    obtain ⟨hm, hrest⟩ := List.forall_mem_cons.1 h
    simp [normalizeMembers?, hm, ih hrest]

mutual

/-- **Putting in order what is in order changes nothing.** -/
theorem normalize?_idem : (v : Json) → ∀ w, v.normalize? = some w → w.normalize? = some w
  | .null, _, h | .bool _, _, h | .num (.int _), _, h | .str _, _, h => by
    cases h
    rfl
  | .num (.float x), w, h => by
    unfold normalize? at h
    split at h
    · next hfinite =>
      cases h
      exact if_pos hfinite
    · cases h
  | .arr items, w, h => by
    obtain ⟨ws, hws, rfl⟩ := Option.map_eq_some_iff.1 h
    rw [normalize?, normalizeItems?_idem items ws hws]
    rfl
  | .obj members, w, h => by
    obtain ⟨ms, hms, rfl⟩ := Option.map_eq_some_iff.1 h
    have heach : ∀ m ∈ Table.ofList ms, m.2.normalize? = some m.2 := by
      intro m hm
      rcases Table.mem_insertAll hm with hm | hm
      · exact normalizeMembers?_idem members ms hms m hm
      · cases hm
    rw [normalize?, normalizeMembers?_eq_self heach, Option.map_some,
      Table.ofList_eq_self (Table.ascending_ofList ms)]

/-- The items of a list in normal form are in normal form. -/
theorem normalizeItems?_idem : (items : List Json) → ∀ ws, normalizeItems? items = some ws →
    normalizeItems? ws = some ws
  | [], _, h => by
    cases h
    rfl
  | v :: rest, ws, h => by
    simp only [normalizeItems?, Option.bind_eq_bind, Option.bind_eq_some_iff,
      Option.some.injEq] at h
    obtain ⟨w, hw, more, hmore, rfl⟩ := h
    simp [normalizeItems?, normalize?_idem v w hw, normalizeItems?_idem rest more hmore]

/-- The members of an object in normal form are in normal form. -/
theorem normalizeMembers?_idem : (members : List (String × Json)) → ∀ ms,
    normalizeMembers? members = some ms → ∀ m ∈ ms, m.2.normalize? = some m.2
  | [], _, h => by
    cases h
    exact fun m hm => nomatch hm
  | (key, v) :: rest, ms, h => by
    simp only [normalizeMembers?, Option.bind_eq_bind, Option.bind_eq_some_iff,
      Option.some.injEq] at h
    obtain ⟨w, hw, more, hmore, rfl⟩ := h
    exact List.forall_mem_cons.2 ⟨normalize?_idem v w hw, normalizeMembers?_idem rest more hmore⟩

end

/-- Only a truth value has that truth value for its normal form. -/
theorem eq_bool_of_normalize? {v : Json} {b : Bool} (h : v.normalize? = some (.bool b)) :
    v = .bool b := by
  cases v with
  | bool a =>
    cases h
    rfl
  | num n =>
    cases n with
    | int i => cases h
    | float x =>
      unfold normalize? at h
      split at h <;> cases h
  | arr items =>
    obtain ⟨_, -, heq⟩ := Option.map_eq_some_iff.1 h
    cases heq
  | obj members =>
    obtain ⟨_, -, heq⟩ := Option.map_eq_some_iff.1 h
    cases heq
  | null | str s => cases h

/-- Any JSON is read as its normal form, if it has one. -/
theorem readAny_eq_ok_iff {v w : Json} : v.readAny = .ok w ↔ v.normalize? = some w := by
  unfold readAny
  cases v.normalize? <;> simp

end Json

/-! ### Depth -/

/-- An item lies no deeper than the deepest one. -/
theorem Json.depth_le_itemsDepth {v : Json} {items : List Json} (h : v ∈ items) :
    v.depth ≤ itemsDepth items := by
  induction items with
  | nil => cases h
  | cons w rest ih =>
    rw [itemsDepth]
    rcases List.mem_cons.1 h with rfl | h
    · exact Nat.le_max_left _ _
    · exact Nat.le_trans (ih h) (Nat.le_max_right _ _)

/-- A member lies no deeper than the deepest one. -/
theorem Json.depth_le_membersDepth {key : String} {v : Json} {members : List (String × Json)}
    (h : Table.get? key members = some v) : v.depth ≤ membersDepth members := by
  induction members with
  | nil => cases h
  | cons m rest ih =>
    obtain ⟨k, w⟩ := m
    rw [membersDepth]
    by_cases hk : k = key
    · rw [Table.get?, if_pos hk] at h
      exact Option.some.inj h ▸ Nat.le_max_left _ _
    · rw [Table.get?, if_neg hk] at h
      exact Nat.le_trans (ih h) (Nat.le_max_right _ _)

namespace Typed

variable {α : Type} {read : Json → Typed α} {write : α → Json}

/-- What the reader has made of any value it makes of what is written for it. -/
def Rereads (read : Json → Typed α) (write : α → Json) : Prop :=
  ∀ v a, read v = .ok a → read (write a) = .ok a

/-! ### Lists -/

/-- The items of a list have been read. -/
theorem exists_of_mem_readList {v : Json} {as : List α} (h : Json.readList read v = .ok as) :
    ∀ a ∈ as, ∃ item, read item = .ok a := by
  obtain ⟨items, -, hitems⟩ := Except.bind_eq_ok_iff.1 h
  clear h
  induction items generalizing as with
  | nil =>
    cases hitems
    exact fun a ha => nomatch ha
  | cons item rest ih =>
    rw [List.mapM_cons] at hitems
    obtain ⟨a, ha, hrest⟩ := Except.bind_eq_ok_iff.1 hitems
    obtain ⟨more, hmore, hpure⟩ := Except.bind_eq_ok_iff.1 hrest
    cases hpure
    exact List.forall_mem_cons.2 ⟨⟨item, ha⟩, ih hmore⟩

/-- **A list is read back from its items.** -/
theorem readList_map {as : List α} (h : ∀ a ∈ as, read (write a) = .ok a) :
    Json.readList read (.arr (as.map write)) = .ok as := by
  show (as.map write).mapM read = .ok as
  induction as with
  | nil => rfl
  | cons a rest ih =>
    obtain ⟨ha, hrest⟩ := List.forall_mem_cons.1 h
    rw [List.map_cons, List.mapM_cons, ha, ih hrest]
    rfl

/-- Lists are read back if their items are. -/
theorem rereads_list (h : Rereads read write) :
    Rereads (Json.readList read) fun as => .arr (as.map write) := by
  intro v as has
  refine readList_map fun a ha => ?_
  obtain ⟨item, hitem⟩ := exists_of_mem_readList has a ha
  exact h item a hitem

/-- A list of strings is read back. -/
theorem readList_stringArray (items : List String) :
    Json.readList Json.readString (stringArray items) = .ok items :=
  readList_map fun _ _ => rfl

/-- A number below the limit is read back. -/
theorem readNat_nat {limit n : Nat} (h : n < limit) : Json.readNat limit (.nat n) = .ok n := by
  have hrange : 0 ≤ (n : Int) ∧ (n : Int) < limit := by omega
  rw [Json.nat, Json.readNat, if_pos hrange, Int.toNat_natCast]

/-- A number that has been read lies below the limit. -/
theorem lt_of_readNat {limit n : Nat} {v : Json} (h : Json.readNat limit v = .ok n) :
    n < limit := by
  unfold Json.readNat at h
  split at h
  · split at h
    · next hrange =>
      cases h
      omega
    · cases h
  · cases h

/-! ### Members -/

variable {name : String} {members : List (String × Json)}

/-- A member that is needed has been read from a value. -/
theorem exists_of_need {a : α} (h : need name read members = .ok a) : ∃ v, read v = .ok a := by
  unfold need at h
  split at h
  · cases h
  · exact ⟨_, h⟩

/-- What a member with a default gives is the default, or has been read from a value. -/
theorem exists_of_orDefault {a default : α} (h : orDefault name default read members = .ok a) :
    a = default ∨ ∃ v, read v = .ok a := by
  unfold orDefault at h
  split at h
  · cases h
    exact .inl rfl
  · exact .inr ⟨_, h⟩

/-- What a member that may be null gives has been read from a value. -/
theorem exists_of_nullable {o : Option α} (h : nullable name read members = .ok o) :
    ∀ a ∈ o, ∃ v, read v = .ok a := by
  unfold nullable at h
  split at h
  · cases h
    exact fun a ha => nomatch ha
  · cases h
    exact fun a ha => nomatch ha
  · next v _ _ =>
    cases hv : read v with
    | error e =>
      rw [hv] at h
      cases h
    | ok b =>
      rw [hv] at h
      cases h
      intro a ha
      cases ha
      exact ⟨v, hv⟩

/-- A member that has been written is read where it is needed. -/
theorem need_written {v : Json} {a : α} (hget : Table.get? name members = some v)
    (h : read v = .ok a) : need name read members = .ok a := by
  rw [need, hget]
  exact h

/-- A member that has been written is read in place of its default. -/
theorem orDefault_written {v : Json} {a : α} (default : α)
    (hget : Table.get? name members = some v) (h : read v = .ok a) :
    orDefault name default read members = .ok a := by
  rw [orDefault, hget]
  exact h

/-- A list that is only written when it has items. -/
theorem orDefault_nil_written (write : α → Json) {as : List α}
    (hget : Table.get? name members =
      if !as.isEmpty then some (.arr (as.map write)) else none)
    (h : ∀ a ∈ as, read (write a) = .ok a) :
    orDefault name [] (Json.readList read) members = .ok as := by
  cases as with
  | nil => rw [orDefault, hget]; rfl
  | cons a rest =>
    rw [orDefault, hget]
    exact readList_map h

/-- An optional thing that is never written as null. -/
theorem nullable_written (write : α → Json) {o : Option α}
    (hget : Table.get? name members = o.map write) (hnull : ∀ a, write a ≠ .null)
    (h : ∀ a ∈ o, read (write a) = .ok a) : nullable name read members = .ok o := by
  cases o with
  | none => rw [nullable, hget]; rfl
  | some a =>
    have ha : read (write a) = .ok a := h a rfl
    rw [nullable, hget, Option.map_some]
    split
    · next heq => cases heq
    · next heq => exact absurd (Option.some.inj heq) (hnull a)
    · next v _ heq =>
      rw [← Option.some.inj heq, ha]
      rfl

end Typed

end HeadlessCms
