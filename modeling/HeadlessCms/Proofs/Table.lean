import HeadlessCms.Table

/-!
# Tables are determined by their look-ups

Two tables in order are the same as soon as they answer every look-up alike (`Table.ext`).  With the
laws of `get?` for the operations this turns equations between tables into equations between
look-ups, one key at a time.
-/

namespace HeadlessCms.Table

variable {α : Type}

/-- The order of a table can be read off its keys alone. -/
theorem ascending_of_keys (keys : List String) {t : Table α} (hkeys : t.keys.Sublist keys)
    (h : keys.Pairwise (· < ·)) : Ascending t :=
  List.pairwise_map.1 (h.sublist hkeys)

/-- Nothing is found under a key exactly if the table does not have it. -/
theorem get?_eq_none_iff {key : String} {t : Table α} : get? key t = none ↔ key ∉ keys t := by
  induction t with
  | nil => simp [get?, keys]
  | cons entry rest ih =>
    obtain ⟨k, v⟩ := entry
    by_cases h : k = key
    · simp [get?, keys, h]
    · have h' : ¬ key = k := fun hk => h hk.symm
      simpa [get?, keys, h, h'] using ih

/-- What is found under a key is an entry of the table. -/
theorem mem_of_get? {key : String} {value : α} {t : Table α} (h : get? key t = some value) :
    (key, value) ∈ t := by
  induction t with
  | nil => simp [get?] at h
  | cons entry rest ih =>
    obtain ⟨k, v⟩ := entry
    by_cases hk : k = key
    · simp only [get?, hk, if_true, Option.some.injEq] at h
      simp [hk, h]
    · simp only [get?, hk, if_false] at h
      exact List.mem_cons_of_mem _ (ih h)

/-- A key below all keys of a table has no value in it. -/
theorem get?_eq_none_of_lt {key : String} {t : Table α} (h : ∀ entry ∈ t, key < entry.1) :
    get? key t = none := by
  rw [get?_eq_none_iff]
  intro hmem
  obtain ⟨entry, hentry, rfl⟩ := List.mem_map.1 hmem
  exact absurd (h entry hentry) (String.lt_irrefl _)

/-- **Tables with the same look-ups are the same.** -/
theorem ext {s t : Table α} (hs : Ascending s) (ht : Ascending t)
    (h : ∀ key, get? key s = get? key t) : s = t := by
  induction s generalizing t with
  | nil =>
    cases t with
    | nil => rfl
    | cons entry rest => simpa [get?] using h entry.1
  | cons e s ih =>
    cases t with
    | nil => simpa [get?] using h e.1
    | cons f t =>
      obtain ⟨he, hs'⟩ := List.pairwise_cons.1 hs
      obtain ⟨hf, ht'⟩ := List.pairwise_cons.1 ht
      obtain ⟨k, v⟩ := e
      obtain ⟨l, w⟩ := f
      -- The least keys agree, since each of them has a value in the other table.
      have hkl : k = l := by
        by_cases hlt : k < l
        · have hnone : get? k ((l, w) :: t) = none :=
            get?_eq_none_of_lt fun entry hmem => by
              rcases List.mem_cons.1 hmem with rfl | hmem
              · exact hlt
              · exact String.lt_trans hlt (hf entry hmem)
          rw [← h k] at hnone
          simp [get?] at hnone
        · by_cases hgt : l < k
          · have hnone : get? l ((k, v) :: s) = none :=
              get?_eq_none_of_lt fun entry hmem => by
                rcases List.mem_cons.1 hmem with rfl | hmem
                · exact hgt
                · exact String.lt_trans hgt (he entry hmem)
            rw [h l] at hnone
            simp [get?] at hnone
          · exact String.le_antisymm (String.not_lt.1 hgt) (String.not_lt.1 hlt)
      subst hkl
      have hvw : v = w := by simpa [get?] using h k
      have hrest : s = t := ih hs' ht' fun key => by
        have hkey := h key
        by_cases hk : k = key
        · subst hk
          rw [get?_eq_none_of_lt he, get?_eq_none_of_lt hf]
        · simpa [get?, hk] using hkey
      rw [hvw, hrest]

/-- Inserted entries leave the other keys as they were. -/
theorem get?_insertAll_of_notMem {key : String} {entries : List (String × α)}
    (h : key ∉ entries.map (·.1)) (t : Table α) :
    get? key (insertAll entries t) = get? key t := by
  induction entries generalizing t with
  | nil => rfl
  | cons e rest ih =>
    simp only [List.map_cons, List.mem_cons, not_or] at h
    show get? key (insertAll rest (insert e.1 e.2 t)) = _
    rw [ih h.2, get?_insert, if_neg h.1]

/-- Entries with different keys win over what was in the table. -/
theorem get?_insertAll_of_nodup {entries : List (String × α)} (h : (entries.map (·.1)).Nodup)
    (key : String) (t : Table α) :
    get? key (insertAll entries t) = (get? key entries).or (get? key t) := by
  induction entries generalizing t with
  | nil => rfl
  | cons e rest ih =>
    obtain ⟨k, v⟩ := e
    obtain ⟨hk, hrest⟩ := List.nodup_cons.1 h
    show get? key (insertAll rest (insert k v t)) = _
    by_cases heq : k = key
    · subst heq
      rw [get?_insertAll_of_notMem hk, get?_insert, if_pos rfl, get?, if_pos rfl, Option.some_or]
    · rw [ih hrest, get?_insert, if_neg (Ne.symm heq), get?, if_neg heq]

/-- Ascending keys are distinct. -/
theorem Ascending.nodup_keys {t : Table α} (h : Ascending t) : t.keys.Nodup :=
  (List.pairwise_map.2 h).imp String.ne_of_lt

/-- An inserted table answers first, and the old one where it has no entry. -/
theorem get?_insertAll {entries : Table α} (h : Ascending entries) (key : String) (t : Table α) :
    get? key (insertAll entries t) = (get? key entries).or (get? key t) :=
  get?_insertAll_of_nodup h.nodup_keys key t

end HeadlessCms.Table
