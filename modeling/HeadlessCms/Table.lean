/-!
# Tables

A table is a list of entries in the order of their keys, each key once.  Objects of JSON, compiled
schemas and registries are tables.  `get?` reads a table; `insert` and `erase` change it and keep it
a table (`ascending_insert`, `ascending_erase`).  What they do to a look-up is stated by
`get?_insert` and `get?_erase`.
-/

namespace HeadlessCms

/-- Entries by key, in the order of the keys. -/
abbrev Table (α : Type) := List (String × α)

namespace Table

variable {α β : Type}

/-- The keys come in strictly ascending order. -/
def Ascending (t : Table α) : Prop :=
  t.Pairwise fun a b => a.1 < b.1

/-- The value of a key. -/
def get? (key : String) : Table α → Option α
  | [] => none
  | (k, v) :: rest => if k = key then some v else get? key rest

/-- Puts a value under a key, in place of the value that was there. -/
def insert (key : String) (value : α) : Table α → Table α
  | [] => [(key, value)]
  | (k, v) :: rest =>
    if key < k then (key, value) :: (k, v) :: rest
    else if key = k then (key, value) :: rest
    else (k, v) :: insert key value rest

/-- Takes the entry of a key away. -/
def erase (key : String) (t : Table α) : Table α :=
  t.filter fun entry => entry.1 != key

/-- Puts all entries of a list into a table, the last value of a repeated key staying. -/
def insertAll (entries : List (String × α)) (t : Table α) : Table α :=
  entries.foldl (fun t entry => insert entry.1 entry.2 t) t

/-- The table of a list of entries. -/
def ofList (entries : List (String × α)) : Table α :=
  insertAll entries []

/-- The keys in order. -/
def keys (t : Table α) : List String :=
  t.map (·.1)

/-- Whether a key has a value. -/
def contains (key : String) (t : Table α) : Bool :=
  (get? key t).isSome

/-- After an insertion a name leads to the new value, all others where they led before. -/
theorem get?_insert (key k : String) (value : α) (t : Table α) :
    get? k (insert key value t) = if k = key then some value else get? k t := by
  induction t with
  | nil => simp only [insert, get?]; grind
  | cons entry rest ih =>
    obtain ⟨k', v⟩ := entry
    unfold insert
    split
    · simp only [get?]; grind
    · split
      · simp only [get?]; grind
      · simp only [get?, ih]; grind

/-- The entries are the new one and those from before. -/
theorem mem_insert {key : String} {value : α} {t : Table α} {entry : String × α}
    (h : entry ∈ insert key value t) : entry = (key, value) ∨ entry ∈ t := by
  induction t with
  | nil => simp [insert] at h; exact Or.inl h
  | cons e rest ih =>
    obtain ⟨k, v⟩ := e
    unfold insert at h
    split at h
    · simpa using h
    · split at h
      · rcases List.mem_cons.1 h with h | h
        · exact Or.inl h
        · exact Or.inr (List.mem_cons_of_mem _ h)
      · rcases List.mem_cons.1 h with h | h
        · exact Or.inr (h ▸ List.mem_cons_self)
        · rcases ih h with h | h
          · exact Or.inl h
          · exact Or.inr (List.mem_cons_of_mem _ h)

/-- **Insertion keeps the order of the keys.** -/
theorem ascending_insert {key : String} {value : α} {t : Table α} (h : Ascending t) :
    Ascending (insert key value t) := by
  induction t with
  | nil => simp [insert, Ascending]
  | cons e rest ih =>
    obtain ⟨k, v⟩ := e
    have hrest : Ascending rest := (List.pairwise_cons.1 h).2
    have hall : ∀ e ∈ rest, k < e.1 := (List.pairwise_cons.1 h).1
    unfold insert
    split
    · next hlt =>
      refine List.pairwise_cons.2 ⟨?_, h⟩
      intro e he
      rcases List.mem_cons.1 he with he | he
      · subst he; exact hlt
      · exact String.lt_trans hlt (hall e he)
    · next hlt =>
      split
      · next heq => subst heq; exact List.pairwise_cons.2 ⟨hall, hrest⟩
      · next hne =>
        refine List.pairwise_cons.2 ⟨?_, ih hrest⟩
        intro e he
        rcases mem_insert he with he | he
        · subst he
          exact Std.lt_of_le_of_ne (String.not_lt.1 hlt) fun h => hne h.symm
        · exact hall e he

/-- Erasing keeps the order. -/
theorem ascending_erase {key : String} {t : Table α} (h : Ascending t) :
    Ascending (erase key t) :=
  List.Pairwise.filter _ h

/-- An erased name leads nowhere, all others where they led before. -/
theorem get?_erase (key k : String) (t : Table α) :
    get? k (erase key t) = if k = key then none else get? k t := by
  induction t with
  | nil => simp [erase, get?]
  | cons e rest ih =>
    obtain ⟨k', v⟩ := e
    unfold erase at ih ⊢
    by_cases h : k' = key
    · simp only [h, List.filter_cons, bne_self_eq_false, Bool.false_eq_true, if_false, ih, get?]
      grind
    · have h' : (k' != key) = true := by simpa using h
      simp only [List.filter_cons, h', if_true, get?, ih]
      grind

/-- Inserting entries keeps the order. -/
theorem ascending_insertAll {entries : List (String × α)} {t : Table α} (h : Ascending t) :
    Ascending (insertAll entries t) := by
  induction entries generalizing t with
  | nil => exact h
  | cons e rest ih => exact ih (ascending_insert h)

/-- A table made of entries is in order. -/
theorem ascending_ofList (entries : List (String × α)) : Ascending (ofList entries) :=
  ascending_insertAll List.Pairwise.nil

end Table

end HeadlessCms
