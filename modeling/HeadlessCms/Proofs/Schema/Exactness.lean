import HeadlessCms.Proofs.Except
import HeadlessCms.Proofs.Schema.Walk
import Mathlib.Data.List.Nodup
import Mathlib.Data.List.Pairwise

/-!
# Compiling is exact

The compiler of where-schemas succeeds exactly if the walk over the fields is apart and no two types
are generated under one name, and then the schema holds what the walk passes and `id`
(`WhereSchema.compile_exact`).  Every step of the compiler extends a table by a walk
(`WhereSchema.Extends`); steps and walks are composed alike.
-/

namespace HeadlessCms

namespace Table

variable {α : Type}

/-- An entry of a table in order is found under its name. -/
theorem get?_of_mem {key : String} {value : α} {t : Table α} (h : Ascending t)
    (hmem : (key, value) ∈ t) : get? key t = some value := by
  induction t with
  | nil => simp at hmem
  | cons entry rest ih =>
    obtain ⟨k, v⟩ := entry
    obtain ⟨hk, hrest⟩ := List.pairwise_cons.1 h
    rcases List.mem_cons.1 hmem with heq | hmem
    · cases heq
      simp [get?]
    · have hne : k ≠ key := fun heq => String.lt_irrefl key (heq ▸ hk _ hmem)
      rw [get?, if_neg hne, ih hrest hmem]

end Table

namespace WhereSchema

open Table (Ascending)

/-! ### Operations on tables of paths -/

section Operations

variable {parent : String} {paths : Paths}

/-- An entry is put in exactly if its path is free. -/
theorem insertNew_eq_ok_iff {path : String} {entry : QueryField} {out : Paths} :
    insertNew parent paths path entry = .ok out ↔
      Table.get? path paths = none ∧ out = Table.insert path entry paths := by
  unfold insertNew Table.contains
  cases Table.get? path paths <;> simp [eq_comm]

/-- **New paths are put in together.** -/
theorem splice_eq_ok_iff {inner out : Paths} (hinner : Ascending inner) :
    splice parent paths inner = .ok out ↔
      (∀ entry ∈ inner, Table.get? entry.1 paths = none) ∧ out = Table.insertAll inner paths := by
  induction inner generalizing paths with
  | nil => simp [splice, Table.insertAll, eq_comm]
  | cons entry rest ih =>
    obtain ⟨path, entry⟩ := entry
    obtain ⟨hpath, hrest⟩ := List.pairwise_cons.1 hinner
    have hfresh : (∀ e ∈ rest, Table.get? e.1 (Table.insert path entry paths) = none) ↔
        ∀ e ∈ rest, Table.get? e.1 paths = none := by
      refine forall₂_congr fun e he => ?_
      have hne : e.1 ≠ path := fun heq => String.lt_irrefl path (heq ▸ hpath e he)
      rw [Table.get?_insert, if_neg hne]
    simp only [splice, Except.bind_eq_ok_iff, insertNew_eq_ok_iff, List.forall_mem_cons]
    constructor
    · rintro ⟨_, ⟨hnone, rfl⟩, hsplice⟩
      obtain ⟨hall, rfl⟩ := (ih hrest).1 hsplice
      exact ⟨⟨hnone, hfresh.1 hall⟩, rfl⟩
    · rintro ⟨⟨hnone, hall⟩, rfl⟩
      exact ⟨_, ⟨hnone, rfl⟩, (ih hrest).2 ⟨hfresh.2 hall, rfl⟩⟩

/-- **Paths are merged if equal paths have equal entries and none tells block types apart.** -/
theorem mergeBlock_ok_iff {typePath : String} {inner : Paths} (hinner : Ascending inner) :
    (∃ out, mergeBlock parent typePath paths inner = .ok out) ↔
      ∀ entry ∈ inner, ∀ d, Table.get? entry.1 paths = some d →
        d = entry.2 ∧ entry.1 ≠ typePath := by
  induction inner generalizing paths with
  | nil => simp [mergeBlock]
  | cons entry rest ih =>
    obtain ⟨path, entry⟩ := entry
    obtain ⟨hpath, hrest⟩ := List.pairwise_cons.1 hinner
    rw [mergeBlock, List.forall_mem_cons]
    cases hget : Table.get? path paths with
    | none =>
      simp only [ih hrest, reduceCtorEq, false_implies, implies_true, true_and]
      refine forall₂_congr fun e he => ?_
      have hne : e.1 ≠ path := fun heq => String.lt_irrefl path (heq ▸ hpath e he)
      rw [Table.get?_insert, if_neg hne]
    | some existing =>
      by_cases hbad : existing ≠ entry ∨ path = typePath
      · simp only [if_pos hbad, reduceCtorEq, exists_false, false_iff, not_and]
        intro h
        obtain ⟨heq, hmark⟩ := h existing rfl
        exact absurd hbad (not_or.2 ⟨not_not.2 heq, hmark⟩)
      · obtain ⟨heq, hmark⟩ := not_or.1 hbad
        obtain rfl := not_not.1 heq
        simp [ih hrest, hmark]

/-- After merging, entries of the block come before those from before. -/
theorem get?_of_mergeBlock {typePath : String} {inner out : Paths} (hinner : Ascending inner)
    (h : mergeBlock parent typePath paths inner = .ok out) (path : String) :
    Table.get? path out = (Table.get? path inner).or (Table.get? path paths) := by
  induction inner generalizing paths with
  | nil =>
    cases h
    rfl
  | cons entry rest ih =>
    obtain ⟨key, entry⟩ := entry
    obtain ⟨hkey, hrest⟩ := List.pairwise_cons.1 hinner
    have hnone : Table.get? key rest = none := Table.get?_eq_none_of_lt hkey
    rw [mergeBlock] at h
    split at h
    · next existing hget =>
      split at h
      · cases h
      · next hgood =>
        obtain rfl := not_not.1 (not_or.1 hgood).1
        rw [ih hrest h]
        by_cases hp : key = path
        · simp [← hp, hnone, Table.get?, hget]
        · simp [hp, Table.get?]
    · rw [ih hrest h, Table.get?_insert]
      by_cases hp : path = key
      · simp [hp, hnone, Table.get?]
      · simp [hp, Ne.symm hp, Table.get?]

/-- Merging keeps the order of entries. -/
theorem ascending_of_mergeBlock {typePath : String} {inner out : Paths} (hpaths : Ascending paths)
    (h : mergeBlock parent typePath paths inner = .ok out) : Ascending out := by
  induction inner generalizing paths with
  | nil =>
    cases h
    exact hpaths
  | cons entry rest ih =>
    rw [mergeBlock] at h
    split at h
    · split at h
      · cases h
      · exact ih hpaths h
    · exact ih (Table.ascending_insert hpaths) h

end Operations

/-! ### Tables and walks -/

/-- The result is the table of what a walk passes. -/
structure Exact (V : Visits) (result : Except SchemaError Paths) : Prop where
  ok_iff : (∃ out, result = .ok out) ↔ Apart V
  ascending : ∀ out, result = .ok out → Ascending out
  lookup : ∀ out, result = .ok out → ∀ path entry,
    Table.get? path out = some entry ↔ ∃ place, V place path entry

/-- No path of the walk is in the table. -/
def New (paths : Paths) (V : Visits) : Prop :=
  ∀ place path entry, V place path entry → Table.get? path paths = none

/-- The result is a table to which is added what a walk passes, all of it being new. -/
structure Extends (paths : Paths) (V : Visits) (result : Except SchemaError Paths) : Prop where
  ok_iff : (∃ out, result = .ok out) ↔ Apart V ∧ New paths V
  ascending : ∀ out, result = .ok out → Ascending out
  lookup : ∀ out, result = .ok out → ∀ path entry,
    Table.get? path out = some entry ↔ Table.get? path paths = some entry ∨ ∃ place, V place path entry

/-- What extends the empty table is exact. -/
theorem Extends.exact {V : Visits} {result : Except SchemaError Paths} (h : Extends [] V result) :
    Exact V result where
  ok_iff := h.ok_iff.trans (and_iff_left fun _ _ _ _ => rfl)
  ascending := h.ascending
  lookup out hout path entry := by simp [h.lookup out hout path entry, Table.get?]

/-- One new entry extends a table by one visit. -/
theorem extends_insertNew {V : Visits} {parent path : String} {paths : Paths} {entry : QueryField}
    (hpaths : Ascending paths)
    (hV : ∀ place p e, V place p e ↔ place = [] ∧ p = path ∧ entry = e) :
    Extends paths V (insertNew parent paths path entry) where
  ok_iff := by
    simp only [insertNew_eq_ok_iff, exists_and_left, exists_eq, and_true]
    constructor
    · intro hnone
      refine ⟨fun a b p d e hd he => ?_, fun place p e hvisit => ?_⟩
      · obtain ⟨rfl, -, rfl⟩ := (hV _ _ _).1 hd
        obtain ⟨rfl, -, rfl⟩ := (hV _ _ _).1 he
        exact ⟨rfl, .inl rfl⟩
      · rwa [((hV _ _ _).1 hvisit).2.1]
    · rintro ⟨-, hnew⟩
      exact hnew [] path entry ((hV _ _ _).2 ⟨rfl, rfl, rfl⟩)
  ascending out hout := by
    rw [(insertNew_eq_ok_iff.1 hout).2]
    exact Table.ascending_insert hpaths
  lookup out hout p e := by
    obtain ⟨hnone, rfl⟩ := insertNew_eq_ok_iff.1 hout
    simp only [hV, exists_and_right, exists_eq, true_and, Table.get?_insert]
    by_cases hp : p = path
    · simp [hp, hnone]
    · simp [hp]

/-- Nothing is added where nothing is passed. -/
theorem extends_nothing {V : Visits} {paths : Paths} (hpaths : Ascending paths)
    (hV : ∀ place path entry, ¬ V place path entry) : Extends paths V (.ok paths) where
  ok_iff := iff_of_true ⟨_, rfl⟩
    ⟨apart_of_forall_not hV, fun place path entry h => absurd h (hV place path entry)⟩
  ascending := by
    rintro _ ⟨⟩
    exact hpaths
  lookup := by
    rintro _ ⟨⟩ path entry
    simp [hV]

/-- **A table that is exact for a walk extends a table by the walk.** -/
theorem Exact.splice {V : Visits} {parent : String} {paths : Paths}
    {inner : Except SchemaError Paths} (hinner : Exact V inner) (hpaths : Ascending paths) :
    Extends paths V (inner >>= WhereSchema.splice parent paths) where
  ok_iff := by
    rw [← hinner.ok_iff]
    constructor
    · rintro ⟨out, hout⟩
      obtain ⟨table, htable, hsplice⟩ := Except.bind_eq_ok_iff.1 hout
      have hasc := hinner.ascending table htable
      have hnew := ((splice_eq_ok_iff hasc).1 hsplice).1
      refine ⟨⟨table, htable⟩, fun place path entry hvisit => ?_⟩
      have hget := (hinner.lookup table htable path entry).2 ⟨place, hvisit⟩
      exact hnew _ (Table.mem_of_get? hget)
    · rintro ⟨⟨table, htable⟩, hnew⟩
      have hasc := hinner.ascending table htable
      refine ⟨_, Except.bind_eq_ok_iff.2 ⟨table, htable, (splice_eq_ok_iff hasc).2 ⟨?_, rfl⟩⟩⟩
      rintro ⟨path, entry⟩ hmem
      obtain ⟨place, hvisit⟩ := (hinner.lookup table htable path entry).1 (Table.get?_of_mem hasc hmem)
      exact hnew place path entry hvisit
  ascending out hout := by
    obtain ⟨table, htable, hsplice⟩ := Except.bind_eq_ok_iff.1 hout
    rw [((splice_eq_ok_iff (hinner.ascending table htable)).1 hsplice).2]
    exact Table.ascending_insertAll hpaths
  lookup out hout path entry := by
    obtain ⟨table, htable, hsplice⟩ := Except.bind_eq_ok_iff.1 hout
    have hasc := hinner.ascending table htable
    obtain ⟨hnew, rfl⟩ := (splice_eq_ok_iff hasc).1 hsplice
    rw [Table.get?_insertAll hasc, ← hinner.lookup table htable]
    cases hget : Table.get? path table with
    | none => simp
    | some d => simp [hnew _ (Table.mem_of_get? hget)]

/-- New for the extended table is what is new for the table and not passed by the walk. -/
theorem Extends.new_iff {V W : Visits} {paths out : Paths} {result : Except SchemaError Paths}
    (h : Extends paths V result) (hout : result = .ok out) :
    New out W ↔ New paths W ∧ ∀ a b path d e, V a path d → ¬ W b path e := by
  constructor
  · intro hnew
    constructor
    · intro b path e he
      cases hget : Table.get? path paths with
      | none => rfl
      | some d =>
        have hsome := (h.lookup out hout path d).2 (.inl hget)
        rw [hnew b path e he] at hsome
        cases hsome
    · intro a b path d e hd he
      have hsome := (h.lookup out hout path d).2 (.inr ⟨a, hd⟩)
      rw [hnew b path e he] at hsome
      cases hsome
  · rintro ⟨hnew, hunshared⟩ b path e he
    cases hget : Table.get? path out with
    | none => rfl
    | some d =>
      rcases (h.lookup out hout path d).1 hget with hget | ⟨a, hd⟩
      · rw [hnew b path e he] at hget
        cases hget
      · exact absurd he (hunshared a b path d e hd)

/-- The visits of fields find nothing in a table exactly if those of each field do not. -/
theorem new_visitIn_iff {parent start : String} {fields : List Field} {paths : Paths} :
    New paths (VisitIn parent start fields) ↔ ∀ f ∈ fields, New paths (Visit parent start f) := by
  constructor
  · intro h f hf place path entry hvisit
    obtain ⟨place, hvisit⟩ := exists_visitIn_iff.2 ⟨f, hf, place, hvisit⟩
    exact h place path entry hvisit
  · intro h place path entry hvisit
    obtain ⟨f, hf, place, hvisit⟩ := exists_visitIn_iff.1 ⟨place, hvisit⟩
    exact h f hf place path entry hvisit

/-- **Walks over fields follow each other.** -/
theorem Extends.cons {parent start : String} {f : Field} {rest : List Field} {paths : Paths}
    {first : Except SchemaError Paths} {next : Paths → Except SchemaError Paths}
    (hfirst : Extends paths (Visit parent start f) first)
    (hnext : ∀ paths, Ascending paths → Extends paths (VisitIn parent start rest) (next paths)) :
    Extends paths (VisitIn parent start (f :: rest)) (first >>= next) where
  ok_iff := by
    rw [apart_visitIn_iff, new_visitIn_iff, List.forall_mem_cons, List.forall_mem_cons,
      List.pairwise_cons]
    constructor
    · rintro ⟨out, hout⟩
      obtain ⟨middle, hmiddle, hout⟩ := Except.bind_eq_ok_iff.1 hout
      obtain ⟨hapart, hnew⟩ := hfirst.ok_iff.1 ⟨middle, hmiddle⟩
      have hrest := (hnext middle (hfirst.ascending middle hmiddle)).ok_iff.1 ⟨out, hout⟩
      rw [apart_visitIn_iff, new_visitIn_iff] at hrest
      obtain ⟨⟨haparts, hpairs⟩, hnews⟩ := hrest
      have hnews := fun g hg => (hfirst.new_iff hmiddle).1 (hnews g hg)
      exact ⟨⟨⟨hapart, haparts⟩, fun g hg => (hnews g hg).2, hpairs⟩, hnew,
        fun g hg => (hnews g hg).1⟩
    · rintro ⟨⟨⟨hapart, haparts⟩, hunshared, hpairs⟩, hnew, hnews⟩
      obtain ⟨middle, hmiddle⟩ := hfirst.ok_iff.2 ⟨hapart, hnew⟩
      have hrest := (hnext middle (hfirst.ascending middle hmiddle)).ok_iff
      rw [apart_visitIn_iff, new_visitIn_iff] at hrest
      obtain ⟨out, hout⟩ := hrest.2 ⟨⟨haparts, hpairs⟩, fun g hg =>
        (hfirst.new_iff hmiddle).2 ⟨hnews g hg, hunshared g hg⟩⟩
      exact ⟨out, Except.bind_eq_ok_iff.2 ⟨middle, hmiddle, hout⟩⟩
  ascending out hout := by
    obtain ⟨middle, hmiddle, hout⟩ := Except.bind_eq_ok_iff.1 hout
    exact (hnext middle (hfirst.ascending middle hmiddle)).ascending out hout
  lookup out hout path entry := by
    obtain ⟨middle, hmiddle, hout⟩ := Except.bind_eq_ok_iff.1 hout
    rw [(hnext middle (hfirst.ascending middle hmiddle)).lookup out hout,
      hfirst.lookup middle hmiddle, exists_visitIn_iff, exists_visitIn_iff]
    simp only [List.mem_cons, exists_eq_or_imp, or_assoc]

/-- The result is a table to which are added the paths of block types. -/
structure Merges (parent nested : String) (paths : Paths) (blocks : List (Block Field))
    (result : Except SchemaError Paths) : Prop where
  ok_iff : (∃ out, result = .ok out) ↔ Mergeable parent nested blocks ∧
    ∀ b ∈ blocks, ∀ place path d e, VisitIn parent nested b.fields place path e →
      Table.get? path paths = some d → d = e
  ascending : ∀ out, result = .ok out → Ascending out
  lookup : ∀ out, result = .ok out → ∀ path entry,
    Table.get? path out = some entry ↔ Table.get? path paths = some entry ∨
      ∃ b ∈ blocks, ∃ place, VisitIn parent nested b.fields place path entry

/-- A block can be merged exactly if what is there already under its paths is the same, and none of
them is that of the block type. -/
theorem Exact.mergeBlock_ok_iff {V : Visits} {parent typePath : String} {paths inner : Paths}
    (h : Exact V (.ok inner)) :
    (∃ out, mergeBlock parent typePath paths inner = .ok out) ↔ ∀ place path d e,
      V place path e → Table.get? path paths = some d → d = e ∧ path ≠ typePath := by
  have hasc := h.ascending inner rfl
  rw [WhereSchema.mergeBlock_ok_iff hasc]
  constructor
  · intro hagree place path d e hvisit hd
    have he := (h.lookup inner rfl path e).2 ⟨place, hvisit⟩
    exact hagree (path, e) (Table.mem_of_get? he) d hd
  · rintro hagree ⟨path, e⟩ hmem d hd
    obtain ⟨place, hvisit⟩ := (h.lookup inner rfl path e).1 (Table.get?_of_mem hasc hmem)
    exact hagree place path d e hvisit hd

/-- After merging there are the entries from before, and those of the visits of the block. -/
theorem Exact.get?_of_mergeBlock {V : Visits} {parent typePath path : String}
    {paths inner out : Paths} {entry : QueryField} (h : Exact V (.ok inner))
    (hout : mergeBlock parent typePath paths inner = .ok out) :
    Table.get? path out = some entry ↔
      Table.get? path paths = some entry ∨ ∃ place, V place path entry := by
  have hasc := h.ascending inner rfl
  rw [WhereSchema.get?_of_mergeBlock hasc hout, ← h.lookup inner rfl]
  cases hget : Table.get? path inner with
  | none => simp
  | some e =>
    simp only [Option.some_or, iff_or_self]
    intro hd
    rw [((WhereSchema.mergeBlock_ok_iff hasc).1 ⟨out, hout⟩ _ (Table.mem_of_get? hget) entry hd).1]

/-- No blocks change nothing. -/
theorem merges_nothing {parent nested : String} {paths : Paths} (hpaths : Ascending paths) :
    Merges parent nested paths [] (.ok paths) where
  ok_iff := by simp [mergeable_nil]
  ascending := by
    rintro _ ⟨⟩
    exact hpaths
  lookup := by
    rintro _ ⟨⟩ path entry
    simp

/-- **Block types follow each other** on a table that has the path telling them apart. -/
theorem Merges.cons {parent nested : String} {b : Block Field} {rest : List (Block Field)}
    {paths : Paths} {first : Except SchemaError Paths} {next : Paths → Except SchemaError Paths}
    (hpaths : Ascending paths) (hmark : Table.get? (blockTypePath nested) paths ≠ none)
    (hfirst : Exact (VisitIn parent nested b.fields) first)
    (hnext : ∀ paths, Ascending paths → Table.get? (blockTypePath nested) paths ≠ none →
      Merges parent nested paths rest (next paths)) :
    Merges parent nested paths (b :: rest) (first >>= fun inner =>
      mergeBlock parent (blockTypePath nested) paths inner >>= next) := by
  obtain ⟨mark, hmark⟩ := Option.ne_none_iff_exists'.1 hmark
  have hrest : ∀ {inner middle}, first = .ok inner →
      mergeBlock parent (blockTypePath nested) paths inner = .ok middle →
        Merges parent nested middle rest (next middle) := by
    rintro inner middle rfl hmiddle
    refine hnext middle (ascending_of_mergeBlock hpaths hmiddle) ?_
    rw [(hfirst.get?_of_mergeBlock hmiddle).2 (.inl hmark)]
    simp
  -- A fold over the blocks succeeds exactly if each of its three steps does.
  have hsteps : ∀ {out}, (first >>= fun inner =>
      mergeBlock parent (blockTypePath nested) paths inner >>= next) = .ok out ↔
      ∃ inner, first = .ok inner ∧ ∃ middle,
        mergeBlock parent (blockTypePath nested) paths inner = .ok middle ∧
          next middle = .ok out := by
    simp only [Except.bind_eq_ok_iff, implies_true]
  refine ⟨⟨?_, ?_⟩, ?_, ?_⟩
  · rintro ⟨out, hout⟩
    obtain ⟨inner, rfl, middle, hmiddle, hout⟩ := hsteps.1 hout
    have hagree := hfirst.mergeBlock_ok_iff.1 ⟨middle, hmiddle⟩
    have hunion := fun {path entry} => @Exact.get?_of_mergeBlock _ _ _ path _ _ _ entry hfirst hmiddle
    obtain ⟨hmergeable, hagrees⟩ := (hrest rfl hmiddle).ok_iff.1 ⟨out, hout⟩
    refine ⟨mergeable_cons_iff.2 ⟨hfirst.ok_iff.1 ⟨inner, rfl⟩, ?_, hmergeable, ?_⟩,
      List.forall_mem_cons.2 ⟨?_, ?_⟩⟩
    · rintro place _ entry hvisit rfl
      exact (hagree place _ mark entry hvisit hmark).2 rfl
    · intro c hc m n path d e hd he
      exact hagrees c hc n path d e he (hunion.2 (.inr ⟨m, hd⟩))
    · intro place path d e hvisit hd
      exact (hagree place path d e hvisit hd).1
    · intro c hc place path d e hvisit hd
      exact hagrees c hc place path d e hvisit (hunion.2 (.inl hd))
  · rintro ⟨hmergeable, hagrees⟩
    obtain ⟨hapart, hunmarked, hmergeable, hcross⟩ := mergeable_cons_iff.1 hmergeable
    obtain ⟨hagree, hagrees⟩ := List.forall_mem_cons.1 hagrees
    obtain ⟨inner, rfl⟩ := hfirst.ok_iff.2 hapart
    obtain ⟨middle, hmiddle⟩ := hfirst.mergeBlock_ok_iff.2 fun place path d e hvisit hd =>
      ⟨hagree place path d e hvisit hd, hunmarked place path e hvisit⟩
    obtain ⟨out, hout⟩ := (hrest rfl hmiddle).ok_iff.2 ⟨hmergeable, by
      intro c hc place path d e hvisit hd
      rcases (hfirst.get?_of_mergeBlock hmiddle).1 hd with hd | ⟨m, hd⟩
      · exact hagrees c hc place path d e hvisit hd
      · exact hcross c hc m place path d e hd hvisit⟩
    exact ⟨out, hsteps.2 ⟨inner, rfl, middle, hmiddle, hout⟩⟩
  · intro out hout
    obtain ⟨inner, hinner, middle, hmiddle, hout⟩ := hsteps.1 hout
    exact (hrest hinner hmiddle).ascending out hout
  · intro out hout path entry
    obtain ⟨inner, rfl, middle, hmiddle, hout⟩ := hsteps.1 hout
    rw [(hrest rfl hmiddle).lookup out hout, hfirst.get?_of_mergeBlock hmiddle]
    simp only [List.mem_cons, exists_eq_or_imp, or_assoc]

/-! ### Compiling a tree -/

/-- A field without children is put in under its own name, if it has an entry. -/
theorem extends_leaf {parent start : String} {f : Field} {paths : Paths} (hpaths : Ascending paths)
    (hshown : f.hidden = false) (hrow : f.kind ≠ .row) (harray : f.kind ≠ .array)
    (hgroup : f.kind ≠ .group) (hblocks : f.kind ≠ .blocks) :
    Extends paths (Visit parent start f)
      (match leafEntry? f parent (start ++ f.name) with
      | some entry => insertNew parent paths (start ++ f.name) entry
      | none => .ok paths) := by
  have hvisit := fun {place path entry} => @visit_leaf_iff parent start path f place entry hshown
    hrow harray hgroup hblocks
  cases hentry : leafEntry? f parent (start ++ f.name) with
  | none => exact extends_nothing hpaths fun place path entry h => by simp [hvisit, hentry] at h
  | some entry => exact extends_insertNew hpaths fun place p e => by simp [hvisit, hentry]

/-- The table of the mark of a `blocks` field and of its block types is exact for the field. -/
theorem Merges.exact {parent start : String} {f : Field} (hshown : f.hidden = false)
    (hkind : f.kind = .blocks) {result : Except SchemaError Paths}
    (h : Merges parent (start ++ f.name ++ Path.separator)
      [(blockTypePath (start ++ f.name ++ Path.separator),
        blockTypeEntry parent start f.name (blockTypePath (start ++ f.name ++ Path.separator))
          (f.blocks.map (·.slug)))] f.blocks result) :
    Exact (Visit parent start f) result where
  ok_iff := by
    rw [h.ok_iff, apart_visit_blocks_iff hshown hkind]
    refine and_iff_left_of_imp fun hmergeable b hb place path d e hvisit hd => ?_
    have hne := hmergeable.unmarked b hb place path e hvisit
    simp [Table.get?, Ne.symm hne] at hd
  ascending := h.ascending
  lookup out hout path entry := by
    rw [h.lookup out hout]
    constructor
    · rintro (hmark | ⟨b, hb, place, hvisit⟩)
      · obtain ⟨rfl, rfl⟩ : blockTypePath (start ++ f.name ++ Path.separator) = path ∧ _ = entry := by
          simpa [Table.get?] using hmark
        exact ⟨[.blockType], (visit_mark_iff hshown hkind).2 ⟨rfl, rfl, rfl⟩⟩
      · obtain ⟨j, hj⟩ := List.getElem?_of_mem hb
        exact ⟨.block j :: place, (visit_block_iff hshown hkind).2 ⟨b, hj, hvisit⟩⟩
    · rintro ⟨place, hvisit⟩
      cases place with
      | nil => exact absurd hvisit (not_visit_blocks_nil hkind)
      | cons s place =>
        rcases step_of_visit_blocks hkind hvisit with rfl | ⟨j, rfl⟩
        · obtain ⟨-, rfl, rfl⟩ := (visit_mark_iff hshown hkind).1 hvisit
          simp [Table.get?]
        · obtain ⟨b, hb, hvisit⟩ := (visit_block_iff hshown hkind).1 hvisit
          exact .inr ⟨b, List.mem_of_getElem? hb, place, hvisit⟩

mutual

/-- **A field extends the table by what the walk passes in it.** -/
theorem addField_extends (parent start : String) {paths : Paths} (hpaths : Ascending paths) :
    (f : Field) → Extends paths (Visit parent start f) (addField parent start paths f)
  | ⟨name, kind, label, required, hidden, localized, hasMany, options, relationTo, fields,
      blocks⟩ => by
    unfold addField
    cases hidden with
    | true =>
      simp only [Bool.or_true, if_true]
      exact extends_nothing hpaths fun _ _ _ => not_visit_of_hidden rfl
    | false =>
      cases kind with
      | ui =>
        exact extends_nothing hpaths fun place path entry h => by
          simp [visit_leaf_iff, leafEntry?, leafType?] at h
      | row =>
        rw [visit_row rfl rfl]
        exact (addFields_extends parent start List.Pairwise.nil fields).exact.splice hpaths
      | array =>
        rw [visit_container rfl (.inl rfl)]
        exact (addFields_extends parent _ List.Pairwise.nil fields).exact.splice hpaths
      | group =>
        rw [visit_container rfl (.inr rfl)]
        exact (addFields_extends parent _ List.Pairwise.nil fields).exact.splice hpaths
      | blocks =>
        refine Exact.splice (Merges.exact rfl rfl (addBlocks_merges parent _ ?_ ?_ blocks)) hpaths
        · exact List.pairwise_singleton _ _
        · simp [Table.get?]
      | _ => exact extends_leaf hpaths rfl (by simp) (by simp) (by simp) (by simp)

/-- **Fields extend the table by what the walk passes in them.** -/
theorem addFields_extends (parent start : String) {paths : Paths} (hpaths : Ascending paths) :
    (fields : List Field) →
      Extends paths (VisitIn parent start fields) (addFields parent start paths fields)
  | [] => extends_nothing hpaths fun place path entry h => by simp [VisitIn] at h
  | f :: rest => (addField_extends parent start hpaths f).cons fun _ hpaths =>
      addFields_extends parent start hpaths rest

/-- Blocks that are added one after the other merge all their visits. -/
theorem addBlocks_merges (parent nested : String) {paths : Paths} (hpaths : Ascending paths)
    (hmark : Table.get? (blockTypePath nested) paths ≠ none) : (blocks : List (Block Field)) →
      Merges parent nested paths blocks (addBlocks parent nested paths blocks)
  | [] => merges_nothing hpaths
  | ⟨_, fields⟩ :: rest =>
    Merges.cons hpaths hmark (addFields_extends parent nested List.Pairwise.nil fields).exact
      fun _ hpaths hmark => addBlocks_merges parent nested hpaths hmark rest

end

/-! ### Names of types -/

/-- No name is repeated exactly if all are distinct and none has been seen. -/
theorem firstRepeated?_eq_none_iff {seen names : List String} :
    firstRepeated? seen names = none ↔ names.Nodup ∧ ∀ name ∈ names, name ∉ seen := by
  induction names generalizing seen with
  | nil => simp [firstRepeated?]
  | cons name rest ih =>
    rw [firstRepeated?, List.nodup_cons, List.forall_mem_cons]
    by_cases hseen : name ∈ seen
    · simp [hseen]
    · simp only [List.contains_iff_mem, hseen, if_false, ih, List.mem_cons, not_or]
      grind

/-- No two of the entries, and no entry twice, generate types under one name. -/
structure NamesApart (entries : String → QueryField → Prop) : Prop where
  within : ∀ path entry, entries path entry → entry.typeNames.Nodup
  between : ∀ p q d e, entries p d → entries q e → p ≠ q → d.typeNames.Disjoint e.typeNames

/-- The type names of a table differ exactly if entries at different paths have different ones. -/
theorem nodup_typeNames_iff {paths : Paths} (hpaths : Ascending paths) :
    (typeNames paths).Nodup ↔ NamesApart fun path entry => Table.get? path paths = some entry := by
  unfold typeNames
  rw [List.nodup_flatMap]
  constructor
  · rintro ⟨hwithin, hbetween⟩
    refine ⟨fun path entry h => hwithin _ (Table.mem_of_get? h), fun p q d e hd he hpq => ?_⟩
    have : Std.Symm (Function.onFun List.Disjoint fun x : String × QueryField => x.2.typeNames) :=
      ⟨fun _ _ h => List.disjoint_comm.1 h⟩
    exact hbetween.forall (Table.mem_of_get? hd) (Table.mem_of_get? he)
      fun heq => hpq (congrArg Prod.fst heq)
  · rintro ⟨hwithin, hbetween⟩
    refine ⟨fun entry hmem => hwithin _ _ (Table.get?_of_mem hpaths hmem), ?_⟩
    refine hpaths.imp_of_mem fun {x y} hx hy hlt => ?_
    exact hbetween _ _ _ _ (Table.get?_of_mem hpaths hx) (Table.get?_of_mem hpaths hy)
      (fun heq => String.lt_irrefl x.1 (heq ▸ hlt))

/-! ### Schemas -/

/-- The compiler adds `id` to the table of the walk and checks the names of the types. -/
theorem compile_eq_ok_iff {parent : String} {fields : List Field} {schema : WhereSchema} :
    compile parent fields = .ok schema ↔ ∃ paths, addFields parent "" [] fields = .ok paths ∧
      (typeNames (Table.insert "id" (idEntry parent) paths)).Nodup ∧
        schema = ⟨Text.identifier parent, Table.insert "id" (idEntry parent) paths⟩ := by
  unfold compile
  rw [Except.bind_eq_ok_iff]
  refine exists_congr fun paths => and_congr_right fun _ => ?_
  have hnames := @firstRepeated?_eq_none_iff []
    (typeNames (Table.insert "id" (idEntry parent) paths))
  dsimp only
  split
  · next name hname =>
    simp only [hname, reduceCtorEq, List.not_mem_nil, not_false_eq_true, implies_true, and_true,
      false_iff] at hnames
    simp [hnames]
  · next hnone =>
    simp [(hnames.1 hnone).1, eq_comm]

/-- The entries of a schema: what the walk passes, and `id` in place of a field of that name. -/
def Entry (parent : String) (fields : List Field) (path : String) (entry : QueryField) : Prop :=
  (path = "id" ∧ entry.Describes parent "id" "id" (.scalar .json) false [.equality, .contains]) ∨
    (path ≠ "id" ∧ ∃ place, VisitIn parent "" fields place path entry)

/-- The table with the entry of the id holds exactly the entries of the schema. -/
theorem get?_insert_idEntry {parent : String} {fields : List Field} {paths : Paths}
    (h : addFields parent "" [] fields = .ok paths) (path : String) (entry : QueryField) :
    Table.get? path (Table.insert "id" (idEntry parent) paths) = some entry ↔
      Entry parent fields path entry := by
  have hfields := (addFields_extends parent "" List.Pairwise.nil fields).exact
  rw [Table.get?_insert, Entry, QueryField.describes_iff, ← hfields.lookup paths h]
  by_cases hid : path = "id"
  · simp [hid, idEntry, eq_comm]
  · simp [hid]

/-- The table with the entry of the id is in order. -/
theorem ascending_insert_idEntry {parent : String} {fields : List Field} {paths : Paths}
    (h : addFields parent "" [] fields = .ok paths) :
    Ascending (Table.insert "id" (idEntry parent) paths) :=
  Table.ascending_insert
    ((addFields_extends parent "" List.Pairwise.nil fields).ascending paths h)

/-- Its type names differ exactly if those of the entries of the schema do. -/
theorem nodup_typeNames_insert_idEntry_iff {parent : String} {fields : List Field} {paths : Paths}
    (h : addFields parent "" [] fields = .ok paths) :
    (typeNames (Table.insert "id" (idEntry parent) paths)).Nodup ↔
      NamesApart (Entry parent fields) := by
  rw [nodup_typeNames_iff (ascending_insert_idEntry h)]
  simp only [get?_insert_idEntry h]

/-- **A schema holds the entries of its fields.** -/
theorem get?_of_compile {parent : String} {fields : List Field} {schema : WhereSchema}
    (h : compile parent fields = .ok schema) {path : String} {entry : QueryField} :
    Table.get? path schema.fields = some entry ↔ Entry parent fields path entry := by
  obtain ⟨paths, hpaths, -, rfl⟩ := compile_eq_ok_iff.1 h
  exact get?_insert_idEntry hpaths path entry

/-- A schema that has been compiled tells its entries apart by their type names. -/
theorem namesApart_of_compile {parent : String} {fields : List Field} {schema : WhereSchema}
    (h : compile parent fields = .ok schema) : NamesApart (Entry parent fields) := by
  obtain ⟨paths, hpaths, hnodup, -⟩ := compile_eq_ok_iff.1 h
  exact (nodup_typeNames_insert_idEntry_iff hpaths).1 hnodup

/-- **Compiling is exact.**  There is a schema exactly if no path comes from two places and no two
types have one name.  It holds what the walk over the fields passes, and `id`. -/
theorem compile_exact (parent : String) (fields : List Field) :
    ((∃ schema, compile parent fields = .ok schema) ↔
      Apart (VisitIn parent "" fields) ∧ NamesApart (Entry parent fields)) ∧
    ∀ schema, compile parent fields = .ok schema →
      schema.name = Text.identifier parent ∧ Ascending schema.fields ∧
        ∀ path entry, Table.get? path schema.fields = some entry ↔ Entry parent fields path entry := by
  have hfields := (addFields_extends parent "" List.Pairwise.nil fields).exact
  refine ⟨⟨?_, ?_⟩, ?_⟩
  · rintro ⟨schema, hschema⟩
    obtain ⟨paths, hpaths, -, -⟩ := compile_eq_ok_iff.1 hschema
    exact ⟨hfields.ok_iff.1 ⟨paths, hpaths⟩, namesApart_of_compile hschema⟩
  · rintro ⟨hapart, hnames⟩
    obtain ⟨paths, hpaths⟩ := hfields.ok_iff.2 hapart
    have hnodup := (nodup_typeNames_insert_idEntry_iff hpaths).2 hnames
    exact ⟨_, compile_eq_ok_iff.2 ⟨paths, hpaths, hnodup, rfl⟩⟩
  · intro schema hschema
    have hentries := fun path entry => @get?_of_compile _ _ _ hschema path entry
    obtain ⟨paths, hpaths, -, rfl⟩ := compile_eq_ok_iff.1 hschema
    exact ⟨rfl, ascending_insert_idEntry hpaths, hentries⟩

end WhereSchema

end HeadlessCms
