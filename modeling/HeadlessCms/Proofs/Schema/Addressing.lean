import HeadlessCms.Proofs.Query.Addressing
import HeadlessCms.Proofs.Schema.Exactness
import HeadlessCms.Schema.Validate
import HeadlessCms.Store.Basic

/-!
# Keys of a schema and the data behind them

A field is stored under the names of the containers around it and its own, and its key in the schema
joins these names.  A client writes the key, the schema looks it up, and the store turns it into a
path into the data.  All three lead back to the field exactly if its names can be told apart in the
key (`WhereSchema.addresses_iff`).
-/

namespace HeadlessCms

open HeadlessCms.Path (key)

/-- The kinds of fields that have operators. -/
def FieldKind.HasOperators : FieldKind → Prop
  | array | group | row | blocks | ui | unknown _ => False
  | _ => True

namespace Field

/-- A field is stored under names inside another one, or is that field.  None of the fields on the
way is hidden. -/
inductive LeafAt : Field → List String → Field → Prop where
  | here {f : Field} (shown : f.hidden = false) (operators : f.kind.HasOperators) :
      LeafAt f [f.name] f
  /-- A row stores nothing under its name. -/
  | row {f g leaf : Field} {names : List String} (shown : f.hidden = false) (kind : f.kind = .row)
      (holds : g ∈ f.fields) (below : LeafAt g names leaf) : LeafAt f names leaf
  | container {f g leaf : Field} {names : List String} (shown : f.hidden = false)
      (kind : f.kind = .array ∨ f.kind = .group) (holds : g ∈ f.fields)
      (below : LeafAt g names leaf) : LeafAt f (f.name :: names) leaf
  | block {f g leaf : Field} {b : Block Field} {names : List String} (shown : f.hidden = false)
      (kind : f.kind = .blocks) (type : b ∈ f.blocks) (holds : g ∈ b.fields)
      (below : LeafAt g names leaf) : LeafAt f (f.name :: names) leaf

/-- A field is stored under names in a list of fields. -/
def LeafIn (fields : List Field) (names : List String) (leaf : Field) : Prop :=
  ∃ f ∈ fields, LeafAt f names leaf

/-- A field is stored under at least one name. -/
theorem LeafAt.names_ne_nil {f leaf : Field} {names : List String} (h : LeafAt f names leaf) :
    names ≠ [] := by
  induction h with
  | here _ _ => simp
  | row _ _ _ _ ih => exact ih
  | container _ _ _ _ _ => simp
  | block _ _ _ _ _ _ => simp

end Field

namespace WhereSchema

open HeadlessCms.Field (LeafAt LeafIn)

/-- Fields with operators are compared for equality. -/
theorem leafType?_of_hasOperators {f : Field} (h : f.kind.HasOperators) (parent path : String) :
    ∃ base more, leafType? f parent path = some (base, .equality :: more) := by
  cases hkind : f.kind <;> simp_all [FieldKind.HasOperators, leafType?]

/-- Fields whose first operators are those of equality allow `equals`. -/
theorem allows_equals_ofCategories (parent path tag : String) (base : ValueType) (many : Bool)
    (more : List OperatorCategory) :
    (QueryField.ofCategories parent path tag base many (.equality :: more)).allows .equals = true :=
  rfl

/-- **The walk passes what is stored,** under the key of its names. -/
theorem visit_of_leafAt {f leaf : Field} {names : List String} (h : LeafAt f names leaf)
    (parent start : String) : ∃ place entry, Visit parent start f place (start ++ key names) entry ∧
      leafEntry? leaf parent (start ++ key names) = some entry ∧ entry.allows .equals = true := by
  induction h generalizing start with
  | @here f shown operators =>
    obtain ⟨base, more, hbuilds⟩ := leafType?_of_hasOperators operators parent (start ++ f.name)
    refine ⟨[], _, ?_, ?_, allows_equals_ofCategories parent (start ++ f.name) f.kind.tag base
      f.hasMany more⟩
    · rw [Path.key_singleton]
      exact .leaf shown hbuilds (QueryField.describes_iff.2 rfl)
    · rw [Path.key_singleton, leafEntry?, hbuilds]
      rfl
  | row shown kind holds _ ih =>
    obtain ⟨i, hi⟩ := List.getElem?_of_mem holds
    obtain ⟨place, entry, hvisit, hentry⟩ := ih start
    exact ⟨_, entry, .row shown kind hi hvisit, hentry⟩
  | container shown kind holds below ih =>
    obtain ⟨i, hi⟩ := List.getElem?_of_mem holds
    rw [Path.key_cons below.names_ne_nil, ← String.append_assoc, ← String.append_assoc]
    obtain ⟨place, entry, hvisit, hentry⟩ := ih _
    exact ⟨_, entry, .container shown kind hi hvisit, hentry⟩
  | block shown kind type holds below ih =>
    obtain ⟨i, hi⟩ := List.getElem?_of_mem holds
    obtain ⟨j, hj⟩ := List.getElem?_of_mem type
    rw [Path.key_cons below.names_ne_nil, ← String.append_assoc, ← String.append_assoc]
    obtain ⟨place, entry, hvisit, hentry⟩ := ih _
    exact ⟨_, entry, .block shown kind hj hi hvisit, hentry⟩

/-- The key of names leads to the entry and to the values under the names. -/
structure Addresses (schema : WhereSchema) (names : List String) (entry : QueryField) : Prop where
  /-- A clause with the key and an operator is one constraint on the key. -/
  parsed : ∀ op operand, entry.allows op = true →
    Predicate.ofJson (.obj [(key names, .obj [(op.token, operand)])]) =
      .ok (.compare (key names) op operand)
  /-- The schema finds the entry. -/
  found : schema.get? (key names) = some entry
  known : ∀ op operand name path,
    schema.validate (.compare (key names) op operand) ≠ .error (.unknownPath name path)
  /-- The store looks for the key where the values are, in every record. -/
  resolved : ∀ (s : Store) (collection : String) (c : Collection) op operand,
    s.collection? collection = .ok c →
      ∃ path, s.buildQuery collection (some (.compare (key names) op operand)) none =
          .ok ⟨collection, some (.compare path op operand), none⟩ ∧
        ∀ record, Record.resolve record path = Json.under names (.obj record)

/-- The names can be told apart in their key, which is not taken for a combinator, and no name
behind the first is a position in an array. -/
structure Addressable (names : List String) : Prop where
  noCombinator : key names ≠ "and" ∧ key names ≠ "or"
  separable : Path.Separable names
  noPosition : ∀ name ∈ names.tail, arrayIndex? name = none

/-- One comparison is read as such unless its path is a combinator. -/
theorem ofJson_compare_iff {path : String} {op : Operator} {operand : Json} :
    Predicate.ofJson (.obj [(path, .obj [(op.token, operand)])]) = .ok (.compare path op operand) ↔
      path ≠ "and" ∧ path ≠ "or" := by
  rw [← not_or]
  simp only [Predicate.ofJson, Predicate.branchesOf, Predicate.branchesAt]
  by_cases h : path = "and" ∨ path = "or"
  · simp [h, bind, Except.bind]
  · simp [h, bind, Except.bind, Predicate.constraintsOf, Operator.ofToken?_token,
      Predicate.ofBranches]

/-- A path without points is its own query path. -/
theorem toQuery_eq_self {path : String} (h : '.' ∉ path.toList) : Path.toQuery path = path := by
  have hchars : Path.queryChars path.toList = path.toList := by
    unfold Path.queryChars
    conv_rhs => rw [← List.flatMap_singleton' path.toList]
    refine List.flatMap_congr fun c hc => ?_
    have hdot : c ≠ '.' := fun heq => h (heq ▸ hc)
    rw [if_neg hdot]
  rw [Path.toQuery, hchars, String.ofList_toList]

/-- **An entry is found under its path if the path holds no points.**  Otherwise the schema looks
elsewhere, where no entry is the same. -/
theorem get?_eq_some_iff {parent : String} {fields : List Field} {schema : WhereSchema}
    (hschema : compile parent fields = .ok schema) {path : String} {entry : QueryField}
    (hentry : Table.get? path schema.fields = some entry) :
    schema.get? path = some entry ↔ '.' ∉ path.toList := by
  constructor
  · intro hfound hpoint
    have hne : path ≠ Path.toQuery path := fun heq => by
      rw [heq, Path.toQuery, String.toList_ofList] at hpoint
      exact Path.point_notMem_queryChars _ hpoint
    have hdisjoint := (namesApart_of_compile hschema).between _ _ _ _
      ((get?_of_compile hschema).1 hentry) ((get?_of_compile hschema).1 hfound) hne
    exact hdisjoint List.mem_cons_self List.mem_cons_self
  · intro hpoint
    rw [WhereSchema.get?, toQuery_eq_self hpoint, hentry]

/-- A path of the schema is not refused as unknown. -/
theorem validate_ne_unknownPath {schema : WhereSchema} {path : String} {entry : QueryField}
    (h : schema.get? path = some entry) (op : Operator) (operand : Json) (name other : String) :
    schema.validate (.compare path op operand) ≠ .error (.unknownPath name other) := by
  intro herror
  simp only [validate, Predicate.compare, Predicate.leaves, validateAll, validateConstraint, h]
    at herror
  split at herror
  · simp [bind, Except.bind] at herror
  · split at herror
    · split at herror
      · simp [bind, Except.bind] at herror
      · split at herror <;> simp [bind, Except.bind] at herror
    · simp [bind, Except.bind] at herror

/-- Without a locale a comparison is asked for at the data path. -/
theorem buildQuery_compare {s : Store} {collection : String} {c : Collection}
    (h : s.collection? collection = .ok c) (path : String) (op : Operator) (operand : Json) :
    s.buildQuery collection (some (.compare path op operand)) none =
      .ok ⟨collection, some (.compare (Path.toData path) op operand), none⟩ := by
  simp only [Store.buildQuery, h]
  simp [bind, Except.bind, Predicate.compare, Predicate.mapPaths, Store.storedPath]

/-- Without points in the names the key is found. -/
theorem point_notMem_key {names : List String} (h : Path.Separable names) :
    '.' ∉ (key names).toList := fun hpoint => by
  obtain ⟨name, hname, hpoint⟩ := Path.point_mem_key_iff.1 hpoint
  exact h.point name hname hpoint

/-- What is stored under names has the entry of its field under their key. -/
theorem exists_entry_of_leafIn {parent : String} {fields : List Field} {schema : WhereSchema}
    (hschema : compile parent fields = .ok schema) {names : List String} {leaf : Field}
    (hleaf : LeafIn fields names leaf) :
    ∃ entry, Table.get? (key names) schema.fields = some entry ∧
      (key names ≠ "id" → leafEntry? leaf parent (key names) = some entry) ∧
        entry.allows .equals = true := by
  obtain ⟨f, hf, hleaf⟩ := hleaf
  obtain ⟨place, entry, hvisit, hbuilt, hequals⟩ := visit_of_leafAt hleaf parent ""
  rw [String.empty_append] at hvisit hbuilt
  by_cases hid : key names = "id"
  · exact ⟨idEntry parent, (get?_of_compile hschema).2 (.inl ⟨hid, QueryField.describes_iff.2 rfl⟩),
      fun h => absurd hid h, rfl⟩
  · obtain ⟨i, hi⟩ := List.getElem?_of_mem hf
    exact ⟨entry, (get?_of_compile hschema).2 (.inr ⟨hid, _, i, f, place, hi, rfl, hvisit⟩),
      fun _ => hbuilt, hequals⟩

/-- **A key leads to its data exactly if its names can be told apart.** -/
theorem addresses_iff {parent : String} {fields : List Field} {schema : WhereSchema}
    (hschema : compile parent fields = .ok schema) {names : List String} {leaf : Field}
    (hleaf : LeafIn fields names leaf) :
    ∃ entry, Table.get? (key names) schema.fields = some entry ∧
      (key names ≠ "id" → leafEntry? leaf parent (key names) = some entry) ∧
        (Addresses schema names entry ↔ Addressable names) := by
  have hne : names ≠ [] := by
    obtain ⟨f, -, hbelow⟩ := hleaf
    exact hbelow.names_ne_nil
  obtain ⟨entry, hget, hbuilt, hequals⟩ := exists_entry_of_leafIn hschema hleaf
  refine ⟨entry, hget, hbuilt, ⟨fun h => ?_, fun h => ?_⟩⟩
  · -- Any store with a collection shows where the key leads.
    obtain ⟨path, hquery, hresolve⟩ := h.resolved (Store.empty.register "" []) "" ⟨[], []⟩ .equals
      .null rfl
    rw [buildQuery_compare rfl] at hquery
    have hpath : Path.toData (key names) = path := by
      simpa [Predicate.compare] using hquery
    rw [← hpath, Record.resolve_key_iff hne] at hresolve
    exact ⟨ofJson_compare_iff.1 (h.parsed .equals .null hequals), hresolve.1, hresolve.2⟩
  · have hfound := (get?_eq_some_iff hschema hget).2 (point_notMem_key h.separable)
    refine ⟨fun op operand _ => ofJson_compare_iff.2 h.noCombinator, hfound,
      validate_ne_unknownPath hfound, fun s collection c op operand hc => ?_⟩
    exact ⟨_, buildQuery_compare hc (key names) op operand,
      (Record.resolve_key_iff hne).2 ⟨h.separable, h.noPosition⟩⟩

theorem addresses_author_name : ∃ schema entry,
    compile "Posts" [.container "author" .group [.ofKind "name" .text]] = .ok schema ∧
      Table.get? "author__name" schema.fields = some entry ∧
        Addresses schema ["author", "name"] entry := by
  obtain ⟨schema, hschema⟩ : ∃ schema,
      compile "Posts" [.container "author" .group [.ofKind "name" .text]] = .ok schema :=
    Except.exists_of_isOk (by decide +kernel)
  have hleaf : LeafIn [.container "author" .group [.ofKind "name" .text]] ["author", "name"]
      (.ofKind "name" .text) :=
    ⟨_, List.mem_cons_self, .container rfl (.inr rfl) List.mem_cons_self (.here rfl trivial)⟩
  have haddressable : Addressable ["author", "name"] :=
    ⟨by decide, ⟨by decide, by decide, by decide⟩, by decide⟩
  obtain ⟨entry, hget, -, hiff⟩ := addresses_iff hschema hleaf
  exact ⟨schema, entry, hschema, hget, hiff.2 haddressable⟩

/-- Two underscores in the name of a field are taken for a separator: what is stored under the name
is not where its key leads. -/
theorem not_addresses_underscores : ∃ schema entry,
    compile "Posts" [.ofKind "a__b" .text] = .ok schema ∧
      LeafIn [.ofKind "a__b" .text] ["a__b"] (.ofKind "a__b" .text) ∧
        Table.get? (key ["a__b"]) schema.fields = some entry ∧ ¬ Addresses schema ["a__b"] entry := by
  obtain ⟨schema, hschema⟩ : ∃ schema, compile "Posts" [.ofKind "a__b" .text] = .ok schema :=
    Except.exists_of_isOk (by decide +kernel)
  have hleaf : LeafAt (.ofKind "a__b" .text) ["a__b"] (.ofKind "a__b" .text) := .here rfl trivial
  obtain ⟨place, entry, hvisit, -⟩ := visit_of_leafAt hleaf "Posts" ""
  refine ⟨schema, entry, hschema, ⟨_, List.mem_cons_self, hleaf⟩,
    (get?_of_compile hschema).2 (.inr ⟨by decide, _, 0, _, place, rfl, rfl, hvisit⟩), fun h => ?_⟩
  obtain ⟨path, hquery, hresolve⟩ := h.resolved (Store.empty.register "posts" []) "posts" ⟨[], []⟩
    .equals .null rfl
  rw [buildQuery_compare rfl] at hquery
  have hpath : Path.toData (key ["a__b"]) = path := by
    simpa [Predicate.compare] using hquery
  have hlength := congrArg List.length (hresolve [("a__b", .str "x")])
  rw [← hpath] at hlength
  revert hlength
  decide

end WhereSchema

end HeadlessCms
