import HeadlessCms.Document.Draft
import HeadlessCms.Proofs.Query.Rewriting
import HeadlessCms.Proofs.Schema.Addressing
import HeadlessCms.Proofs.Service.Starting

/-!
# The schema of the versions

A version holds the snapshot of a document under `version`.  A tree of fields that is compiled behind
a prefix has the paths of the tree behind the prefix, and their entries differ only in the names of
generated types (`WhereSchema.Visit.moved`, `WhereSchema.Visit.exists_of_moved`).  So the schema of the
versions holds a copy of every path of the documents, and a clause that fits the documents fits their
versions once it is moved there (`CompiledEntity.versions_accept`).
-/

namespace HeadlessCms

/-! ### Entries without names -/

/-- An enumeration without its name. -/
def EnumType.anonymous (e : EnumType) : EnumType :=
  ⟨"", e.values⟩

/-- A value type without the names of generated types. -/
def ValueType.anonymous : ValueType → ValueType
  | scalar type => .scalar type
  | enum type => .enum type.anonymous
  | relation _ relationTo => .relation "" relationTo.anonymous
  | list item => .list item.anonymous

/-- An operator with its operand, without the names of generated types. -/
def OperatorInput.anonymous (input : OperatorInput) : OperatorInput :=
  ⟨input.operator, input.valueType.anonymous⟩

namespace QueryField

/-- What an entry says apart from the names of generated types: the field, the values with their
options, and the operators with their operands. -/
def anonymous (f : QueryField) : QueryField where
  inputName := ""
  fieldType := f.fieldType
  valueType := f.valueType.anonymous
  hasMany := f.hasMany
  operators := f.operators.map OperatorInput.anonymous

/-- The operators of a field do not depend on the names of its types. -/
theorem anonymous_ofCategories {parent path parent' path' tag : String} {base base' : ValueType}
    {many : Bool} {categories : List OperatorCategory} (h : base.anonymous = base'.anonymous) :
    (ofCategories parent path tag base many categories).anonymous =
      (ofCategories parent' path' tag base' many categories).anonymous := by
  have hlist : (ValueType.list base).anonymous = (ValueType.list base').anonymous :=
    congrArg ValueType.list h
  have hvalue : (if many then .list base else base : ValueType).anonymous =
      (if many then .list base' else base' : ValueType).anonymous := by
    cases many
    · exact h
    · exact hlist
  have hoperators : (OperatorCategory.union categories).map
        (fun op => OperatorInput.anonymous ⟨op, if op.takesList then .list base else base⟩) =
      (OperatorCategory.union categories).map
        (fun op => OperatorInput.anonymous ⟨op, if op.takesList then .list base' else base'⟩) := by
    refine List.map_congr_left fun op _ => ?_
    cases htakes : op.takesList <;> simp [OperatorInput.anonymous, h, hlist]
  simp only [anonymous, ofCategories, List.map_map, Function.comp_def, hvalue, hoperators]

/-- Whether an operator with an operand may stand on the path of the entry. -/
def Admits (f : QueryField) (op : Operator) (operand : Json) : Prop :=
  f.allows op = true ∧ ∀ type, f.baseType = .enum type → op.category = .equality →
    ∀ value ∈ WhereSchema.namedOptions op operand, type.containsValue value = true

/-- A field allows the same operators without the names of its types. -/
theorem allows_anonymous (f : QueryField) (op : Operator) : f.anonymous.allows op = f.allows op := by
  simp [allows, anonymous, OperatorInput.anonymous, List.any_map, Function.comp_def]

/-- Its values have the same type but for the names. -/
theorem baseType_anonymous (f : QueryField) : f.anonymous.baseType = f.baseType.anonymous := by
  obtain ⟨inputName, fieldType, valueType, hasMany, operators⟩ := f
  cases valueType with
  | list item => cases hasMany <;> rfl
  | _ => rfl

/-- **Names of types decide nothing about clauses.** -/
theorem admits_anonymous_iff {f : QueryField} {op : Operator} {operand : Json} :
    f.anonymous.Admits op operand ↔ f.Admits op operand := by
  unfold Admits
  rw [allows_anonymous, baseType_anonymous]
  refine and_congr_right fun _ => ⟨fun h type htype => ?_, fun h type htype => ?_⟩
  · exact h type.anonymous (by rw [htype, ValueType.anonymous])
  · cases hbase : f.baseType with
    | enum own =>
      rw [hbase] at htype
      cases htype
      exact h own hbase
    | _ => simp [hbase, ValueType.anonymous] at htype

/-- Fields that are alike but for the names of their types admit the same operands. -/
theorem Admits.of_anonymous_eq {f g : QueryField} {op : Operator} {operand : Json}
    (h : f.Admits op operand) (heq : g.anonymous = f.anonymous) : g.Admits op operand :=
  admits_anonymous_iff.1 (heq ▸ admits_anonymous_iff.2 h)

/-- The type of a scalar value refuses no operand. -/
theorem admits_ofCategories_scalar_iff {parent path tag : String} {type : ScalarType}
    {categories : List OperatorCategory} {op : Operator} {operand : Json} :
    (ofCategories parent path tag (.scalar type) false categories).Admits op operand ↔
      op ∈ OperatorCategory.union categories := by
  simp [Admits, allows, ofCategories, baseType, List.any_map, Function.comp_def]

end QueryField

namespace WhereSchema

/-! ### Clauses that fit -/

/-- A constraint is valid exactly if the schema has a field at its path that admits the operand. -/
theorem validateConstraint_eq_ok_iff {schema : WhereSchema} {c : Constraint} :
    schema.validateConstraint c = .ok () ↔
      ∃ f, schema.get? c.path = some f ∧ f.Admits c.operator c.value := by
  unfold validateConstraint
  cases schema.get? c.path with
  | none => simp
  | some f =>
    simp only [Option.some.injEq, exists_eq_left', QueryField.Admits]
    cases hallows : f.allows c.operator with
    | false => simp
    | true =>
      cases hbase : f.baseType with
      | enum type =>
        by_cases hcategory : c.operator.category = .equality
        · simp only [Bool.not_true, Bool.false_eq_true, if_false, hcategory, ne_eq, not_true_eq_false,
            true_and, ValueType.enum.injEq, forall_eq', forall_const]
          split
          · next value hfind =>
            have hunknown := List.find?_some hfind
            refine iff_of_false (by simp) fun hall => ?_
            simp [hall value (List.mem_of_find?_eq_some hfind)] at hunknown
          · next hfind =>
            rw [List.find?_eq_none] at hfind
            exact iff_of_true rfl (by simpa using hfind)
        · simp [hcategory]
      | _ => simp

/-- **A clause fits if each of its constraints does.** -/
theorem validate_eq_ok_iff {schema : WhereSchema} {p : Predicate} :
    schema.validate p = .ok () ↔
      ∀ c ∈ p.leaves, ∃ f, schema.get? c.path = some f ∧ f.Admits c.operator c.value := by
  unfold validate
  induction p.leaves with
  | nil => simp [validateAll]
  | cons c rest ih =>
    rw [validateAll, Except.bind_eq_ok_iff, List.forall_mem_cons, ← ih, ← validateConstraint_eq_ok_iff]
    constructor
    · rintro ⟨_, hc, hrest⟩
      exact ⟨hc, hrest⟩
    · rintro ⟨hc, hrest⟩
      exact ⟨(), hc, hrest⟩

/-! ### Trees behind a prefix -/

/-- **The type of a value depends on the place of its field only in names.** -/
theorem leafType?_moved {f : Field} {parent path : String} {base : ValueType}
    {categories : List OperatorCategory} (h : leafType? f parent path = some (base, categories))
    (parent' path' : String) : ∃ base', leafType? f parent' path' = some (base', categories) ∧
      base'.anonymous = base.anonymous := by
  unfold leafType? at h ⊢
  cases hkind : f.kind with
  | relationship =>
    rw [hkind] at h
    obtain ⟨rfl, rfl⟩ := Prod.mk.inj (Option.some.inj h)
    refine ⟨_, rfl, ?_⟩
    unfold relationType
    split <;> rfl
  | array | group | row | blocks | ui | unknown tag => simp [hkind] at h
  | _ =>
    rw [hkind] at h
    obtain ⟨rfl, rfl⟩ := Prod.mk.inj (Option.some.inj h)
    exact ⟨_, rfl, rfl⟩

/-- **What the walk passes it passes behind a prefix, too.** -/
theorem Visit.moved {parent start path : String} {f : Field} {place : Place} {entry : QueryField}
    (h : Visit parent start f place path entry) (parent' front : String) :
    ∃ copy, Visit parent' (front ++ start) f place (front ++ path) copy ∧
      copy.anonymous = entry.anonymous := by
  induction h with
  | @leaf start f base categories entry shown builds describes =>
    obtain ⟨base', builds', hbase⟩ := leafType?_moved builds parent' (front ++ start ++ f.name)
    rw [QueryField.describes_iff.1 describes, ← String.append_assoc]
    exact ⟨_, .leaf shown builds' (QueryField.describes_iff.2 rfl),
      QueryField.anonymous_ofCategories hbase⟩
  | row shown kind here _ ih =>
    obtain ⟨copy, passes, hcopy⟩ := ih
    exact ⟨copy, .row shown kind here passes, hcopy⟩
  | container shown kind here _ ih =>
    obtain ⟨copy, passes, hcopy⟩ := ih
    simp only [← String.append_assoc] at passes
    exact ⟨copy, .container shown kind here passes, hcopy⟩
  | blockType shown kind describes =>
    simp only [← String.append_assoc]
    refine ⟨_, .blockType shown kind (QueryField.describes_iff.2 rfl), ?_⟩
    rw [QueryField.describes_iff.1 describes]
    exact QueryField.anonymous_ofCategories rfl
  | block shown kind type here _ ih =>
    obtain ⟨copy, passes, hcopy⟩ := ih
    simp only [← String.append_assoc] at passes
    exact ⟨copy, .block shown kind type here passes, hcopy⟩

/-- **Behind a prefix the walk passes nothing else.** -/
theorem Visit.exists_of_moved {parent' front start path : String} {f : Field} {place : Place}
    {copy : QueryField} (h : Visit parent' (front ++ start) f place path copy) (parent : String) :
    ∃ rest entry, path = front ++ rest ∧ Visit parent start f place rest entry := by
  generalize hbehind : front ++ start = behind at h
  induction h generalizing start with
  | leaf shown builds _ =>
    subst hbehind
    obtain ⟨base', builds', -⟩ := leafType?_moved builds parent (start ++ _)
    exact ⟨_, _, String.append_assoc, .leaf shown builds' (QueryField.describes_iff.2 rfl)⟩
  | row shown kind here _ ih =>
    obtain ⟨rest, entry, rfl, passes⟩ := ih hbehind
    exact ⟨rest, entry, rfl, .row shown kind here passes⟩
  | @container start' _ f _ _ _ _ shown kind here _ ih =>
    subst hbehind
    obtain ⟨rest, entry, rfl, passes⟩ := @ih (start ++ f.name ++ Path.separator)
      (by simp only [String.append_assoc])
    exact ⟨rest, entry, rfl, .container shown kind here passes⟩
  | @blockType start' f _ shown kind _ =>
    subst hbehind
    refine ⟨_, _, ?_, .blockType shown kind (QueryField.describes_iff.2 rfl)⟩
    simp only [String.append_assoc]
  | @block start' _ f _ _ _ _ _ _ shown kind type here _ ih =>
    subst hbehind
    obtain ⟨rest, entry, rfl, passes⟩ := @ih (start ++ f.name ++ Path.separator)
      (by simp only [String.append_assoc])
    exact ⟨rest, entry, rfl, .block shown kind type here passes⟩

end WhereSchema

/-! ### The fields of a version -/

namespace Field

/-- A field is looked for in the first list, then in the second one. -/
theorem findIn?_append (name : String) (fields more : List Field) :
    findIn? name (fields ++ more) = (findIn? name fields).or (findIn? name more) := by
  induction fields with
  | nil => rfl
  | cons f rest ih => rw [List.cons_append, findIn?, findIn?, ih, Option.or_assoc]

/-- A field that is no row is found under its own name only. -/
theorem find?_ofKind {name own : String} {kind : FieldKind} (hkind : kind ≠ .row)
    (hname : own ≠ name) : (ofKind own kind).find? name = none := by
  simp [ofKind, container, find?, hkind, hname]

end Field

/-- A date field is put in front unless its name is taken. -/
theorem mem_withDateField_iff {name : String} {fields : List Field} {f : Field} :
    f ∈ withDateField name fields ↔
      f ∈ fields ∨ Field.findIn? name fields = none ∧ f = .ofKind name .date := by
  unfold withDateField
  cases Field.findIn? name fields <;> simp

/-- All other names lead to the same fields as before. -/
theorem findIn?_withDateField {name other : String} (hname : other ≠ name) (fields : List Field) :
    Field.findIn? other (withDateField name fields) = Field.findIn? other fields := by
  unfold withDateField
  split
  · rfl
  · have hnone : (Field.ofKind name .date).find? other = none :=
      Field.find?_ofKind (by simp) (Ne.symm hname)
    simp [Field.findIn?_append, Field.findIn?, hnone]

namespace Entity

variable {e : Entity}

/-- **A snapshot has the fields of the document,** and its status where there are drafts. -/
theorem mem_snapshotFields_iff {f : Field} :
    f ∈ e.snapshotFields ↔ f ∈ e.liveFields ∨ e.hasDrafts = true ∧ f = statusField := by
  have hfind (name : String) (hname : Status.field ≠ name) :
      Field.findIn? name (e.fields ++ if e.hasDrafts then [statusField] else []) =
        Field.findIn? name e.fields := by
    have hnone : statusField.find? name = none := by
      simp [statusField, Field.ofKind, Field.container, Field.find?, hname]
    cases e.hasDrafts <;> simp [Field.findIn?_append, Field.findIn?, hnone]
  have hmem : (f ∈ e.fields ++ if e.hasDrafts then [statusField] else []) ↔
      f ∈ e.fields ∨ e.hasDrafts = true ∧ f = statusField := by
    cases e.hasDrafts <;> simp
  unfold snapshotFields liveFields withTimestampFields
  cases e.timestamps with
  | false => exact hmem
  | true =>
    have hupdated := fun fields =>
      findIn?_withDateField (show "updatedAt" ≠ "createdAt" by decide) fields
    simp only [if_true, mem_withDateField_iff, hupdated, hmem, hfind "createdAt" (by decide),
      hfind "updatedAt" (by decide)]
    tauto

/-- The fields of the versions of a collection. -/
theorem versionFields_collection (e : Entity) :
    e.versionFields .collection = [parentField e.slug, .container "version" .group e.snapshotFields,
      .ofKind "createdAt" .date, .ofKind "updatedAt" .date] := by
  rfl

end Entity

namespace WhereSchema

/-- A field with operators is passed under its name only. -/
theorem exists_visit_iff_of_hasOperators (parent start : String) {path : String} {f : Field}
    (shown : f.hidden = false) (operators : f.kind.HasOperators) :
    (∃ entry place, Visit parent start f place path entry) ↔ path = start ++ f.name := by
  constructor
  · rintro ⟨entry, place, hvisit⟩
    cases hvisit with
    | leaf _ _ _ => rfl
    | row _ kind _ _ => simp [kind, FieldKind.HasOperators] at operators
    | container _ kind _ _ =>
      rcases kind with kind | kind <;> simp [kind, FieldKind.HasOperators] at operators
    | blockType _ kind _ => simp [kind, FieldKind.HasOperators] at operators
    | block _ kind _ _ _ => simp [kind, FieldKind.HasOperators] at operators
  · rintro rfl
    obtain ⟨base, more, builds⟩ := leafType?_of_hasOperators operators parent (start ++ f.name)
    exact ⟨_, _, .leaf shown builds (QueryField.describes_iff.2 rfl)⟩

/-- What stands in front of the paths of a snapshot. -/
def versionFront : String := "version__"

variable {e : Entity} {parent parent' path : String}

/-- The visits of the content of a version are those of the fields of the snapshot, below the front
of versions. -/
theorem visit_snapshot :
    Visit parent "" (.container "version" .group e.snapshotFields) =
      VisitIn parent (versionFront ++ "") e.snapshotFields :=
  visit_container rfl (.inr rfl)

/-- No key below the front of versions is that of the id. -/
theorem ne_id_of_versionFront (own : String) : versionFront ++ own ≠ "id" := by
  intro hid
  have hhead := congrArg (·.toList.head?) hid
  simp [versionFront] at hhead

/-- What is passed in the snapshot is an entry of the versions. -/
theorem entry_of_visit_snapshot {own : String} {entry : QueryField} {f : Field} {place : Place}
    (hf : f ∈ e.snapshotFields)
    (hvisit : Visit parent (versionFront ++ "") f place (versionFront ++ own) entry) :
    Entry parent (e.versionFields .collection) (versionFront ++ own) entry := by
  have hbelow := exists_visitIn_iff.2 ⟨f, hf, place, hvisit⟩
  rw [← visit_snapshot] at hbelow
  refine .inr ⟨ne_id_of_versionFront own, exists_visitIn_iff.2 ⟨_, ?_, hbelow⟩⟩
  rw [Entity.versionFields_collection]
  exact List.mem_cons_of_mem _ List.mem_cons_self

/-- **Every path of a document is a path of its versions,** behind `version`. -/
theorem exists_copy {entry : QueryField} (parent' : String)
    (h : ∃ place, VisitIn parent "" e.liveFields place path entry) :
    ∃ copy, Entry parent' (e.versionFields .collection) (versionFront ++ path) copy ∧
      copy.anonymous = entry.anonymous := by
  obtain ⟨f, hf, place, hvisit⟩ := exists_visitIn_iff.1 h
  obtain ⟨copy, hcopy, heq⟩ := hvisit.moved parent' versionFront
  exact ⟨copy, entry_of_visit_snapshot (Entity.mem_snapshotFields_iff.2 (.inl hf)) hcopy, heq⟩

/-- The paths of a snapshot are those of the document, and the status. -/
theorem path_of_visit_snapshot {entry : QueryField} {place : Place}
    (h : Visit parent' "" (.container "version" .group e.snapshotFields) place path entry) :
    (e.hasDrafts = true ∧ path = versionFront ++ Status.field) ∨
      ∃ own, (∃ entry place, VisitIn parent "" e.liveFields place own entry) ∧
        path = versionFront ++ own := by
  rw [visit_snapshot] at h
  obtain ⟨f, hf, place, hvisit⟩ := exists_visitIn_iff.1 ⟨place, h⟩
  rcases Entity.mem_snapshotFields_iff.1 hf with hlive | ⟨hdrafts, rfl⟩
  · obtain ⟨own, original, rfl, hpasses⟩ := hvisit.exists_of_moved parent
    exact .inr ⟨own, ⟨original, exists_visitIn_iff.2 ⟨f, hlive, place, hpasses⟩⟩, rfl⟩
  · exact .inl ⟨hdrafts, (exists_visit_iff_of_hasOperators _ _ (f := statusField) rfl trivial).1
      ⟨_, _, hvisit⟩⟩

/-- The fields of a version that have operators themselves. -/
theorem exists_entry_of_hasOperators {f : Field} (hmem : f ∈ e.versionFields .collection)
    (shown : f.hidden = false) (operators : f.kind.HasOperators) :
    ∃ entry, Entry parent (e.versionFields .collection) f.name entry := by
  by_cases hid : f.name = "id"
  · exact ⟨_, .inl ⟨hid, QueryField.describes_iff.2 rfl⟩⟩
  · obtain ⟨entry, hvisit⟩ :=
      (exists_visit_iff_of_hasOperators parent "" shown operators).2 rfl
    rw [String.empty_append] at hvisit
    exact ⟨entry, .inr ⟨hid, exists_visitIn_iff.2 ⟨f, hmem, hvisit⟩⟩⟩

/-- The document of a version is a path of the version. -/
theorem entry_parent : Entry parent (e.versionFields .collection) "parent"
    (.ofCategories parent "parent" "relationship" (.scalar .string) false
      [.equality, .contains]) := by
  have hvisit : Visit parent "" (parentField e.slug) [] ("" ++ "parent") _ :=
    .leaf rfl rfl (QueryField.describes_iff.2 rfl)
  rw [String.empty_append] at hvisit
  exact .inr ⟨by decide, exists_visitIn_iff.2 ⟨_, List.mem_cons_self, _, hvisit⟩⟩

/-- **The paths of versions** are those of the version itself and, behind `version`, those of the
document and the status. -/
theorem exists_entry_versionFields_iff :
    (∃ entry, Entry parent' (e.versionFields .collection) path entry) ↔
      path ∈ ["id", "parent", "createdAt", "updatedAt"] ∨
        (e.hasDrafts = true ∧ path = versionFront ++ Status.field) ∨
          ∃ own, (∃ entry place, VisitIn parent "" e.liveFields place own entry) ∧
            path = versionFront ++ own := by
  have hfields := Entity.versionFields_collection e
  constructor
  · rintro ⟨entry, ⟨rfl, -⟩ | ⟨-, hvisit⟩⟩
    · exact .inl List.mem_cons_self
    · obtain ⟨f, hf, place, hvisit⟩ := exists_visitIn_iff.1 hvisit
      have hname (shown : f.hidden = false) (operators : f.kind.HasOperators) : path = f.name :=
        ((exists_visit_iff_of_hasOperators _ _ shown operators).1 ⟨_, _, hvisit⟩).trans
          String.empty_append
      simp only [hfields, List.mem_cons, List.not_mem_nil, or_false] at hf
      rcases hf with rfl | rfl | rfl | rfl
      · exact .inl (by simp [hname rfl trivial, parentField, Field.ofKind, Field.container])
      · exact .inr (path_of_visit_snapshot hvisit)
      · exact .inl (by simp [hname rfl trivial, Field.ofKind, Field.container])
      · exact .inl (by simp [hname rfl trivial, Field.ofKind, Field.container])
  · rintro (hmem | ⟨hdrafts, rfl⟩ | ⟨own, ⟨entry, hvisit⟩, rfl⟩)
    · simp only [List.mem_cons, List.not_mem_nil, or_false] at hmem
      rcases hmem with rfl | rfl | rfl | rfl
      · exact ⟨_, .inl ⟨rfl, QueryField.describes_iff.2 rfl⟩⟩
      · exact exists_entry_of_hasOperators (f := parentField e.slug) (by simp [hfields]) rfl trivial
      · exact exists_entry_of_hasOperators (f := .ofKind "createdAt" .date) (by simp [hfields]) rfl
          trivial
      · exact exists_entry_of_hasOperators (f := .ofKind "updatedAt" .date) (by simp [hfields]) rfl
          trivial
    · have hstatus := Entity.mem_snapshotFields_iff.2 (.inr ⟨hdrafts, rfl⟩)
      obtain ⟨entry, place, hvisit⟩ := (exists_visit_iff_of_hasOperators parent'
        (versionFront ++ "") (f := statusField) rfl trivial).2 rfl
      exact ⟨entry, entry_of_visit_snapshot hstatus hvisit⟩
    · obtain ⟨copy, hcopy, -⟩ := exists_copy parent' hvisit
      exact ⟨copy, hcopy⟩

end WhereSchema

/-! ### Clauses on versions -/

/-- The key of a path in a version is the key of the path behind the front of versions. -/
theorem Path.toQuery_inVersion {path : String} (h : path ≠ "id") :
    toQuery (inVersion path) = WhereSchema.versionFront ++ toQuery path := by
  have hfront : queryChars "version.".toList = "version__".toList := by decide
  have happend (s t : List Char) : queryChars (s ++ t) = queryChars s ++ queryChars t :=
    List.flatMap_append
  rw [inVersion, if_neg h, toQuery, String.toList_append, happend, hfront, String.ofList_append]
  rfl

/-- No other path has the query path `id`. -/
theorem Path.toQuery_eq_id_iff {path : String} : toQuery path = "id" ↔ path = "id" := by
  refine ⟨fun h => ?_, fun h => by rw [h]; decide⟩
  have hpoint : '.' ∉ path.toList := by
    intro hpoint
    have hunderscore : '_' ∈ (toQuery path).toList := by
      rw [toQuery, String.toList_ofList, queryChars, List.mem_flatMap]
      exact ⟨'.', hpoint, by simp⟩
    rw [h] at hunderscore
    revert hunderscore
    decide
  rwa [WhereSchema.toQuery_eq_self hpoint] at h

/-- **A clause that fits the documents fits their versions,** once it is moved there. -/
theorem WhereSchema.validate_scopeToVersion {e : Entity} {parent parent' : String}
    {live versions : WhereSchema} (hlive : compile parent e.liveFields = .ok live)
    (hversions : compile parent' (e.versionFields .collection) = .ok versions) {p : Predicate}
    (hp : live.validate p = .ok ()) : versions.validate p.scopeToVersion = .ok () := by
  rw [validate_eq_ok_iff] at hp ⊢
  rw [Predicate.scopeToVersion, Predicate.leaves_mapPaths, List.forall_mem_map]
  intro k hk
  obtain ⟨f, hfound, hadmits⟩ := hp k hk
  rcases (get?_of_compile hlive).1 hfound with ⟨hquery, hdescribes⟩ | ⟨hquery, hvisit⟩
  · -- The id of the document is the parent of the version, and takes the same operators.
    have hid := Path.toQuery_eq_id_iff.1 hquery
    have hmoved : Path.toQuery (Path.inVersion k.path) = "parent" := by
      rw [hid]
      decide
    have hparent := (get?_of_compile hversions).2 entry_parent
    rw [← hmoved] at hparent
    rw [QueryField.describes_iff.1 hdescribes, QueryField.admits_ofCategories_scalar_iff] at hadmits
    exact ⟨_, hparent, QueryField.admits_ofCategories_scalar_iff.2 hadmits⟩
  · have hid : k.path ≠ "id" := Path.toQuery_eq_id_iff.not.1 hquery
    obtain ⟨copy, hcopy, heq⟩ := exists_copy parent' hvisit
    refine ⟨copy, ?_, hadmits.of_anonymous_eq heq⟩
    rw [WhereSchema.get?, Path.toQuery_inVersion hid]
    exact (get?_of_compile hversions).2 hcopy

namespace CompiledEntity

/-- The schemas of a collection with versions. -/
theorem schemas_of_compile {e : Entity} {c : CompiledEntity} (h : compile .collection e = .ok c)
    (hversioned : e.isVersioned = true) :
    WhereSchema.compile c.labels.singular e.liveFields = .ok c.whereSchema ∧
      ∃ schema, WhereSchema.compile (c.labels.singular ++ "Version")
        (e.versionFields .collection) = .ok schema ∧ c.versionWhereSchema = some schema := by
  obtain ⟨live, hlive, h⟩ := Except.bind_eq_ok_iff.1 h
  rw [if_pos hversioned] at h
  obtain ⟨versions, hversions, h⟩ := Except.bind_eq_ok_iff.1 h
  cases hschema : WhereSchema.compile (e.typeLabels.singular ++ "Version")
      (e.versionFields .collection) with
  | error reason =>
    rw [hschema] at hversions
    cases hversions
  | ok schema =>
    rw [hschema] at hversions
    cases hversions
    cases h
    exact ⟨hlive, schema, hschema, rfl⟩

/-- **Versions are filtered like documents.**  A clause that fits the documents of a collection fits
their versions, once it is moved there.  The schema of the versions holds the paths of a version and,
behind `version`, the path of the status and a copy of every path that is compiled from the fields of
the documents. -/
theorem versions_accept {e : Entity} {c : CompiledEntity} (h : compile .collection e = .ok c)
    (hversioned : e.isVersioned = true) :
    ∃ own schema, WhereSchema.addFields c.labels.singular "" [] e.liveFields = .ok own ∧
      c.whereSchema.fields = Table.insert "id" (WhereSchema.idEntry c.labels.singular) own ∧
      c.versionWhereSchema = some schema ∧
      (∀ p, c.whereSchema.validate p = .ok () → schema.validate p.scopeToVersion = .ok ()) ∧
      (∀ path, Table.contains path schema.fields = true ↔
        path ∈ ["id", "parent", "createdAt", "updatedAt"] ∨
          (e.hasDrafts = true ∧ path = "version___status") ∨
            ∃ k, Table.contains k own = true ∧ path = "version__" ++ k) ∧
      ∀ k entry, Table.get? k own = some entry → ∃ copy,
        Table.get? ("version__" ++ k) schema.fields = some copy ∧
          copy.anonymous = entry.anonymous := by
  obtain ⟨hlive, schema, hschema, hversions⟩ := schemas_of_compile h hversioned
  obtain ⟨own, hown, -, hfields⟩ := WhereSchema.compile_eq_ok_iff.1 hlive
  have hlookup := fun path entry =>
    (WhereSchema.addFields_extends c.labels.singular "" List.Pairwise.nil e.liveFields).exact.lookup
      own hown path entry
  have hcontains {t : Table QueryField} (path : String) :
      Table.contains path t = true ↔ ∃ entry, Table.get? path t = some entry :=
    Option.isSome_iff_exists
  refine ⟨own, schema, hown, congrArg WhereSchema.fields hfields, hversions, fun p hp => ?_,
    fun path => ?_, fun k entry hget => ?_⟩
  · exact WhereSchema.validate_scopeToVersion hlive hschema hp
  · simp only [hcontains, WhereSchema.get?_of_compile hschema, hlookup]
    exact WhereSchema.exists_entry_versionFields_iff
  · obtain ⟨copy, hcopy, heq⟩ := WhereSchema.exists_copy (c.labels.singular ++ "Version")
      ((hlookup k entry).1 hget)
    exact ⟨copy, (WhereSchema.get?_of_compile hschema).2 hcopy, heq⟩

/-- Recipes with drafts, with a group, options and block types that share a path. -/
def recipes : Entity :=
  (Entity.ofFields "recipes"
    [.ofKind "title" .text, .container "nutrition" .group [.ofKind "calories" .number],
      { Field.ofKind "course" .select with options := [.plain "starter", .plain "main"] },
      { Field.ofKind "steps" .blocks with
        blocks := [⟨"text", [.ofKind "body" .richText]⟩,
          ⟨"picture", [.ofKind "body" .richText, .ofKind "caption" .text]⟩] }]).withDrafts

/-- A light starter other than recipe 7. -/
def lightStarter : Predicate :=
  .and [.compare "course" .isIn (.str "starter, starter"),
    .or [.compare "nutrition.calories" .lessThan (.nat 300),
      .compare "steps__blockType" .equals (.str "text")],
    .compare "id" .notEquals (.str "7")]

theorem versions_accept_recipes : ∃ c schema entry copy, compile .collection recipes = .ok c ∧
    recipes.isVersioned = true ∧ c.versionWhereSchema = some schema ∧
    c.whereSchema.validate lightStarter = .ok () ∧
    schema.validate lightStarter.scopeToVersion = .ok () ∧
    Table.contains "version___status" schema.fields = true ∧
    Table.get? "nutrition__calories" c.whereSchema.fields = some entry ∧
    Table.get? "version__nutrition__calories" schema.fields = some copy ∧
    copy.anonymous = entry.anonymous := by
  have hcompiles : ((compile .collection recipes).toOption.any fun c =>
      (c.whereSchema.validate lightStarter).isOk &&
        Table.contains "nutrition__calories" c.whereSchema.fields) = true := by
    decide +kernel
  obtain ⟨c, hc, hchecks⟩ := (Option.any_eq_true _ _).1 hcompiles
  obtain ⟨hfits, hcontains⟩ := Bool.and_eq_true_iff.1 hchecks
  obtain ⟨_, hfits⟩ := Except.exists_of_isOk hfits
  obtain ⟨entry, hentry⟩ := Option.isSome_iff_exists.1 hcontains
  obtain ⟨own, schema, -, hfields, hversions, haccepts, hpaths, hcopies⟩ :=
    versions_accept (Except.eq_ok_of_toOption hc) rfl
  have hown := hentry
  rw [hfields, Table.get?_insert, if_neg (by decide)] at hown
  obtain ⟨copy, hcopy, heq⟩ := hcopies _ entry hown
  exact ⟨c, schema, entry, copy, Except.eq_ok_of_toOption hc, rfl, hversions, hfits,
    haccepts _ hfits, (hpaths _).2 (.inr (.inl ⟨rfl, rfl⟩)), hentry, hcopy, heq⟩

end CompiledEntity

end HeadlessCms
