import HeadlessCms.Proofs.Schema.Enumerations
import HeadlessCms.Proofs.Schema.Exactness
import HeadlessCms.Proofs.Text.Identifier

/-!
# Names in where-schemas

The names of a where-schema stand in generated code, so they have to be identifiers.  They are put
together in two ways.  The name of a type is the identifier of a text that starts with the name of the
parent and an underscore, with a fixed ending behind it (`WhereSchema.NameFor`); so only the parent
decides about its first character.  The name of an enumerated value is the identifier of the value,
possibly with a number (`EnumType.Named`).  In both ways the first character is a digit exactly if the
text that comes first hides one (`WhereSchema.generated_names`).
-/

namespace HeadlessCms

open Text (IsIdentifier HidesDigit continuesIdentifier identifier)

/-- The enumerations that are generated for a value type. -/
def ValueType.enums : ValueType → List EnumType
  | scalar _ => []
  | enum type => [type]
  | relation _ relationTo => [relationTo]
  | list item => item.enums

/-- The types of the stored value and of the operands. -/
def QueryField.valueTypes (f : QueryField) : List ValueType :=
  f.valueType :: f.operators.map (·.valueType)

namespace WhereSchema

/-- The names of the schema and of all types in it. -/
def names (schema : WhereSchema) : List String :=
  schema.name :: schema.fields.flatMap fun (_, entry) =>
    entry.inputName :: entry.valueTypes.flatMap ValueType.typeNames

/-- The enumerations in a schema. -/
def enums (schema : WhereSchema) : List EnumType :=
  schema.fields.flatMap fun (_, entry) => entry.valueTypes.flatMap ValueType.enums

end WhereSchema

/-! ### Names of enumerated values -/

namespace EnumType

variable {taken : List String} {value name : String}

/-- A number behind an underscore may go on an identifier. -/
theorem continues_of_mem_number {k : Nat} {c : Char} (h : c ∈ ("_" ++ toString k).toList) :
    continuesIdentifier c = true := by
  rw [String.toList_append, List.mem_append] at h
  rcases h with h | h
  · rw [List.mem_singleton.1 h]
    rfl
  · have hdigits : c ∈ Nat.toDigits 10 k := by rwa [← Nat.toList_repr]
    exact Text.continues_of_digit (Nat.isDigit_of_mem_toDigits (by decide) (by decide) hdigits)

/-- **The name of a value is an identifier, unless the value hides a digit.** -/
theorem Named.isIdentifier_iff (h : Named taken value name) :
    IsIdentifier name ↔ ¬ HidesDigit value := by
  rw [← Text.isIdentifier_identifier_iff]
  cases h with
  | plain _ => exact Iff.rfl
  | numbered _ _ _ _ _ =>
    rw [EnumType.numbered, String.append_assoc]
    exact Text.isIdentifier_append_iff (Text.identifier_ne_empty value) fun c =>
      continues_of_mem_number

/-- The name of an enumeration value is an identifier exactly if the value hides no digit. -/
theorem isIdentifier_of_mem_ofValues_iff {values : List String} {v : EnumValue}
    (hv : v ∈ (ofValues name values).values) : IsIdentifier v.name ↔ ¬ HidesDigit v.value := by
  obtain ⟨before, after, hsplit⟩ := List.append_of_mem hv
  exact (namedInTurn_ofValues name values before v after hsplit).isIdentifier_iff

end EnumType

/-! ### Names of types -/

namespace WhereSchema

/-- The name of a type that is generated inside `parent`. -/
def NameFor (parent name : String) : Prop :=
  ∃ path ending, name = Text.qualified parent path ++ ending ∧
    ending.toList.all continuesIdentifier = true

/-- **The name of a type is an identifier, unless the parent hides a digit.** -/
theorem NameFor.isIdentifier_iff {parent name : String} (h : NameFor parent name) :
    IsIdentifier name ↔ ¬ HidesDigit parent := by
  obtain ⟨path, ending, rfl, hending⟩ := h
  have hname : Text.qualified parent path ≠ "" := Text.identifier_ne_empty _
  rw [Text.isIdentifier_append_iff hname (List.all_eq_true.1 hending), Text.qualified,
    Text.isIdentifier_identifier_iff, Text.hidesDigit_append_underscore_iff]

/-- A value type as the compiler generates it: its names are made for the parent, and its enumerations
are made of values. -/
structure TypeFor (parent : String) (type : ValueType) : Prop where
  names : ∀ name ∈ type.typeNames, NameFor parent name
  enums : ∀ e ∈ type.enums, ∃ name values, e = .ofValues name values

/-- An entry as the compiler generates it. -/
structure EntryFor (parent : String) (entry : QueryField) : Prop where
  inputName : NameFor parent entry.inputName
  types : ∀ type ∈ entry.valueTypes, TypeFor parent type

section Types

variable {parent path : String} {base : ValueType}

/-- Scalar types have no names of their own. -/
theorem typeFor_scalar (type : ScalarType) : TypeFor parent (.scalar type) where
  names _ h := nomatch h
  enums _ h := nomatch h

/-- A list has the names of its items. -/
theorem TypeFor.list (h : TypeFor parent base) : TypeFor parent (.list base) :=
  ⟨h.names, h.enums⟩

/-- An enumeration of values has a generated name if it is given one. -/
theorem typeFor_enum {name : String} (hname : NameFor parent name) (values : List String) :
    TypeFor parent (.enum (.ofValues name values)) where
  names _ h := List.mem_singleton.1 h ▸ hname
  enums _ h := ⟨name, values, List.mem_singleton.1 h⟩

/-- A relation with its targets has a generated name if it is given one. -/
theorem typeFor_relation {name target : String} (hname : NameFor parent name)
    (htarget : NameFor parent target) (slugs : List String) :
    TypeFor parent (.relation name (.ofValues target slugs)) where
  names _ h := by
    rcases List.mem_pair.1 h with rfl | rfl
    · exact hname
    · exact htarget
  enums _ h := ⟨target, slugs, List.mem_singleton.1 h⟩

/-- The type of a relation has generated names. -/
theorem typeFor_relationType (f : Field) : TypeFor parent (relationType f parent path) := by
  unfold relationType
  split
  · refine typeFor_relation ⟨path, "_Relation", rfl, by decide⟩
      ⟨path, "_Relation" ++ "_RelationTo", String.append_assoc, by decide⟩ _
  · exact typeFor_scalar _

/-- The type of every field without fields has generated names. -/
theorem typeFor_of_leafType {f : Field} {categories : List OperatorCategory}
    (h : leafType? f parent path = some (base, categories)) : TypeFor parent base := by
  have hoptions : TypeFor parent (optionEnum f parent path) :=
    typeFor_enum ⟨path, "_Input", rfl, by decide⟩ _
  cases hkind : f.kind <;> rw [leafType?, hkind] at h <;> cases h
  case radio | select => exact hoptions
  case point => exact (typeFor_scalar _).list
  case relationship => exact typeFor_relationType f
  all_goals exact typeFor_scalar _

end Types

/-! ### Names in a schema -/

section Entries

variable {parent path tag : String} {base : ValueType} {many : Bool}
  {categories : List OperatorCategory} {entry : QueryField}

/-- Stored values and operands have the base type or are lists of it. -/
theorem TypeFor.entryFor (hbase : TypeFor parent base)
    (h : entry.Describes parent path tag base many categories) : EntryFor parent entry where
  inputName := ⟨path, "_operator", h.inputName, by decide⟩
  types type htype := by
    rcases List.mem_cons.1 htype with rfl | htype
    · rw [h.valueType]
      split
      · exact hbase.list
      · exact hbase
    · obtain ⟨input, hinput, rfl⟩ := List.mem_map.1 htype
      rw [h.operands input hinput]
      split
      · exact hbase.list
      · exact hbase

/-- **What the walk passes is named for the parent.** -/
theorem Visit.entryFor {start : String} {f : Field} {place : Place}
    (h : Visit parent start f place path entry) : EntryFor parent entry := by
  induction h with
  | leaf _ builds describes => exact (typeFor_of_leafType builds).entryFor describes
  | blockType _ _ describes =>
    exact (typeFor_enum ⟨_, "_BlockType", rfl, by decide⟩ _).entryFor describes
  | row _ _ _ _ ih | container _ _ _ _ ih | block _ _ _ _ _ ih => exact ih

/-- All entries of a compiled schema have generated names. -/
theorem entryFor_of_mem_compile {fields : List Field} {schema : WhereSchema}
    (hschema : compile parent fields = .ok schema) (hmem : (path, entry) ∈ schema.fields) :
    EntryFor parent entry := by
  obtain ⟨paths, hpaths, -, rfl⟩ := compile_eq_ok_iff.1 hschema
  have hget := Table.get?_of_mem (ascending_insert_idEntry hpaths) hmem
  obtain ⟨-, hid⟩ | ⟨-, _, _, _, _, _, _, hvisit⟩ := (get?_insert_idEntry hpaths path entry).1 hget
  · exact (typeFor_scalar _).entryFor hid
  · exact hvisit.entryFor

end Entries

/-- A name of a schema is an identifier exactly if the raw name in front hides no digit. -/
theorem isIdentifier_names_iff {parent name : String} {fields : List Field} {schema : WhereSchema}
    (hschema : compile parent fields = .ok schema) (hname : name ∈ schema.names) :
    IsIdentifier name ↔ ¬ HidesDigit parent := by
  rcases List.mem_cons.1 hname with rfl | hname
  · obtain ⟨paths, -, -, rfl⟩ := compile_eq_ok_iff.1 hschema
    exact Text.isIdentifier_identifier_iff parent
  · obtain ⟨⟨path, entry⟩, hmem, hname⟩ := List.mem_flatMap.1 hname
    have hentry := entryFor_of_mem_compile hschema hmem
    rcases List.mem_cons.1 hname with rfl | hname
    · exact hentry.inputName.isIdentifier_iff
    · obtain ⟨type, htype, hname⟩ := List.mem_flatMap.1 hname
      exact ((hentry.types type htype).names name hname).isIdentifier_iff

/-- The name of a value in a schema is an identifier exactly if the value hides no digit. -/
theorem isIdentifier_enums_iff {parent : String} {fields : List Field} {schema : WhereSchema}
    (hschema : compile parent fields = .ok schema) {e : EnumType} (he : e ∈ schema.enums)
    {v : EnumValue} (hv : v ∈ e.values) : IsIdentifier v.name ↔ ¬ HidesDigit v.value := by
  obtain ⟨⟨path, entry⟩, hmem, he⟩ := List.mem_flatMap.1 he
  obtain ⟨type, htype, he⟩ := List.mem_flatMap.1 he
  obtain ⟨name, values, rfl⟩ := ((entryFor_of_mem_compile hschema hmem).types type htype).enums e he
  exact EnumType.isIdentifier_of_mem_ofValues_iff hv

/-- **Generated names are identifiers, unless a digit comes to the front.**  The identifier of a text is
never empty and consists of the characters of identifiers.  It is an identifier, and a second pass leaves
it as it is, exactly if the text does not hide a digit behind characters that disappear.  So if a schema
is named after the text, all names of types in it are identifiers unless the text hides a digit, and then
none is; and the name of an enumerated value is an identifier unless the value hides a digit. -/
theorem generated_names (text : String) :
    identifier text ≠ "" ∧ (∀ c ∈ (identifier text).toList, continuesIdentifier c = true) ∧
    (IsIdentifier (identifier text) ↔ ¬ HidesDigit text) ∧
    (identifier (identifier text) = identifier text ↔ ¬ HidesDigit text) ∧
    ∀ fields schema, compile text fields = .ok schema →
      (∀ name ∈ schema.names, IsIdentifier name ↔ ¬ HidesDigit text) ∧
      ∀ e ∈ schema.enums, ∀ v ∈ e.values, IsIdentifier v.name ↔ ¬ HidesDigit v.value := by
  refine ⟨Text.identifier_ne_empty text, fun _ => Text.continues_of_mem_identifier,
    Text.isIdentifier_identifier_iff text, Text.identifier_identifier_iff text, ?_⟩
  intro fields schema hschema
  exact ⟨fun _ => isIdentifier_names_iff hschema, fun _ he _ => isIdentifier_enums_iff hschema he⟩

/-- A race with a place that is chosen from two options, one with a space in front of a digit. -/
def placeOptions : Field :=
  { Field.ofKind "place" .select with options := [.plain "1st", .plain " 2nd"] }

/-- The digit behind the space comes to the front of a name, the digit in front gets an underscore. -/
theorem generated_names_of_race : ∃ schema, compile "Race" [placeOptions] = .ok schema ∧
    (∀ name ∈ schema.names, IsIdentifier name) ∧ "Race_place_Input" ∈ schema.names ∧
    ∃ e ∈ schema.enums, e.values = [⟨"_1st", "1st"⟩, ⟨"2nd", " 2nd"⟩] ∧
      IsIdentifier "_1st" ∧ ¬ IsIdentifier "2nd" := by
  obtain ⟨schema, hschema⟩ : ∃ schema, compile "Race" [placeOptions] = .ok schema :=
    Except.exists_of_isOk (by decide +kernel)
  have hname : (compile "Race" [placeOptions]).toOption.any
      (·.names.contains "Race_place_Input") = true := by decide +kernel
  have henum : (compile "Race" [placeOptions]).toOption.any
      (·.enums.contains ⟨"Race_place_Input", [⟨"_1st", "1st"⟩, ⟨"2nd", " 2nd"⟩]⟩) = true := by
    decide +kernel
  rw [hschema] at hname henum
  obtain ⟨hnames, henums⟩ := (generated_names "Race").2.2.2.2 [placeOptions] schema hschema
  have he := List.contains_iff_mem.1 henum
  refine ⟨schema, hschema, fun name h => (hnames name h).2 (by decide),
    List.contains_iff_mem.1 hname, _, he, rfl, ?_, ?_⟩
  · exact (henums _ he ⟨"_1st", "1st"⟩ (by decide)).2 (by decide)
  · exact fun h => (henums _ he ⟨"2nd", " 2nd"⟩ (by decide)).1 h (by decide)

/-- Only a digit in front of the text itself gets an underscore, and what is left of other texts can
start with a digit; a second pass puts the underscore there. -/
theorem not_isIdentifier_hidden_digit : identifier " 9lives" = "9lives" ∧
    ¬ IsIdentifier (identifier " 9lives") ∧
    identifier (identifier " 9lives") = "_9lives" := by
  decide

end WhereSchema

end HeadlessCms
