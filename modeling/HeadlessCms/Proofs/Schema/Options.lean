import HeadlessCms.Proofs.Schema.Enumerations
import HeadlessCms.Proofs.Schema.Versions

/-!
# Options in where-clauses

The values of a `select` or a `radio` field are among its options.  Operators with a list of values are
checked against these options before they are evaluated, and both steps read the list off the operand:
`WhereSchema.namedOptions` for the check, `operandList` for the evaluation.  They read the same texts,
except off a text without commas, which is trimmed for the check but not for the evaluation.  So a
clause fits exactly if all texts that are compared are options, unless trimming such a text makes an
option of it or makes it cease to be one (`WhereSchema.accepts_options`).
-/

namespace HeadlessCms

/-- A text without the white space on both sides. -/
def Text.trimmed (s : String) : String :=
  String.ofList (trim s.toList)

/-- What may be chosen for a field. -/
def Field.optionValues (f : Field) : List String :=
  f.options.map SelectOption.value

/-! ### Two readings of a list operand -/

namespace WhereSchema

variable {op : Operator} {operand : Json} {s : String}

/-- A text without commas is checked as it is without white space around it, -/
theorem namedOptions_of_notMem (hlist : op.takesList = true) (hcomma : ',' ∉ s.toList) :
    namedOptions op (.str s) = [Text.trimmed s] := by
  rw [namedOptions, if_pos hlist, Text.splitOn_of_notMem hcomma]
  rfl

/-- but is compared as it is. -/
theorem operandList_of_notMem (hcomma : ',' ∉ s.toList) : operandList (.str s) = [.str s] :=
  if_neg hcomma

/-- **Otherwise the same texts are checked and compared.** -/
theorem mem_namedOptions_iff (hlist : op.takesList = true)
    (hcomma : ∀ text, operand = .str text → ',' ∈ text.toList) :
    s ∈ namedOptions op operand ↔ .str s ∈ operandList operand := by
  cases operand with
  | str text =>
    rw [namedOptions, operandList, if_pos hlist, if_pos (hcomma text rfl)]
    simp only [List.mem_map, Json.str.injEq]
  | arr items =>
    rw [namedOptions, operandList, List.mem_filterMap]
    constructor
    · rintro ⟨v, hv, hs⟩
      cases v with
      | str text =>
        cases hs
        exact hv
      | _ => cases hs
    · exact fun hs => ⟨.str s, hs, rfl⟩
  | null | bool b | num n | obj members => simp [namedOptions, operandList]

end WhereSchema

/-! ### Checking options -/

/-- The type of an enumeration refuses what it does not have. -/
theorem QueryField.admits_ofCategories_enum_iff {parent path tag : String} {type : EnumType}
    {many : Bool} {more : List OperatorCategory} {op : Operator} {operand : Json}
    (hlist : op.takesList = true) :
    (ofCategories parent path tag (.enum type) many (.equality :: more)).Admits op operand ↔
      ∀ s ∈ WhereSchema.namedOptions op operand, type.containsValue s = true := by
  have hequality : op ∈ OperatorCategory.equality.operators := by
    cases op <;> first | decide | cases hlist
  have hallows : (ofCategories parent path tag (.enum type) many (.equality :: more)).allows op =
      true := by
    simp only [allows, ofCategories, List.any_map, List.any_eq_true, Function.comp_apply, beq_iff_eq]
    exact ⟨op, List.mem_flatMap.2 ⟨_, List.mem_cons_self, hequality⟩, rfl⟩
  have hbase : (ofCategories parent path tag (.enum type) many (.equality :: more)).baseType =
      .enum type := by
    cases many <;> rfl
  have hcategory : op.category = .equality := (Operator.mem_operators_iff op .equality).1 hequality
  simp only [Admits, hallows, hbase, hcategory, true_and, ValueType.enum.injEq, forall_eq',
    forall_const]

namespace WhereSchema

open HeadlessCms.Field (LeafIn)
open HeadlessCms.Path (key)

/-- A list for a field of options is admitted if all its items are options. -/
theorem admits_options_iff {parent path : String} {leaf : Field} {entry : QueryField} {op : Operator}
    {operand : Json} (hkind : leaf.kind = .select ∨ leaf.kind = .radio)
    (hentry : leafEntry? leaf parent path = some entry) (hlist : op.takesList = true) :
    entry.Admits op operand ↔ ∀ s ∈ namedOptions op operand, s ∈ leaf.optionValues := by
  obtain ⟨more, rfl⟩ : ∃ more, entry = .ofCategories parent path leaf.kind.tag
      (optionEnum leaf parent path) leaf.hasMany (.equality :: more) := by
    rcases hkind with hkind | hkind <;> simp only [hkind, leafEntry?, leafType?] at hentry ⊢ <;>
      exact ⟨_, (Option.some.inj hentry).symm⟩
  rw [optionEnum, QueryField.admits_ofCategories_enum_iff hlist]
  simp only [EnumType.containsValue_ofValues, Field.optionValues]

/-- **A list operand on a field with options fits if all options that it names are options.** -/
theorem validate_options_iff {parent : String} {fields : List Field} {schema : WhereSchema}
    (hschema : compile parent fields = .ok schema) {names : List String} {leaf : Field}
    (hleaf : LeafIn fields names leaf) (hkind : leaf.kind = .select ∨ leaf.kind = .radio)
    (hid : key names ≠ "id") {path : String} (hpath : Path.toQuery path = key names) {op : Operator}
    (hlist : op.takesList = true) (operand : Json) :
    schema.validate (.compare path op operand) = .ok () ↔
      ∀ s ∈ namedOptions op operand, s ∈ leaf.optionValues := by
  obtain ⟨entry, hget, hbuilt, -⟩ := exists_entry_of_leafIn hschema hleaf
  rw [← hpath] at hget
  rw [validate_eq_ok_iff, ← admits_options_iff hkind (hbuilt hid) hlist]
  simp only [Predicate.compare, Predicate.leaves, List.mem_singleton, forall_eq, WhereSchema.get?,
    hget, Option.some.injEq, exists_eq_left']

/-- **Options are checked as they are compared, but for white space.**  On every path of a `select` or
a `radio` field, whatever list of values the operand of `in`, `not_in` or `all` is: a text without
commas is checked without the white space around it, although it is compared as it is, and the clause
fits exactly if every text that is compared is an option, up to this difference. -/
theorem accepts_options {parent : String} {fields : List Field} {schema : WhereSchema}
    (hschema : compile parent fields = .ok schema) {names : List String} {leaf : Field}
    (hleaf : LeafIn fields names leaf) (hkind : leaf.kind = .select ∨ leaf.kind = .radio)
    (hid : key names ≠ "id") {path : String} (hpath : Path.toQuery path = key names) {op : Operator}
    (hlist : op.takesList = true) :
    (∀ s, ',' ∉ s.toList → operandList (.str s) = [.str s] ∧
      (schema.validate (.compare path op (.str s)) = .ok () ↔
        Text.trimmed s ∈ leaf.optionValues)) ∧
    ∀ operand,
      (schema.validate (.compare path op operand) = .ok () ↔
        ∀ s, .str s ∈ operandList operand → s ∈ leaf.optionValues) ↔
      ∀ s, operand = .str s → ',' ∉ s.toList →
        (Text.trimmed s ∈ leaf.optionValues ↔ s ∈ leaf.optionValues) := by
  have hvalid := validate_options_iff hschema hleaf hkind hid hpath hlist
  have hsingle (s : String) (hcomma : ',' ∉ s.toList) :
      schema.validate (.compare path op (.str s)) = .ok () ↔
        Text.trimmed s ∈ leaf.optionValues := by
    rw [hvalid, namedOptions_of_notMem hlist hcomma]
    exact List.forall_mem_singleton
  refine ⟨fun s hcomma => ⟨operandList_of_notMem hcomma, hsingle s hcomma⟩, fun operand => ?_⟩
  by_cases hplain : ∃ s, operand = .str s ∧ ',' ∉ s.toList
  · obtain ⟨s, rfl, hcomma⟩ := hplain
    have hcompared : (∀ text, .str text ∈ operandList (.str s) → text ∈ leaf.optionValues) ↔
        s ∈ leaf.optionValues := by
      simp [operandList_of_notMem hcomma]
    rw [hsingle s hcomma, hcompared]
    constructor
    · rintro hiff text heq -
      cases heq
      exact hiff
    · exact fun hiff => hiff s rfl hcomma
  · have hcommas : ∀ text, operand = .str text → ',' ∈ text.toList := by
      intro text heq
      by_contra hcomma
      exact hplain ⟨text, heq, hcomma⟩
    refine iff_of_true ?_ fun s heq hcomma => absurd (hcommas s heq) hcomma
    simp only [hvalid, mem_namedOptions_iff hlist hcommas]

/-- A post that is a draft or published. -/
def statusOptions : Field :=
  { Field.ofKind "status" .select with options := [.plain "draft", .plain "published"] }

/-- The field of the status is a leaf of the example. -/
theorem leafIn_statusOptions : LeafIn [statusOptions] ["status"] statusOptions :=
  ⟨_, List.mem_cons_self, .here rfl trivial⟩

/-- White space after a comma is left out by both, and a number names no option. -/
theorem accepts_options_list : ∃ schema, compile "Post" [statusOptions] = .ok schema ∧
    schema.validate (.compare "status" .isIn (.str "draft, published")) = .ok () ∧
    schema.validate (.compare "status" .notIn (.arr [.str "draft", .nat 7])) = .ok () ∧
    schema.validate (.compare "status" .all (.arr [.str " draft"])) ≠ .ok () := by
  obtain ⟨schema, hschema⟩ : ∃ schema, compile "Post" [statusOptions] = .ok schema :=
    Except.exists_of_isOk (by decide +kernel)
  have hpath : Path.toQuery "status" = key ["status"] := by decide
  have haccepts {op : Operator} (hlist : op.takesList = true) :=
    (accepts_options hschema leafIn_statusOptions (.inl rfl) (by decide) hpath hlist).2
  have hlisted : operandList (.str "draft, published") = [.str "draft", .str "published"] := rfl
  have harray {op : Operator} (hlist : op.takesList = true) (items : List Json) :
      schema.validate (.compare "status" op (.arr items)) = .ok () ↔
        ∀ s, .str s ∈ items → s ∈ statusOptions.optionValues := by
    refine (haccepts hlist (.arr items)).2 ?_
    intro s heq
    cases heq
  refine ⟨schema, hschema, ?_, (harray rfl _).2 ?_, fun hfits => ?_⟩
  · refine ((haccepts rfl (.str "draft, published")).2 fun s heq hcomma => ?_).2 fun s hs => ?_
    · cases heq
      exact absurd (by decide) hcomma
    · rw [hlisted] at hs
      simp only [List.mem_cons, Json.str.injEq, List.not_mem_nil, or_false] at hs
      rcases hs with rfl | rfl <;> decide
  · intro s hs
    simp only [List.mem_cons, Json.str.injEq, Json.nat, reduceCtorEq, List.not_mem_nil,
      or_false] at hs
    rw [hs]
    decide
  · exact absurd ((harray rfl _).1 hfits " draft" List.mem_cons_self) (by decide)

/-- White space around an option passes the check, but what is compared is no option, and no draft is
found. -/
theorem accepts_blanks_around_option : ∃ schema, compile "Post" [statusOptions] = .ok schema ∧
    schema.validate (.compare "status" .isIn (.str " draft ")) = .ok () ∧
    Json.str " draft " ∈ operandList (.str " draft ") ∧ " draft " ∉ statusOptions.optionValues ∧
    (Predicate.compare "status" .isIn (.str " draft ")).holds [("status", .str "draft")] =
      .ok false := by
  obtain ⟨schema, hschema⟩ : ∃ schema, compile "Post" [statusOptions] = .ok schema :=
    Except.exists_of_isOk (by decide +kernel)
  have hpath : Path.toQuery "status" = key ["status"] := by decide
  have hvalid := validate_options_iff hschema leafIn_statusOptions (.inl rfl) (by decide) hpath
    (show Operator.isIn.takesList = true from rfl) (.str " draft ")
  refine ⟨schema, hschema, hvalid.2 fun s hs => ?_, List.mem_singleton.2 rfl, by decide, rfl⟩
  rw [namedOptions_of_notMem rfl (by decide), List.mem_singleton] at hs
  rw [hs]
  decide

end WhereSchema

end HeadlessCms
