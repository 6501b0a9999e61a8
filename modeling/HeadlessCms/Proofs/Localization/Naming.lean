import HeadlessCms.Proofs.Localization
import HeadlessCms.Proofs.Localization.Values
import HeadlessCms.Proofs.Query.Comparison
import HeadlessCms.Proofs.Table

/-!
# Values that tell a name

A value tells a name if it is a text, or has texts for locales, all of which are admitted
(`Json.Names`).  It still does after it has been put under a locale (`Json.Names.wrap`), and whatever
a path reaches in it does so, too (`Json.Names.reach`).  So it does not equal a name that compares equal to
none of the admitted ones (`Json.Names.anyEquals`).
-/

namespace HeadlessCms

namespace Json

/-- A text that is admitted, or such values by locale. -/
inductive Names (P : String → Prop) : Json → Prop
  | text {name : String} (admitted : P name) : Names P (.str name)
  | byLocale {members : Record} (some : members ≠ []) (each : ∀ e ∈ members, Names P e.2) :
      Names P (.obj members)

namespace Names

variable {P P' : String → Prop} {v : Json}

/-- A value that tells names in two ways has a name that is admitted in both. -/
theorem exists_both (h : Names P v) (h' : Names P' v) : ∃ name, P name ∧ P' name := by
  induction h with
  | text admitted =>
    cases h' with
    | text admitted' => exact ⟨_, admitted, admitted'⟩
  | byLocale some _ ih =>
    cases h' with
    | byLocale _ each' =>
      obtain ⟨e, rest, rfl⟩ := List.exists_cons_of_ne_nil some
      exact ih e List.mem_cons_self (each' e List.mem_cons_self)

/-- **Whatever a path reaches tells a name.** -/
theorem reach (h : Names P v) (names : List String) : ∀ w ∈ HeadlessCms.reach v names, Names P w := by
  induction h generalizing names with
  | @text name admitted =>
    cases names with
    | nil => simpa using Names.text admitted
    | cons head rest => simp [HeadlessCms.reach]
  | @byLocale members some each ih =>
    cases names with
    | nil => simpa using Names.byLocale some each
    | cons head rest =>
      rw [HeadlessCms.reach, reachMember_eq]
      cases hmember : Table.get? head members with
      | none => simp
      | some w => exact ih (head, w) (Table.mem_of_get? hmember) rest

/-- A name that compares equal to none of the admitted ones is not told. -/
theorem anyEquals {values : List Json} {name : String} (h : ∀ v ∈ values, Names P v)
    (hname : ∀ other, P other → compareTexts other name ≠ .eq) :
    HeadlessCms.anyEquals values (.str name) = false := by
  rw [HeadlessCms.anyEquals, if_neg (by exact Bool.false_ne_true), List.any_eq_false]
  intro v hv hequal
  cases h v hv with
  | @text other admitted =>
    refine hname other admitted ?_
    by_cases hsame : other = name
    · rw [hsame, compareTexts_self]
    · simpa [equalsOperand, looselyEqual, Json.same, hsame, compareValues, Json.asFloat?,
        compareAlike] using hequal
  | byLocale _ _ =>
    simp [equalsOperand, looselyEqual, Json.same, compareValues, Json.asFloat?, compareAlike]
      at hequal

end Names

end Json

/-! ### Putting under a locale -/

namespace LocaleTarget

variable {P : String → Prop} (t : LocaleTarget)

/-- A member of a wrapped record was there, or wraps one that was. -/
theorem mem_wrapMember {stored : Option Json} {members : Record} {head : String} {rest : List String}
    {e : String × Json} (h : e ∈ t.wrapMember stored members head rest) :
    e ∈ members ∨ ∃ e' ∈ members, e.2 = t.wrap stored e'.2 rest := by
  induction members with
  | nil => cases h
  | cons m more ih =>
    obtain ⟨key, v⟩ := m
    rw [wrapMember] at h
    split at h
    · rcases List.mem_cons.1 h with rfl | h
      · exact Or.inr ⟨(key, v), List.mem_cons_self, rfl⟩
      · exact Or.inl (List.mem_cons_of_mem _ h)
    · rcases List.mem_cons.1 h with rfl | h
      · exact Or.inl List.mem_cons_self
      · rcases ih h with hold | ⟨e', he', hwrapped⟩
        · exact Or.inl (List.mem_cons_of_mem _ hold)
        · exact Or.inr ⟨e', List.mem_cons_of_mem _ he', hwrapped⟩

/-- A value under its locale, beside stored ones, tells a name if all of them do. -/
theorem names_wrapHere {stored : Option Json} {v : Json} (hstored : ∀ w ∈ stored, w.Names P)
    (h : v.Names P) : (t.wrapHere stored v).Names P := by
  have hinserted {others : Record} (hothers : ∀ e ∈ others, e.2.Names P) :
      (Json.obj (Table.insert t.locale v others)).Names P := by
    refine .byLocale (fun hnil => ?_) fun e he => ?_
    · have hget : Table.get? t.locale (Table.insert t.locale v others) = some v := by
        rw [Table.get?_insert, if_pos rfl]
      rw [hnil] at hget
      cases hget
    · rcases Table.mem_insert he with rfl | he
      · exact h
      · exact hothers e he
  unfold wrapHere
  refine hinserted fun e he => ?_
  split at he
  · next members =>
    split at he
    · cases hstored _ rfl with
      | byLocale _ each => exact each e he
    · cases he
  · cases he

end LocaleTarget

/-- **Under a locale a value still tells a name.** -/
theorem Json.Names.wrap {P : String → Prop} {v : Json} (h : v.Names P) (t : LocaleTarget)
    {stored : Option Json} (hstored : ∀ w ∈ stored, w.Names P) (names : List String) :
    (t.wrap stored v names).Names P := by
  induction h generalizing stored names with
  | @text name admitted =>
    cases names with
    | nil => exact t.names_wrapHere hstored (.text admitted)
    | cons head rest => exact .text admitted
  | @byLocale members some each ih =>
    cases names with
    | nil => exact t.names_wrapHere hstored (.byLocale some each)
    | cons head rest =>
      have hbelow : ∀ w ∈ storedMember head stored, w.Names P := by
        intro w hw
        unfold storedMember at hw
        split at hw
        · next stored =>
          cases hstored _ rfl with
          | byLocale _ each => exact each _ (Table.mem_of_get? hw)
        · cases hw
      rw [LocaleTarget.wrap]
      refine .byLocale (fun hnil => some ?_) fun e he => ?_
      · have hkeys := t.keys_wrapMember (storedMember head stored) members head rest
        rw [hnil, List.map_nil] at hkeys
        exact List.map_eq_nil_iff.1 hkeys.symm
      · rcases t.mem_wrapMember he with hold | ⟨e', he', hwrapped⟩
        · exact each e hold
        · exact hwrapped ▸ ih e' he' hbelow rest

end HeadlessCms
