import HeadlessCms.Proofs.Localization.Records

/-!
# Texts beside localized values

A path reaches a localized value if it names its members in turn; in an array it may name positions on
the way (`Path.Meets`).  Reading in a locale replaces localized values, and changes what lies around
them, but objects and arrays only into objects and arrays.  So a path that reaches no localized value
reaches the same texts as before (`Record.texts_localize`).
-/

namespace HeadlessCms

namespace Path

/-- Whether names lead to what lies at the end of others, or to something in it, where names that are
positions may count as such. -/
def Meets : List String → List String → Prop
  | [], _ => True
  | _ :: _, [] => False
  | name :: more, head :: rest =>
    (head = name ∧ Meets more rest) ∨
      ((arrayIndex? head).isSome = true ∧ Meets (name :: more) rest)

/-- Whether a path leads to a localized path or to something below it.  Its first name is the name of a
member. -/
def Reaches (localized path : String) : Prop :=
  match segments localized, segments path with
  | name :: more, head :: rest => head = name ∧ Meets more rest
  | _, _ => False

/-- Two paths meet where one of them ends. -/
theorem meets_nil (path : List String) : Meets [] path := by
  cases path <;> trivial

instance decidableMeets : (names path : List String) → Decidable (Meets names path)
  | [], path => .isTrue (meets_nil path)
  | _ :: _, [] => .isFalse id
  | name :: more, _ :: rest =>
    have := decidableMeets more rest
    have := decidableMeets (name :: more) rest
    inferInstanceAs (Decidable (_ ∧ _ ∨ _ ∧ _))

instance (localized path : String) : Decidable (Reaches localized path) := by
  unfold Reaches
  split <;> infer_instance

end Path

/-- The texts among values, in their places. -/
def Json.texts (values : List Json) : List (Option String) :=
  values.map asString?

namespace LocaleChoice

variable (l : LocaleChoice)

mutual

/-- **Picking leaves texts that lie elsewhere alone.** -/
theorem texts_reach_pick : (v : Json) → {names path : List String} → ¬ Path.Meets names path →
    Json.texts (reach (l.pick v names) path) = Json.texts (reach v path)
  | _, [], path, h => absurd (Path.meets_nil path) h
  | .obj members, name :: more, [], _ => by rw [pick, reach_nil, reach_nil]; rfl
  | .arr items, name :: more, [], _ => by rw [pick, reach_nil, reach_nil]; rfl
  | .obj members, name :: more, head :: rest, h => by
    rw [pick, reach, reach]
    exact texts_reachMember_pick members fun hmeets => h (Or.inl hmeets)
  | .arr items, name :: more, head :: rest, h => by
    rw [pick, reach, reach]
    cases hindex : arrayIndex? head with
    | none => exact texts_reachItems_pick items h
    | some i =>
      have hbelow : ¬ Path.Meets (name :: more) rest := fun hmeets =>
        h (Or.inr ⟨by rw [hindex]; rfl, hmeets⟩)
      exact texts_reachItem_pick items i hbelow
  | .null, _ :: _, _, _ | .bool _, _ :: _, _, _ | .num _, _ :: _, _, _ | .str _, _ :: _, _, _ => by
    simp only [pick]

/-- Picking a locale below one member keeps the texts of the others. -/
theorem texts_reachMember_pick : (members : List (String × Json)) → {name : String} →
    {more : List String} → {head : String} → {rest : List String} →
    ¬ (head = name ∧ Path.Meets more rest) →
    Json.texts (reachMember (l.pickMember members name more) head rest) =
      Json.texts (reachMember members head rest)
  | [], _, _, _, _, _ => rfl
  | (key, v) :: tail, name, more, head, rest, h => by
    rw [pickMember]
    by_cases hname : key = name
    · rw [if_pos hname, reachMember, reachMember]
      by_cases hhead : key = head
      · have hbelow : ¬ Path.Meets more rest := fun hmeets =>
          h ⟨hhead.symm.trans hname, hmeets⟩
        rw [if_pos hhead, if_pos hhead, texts_reach_pick v hbelow]
      · rw [if_neg hhead, if_neg hhead]
    · rw [if_neg hname, reachMember, reachMember]
      split
      · rfl
      · exact texts_reachMember_pick tail h

/-- Picking a locale in the items keeps the texts at a position of paths that do not meet it. -/
theorem texts_reachItem_pick : (items : List Json) → (i : Nat) → {names path : List String} →
    ¬ Path.Meets names path → Json.texts (reachItem (l.pickItems items names) i path) =
      Json.texts (reachItem items i path)
  | [], _, _, _, _ => rfl
  | v :: _, 0, _, _, h => by
    rw [pickItems, reachItem, reachItem]
    exact texts_reach_pick v h
  | _ :: more, i + 1, _, _, h => by
    rw [pickItems, reachItem, reachItem]
    exact texts_reachItem_pick more i h

/-- Picking a locale in all items keeps the texts at paths that do not meet it. -/
theorem texts_reachItems_pick : (items : List Json) → {names path : List String} →
    ¬ Path.Meets names path → Json.texts (reachItems (l.pickItems items names) path) =
      Json.texts (reachItems items path)
  | [], _, _, _ => rfl
  | v :: more, _, _, h => by
    rw [pickItems, reachItems, reachItems, Json.texts, Json.texts, List.map_append, List.map_append]
    exact congrArg₂ _ (texts_reach_pick v h) (texts_reachItems_pick more h)

end

/-- Localizing a path keeps the texts at paths that it does not reach. -/
theorem texts_resolve_pickAt {localized path : String} (h : ¬ Path.Reaches localized path)
    (record : Record) :
    Json.texts (Record.resolve (l.pickAt record localized) path) =
      Json.texts (Record.resolve record path) := by
  obtain ⟨name, more, hnames⟩ := List.exists_cons_of_ne_nil (Path.segments_ne_nil localized)
  obtain ⟨head, rest, hpath⟩ := List.exists_cons_of_ne_nil (Path.segments_ne_nil path)
  unfold Path.Reaches at h
  rw [hnames, hpath] at h
  rw [pickAt, hnames, Record.resolve, Record.resolve, hpath]
  exact l.texts_reachMember_pick record h

end LocaleChoice

/-- **Reading in a locale leaves the texts at other paths as they are.** -/
theorem Record.texts_localize (l : LocaleChoice) {paths : List String} {path : String}
    (h : ∀ localized ∈ paths, ¬ Path.Reaches localized path) (record : Record) :
    Json.texts (resolve (localize l paths record) path) = Json.texts (resolve record path) := by
  unfold localize
  split
  · rfl
  · induction paths generalizing record with
    | nil => rfl
    | cons localized rest ih =>
      rw [List.foldl_cons, ih fun other hother => h other (List.mem_cons_of_mem _ hother)]
      exact l.texts_resolve_pickAt (h localized List.mem_cons_self) record

end HeadlessCms
