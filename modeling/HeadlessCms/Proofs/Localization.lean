import HeadlessCms.Localization

/-!
# What localized writing keeps

Putting values under a locale changes no name: an incoming record has the same keys afterwards
(`Record.keys_mergeLocalized`).
-/

namespace HeadlessCms

namespace LocaleTarget

variable (t : LocaleTarget)

/-- Wrapping one member keeps the names of all. -/
theorem keys_wrapMember (stored : Option Json) (members : List (String × Json)) (head : String)
    (rest : List String) :
    (t.wrapMember stored members head rest).map (·.1) = members.map (·.1) := by
  induction members with
  | nil => rfl
  | cons m more ih =>
    obtain ⟨key, v⟩ := m
    unfold wrapMember
    split <;> simp [ih]

/-- Wrapping at a path keeps the names of all members. -/
theorem keys_wrapAt (existing : Option Record) (incoming : Record) (path : String) :
    (t.wrapAt existing incoming path).map (·.1) = incoming.map (·.1) := by
  unfold wrapAt
  split
  · rfl
  · exact keys_wrapMember t _ _ _ _

end LocaleTarget

/-- **Localized writing changes no name.** -/
theorem Record.keys_mergeLocalized (t : LocaleTarget) (existing : Option Record)
    (paths : List String) (incoming : Record) :
    (mergeLocalized t existing paths incoming).map (·.1) = incoming.map (·.1) := by
  unfold mergeLocalized
  induction paths generalizing incoming with
  | nil => rfl
  | cons path rest ih =>
    rw [List.foldl_cons, ih, t.keys_wrapAt]

end HeadlessCms
