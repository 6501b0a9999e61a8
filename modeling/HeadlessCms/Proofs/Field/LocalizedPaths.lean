import HeadlessCms.Field.Basic

/-!
# The paths of localized fields

The paths of the localized fields below a container go on from the path of the container
(`Field.start_isPrefix_of_mem_localizedIn`).  So a localized path of one name is the name of a field
that stores its value at the top (`Field.findIn?_of_mem_localizedIn`).
-/

namespace HeadlessCms.Field

mutual

/-- Localized paths of a field go on from where it starts. -/
theorem start_isPrefix_of_mem_localizedFrom {start p : String} :
    (f : Field) → p ∈ f.localizedFrom start → start.toList <+: p.toList
  | ⟨name, kind, _, _, _, localized, _, _, _, fields, blocks⟩, h => by
    have hpath : ∀ rest : String, (start ++ name ++ rest).toList <+: p.toList →
        start.toList <+: p.toList := fun rest hrest => by
      rw [String.toList_append, String.toList_append, List.append_assoc] at hrest
      exact (List.prefix_append _ _).trans hrest
    have hself : p ∈ [start ++ name] → start.toList <+: p.toList := by
      intro hmem
      simp only [List.mem_singleton] at hmem
      simp [hmem]
    unfold localizedFrom at h
    cases kind with
    | row => exact start_isPrefix_of_mem_localizedIn fields h
    | ui => simp at h
    | array | group =>
      cases localized with
      | true => exact hself h
      | false => exact hpath "." (start_isPrefix_of_mem_localizedIn fields h)
    | blocks =>
      cases localized with
      | true => exact hself h
      | false => exact hpath "." (start_isPrefix_of_mem_localizedInBlocks blocks h)
    | _ =>
      cases localized with
      | true => exact hself h
      | false => simp at h

/-- **Localized paths go on from where they start.** -/
theorem start_isPrefix_of_mem_localizedIn {start p : String} :
    (fields : List Field) → p ∈ localizedIn start fields → start.toList <+: p.toList
  | [], h => by simp [localizedIn] at h
  | f :: rest, h => by
    simp only [localizedIn, List.mem_append] at h
    rcases h with h | h
    · exact start_isPrefix_of_mem_localizedFrom f h
    · exact start_isPrefix_of_mem_localizedIn rest h

/-- Localized paths of the fields of blocks go on from where the blocks start. -/
theorem start_isPrefix_of_mem_localizedInBlocks {start p : String} :
    (blocks : List (Block Field)) → p ∈ localizedInBlocks start blocks →
      start.toList <+: p.toList
  | [], h => by simp [localizedInBlocks] at h
  | ⟨_, fields⟩ :: rest, h => by
    simp only [localizedInBlocks, List.mem_append] at h
    rcases h with h | h
    · exact start_isPrefix_of_mem_localizedIn fields h
    · exact start_isPrefix_of_mem_localizedInBlocks rest h

end

/-- A path that goes on from a point holds a point. -/
theorem point_mem_of_isPrefix {start p : String} (h : (start ++ ".").toList <+: p.toList) :
    '.' ∈ p.toList :=
  h.subset (by simp)

mutual

/-- A localized path without a point names a field that is found. -/
theorem find?_of_mem_localizedFrom {p : String} (hpoint : '.' ∉ p.toList) :
    (f : Field) → p ∈ f.localizedFrom "" → (f.find? p).isSome = true
  | ⟨name, kind, label, required, hidden, localized, hasMany, options, relationTo, fields,
      blocks⟩, h => by
    unfold localizedFrom at h
    unfold find?
    cases kind with
    | row => exact findIn?_of_mem_localizedIn hpoint fields h
    | ui => simp at h
    | array | group =>
      cases localized with
      | true => simp_all [affectsData, isPresentational]
      | false =>
        exact absurd (point_mem_of_isPrefix (start_isPrefix_of_mem_localizedIn fields h)) hpoint
    | blocks =>
      cases localized with
      | true => simp_all [affectsData, isPresentational]
      | false =>
        exact absurd (point_mem_of_isPrefix (start_isPrefix_of_mem_localizedInBlocks blocks h))
          hpoint
    | _ =>
      cases localized with
      | true => simp_all [affectsData, isPresentational]
      | false => simp at h

/-- A localized path without points is the name of a field at the top, rows looked through. -/
theorem findIn?_of_mem_localizedIn {p : String} (hpoint : '.' ∉ p.toList) :
    (fields : List Field) → p ∈ localizedIn "" fields → (findIn? p fields).isSome = true
  | [], h => by simp [localizedIn] at h
  | f :: rest, h => by
    simp only [localizedIn, List.mem_append] at h
    rcases h with h | h
    · simp [findIn?, find?_of_mem_localizedFrom hpoint f h]
    · simp [findIn?, findIn?_of_mem_localizedIn hpoint rest h]

end

/-- **Names that no field has are no localized paths.** -/
theorem notMem_localizedPaths {name : String} {fields : List Field}
    (h : findIn? name fields = none) (hpoint : '.' ∉ name.toList) :
    name ∉ localizedPaths fields := by
  intro hmem
  have hsome := findIn?_of_mem_localizedIn hpoint fields hmem
  simp [h] at hsome

end HeadlessCms.Field
