import HeadlessCms.Proofs.Localization.Records
import HeadlessCms.Proofs.Table
import HeadlessCms.Service.Registry

/-!
# Filters on what has been written

A localized value is written under its locale, and a clause in that locale looks for it there.  Each
time a path is listed among the localized ones its values are put under the locale once more
(`Record.resolve_mergeLocalized`), while a clause goes down one level only.  So the two agree on a path
that is listed once, and no other localized path is above or below.

The list is made from the fields of an entity, and it may hold a path more than once: two blocks with a
localized field of one name have the same path for it.  What is written there is not found again
(`Record.resolve_tales_ne`).
-/

namespace HeadlessCms

namespace LocaleTarget

variable (t : LocaleTarget)

/-- A value under a number of levels of locales.  At each level it stands under the locale that is
written, perhaps beside the values of others. -/
def Nests : Nat → Json → Json → Prop
  | 0, v, w => w = v
  | n + 1, v, w => ∃ inner stored, Nests n v inner ∧ w = t.wrapHere stored inner

/-- A value under a locale is what the locale has there. -/
theorem exists_wrapHere (stored : Option Json) (v : Json) :
    ∃ members, t.wrapHere stored v = .obj members ∧ Table.get? t.locale members = some v :=
  ⟨_, rfl, by rw [Table.get?_insert, if_pos rfl]⟩

/-- One step down from a level of locales there is what was put there. -/
theorem reach_wrapHere (stored : Option Json) (v : Json) :
    reach (t.wrapHere stored v) [t.locale] = [v] := by
  obtain ⟨members, hmembers, hget⟩ := t.exists_wrapHere stored v
  rw [hmembers, Json.reach_obj_cons, hget]
  simp

/-- Levels make a value larger. -/
theorem sizeOf_wrapHere (stored : Option Json) (v : Json) :
    sizeOf v < sizeOf (t.wrapHere stored v) := by
  obtain ⟨members, hmembers, hget⟩ := t.exists_wrapHere stored v
  have hentry := List.sizeOf_lt_of_mem (Table.mem_of_get? hget)
  rw [hmembers, Json.obj.sizeOf_spec]
  rw [Prod.mk.sizeOf_spec] at hentry
  omega

/-- Nesting makes a value larger. -/
theorem Nests.sizeOf_le {n : Nat} {v w : Json} (h : t.Nests n v w) : sizeOf v ≤ sizeOf w := by
  induction n generalizing w with
  | zero =>
    cases h
    exact Nat.le_refl _
  | succ n ih =>
    obtain ⟨inner, stored, hinner, rfl⟩ := h
    exact Nat.le_trans (ih hinner) (Nat.le_of_lt (t.sizeOf_wrapHere stored inner))

/-- A value under a level of locales is not the value itself. -/
theorem Nests.ne {n : Nat} {v w : Json} (h : t.Nests (n + 1) v w) : w ≠ v := by
  obtain ⟨inner, stored, hinner, rfl⟩ := h
  intro heq
  have hlarger := t.sizeOf_wrapHere stored inner
  have hinner := Nests.sizeOf_le t hinner
  rw [heq] at hlarger
  omega

end LocaleTarget

/-- Two relations along lists, one after the other. -/
theorem forall₂_trans {α β γ : Type} {R : α → β → Prop} {S : β → γ → Prop} {T : α → γ → Prop}
    (hT : ∀ {a b c}, R a b → S b c → T a c) {as : List α} {bs : List β} {cs : List γ}
    (hab : List.Forall₂ R as bs) (hbc : List.Forall₂ S bs cs) : List.Forall₂ T as cs := by
  induction hab generalizing cs with
  | nil =>
    cases hbc
    exact .nil
  | cons hr _ ih =>
    cases hbc with
    | cons hs hbc => exact .cons (hT hr hs) (ih hbc)

namespace Record

variable {t : LocaleTarget} {paths : List String} {path : String}

/-- The last path is wrapped in what the others have left. -/
theorem mergeLocalized_append_singleton (existing : Option Record) (incoming : Record) (last : String) :
    mergeLocalized t existing (paths ++ [last]) incoming =
      t.wrapAt existing (mergeLocalized t existing paths incoming) last := by
  rw [mergeLocalized, List.foldl_append]
  rfl

/-- **Each time a path is listed, its values are put under the locale once more.** -/
theorem forall₂_under_mergeLocalized
    (h : ∀ other ∈ paths, other ≠ path → Path.Diverge (Path.segments other) (Path.segments path))
    (existing : Option Record) (incoming : Record) :
    List.Forall₂ (t.Nests (paths.count path)) (Json.under (Path.segments path) (.obj incoming))
      (Json.under (Path.segments path) (.obj (mergeLocalized t existing paths incoming))) := by
  -- The last path of the list makes the outermost level.
  induction paths using List.reverseRecOn with
  | nil => exact List.forall₂_same.2 fun v _ => rfl
  | append_singleton before last ih =>
    have hbefore := ih fun other hother => h other (List.mem_append_left _ hother)
    rw [mergeLocalized_append_singleton, List.count_append, List.count_singleton]
    by_cases hlast : last = path
    · subst hlast
      rw [beq_self_eq_true, if_pos rfl, LocaleTarget.obj_wrapAt]
      refine forall₂_trans ?_ hbefore (t.forall₂_under_wrap _ _ _)
      intro v inner w hinner hw
      obtain ⟨stored, rfl⟩ := hw
      exact ⟨inner, stored, hinner, rfl⟩
    · have hother : (last == path) = false := beq_eq_false_iff_ne.2 hlast
      have hagrees : Json.AgreesOff (Path.segments last)
          (.obj (mergeLocalized t existing before incoming))
          (.obj (t.wrapAt existing (mergeLocalized t existing before incoming) last)) :=
        LocaleTarget.obj_wrapAt existing _ last ▸ t.agreesOff_wrap _ _ _
      rw [hother, Json.under_of_agreesOff hagrees (h last (by simp) hlast)]
      exact hbefore

/-- **In a locale a path listed among localized ones leads one level down,** if no other one is above
it. -/
theorem segments_inLocale_of_mem (hmem : path ∈ paths)
    (h : ∀ other ∈ paths, other ≠ path → Path.Diverge (Path.segments other) (Path.segments path))
    {locale : String} (hlocale : '.' ∉ locale.toList) :
    Path.segments (Path.inLocale paths locale path) = Path.segments path ++ [locale] := by
  rcases Path.segments_inLocale paths hlocale path with ⟨hnone, _⟩ | ⟨above, habove, rest, hpath, hin⟩
  · exact absurd (List.prefix_refl _) (hnone path hmem)
  · have hself : above = path := by
      by_contra hne
      exact (h above habove hne).1 (hpath ▸ List.prefix_append _ _)
    subst hself
    have hrest : rest = [] := by simpa using hpath.symm
    rw [hin, hrest]

/-- What a clause in the locale finds is one level below what is stored. -/
theorem forall₂_resolve_inLocale (hmem : path ∈ paths)
    (h : ∀ other ∈ paths, other ≠ path → Path.Diverge (Path.segments other) (Path.segments path))
    (hindex : ∀ name ∈ (Path.segments path).tail, arrayIndex? name = none)
    (hlocale : '.' ∉ t.locale.toList) (existing : Option Record) (incoming : Record) :
    List.Forall₂ (t.Nests (paths.count path - 1)) (incoming.resolve path)
      (resolve (mergeLocalized t existing paths incoming) (Path.inLocale paths t.locale path)) := by
  have hcount : paths.count path = paths.count path - 1 + 1 :=
    (Nat.sub_add_cancel (List.count_pos_iff.2 hmem)).symm
  have hstored := forall₂_under_mergeLocalized (t := t) h existing incoming
  rw [hcount] at hstored
  rw [resolve_eq_reach, resolve_eq_reach, segments_inLocale_of_mem hmem h hlocale,
    Json.reach_obj_append (Path.segments_ne_nil path) hindex, Json.reach_obj_eq_under hindex]
  generalize Json.under (Path.segments path) (.obj incoming) = vs at hstored ⊢
  generalize Json.under (Path.segments path) (.obj (mergeLocalized t existing paths incoming)) = ws
    at hstored ⊢
  induction hstored with
  | nil => exact .nil
  | cons hw _ ih =>
    obtain ⟨inner, stored, hinner, rfl⟩ := hw
    rw [List.flatMap_cons, t.reach_wrapHere]
    exact .cons hinner ih

/-- **What is written in a locale is what clauses in that locale see,** exactly if the path is listed
once or nothing is written there.  The values that are written at a localized path are stored under as
many levels of locales as the list has that path. -/
theorem resolve_mergeLocalized (hmem : path ∈ paths)
    (h : ∀ other ∈ paths, other ≠ path → Path.Diverge (Path.segments other) (Path.segments path))
    (hindex : ∀ name ∈ (Path.segments path).tail, arrayIndex? name = none)
    (hlocale : '.' ∉ t.locale.toList) (existing : Option Record) (incoming : Record) :
    List.Forall₂ (t.Nests (paths.count path)) (incoming.resolve path)
        (resolve (mergeLocalized t existing paths incoming) path) ∧
      (resolve (mergeLocalized t existing paths incoming) (Path.inLocale paths t.locale path) =
          incoming.resolve path ↔
        paths.count path = 1 ∨ incoming.resolve path = []) := by
  have hseen := forall₂_resolve_inLocale hmem h hindex hlocale existing incoming
  refine ⟨?_, ?_, ?_⟩
  · rw [resolve_eq_reach, resolve_eq_reach, Json.reach_obj_eq_under hindex,
      Json.reach_obj_eq_under hindex]
    exact forall₂_under_mergeLocalized h existing incoming
  · intro hsame
    rw [hsame] at hseen
    cases hvalues : incoming.resolve path with
    | nil => exact Or.inr rfl
    | cons v rest =>
      left
      rw [hvalues] at hseen
      have hfirst := (List.forall₂_cons.1 hseen).1
      have hpositive := List.count_pos_iff.2 hmem
      cases hlevels : paths.count path - 1 with
      | zero => omega
      | succ n =>
        rw [hlevels] at hfirst
        exact absurd rfl (LocaleTarget.Nests.ne t hfirst)
  · intro hcase
    cases hcase with
    | inl honce =>
      rw [honce] at hseen
      have hsame : List.Forall₂ (· = ·) (incoming.resolve path)
          (resolve (mergeLocalized t existing paths incoming)
            (Path.inLocale paths t.locale path)) := hseen.imp fun v w hw => hw.symm
      rw [List.forall₂_eq_eq_eq] at hsame
      exact hsame.symm
    | inr hnothing =>
      rw [hnothing] at hseen ⊢
      exact List.forall₂_nil_left_iff.1 hseen

/-- The new English title stands beside the German one. -/
theorem resolve_mergeLocalized_title :
    resolve (mergeLocalized ⟨["en", "de"], "en"⟩ (some [("title", .obj [("de", .str "alt")])])
      ["title"] [("title", .str "new")]) "title.en" = [.str "new"] := by
  have hseen := (@resolve_mergeLocalized ⟨["en", "de"], "en"⟩ ["title"] "title" (by simp) (by simp)
    (by decide) (by decide) (some [("title", .obj [("de", .str "alt")])]) [("title", .str "new")]).2.2
  exact hseen (Or.inl rfl)

/-! A field with two kinds of blocks that have a localized text each. -/

/-- A tale is told in lines and in songs. -/
def tales : Entity :=
  let words : Field := { Field.ofKind "words" .text with localized := true }
  Entity.ofFields "tales"
    [{ Field.ofKind "parts" .blocks with blocks := [⟨"line", [words]⟩, ⟨"song", [words]⟩] }]

/-- A tale with one line. -/
def tale : Record :=
  [("parts", .arr [.obj [("blockType", .str "line"), ("words", .str "Once")]])]

/-- Both kinds of blocks have the same path for their text. -/
theorem localizedPaths_tales :
    Field.localizedPaths tales.fields = ["parts.words", "parts.words"] := by
  simp [tales, Field.localizedPaths, Field.localizedIn, Field.localizedFrom, Field.localizedInBlocks,
    Entity.ofFields, Field.ofKind, Field.container]

/-- **What is written at a path that is listed twice is not found:** the line is stored under two levels
of locales. -/
theorem resolve_tales_ne :
    (CompiledEntity.compile .collection tales).isOk = true ∧
      "parts.words" ∈ Field.localizedPaths tales.fields ∧
      resolve (mergeLocalized ⟨["en"], "en"⟩ none (Field.localizedPaths tales.fields) tale)
          (Path.inLocale (Field.localizedPaths tales.fields) "en" "parts.words") ≠
        tale.resolve "parts.words" := by
  have hsegments : Path.segments "parts.words" = ["parts", "words"] := rfl
  have hindex : arrayIndex? "words" = none := rfl
  have hwritten : tale.resolve "parts.words" = [.str "Once"] := by
    rw [resolve_eq_reach, hsegments, tale, Json.reach_obj_cons]
    simp [Table.get?, Json.reach_cons hindex, Json.spread, Json.spreadAll, Json.member?]
  rw [localizedPaths_tales]
  refine ⟨by decide +kernel, List.mem_cons_self, fun hsame => ?_⟩
  have hseen := @forall₂_resolve_inLocale ⟨["en"], "en"⟩ ["parts.words", "parts.words"] "parts.words"
    (by simp) (by simp) (by simp [hsegments, hindex]) (by decide) none tale
  rw [hsame, hwritten] at hseen
  exact LocaleTarget.Nests.ne _ (List.forall₂_cons.1 hseen).1 rfl

end Record

end HeadlessCms
