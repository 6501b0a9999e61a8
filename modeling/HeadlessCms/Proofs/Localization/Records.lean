import HeadlessCms.Proofs.Localization.Values

/-!
# Clauses on localized records

A clause that is asked in one locale is decided on the stored record, with the locale put behind the
localized path.  At a path that is clear of other localized paths (`Path.Clear`) this reaches exactly
what the locale itself has (`Record.reach_alone`), and that is what a reader is shown as long as the
locale has a value there (`Record.reach_localize`).
-/

namespace HeadlessCms

/-! ### Paths -/

namespace Text

/-- A text is cut at a separator wherever else it is cut. -/
theorem splitOn_append_sep (sep : Char) (s rest : List Char) :
    splitOn sep (s ++ sep :: rest) = splitOn sep s ++ splitOn sep rest := by
  induction s with
  | nil => simp [splitOn]
  | cons c s ih =>
    rw [List.cons_append, splitOn, splitOn, ih]
    by_cases hc : c = sep
    · rw [if_pos hc, if_pos hc, List.cons_append]
    · rw [if_neg hc, if_neg hc]
      cases h : splitOn sep s with
      | nil => exact absurd h (splitOn_ne_nil sep s)
      | cons part parts => rfl

/-- Two lists of parts are joined with a separator between them. -/
theorem join_append (sep : Char) {parts more : List (List Char)} (hparts : parts ≠ [])
    (hmore : more ≠ []) : join sep (parts ++ more) = join sep parts ++ sep :: join sep more := by
  induction parts with
  | nil => exact absurd rfl hparts
  | cons part parts ih =>
    cases parts with
    | nil =>
      obtain ⟨next, more, rfl⟩ := List.exists_cons_of_ne_nil hmore
      rfl
    | cons next parts =>
      have ih := ih (List.cons_ne_nil _ _)
      simp only [List.cons_append] at ih
      simp only [List.cons_append, join, ih, List.append_assoc]

end Text

namespace Path

/-- A path has at least one name. -/
theorem segments_ne_nil (path : String) : segments path ≠ [] :=
  fun h => Text.splitOn_ne_nil '.' _ (List.map_eq_nil_iff.1 h)

/-- A path that goes on below another one has the names of both. -/
theorem segments_append_point {path above below : String}
    (h : path.toList = above.toList ++ '.' :: below.toList) :
    segments path = segments above ++ segments below := by
  simp only [segments, h, Text.splitOn_append_sep, List.map_append]

/-- A path without a point is one name. -/
theorem segments_of_notMem {name : String} (h : '.' ∉ name.toList) : segments name = [name] := by
  simp [segments, Text.splitOn_of_notMem h]

/-- **Lying at or below a path is going on from its names.** -/
theorem atOrBelow_iff {above path : String} :
    AtOrBelow above path ↔ segments above <+: segments path := by
  constructor
  · rintro (rfl | ⟨below, hbelow⟩)
    · exact List.prefix_refl _
    · have hsplit : path.toList = above.toList ++ '.' :: (String.ofList below).toList := by
        rw [hbelow, String.toList_ofList]
      rw [segments_append_point hsplit]
      exact List.prefix_append _ _
  · rintro ⟨rest, hrest⟩
    have hchars : Text.splitOn '.' path.toList =
        Text.splitOn '.' above.toList ++ rest.map String.toList := by
      have hmap := congrArg (List.map String.toList) hrest
      simp only [segments, List.map_append, List.map_map, Function.comp_def, String.toList_ofList,
        List.map_id'] at hmap
      exact hmap.symm
    have hpath := Text.join_splitOn '.' path.toList
    rw [hchars] at hpath
    by_cases hempty : rest = []
    · left
      rw [hempty, List.map_nil, List.append_nil, Text.join_splitOn] at hpath
      exact String.toList_inj.1 hpath.symm
    · right
      have hne : rest.map String.toList ≠ [] := fun h => hempty (List.map_eq_nil_iff.1 h)
      rw [Text.join_append '.' (Text.splitOn_ne_nil '.' _) hne, Text.join_splitOn] at hpath
      exact ⟨_, hpath.symm⟩

/-- **Where a path leads in one locale.**  The path stays as it is unless it lies at or below a
localized path; then the locale comes right after that one. -/
theorem segments_inLocale (localized : List String) {locale : String} (h : '.' ∉ locale.toList)
    (path : String) :
    ((∀ a ∈ localized, ¬ segments a <+: segments path) ∧
      inLocale localized locale path = path) ∨
    ∃ a ∈ localized, ∃ rest, segments path = segments a ++ rest ∧
      segments (inLocale localized locale path) = segments a ++ locale :: rest := by
  induction localized with
  | nil => exact Or.inl ⟨by simp, rfl⟩
  | cons above more ih =>
    have hlocale := segments_of_notMem h
    unfold inLocale
    by_cases hself : path = above
    · right
      refine ⟨above, List.mem_cons_self, [], by simp [hself], ?_⟩
      rw [if_pos hself, hself, @segments_append_point _ above locale (by simp),
        hlocale]
    · rw [if_neg hself]
      split
      · next below heq =>
        right
        have hbelow : path.toList = above.toList ++ '.' :: below := Text.dropStart?_eq_some_iff.1 heq
        refine ⟨above, List.mem_cons_self, segments (String.ofList below), ?_, ?_⟩
        · exact segments_append_point (by rw [hbelow, String.toList_ofList])
        · have hfirst : segments (above ++ "." ++ locale) = segments above ++ [locale] := by
            rw [@segments_append_point _ above locale (by simp), hlocale]
          rw [@segments_append_point _ (above ++ "." ++ locale) (String.ofList below)
            (by simp), hfirst, List.append_assoc]
          rfl
      · next hnone =>
        have hnot : ¬ segments above <+: segments path := by
          rw [← atOrBelow_iff]
          rintro (heq | ⟨below, hbelow⟩)
          · exact hself heq
          · exact hnone below (Text.dropStart?_eq_some_iff.2 hbelow)
        rcases ih with ⟨hmore, hpath⟩ | ⟨a, ha, hrest⟩
        · exact Or.inl ⟨List.forall_mem_cons.2 ⟨hnot, hmore⟩, hpath⟩
        · exact Or.inr ⟨a, List.mem_cons_of_mem _ ha, hrest⟩

/-- A localized path that is declared once and diverges from all others. -/
def Lone (localized : List String) (path : String) : Prop :=
  ∃ before after, localized = before ++ path :: after ∧
    ∀ other ∈ before ++ after, Diverge (segments path) (segments other)

/-- Names that are clear of localized paths: they end above none, they lie at or below a lone one if
at any, and they name no position in an array where a localized path starts with the same name. -/
structure Clear (localized : List String) (names : List String) : Prop where
  above : ∀ a ∈ localized, names <+: segments a → names = segments a
  lone : ∀ a ∈ localized, segments a <+: names → Lone localized a
  index : ∀ a ∈ localized, (segments a).head? = names.head? →
    ∀ name ∈ names.tail, arrayIndex? name = none

/-- Names that go on from others start with the same name. -/
theorem head?_eq_of_start {a names : List String} (ha : a ≠ []) (h : a <+: names) :
    a.head? = names.head? := by
  obtain ⟨rest, rfl⟩ := h
  obtain ⟨first, more, rfl⟩ := List.exists_cons_of_ne_nil ha
  rfl

namespace Clear

variable {localized names : List String}

/-- Clear names that lie at or below no localized path diverge from all of them. -/
theorem diverge (h : Clear localized names)
    (hnot : ∀ a ∈ localized, ¬ segments a <+: names) :
    ∀ a ∈ localized, Diverge (segments a) names := by
  refine fun a ha => ⟨hnot a ha, fun hnames => hnot a ha ?_⟩
  rw [h.above a ha hnames]

/-- Below a localized path that they are clear of, names are no positions. -/
theorem index_of_start (h : Clear localized names) {a : String} (ha : a ∈ localized)
    (hstart : segments a <+: names) : ∀ name ∈ names.tail, arrayIndex? name = none :=
  h.index a ha (head?_eq_of_start (segments_ne_nil a) hstart)

/-- Neither along the localized path nor below it are names positions. -/
theorem index_parts (h : Clear localized names) {a : String} (ha : a ∈ localized)
    {rest : List String} (hnames : names = segments a ++ rest) :
    (∀ name ∈ (segments a).tail, arrayIndex? name = none) ∧
      ∀ name ∈ rest, arrayIndex? name = none := by
  have hindex := h.index_of_start ha (hnames ▸ List.prefix_append _ rest)
  rw [hnames, List.tail_append_of_ne_nil (segments_ne_nil a)] at hindex
  exact List.forall_mem_append.1 hindex

end Clear

end Path

/-! ### Changes at one path after the other -/

section Changes

variable {change : Record → String → Record}

/-- Changes at paths that lead elsewhere change nothing under names. -/
theorem Json.under_foldl
    (hchange : ∀ r a, AgreesOff (Path.segments a) (.obj r) (.obj (change r a)))
    {paths names : List String} (h : ∀ a ∈ paths, Path.Diverge (Path.segments a) names)
    (r : Record) : under names (.obj (paths.foldl change r)) = under names (.obj r) := by
  induction paths generalizing r with
  | nil => rfl
  | cons a rest ih =>
    rw [List.foldl_cons, ih fun b hb => h b (List.mem_cons_of_mem _ hb)]
    exact under_of_agreesOff (hchange r a) (h a List.mem_cons_self)

/-- Nor does a path of such names lead to other values, be it with positions where all changes are
under another first name. -/
theorem Json.reach_foldl
    (hchange : ∀ r a, AgreesOff (Path.segments a) (.obj r) (.obj (change r a)))
    {paths names : List String} (h : ∀ a ∈ paths, Path.Diverge (Path.segments a) names)
    (hindex : ∀ a ∈ paths, (Path.segments a).head? = names.head? →
      ∀ name ∈ names.tail, arrayIndex? name = none) (r : Record) :
    reach (.obj (paths.foldl change r)) names = reach (.obj r) names := by
  by_cases hplain : ∀ name ∈ names.tail, arrayIndex? name = none
  · rw [reach_obj_eq_under hplain, reach_obj_eq_under hplain, under_foldl hchange h]
  · cases names with
    | nil => simp at hplain
    | cons head rest =>
      -- Then the first name is none of a changed path, so its value stays as it is.
      have hchildren : under [head] (.obj (paths.foldl change r)) = under [head] (.obj r) := by
        refine under_foldl hchange (fun a ha => ?_) r
        have hhead : (Path.segments a).head? ≠ some head := fun heq =>
          hplain (hindex a ha heq)
        obtain ⟨first, more, hsegments⟩ := List.exists_cons_of_ne_nil (Path.segments_ne_nil a)
        rw [hsegments] at hhead ⊢
        have hne : first ≠ head := fun heq => hhead (by rw [heq]; rfl)
        exact ⟨fun hp => hne (List.cons_prefix_cons.1 hp).1,
          fun hp => hne (List.cons_prefix_cons.1 hp).1.symm⟩
      have hhead (members : Record) : reach (.obj members) (head :: rest) =
          (under [head] (.obj members)).flatMap (reach · rest) :=
        reach_obj_append (List.cons_ne_nil head []) (by simp) rest members
      rw [hhead, hhead, hchildren]

/-- **At and below a lone path only the change at that path counts.** -/
theorem Json.under_foldl_lone
    (hchange : ∀ r a, AgreesOff (Path.segments a) (.obj r) (.obj (change r a)))
    {paths : List String} {path : String} (hlone : Path.Lone paths path) (rest : List String)
    (r : Record) :
    ∃ r', under (Path.segments path) (.obj r') = under (Path.segments path) (.obj r) ∧
      under (Path.segments path ++ rest) (.obj (paths.foldl change r)) =
        under (Path.segments path ++ rest) (.obj (change r' path)) := by
  obtain ⟨before, after, rfl, hdiverge⟩ := hlone
  refine ⟨before.foldl change r, under_foldl hchange (fun a ha => ?_) r, ?_⟩
  · exact (hdiverge a (List.mem_append_left _ ha)).symm
  · rw [List.foldl_append, List.foldl_cons]
    refine under_foldl hchange (fun a ha => ?_) _
    exact ((hdiverge a (List.mem_append_right _ ha)).append rest).symm

end Changes

/-! ### What the locale itself has -/

namespace LocaleChoice

variable (l : LocaleChoice)

/-- Picking in a record is picking in the object of its members. -/
theorem obj_pickAt (record : Record) (path : String) :
    Json.obj (l.pickAt record path) = l.pick (.obj record) (Path.segments path) := by
  unfold pickAt
  cases h : Path.segments path with
  | nil => exact absurd h (Path.segments_ne_nil path)
  | cons head rest => rw [pick]

/-- Of an object the locale itself always has an object. -/
theorem own_obj (record : Record) (path : String) :
    l.own? (.obj record) (Path.segments path) = some (.obj (l.ownAt record path)) := by
  unfold ownAt
  cases h : Path.segments path with
  | nil => exact absurd h (Path.segments_ne_nil path)
  | cons head rest => rw [own?]

/-- Picking at a path changes nothing off it. -/
theorem agreesOff_pickAt (record : Record) (path : String) :
    Json.AgreesOff (Path.segments path) (.obj record) (.obj (l.pickAt record path)) :=
  l.obj_pickAt record path ▸ l.agreesOff_pick _ _

/-- Leaving the values of the locale itself changes nothing off the path. -/
theorem agreesOff_ownAt (record : Record) (path : String) :
    Json.AgreesOff (Path.segments path) (.obj record) (.obj (l.ownAt record path)) :=
  l.agreesOff_own (l.own_obj record path)

/-- At and below a lone path the record shows what has been picked there. -/
theorem under_foldl_pickAt {localized : List String} {path : String}
    (h : Path.Lone localized path) (rest : List String) (record : Record) :
    Json.under (Path.segments path ++ rest) (.obj (localized.foldl l.pickAt record)) =
      (Json.under (Path.segments path) (.obj record)).flatMap fun v =>
        Json.under rest (l.pickHere v) := by
  obtain ⟨r, hr, hfold⟩ := Json.under_foldl_lone l.agreesOff_pickAt h rest record
  rw [hfold, obj_pickAt, under_pick, hr]

/-- At and below a lone path the record shows what the locale itself has there. -/
theorem under_foldl_ownAt {localized : List String} {path : String}
    (h : Path.Lone localized path) (rest : List String) (record : Record) :
    Json.under (Path.segments path ++ rest) (.obj (localized.foldl l.ownAt record)) =
      (Json.under (Path.segments path) (.obj record)).flatMap fun v =>
        (l.ownHere? v).toList.flatMap (Json.under rest) := by
  obtain ⟨r, hr, hfold⟩ := Json.under_foldl_lone l.agreesOff_ownAt h rest record
  have hown := l.under_own (Path.segments path) rest (.obj r)
  rw [own_obj, Option.toList_some, List.flatMap_singleton, hr] at hown
  rw [hfold, hown]

/-! Neither puts in a name that was not there. -/

/-- Picking keeps the names of the members. -/
theorem keys_pickMember (members : List (String × Json)) (head : String) (rest : List String) :
    Table.keys (l.pickMember members head rest) = Table.keys members := by
  induction members with
  | nil => rfl
  | cons m more ih =>
    obtain ⟨key, v⟩ := m
    simp only [Table.keys] at ih ⊢
    unfold pickMember
    split
    · rfl
    · rw [List.map_cons, List.map_cons, ih]

/-- Picking at a path of a record keeps the names of its members. -/
theorem keys_pickAt (record : Record) (path : String) :
    Table.keys (l.pickAt record path) = Table.keys record := by
  unfold pickAt
  split
  · rfl
  · exact l.keys_pickMember _ _ _

/-- What the locale itself has are some of the members. -/
theorem keys_ownMember (members : List (String × Json)) (head : String) (rest : List String) :
    (Table.keys (l.ownMember members head rest)).Sublist (Table.keys members) := by
  induction members with
  | nil => exact List.Sublist.refl _
  | cons m more ih =>
    obtain ⟨key, v⟩ := m
    unfold ownMember
    split
    · split
      · exact List.Sublist.refl _
      · exact List.Sublist.cons _ (List.Sublist.map _ List.filter_sublist)
    · exact List.Sublist.cons_cons _ ih

/-- At a path of a record, what the locale itself has are some of the members. -/
theorem keys_ownAt (record : Record) (path : String) :
    (Table.keys (l.ownAt record path)).Sublist (Table.keys record) := by
  unfold ownAt
  split
  · exact List.Sublist.refl _
  · exact l.keys_ownMember _ _ _

end LocaleChoice

/-- A localized value: values by locale, at least one of them. -/
def Json.IsLocalized (locales : List String) (v : Json) : Prop :=
  ∃ members, v = .obj members ∧ isLocaleMap locales members = true

/-- Of each of the localized values a reader is shown the value of the locale itself. -/
def LocaleChoice.ShowsOwn (l : LocaleChoice) (values : List Json) : Prop :=
  ∀ v ∈ values, ∃ members, v = .obj members ∧
    Table.get? l.locale members = some (l.choose members)

/-- There is one localized value, of which the locale itself has nothing and a reader is shown
nothing. -/
def LocaleChoice.ShowsNothing (l : LocaleChoice) (values : List Json) : Prop :=
  ∃ members, values = [.obj members] ∧ Table.get? l.locale members = none ∧
    l.choose members = .null

namespace Record

/-- All values at a path are localized. -/
def LocalizedAt (locales : List String) (path : String) (record : Record) : Prop :=
  ∀ v ∈ Json.under (Path.segments path) (.obj record), v.IsLocalized locales

/-- A record as the locale of a reader itself has it: without a fallback, and with nothing where the
locale has no value. -/
def alone (l : LocaleChoice) (paths : List String) (record : Record) : Record :=
  if l.locale = allLocales then record else paths.foldl l.ownAt record

/-- A localized record has the same names. -/
theorem keys_localize (l : LocaleChoice) (paths : List String) (record : Record) :
    Table.keys (localize l paths record) = Table.keys record := by
  unfold localize
  split
  · rfl
  · induction paths generalizing record with
    | nil => rfl
    | cons path rest ih => rw [List.foldl_cons, ih, l.keys_pickAt]

/-- A record as the locale itself has it has some of the names. -/
theorem keys_alone (l : LocaleChoice) (paths : List String) (record : Record) :
    (Table.keys (alone l paths record)).Sublist (Table.keys record) := by
  unfold alone
  split
  · exact List.Sublist.refl _
  · induction paths generalizing record with
    | nil => exact List.Sublist.refl _
    | cons path rest ih =>
      rw [List.foldl_cons]
      exact (ih _).trans (l.keys_ownAt record path)

variable {l : LocaleChoice} {localized : List String} {record : Record} {path a : String}
  {rest : List String}

/-- At or below a localized path a localized record reaches what is picked there. -/
theorem reach_localize_below (hclear : Path.Clear localized (Path.segments path))
    (ha : a ∈ localized) (hpath : Path.segments path = Path.segments a ++ rest)
    (hlocale : l.locale ≠ allLocales) :
    reach (.obj (localize l localized record)) (Path.segments path) =
      (Json.under (Path.segments a) (.obj record)).flatMap fun v =>
        Json.under rest (l.pickHere v) := by
  have hstart : Path.segments a <+: Path.segments path := hpath ▸ List.prefix_append _ rest
  rw [localize, if_neg hlocale, Json.reach_obj_eq_under (hclear.index_of_start ha hstart), hpath,
    l.under_foldl_pickAt (hclear.lone a ha hstart)]

/-- The record as the locale itself has it reaches what the locale has there. -/
theorem reach_alone_below (hclear : Path.Clear localized (Path.segments path))
    (ha : a ∈ localized) (hpath : Path.segments path = Path.segments a ++ rest)
    (hlocale : l.locale ≠ allLocales) :
    reach (.obj (alone l localized record)) (Path.segments path) =
      (Json.under (Path.segments a) (.obj record)).flatMap fun v =>
        (l.ownHere? v).toList.flatMap (Json.under rest) := by
  have hstart : Path.segments a <+: Path.segments path := hpath ▸ List.prefix_append _ rest
  rw [alone, if_neg hlocale, Json.reach_obj_eq_under (hclear.index_of_start ha hstart), hpath,
    l.under_foldl_ownAt (hclear.lone a ha hstart)]

/-- **A clause in a locale is decided on what the locale itself has.** -/
theorem reach_alone (hclear : Path.Clear localized (Path.segments path))
    (hwrapped : ∀ a ∈ localized, Path.segments a <+: Path.segments path →
      LocalizedAt l.locales a record)
    (hlocale : l.locale ≠ allLocales) (hpoint : '.' ∉ l.locale.toList) :
    reach (.obj (alone l localized record)) (Path.segments path) =
      reach (.obj record) (Path.segments (Path.inLocale localized l.locale path)) := by
  rcases Path.segments_inLocale localized hpoint path with ⟨hnot, hsame⟩ | ⟨a, ha, rest, hpath, hsame⟩
  · rw [alone, if_neg hlocale, hsame]
    exact Json.reach_foldl l.agreesOff_ownAt (hclear.diverge hnot) hclear.index record
  · obtain ⟨hplain, hbelow⟩ := hclear.index_parts ha hpath
    rw [reach_alone_below hclear ha hpath hlocale, hsame,
      Json.reach_obj_append (Path.segments_ne_nil a) hplain]
    refine List.flatMap_congr fun v hv => ?_
    obtain ⟨members, rfl, hmap⟩ := hwrapped a ha (hpath ▸ List.prefix_append _ rest) v hv
    rw [LocaleChoice.ownHere?, if_pos hmap, Json.reach_obj_cons]
    exact congrArg (List.flatMap · _) (funext fun w => (Json.reach_eq_under hbelow w).symm)

/-- Away from localized paths a record shows the same in all locales. -/
theorem reach_localize_of_diverge (hclear : Path.Clear localized (Path.segments path))
    (hnot : ∀ a ∈ localized, ¬ Path.segments a <+: Path.segments path) :
    reach (.obj (localize l localized record)) (Path.segments path) =
      reach (.obj (alone l localized record)) (Path.segments path) := by
  unfold localize alone
  split
  · rfl
  · rw [Json.reach_foldl l.agreesOff_pickAt (hclear.diverge hnot) hclear.index record,
      Json.reach_foldl l.agreesOff_ownAt (hclear.diverge hnot) hclear.index record]

/-- **A reader is shown what the locale itself has,** wherever it has a value to show. -/
theorem reach_localize_of_showsOwn (hclear : Path.Clear localized (Path.segments path))
    (ha : a ∈ localized) (hpath : Path.segments path = Path.segments a ++ rest)
    (hwrapped : LocalizedAt l.locales a record) (hlocale : l.locale ≠ allLocales)
    (hshows : l.ShowsOwn (Json.under (Path.segments a) (.obj record))) :
    reach (.obj (localize l localized record)) (Path.segments path) =
      reach (.obj (alone l localized record)) (Path.segments path) := by
  rw [reach_localize_below hclear ha hpath hlocale, reach_alone_below hclear ha hpath hlocale]
  refine List.flatMap_congr fun v hv => ?_
  obtain ⟨members, rfl, hown⟩ := hshows v hv
  obtain ⟨_, heq, hmap⟩ := hwrapped _ hv
  cases heq
  rw [LocaleChoice.pickHere, if_pos hmap, LocaleChoice.ownHere?, if_pos hmap, hown,
    Option.toList_some, List.flatMap_singleton]

/-- Where neither has a value, a reader is shown null for nothing. -/
theorem reach_localize_of_showsNothing (hclear : Path.Clear localized (Path.segments path))
    (ha : a ∈ localized) (hpath : Path.segments path = Path.segments a ++ rest)
    (hwrapped : LocalizedAt l.locales a record) (hlocale : l.locale ≠ allLocales)
    (hshows : l.ShowsNothing (Json.under (Path.segments a) (.obj record))) :
    reach (.obj (alone l localized record)) (Path.segments path) = [] ∧
      (reach (.obj (localize l localized record)) (Path.segments path) = [.null] ∨
        reach (.obj (localize l localized record)) (Path.segments path) = []) := by
  obtain ⟨members, hunder, hown, hnull⟩ := hshows
  obtain ⟨_, heq, hmap⟩ := hwrapped (.obj members) (by rw [hunder]; exact List.mem_singleton_self _)
  cases heq
  rw [reach_localize_below hclear ha hpath hlocale, reach_alone_below hclear ha hpath hlocale, hunder,
    List.flatMap_singleton, List.flatMap_singleton, LocaleChoice.pickHere, if_pos hmap, hnull,
    LocaleChoice.ownHere?, if_pos hmap, hown]
  refine ⟨rfl, ?_⟩
  cases rest with
  | nil => exact Or.inl rfl
  | cons head more => exact Or.inr rfl

end Record

/-! ### What is written -/

namespace LocaleTarget

variable {t : LocaleTarget}

/-- Wrapping in a record is wrapping in the object of its members. -/
theorem obj_wrapAt (existing : Option Record) (incoming : Record) (path : String) :
    Json.obj (t.wrapAt existing incoming path) =
      t.wrap (existing.map .obj) (.obj incoming) (Path.segments path) := by
  unfold wrapAt
  cases h : Path.segments path with
  | nil => exact absurd h (Path.segments_ne_nil path)
  | cons head rest => rw [wrap]; cases existing <;> rfl

/-- Values put under one of the locales are localized. -/
theorem isLocalized_wrapHere (h : t.locale ∈ t.locales) (stored : Option Json) (v : Json) :
    (t.wrapHere stored v).IsLocalized t.locales := by
  have hinsert : ∀ others : Record, (∀ entry ∈ others, t.locales.contains entry.1 = true) →
      isLocaleMap t.locales (Table.insert t.locale v others) = true := by
    intro others hothers
    have hne : Table.insert t.locale v others ≠ [] := by
      intro hnil
      have hget := Table.get?_insert t.locale t.locale v others
      rw [hnil, if_pos rfl] at hget
      cases hget
    rw [isLocaleMap, Bool.and_eq_true]
    refine ⟨by simpa using hne, List.all_eq_true.2 fun entry hentry => ?_⟩
    rcases Table.mem_insert hentry with rfl | hentry
    · exact List.contains_iff_mem.2 h
    · exact hothers entry hentry
  refine ⟨_, rfl, hinsert _ ?_⟩
  intro entry hentry
  split at hentry
  · next members =>
    split at hentry
    · next hmap =>
      rw [isLocaleMap, Bool.and_eq_true] at hmap
      exact List.all_eq_true.1 hmap.2 entry hentry
    · simp at hentry
  · simp at hentry

end LocaleTarget

/-- **What is written at a lone path is localized.** -/
theorem Record.localizedAt_mergeLocalized {t : LocaleTarget} (h : t.locale ∈ t.locales)
    {localized : List String} {path : String} (hlone : Path.Lone localized path)
    (existing : Option Record) (incoming : Record) :
    LocalizedAt t.locales path (mergeLocalized t existing localized incoming) := by
  intro v hv
  have hchange : ∀ r a, Json.AgreesOff (Path.segments a) (.obj r)
      (.obj (t.wrapAt existing r a)) := fun r a =>
    LocaleTarget.obj_wrapAt existing r a ▸ t.agreesOff_wrap _ _ _
  obtain ⟨r, _, hfold⟩ := Json.under_foldl_lone hchange hlone [] incoming
  rw [List.append_nil] at hfold
  rw [mergeLocalized, hfold, LocaleTarget.obj_wrapAt] at hv
  obtain ⟨stored, w, rfl⟩ := t.mem_under_wrap hv
  exact LocaleTarget.isLocalized_wrapHere h stored w

end HeadlessCms
