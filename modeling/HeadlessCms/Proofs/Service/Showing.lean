import HeadlessCms.Proofs.Localization.Clauses
import HeadlessCms.Proofs.Query.Rewriting
import HeadlessCms.Proofs.Service.Shaping

/-!
# What is shown is what is matched

The store decides the clause of a reader on the record of a document, or on a version of it, at paths
that are rewritten for the locale.  A constraint on a steady path finds the same values there as in
the document that is shown, with its content as the locale itself has it (`Service.alone`,
`Record.Shows.resolve_alone`, `Record.ShowsVersion.resolve_alone`).
-/

namespace HeadlessCms

open Time (Instant)

/-- A document satisfies a clause, at the paths that the clause names. -/
def Document.Satisfies [PatternEngine] (d : Document) (p : Predicate) : Prop :=
  (p.mapPaths Path.toData).holds d.toRecord = .ok true

instance [PatternEngine] (d : Document) (p : Predicate) : Decidable (d.Satisfies p) :=
  match h : (p.mapPaths Path.toData).holds d.toRecord with
  | .ok true => isTrue h
  | .ok false => isFalse fun hs => nomatch h.symm.trans hs
  | .error _ => isFalse fun hs => nomatch h.symm.trans hs

namespace Service

variable {s : Service} {c : CompiledEntity} {selection : Option LocaleSelection}
  {requested fallback : Option String}

/-! ### Content in the selected locale -/

/-- How localized values are picked in the selected locale. -/
def choice (s : Service) (selection : Option LocaleSelection) : Option LocaleChoice :=
  match s.localization, selection with
  | some l, some chosen => some ⟨l.names, chosen.locale, chosen.fallback⟩
  | _, _ => none

/-- Content as the selected locale itself has it: without the fallback, and with nothing where the
locale has no value. -/
def alone (s : Service) (paths : List String) (selection : Option LocaleSelection)
    (data : Record) : Record :=
  match s.choice selection with
  | some l => Record.alone l paths data
  | none => data

/-- A document is read in the chosen locale, and as it is stored without a choice. -/
theorem localize_eq (s : Service) (paths : List String) (selection : Option LocaleSelection)
    (data : Record) :
    s.localize paths selection data =
      match s.choice selection with
      | some l => Record.localize l paths data
      | none => data := by
  unfold localize choice
  cases s.localization with
  | none => rfl
  | some l => cases selection <;> rfl

/-- Reading one locale alone adds no member. -/
theorem keys_alone (s : Service) (paths : List String) (selection : Option LocaleSelection)
    (data : Record) : (Table.keys (s.alone paths selection data)).Sublist (Table.keys data) := by
  unfold alone
  split
  · exact Record.keys_alone _ _ _
  · exact List.Sublist.refl _

/-- Localizing keeps the names of the members. -/
theorem keys_localize (s : Service) (paths : List String) (selection : Option LocaleSelection)
    (data : Record) : Table.keys (s.localize paths selection data) = Table.keys data := by
  rw [localize_eq]
  split
  · exact Record.keys_localize _ _ _
  · rfl

/-- A reader is shown, of the localized values that a constraint looks at, what the selected locale
itself has: its own values, or nothing where there is nothing. -/
def ShowsOwn (s : Service) (paths : List String) (selection : Option LocaleSelection)
    (data : Record) (k : Constraint) : Prop :=
  ∀ l ∈ s.choice selection, l.locale ≠ allLocales →
    ∀ a ∈ paths, Path.AtOrBelow a (Path.toData k.path) →
      l.ShowsOwn (Json.under (Path.segments a) (.obj data)) ∨
        ¬ k.OrdersNull ∧ l.ShowsNothing (Json.under (Path.segments a) (.obj data))

/-- A selected locale is chosen among the locales of the service. -/
theorem choice_of_selectLocale (h : s.selectLocale requested fallback = .ok selection) :
    (s.localization = none ∧ s.choice selection = none ∧ localeOf selection = none) ∨
      ∃ l ∈ s.localization, ∃ chosen, s.choice selection = some chosen ∧
        chosen.locales = l.names ∧ localeOf selection = some chosen.locale ∧
        (chosen.locale = allLocales ∨ chosen.locale ∈ l.names) := by
  cases hl : s.localization with
  | none =>
    left
    obtain rfl := selection_of_selectLocale hl h
    refine ⟨rfl, ?_, rfl⟩
    unfold choice
    rw [hl]
  | some l =>
    right
    obtain ⟨chosen, rfl, hlocale⟩ := locale_of_selectLocale hl h
    refine ⟨l, rfl, ⟨l.names, chosen.locale, chosen.fallback⟩, ?_, rfl, rfl, hlocale⟩
    simp only [choice, hl]

/-- No locale has a point in its name. -/
def PlainLocales (s : Service) : Prop :=
  ∀ l ∈ s.localization, ∀ name ∈ l.names, '.' ∉ name.toList

/-- A locale that reads ask for has no point in it, the one that asks for all apart. -/
theorem PlainLocales.localeOf (hplain : s.PlainLocales)
    (h : s.selectLocale requested fallback = .ok selection) :
    ∀ locale ∈ localeOf selection, locale ≠ allLocales → '.' ∉ locale.toList := by
  intro locale hmem hall
  rcases choice_of_selectLocale h with ⟨_, _, hnone⟩ | ⟨l, hl, chosen, _, _, hlocale, hknown⟩
  · rw [hnone] at hmem
    cases hmem
  · rw [hlocale] at hmem
    cases hmem
    exact hplain l hl _ (hknown.resolve_left hall)

/-! ### Values at steady paths -/

section Values

variable {data : Record} {draft : Bool} {path : String}

/-- **The store matches what the selected locale itself has.** -/
theorem reach_alone (hselect : s.selectLocale requested fallback = .ok selection)
    (hplain : s.PlainLocales) (hdata : Record.IsLocalized (c.shape s.localization) data)
    (hpath : Path.Steady c.localizedPaths draft path) :
    reach (.obj (s.alone c.localizedPaths selection data)) (Path.segments (Path.toData path)) =
      reach (.obj data)
        (Path.segments (Store.storedPath c.localizedPaths (localeOf selection) path)) := by
  rcases choice_of_selectLocale hselect with
    ⟨_, hchoice, hlocale⟩ | ⟨l, hl, chosen, hchoice, hnames, hlocale, _⟩
  · rw [alone, hchoice, hlocale]
    rfl
  · rw [alone, hchoice, hlocale, Store.storedPath]
    dsimp only
    by_cases hall : chosen.locale = allLocales
    · rw [if_pos hall, Record.alone, if_pos hall]
    · rw [if_neg hall]
      refine Record.reach_alone hpath.clear (fun a ha hstart => ?_) hall
        (hplain.localeOf hselect _ hlocale hall)
      rw [hnames]
      exact hdata l hl a (@Path.Steady.localizes (c.shape s.localization) _ _ hpath a ha hstart)

/-- A constraint that the content of the locale itself satisfies is satisfied by what is shown. -/
theorem test_localize [PatternEngine] (hselect : s.selectLocale requested fallback = .ok selection)
    (hdata : Record.IsLocalized (c.shape s.localization) data) {k : Constraint}
    (hpath : Path.Steady c.localizedPaths draft k.path)
    (hshows : s.ShowsOwn c.localizedPaths selection data k) {b : Bool}
    (htest : k.test (reach (.obj (s.alone c.localizedPaths selection data))
      (Path.segments (Path.toData k.path))) = .ok b) :
    k.test (reach (.obj (s.localize c.localizedPaths selection data))
      (Path.segments (Path.toData k.path))) = .ok b := by
  rw [localize_eq]
  rw [alone] at htest
  rcases choice_of_selectLocale hselect with
    ⟨_, hchoice, _⟩ | ⟨l, hl, chosen, hchoice, hnames, _, _⟩
  · rw [hchoice] at htest ⊢
    exact htest
  · rw [hchoice] at htest ⊢
    dsimp only at htest ⊢
    by_cases hall : chosen.locale = allLocales
    · rw [Record.localize, if_pos hall]
      rwa [Record.alone, if_pos hall] at htest
    · by_cases hsome : ∃ a ∈ c.localizedPaths,
          Path.segments a <+: Path.segments (Path.toData k.path)
      · obtain ⟨a, ha, hstart⟩ := hsome
        have hwrapped : Record.LocalizedAt chosen.locales a data := by
          rw [hnames]
          exact hdata l hl a
            (@Path.Steady.localizes (c.shape s.localization) _ _ hpath a ha hstart)
        have hvalues := hshows chosen hchoice hall a ha (Path.atOrBelow_iff.2 hstart)
        obtain ⟨rest, hrest⟩ := hstart
        rcases hvalues with hown | ⟨horder, hnothing⟩
        · rwa [Record.reach_localize_of_showsOwn hpath.clear ha hrest.symm hwrapped hall hown]
        · obtain ⟨hempty, hshown⟩ := Record.reach_localize_of_showsNothing hpath.clear ha
            hrest.symm hwrapped hall hnothing
          rw [hempty] at htest
          rcases hshown with hnull | hnone
          · rwa [hnull, Constraint.test_null horder]
          · rwa [hnone]
      · have hnot : ∀ a ∈ c.localizedPaths,
            ¬ Path.segments a <+: Path.segments (Path.toData k.path) :=
          fun a ha hstart => hsome ⟨a, ha, hstart⟩
        rwa [Record.reach_localize_of_diverge hpath.clear hnot]

end Values

/-! ### Shown documents -/

section Documents

variable {d : Document} {draft : Bool} {path : String}

/-- A document with its content as the selected locale itself has it. -/
def aloneIn (s : Service) (c : CompiledEntity) (selection : Option LocaleSelection)
    (d : Document) : Document :=
  { d with data := s.alone c.localizedPaths selection d.data }

/-- What is read in one locale alone is data still. -/
theorem isData_alone (h : Record.IsData d.data) :
    Record.IsData (s.aloneIn c selection d).data :=
  h.of_keys (s.keys_alone _ _ _)

/-- Below a name of the envelope a document shows what it says itself. -/
theorem reach_aloneIn_of_mem_envelope (h : Record.IsData d.data) {name : String}
    (hname : name ∈ Document.envelope) {record : Record}
    (hget : Table.get? name d.envelopeMembers = Table.get? name record) (rest : List String) :
    reach (.obj (s.aloneIn c selection d).toRecord) (name :: rest) =
      reach (.obj record) (name :: rest) := by
  refine Json.reach_obj_congr ?_ rest
  rw [Document.get?_toRecord_of_mem_envelope (isData_alone h).isBare hname]
  exact hget

/-- **Below all other names it shows what the store matches.** -/
theorem reach_aloneIn_of_notMem_envelope
    (hselect : s.selectLocale requested fallback = .ok selection) (hplain : s.PlainLocales)
    (hpath : Path.Steady c.localizedPaths draft path)
    (hd : Record.Tidy (c.shape s.localization) d.data) {name : String} {rest : List String}
    (hnames : Path.segments (Path.toData path) = name :: rest) (hname : name ∉ Document.envelope)
    {record : Record} (hget : Table.get? name d.data = Table.get? name record) :
    reach (.obj (s.aloneIn c selection d).toRecord) (Path.segments (Path.toData path)) =
      reach (.obj record)
        (Path.segments (Store.storedPath c.localizedPaths (localeOf selection) path)) := by
  have hshown : reach (.obj (s.aloneIn c selection d).toRecord) (Path.segments (Path.toData path)) =
      reach (.obj (s.alone c.localizedPaths selection d.data))
        (Path.segments (Path.toData path)) := by
    rw [hnames]
    exact Json.reach_obj_congr
      (Document.get?_toRecord_of_notMem_envelope (isData_alone hd.toIsData) hname) rest
  rw [hshown, reach_alone hselect hplain hd.localized hpath]
  -- In a locale the path goes on differently, but it starts with the same name.
  have hstored := Store.head?_segments_storedPath c.localizedPaths (localeOf selection) path
  obtain ⟨first, more, hmore⟩ := List.exists_cons_of_ne_nil
    (Path.segments_ne_nil (Store.storedPath c.localizedPaths (localeOf selection) path))
  rw [hmore, hnames, List.head?_cons, List.head?_cons, Option.some.injEq] at hstored
  rw [hmore, hstored]
  exact Json.reach_obj_congr hget more

end Documents

end Service

namespace Record

variable {s : Service} {c : CompiledEntity} {selection : Option LocaleSelection}
  {requested fallback : Option String} {path : String}

/-- **A constraint finds in the record of a document what the document shows.** -/
theorem Shows.reach_aloneIn {record : Record} {d : Document} (h : Shows record d)
    (hselect : s.selectLocale requested fallback = .ok selection) (hplain : s.PlainLocales)
    (hd : d.Tidy (c.shape s.localization)) {draft : Bool}
    (hpath : Path.Steady c.localizedPaths draft path) :
    reach (.obj (s.aloneIn c selection d).toRecord) (Path.segments (Path.toData path)) =
      reach (.obj record) (Path.segments
        (Store.storedPath c.localizedPaths (Service.localeOf selection) path)) := by
  obtain ⟨name, rest, hnames⟩ := List.exists_cons_of_ne_nil
    (Path.segments_ne_nil (Path.toData path))
  have hfirst : (Path.segments (Path.toData path)).head? = some name := by rw [hnames]; rfl
  by_cases hname : name ∈ Document.envelope
  · have hsystem : name ∈ systemNames :=
      List.mem_append_left _ (List.mem_append_left _ hname)
    rw [hpath.storedPath_eq hfirst hsystem, hnames]
    refine Service.reach_aloneIn_of_mem_envelope hd.data.toIsData hname ?_ rest
    rw [Document.get?_envelopeMembers]
    simp only [Document.envelope, List.mem_cons, List.not_mem_nil, or_false] at hname
    rcases hname with rfl | rfl | rfl
    · exact h.id.symm
    · exact h.createdAt.symm
    · exact h.updatedAt.symm
  · refine Service.reach_aloneIn_of_notMem_envelope hselect hplain hpath hd.data hnames hname ?_
    rw [h.data, Document.get?_stripEnvelope, if_neg hname, get?_sanitize]
    exact if_neg (not_or.2 (hpath.kept name hfirst))

/-- **A constraint on drafts finds in a version what its document shows in its place.** -/
theorem ShowsVersion.reach_aloneIn {record : Record} {v : Version} {doc : Document}
    (h : ShowsVersion (c.shape s.localization) record v) (hparent : v.parent = some doc.id)
    (htimestamps : c.entity.timestamps = true)
    (hselect : s.selectLocale requested fallback = .ok selection) (hplain : s.PlainLocales)
    (hpath : Path.Steady c.localizedPaths true path) :
    reach (.obj (s.aloneIn c selection (Draft.overlay doc v)).toRecord)
        (Path.segments (Path.toData path)) =
      reach (.obj record) (Path.segments (Store.storedPath c.versionLocalizedPaths
        (Service.localeOf selection) (Path.inVersion path))) := by
  have htidy : Tidy (c.shape s.localization) (Draft.overlay doc v).data := h.tidy
  by_cases hid : path = "id"
  · subst hid
    obtain ⟨id, hid, hget, _⟩ := h.parent
    have hsame : id = doc.id := Option.some.inj (hid.symm.trans hparent)
    have hnames : Path.segments (Path.toData "id") = ["id"] := rfl
    have hstored : Path.segments "parent" = ["parent"] := rfl
    rw [Path.inVersion, if_pos rfl, CompiledEntity.storedPath_outside (by decide) (by decide),
      hnames, hstored, Json.reach_obj_cons, Json.reach_obj_cons, hget, hsame,
      Document.get?_id_toRecord (Service.isData_alone htidy.toIsData).isBare]
    rfl
  · have hversion : reach (.obj record) (Path.segments (Store.storedPath c.versionLocalizedPaths
        (Service.localeOf selection) (Path.inVersion path))) =
        reach (.obj v.version) (Path.segments (Store.storedPath c.localizedPaths
          (Service.localeOf selection) path)) := by
      rw [Path.inVersion, if_neg hid, CompiledEntity.versionLocalizedPaths,
        Store.storedPath_inVersion, Path.segments_version, Json.reach_obj_cons, h.snapshot,
        Option.toList_some, List.flatMap_singleton]
    rw [hversion]
    obtain ⟨name, rest, hnames⟩ := List.exists_cons_of_ne_nil
      (Path.segments_ne_nil (Path.toData path))
    have hfirst : (Path.segments (Path.toData path)).head? = some name := by rw [hnames]; rfl
    by_cases hname : name ∈ Document.envelope
    · have hsystem : name ∈ systemNames :=
        List.mem_append_left _ (List.mem_append_left _ hname)
      rw [hpath.storedPath_eq hfirst hsystem, hnames]
      simp only [Document.envelope, List.mem_cons, List.not_mem_nil, or_false] at hname
      rcases hname with rfl | rfl | rfl
      · -- Below the id there is nothing, and the snapshot has none.
        have hrest : rest ≠ [] := by
          rintro rfl
          exact hid (Path.eq_id_of_segments hnames)
        obtain ⟨next, more, rfl⟩ := List.exists_cons_of_ne_nil hrest
        rw [Json.reach_obj_cons, Json.reach_obj_cons, h.shaped.id,
          Document.get?_id_toRecord (Service.isData_alone htidy.toIsData).isBare]
        rfl
      · exact absurd rfl (hpath.draft rfl _ hfirst)
      · refine Service.reach_aloneIn_of_mem_envelope htidy.toIsData (by decide) ?_ rest
        rw [Document.get?_envelopeMembers, h.shaped.updatedAt htimestamps]
        rfl
    · refine Service.reach_aloneIn_of_notMem_envelope hselect hplain hpath htidy hnames hname ?_
      show Table.get? name (Document.stripEnvelope v.version) = _
      rw [Document.get?_stripEnvelope, if_neg hname]

end Record

end HeadlessCms
