import HeadlessCms.Proofs.Localization.Positions
import HeadlessCms.Proofs.Localization.Writing

/-!
# Reading what has been written

Picking undoes what has been put under the same locale (`LocaleTarget.pick_wrap`) and commutes with
putting values under a locale at a diverging path (`LocaleTarget.pick_wrap_of_diverge`).  So a record
reads in its own locale as it was written, whatever it holds, and in every other locale it reads at the
localized positions as before (`Record.localize_mergeLocalized`).
-/

namespace HeadlessCms

namespace LocaleTarget

variable {l : LocaleChoice} {t : LocaleTarget}

/-! ### Two paths -/

mutual

/-- **Picking at one path and writing at a diverging one commute.** -/
theorem pick_wrap_of_diverge {x y : String} {a b : List String}
    (h : Path.Diverge (x :: a) (y :: b)) (stored : Option Json) : (v : Json) →
    l.pick (t.wrap stored v (y :: b)) (x :: a) = t.wrap stored (l.pick v (x :: a)) (y :: b)
  | .obj members => by
    simp only [wrap, LocaleChoice.pick]
    rw [pickMember_wrapMember h (storedMember y stored) members]
  | .arr items => by
    simp only [wrap, LocaleChoice.pick]
    rw [pickItems_wrapItems h stored 0 items]
  | .null | .bool _ | .num _ | .str _ => by simp only [wrap, LocaleChoice.pick]

/-- Picking at one path and wrapping at a diverging one commute in the members of an object. -/
theorem pickMember_wrapMember {x y : String} {a b : List String}
    (h : Path.Diverge (x :: a) (y :: b)) (stored : Option Json) : (members : List (String × Json)) →
    l.pickMember (t.wrapMember stored members y b) x a =
      t.wrapMember stored (l.pickMember members x a) y b
  | [] => rfl
  | (key, v) :: more => by
    have hmore := pickMember_wrapMember h stored more
    by_cases hy : key = y
    · by_cases hx : key = x
      · -- Both paths go on in this member, and diverge below it.
        have hbelow := Path.diverge_cons_iff.1 ((hx.symm.trans hy) ▸ h)
        obtain ⟨x', a, rfl⟩ := List.exists_cons_of_ne_nil fun ha : a = [] =>
          hbelow.1 (ha ▸ List.nil_prefix)
        obtain ⟨y', b, rfl⟩ := List.exists_cons_of_ne_nil fun hb : b = [] =>
          hbelow.2 (hb ▸ List.nil_prefix)
        simp only [wrapMember, LocaleChoice.pickMember, if_pos hx, if_pos hy]
        rw [pick_wrap_of_diverge hbelow stored v]
      · simp only [wrapMember, LocaleChoice.pickMember, if_pos hy, if_neg hx]
    · by_cases hx : key = x
      · simp only [wrapMember, LocaleChoice.pickMember, if_pos hx, if_neg hy]
      · simp only [wrapMember, LocaleChoice.pickMember, if_neg hx, if_neg hy, hmore]

/-- Picking at one path and wrapping at a diverging one commute in the items of a list. -/
theorem pickItems_wrapItems {x y : String} {a b : List String}
    (h : Path.Diverge (x :: a) (y :: b)) (stored : Option Json) (i : Nat) : (items : List Json) →
    l.pickItems (t.wrapItems stored i items (y :: b)) (x :: a) =
      t.wrapItems stored i (l.pickItems items (x :: a)) (y :: b)
  | [] => rfl
  | v :: more => by
    simp only [wrapItems, LocaleChoice.pickItems]
    rw [pick_wrap_of_diverge h _ v, pickItems_wrapItems h stored (i + 1) more]

end

/-! ### One path -/

/-- Without a fallback a reader is shown what the locale itself has, and null where it has nothing. -/
theorem choose_none (locales : List String) (locale : String) (members : Record) :
    LocaleChoice.choose ⟨locales, locale, none⟩ members =
      (Table.get? locale members).getD .null := by
  unfold LocaleChoice.choose
  cases Table.get? locale members with
  | none => rfl
  | some v => cases v <;> rfl

/-- Picking a value just put under the locale. -/
theorem pickHere_wrapHere (hlocale : t.locale ∈ t.locales) (stored : Option Json) (v : Json) :
    LocaleChoice.pickHere ⟨t.locales, t.locale, none⟩ (t.wrapHere stored v) = v := by
  obtain ⟨members, hmembers, hget⟩ := t.exists_wrapHere stored v
  obtain ⟨_, hsame, hmap⟩ := isLocalized_wrapHere hlocale stored v
  rw [hmembers, Json.obj.injEq] at hsame
  subst hsame
  rw [hmembers, LocaleChoice.pickHere, if_pos hmap, choose_none, hget, Option.getD_some]

mutual

/-- **Picking undoes what has been put under the same locale.** -/
theorem pick_wrap (hlocale : t.locale ∈ t.locales) (names : List String) (stored : Option Json) :
    (v : Json) → LocaleChoice.pick ⟨t.locales, t.locale, none⟩ (t.wrap stored v names) names = v
  | .obj members => by
    cases names with
    | nil => rw [wrap, LocaleChoice.pick, pickHere_wrapHere hlocale]
    | cons head rest =>
      simp only [wrap, LocaleChoice.pick]
      rw [pickMember_wrapMember_self hlocale head rest (storedMember head stored) members]
  | .arr items => by
    cases names with
    | nil => rw [wrap, LocaleChoice.pick, pickHere_wrapHere hlocale]
    | cons head rest =>
      simp only [wrap, LocaleChoice.pick]
      rw [pickItems_wrapItems_self hlocale (head :: rest) stored 0 items]
  | .null | .bool _ | .num _ | .str _ => by
    cases names with
    | nil => rw [wrap, LocaleChoice.pick, pickHere_wrapHere hlocale]
    | cons head rest => simp only [wrap, LocaleChoice.pick]

/-- Picking in the members of an object undoes wrapping at the same path. -/
theorem pickMember_wrapMember_self (hlocale : t.locale ∈ t.locales) (head : String)
    (rest : List String) (stored : Option Json) : (members : List (String × Json)) →
    LocaleChoice.pickMember ⟨t.locales, t.locale, none⟩ (t.wrapMember stored members head rest)
      head rest = members
  | [] => rfl
  | (key, v) :: more => by
    by_cases hkey : key = head
    · simp only [wrapMember, LocaleChoice.pickMember, if_pos hkey]
      rw [pick_wrap hlocale rest stored v]
    · simp only [wrapMember, LocaleChoice.pickMember, if_neg hkey]
      rw [pickMember_wrapMember_self hlocale head rest stored more]

/-- Picking in the items of a list undoes wrapping at the same path. -/
theorem pickItems_wrapItems_self (hlocale : t.locale ∈ t.locales) (names : List String)
    (stored : Option Json) (i : Nat) : (items : List Json) →
    LocaleChoice.pickItems ⟨t.locales, t.locale, none⟩ (t.wrapItems stored i items names) names = items
  | [] => rfl
  | v :: more => by
    simp only [wrapItems, LocaleChoice.pickItems]
    rw [pick_wrap hlocale names _ v, pickItems_wrapItems_self hlocale names stored (i + 1) more]

end

end LocaleTarget

/-! ### Paths apart from each other -/

namespace Path

/-- Paths with the same names are the same. -/
theorem segments_injective : Function.Injective segments := by
  intro a b hsegments
  have hchars : Text.splitOn '.' a.toList = Text.splitOn '.' b.toList := by
    have hmap := congrArg (List.map String.toList) hsegments
    simpa only [segments, List.map_map, Function.comp_def, String.toList_ofList,
      List.map_id'] using hmap
  have hjoin := congrArg (Text.join '.') hchars
  rw [Text.join_splitOn, Text.join_splitOn] at hjoin
  exact String.toList_inj.1 hjoin

/-- Paths that are listed once each, and of which none lies below another. -/
structure Separate (paths : List String) : Prop where
  nodup : paths.Nodup
  none_below : ∀ a ∈ paths, ∀ b ∈ paths, segments a <+: segments b → segments a = segments b

namespace Separate

variable {paths : List String}

/-- Two separate paths diverge. -/
theorem diverge (h : Separate paths) {a b : String} (ha : a ∈ paths) (hb : b ∈ paths) (hab : a ≠ b) :
    Diverge (segments a) (segments b) := by
  constructor
  · intro hbelow
    exact hab (segments_injective (h.none_below a ha b hb hbelow))
  · intro hbelow
    exact hab (segments_injective (h.none_below b hb a ha hbelow)).symm

/-- All of them diverge from each other. -/
theorem pairwise (h : Separate paths) :
    paths.Pairwise fun a b => Diverge (segments a) (segments b) :=
  List.Pairwise.imp_of_mem h.diverge h.nodup

/-- Each separate path is lone. -/
theorem lone (h : Separate paths) {path : String} (hpath : path ∈ paths) : Lone paths path := by
  obtain ⟨before, after, rfl⟩ := List.append_of_mem hpath
  have hnot : path ∉ before ++ after := (List.nodup_cons.1 (List.perm_middle.nodup_iff.1 h.nodup)).1
  refine ⟨before, after, rfl, fun other hother => h.diverge hpath ?_ ?_⟩
  · rw [List.mem_append] at hother ⊢
    exact hother.imp id (List.mem_cons_of_mem _)
  · intro hsame
    exact hnot (hsame ▸ hother)

end Separate

end Path

/-! ### Records -/

namespace Record

variable {l : LocaleChoice} {t : LocaleTarget} {paths : List String}

/-- In a record, picking at one path and wrapping at a diverging one commute. -/
theorem pickAt_wrapAt_of_diverge {a b : String}
    (h : Path.Diverge (Path.segments a) (Path.segments b)) (existing : Option Record) (r : Record) :
    l.pickAt (t.wrapAt existing r b) a = t.wrapAt existing (l.pickAt r a) b := by
  apply Json.obj.inj
  rw [LocaleChoice.obj_pickAt, LocaleTarget.obj_wrapAt, LocaleTarget.obj_wrapAt,
    LocaleChoice.obj_pickAt]
  obtain ⟨x, a', ha⟩ := List.exists_cons_of_ne_nil (Path.segments_ne_nil a)
  obtain ⟨y, b', hb⟩ := List.exists_cons_of_ne_nil (Path.segments_ne_nil b)
  rw [ha, hb] at h ⊢
  exact LocaleTarget.pick_wrap_of_diverge h _ _

/-- In a record, picking undoes wrapping at the same path. -/
theorem pickAt_wrapAt (hlocale : t.locale ∈ t.locales) (existing : Option Record) (r : Record)
    (path : String) : LocaleChoice.pickAt ⟨t.locales, t.locale, none⟩ (t.wrapAt existing r path) path
      = r := by
  apply Json.obj.inj
  rw [LocaleChoice.obj_pickAt, LocaleTarget.obj_wrapAt]
  exact LocaleTarget.pick_wrap hlocale _ _ _

/-- Picking at a path passes the writing at diverging ones. -/
theorem pickAt_mergeLocalized {a : String}
    (h : ∀ b ∈ paths, Path.Diverge (Path.segments a) (Path.segments b)) (existing : Option Record)
    (r : Record) :
    l.pickAt (mergeLocalized t existing paths r) a =
      mergeLocalized t existing paths (l.pickAt r a) := by
  induction paths generalizing r with
  | nil => rfl
  | cons b rest ih =>
    show l.pickAt (mergeLocalized t existing rest (t.wrapAt existing r b)) a = _
    rw [ih fun c hc => h c (List.mem_cons_of_mem _ hc),
      pickAt_wrapAt_of_diverge (h b List.mem_cons_self)]
    rfl

/-- **A record reads in its own locale as it was written.** -/
theorem foldl_pickAt_mergeLocalized (hlocale : t.locale ∈ t.locales)
    (hpaths : paths.Pairwise fun a b => Path.Diverge (Path.segments a) (Path.segments b))
    (existing : Option Record) (incoming : Record) :
    paths.foldl (LocaleChoice.pickAt ⟨t.locales, t.locale, none⟩)
      (mergeLocalized t existing paths incoming) = incoming := by
  induction paths generalizing incoming with
  | nil => rfl
  | cons a rest ih =>
    obtain ⟨hfirst, hrest⟩ := List.pairwise_cons.1 hpaths
    have hpick : LocaleChoice.pickAt ⟨t.locales, t.locale, none⟩
        (mergeLocalized t existing (a :: rest) incoming) a =
          mergeLocalized t existing rest incoming := by
      show LocaleChoice.pickAt _ (mergeLocalized t existing rest (t.wrapAt existing incoming a)) a = _
      rw [pickAt_mergeLocalized hfirst, pickAt_wrapAt hlocale]
    rw [List.foldl_cons, hpick]
    exact ih hrest incoming

/-- What is stored at a position of a localized path. -/
theorem at?_mergeLocalized {path : String} {position : List Json.Step} (hlone : Path.Lone paths path)
    (hleads : Path.Leads (Path.segments path) position) (existing : Option Record)
    (incoming : Record) :
    Json.at? position (.obj (mergeLocalized t existing paths incoming)) =
      (Json.at? position (.obj incoming)).map
        (t.wrapHere (existing.bind fun record => Json.at? position (.obj record))) := by
  obtain ⟨r, hr, hmerged⟩ :=
    Json.at?_foldl_lone (t.sameBeside_wrapAt existing) hleads hlone incoming
  rw [mergeLocalized, hmerged, LocaleTarget.obj_wrapAt, t.at?_wrap hleads, hr]
  cases existing <;> rfl

/-- What is read at a position of a localized path. -/
theorem at?_localize {path : String} {position : List Json.Step} (hlone : Path.Lone paths path)
    (hleads : Path.Leads (Path.segments path) position) (hlocale : l.locale ≠ allLocales)
    (record : Record) :
    Json.at? position (.obj (localize l paths record)) =
      (Json.at? position (.obj record)).map l.pickHere := by
  obtain ⟨r, hr, hread⟩ := Json.at?_foldl_lone l.sameBeside_pickAt hleads hlone record
  rw [localize, if_neg hlocale, hread, LocaleChoice.obj_pickAt, l.at?_pick hleads, hr]

end Record

namespace LocaleTarget

variable {t : LocaleTarget}

/-- In another locale a value reads as what is stored of it in that locale. -/
theorem pickHere_wrapHere_of_ne {other : String} (hother : other ≠ t.locale)
    (hlocale : t.locale ∈ t.locales) {stored : Json} (hstored : stored.IsLocalized t.locales)
    (v : Json) :
    LocaleChoice.pickHere ⟨t.locales, other, none⟩ (t.wrapHere (some stored) v) =
      LocaleChoice.pickHere ⟨t.locales, other, none⟩ stored := by
  obtain ⟨members, rfl, hmap⟩ := hstored
  obtain ⟨written, hwritten, hwrittenMap⟩ := isLocalized_wrapHere hlocale (some (.obj members)) v
  have hmembers : Table.insert t.locale v members = written := by
    simpa only [wrapHere, hmap, if_true, Json.obj.injEq] using hwritten
  rw [hwritten, LocaleChoice.pickHere, if_pos hwrittenMap, LocaleChoice.pickHere, if_pos hmap,
    choose_none, choose_none, ← hmembers, Table.get?_insert, if_neg hother]

/-- Where nothing localized is stored, a value reads as null in another locale. -/
theorem pickHere_wrapHere_eq_null {other : String} (hother : other ≠ t.locale)
    (hlocale : t.locale ∈ t.locales) {stored : Option Json}
    (hstored : ∀ v ∈ stored, ¬ v.IsLocalized t.locales) (v : Json) :
    LocaleChoice.pickHere ⟨t.locales, other, none⟩ (t.wrapHere stored v) = .null := by
  obtain ⟨written, hwritten, hwrittenMap⟩ := isLocalized_wrapHere hlocale stored v
  have hothers : t.wrapHere stored v = .obj (Table.insert t.locale v []) := by
    unfold wrapHere
    split
    · next members =>
      rw [if_neg fun hmap => hstored _ rfl ⟨members, rfl, hmap⟩]
    · rfl
  rw [hothers, Json.obj.injEq] at hwritten
  rw [hothers, LocaleChoice.pickHere, hwritten, if_pos hwrittenMap, choose_none, ← hwritten,
    Table.get?_insert, if_neg hother]
  rfl

end LocaleTarget

namespace Record

/-- **The round trip of localized values.**  A record that is written in a locale reads in this locale,
without a fallback, as it was written.  In every other locale, at each position of a localized path, it
reads as the existing record does where that holds values of locales, and as null elsewhere. -/
theorem localize_mergeLocalized {locales paths : List String} {locale : String}
    (hall : allLocales ∉ locales) (hlocale : locale ∈ locales) (hpaths : Path.Separate paths)
    (existing : Option Record) (incoming : Record) :
    let merged := mergeLocalized ⟨locales, locale⟩ existing paths incoming
    localize ⟨locales, locale, none⟩ paths merged = incoming ∧
      ∀ other ∈ locales, other ≠ locale → ∀ path ∈ paths, ∀ position,
        Path.Leads (Path.segments path) position → (Json.at? position (.obj incoming)).isSome →
          (∀ record v, existing = some record → Json.at? position (.obj record) = some v →
            v.IsLocalized locales →
              Json.at? position (.obj (localize ⟨locales, other, none⟩ paths merged)) =
                Json.at? position (.obj (localize ⟨locales, other, none⟩ paths record))) ∧
          ((∀ record v, existing = some record → Json.at? position (.obj record) = some v →
            ¬ v.IsLocalized locales) →
              Json.at? position (.obj (localize ⟨locales, other, none⟩ paths merged)) =
                some .null) := by
  intro merged
  constructor
  · have hne : locale ≠ allLocales := fun heq => hall (heq ▸ hlocale)
    rw [localize, if_neg hne]
    exact @foldl_pickAt_mergeLocalized ⟨locales, locale⟩ paths hlocale hpaths.pairwise existing incoming
  · intro other hother hne path hpath position hleads hpresent
    obtain ⟨v, hv⟩ := Option.isSome_iff_exists.1 hpresent
    have hread := fun record => at?_localize (l := ⟨locales, other, none⟩) (hpaths.lone hpath) hleads
      (fun heq => hall (heq ▸ hother)) record
    have hmerged := at?_mergeLocalized (t := ⟨locales, locale⟩) (hpaths.lone hpath) hleads existing
      incoming
    rw [hv, Option.map_some] at hmerged
    rw [hread, hmerged, Option.map_some]
    constructor
    · intro record stored hexisting hstored hlocalized
      rw [hread, hexisting, Option.bind_some, hstored, Option.map_some]
      rw [@LocaleTarget.pickHere_wrapHere_of_ne ⟨locales, locale⟩ other hne hlocale stored hlocalized]
    · intro hnone
      rw [@LocaleTarget.pickHere_wrapHere_eq_null ⟨locales, locale⟩ other hne hlocale]
      intro stored hstored
      obtain ⟨record, hrecord, hat⟩ := Option.bind_eq_some_iff.1 hstored
      exact hnone record stored hrecord hat

theorem localize_mergeLocalized_label :
    let stored : Record := [("items", .arr [.obj [("label", .obj [("de", .str "eins")])]])]
    let written : Record :=
      [("items", .arr [.obj [("label", .str "one")], .obj [("label", .str "two")]])]
    let merged := mergeLocalized ⟨["en", "de"], "en"⟩ (some stored) ["items.label"] written
    let german := localize ⟨["en", "de"], "de", none⟩ ["items.label"] merged
    localize ⟨["en", "de"], "en", none⟩ ["items.label"] merged = written ∧
      Json.at? [.member "items", .item 0, .member "label"] (.obj german) = some (.str "eins") ∧
      Json.at? [.member "items", .item 1, .member "label"] (.obj german) = some .null := by
  intro stored written merged german
  have hsegments : Path.segments "items.label" = ["items", "label"] := rfl
  have hpaths : Path.Separate ["items.label"] := ⟨by simp, by simp⟩
  have hround := @localize_mergeLocalized ["en", "de"] ["items.label"] "en" (by decide) (by decide)
    hpaths (some stored) written
  have hleads (i : Nat) : Path.Leads (Path.segments "items.label")
      [.member "items", .item i, .member "label"] := by
    simp [hsegments, Path.Leads]
  have hgerman (i : Nat) := hround.2 "de" (by decide) (by decide) "items.label"
    List.mem_cons_self _ (hleads i)
  refine ⟨hround.1, ?_, ?_⟩
  · have hpresent : Json.at? [.member "items", .item 0, .member "label"] (.obj stored) =
        some (.obj [("de", .str "eins")]) := by
      simp [stored, Json.at?_cons, Table.get?]
    have hread : Json.at? [.member "items", .item 0, .member "label"]
        (.obj (localize ⟨["en", "de"], "de", none⟩ ["items.label"] stored)) = some (.str "eins") := by
      rw [at?_localize (hpaths.lone List.mem_cons_self) (hleads 0) (by decide), hpresent]
      simp [LocaleChoice.pickHere, isLocaleMap, LocaleTarget.choose_none, Table.get?]
    rw [← hread]
    refine (hgerman 0 ?_).1 stored _ rfl hpresent ⟨_, rfl, by decide⟩
    simp [written, Json.at?_cons, Table.get?]
  · apply (hgerman 1 ?_).2
    · intro record v hrecord hat
      cases hrecord
      simp [stored, Json.at?_cons, Table.get?] at hat
    · simp [written, Json.at?_cons, Table.get?]

end Record

end HeadlessCms
