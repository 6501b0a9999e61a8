import HeadlessCms.Proofs.Document.Shapes

/-!
# Paths of clauses

A clause names a path in the documents that readers are shown.  It is decided on stored documents and
on stored versions, where the path is another one: the locale stands behind a localized path, and in a
version everything lies one name deeper (`Store.storedPath_inVersion`).  A path is steady if nothing
but this happens to it (`Path.Steady`).
-/

namespace HeadlessCms

namespace Path

/-! ### Paths in versions -/

/-- A start without underscores stays as it is in a path. -/
theorem dataChars_append_of_notMem {start : List Char} (h : '_' ∉ start) (s : List Char) :
    dataChars (start ++ s) = start ++ dataChars s := by
  induction start with
  | nil => rfl
  | cons c start ih =>
    simp only [List.mem_cons, not_or] at h
    rw [List.cons_append, dataChars_cons_of_ne (Ne.symm h.1), ih h.2, List.cons_append]

/-- Clauses on versions have the path of the data below the version. -/
theorem toData_version (path : String) : toData ("version." ++ path) = "version." ++ toData path := by
  have hstart : '_' ∉ "version.".toList := by decide
  have hend : (toData path).toList = dataChars path.toList := String.toList_ofList
  apply String.toList_inj.1
  calc (toData ("version." ++ path)).toList
      = dataChars ("version.".toList ++ path.toList) := by
        rw [← String.toList_append]
        exact String.toList_ofList
    _ = "version.".toList ++ (toData path).toList := by
        rw [hend]
        exact dataChars_append_of_notMem hstart _
    _ = ("version." ++ toData path).toList := String.toList_append.symm

/-- Cutting a path leaves it alone if it puts no point into it. -/
theorem dataChars_eq_self_of_point {s : List Char} (h : '.' ∉ dataChars s) : dataChars s = s := by
  induction s using dataChars.induct with
  | case1 rest ih => simp [dataChars] at h
  | case2 c rest hpair ih =>
    rw [dataChars] at h ⊢
    · simp only [List.mem_cons, not_or] at h
      rw [ih h.2]
    · exact hpair
    · exact hpair
  | case3 => simp [dataChars]

/-- Only `id` itself names the id. -/
theorem eq_id_of_segments {path : String} (h : segments (toData path) = ["id"]) : path = "id" := by
  have hchars : Text.splitOn '.' (dataChars path.toList) = ["id".toList] := by
    have hmap := congrArg (List.map String.toList) h
    simpa only [segments, toData, List.map_map, Function.comp_def, String.toList_ofList,
      List.map_id', List.map_cons, List.map_nil] using hmap
  have hjoin : dataChars path.toList = "id".toList := by
    rw [← Text.join_splitOn '.' (dataChars path.toList), hchars, Text.join]
  have hpoint : '.' ∉ dataChars path.toList := by
    rw [hjoin]
    decide
  exact String.toList_inj.1 ((dataChars_eq_self_of_point hpoint).symm.trans hjoin)

/-- Such a path has one more name in front. -/
theorem segments_version (path : String) : segments ("version." ++ path) = "version" :: segments path := by
  have hsplit : ("version." ++ path).toList = "version".toList ++ '.' :: path.toList := by
    rw [String.toList_append]
    rfl
  rw [segments_append_point hsplit, segments_of_notMem (by decide)]
  rfl

/-- Localizing it is localizing the path of the data. -/
theorem inLocale_version (localized : List String) (locale path : String) :
    inLocale (localized.map ("version." ++ ·)) locale ("version." ++ path) =
      "version." ++ inLocale localized locale path := by
  induction localized with
  | nil => rfl
  | cons above more ih =>
    have hdrop : Text.dropStart? ("version." ++ above).toList ("version." ++ path).toList =
        Text.dropStart? above.toList path.toList := by
      rw [String.toList_append, String.toList_append]
      rfl
    have hself : "version." ++ path = "version." ++ above ↔ path = above :=
      String.append_right_inj _
    rw [List.map_cons]
    unfold inLocale
    simp only [hself, hdrop]
    split
    · simp only [String.append_assoc]
    · split
      · simp only [String.append_assoc]
      · exact ih

end Path

/-- **In a version a path goes where it goes in the document,** one name deeper. -/
theorem Store.storedPath_inVersion (localized : List String) (locale : Option String)
    (path : String) :
    storedPath (localized.map ("version." ++ ·)) locale ("version." ++ path) =
      "version." ++ storedPath localized locale path := by
  unfold storedPath
  simp only [Path.toData_version]
  cases locale with
  | none => rfl
  | some l =>
    dsimp only
    split
    · rfl
    · exact Path.inLocale_version localized l _

/-! ### Steady paths -/

namespace Path

/-- A path at which a clause sees what is shown: its first name is none that the store keeps to
itself or, where drafts are shown, that drafts show in another way; and it is clear of localized
paths, of which it goes on from none that starts with a name of the system. -/
structure Steady (localized : List String) (draft : Bool) (path : String) : Prop where
  clear : Clear localized (segments (toData path))
  kept : ∀ name ∈ (segments (toData path)).head?,
    name ≠ Record.sequenceField ∧ name ≠ Record.revisionField
  draft : draft = true → ∀ name ∈ (segments (toData path)).head?, name ≠ "createdAt"
  field : ∀ a ∈ localized, segments a <+: segments (toData path) →
    ∀ name ∈ (segments (toData path)).head?, name ∉ Record.systemNames

variable {shape : Shape} {draft : Bool} {path : String}

/-- The localized path at or above a steady one is kept by locale. -/
theorem Steady.localizes (h : Steady shape.paths draft path) {a : String} (ha : a ∈ shape.paths)
    (hstart : segments a <+: segments (toData path)) : shape.Localizes a where
  mem := ha
  lone := h.clear.lone a ha hstart
  head := by
    rw [head?_eq_of_start (segments_ne_nil a) hstart]
    exact h.field a ha hstart

/-- In a locale a path starts with the same name. -/
theorem head?_segments_inLocale (localized : List String) (locale path : String) :
    (segments (inLocale localized locale path)).head? = (segments path).head? := by
  induction localized with
  | nil => rfl
  | cons above more ih =>
    have hstart {whole below : String} (h : whole.toList = above.toList ++ '.' :: below.toList) :
        (segments whole).head? = (segments above).head? :=
      (head?_eq_of_start (segments_ne_nil above) ⟨_, (segments_append_point h).symm⟩).symm
    unfold inLocale
    split
    · next hself =>
      subst hself
      exact @hstart _ locale (by simp)
    · split
      · next below heq =>
        rw [@hstart path (String.ofList below)]
        · exact @hstart _ (locale ++ "." ++ String.ofList below) (by simp)
        · rw [Text.dropStart?_eq_some_iff.1 heq, String.toList_ofList]
      · exact ih

/-- A steady path that starts with a name of the system is the same in every locale. -/
theorem Steady.storedPath_eq {localized : List String} (h : Steady localized draft path)
    {name : String} (hhead : (segments (toData path)).head? = some name)
    (hname : name ∈ Record.systemNames) (locale : Option String) :
    Store.storedPath localized locale path = toData path := by
  have hself (l : String) : inLocale localized l (toData path) = toData path := by
    refine inLocale_eq_self fun a ha habove => ?_
    rw [atOrBelow_iff] at habove
    exact h.field a ha habove name hhead hname
  unfold Store.storedPath
  cases locale with
  | none => rfl
  | some l =>
    dsimp only
    rw [hself, ite_self]

end Path

/-- The stored path starts with the same name. -/
theorem Store.head?_segments_storedPath (localized : List String) (locale : Option String)
    (path : String) :
    (Path.segments (storedPath localized locale path)).head? =
      (Path.segments (Path.toData path)).head? := by
  unfold storedPath
  cases locale with
  | none => rfl
  | some l =>
    dsimp only
    split
    · rfl
    · exact Path.head?_segments_inLocale localized l _

end HeadlessCms
