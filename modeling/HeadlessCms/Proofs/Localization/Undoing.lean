import HeadlessCms.Proofs.Localization.RoundTrip

/-!
# Undoing the writing of a member

Writing and reading a record in a locale go through the localized paths one by one, each path changing
the member that it begins with.  So what becomes of a member is decided by the paths that begin with its
name (`Record.get?_foldl`).  If none of them goes on from another one, reading undoes the writing in the
same locale, however often a path is listed (`Record.get?_foldl_pickAt_mergeLocalized`).
-/

namespace HeadlessCms

/-! ### Picking at two paths -/

namespace LocaleChoice

variable {l : LocaleChoice}

mutual

/-- **Picking at one path and at a diverging one commute.** -/
theorem pick_comm {x y : String} {a b : List String} (h : Path.Diverge (x :: a) (y :: b)) :
    (v : Json) → l.pick (l.pick v (y :: b)) (x :: a) = l.pick (l.pick v (x :: a)) (y :: b)
  | .obj members => by
    simp only [pick]
    rw [pickMember_comm h members]
  | .arr items => by
    simp only [pick]
    rw [pickItems_comm h items]
  | .null | .bool _ | .num _ | .str _ => by simp only [pick]

/-- Picks at diverging paths commute in the members of an object. -/
theorem pickMember_comm {x y : String} {a b : List String} (h : Path.Diverge (x :: a) (y :: b)) :
    (members : List (String × Json)) →
    l.pickMember (l.pickMember members y b) x a = l.pickMember (l.pickMember members x a) y b
  | [] => rfl
  | (key, v) :: more => by
    have hmore := pickMember_comm h more
    by_cases hy : key = y
    · by_cases hx : key = x
      · -- Both paths go on in this member, and diverge below it.
        have hbelow := Path.diverge_cons_iff.1 ((hx.symm.trans hy) ▸ h)
        obtain ⟨x', a, rfl⟩ := List.exists_cons_of_ne_nil fun ha : a = [] =>
          hbelow.1 (ha ▸ List.nil_prefix)
        obtain ⟨y', b, rfl⟩ := List.exists_cons_of_ne_nil fun hb : b = [] =>
          hbelow.2 (hb ▸ List.nil_prefix)
        simp only [pickMember, if_pos hx, if_pos hy]
        rw [pick_comm hbelow v]
      · simp only [pickMember, if_pos hy, if_neg hx]
    · by_cases hx : key = x
      · simp only [pickMember, if_pos hx, if_neg hy]
      · simp only [pickMember, if_neg hx, if_neg hy, hmore]

/-- Picks at diverging paths commute in the items of a list. -/
theorem pickItems_comm {x y : String} {a b : List String} (h : Path.Diverge (x :: a) (y :: b)) :
    (items : List Json) →
    l.pickItems (l.pickItems items (y :: b)) (x :: a) =
      l.pickItems (l.pickItems items (x :: a)) (y :: b)
  | [] => rfl
  | v :: more => by
    simp only [pickItems]
    rw [pick_comm h v, pickItems_comm h more]

end

end LocaleChoice

/-! ### Paths of which none goes on from another -/

/-- Whether a path begins with a name. -/
def Path.startsAt (name path : String) : Bool :=
  (Path.segments path).head? == some name

/-- Two paths that are the same or diverge. -/
def Path.Apart (a b : String) : Prop :=
  a = b ∨ Path.Diverge (Path.segments a) (Path.segments b)

namespace Record

variable {l : LocaleChoice} {t : LocaleTarget} {paths : List String}

/-- Picks at diverging paths commute in a record. -/
theorem pickAt_comm {a b : String} (h : Path.Apart a b) (r : Record) :
    l.pickAt (l.pickAt r b) a = l.pickAt (l.pickAt r a) b := by
  rcases h with rfl | h
  · rfl
  · apply Json.obj.inj
    rw [LocaleChoice.obj_pickAt, LocaleChoice.obj_pickAt, LocaleChoice.obj_pickAt,
      LocaleChoice.obj_pickAt]
    obtain ⟨x, a', ha⟩ := List.exists_cons_of_ne_nil (Path.segments_ne_nil a)
    obtain ⟨y, b', hb⟩ := List.exists_cons_of_ne_nil (Path.segments_ne_nil b)
    rw [ha, hb] at h ⊢
    exact LocaleChoice.pick_comm h _

/-- A pick may be taken off before all picks that its path diverges from. -/
theorem pickAt_foldl {a : String} (h : ∀ b ∈ paths, Path.Apart a b) (r : Record) :
    l.pickAt (paths.foldl l.pickAt r) a = paths.foldl l.pickAt (l.pickAt r a) := by
  induction paths generalizing r with
  | nil => rfl
  | cons b rest ih =>
    obtain ⟨hb, hrest⟩ := List.forall_mem_cons.1 h
    rw [List.foldl_cons, List.foldl_cons, ih hrest, pickAt_comm hb]

/-- Of the writing at a path there is nothing left once it has been picked there, whatever has been
picked before. -/
theorem pickAt_foldl_wrapAt (hlocale : t.locale ∈ t.locales) {a : String}
    (h : ∀ b ∈ paths, Path.Apart a b) (existing : Option Record) (r : Record) :
    LocaleChoice.pickAt ⟨t.locales, t.locale, none⟩
      (paths.foldl (LocaleChoice.pickAt ⟨t.locales, t.locale, none⟩) (t.wrapAt existing r a)) a =
        paths.foldl (LocaleChoice.pickAt ⟨t.locales, t.locale, none⟩) r := by
  rw [pickAt_foldl h, pickAt_wrapAt hlocale]

/-- **Reading undoes the writing in the same locale,** if no path goes on from another one. -/
theorem foldl_pickAt_mergeLocalized_of_apart (hlocale : t.locale ∈ t.locales)
    (hpaths : ∀ a ∈ paths, ∀ b ∈ paths, Path.Apart a b) (existing : Option Record)
    (incoming : Record) :
    paths.foldl (LocaleChoice.pickAt ⟨t.locales, t.locale, none⟩)
      (mergeLocalized t existing paths incoming) = incoming := by
  induction paths using List.reverseRecOn with
  | nil => rfl
  | append_singleton before a ih =>
    have hbefore : ∀ b ∈ before, Path.Apart a b := fun b hb =>
      hpaths a (by simp) b (List.mem_append_left _ hb)
    have hrest : ∀ b ∈ before, ∀ d ∈ before, Path.Apart b d := fun b hb d hd =>
      hpaths b (List.mem_append_left _ hb) d (List.mem_append_left _ hd)
    rw [mergeLocalized, List.foldl_append, List.foldl_append]
    exact (pickAt_foldl_wrapAt hlocale hbefore existing _).trans (ih hrest)

/-! ### One member -/

/-- A change at a path that looks at the member it begins with, and changes no other. -/
structure ActsByName (change : Record → String → Record) : Prop where
  congr : ∀ {name : String} {r r' : Record} (path : String),
    Table.get? name r = Table.get? name r' →
      Table.get? name (change r path) = Table.get? name (change r' path)
  beside : ∀ {name : String} (r : Record) {path : String},
    Path.startsAt name path = false → Table.get? name (change r path) = Table.get? name r

/-- **What becomes of a member is decided by the paths that begin with its name.** -/
theorem get?_foldl {change : Record → String → Record} (h : ActsByName change) {name : String}
    {r r' : Record} (hsame : Table.get? name r = Table.get? name r') :
    Table.get? name (paths.foldl change r) =
      Table.get? name ((paths.filter (Path.startsAt name)).foldl change r') := by
  induction paths generalizing r r' with
  | nil => exact hsame
  | cons path rest ih =>
    rw [List.foldl_cons]
    cases hstart : Path.startsAt name path with
    | true =>
      rw [List.filter_cons_of_pos hstart, List.foldl_cons]
      exact ih (h.congr path hsame)
    | false =>
      rw [List.filter_cons_of_neg (Bool.eq_false_iff.1 hstart)]
      exact ih ((h.beside r hstart).trans hsame)

/-- A pick changes the member that its path starts at, and no other. -/
theorem get?_pickAt (name : String) (r : Record) (path : String) :
    Table.get? name (l.pickAt r path) =
      if Path.startsAt name path then
        (Table.get? name r).map (l.pick · (Path.segments path).tail)
      else Table.get? name r := by
  unfold LocaleChoice.pickAt Path.startsAt
  cases Path.segments path with
  | nil => rfl
  | cons head rest =>
    dsimp only
    rw [l.get?_pickMember]
    by_cases hname : name = head
    · subst hname
      simp
    · simp [hname, Ne.symm hname]

/-- A wrapping changes the member that its path starts at, beside the stored one, and no other. -/
theorem get?_wrapAt (existing : Option Record) (name : String) (r : Record) (path : String) :
    Table.get? name (t.wrapAt existing r path) =
      if Path.startsAt name path then
        (Table.get? name r).map
          (t.wrap (existing.bind (Table.get? name)) · (Path.segments path).tail)
      else Table.get? name r := by
  unfold LocaleTarget.wrapAt Path.startsAt
  cases Path.segments path with
  | nil => rfl
  | cons head rest =>
    dsimp only
    rw [t.get?_wrapMember]
    by_cases hname : name = head
    · subst hname
      simp
    · simp [hname, Ne.symm hname]

/-- Picks act name by name. -/
theorem actsByName_pickAt (l : LocaleChoice) : ActsByName l.pickAt where
  congr path h := by rw [get?_pickAt, get?_pickAt, h]
  beside r _ h := by rw [get?_pickAt, h, if_neg Bool.false_ne_true]

/-- Wrappings act name by name. -/
theorem actsByName_wrapAt (t : LocaleTarget) (existing : Option Record) :
    ActsByName (t.wrapAt existing) where
  congr path h := by rw [get?_wrapAt, get?_wrapAt, h]
  beside r _ h := by rw [get?_wrapAt, h, if_neg Bool.false_ne_true]

/-- **A member reads in its own locale as it was written,** if none of the paths that begin with its
name goes on from another one.  It is read from any record that has the written member. -/
theorem get?_foldl_pickAt_mergeLocalized (hlocale : t.locale ∈ t.locales) {name : String}
    (hpaths : ∀ a ∈ paths, ∀ b ∈ paths, Path.startsAt name a = true → Path.Apart a b)
    (existing : Option Record) (incoming : Record) {record : Record}
    (hrecord : Table.get? name record =
      Table.get? name (mergeLocalized t existing paths incoming)) :
    Table.get? name (paths.foldl (LocaleChoice.pickAt ⟨t.locales, t.locale, none⟩) record) =
      Table.get? name incoming := by
  have hown : ∀ a ∈ paths.filter (Path.startsAt name), ∀ b ∈ paths.filter (Path.startsAt name),
      Path.Apart a b := by
    intro a ha b hb
    obtain ⟨ha, hstart⟩ := List.mem_filter.1 ha
    exact hpaths a ha b (List.mem_filter.1 hb).1 hstart
  have hwritten : Table.get? name record = Table.get? name
      ((paths.filter (Path.startsAt name)).foldl (t.wrapAt existing) incoming) :=
    hrecord.trans (get?_foldl (actsByName_wrapAt t existing) rfl)
  rw [get?_foldl (actsByName_pickAt _) hwritten]
  exact congrArg _ (foldl_pickAt_mergeLocalized_of_apart hlocale hown existing incoming)

end Record

end HeadlessCms
