import HeadlessCms.Localization
import HeadlessCms.Proofs.Query.Addressing
import Mathlib.Data.List.Forall2

/-!
# Localized values along names

Picking the values of a locale and putting values under a locale both work at the end of a path.
What is stored under names that lead elsewhere stays the same (`Json.under_of_agreesOff`), and the
values at the end are replaced one by one (`LocaleChoice.under_pick`).

Besides the values that a reader is shown there are those that the locale of the reader has itself,
without a fallback and with nothing where it has none: `Record.alone`.
-/

namespace HeadlessCms

/-! ### Names that lead elsewhere -/

/-- Two lists of names of which neither goes on from the other. -/
def Path.Diverge (a b : List String) : Prop :=
  ¬ a <+: b ∧ ¬ b <+: a

instance (a b : List String) : Decidable (Path.Diverge a b) :=
  inferInstanceAs (Decidable (_ ∧ _))

theorem Path.Diverge.symm {a b : List String} (h : Diverge a b) : Diverge b a :=
  ⟨h.2, h.1⟩

/-- What diverges from a list of names diverges from all that go on from it. -/
theorem Path.Diverge.append {a b : List String} (h : Diverge a b) (rest : List String) :
    Diverge (a ++ rest) b := by
  refine ⟨fun hab => h.1 ((List.prefix_append a rest).trans hab), fun hba => ?_⟩
  rcases List.prefix_or_prefix_of_prefix hba (List.prefix_append a rest) with hba | hab
  · exact h.2 hba
  · exact h.1 hab

/-- Lists with the same first name diverge if the rests do. -/
theorem Path.diverge_cons_iff {name : String} {a b : List String} :
    Diverge (name :: a) (name :: b) ↔ Diverge a b := by
  simp [Diverge, List.cons_prefix_cons]

namespace Json

/-- The values under one name, in an object or in the objects that an array holds. -/
def children (name : String) (v : Json) : List Json :=
  v.spread.filterMap (member? name)

def childrenOfAll (name : String) (items : List Json) : List Json :=
  (spreadAll items).filterMap (member? name)

/-- What lies under a path lies under its rest in the children of the first name. -/
theorem under_cons (name : String) (rest : List String) (v : Json) :
    under (name :: rest) v = (children name v).flatMap (under rest) := rfl

@[simp] theorem children_obj (name : String) (members : Record) :
    children name (.obj members) = (Table.get? name members).toList := by
  simp only [children, spread, List.filterMap_cons, member?, List.filterMap_nil]
  cases Table.get? name members <;> rfl

@[simp] theorem children_arr (name : String) (items : List Json) :
    children name (.arr items) = childrenOfAll name items := rfl

@[simp] theorem childrenOfAll_nil (name : String) : childrenOfAll name [] = [] := rfl

@[simp] theorem childrenOfAll_cons (name : String) (v : Json) (more : List Json) :
    childrenOfAll name (v :: more) = children name v ++ childrenOfAll name more :=
  List.filterMap_append

/-- The children of items are those of each item, one after the other. -/
theorem childrenOfAll_eq_flatMap (name : String) (items : List Json) :
    childrenOfAll name items = items.flatMap (children name) := by
  induction items with
  | nil => rfl
  | cons v more ih => rw [childrenOfAll_cons, ih, List.flatMap_cons]

/-- Names that are no positions reach what is stored under them, and the path goes on from there. -/
theorem reach_append {a : List String} (h : ∀ name ∈ a, arrayIndex? name = none) (b : List String)
    (v : Json) : reach v (a ++ b) = (under a v).flatMap (reach · b) := by
  induction a generalizing v with
  | nil => simp [under]
  | cons name rest ih =>
    rw [List.cons_append, reach_cons (h name List.mem_cons_self), under_cons, List.flatMap_assoc]
    exact congrArg (List.flatMap · _) (funext (ih fun n hn => h n (.tail _ hn)))

/-- From an object a path goes on in the member with its first name. -/
theorem reach_obj_cons (members : Record) (name : String) (rest : List String) :
    reach (.obj members) (name :: rest) =
      (Table.get? name members).toList.flatMap (reach · rest) := by
  rw [reach, reachMember_eq]
  cases Table.get? name members <;> simp

/-- In a record the first name may be a position. -/
theorem reach_obj_append {a : List String} (hne : a ≠ [])
    (h : ∀ name ∈ a.tail, arrayIndex? name = none) (b : List String) (members : Record) :
    reach (.obj members) (a ++ b) = (under a (.obj members)).flatMap (reach · b) := by
  obtain ⟨name, rest, rfl⟩ := List.exists_cons_of_ne_nil hne
  rw [List.cons_append, reach_obj_cons, under_cons, children_obj, List.flatMap_assoc]
  exact congrArg (List.flatMap · _) (funext (reach_append h b))

/-- A path without positions reaches what lies under it. -/
theorem reach_obj_eq_under {names : List String}
    (h : ∀ name ∈ names.tail, arrayIndex? name = none) (members : Record) :
    reach (.obj members) names = under names (.obj members) := by
  cases names with
  | nil => simp [under]
  | cons name rest =>
    have hreach := reach_obj_append (List.cons_ne_nil name rest) h [] members
    simpa using hreach

/-- Records with the same value under a name reach the same by every path from there. -/
theorem reach_obj_congr {name : String} {members others : Record}
    (h : Table.get? name others = Table.get? name members) (rest : List String) :
    reach (.obj others) (name :: rest) = reach (.obj members) (name :: rest) := by
  rw [reach_obj_cons, reach_obj_cons, h]

/-- Only the member with the first name of a path matters for what lies under it. -/
theorem under_obj_congr {name : String} {members others : Record}
    (h : Table.get? name others = Table.get? name members) (rest : List String) :
    under (name :: rest) (.obj others) = under (name :: rest) (.obj members) := by
  rw [under_cons, under_cons, children_obj, children_obj, h]

/-- Two values that differ only in what is stored under given names. -/
def AgreesOff : List String → Json → Json → Prop
  | [], _, _ => True
  | head :: rest, v, w =>
    (∀ name, name ≠ head → children name w = children name v) ∧
      (rest ≠ [] → List.Forall₂ (AgreesOff rest) (children head v) (children head w))

/-- **Names that lead elsewhere lead to the same values.** -/
theorem under_of_agreesOff {a names : List String} {v w : Json} (h : AgreesOff a v w)
    (hdiverge : Path.Diverge a names) : under names w = under names v := by
  induction a generalizing names v w with
  | nil => exact absurd (List.nil_prefix) hdiverge.1
  | cons head rest ih =>
    obtain ⟨hother, hhead⟩ := h
    cases names with
    | nil => exact absurd (List.nil_prefix) hdiverge.2
    | cons name more =>
      rw [under_cons, under_cons]
      by_cases hname : name = head
      · subst hname
        rw [Path.diverge_cons_iff] at hdiverge
        have hrest : rest ≠ [] := by
          rintro rfl
          exact hdiverge.1 List.nil_prefix
        have hpairs := hhead hrest
        generalize children name v = vs at hpairs
        generalize children name w = ws at hpairs
        induction hpairs with
        | nil => rfl
        | cons hvw _ ihs => rw [List.flatMap_cons, List.flatMap_cons, ih hvw hdiverge, ihs]
      · rw [hother name hname]

end Json

/-! ### Picking -/

namespace LocaleChoice

variable (l : LocaleChoice)

/-- Picking changes the member with the first name of the path, and no other. -/
theorem get?_pickMember (name : String) (members : Record) (head : String) (rest : List String) :
    Table.get? name (l.pickMember members head rest) =
      if name = head then (Table.get? head members).map (l.pick · rest)
      else Table.get? name members := by
  induction members with
  | nil => simp [pickMember, Table.get?]
  | cons m more ih =>
    obtain ⟨key, v⟩ := m
    simp only [pickMember]
    grind [Table.get?]

mutual

/-- Picking replaces the values under its first name. -/
theorem children_pick (name head : String) (rest : List String) : (v : Json) →
    Json.children name (l.pick v (head :: rest)) =
      if name = head then (Json.children head v).map (l.pick · rest) else Json.children name v
  | .obj members => by
    rw [pick, Json.children_obj, get?_pickMember, Json.children_obj, Json.children_obj]
    split
    · cases Table.get? head members <;> rfl
    · rfl
  | .arr items => by
    rw [pick, Json.children_arr, Json.children_arr, Json.children_arr]
    exact childrenOfAll_pickItems name head rest items
  | .null | .bool _ | .num _ | .str _ => by
    simp only [pick]
    split <;> rfl

/-- In the items of a list, too, picking changes the children with the first name only. -/
theorem childrenOfAll_pickItems (name head : String) (rest : List String) : (items : List Json) →
    Json.childrenOfAll name (l.pickItems items (head :: rest)) =
      if name = head then (Json.childrenOfAll head items).map (l.pick · rest)
      else Json.childrenOfAll name items
  | [] => by simp [pickItems]
  | v :: more => by
    rw [pickItems, Json.childrenOfAll_cons, children_pick name head rest v,
      childrenOfAll_pickItems name head rest more, Json.childrenOfAll_cons, Json.childrenOfAll_cons]
    split <;> simp

end

/-- Picking changes nothing off its path. -/
theorem agreesOff_pick (names : List String) (v : Json) :
    Json.AgreesOff names v (l.pick v names) := by
  induction names generalizing v with
  | nil => trivial
  | cons head rest ih =>
    refine ⟨fun name hname => ?_, fun _ => ?_⟩
    · rw [children_pick, if_neg hname]
    · rw [children_pick, if_pos rfl, List.forall₂_map_right_iff]
      exact List.forall₂_same.2 fun u _ => ih u

/-- **What is shown at and below a localized path** is what has been picked there. -/
theorem under_pick (names rest : List String) (v : Json) :
    Json.under (names ++ rest) (l.pick v names) =
      (Json.under names v).flatMap fun u => Json.under rest (l.pickHere u) := by
  induction names generalizing v with
  | nil => simp [pick, Json.under]
  | cons head names ih =>
    rw [List.cons_append, Json.under_cons, children_pick, if_pos rfl, List.flatMap_map,
      Json.under_cons, List.flatMap_assoc]
    exact congrArg (List.flatMap · _) (funext ih)

/-! ### The values of the locale itself -/

/-- What the chosen locale itself has of a localized value.  Values that are no object of locales
stay. -/
def ownHere? : Json → Option Json
  | .obj members =>
    if isLocaleMap l.locales members then Table.get? l.locale members else some (.obj members)
  | v => some v

mutual

/-- A value with the localized values below it, at the end of a path, replaced by what the locale
itself has of them.  Where it has nothing there is no value. -/
def own? (l : LocaleChoice) : Json → List String → Option Json
  | v, [] => l.ownHere? v
  | .obj members, head :: rest => some (.obj (ownMember l members head rest))
  | .arr items, head :: rest => some (.arr (ownItems l items (head :: rest)))
  | v, _ :: _ => some v

def ownMember (l : LocaleChoice) : List (String × Json) → String → List String →
    List (String × Json)
  | [], _, _ => []
  | (key, v) :: more, head, rest =>
    if key = head then
      match l.own? v rest with
      | some w => (key, w) :: more
      | none => Table.erase key more
    else (key, v) :: ownMember l more head rest

def ownItems (l : LocaleChoice) : List Json → List String → List Json
  | [], _ => []
  | v :: more, segments => (l.own? v segments).toList ++ ownItems l more segments

end

/-- A record with the localized values at a path replaced by what the locale itself has of them. -/
def ownAt (record : Record) (path : String) : Record :=
  match Path.segments path with
  | [] => record
  | head :: rest => l.ownMember record head rest

/-- Of the member with the first name of the path remains what the locale itself has. -/
theorem get?_ownMember (name : String) (members : Record) (head : String) (rest : List String) :
    Table.get? name (l.ownMember members head rest) =
      if name = head then (Table.get? head members).bind (l.own? · rest)
      else Table.get? name members := by
  induction members with
  | nil => simp [ownMember, Table.get?]
  | cons m more ih =>
    obtain ⟨key, v⟩ := m
    simp only [ownMember]
    by_cases hkey : key = head
    · subst hkey
      rw [if_pos rfl]
      cases h : l.own? v rest with
      | none => simp only [Table.get?_erase, Table.get?]; grind
      | some w => simp only [Table.get?]; grind
    · rw [if_neg hkey]
      grind [Table.get?]

mutual

/-- What the locale itself has replaces the values under the first name. -/
theorem children_own (name head : String) (rest : List String) : (v : Json) →
    (l.own? v (head :: rest)).toList.flatMap (Json.children name) =
      if name = head then (Json.children head v).filterMap (l.own? · rest)
      else Json.children name v
  | .obj members => by
    simp only [own?, Option.toList_some, List.flatMap_singleton, Json.children_obj, get?_ownMember]
    split
    · cases Table.get? head members with
      | none => rfl
      | some v => simp only [Option.bind_some, Option.toList_some, List.filterMap_cons]; grind
    · rfl
  | .arr items => by
    simp only [own?, Option.toList_some, List.flatMap_singleton, Json.children_arr]
    exact childrenOfAll_ownItems name head rest items
  | .null | .bool _ | .num _ | .str _ => by
    simp only [own?]
    split <;> rfl

/-- The children of what the locale itself has in a list are what it has of the children. -/
theorem childrenOfAll_ownItems (name head : String) (rest : List String) : (items : List Json) →
    Json.childrenOfAll name (l.ownItems items (head :: rest)) =
      if name = head then (Json.childrenOfAll head items).filterMap (l.own? · rest)
      else Json.childrenOfAll name items
  | [] => by simp [ownItems]
  | v :: more => by
    have hv := children_own name head rest v
    have hmore := childrenOfAll_ownItems name head rest more
    rw [Json.childrenOfAll_eq_flatMap] at hmore ⊢
    rw [ownItems, List.flatMap_append, hv, hmore, Json.childrenOfAll_cons, Json.childrenOfAll_cons]
    split
    · rw [List.filterMap_append]
    · rfl

end

/-- Above a localized value there always remains something. -/
theorem exists_own (v : Json) (head : String) (rest : List String) :
    ∃ w, l.own? v (head :: rest) = some w := by
  cases v <;> simp [own?]

/-- What remains agrees with the value off the path. -/
theorem agreesOff_own {names : List String} {v w : Json} (h : l.own? v names = some w) :
    Json.AgreesOff names v w := by
  induction names generalizing v w with
  | nil => trivial
  | cons head rest ih =>
    have hchildren : ∀ name, Json.children name w =
        if name = head then (Json.children head v).filterMap (l.own? · rest)
        else Json.children name v := by
      intro name
      rw [← children_own, h, Option.toList_some, List.flatMap_singleton]
    refine ⟨fun name hname => ?_, fun hrest => ?_⟩
    · rw [hchildren, if_neg hname]
    · rw [hchildren, if_pos rfl]
      obtain ⟨next, more, rfl⟩ := List.exists_cons_of_ne_nil hrest
      induction Json.children head v with
      | nil => exact .nil
      | cons u us ihs =>
        obtain ⟨w, hw⟩ := l.exists_own u next more
        have hcons : (u :: us).filterMap (l.own? · (next :: more)) =
            w :: us.filterMap (l.own? · (next :: more)) := List.filterMap_cons_some hw
        rw [hcons]
        exact .cons (ih hw) ihs

/-- **What the locale itself has at and below a localized path.** -/
theorem under_own (names rest : List String) (v : Json) :
    (l.own? v names).toList.flatMap (Json.under (names ++ rest)) =
      (Json.under names v).flatMap fun u => (l.ownHere? u).toList.flatMap (Json.under rest) := by
  induction names generalizing v with
  | nil => simp [own?, Json.under]
  | cons head names ih =>
    have hcons : Json.under (head :: names ++ rest) = fun w =>
        (Json.children head w).flatMap (Json.under (names ++ rest)) := rfl
    rw [hcons, ← List.flatMap_assoc, children_own, if_pos rfl, List.filterMap_eq_flatMap_toList,
      List.flatMap_assoc, Json.under_cons, List.flatMap_assoc]
    exact congrArg (List.flatMap · _) (funext ih)

end LocaleChoice

/-! ### Putting under a locale -/

namespace LocaleTarget

variable (t : LocaleTarget)

/-- Wrapping changes the member with the first name of the path, and no other. -/
theorem get?_wrapMember (stored : Option Json) (name : String) (members : Record) (head : String)
    (rest : List String) :
    Table.get? name (t.wrapMember stored members head rest) =
      if name = head then (Table.get? head members).map (t.wrap stored · rest)
      else Table.get? name members := by
  induction members with
  | nil => simp [wrapMember, Table.get?]
  | cons m more ih =>
    obtain ⟨key, v⟩ := m
    simp only [wrapMember]
    grind [Table.get?]

/-- How a value under a name is related to the one that was there. -/
def Wraps (name head : String) (rest : List String) (v w : Json) : Prop :=
  if name = head then ∃ stored, w = t.wrap stored v rest else v = w

mutual

/-- Writing replaces the values under its first name, each beside what is stored in its place. -/
theorem children_wrap (name head : String) (rest : List String) (stored : Option Json) :
    (v : Json) → List.Forall₂ (t.Wraps name head rest) (Json.children name v)
      (Json.children name (t.wrap stored v (head :: rest)))
  | .obj members => by
    rw [wrap, Json.children_obj, Json.children_obj, get?_wrapMember]
    by_cases hname : name = head
    · subst hname
      rw [if_pos rfl]
      cases Table.get? name members with
      | none => exact .nil
      | some v => exact .cons (by rw [Wraps, if_pos rfl]; exact ⟨_, rfl⟩) .nil
    · rw [if_neg hname]
      exact List.forall₂_same.2 fun u _ => by rw [Wraps, if_neg hname]
  | .arr items => by
    rw [wrap, Json.children_arr, Json.children_arr]
    exact childrenOfAll_wrapItems name head rest stored 0 items
  | .null | .bool _ | .num _ | .str _ => by
    simp only [wrap]
    exact .nil

/-- In the items of a list, too, wrapping changes the children with the first name only. -/
theorem childrenOfAll_wrapItems (name head : String) (rest : List String) (stored : Option Json)
    (i : Nat) : (items : List Json) →
    List.Forall₂ (t.Wraps name head rest) (Json.childrenOfAll name items)
      (Json.childrenOfAll name (t.wrapItems stored i items (head :: rest)))
  | [] => .nil
  | v :: more => by
    rw [wrapItems, Json.childrenOfAll_cons, Json.childrenOfAll_cons]
    exact List.rel_append (children_wrap name head rest _ v)
      (childrenOfAll_wrapItems name head rest stored (i + 1) more)

end

/-- Wrapping changes nothing off its path. -/
theorem agreesOff_wrap (stored : Option Json) (names : List String) (v : Json) :
    Json.AgreesOff names v (t.wrap stored v names) := by
  induction names generalizing v stored with
  | nil => trivial
  | cons head rest ih =>
    refine ⟨fun name hname => ?_, fun _ => ?_⟩
    · have hpairs := t.children_wrap name head rest stored v
      have hsame : List.Forall₂ (· = ·) (Json.children name v)
          (Json.children name (t.wrap stored v (head :: rest))) :=
        hpairs.imp fun u w huw => by rwa [Wraps, if_neg hname] at huw
      rw [List.forall₂_eq_eq_eq] at hsame
      exact hsame.symm
    · have hpairs := t.children_wrap head head rest stored v
      refine hpairs.imp fun u w huw => ?_
      rw [Wraps, if_pos rfl] at huw
      obtain ⟨stored', rfl⟩ := huw
      exact ih stored' u

/-- **Writing at a path puts each value there under the locale,** beside what is stored in its
place. -/
theorem forall₂_under_wrap (stored : Option Json) (names : List String) (v : Json) :
    List.Forall₂ (fun u w => ∃ stored', w = t.wrapHere stored' u) (Json.under names v)
      (Json.under names (t.wrap stored v names)) := by
  induction names generalizing v stored with
  | nil =>
    rw [wrap]
    exact .cons ⟨stored, rfl⟩ .nil
  | cons head rest ih =>
    rw [Json.under_cons, Json.under_cons]
    refine List.rel_flatMap (t.children_wrap head head rest stored v) fun u w huw => ?_
    rw [Wraps, if_pos rfl] at huw
    obtain ⟨stored', rfl⟩ := huw
    exact ih stored' u

/-- All that lies at the path after wrapping has been wrapped. -/
theorem mem_under_wrap {stored : Option Json} {names : List String} {v w : Json}
    (h : w ∈ Json.under names (t.wrap stored v names)) : ∃ stored' u, w = t.wrapHere stored' u := by
  have hpairs := t.forall₂_under_wrap stored names v
  generalize Json.under names v = us at hpairs
  generalize Json.under names (t.wrap stored v names) = ws at hpairs h
  induction hpairs with
  | nil => cases h
  | cons hx _ ih =>
    cases h with
    | head => exact ⟨_, _, hx.choose_spec⟩
    | tail _ hw => exact ih hw

end LocaleTarget

end HeadlessCms
