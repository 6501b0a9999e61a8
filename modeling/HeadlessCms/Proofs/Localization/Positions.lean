import HeadlessCms.Proofs.Localization.Records

/-!
# Localized values at positions

A position in a value is a list of steps, each down to a member of an object or to an item of an array.
The names of a path lead to the positions at which the path ends (`Path.Leads`): they name the members
on the way, and on the way any items may be taken.

Picking and putting under a locale work at the positions to which their names lead
(`LocaleChoice.at?_pick`, `LocaleTarget.at?_wrap`), and nothing changes at a position to which diverging
names lead (`Json.at?_foldl`).
-/

namespace HeadlessCms

namespace Json

/-- One step down into a value. -/
inductive Step where
  /-- To a member of an object. -/
  | member (name : String)
  /-- To an item of an array. -/
  | item (i : Nat)
deriving Repr

/-- The value one step down. -/
def down? : Step → Json → Option Json
  | .member name, .obj members => Table.get? name members
  | .item i, .arr items => items[i]?
  | _, _ => none

/-- The value at a position. -/
def at? : List Step → Json → Option Json
  | [], v => some v
  | step :: rest, v => (down? step v).bind (at? rest)

@[simp] theorem at?_nil (v : Json) : at? [] v = some v := rfl

/-- A place is reached step by step. -/
theorem at?_cons (step : Step) (rest : List Step) (v : Json) :
    at? (step :: rest) v = (down? step v).bind (at? rest) := rfl

@[simp] theorem down?_member_obj (name : String) (members : Record) :
    down? (.member name) (.obj members) = Table.get? name members := rfl

@[simp] theorem down?_item_arr (i : Nat) (items : List Json) :
    down? (.item i) (.arr items) = items[i]? := rfl

end Json

open Json (Step)

/-- Names lead to a position if it goes down to a member of each name in turn, with any items on the
way, and ends right below the last name. -/
def Path.Leads : List String → List Step → Prop
  | [], position => position = []
  | _ :: _, [] => False
  | head :: rest, .member name :: position => name = head ∧ Leads rest position
  | head :: rest, .item _ :: position => Leads (head :: rest) position

/-! ### Stored values -/

/-- The stored member beside a value is what one step by its name leads to. -/
theorem storedMember_eq (name : String) (stored : Option Json) :
    storedMember name stored = stored.bind (Json.down? (.member name)) := by
  cases stored with
  | none => rfl
  | some v => cases v <;> rfl

/-- The stored item beside a value is what one step by its position leads to. -/
theorem storedItem_eq (i : Nat) (stored : Option Json) :
    storedItem i stored = stored.bind (Json.down? (.item i)) := by
  cases stored with
  | none => rfl
  | some v => cases v <;> rfl

/-! ### One step -/

namespace LocaleChoice

variable (l : LocaleChoice)

/-- Picking in the items of a list keeps their positions. -/
theorem getElem?_pickItems (items : List Json) (segments : List String) (i : Nat) :
    (l.pickItems items segments)[i]? = items[i]?.map (l.pick · segments) := by
  induction items generalizing i with
  | nil => simp [pickItems]
  | cons v more ih =>
    cases i with
    | zero => rfl
    | succ i => simpa [pickItems] using ih i

/-- Picking goes on in the member with the first name of the path, and leaves all others. -/
theorem down?_pick_member (name head : String) (rest : List String) (v : Json) :
    Json.down? (.member name) (l.pick v (head :: rest)) =
      if name = head then (Json.down? (.member head) v).map (l.pick · rest)
      else Json.down? (.member name) v := by
  cases v with
  | obj members => exact l.get?_pickMember name members head rest
  | _ => simp [pick, Json.down?]

/-- In a list, picking goes on in every item, with the same path. -/
theorem down?_pick_item (i : Nat) (head : String) (rest : List String) (v : Json) :
    Json.down? (.item i) (l.pick v (head :: rest)) =
      (Json.down? (.item i) v).map (l.pick · (head :: rest)) := by
  cases v with
  | arr items => exact l.getElem?_pickItems items (head :: rest) i
  | _ => simp [pick, Json.down?]

end LocaleChoice

namespace LocaleTarget

variable (t : LocaleTarget)

/-- Wrapping in the items of a list keeps their positions, each beside the stored item there. -/
theorem getElem?_wrapItems (stored : Option Json) (first : Nat) (items : List Json)
    (segments : List String) (i : Nat) :
    (t.wrapItems stored first items segments)[i]? =
      items[i]?.map (t.wrap (storedItem (first + i) stored) · segments) := by
  induction items generalizing i first with
  | nil => simp [wrapItems]
  | cons v more ih =>
    cases i with
    | zero => rfl
    | succ i =>
      have hnext := ih (first + 1) i
      rw [Nat.add_assoc, Nat.add_comm 1 i] at hnext
      simpa [wrapItems] using hnext

/-- Wrapping goes on in the member with the first name of the path, beside the stored one. -/
theorem down?_wrap_member (stored : Option Json) (name head : String) (rest : List String) (v : Json) :
    Json.down? (.member name) (t.wrap stored v (head :: rest)) =
      if name = head then
        (Json.down? (.member head) v).map (t.wrap (stored.bind (Json.down? (.member head))) · rest)
      else Json.down? (.member name) v := by
  cases v with
  | obj members =>
    rw [← storedMember_eq]
    exact t.get?_wrapMember (storedMember head stored) name members head rest
  | _ => simp [wrap, Json.down?]

/-- In a list, wrapping goes on in every item, beside the stored one. -/
theorem down?_wrap_item (stored : Option Json) (i : Nat) (head : String) (rest : List String)
    (v : Json) :
    Json.down? (.item i) (t.wrap stored v (head :: rest)) =
      (Json.down? (.item i) v).map
        (t.wrap (stored.bind (Json.down? (.item i))) · (head :: rest)) := by
  cases v with
  | arr items =>
    have hitem := t.getElem?_wrapItems stored 0 items (head :: rest) i
    rwa [Nat.zero_add, storedItem_eq] at hitem
  | _ => simp [wrap, Json.down?]

end LocaleTarget

/-! ### At the positions of the names -/

section Positions

variable {names : List String} {position : List Step}

/-- **Picking picks at the positions of its names.** -/
theorem LocaleChoice.at?_pick (l : LocaleChoice) (h : Path.Leads names position) (v : Json) :
    Json.at? position (l.pick v names) = (Json.at? position v).map l.pickHere := by
  induction position generalizing names v with
  | nil =>
    cases names with
    | nil => rw [pick]; rfl
    | cons head rest => exact absurd h id
  | cons step position ih =>
    cases names with
    | nil => cases h
    | cons head rest =>
      cases step with
      | member name =>
        obtain ⟨rfl, hrest⟩ := h
        rw [Json.at?_cons, down?_pick_member, if_pos rfl, Json.at?_cons]
        cases Json.down? (.member name) v with
        | none => rfl
        | some u => exact ih hrest u
      | item i =>
        rw [Json.at?_cons, down?_pick_item, Json.at?_cons]
        cases Json.down? (.item i) v with
        | none => rfl
        | some u => exact ih h u

/-- **Writing puts under the locale what lies at the positions of its names,** each value beside what is
stored at the same position. -/
theorem LocaleTarget.at?_wrap (t : LocaleTarget) (h : Path.Leads names position)
    (stored : Option Json) (v : Json) :
    Json.at? position (t.wrap stored v names) =
      (Json.at? position v).map (t.wrapHere (stored.bind (Json.at? position))) := by
  induction position generalizing names v stored with
  | nil =>
    cases names with
    | nil => rw [wrap]; cases stored <;> rfl
    | cons head rest => exact absurd h id
  | cons step position ih =>
    have hstored : stored.bind (Json.at? (step :: position)) =
        (stored.bind (Json.down? step)).bind (Json.at? position) := by
      cases stored <;> rfl
    rw [hstored]
    cases names with
    | nil => cases h
    | cons head rest =>
      cases step with
      | member name =>
        obtain ⟨rfl, hrest⟩ := h
        rw [Json.at?_cons, down?_wrap_member, if_pos rfl, Json.at?_cons]
        cases Json.down? (.member name) v with
        | none => rfl
        | some u => exact ih hrest _ u
      | item i =>
        rw [Json.at?_cons, down?_wrap_item, Json.at?_cons]
        cases Json.down? (.item i) v with
        | none => rfl
        | some u => exact ih h _ u

end Positions

/-! ### At other positions -/

/-- Two values that agree at every position to which names lead that diverge from the given ones. -/
def Json.SameBeside (a : List String) (v w : Json) : Prop :=
  ∀ names position, Path.Leads names position → Path.Diverge a names →
    at? position w = at? position v

/-- A change along names goes on in the member of the first name and in the items, and keeps the
other members. -/
structure Json.ChangesAlong (change : List String → Json → Json → Prop) : Prop where
  others : ∀ {name head rest v w}, change (head :: rest) v w → name ≠ head →
    down? (.member name) w = down? (.member name) v
  member : ∀ {head rest v w}, change (head :: rest) v w →
    Option.Rel (change rest) (down? (.member head) v) (down? (.member head) w)
  item : ∀ {i head rest v w}, change (head :: rest) v w →
    Option.Rel (change (head :: rest)) (down? (.item i) v) (down? (.item i) w)

/-- **A change along names keeps what is beside them.** -/
theorem Json.ChangesAlong.sameBeside {change : List String → Json → Json → Prop}
    (hchange : ChangesAlong change) {a : List String} {v w : Json} (h : change a v w) :
    SameBeside a v w := by
  intro names position hleads hdiverge
  induction position generalizing names a v w with
  | nil =>
    cases names with
    | nil => exact absurd List.nil_prefix hdiverge.2
    | cons head rest => exact absurd hleads id
  | cons step position ih =>
    cases names with
    | nil => exact absurd List.nil_prefix hdiverge.2
    | cons first more =>
      cases a with
      | nil => exact absurd List.nil_prefix hdiverge.1
      | cons head rest =>
        rw [at?_cons, at?_cons]
        cases step with
        | member name =>
          obtain ⟨rfl, hmore⟩ := hleads
          -- The change goes on below its own member and leaves the others alone.
          by_cases hname : name = head
          · subst hname
            rw [Path.diverge_cons_iff] at hdiverge
            have hdown := hchange.member h
            generalize down? (.member name) v = below at hdown
            generalize down? (.member name) w = changed at hdown
            cases hdown with
            | none => rfl
            | some hbelow => exact ih hbelow more hmore hdiverge
          · rw [hchange.others h hname]
        | item i =>
          have hdown := hchange.item (i := i) h
          generalize down? (.item i) v = below at hdown
          generalize down? (.item i) w = changed at hdown
          cases hdown with
          | none => rfl
          | some hbelow => exact ih hbelow (first :: more) hleads hdiverge

/-- Picking changes nothing at places that diverge from the path. -/
theorem LocaleChoice.sameBeside_pick (l : LocaleChoice) (names : List String) (v : Json) :
    Json.SameBeside names v (l.pick v names) := by
  have hchange : Json.ChangesAlong fun names v w => w = l.pick v names := by
    refine ⟨?_, ?_, ?_⟩
    · intro name head rest v w hw hname
      rw [hw, down?_pick_member, if_neg hname]
    · intro head rest v w hw
      rw [hw, down?_pick_member, if_pos rfl]
      cases Json.down? (.member head) v with
      | none => exact .none
      | some u => exact .some rfl
    · intro i head rest v w hw
      rw [hw, down?_pick_item]
      cases Json.down? (.item i) v with
      | none => exact .none
      | some u => exact .some rfl
  exact hchange.sameBeside rfl

/-- Wrapping changes nothing at places that diverge from the path. -/
theorem LocaleTarget.sameBeside_wrap (t : LocaleTarget) (stored : Option Json) (names : List String)
    (v : Json) : Json.SameBeside names v (t.wrap stored v names) := by
  have hchange : Json.ChangesAlong fun names v w => ∃ stored, w = t.wrap stored v names := by
    refine ⟨?_, ?_, ?_⟩
    · intro name head rest v w hw hname
      obtain ⟨stored, rfl⟩ := hw
      rw [down?_wrap_member, if_neg hname]
    · intro head rest v w hw
      obtain ⟨stored, rfl⟩ := hw
      rw [down?_wrap_member, if_pos rfl]
      cases Json.down? (.member head) v with
      | none => exact .none
      | some u => exact .some ⟨_, rfl⟩
    · intro i head rest v w hw
      obtain ⟨stored, rfl⟩ := hw
      rw [down?_wrap_item]
      cases Json.down? (.item i) v with
      | none => exact .none
      | some u => exact .some ⟨_, rfl⟩
  exact hchange.sameBeside ⟨stored, rfl⟩

/-! ### Changes at one path after the other -/

section Changes

variable {change : Record → String → Record} {names : List String} {position : List Step}

/-- **Changes at paths that lead elsewhere change nothing at a position.** -/
theorem Json.at?_foldl
    (hchange : ∀ r a, SameBeside (Path.segments a) (.obj r) (.obj (change r a)))
    (hleads : Path.Leads names position) {paths : List String}
    (h : ∀ a ∈ paths, Path.Diverge (Path.segments a) names) (r : Record) :
    at? position (.obj (paths.foldl change r)) = at? position (.obj r) := by
  induction paths generalizing r with
  | nil => rfl
  | cons a rest ih =>
    rw [List.foldl_cons, ih fun b hb => h b (List.mem_cons_of_mem _ hb)]
    exact hchange r a names position hleads (h a List.mem_cons_self)

/-- **At the positions of a lone path only the change at that path counts.** -/
theorem Json.at?_foldl_lone
    (hchange : ∀ r a, SameBeside (Path.segments a) (.obj r) (.obj (change r a)))
    {paths : List String} {path : String} (hleads : Path.Leads (Path.segments path) position)
    (hlone : Path.Lone paths path) (r : Record) :
    ∃ r', at? position (.obj r') = at? position (.obj r) ∧
      at? position (.obj (paths.foldl change r)) = at? position (.obj (change r' path)) := by
  obtain ⟨before, after, rfl, hdiverge⟩ := hlone
  refine ⟨before.foldl change r, ?_, ?_⟩
  · exact at?_foldl hchange hleads (fun a ha => (hdiverge a (List.mem_append_left _ ha)).symm) r
  · rw [List.foldl_append, List.foldl_cons]
    exact at?_foldl hchange hleads (fun a ha => (hdiverge a (List.mem_append_right _ ha)).symm) _

end Changes

/-- Picking at a path of a record changes nothing at places that diverge from it. -/
theorem LocaleChoice.sameBeside_pickAt (l : LocaleChoice) (r : Record) (path : String) :
    Json.SameBeside (Path.segments path) (.obj r) (.obj (l.pickAt r path)) :=
  l.obj_pickAt r path ▸ l.sameBeside_pick _ _

/-- Wrapping at a path of a record changes nothing at places that diverge from it. -/
theorem LocaleTarget.sameBeside_wrapAt (t : LocaleTarget) (existing : Option Record) (r : Record)
    (path : String) :
    Json.SameBeside (Path.segments path) (.obj r) (.obj (t.wrapAt existing r path)) :=
  t.obj_wrapAt existing r path ▸ t.sameBeside_wrap _ _ _

end HeadlessCms
