import HeadlessCms.Proofs.Table
import HeadlessCms.Schema.Compile

/-!
# The places of a tree of fields

A where-schema is compiled from a walk over a tree of fields.  `WhereSchema.Visit` says what the
walk passes: at which place of the tree, under which path and with which entry.  Two places may have
one path.  The walk is apart (`WhereSchema.Apart`) if that happens only for equal declarations in
different block types of one `blocks` field.  Whether a walk is apart is a matter of the walks below
each first step, and of what two first steps have in common (`WhereSchema.apart_iff_below`).
-/

namespace HeadlessCms

/-- What an entry tells about a path: the names of its types, the type of its values, its operators
in the order of the categories, and a list as operand of exactly those operators that compare with
several values. -/
structure QueryField.Describes (parent path tag : String) (base : ValueType) (many : Bool)
    (categories : List OperatorCategory) (entry : QueryField) : Prop where
  inputName : entry.inputName = Text.qualified parent path ++ "_operator"
  fieldType : entry.fieldType = tag
  valueType : entry.valueType = if many then .list base else base
  hasMany : entry.hasMany = many
  operators : entry.operators.map (·.operator) = categories.flatMap OperatorCategory.operators
  operands : ∀ input ∈ entry.operators, input.valueType =
    if input.operator = .isIn ∨ input.operator = .notIn ∨ input.operator = .all then .list base
    else base

namespace QueryField

/-- The operators that take lists. -/
theorem takesList_iff (op : Operator) :
    op.takesList = true ↔ op = .isIn ∨ op = .notIn ∨ op = .all := by
  cases op <;> decide

/-- **One entry fits the description.** -/
theorem describes_iff {parent path tag : String} {base : ValueType} {many : Bool}
    {categories : List OperatorCategory} {entry : QueryField} :
    Describes parent path tag base many categories entry ↔
      entry = ofCategories parent path tag base many categories := by
  constructor
  · intro h
    obtain ⟨inputName, fieldType, valueType, hasMany, operators⟩ := entry
    have hoperators : operators = (OperatorCategory.union categories).map fun op =>
        ⟨op, if op.takesList then .list base else base⟩ := by
      rw [show OperatorCategory.union categories = operators.map (·.operator) from
        h.operators.symm, List.map_map]
      refine (List.map_id' operators).symm.trans (List.map_congr_left fun input hinput => ?_)
      have hvalue := h.operands input hinput
      obtain ⟨operator, valueType⟩ := input
      simp only [← takesList_iff] at hvalue
      simp [hvalue]
    unfold ofCategories
    rw [hoperators, show inputName = _ from h.inputName, show fieldType = _ from h.fieldType,
      show valueType = _ from h.valueType, show hasMany = _ from h.hasMany]
  · rintro rfl
    refine ⟨rfl, rfl, rfl, rfl, ?_, ?_⟩
    · simp [ofCategories, OperatorCategory.union, Function.comp_def]
    · intro input hinput
      obtain ⟨op, -, rfl⟩ := List.mem_map.1 hinput
      simp only [takesList_iff]

end QueryField

namespace WhereSchema

/-- A step of the walk. -/
inductive Step where
  /-- To a field among its siblings. -/
  | child (index : Nat)
  /-- To a block type of a `blocks` field. -/
  | block (index : Nat)
  /-- To the mark that tells the block types of a `blocks` field apart. -/
  | blockType
  deriving DecidableEq

/-- The steps to a node of the tree. -/
abbrev Place := List Step

/-- What is passed at a place: a path and its entry. -/
abbrev Visits := Place → String → QueryField → Prop

/-- What the walk passes in a field, `start` being in front of all its paths. -/
inductive Visit (parent : String) : String → Field → Visits where
  /-- A field with operators is passed under its own name. -/
  | leaf {start : String} {f : Field} {base : ValueType} {categories : List OperatorCategory}
      {entry : QueryField} (shown : f.hidden = false)
      (builds : leafType? f parent (start ++ f.name) = some (base, categories))
      (describes : QueryField.Describes parent (start ++ f.name) f.kind.tag base f.hasMany
        categories entry) :
      Visit parent start f [] (start ++ f.name) entry
  /-- A row puts nothing in front of what it holds. -/
  | row {start path : String} {f g : Field} {i : Nat} {rest : Place} {entry : QueryField}
      (shown : f.hidden = false) (kind : f.kind = .row) (here : f.fields[i]? = some g)
      (passes : Visit parent start g rest path entry) :
      Visit parent start f (.child i :: rest) path entry
  /-- An array or a group puts its name in front. -/
  | container {start path : String} {f g : Field} {i : Nat} {rest : Place} {entry : QueryField}
      (shown : f.hidden = false) (kind : f.kind = .array ∨ f.kind = .group)
      (here : f.fields[i]? = some g)
      (passes : Visit parent (start ++ f.name ++ Path.separator) g rest path entry) :
      Visit parent start f (.child i :: rest) path entry
  /-- A `blocks` field has a path for the type of a block. -/
  | blockType {start : String} {f : Field} {entry : QueryField}
      (shown : f.hidden = false) (kind : f.kind = .blocks)
      (describes : QueryField.Describes parent (start ++ f.name ++ Path.separator ++ "blockType")
        "blockType" (.enum (.ofValues (Text.qualified parent (start ++ f.name) ++ "_BlockType")
          (f.blocks.map (·.slug)))) false [.equality] entry) :
      Visit parent start f [.blockType] (start ++ f.name ++ Path.separator ++ "blockType") entry
  /-- A `blocks` field puts its name in front of what its block types hold. -/
  | block {start path : String} {f g : Field} {b : Block Field} {j i : Nat} {rest : Place}
      {entry : QueryField} (shown : f.hidden = false) (kind : f.kind = .blocks)
      (type : f.blocks[j]? = some b) (here : b.fields[i]? = some g)
      (passes : Visit parent (start ++ f.name ++ Path.separator) g rest path entry) :
      Visit parent start f (.block j :: .child i :: rest) path entry

/-- What the walk passes in a list of fields. -/
def VisitIn (parent start : String) (fields : List Field) : Visits := fun place path entry =>
  ∃ i f rest, fields[i]? = some f ∧ place = .child i :: rest ∧ Visit parent start f rest path entry

/-- The places are in different block types of one `blocks` field, the path not being the one that
tells its block types apart. -/
def InDifferentBlocks (V : Visits) (path : String) (a b : Place) : Prop :=
  ∃ above i j restA restB, a = above ++ .block i :: restA ∧ b = above ++ .block j :: restB ∧ i ≠ j ∧
    ∀ entry, ¬ V (above ++ [.blockType]) path entry

/-- **No path comes from two places**, unless they are in different block types of one `blocks`
field and their entries are equal. -/
def Apart (V : Visits) : Prop :=
  ∀ a b path d e, V a path d → V b path e → d = e ∧ (a = b ∨ InDifferentBlocks V path a b)

/-- What is passed after a first step. -/
def Visits.below (V : Visits) (s : Step) : Visits := fun rest => V (s :: rest)

/-- Places behind the same step are in different block types before and after it. -/
theorem inDifferentBlocks_cons {V : Visits} {path : String} {s : Step} {a b : Place} :
    InDifferentBlocks V path (s :: a) (s :: b) ↔ InDifferentBlocks (V.below s) path a b := by
  constructor
  · rintro ⟨above, i, j, restA, restB, ha, hb, hij, hmark⟩
    cases above with
    | nil =>
      simp only [List.nil_append, List.cons.injEq] at ha hb
      exact absurd (Step.block.inj (ha.1.symm.trans hb.1)) hij
    | cons t above =>
      simp only [List.cons_append, List.cons.injEq] at ha hb
      obtain ⟨rfl, rfl⟩ := ha
      exact ⟨above, i, j, restA, restB, rfl, hb.2, hij, hmark⟩
  · rintro ⟨above, i, j, restA, restB, rfl, rfl, hij, hmark⟩
    exact ⟨s :: above, i, j, restA, restB, rfl, rfl, hij, hmark⟩

/-- Places behind different steps are in different block types if the steps lead there. -/
theorem inDifferentBlocks_cons_of_ne {V : Visits} {path : String} {s t : Step} {a b : Place}
    (hst : s ≠ t) :
    InDifferentBlocks V path (s :: a) (t :: b) ↔
      (∃ i, s = .block i) ∧ (∃ j, t = .block j) ∧ ∀ entry, ¬ V [.blockType] path entry := by
  constructor
  · rintro ⟨above, i, j, restA, restB, ha, hb, -, hmark⟩
    cases above with
    | nil =>
      simp only [List.nil_append, List.cons.injEq] at ha hb
      exact ⟨⟨i, ha.1⟩, ⟨j, hb.1⟩, hmark⟩
    | cons u above =>
      simp only [List.cons_append, List.cons.injEq] at ha hb
      exact absurd (ha.1.trans hb.1.symm) hst
  · rintro ⟨⟨i, rfl⟩, ⟨j, rfl⟩, hmark⟩
    exact ⟨[], i, j, a, b, rfl, rfl, fun h => hst (h ▸ rfl), hmark⟩

/-- **Apart below every step and from step to step.** -/
theorem apart_iff_below {V : Visits} (hnil : ∀ path entry, ¬ V [] path entry) :
    Apart V ↔ (∀ s, Apart (V.below s)) ∧
      ∀ s t a b path d e, s ≠ t → V (s :: a) path d → V (t :: b) path e →
        d = e ∧ (∃ i, s = .block i) ∧ (∃ j, t = .block j) ∧ ∀ x, ¬ V [.blockType] path x := by
  constructor
  · intro h
    constructor
    · intro s a b path d e hd he
      obtain ⟨hde, hplaces⟩ := h _ _ _ _ _ hd he
      refine ⟨hde, hplaces.imp (fun heq => (List.cons.inj heq).2) fun hblocks => ?_⟩
      exact inDifferentBlocks_cons.1 hblocks
    · intro s t a b path d e hst hd he
      obtain ⟨hde, heq | hblocks⟩ := h _ _ _ _ _ hd he
      · exact absurd (List.cons.inj heq).1 hst
      · exact ⟨hde, (inDifferentBlocks_cons_of_ne hst).1 hblocks⟩
  · rintro ⟨hbelow, hcross⟩ a b path d e hd he
    cases a with
    | nil => exact absurd hd (hnil path d)
    | cons s a =>
      cases b with
      | nil => exact absurd he (hnil path e)
      | cons t b =>
        by_cases hst : s = t
        · subst hst
          obtain ⟨hde, hplaces⟩ := hbelow s a b path d e hd he
          exact ⟨hde, hplaces.imp (congrArg (List.cons s)) inDifferentBlocks_cons.2⟩
        · obtain ⟨hde, hsteps⟩ := hcross s t a b path d e hst hd he
          exact ⟨hde, .inr ((inDifferentBlocks_cons_of_ne hst).2 hsteps)⟩

/-- Nothing is passed twice where nothing is passed. -/
theorem apart_of_forall_not {V : Visits} (h : ∀ a path e, ¬ V a path e) : Apart V :=
  fun a _ path d _ hd _ => absurd hd (h a path d)

/-! ### Lists of fields -/

section Lists

variable {parent start : String}

/-- The paths of two fields have nothing in common. -/
def Unshared (parent start : String) (f g : Field) : Prop :=
  ∀ a b path d e, Visit parent start f a path d → ¬ Visit parent start g b path e

theorem Unshared.symm {f g : Field} (h : Unshared parent start f g) : Unshared parent start g f :=
  fun a b path d e hd he => h b a path e d he hd

/-- A visit in a list of fields is one of the field at its first step. -/
theorem visitIn_cons_iff {fields : List Field} {s : Step} {rest : Place} {path : String}
    {entry : QueryField} :
    VisitIn parent start fields (s :: rest) path entry ↔
      ∃ i f, fields[i]? = some f ∧ s = .child i ∧ Visit parent start f rest path entry := by
  constructor
  · rintro ⟨i, f, rest', hf, hplace, hvisit⟩
    obtain ⟨rfl, rfl⟩ := List.cons.inj hplace
    exact ⟨i, f, hf, rfl, hvisit⟩
  · rintro ⟨i, f, hf, rfl, hvisit⟩
    exact ⟨i, f, rest, hf, rfl, hvisit⟩

/-- The list itself is not visited. -/
theorem not_visitIn_nil {fields : List Field} {path : String} {entry : QueryField} :
    ¬ VisitIn parent start fields [] path entry := by
  rintro ⟨_, _, _, _, hplace, _⟩
  cases hplace

/-- A list of fields is visited where one of them is. -/
theorem exists_visitIn_iff {fields : List Field} {path : String} {entry : QueryField} :
    (∃ place, VisitIn parent start fields place path entry) ↔
      ∃ f ∈ fields, ∃ place, Visit parent start f place path entry := by
  constructor
  · rintro ⟨_, i, f, rest, hf, rfl, hvisit⟩
    exact ⟨f, List.mem_of_getElem? hf, rest, hvisit⟩
  · rintro ⟨f, hmem, rest, hvisit⟩
    obtain ⟨i, hf⟩ := List.getElem?_of_mem hmem
    exact ⟨.child i :: rest, i, f, rest, hf, rfl, hvisit⟩

/-- Below the step to a field lie the visits of this field. -/
theorem below_child {fields : List Field} {i : Nat} {f : Field} (hf : fields[i]? = some f) :
    (VisitIn parent start fields).below (.child i) = Visit parent start f := by
  funext rest path entry
  refine propext (visitIn_cons_iff.trans ⟨?_, fun hvisit => ⟨i, f, hf, rfl, hvisit⟩⟩)
  rintro ⟨j, g, hg, heq, hvisit⟩
  cases heq
  rwa [Option.some.inj (hf.symm.trans hg)]

/-- **The walk over fields is apart if the walk over each is, and no two share a path.** -/
theorem apart_visitIn_iff {fields : List Field} :
    Apart (VisitIn parent start fields) ↔
      (∀ f ∈ fields, Apart (Visit parent start f)) ∧ fields.Pairwise (Unshared parent start) := by
  rw [apart_iff_below fun _ _ => not_visitIn_nil]
  constructor
  · rintro ⟨hapart, hcross⟩
    constructor
    · intro f hmem
      obtain ⟨i, hf⟩ := List.getElem?_of_mem hmem
      exact below_child hf ▸ hapart (.child i)
    · rw [List.pairwise_iff_getElem]
      intro i j hi hj hij a b path d e hd he
      have hne : Step.child i ≠ .child j := fun h => absurd (Step.child.inj h) (by omega)
      have hboth := hcross (.child i) (.child j) a b path d e hne
        (visitIn_cons_iff.2 ⟨i, _, List.getElem?_eq_getElem hi, rfl, hd⟩)
        (visitIn_cons_iff.2 ⟨j, _, List.getElem?_eq_getElem hj, rfl, he⟩)
      obtain ⟨_, ⟨k, hk⟩, _⟩ := hboth
      cases hk
  · rintro ⟨hapart, hpairs⟩
    constructor
    · intro s a b path d e hd he
      obtain ⟨i, f, hf, rfl, hvisit⟩ := visitIn_cons_iff.1 hd
      rw [below_child hf] at hd he ⊢
      exact hapart f (List.mem_of_getElem? hf) a b path d e hd he
    · intro s t a b path d e hst hd he
      obtain ⟨i, f, hf, rfl, hd⟩ := visitIn_cons_iff.1 hd
      obtain ⟨j, g, hg, rfl, he⟩ := visitIn_cons_iff.1 he
      obtain ⟨hi, rfl⟩ := List.getElem?_eq_some_iff.1 hf
      obtain ⟨hj, rfl⟩ := List.getElem?_eq_some_iff.1 hg
      have hij : i ≠ j := fun h => hst (h ▸ rfl)
      rcases Nat.lt_or_gt_of_ne hij with hlt | hgt
      · exact absurd he (List.pairwise_iff_getElem.1 hpairs i j hi hj hlt a b path d e hd)
      · exact absurd hd (List.pairwise_iff_getElem.1 hpairs j i hj hi hgt b a path e d he)

end Lists

/-! ### Fields by kind -/

section Kinds

variable {parent start path : String} {f : Field} {place : Place} {entry : QueryField}

/-- Hidden fields are not visited. -/
theorem not_visit_of_hidden (h : f.hidden = true) : ¬ Visit parent start f place path entry := by
  intro hvisit
  cases hvisit <;> simp_all

/-- The walk over a row is the walk over what it holds. -/
theorem visit_row (hshown : f.hidden = false) (hkind : f.kind = .row) :
    Visit parent start f = VisitIn parent start f.fields := by
  funext place path entry
  refine propext ⟨?_, ?_⟩
  · intro hvisit
    cases hvisit with
    | row _ _ here passes => exact ⟨_, _, _, here, rfl, passes⟩
    | leaf _ builds _ => simp [leafType?, hkind] at builds
    | container _ kind _ _ => simp [hkind] at kind
    | blockType _ kind _ => simp [hkind] at kind
    | block _ kind _ _ _ => simp [hkind] at kind
  · rintro ⟨i, g, rest, hg, rfl, hvisit⟩
    exact .row hshown hkind hg hvisit

/-- The walk over an array or a group is the walk over what it holds, behind its name. -/
theorem visit_container (hshown : f.hidden = false) (hkind : f.kind = .array ∨ f.kind = .group) :
    Visit parent start f = VisitIn parent (start ++ f.name ++ Path.separator) f.fields := by
  funext place path entry
  refine propext ⟨?_, ?_⟩
  · intro hvisit
    cases hvisit with
    | container _ _ here passes => exact ⟨_, _, _, here, rfl, passes⟩
    | leaf _ builds _ => rcases hkind with hkind | hkind <;> simp [leafType?, hkind] at builds
    | row _ kind _ _ => simp [kind] at hkind
    | blockType _ kind _ => simp [kind] at hkind
    | block _ kind _ _ _ => simp [kind] at hkind
  · rintro ⟨i, g, rest, hg, rfl, hvisit⟩
    exact .container hshown hkind hg hvisit

/-- A field that is no container is passed at its own place, if it has an entry. -/
theorem visit_leaf_iff (hshown : f.hidden = false) (hrow : f.kind ≠ .row)
    (harray : f.kind ≠ .array) (hgroup : f.kind ≠ .group) (hblocks : f.kind ≠ .blocks) :
    Visit parent start f place path entry ↔
      place = [] ∧ path = start ++ f.name ∧ leafEntry? f parent (start ++ f.name) = some entry := by
  constructor
  · intro hvisit
    cases hvisit with
    | leaf _ builds describes =>
      refine ⟨rfl, rfl, ?_⟩
      unfold leafEntry?
      rw [builds, QueryField.describes_iff.1 describes]
      rfl
    | row _ kind _ _ => exact absurd kind hrow
    | container _ kind _ _ => exact absurd kind (not_or.2 ⟨harray, hgroup⟩)
    | blockType _ kind _ => exact absurd kind hblocks
    | block _ kind _ _ _ => exact absurd kind hblocks
  · rintro ⟨rfl, rfl, hentry⟩
    obtain ⟨⟨base, categories⟩, builds, rfl⟩ := Option.map_eq_some_iff.1 hentry
    exact .leaf hshown builds (QueryField.describes_iff.2 rfl)

/-- What is passed in one block type of a `blocks` field. -/
theorem visit_block_iff (hshown : f.hidden = false) (hkind : f.kind = .blocks) {j : Nat} :
    Visit parent start f (.block j :: place) path entry ↔ ∃ b, f.blocks[j]? = some b ∧
      VisitIn parent (start ++ f.name ++ Path.separator) b.fields place path entry := by
  constructor
  · intro hvisit
    cases hvisit with
    | block _ _ type here passes => exact ⟨_, type, _, _, _, here, rfl, passes⟩
  · rintro ⟨b, hb, i, g, rest, hg, rfl, hvisit⟩
    exact .block hshown hkind hb hg hvisit

/-- Below the step to a block lie the visits of its fields, under the name of the field
of blocks. -/
theorem below_block (hshown : f.hidden = false) (hkind : f.kind = .blocks) {j : Nat}
    {b : Block Field} (hb : f.blocks[j]? = some b) :
    (Visit parent start f).below (.block j) =
      VisitIn parent (start ++ f.name ++ Path.separator) b.fields := by
  funext rest path entry
  refine propext ((visit_block_iff hshown hkind).trans ⟨?_, fun hvisit => ⟨b, hb, hvisit⟩⟩)
  rintro ⟨c, hc, hvisit⟩
  rwa [Option.some.inj (hb.symm.trans hc)]

/-- The mark of a field of blocks has one entry, for the types of the blocks. -/
theorem visit_mark_iff (hshown : f.hidden = false) (hkind : f.kind = .blocks) :
    Visit parent start f (.blockType :: place) path entry ↔ place = [] ∧
      path = blockTypePath (start ++ f.name ++ Path.separator) ∧
      entry = blockTypeEntry parent start f.name (blockTypePath (start ++ f.name ++ Path.separator))
        (f.blocks.map (·.slug)) := by
  constructor
  · intro hvisit
    cases hvisit with
    | blockType _ _ describes => exact ⟨rfl, rfl, QueryField.describes_iff.1 describes⟩
  · rintro ⟨rfl, rfl, rfl⟩
    exact .blockType hshown hkind (QueryField.describes_iff.2 rfl)

/-- The field of blocks itself has no entry. -/
theorem not_visit_blocks_nil (hkind : f.kind = .blocks) :
    ¬ Visit parent start f [] path entry := by
  intro hvisit
  cases hvisit with
  | leaf _ builds _ => simp [leafType?, hkind] at builds

/-- The walk goes on from a `blocks` field to its mark and to its block types. -/
theorem step_of_visit_blocks (hkind : f.kind = .blocks) {s : Step}
    (h : Visit parent start f (s :: place) path entry) : s = .blockType ∨ ∃ j, s = .block j := by
  cases h with
  | row _ kind _ _ => simp [hkind] at kind
  | container _ kind _ _ => simp [hkind] at kind
  | blockType _ _ _ => exact .inl rfl
  | block _ _ _ _ _ => exact .inr ⟨_, rfl⟩

end Kinds

/-- The paths of block types: each list of fields on its own is apart, no path is the one that tells
block types apart, and equal paths have equal entries. -/
structure Mergeable (parent nested : String) (blocks : List (Block Field)) : Prop where
  apart : ∀ b ∈ blocks, Apart (VisitIn parent nested b.fields)
  unmarked : ∀ b ∈ blocks, ∀ place path entry, VisitIn parent nested b.fields place path entry →
    path ≠ blockTypePath nested
  agree : ∀ b ∈ blocks, ∀ c ∈ blocks, ∀ m n path d e, VisitIn parent nested b.fields m path d →
    VisitIn parent nested c.fields n path e → d = e

/-- No blocks can always be merged. -/
theorem mergeable_nil {parent nested : String} : Mergeable parent nested [] where
  apart := by simp
  unmarked := by simp
  agree := by simp

/-- Blocks can be merged if the first one can, and agrees with the others where they share paths. -/
theorem mergeable_cons_iff {parent nested : String} {b : Block Field} {rest : List (Block Field)} :
    Mergeable parent nested (b :: rest) ↔ Apart (VisitIn parent nested b.fields) ∧
      (∀ place path entry, VisitIn parent nested b.fields place path entry →
        path ≠ blockTypePath nested) ∧
      Mergeable parent nested rest ∧
      ∀ c ∈ rest, ∀ m n path d e, VisitIn parent nested b.fields m path d →
        VisitIn parent nested c.fields n path e → d = e := by
  constructor
  · intro h
    have hb : b ∈ b :: rest := List.mem_cons_self
    exact ⟨h.apart b hb, h.unmarked b hb,
      ⟨fun c hc => h.apart c (.tail b hc), fun c hc => h.unmarked c (.tail b hc),
        fun c hc c' hc' => h.agree c (.tail b hc) c' (.tail b hc')⟩,
      fun c hc => h.agree b hb c (.tail b hc)⟩
  · rintro ⟨hapart, hunmarked, hrest, hcross⟩
    refine ⟨List.forall_mem_cons.2 ⟨hapart, hrest.apart⟩,
      List.forall_mem_cons.2 ⟨hunmarked, hrest.unmarked⟩,
      List.forall_mem_cons.2 ⟨List.forall_mem_cons.2 ⟨?_, hcross⟩, fun c hc =>
        List.forall_mem_cons.2 ⟨?_, hrest.agree c hc⟩⟩⟩
    · exact fun m n path d e hd he => (hapart m n path d e hd he).1
    · exact fun m n path d e hd he => (hcross c hc n m path e d he hd).symm

/-- The visits of a field of blocks are apart exactly if the blocks can be merged. -/
theorem apart_visit_blocks_iff {parent start : String} {f : Field} (hshown : f.hidden = false)
    (hkind : f.kind = .blocks) :
    Apart (Visit parent start f) ↔
      Mergeable parent (start ++ f.name ++ Path.separator) f.blocks := by
  have hblock := fun {place path entry j} =>
    @visit_block_iff parent start path f place entry hshown hkind j
  have hmark := fun {place path entry} =>
    @visit_mark_iff parent start path f place entry hshown hkind
  rw [apart_iff_below fun _ _ => not_visit_blocks_nil hkind]
  constructor
  · rintro ⟨hbelow, hcross⟩
    have hapart : ∀ b ∈ f.blocks,
        Apart (VisitIn parent (start ++ f.name ++ Path.separator) b.fields) := by
      intro b hb
      obtain ⟨j, hj⟩ := List.getElem?_of_mem hb
      exact below_block hshown hkind hj ▸ hbelow (.block j)
    refine ⟨hapart, ?_, ?_⟩
    -- The mark of the block type lies in no block, so nothing in a block may share its place.
    · rintro b hb place path entry hvisit rfl
      obtain ⟨j, hj⟩ := List.getElem?_of_mem hb
      obtain ⟨_, _, ⟨k, hk⟩, _⟩ := hcross (.block j) .blockType place [] _ entry _ (by simp)
        (hblock.2 ⟨b, hj, hvisit⟩) (hmark.2 ⟨rfl, rfl, rfl⟩)
      cases hk
    · intro b hb c hc m n path d e hd he
      obtain ⟨i, hi⟩ := List.getElem?_of_mem hb
      obtain ⟨j, hj⟩ := List.getElem?_of_mem hc
      -- What one block has twice is apart within the block, what two blocks have agrees across them.
      by_cases hij : i = j
      · subst hij
        rw [← Option.some.inj (hi.symm.trans hj)] at he
        exact (hapart b hb m n path d e hd he).1
      · exact (hcross (.block i) (.block j) m n path d e (by simpa using hij)
          (hblock.2 ⟨b, hi, hd⟩) (hblock.2 ⟨c, hj, he⟩)).1
  · intro h
    constructor
    · intro s a b path d e hd he
      rcases step_of_visit_blocks hkind hd with rfl | ⟨j, rfl⟩
      · obtain ⟨rfl, -, rfl⟩ := hmark.1 hd
        obtain ⟨rfl, -, rfl⟩ := hmark.1 he
        exact ⟨rfl, .inl rfl⟩
      · obtain ⟨c, hc, hd⟩ := hblock.1 hd
        have hapart := h.apart c (List.mem_of_getElem? hc)
        rw [← below_block hshown hkind hc] at hapart
        exact hapart a b path d e (hblock.2 ⟨c, hc, hd⟩) he
    · intro s t a b path d e hst hd he
      rcases step_of_visit_blocks hkind hd with rfl | ⟨i, rfl⟩
      · obtain ⟨rfl, rfl, rfl⟩ := hmark.1 hd
        rcases step_of_visit_blocks hkind he with rfl | ⟨j, rfl⟩
        · exact absurd rfl hst
        · obtain ⟨c, hc, he⟩ := hblock.1 he
          exact absurd rfl (h.unmarked c (List.mem_of_getElem? hc) b _ e he)
      · obtain ⟨c, hc, hd⟩ := hblock.1 hd
        have hfree := h.unmarked c (List.mem_of_getElem? hc) a path d hd
        rcases step_of_visit_blocks hkind he with rfl | ⟨j, rfl⟩
        · exact absurd (hmark.1 he).2.1 hfree
        · obtain ⟨c', hc', he⟩ := hblock.1 he
          exact ⟨h.agree c (List.mem_of_getElem? hc) c' (List.mem_of_getElem? hc') a b path d e hd he,
            ⟨i, rfl⟩, ⟨j, rfl⟩, fun x hx => hfree (hmark.1 hx).2.1⟩

end WhereSchema

end HeadlessCms
