import HeadlessCms.Document.Draft
import HeadlessCms.Proofs.Time.RoundTrip

/-!
# What clauses on single members decide

Clauses on ids, states and times look at one value of a record.  Two texts of which one is no
timestamp are equal to a clause only if they are the same (`anyEquals_text`); two timestamps compare
by time, in whatever form they are written (`anyCompares_times`).
-/

namespace HeadlessCms

open Time (Instant)

/-! ### Paths -/

@[simp] theorem reach_nil (v : Json) : reach v [] = [v] := by
  cases v <;> rfl

/-- A path of one name reaches the member of that name. -/
theorem Record.resolve_name {path name : String} (h : Path.segments path = [name])
    (record : Record) : Record.resolve record path = (Table.get? name record).toList := by
  rw [Record.resolve, h]
  simp only [reachMember_eq]
  cases Table.get? name record <;> simp

/-- A path of two names reaches the member of an object that is a member. -/
theorem Record.resolve_member {path outer inner : String} (h : Path.segments path = [outer, inner])
    {record members : Record} (hobj : Table.get? outer record = some (.obj members)) :
    Record.resolve record path = (Table.get? inner members).toList := by
  rw [Record.resolve, h]
  simp only [reachMember_eq, hobj, reach]
  cases Table.get? inner members <;> simp

/-- Whether a path is another one or goes on below it. -/
def Path.AtOrBelow (above path : String) : Prop :=
  path = above ∨ ∃ below, path.toList = above.toList ++ '.' :: below

/-- Paths that are not localized, and do not lie below a localized one, stay as they are. -/
theorem Path.inLocale_eq_self {localized : List String} {locale path : String}
    (h : ∀ above ∈ localized, ¬ Path.AtOrBelow above path) :
    Path.inLocale localized locale path = path := by
  induction localized with
  | nil => rfl
  | cons above rest ih =>
    have hno := h above List.mem_cons_self
    have hrest := ih fun p hp => h p (List.mem_cons_of_mem _ hp)
    unfold inLocale
    rw [if_neg fun heq => hno (Or.inl heq)]
    split
    · next below heq =>
      exact absurd (Or.inr ⟨below, Text.dropStart?_eq_some_iff.1 heq⟩) hno
    · exact hrest

/-- A path that has nothing to do with localized ones is stored under itself. -/
theorem Store.storedPath_eq_self {localized : List String} {path : String}
    (hdata : Path.toData path = path) (h : ∀ above ∈ localized, ¬ Path.AtOrBelow above path)
    (locale : Option String) : Store.storedPath localized locale path = path := by
  unfold Store.storedPath
  cases locale with
  | none => exact hdata
  | some l =>
    simp only [hdata, Path.inLocale_eq_self h, ite_self]

/-! ### Comparing texts -/

/-- Texts of which one is no timestamp are compared by their characters. -/
theorem compareTexts_eq_eq_iff {a b : String}
    (h : Time.readStrict? a = none ∨ Time.readStrict? b = none) :
    compareTexts a b = .eq ↔ a = b := by
  cases h with
  | inl ha => simp [compareTexts, ha]
  | inr hb => cases ha : Time.readStrict? a <;> simp [compareTexts, ha, hb]

/-- Texts that are not both timestamps are equal if they are the same. -/
theorem looselyEqual_text {a b : String}
    (h : Time.readStrict? a = none ∨ Time.readStrict? b = none) :
    looselyEqual (.str a) (.str b) = (a == b) := by
  have hiff := compareTexts_eq_eq_iff h
  by_cases hab : a = b
  · simp [looselyEqual, Json.same, hab]
  · have hne : compareTexts a b ≠ .eq := fun heq => hab (hiff.1 heq)
    simp [looselyEqual, Json.same, compareValues, Json.asFloat?, compareAlike, hab, hne]

/-- **A text equals an operand only if it is the same text,** unless both are timestamps. -/
theorem anyEquals_text {a b : String}
    (h : Time.readStrict? a = none ∨ Time.readStrict? b = none) :
    anyEquals [.str a] (.str b) = (a == b) := by
  simp [anyEquals, Json.isNull, equalsOperand, looselyEqual_text h]

/-- **Timestamps compare by time,** however they are written. -/
theorem compareValues_times {a b : String} {s t : Instant} (ha : Time.readStrict? a = some s)
    (hb : Time.readStrict? b = some t) : compareValues (.str a) (.str b) = some (s.order t) := by
  simp [compareValues, Json.asFloat?, compareAlike, compareTexts, ha, hb]

/-- Timestamps compare as their instants do. -/
theorem anyCompares_times {a b : String} {s t : Instant} (ha : Time.readStrict? a = some s)
    (hb : Time.readStrict? b = some t) (accepts : Ordering → Bool) :
    anyCompares [.str a] (.str b) accepts = accepts (s.order t) := by
  simp [anyCompares, elements, compareValues_times ha hb]

/-- An instant is later than another one if that is before it. -/
theorem Time.Instant.order_eq_gt_iff {s t : Instant} :
    s.order t = .gt ↔ t.isBefore s = true := by
  rw [← Instant.order_swap t s, Instant.isBefore, beq_iff_eq]
  cases t.order s <;> decide

/-! ### Conjunctions -/

namespace Predicate

@[simp] theorem holds_and [PatternEngine] (record : Record) (children : List Predicate) :
    (Predicate.and children).holds record = allHold record children := by
  simp only [holds]

@[simp] theorem allHold_nil [PatternEngine] (record : Record) : allHold record [] = .ok true := by
  simp only [allHold]

/-- A clause that is decided leaves it to the others whether all hold. -/
theorem allHold_cons_of_ok [PatternEngine] {record : Record} {p : Predicate} {b : Bool}
    (h : p.holds record = .ok b) (rest : List Predicate) :
    allHold record (p :: rest) = if b then allHold record rest else .ok false := by
  simp only [allHold, h]
  cases b <;> rfl

@[simp] theorem mapPaths_compare (f : String → String) (path : String) (op : Operator)
    (v : Json) : (compare path op v).mapPaths f = compare (f path) op v := by
  simp only [compare, mapPaths]

@[simp] theorem mapPaths_and (f : String → String) (ps : List Predicate) :
    (Predicate.and ps).mapPaths f = .and (ps.map (mapPaths f)) := by
  simp only [mapPaths, mapPathsOf_eq_map]

variable [PatternEngine]

/-- A clause that asks for a text, decided on a record that has a text there. -/
theorem holds_equals_text {path a b : String} {record : Record}
    (hvalue : Record.resolve record path = [.str a]) (h : Time.readStrict? a = none) :
    (compare path .equals (.str b)).holds record = .ok (a == b) := by
  simp [compare, holds, Constraint.holds, hvalue, Constraint.test, anyEquals_text (Or.inl h)]

/-- A clause that asks for a text that is no timestamp, decided on a record that has a text there or
nothing. -/
theorem holds_equals_plain {path b : String} {record : Record} {value : Option String}
    (hvalue : Record.resolve record path = (value.map Json.str).toList)
    (h : Time.readStrict? b = none) :
    (compare path .equals (.str b)).holds record = .ok (value == some b) := by
  cases value with
  | none =>
    simp only [compare, holds, Constraint.holds, hvalue, Constraint.test]
    rfl
  | some a =>
    simp [compare, holds, Constraint.holds, hvalue, Constraint.test, anyEquals_text (Or.inr h)]

/-- A clause that asks for one of several texts, decided on a record that has a text there. -/
theorem holds_isIn_texts {path a : String} {record : Record} (texts : List String)
    (hvalue : Record.resolve record path = [.str a]) (h : Time.readStrict? a = none) :
    (compare path .isIn (.arr (texts.map .str))).holds record = .ok (texts.contains a) := by
  simp only [compare, holds, Constraint.holds, hvalue, Constraint.test, operandList, List.any_map,
    List.contains_eq_any_beq]
  exact congrArg (fun p => Except.ok (texts.any p)) (funext fun b => anyEquals_text (Or.inl h))

/-- A clause that asks for a later time, decided on a record that has a time there. -/
theorem holds_later {path a : String} {s t : Instant} {record : Record}
    (hvalue : Record.resolve record path = [.str a]) (ha : Time.readStrict? a = some s)
    (ht : t.Printable) :
    (compare path .greaterThan (.ofInstant t)).holds record = .ok (t.isBefore s) := by
  have hgt : (s.order t == .gt) = t.isBefore s := by
    rw [Bool.eq_iff_iff, beq_iff_eq, Instant.order_eq_gt_iff]
  simp [compare, holds, Constraint.holds, hvalue, Constraint.test, Json.ofInstant,
    anyCompares_times ha (Time.readStrict?_write ht), hgt]

end Predicate

end HeadlessCms
