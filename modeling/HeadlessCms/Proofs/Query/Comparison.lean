import HeadlessCms.Proofs.Query.Matching
import HeadlessCms.Proofs.Time.Timestamps
import Mathlib.Data.Int.Basic
import Mathlib.Order.Compare

/-!
# The order of values

Two doubles compare as their places do (`compareFloats_eq`): by sign and size class, then exponent,
then digits.  Only what is not a number has no place.

`compareValues` treats values by pairs, and three values that it compares in different ways need not
agree: `"10"` comes before `"9"`, and `"9"` before `9.5`, but `9.5` before `"10"`.  They do agree if they
are of one kind (`coherent_compareValues`).  Texts that are timestamps come in the order of the instants
that they tell, in whatever form they are written (`compareValues_chronological`).
-/

namespace HeadlessCms

open Time (Instant)
open Float.Model (UnpackedFloat)

/-! ### Comparisons among three -/

/-- The comparisons of a first with a second, of the second with a third and of the first with the
third agree: equals can stand for each other, and two steps in one direction lead in that direction. -/
def Coherent (first second both : Ordering) : Prop :=
  (first = .eq → both = second) ∧ (second = .eq → both = first) ∧ (first = second → both = first)

namespace Coherent

variable {first second both : Ordering}

/-- Three equals agree. -/
theorem eq : Coherent .eq .eq .eq :=
  ⟨fun _ => rfl, fun _ => rfl, fun _ => rfl⟩

/-- A transitive order agrees with itself. -/
theorem of_transCmp {α : Type} (cmp : α → α → Ordering) [Std.TransCmp cmp] (a b c : α) :
    Coherent (cmp a b) (cmp b c) (cmp a c) := by
  refine ⟨Std.TransCmp.congr_left, fun h => (Std.TransCmp.congr_right h).symm, fun h => ?_⟩
  cases hab : cmp a b with
  | lt => exact Std.TransCmp.lt_trans hab (h ▸ hab)
  | eq => exact Std.TransCmp.eq_trans hab (h ▸ hab)
  | gt => exact Std.TransCmp.gt_trans hab (h ▸ hab)

/-- Comparisons that agree do so when they are all turned round. -/
theorem swap (h : Coherent first second both) : Coherent first.swap second.swap both.swap := by
  simpa only [Coherent, Ordering.swap_eq_eq, Ordering.swap_inj] using h

/-- **Comparisons that agree can be refined by others that agree.** -/
theorem refine {first' second' both' : Ordering} (h : Coherent first second both)
    (h' : Coherent first' second' both') :
    Coherent (first.then first') (second.then second') (both.then both') := by
  obtain ⟨hfirst, hsecond, hsame⟩ := h
  cases first with
  | eq =>
    rw [hfirst rfl]
    cases second with
    | eq => exact h'
    | lt => exact ⟨fun _ => rfl, nofun, Eq.symm⟩
    | gt => exact ⟨fun _ => rfl, nofun, Eq.symm⟩
  | lt =>
    cases second with
    | eq => rw [hsecond rfl]; exact ⟨nofun, fun _ => rfl, fun _ => rfl⟩
    | lt => rw [hsame rfl]; exact ⟨nofun, nofun, fun _ => rfl⟩
    | gt => exact ⟨nofun, nofun, nofun⟩
  | gt =>
    cases second with
    | eq => rw [hsecond rfl]; exact ⟨nofun, fun _ => rfl, fun _ => rfl⟩
    | lt => exact ⟨nofun, nofun, nofun⟩
    | gt => rw [hsame rfl]; exact ⟨nofun, nofun, fun _ => rfl⟩

end Coherent

/-! ### Doubles -/

/-- Where a double stands among the others. -/
structure Place where
  /-- The sign, two steps off zero for the infinities. -/
  height : Int
  exponent : Int
  digits : Int

namespace Place

/-- The place of a double, unless it is not a number. -/
def of? : UnpackedFloat → Option Place
  | .notANumber => none
  | .infinity .negative => some ⟨-2, 0, 0⟩
  | .finite .negative m e _ => some ⟨-1, -e, -m⟩
  | .zero _ => some ⟨0, 0, 0⟩
  | .finite .positive m e _ => some ⟨1, e, m⟩
  | .infinity .positive => some ⟨2, 0, 0⟩

def order : Place → Place → Ordering :=
  compareLex (compareOn height) (compareLex (compareOn exponent) (compareOn digits))

instance : Std.TransCmp order :=
  inferInstanceAs (Std.TransCmp (compareLex _ (compareLex _ _)))

/-- Numbers compare as integers as they do as natural numbers. -/
theorem compare_natCast (m n : Nat) : compare (m : Int) (n : Int) = compare m n := by
  simp only [compare, compareOfLessAndEq, Int.ofNat_lt, Int.natCast_inj]

/-- Negative numbers compare the other way round. -/
theorem compare_neg (i j : Int) : compare (-i) (-j) = (compare i j).swap := by
  rw [← Std.OrientedCmp.eq_swap]
  simp only [compare, compareOfLessAndEq, Int.neg_lt_neg_iff, Int.neg_inj, eq_comm]

/-- Unpacked doubles compare as their places do, if both have one. -/
theorem compare_eq (x y : UnpackedFloat) :
    x.compare y = (of? x).bind fun p => (of? y).map p.order := by
  rcases x with (_ | _) | _ | _ | ⟨_ | _, m, e, hm⟩ <;>
    rcases y with (_ | _) | _ | _ | ⟨_ | _, n, f, hn⟩
  case finite.positive.finite.positive =>
    show some ((compare e f).then (compare m n)) = some ((compare e f).then (compare (m : Int) n))
    rw [compare_natCast]
  case finite.negative.finite.negative =>
    show some ((compare e f).then (compare m n)).swap =
      some ((compare (-e) (-f)).then (compare (-(m : Int)) (-n)))
    rw [compare_neg, compare_neg, compare_natCast, Ordering.swap_then]
  -- In all other cases one of the two is not a number, or the heights decide.
  all_goals rfl

/-- Exactly what is a number has a place. -/
theorem isSome_of?_iff {x : Float} : (of? x.toModel.unpack).isSome = true ↔ x.isNaN = false := by
  show _ ↔ x.toModel.unpack.isNaN = false
  rcases x.toModel.unpack with (_ | _) | _ | _ | ⟨_ | _, m, e, hm⟩
  case notANumber => exact ⟨nofun, nofun⟩
  all_goals exact ⟨fun _ => rfl, fun _ => rfl⟩

end Place

/-- One double is less than another if it is so unpacked. -/
theorem lt_iff_unpack {a b : Float} :
    a < b ↔ a.toModel.unpack.compare b.toModel.unpack = some .lt := by
  show decide (a.toModel < b.toModel) = true ↔ _
  rw [decide_eq_true_iff]
  exact beq_iff_eq

/-- Doubles are equal if they are so unpacked. -/
theorem beq_iff_unpack {a b : Float} :
    (a == b) = true ↔ a.toModel.unpack.compare b.toModel.unpack = some .eq :=
  beq_iff_eq (α := Option Ordering)

/-- **Doubles compare as their places do.** -/
theorem compareFloats_eq (a b : Float) : compareFloats a b =
    (Place.of? a.toModel.unpack).bind fun p => (Place.of? b.toModel.unpack).map p.order := by
  unfold compareFloats
  simp only [lt_iff_unpack, beq_iff_unpack, Place.compare_eq]
  cases Place.of? a.toModel.unpack with
  | none => cases Place.of? b.toModel.unpack <;> simp
  | some p =>
    cases Place.of? b.toModel.unpack with
    | none => simp
    | some q =>
      have hback : q.order p = (p.order q).swap := Std.OrientedCmp.eq_swap
      simp only [Option.bind_some, Option.map_some, hback, Option.some.injEq]
      cases p.order q <;> rfl

/-- Comparing doubles the other way round turns the order round. -/
theorem compareFloats_swap (a b : Float) :
    compareFloats b a = (compareFloats a b).map Ordering.swap := by
  rw [compareFloats_eq, compareFloats_eq]
  cases Place.of? a.toModel.unpack with
  | none => cases Place.of? b.toModel.unpack <;> rfl
  | some p =>
    cases Place.of? b.toModel.unpack with
    | none => rfl
    | some q => exact congrArg some Std.OrientedCmp.eq_swap

/-- **Doubles that are numbers are in a linear order.** -/
theorem coherent_compareFloats {x y z : Float} (hx : x.isNaN = false) (hy : y.isNaN = false)
    (hz : z.isNaN = false) : Coherent ((compareFloats x y).getD .eq)
      ((compareFloats y z).getD .eq) ((compareFloats x z).getD .eq) := by
  obtain ⟨p, hp⟩ := Option.isSome_iff_exists.1 (Place.isSome_of?_iff.2 hx)
  obtain ⟨q, hq⟩ := Option.isSome_iff_exists.1 (Place.isSome_of?_iff.2 hy)
  obtain ⟨r, hr⟩ := Option.isSome_iff_exists.1 (Place.isSome_of?_iff.2 hz)
  simp only [compareFloats_eq, hp, hq, hr]
  exact Coherent.of_transCmp Place.order p q r

/-! ### Values -/

instance : Std.TransCmp Instant.order :=
  inferInstanceAs (Std.TransCmp (compareLex (compareOn Instant.second) (compareOn Instant.nano)))

/-- Comparing texts the other way round turns the order round. -/
theorem compareTexts_swap (a b : String) : compareTexts b a = (compareTexts a b).swap := by
  unfold compareTexts
  have hchars : compare b a = (compare a b).swap := Std.OrientedCmp.eq_swap
  cases Time.readStrict? a with
  | none => cases Time.readStrict? b <;> exact hchars
  | some s =>
    cases Time.readStrict? b with
    | none => exact hchars
    | some t => exact (Instant.order_swap s t).symm

/-- Texts that compare equal are the same, or timestamps of the same time. -/
theorem compareTexts_eq_iff {a b : String} : compareTexts a b = .eq ↔
    a = b ∨ ∃ t, Time.readStrict? a = some t ∧ Time.readStrict? b = some t := by
  unfold compareTexts
  cases ha : Time.readStrict? a with
  | none => simp
  | some s =>
    cases hb : Time.readStrict? b with
    | none => simp
    | some t =>
      simp only [Instant.order_eq_eq_iff, Option.some.injEq]
      constructor
      · rintro rfl
        exact Or.inr ⟨s, rfl, rfl⟩
      · rintro (rfl | ⟨_, rfl, rfl⟩)
        · exact Option.some.inj (ha.symm.trans hb)
        · rfl

/-- A text is equal to itself. -/
theorem compareTexts_self (a : String) : compareTexts a a = .eq :=
  compareTexts_eq_iff.2 (Or.inl rfl)

/-- Texts that are equal to the same one are equal. -/
theorem compareTexts_eq_trans {a b c : String} (hab : compareTexts a b = .eq)
    (hbc : compareTexts b c = .eq) : compareTexts a c = .eq := by
  rw [compareTexts_eq_iff] at hab hbc ⊢
  rcases hab with rfl | ⟨s, ha, hb⟩
  · exact hbc
  · rcases hbc with rfl | ⟨t, hb', hc⟩
    · exact Or.inr ⟨s, ha, hb⟩
    · obtain rfl := Option.some.inj (hb.symm.trans hb')
      exact Or.inr ⟨s, ha, hc⟩

/-- Comparing the other way round turns the order round, also where no number is involved. -/
theorem compareAlike_swap (v w : Json) : compareAlike w v = (compareAlike v w).map Ordering.swap := by
  cases v <;> cases w <;> try rfl
  case bool.bool => exact congrArg some Std.OrientedCmp.eq_swap
  case str.str => exact congrArg some (compareTexts_swap _ _)

/-- **Comparing the other way round turns the order round.** -/
theorem compareValues_swap (v w : Json) :
    compareValues w v = (compareValues v w).map Ordering.swap := by
  unfold compareValues
  rw [Bool.or_comm]
  split
  · cases numberOf? v with
    | none => cases numberOf? w <;> exact compareAlike_swap v w
    | some x =>
      cases numberOf? w with
      | none => exact compareAlike_swap v w
      | some y => exact compareFloats_swap x y
  · exact compareAlike_swap v w

/-- In which way values are compared among themselves. -/
inductive ValueKind where
  | number
  | time
  | text
  | truth
  /-- Null, lists and objects have no order; what is not a number has none either. -/
  | unordered
  deriving DecidableEq, Repr

/-- The kind of a value. -/
def Json.kind : Json → ValueKind
  | .num n => if n.toFloat.isNaN then .unordered else .number
  | .str s => if (Time.readStrict? s).isSome then .time else .text
  | .bool _ => .truth
  | .null | .arr _ | .obj _ => .unordered

/-- What is known of a value of a kind. -/
def ValueKind.Describes (v : Json) : ValueKind → Prop
  | .number => ∃ n : Number, v = .num n ∧ n.toFloat.isNaN = false
  | .time => ∃ s t, v = .str s ∧ Time.readStrict? s = some t
  | .text => ∃ s, v = .str s ∧ Time.readStrict? s = none
  | .truth => ∃ b, v = .bool b
  | .unordered => (∃ n : Number, v = .num n ∧ n.toFloat.isNaN = true) ∨ v = .null ∨
      (∃ items, v = .arr items) ∨ ∃ members, v = .obj members

/-- A value is as its kind says. -/
theorem Json.describes_kind (v : Json) : v.kind.Describes v := by
  cases v with
  | num n =>
    simp only [kind]
    split
    · next h => exact Or.inl ⟨n, rfl, h⟩
    · next h => exact ⟨n, rfl, Bool.eq_false_iff.2 h⟩
  | str s =>
    simp only [kind]
    cases h : Time.readStrict? s with
    | none => exact ⟨s, rfl, h⟩
    | some t => exact ⟨s, t, rfl, h⟩
  | bool b => exact ⟨b, rfl⟩
  | null => exact Or.inr (Or.inl rfl)
  | arr items => exact Or.inr (Or.inr (Or.inl ⟨items, rfl⟩))
  | obj members => exact Or.inr (Or.inr (Or.inr ⟨members, rfl⟩))

/-- A value of a kind is as the kind says. -/
theorem Json.kind_describes {v : Json} {kind : ValueKind} (h : v.kind = kind) : kind.Describes v :=
  h ▸ v.describes_kind

/-- Numbers compare as doubles. -/
theorem compareValues_numbers (m n : Number) :
    compareValues (.num m) (.num n) = compareFloats m.toFloat n.toFloat := rfl

/-- A text that is no timestamp compares with another one by characters. -/
theorem compareValues_texts {a b : String} (ha : Time.readStrict? a = none) :
    compareValues (.str a) (.str b) = some (compare a b) := by
  simp [compareValues, Json.asFloat?, compareAlike, compareTexts, ha]

/-- What is not a number is not compared. -/
theorem compareFloats_isNaN {x : Float} (hx : x.isNaN = true) (y : Float) :
    compareFloats x y = none := by
  have hnone : Place.of? x.toModel.unpack = none := by
    rw [← Option.not_isSome_iff_eq_none, Place.isSome_of?_iff, hx]
    decide
  rw [compareFloats_eq, hnone, Option.bind_none]

/-- Values without an order count as equal. -/
theorem compareValues_unordered {v w : Json} (hv : v.kind = .unordered) (hw : w.kind = .unordered) :
    (compareValues v w).getD .eq = .eq := by
  rcases Json.kind_describes hv with ⟨n, rfl, hn⟩ | rfl | ⟨items, rfl⟩ | ⟨members, rfl⟩ <;>
    rcases Json.kind_describes hw with ⟨m, rfl, hm⟩ | rfl | ⟨items, rfl⟩ | ⟨members, rfl⟩
  case inl.inl => rw [compareValues_numbers, compareFloats_isNaN hn, Option.getD_none]
  all_goals rfl

/-- **Values of one kind are in order.** -/
theorem coherent_compareValues {u v w : Json} (huv : u.kind = v.kind) (hvw : v.kind = w.kind) :
    Coherent ((compareValues u v).getD .eq) ((compareValues v w).getD .eq)
      ((compareValues u w).getD .eq) := by
  cases hw : w.kind with
  | number =>
    obtain ⟨n, rfl, hn⟩ := Json.kind_describes hw
    obtain ⟨m, rfl, hm⟩ := Json.kind_describes (hvw.trans hw)
    obtain ⟨l, rfl, hl⟩ := Json.kind_describes (huv.trans (hvw.trans hw))
    exact coherent_compareFloats hl hm hn
  | time =>
    obtain ⟨c, t, rfl, hc⟩ := Json.kind_describes hw
    obtain ⟨b, s, rfl, hb⟩ := Json.kind_describes (hvw.trans hw)
    obtain ⟨a, r, rfl, ha⟩ := Json.kind_describes (huv.trans (hvw.trans hw))
    rw [compareValues_times ha hb, compareValues_times hb hc, compareValues_times ha hc]
    exact Coherent.of_transCmp Instant.order r s t
  | text =>
    obtain ⟨c, rfl, -⟩ := Json.kind_describes hw
    obtain ⟨b, rfl, hb⟩ := Json.kind_describes (hvw.trans hw)
    obtain ⟨a, rfl, ha⟩ := Json.kind_describes (huv.trans (hvw.trans hw))
    rw [compareValues_texts ha, compareValues_texts hb, compareValues_texts ha]
    exact Coherent.of_transCmp compare a b c
  | truth =>
    obtain ⟨c, rfl⟩ := Json.kind_describes hw
    obtain ⟨b, rfl⟩ := Json.kind_describes (hvw.trans hw)
    obtain ⟨a, rfl⟩ := Json.kind_describes (huv.trans (hvw.trans hw))
    exact Coherent.of_transCmp compare a b c
  | unordered =>
    have hv := hvw.trans hw
    have hu := huv.trans hv
    rw [compareValues_unordered hu hv, compareValues_unordered hv hw, compareValues_unordered hu hw]
    exact Coherent.eq

/-! ### Printed times -/

/-- The order of instants by their timestamps.  Years that have not four digits are printed with a sign,
so they come first, and are compared as texts. -/
def Time.Instant.printedOrder (s t : Instant) : Ordering :=
  match decide s.FourDigitYear, decide t.FourDigitYear with
  | true, true => s.order t
  | true, false => .gt
  | false, true => .lt
  | false, false => compare s.write t.write

instance : Std.OrientedCmp Instant.printedOrder where
  eq_swap {s t} := by
    unfold Instant.printedOrder
    cases decide s.FourDigitYear with
    | true => cases decide t.FourDigitYear with
      | true => exact (Instant.order_swap t s).symm
      | false => rfl
    | false => cases decide t.FourDigitYear with
      | true => rfl
      | false => exact Std.OrientedOrd.eq_swap

instance : Std.TransCmp Instant.printedOrder where
  isLE_trans {r s t} hrs hst := by
    unfold Instant.printedOrder at *
    cases hr : decide r.FourDigitYear <;> cases hs : decide s.FourDigitYear <;>
      cases ht : decide t.FourDigitYear <;> simp only [hr, hs, ht] at *
    case true.true.true => exact Std.TransCmp.isLE_trans hrs hst
    case false.false.false => exact Std.TransOrd.isLE_trans hrs hst
    case true.true.false | false.true.false => exact nomatch hst
    case true.false.true | true.false.false => exact nomatch hrs
    case false.true.true | false.false.true => rfl

/-- **Printed times compare by year first,** as far as their years have not all four digits. -/
theorem compareValues_ofInstant {s t : Instant} (hs : s.Regular) (ht : t.Regular) :
    compareValues (.ofInstant s) (.ofInstant t) = some (s.printedOrder t) := by
  have hfar {s t : Instant} (hs : s.Regular) (ht : t.Regular) (hyear : ¬ s.FourDigitYear)
      (hyear' : t.FourDigitYear) : compareValues (.ofInstant s) (.ofInstant t) = some .lt :=
    (compareValues_texts (Time.readStrict?_write_eq_none hs hyear)).trans
      (congrArg some (Time.compare_write_of_far hs ht hyear hyear'))
  unfold Instant.printedOrder
  by_cases hyear : s.FourDigitYear
  · by_cases hyear' : t.FourDigitYear
    · rw [decide_eq_true hyear, decide_eq_true hyear']
      exact compareValues_times (Time.readStrict?_write ⟨hs, hyear⟩)
        (Time.readStrict?_write ⟨ht, hyear'⟩)
    · rw [decide_eq_true hyear, decide_eq_false hyear', compareValues_swap (.ofInstant t),
        hfar ht hs hyear' hyear]
      rfl
  · by_cases hyear' : t.FourDigitYear
    · rw [decide_eq_false hyear, decide_eq_true hyear']
      exact hfar hs ht hyear hyear'
    · rw [decide_eq_false hyear, decide_eq_false hyear']
      exact compareValues_texts (Time.readStrict?_write_eq_none hs hyear)

/-- **Printed times are in order,** whatever years they tell. -/
theorem coherent_compareValues_ofInstant {r s t : Instant} (hr : r.Regular) (hs : s.Regular)
    (ht : t.Regular) : Coherent ((compareValues (.ofInstant r) (.ofInstant s)).getD .eq)
      ((compareValues (.ofInstant s) (.ofInstant t)).getD .eq)
      ((compareValues (.ofInstant r) (.ofInstant t)).getD .eq) := by
  rw [compareValues_ofInstant hr hs, compareValues_ofInstant hs ht, compareValues_ofInstant hr ht]
  exact Coherent.of_transCmp Instant.printedOrder r s t

/-! ### Timestamps -/

/-- **Timestamps compare as the instants do that they tell.** -/
theorem Time.Timestamp.compareValues_text (x y : Time.Timestamp) :
    compareValues (.str x.text) (.str y.text) = some (x.instant.order y.instant) :=
  compareValues_times x.readStrict?_text y.readStrict?_text

/-- **Timestamps come in the order of time.**  Exactly the texts of the form of RFC 3339 are read as
instants.  Instants of the years 0 to 9999, leap seconds among them, are printed in this form, with 0, 3,
6 or 9 digits of fraction and in UTC.  They compare with each other, and with timestamps in every zone
and with every fraction, as they follow each other in time. -/
theorem compareValues_chronological :
    (∀ s t, Time.readStrict? s = some t ↔ ∃ x : Time.Timestamp, s = x.text ∧ x.instant = t) ∧
    ∀ a : Instant, a.Printable →
      (∃ x : Time.Timestamp, x.text = a.write ∧ x.instant = a ∧
        x.fraction.length ∈ [0, 3, 6, 9] ∧ x.zone = .utc 'Z' (.inl rfl)) ∧
      (∀ b : Instant, b.Printable →
        compareValues (.ofInstant a) (.ofInstant b) = some (a.order b)) ∧
      ∀ y : Time.Timestamp,
        compareValues (.ofInstant a) (.str y.text) = some (a.order y.instant) ∧
        compareValues (.str y.text) (.ofInstant a) = some (y.instant.order a) := by
  refine ⟨fun s t => Time.readStrict?_eq_some_iff, fun a ha => ⟨ha.exists_timestamp, ?_, ?_⟩⟩
  · intro b hb
    obtain ⟨x, hx, rfl, -⟩ := ha.exists_timestamp
    obtain ⟨y, hy, rfl, -⟩ := hb.exists_timestamp
    rw [Json.ofInstant, Json.ofInstant, ← hx, ← hy]
    exact x.compareValues_text y
  · intro y
    obtain ⟨x, hx, rfl, -⟩ := ha.exists_timestamp
    rw [Json.ofInstant, ← hx]
    exact ⟨x.compareValues_text y, y.compareValues_text x⟩

/-- Half a second into the leap second of 2016 is before the new year, which is given by the clock of
another zone. -/
theorem compareValues_chronological_newYear :
    (⟨1483228799, 1500000000⟩ : Instant).Printable ∧
      compareValues (.ofInstant ⟨1483228799, 1500000000⟩) (.str "2017-01-01t01:00:00.0+01:00") =
        some .lt := by
  have hleap : (⟨1483228799, 1500000000⟩ : Instant).Printable := ⟨by decide, by decide⟩
  obtain ⟨y, hy, hinstant⟩ :=
    (compareValues_chronological.1 "2017-01-01t01:00:00.0+01:00" ⟨1483228800, 0⟩).1 (by decide +kernel)
  have hcompare := (compareValues_chronological.2 _ hleap).2.2 y
  rw [← hy, hinstant] at hcompare
  exact ⟨hleap, hcompare.1⟩

end HeadlessCms
