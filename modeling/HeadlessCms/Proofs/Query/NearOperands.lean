import HeadlessCms.Proofs.Decimal.Range
import HeadlessCms.Proofs.Query.Addressing
import HeadlessCms.Query.Geometry

/-!
# The two forms of a `near` operand

The operand of `near` is an array or a text with commas.  Both forms have the same parts
(`NearQuery.ofJson?_text`, `NearQuery.ofJson?_texts`), but an array leaves out numbers that are infinite
or not a number, while a text takes them as they are.  So an array means what the text means without
these numbers, the two agree exactly where the text has none, and only a text asks for a distance from
nowhere (`NearQuery.forms_agree`).
-/

namespace HeadlessCms

/-- Joining parts without separators and cutting again gives the parts back. -/
theorem Text.splitOn_intercalate {sep : Char} {parts : List (List Char)} (hne : parts ≠ [])
    (h : ∀ part ∈ parts, sep ∉ part) : splitOn sep ([sep].intercalate parts) = parts := by
  induction parts with
  | nil => exact absurd rfl hne
  | cons part rest ih =>
    have hpart := h part List.mem_cons_self
    cases rest with
    | nil => rw [List.intercalate_singleton, splitOn_of_notMem hpart]
    | cons next more =>
      have hrest := ih (List.cons_ne_nil _ _) fun p hp => h p (List.mem_cons_of_mem _ hp)
      rw [List.intercalate_cons_cons, List.append_assoc, List.singleton_append,
        splitOn_append_cons hpart, hrest]

namespace NearQuery

/-- A query with finite numbers only. -/
structure IsFinite (q : NearQuery) : Prop where
  x : q.origin.x.isFinite = true
  y : q.origin.y.isFinite = true
  maxDistance : ∀ d, q.maxDistance = some d → d.isFinite = true
  minDistance : ∀ d, q.minDistance = some d → d.isFinite = true

/-- What a query asks for if numbers that are not finite are left out: nothing without an origin, and
all distances without a bound. -/
def finitePart? (q : NearQuery) : Option NearQuery :=
  if q.origin.x.isFinite ∧ q.origin.y.isFinite then
    some ⟨q.origin, q.maxDistance.filter Float.isFinite, q.minDistance.filter Float.isFinite⟩
  else none

/-! ### Parts -/

variable {parts : List (Option Float)} {q : NearQuery}

/-- The first four parts make a near query, of which the first two must be numbers. -/
theorem ofParts?_eq_some_iff :
    ofParts? parts = some q ↔ (parts[0]?).join = some q.origin.x ∧ (parts[1]?).join = some q.origin.y ∧
      (parts[2]?).join = q.maxDistance ∧ (parts[3]?).join = q.minDistance := by
  obtain ⟨⟨x, y⟩, greatest, least⟩ := q
  simp [ofParts?, Option.bind_eq_some_iff]

/-- A number among the first parts stands at one of their positions. -/
theorem some_mem_take_iff {n : Float} {k : Nat} :
    some n ∈ parts.take k ↔ ∃ i < k, (parts[i]?).join = some n := by
  simp only [List.mem_iff_getElem?, List.getElem?_take, Option.join_eq_some_iff,
    Option.ite_none_right_eq_some]

/-- The numbers of a query are the numbers among the first four parts. -/
theorem isFinite_iff_of_ofParts? (h : ofParts? parts = some q) :
    q.IsFinite ↔ ∀ n, some n ∈ parts.take 4 → n.isFinite = true := by
  obtain ⟨hx, hy, hgreatest, hleast⟩ := ofParts?_eq_some_iff.1 h
  constructor
  · rintro ⟨hfx, hfy, hfgreatest, hfleast⟩ n hn
    obtain ⟨i, hi, hpart⟩ := some_mem_take_iff.1 hn
    match i, hi with
    | 0, _ => rwa [← Option.some.inj (hx.symm.trans hpart)]
    | 1, _ => rwa [← Option.some.inj (hy.symm.trans hpart)]
    | 2, _ => exact hfgreatest n (hgreatest.symm.trans hpart)
    | 3, _ => exact hfleast n (hleast.symm.trans hpart)
  · intro hparts
    have hpart (i : Nat) (hi : i < 4) (n : Float) (hn : (parts[i]?).join = some n) :
        n.isFinite = true := hparts n (some_mem_take_iff.2 ⟨i, hi, hn⟩)
    exact ⟨hpart 0 (by decide) _ hx, hpart 1 (by decide) _ hy,
      fun d hd => hpart 2 (by decide) d (hgreatest.trans hd),
      fun d hd => hpart 3 (by decide) d (hleast.trans hd)⟩

/-- Leaving out what is not finite does so at every position. -/
theorem join_getElem?_map_filter (parts : List (Option Float)) (i : Nat) :
    ((parts.map (·.filter Float.isFinite))[i]?).join = ((parts[i]?).join).filter Float.isFinite := by
  rw [List.getElem?_map]
  cases parts[i]? <;> rfl

/-- Numbers may be left out before the parts are put together, or after. -/
theorem ofParts?_map_filter (parts : List (Option Float)) :
    ofParts? (parts.map (·.filter Float.isFinite)) = (ofParts? parts).bind finitePart? := by
  unfold ofParts?
  simp only [join_getElem?_map_filter]
  cases hx : (parts[0]?).join with
  | none => rfl
  | some x =>
    cases hy : (parts[1]?).join with
    | none => cases hfx : x.isFinite <;> simp [Option.filter, hfx]
    | some y =>
      cases hfx : x.isFinite <;> cases hfy : y.isFinite <;> simp [Option.filter, finitePart?, hfx, hfy]

/-- A bound stays exactly if it is finite, or none. -/
theorem filter_eq_self_iff {bound : Option Float} :
    bound.filter Float.isFinite = bound ↔ ∀ d, bound = some d → d.isFinite = true := by
  cases bound with
  | none => simp
  | some d => simp [Option.filter_eq_some_iff]

/-- A near query is its own finite part exactly if it is finite. -/
theorem finitePart?_eq_self_iff : q.finitePart? = some q ↔ q.IsFinite := by
  obtain ⟨⟨x, y⟩, greatest, least⟩ := q
  simp only [finitePart?, Option.ite_none_right_eq_some, Option.some.injEq, NearQuery.mk.injEq,
    true_and, filter_eq_self_iff]
  exact ⟨fun ⟨⟨hx, hy⟩, hgreatest, hleast⟩ => ⟨hx, hy, hgreatest, hleast⟩,
    fun ⟨hx, hy, hgreatest, hleast⟩ => ⟨⟨hx, hy⟩, hgreatest, hleast⟩⟩

/-! ### Operands -/

/-- A part of a text is read without the white space around it: neither an empty part nor `null` is the
text of a number. -/
theorem partOfText?_eq (part : List Char) :
    partOfText? part = Decimal.readFloat? (Text.trim part) := by
  unfold partOfText?
  dsimp only
  split
  · next h =>
    rcases h with h | h
    · rw [List.isEmpty_iff.1 h]
      rfl
    · rw [h]
      rfl
  · rfl

/-- Texts with commas between them are read part by part. -/
theorem ofJson?_text {ts : List String} (hne : ts ≠ []) (hcomma : ∀ t ∈ ts, ',' ∉ t.toList) :
    ofJson? (.str (",".intercalate ts)) =
      ofParts? (ts.map fun t => Decimal.readFloat? (Text.trim t.toList)) := by
  have hparts : Text.splitOn ',' (",".intercalate ts).toList = ts.map String.toList := by
    rw [String.toList_intercalate]
    refine Text.splitOn_intercalate (mt List.map_eq_nil_iff.1 hne) ?_
    simpa using hcomma
  simp only [ofJson?, hparts, List.map_map, Function.comp_def, partOfText?_eq]

/-- A list of texts is read part by part, without what is not finite. -/
theorem ofJson?_texts (ts : List String) :
    ofJson? (.arr (ts.map .str)) = ofParts?
      ((ts.map fun t => Decimal.readFloat? (Text.trim t.toList)).map (·.filter Float.isFinite)) := by
  simp only [ofJson?, List.map_map, Function.comp_def, numberOf?]

/-- **An array means what the text means without the numbers that are not finite.** -/
theorem ofJson?_array_eq {ts : List String} (hne : ts ≠ []) (hcomma : ∀ t ∈ ts, ',' ∉ t.toList) :
    ofJson? (.arr (ts.map .str)) = (ofJson? (.str (",".intercalate ts))).bind finitePart? := by
  rw [ofJson?_texts, ofParts?_map_filter, ofJson?_text hne hcomma]

/-- The number of an item is finite: a text that is not finite counts as none. -/
theorem isFinite_of_numberOf? {v : Json} {x : Float} (hv : ∀ n, v = .num n → n.InRange)
    (h : numberOf? v = some x) : x.isFinite = true := by
  cases v with
  | num n =>
    cases h
    exact (hv n rfl).isFinite_toFloat
  | str s => exact (Option.filter_eq_some_iff.1 h).2
  | null | bool b | arr items | obj members => cases h

/-- A list of numbers in range makes a finite near query. -/
theorem isFinite_of_array {items : List Json} (hitems : ∀ n, .num n ∈ items → n.InRange)
    (h : ofJson? (.arr items) = some q) : q.IsFinite := by
  refine (isFinite_iff_of_ofParts? h).2 fun x hx => ?_
  obtain ⟨v, hv, hnumber⟩ := List.mem_map.1 (List.mem_of_mem_take hx)
  exact isFinite_of_numberOf? (fun n heq => hitems n (heq ▸ hv)) hnumber

/-- A text makes a finite near query exactly if the numbers among its first four parts
are finite. -/
theorem isFinite_text_iff {s : String} (h : ofJson? (.str s) = some q) :
    q.IsFinite ↔ ∀ part ∈ (Text.splitOn ',' s.toList).take 4, ∀ n,
      Decimal.readFloat? (Text.trim part) = some n → n.isFinite = true := by
  rw [isFinite_iff_of_ofParts? h, ← List.map_take]
  simp only [List.mem_map, partOfText?_eq]
  exact ⟨fun hfinite part hpart n hn => hfinite n ⟨part, hpart, hn⟩,
    fun hfinite n ⟨part, hpart, hn⟩ => hfinite part hpart n hn⟩

/-- **The two forms agree on finite numbers.**  An array of texts without commas asks for what the texts
joined by commas ask for, without the numbers that are infinite or not a number; so both ask for the same
exactly if all numbers of the text's query are finite.  And whatever the operand is, the numbers of its
query are finite, unless one of the first four parts of a text reads as a number that is not. -/
theorem forms_agree (operand : Json) :
    (∀ ts : List String, ts ≠ [] → (∀ t ∈ ts, ',' ∉ t.toList) → operand = .arr (ts.map .str) →
      ofJson? operand = (ofJson? (.str (",".intercalate ts))).bind finitePart? ∧
      (ofJson? operand = ofJson? (.str (",".intercalate ts)) ↔
        ∀ q, ofJson? (.str (",".intercalate ts)) = some q → q.IsFinite)) ∧
    ∀ q, (∀ items n, operand = .arr items → .num n ∈ items → n.InRange) → ofJson? operand = some q →
      (q.IsFinite ↔ ∀ s, operand = .str s → ∀ part ∈ (Text.splitOn ',' s.toList).take 4, ∀ n,
        Decimal.readFloat? (Text.trim part) = some n → n.isFinite = true) := by
  constructor
  · rintro ts hne hcomma rfl
    have harray := ofJson?_array_eq hne hcomma
    refine ⟨harray, ?_⟩
    rw [harray]
    cases htext : ofJson? (.str (",".intercalate ts)) with
    | none => simp
    | some q => simp [finitePart?_eq_self_iff]
  · intro q hnumbers h
    cases operand with
    | arr items =>
      refine iff_of_true (isFinite_of_array (fun n hn => hnumbers items n rfl hn) h) ?_
      intro s heq
      cases heq
    | str s =>
      rw [isFinite_text_iff h]
      exact ⟨fun hparts text heq => Json.str.inj heq ▸ hparts, fun hparts => hparts s rfl⟩
    | null | bool b | num n | obj members => cases h

/-- White space around a number and a bound that is left open make no difference. -/
theorem forms_agree_open : ∃ q, ofJson? (.str "10, 20 ,null,5") = some q ∧ q.IsFinite ∧
    ofJson? (.arr [.str "10", .str " 20 ", .str "null", .str "5"]) = some q := by
  have hfinite : ∀ part ∈ (Text.splitOn ',' "10, 20 ,null,5".toList).take 4,
      (Decimal.readFloat? (Text.trim part)).all Float.isFinite = true := by decide
  have htext : ofJson? (.str "10, 20 ,null,5") = some ⟨⟨10.0, 20.0⟩, none, some 5.0⟩ := rfl
  have hq := ((forms_agree (.str "10, 20 ,null,5")).2 _ (fun items n heq => nomatch heq) htext).2
    fun s heq part hpart n hn => by
      cases heq
      exact (Option.all_eq_true _ _).1 (hfinite part hpart) n hn
  have hforms := ((forms_agree (.arr [.str "10", .str " 20 ", .str "null", .str "5"])).1
    ["10", " 20 ", "null", "5"] (by decide) (by decide) rfl).2.2
    fun q h => Option.some.inj (htext.symm.trans h) ▸ hq
  exact ⟨_, htext, hq, hforms.trans htext⟩

/-- **A text takes an infinite longitude, an array does not.** -/
theorem text_takes_infinite : ∃ q, ofJson? (.str (",".intercalate ["inf", "0"])) = some q ∧
    ¬ q.IsFinite ∧ ofJson? (.arr (["inf", "0"].map .str)) = none := by
  have htext : ofJson? (.str (",".intercalate ["inf", "0"])) =
    some ⟨⟨Decimal.infinity, 0.0⟩, none, none⟩ := rfl
  have hinfinite : Decimal.infinity.isFinite = false := by decide
  refine ⟨_, htext, fun hq => ?_, rfl⟩
  exact Bool.false_ne_true (hinfinite.symm.trans hq.x)

end NearQuery

end HeadlessCms
