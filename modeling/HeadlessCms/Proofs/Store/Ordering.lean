import HeadlessCms.Proofs.Query.Comparison
import HeadlessCms.Proofs.Store.Selection
import Mathlib.Data.List.Chain

/-!
# The order of records

`Record.compareBy` puts two records in order by their values under the keys, then by distance, then by
the numbers of insertion.  Comparing the other way round turns the order round, and records with
different numbers are never equal.  Three records need not agree, though: the values under a key may be
compared in different ways (`Record.compareBy_not_transitive`).  Where the values under each key are of
one kind the order is a total one, and a selection is the one arrangement that it admits
(`Record.compareBy_totalOrder`).

Whatever the comparison does, two neighbours in a list that is sorted by `sortStably` never stand the
wrong way round (`isChain_sortStably`).  A library sort asks for comparisons that agree
(`SortKey.Orders`).
-/

namespace HeadlessCms

variable {α : Type}

/-! ### Sorting by comparisons that need not agree -/

/-- In front there stands the item that has been placed, or what stood there before. -/
theorem head?_placeBackwards (precedes : α → α → Bool) (x : α) (sorted : List α) :
    (placeBackwards precedes x sorted).head? = some x ∨
      (placeBackwards precedes x sorted).head? = sorted.head? := by
  cases sorted with
  | nil => exact Or.inl rfl
  | cons y rest =>
    unfold placeBackwards
    split
    · exact Or.inr rfl
    · exact Or.inl rfl

/-- Placing an item keeps all neighbours in order. -/
theorem isChain_placeBackwards {precedes : α → α → Bool}
    (hasymm : ∀ x y, precedes x y = true → precedes y x = false) (x : α) {sorted : List α}
    (hsorted : sorted.IsChain fun y z => precedes y z = false) :
    (placeBackwards precedes x sorted).IsChain fun y z => precedes y z = false := by
  induction sorted with
  | nil => exact List.IsChain.singleton x
  | cons y rest ih =>
    obtain ⟨hnext, hrest⟩ := List.isChain_cons.1 hsorted
    unfold placeBackwards
    split
    · next hxy =>
      refine List.isChain_cons.2 ⟨?_, ih hrest⟩
      intro z hz
      -- Behind `y` there is what was there before, or `x`.
      cases head?_placeBackwards precedes x rest with
      | inl hhere =>
        rw [hhere] at hz
        exact Option.some.inj hz ▸ hasymm x y hxy
      | inr hsame => exact hnext z (hsame ▸ hz)
    · next hxy =>
      refine List.isChain_cons.2 ⟨?_, hsorted⟩
      intro z hz
      exact Option.some.inj hz ▸ Bool.eq_false_iff.2 hxy

/-- **Neighbours are in order,** even where the order is not transitive: a property of this sort, since a
library sort promises an order for total orders only. -/
theorem isChain_sortStably {precedes : α → α → Bool}
    (hasymm : ∀ x y, precedes x y = true → precedes y x = false) (items : List α) :
    (sortStably precedes items).IsChain fun x y => precedes y x = false := by
  have hfold : ∀ placed : List α, placed.IsChain (fun y z => precedes y z = false) →
      (items.foldl (fun sorted x => placeBackwards precedes x sorted) placed).IsChain
        fun y z => precedes y z = false := by
    induction items with
    | nil => exact fun placed hplaced => hplaced
    | cons x rest ih => exact fun placed hplaced => ih _ (isChain_placeBackwards hasymm x hplaced)
  exact List.isChain_reverse.2 (hfold [] List.IsChain.nil)

/-- Items are put in order if the order is one among them. -/
theorem pairwise_sortStably_of_mem {precedes : α → α → Bool} {items : List α}
    (htrans : ∀ x ∈ items, ∀ y ∈ items, ∀ z ∈ items,
      precedes x y = true → precedes y z = true → precedes x z = true)
    (htotal : items.Pairwise fun x y => precedes x y = true ∨ precedes y x = true) :
    (sortStably precedes items).Pairwise fun x y => precedes x y = true := by
  have hattach : sortStably precedes items =
      (sortStably (fun x y : { x // x ∈ items } => precedes x y) items.attach).map Subtype.val := by
    rw [← sortStably_map, List.attach_map_subtype_val]
  rw [hattach, List.pairwise_map]
  refine pairwise_sortStably (fun x y z => htrans x x.2 y y.2 z z.2) ?_
  rw [← List.pairwise_map (f := Subtype.val) (R := fun x y => precedes x y = true ∨ precedes y x = true),
    List.attach_map_subtype_val]
  exact htotal

/-! ### Keys -/

namespace SortKey

/-- The value of a record that counts under a key. -/
def value? (key : SortKey) (record : Record) : Option Json :=
  (Record.resolve record key.path).head?

/-- Whether the values that records have under a key are of one kind. -/
def Uniform (key : SortKey) (records : List Record) : Prop :=
  ∃ kind, ∀ r ∈ records, ∀ v, key.value? r = some v → v.kind = kind

/-- Values that all have one kind are of one kind. -/
theorem Uniform.of_kinds {key : SortKey} {records : List Record} (kind : ValueKind)
    (h : ∀ r ∈ records, (key.value? r).map Json.kind = some kind) : key.Uniform records := by
  refine ⟨kind, fun r hr v hv => ?_⟩
  have hr := h r hr
  rw [hv] at hr
  exact Option.some.inj hr

/-- Fewer records have values of one kind, too. -/
theorem Uniform.subset {key : SortKey} {records some : List Record} (h : key.Uniform records)
    (hsub : some ⊆ records) : key.Uniform some := by
  obtain ⟨kind, hkind⟩ := h
  exact ⟨kind, fun r hr => hkind r (hsub hr)⟩

/-- Whether the comparisons of records under a key agree.  A library sort asks for this: where the
comparisons do not agree it promises no order, and it may fail. -/
def Orders (key : SortKey) (records : List Record) : Prop :=
  ∀ a ∈ records, ∀ b ∈ records, ∀ c ∈ records,
    Coherent (key.compare a b) (key.compare b c) (key.compare a c)

/-- The order of the values that count; a record without one comes first. -/
def order : Option Json → Option Json → Ordering
  | none, none => .eq
  | none, some _ => .lt
  | some _, none => .gt
  | some v, some w => (compareValues v w).getD .eq

/-- Records compare as their values do, turned round for the descending order. -/
theorem compare_eq (key : SortKey) (a b : Record) : key.compare a b =
    match key.direction with
    | .ascending => order (key.value? a) (key.value? b)
    | .descending => (order (key.value? a) (key.value? b)).swap := by
  unfold SortKey.compare value? order
  cases key.direction <;> cases (Record.resolve a key.path).head? <;>
    cases (Record.resolve b key.path).head? <;> rfl

/-- Comparing values the other way round turns their order round. -/
theorem order_swap (v w : Option Json) : order w v = (order v w).swap := by
  cases v with
  | none => cases w <;> rfl
  | some v =>
    cases w with
    | none => rfl
    | some w =>
      simp only [order, compareValues_swap v w]
      cases compareValues v w <;> rfl

/-- Comparing records under a key the other way round turns their order round. -/
theorem compare_swap (key : SortKey) (a b : Record) : key.compare b a = (key.compare a b).swap := by
  rw [compare_eq, compare_eq, order_swap (key.value? a)]
  cases key.direction <;> rfl

/-- **Values that are in order are so beside no value.** -/
theorem coherent_order {u v w : Option Json}
    (h : ∀ x ∈ u, ∀ y ∈ v, ∀ z ∈ w, Coherent ((compareValues x y).getD .eq)
      ((compareValues y z).getD .eq) ((compareValues x z).getD .eq)) :
    Coherent (order u v) (order v w) (order u w) := by
  cases u with
  | none =>
    cases v with
    | none =>
      cases w with
      | none => exact Coherent.eq
      | some w => exact ⟨fun _ => rfl, nofun, nofun⟩
    | some v =>
      cases w with
      | none => exact ⟨nofun, nofun, nofun⟩
      | some w => exact ⟨nofun, fun _ => rfl, fun _ => rfl⟩
  | some u =>
    cases v with
    | none =>
      cases w with
      | none => exact ⟨nofun, fun _ => rfl, nofun⟩
      | some w => exact ⟨nofun, nofun, nofun⟩
    | some v =>
      cases w with
      | none => exact ⟨fun _ => rfl, nofun, fun h => h.symm⟩
      | some w => exact h u rfl v rfl w rfl

/-- A key orders records whose values are in order. -/
theorem Orders.of_values {key : SortKey} {records : List Record}
    (h : ∀ a ∈ records, ∀ b ∈ records, ∀ c ∈ records, ∀ x ∈ key.value? a, ∀ y ∈ key.value? b,
      ∀ z ∈ key.value? c, Coherent ((compareValues x y).getD .eq) ((compareValues y z).getD .eq)
        ((compareValues x z).getD .eq)) : key.Orders records := by
  intro a ha b hb c hc
  have horder := coherent_order (h a ha b hb c hc)
  simp only [compare_eq]
  cases key.direction with
  | ascending => exact horder
  | descending => exact horder.swap

/-- **A key orders records whose values are of one kind.** -/
theorem Uniform.orders {key : SortKey} {records : List Record} (h : key.Uniform records) :
    key.Orders records := by
  obtain ⟨kind, hkind⟩ := h
  refine .of_values fun a ha b hb c hc x hx y hy z hz => ?_
  have hy := hkind b hb y hy
  exact coherent_compareValues ((hkind a ha x hx).trans hy.symm) (hy.trans (hkind c hc z hz).symm)

/-- Fewer records are in order, too. -/
theorem Orders.subset {key : SortKey} {records some : List Record} (h : key.Orders records)
    (hsub : some ⊆ records) : key.Orders some :=
  fun a ha b hb c hc => h a (hsub ha) b (hsub hb) c (hsub hc)

end SortKey

/-! ### Distances -/

/-- The lesser of a number and anything is a number. -/
theorem isNaN_lesser {x : Float} (hx : x.isNaN = false) (y : Float) : (lesser x y).isNaN = false := by
  unfold lesser
  rw [if_neg (Bool.eq_false_iff.1 hx)]
  split
  · exact hx
  · next hy =>
    split
    · exact Bool.eq_false_iff.2 hy
    · exact hx

namespace Record

/-- **A distance is always a number,** also that of a record without a point. -/
theorem isNaN_distanceTo (origin : Point) (path : String) (record : Record) :
    (distanceTo origin path record).isNaN = false := by
  have hfold : ∀ (points : List Point) (least : Float), least.isNaN = false →
      (points.foldl (fun least p => lesser least (origin.distance p)) least).isNaN = false := by
    intro points
    induction points with
    | nil => exact fun least h => h
    | cons p rest ih => exact fun least h => ih _ (isNaN_lesser h _)
  exact hfold _ _ (by decide +kernel)

/-! ### Records -/

/-- The order of records by distance, where an origin is given. -/
def byDistance (near : Option (String × Point)) (a b : Record) : Ordering :=
  match near with
  | some (path, origin) =>
    (compareFloats (distanceTo origin path a) (distanceTo origin path b)).getD .eq
  | none => .eq

/-- Without keys the distances decide, then the numbers. -/
theorem compareBy_nil (near : Option (String × Point)) (a b : Record) : compareBy [] near a b =
    (byDistance near a b).then
      (compare (counter sequenceField b) (counter sequenceField a)) := by
  cases near <;> rfl

/-- Comparing distances the other way round turns their order round. -/
theorem byDistance_swap (near : Option (String × Point)) (a b : Record) :
    byDistance near b a = (byDistance near a b).swap := by
  cases near with
  | none => rfl
  | some target =>
    simp only [byDistance]
    rw [compareFloats_swap (distanceTo target.2 target.1 a)]
    cases compareFloats (distanceTo target.2 target.1 a) (distanceTo target.2 target.1 b) <;> rfl

/-- Distances are in order. -/
theorem coherent_byDistance (near : Option (String × Point)) (a b c : Record) :
    Coherent (byDistance near a b) (byDistance near b c) (byDistance near a c) := by
  cases near with
  | none => exact Coherent.eq
  | some target =>
    have hnumber (r : Record) := isNaN_distanceTo target.2 target.1 r
    exact coherent_compareFloats (hnumber a) (hnumber b) (hnumber c)

/-- **Comparing the other way round turns the order round.** -/
theorem compareBy_swap (keys : List SortKey) (near : Option (String × Point)) (a b : Record) :
    compareBy keys near b a = (compareBy keys near a b).swap := by
  induction keys with
  | nil =>
    rw [compareBy_nil, compareBy_nil, byDistance_swap near a b, Ordering.swap_then,
      Nat.compare_swap]
  | cons key rest ih => rw [compareBy, compareBy, key.compare_swap a b, ih, Ordering.swap_then]

/-- **Only records with the same number are equal.** -/
theorem compareBy_ne_eq (keys : List SortKey) (near : Option (String × Point)) {a b : Record}
    (h : counter sequenceField a ≠ counter sequenceField b) : compareBy keys near a b ≠ .eq := by
  induction keys with
  | nil =>
    rw [compareBy_nil, ne_eq, Ordering.then_eq_eq, Nat.compare_eq_eq]
    exact fun heq => h heq.2.symm
  | cons key rest ih =>
    rw [compareBy, ne_eq, Ordering.then_eq_eq]
    exact fun heq => ih heq.2

/-- **Records are in order if each key orders them.** -/
theorem coherent_compareBy {keys : List SortKey} (near : Option (String × Point)) {a b c : Record}
    (h : ∀ key ∈ keys, key.Orders [a, b, c]) :
    Coherent (compareBy keys near a b) (compareBy keys near b c) (compareBy keys near a c) := by
  induction keys with
  | nil =>
    simp only [compareBy_nil]
    have : Std.TransCmp fun m n : Nat => compare n m := Std.TransCmp.opposite
    exact (coherent_byDistance near a b c).refine
      (Coherent.of_transCmp (fun m n : Nat => compare n m) _ _ _)
  | cons key rest ih =>
    have hfirst := h key List.mem_cons_self a (by simp) b (by simp) c (by simp)
    exact hfirst.refine (ih fun k hk => h k (List.mem_cons_of_mem _ hk))

end Record

/-! ### Selections -/

/-- The point from which a query orders its results by distance. -/
def Store.origin? (q : Query) (options : FindOptions) : Option (String × Point) :=
  if options.sort.isEmpty then q.filter.bind Predicate.nearOrigin? else none

section

variable {c : Collection} {q : Query} {options : FindOptions} {found : List Record}

/-- A selection is the sorted list of the matching records. -/
theorem Store.eq_sortStably_of_select [PatternEngine] (h : select c q options = .ok found) :
    found = sortStably
      (fun a b => Record.compareBy options.sort (origin? q options) a b == .lt)
      (c.records.filter (Predicate.selects q.filter)) := by
  obtain ⟨matched, hmatched, h⟩ := Except.bind_eq_ok_iff.1 h
  rw [← eq_filter_of_matching hmatched]
  exact (Except.ok.inj h).symm

/-- Of two records that come one before the other, the second does not come before the first. -/
theorem Record.not_lt_of_lt {keys : List SortKey} {near : Option (String × Point)} {a b : Record}
    (h : compareBy keys near a b = .lt) : compareBy keys near b a ≠ .lt := by
  rw [compareBy_swap keys near a b, h]
  decide

variable [PatternEngine]

/-- **Under a single key no neighbours stand the wrong way round,** whatever their values are.  Where the
values are not of one kind this is a property of `sortStably`: a library sort may fail there. -/
theorem Store.isChain_select (h : select c q options = .ok found) {key : SortKey}
    (hsort : options.sort = [key]) :
    found.IsChain fun a b => key.compare b a ≠ .lt := by
  rw [eq_sortStably_of_select h]
  refine (isChain_sortStably (fun a b hab => ?_) _).imp fun a b hba hlt => ?_
  · exact beq_eq_false_iff_ne.2 (Record.not_lt_of_lt (beq_iff_eq.1 hab))
  · rw [hsort, Record.compareBy, hlt] at hba
    cases hba

/-- **Selected records come one before the other,** if each key orders them. -/
theorem Store.pairwise_of_select (h : select c q options = .ok found)
    (hnumbers : c.records.Pairwise fun a b =>
      Record.counter Record.sequenceField a ≠ Record.counter Record.sequenceField b)
    (horders : ∀ key ∈ options.sort, key.Orders found) :
    found.Pairwise fun a b =>
      Record.compareBy options.sort (origin? q options) a b = .lt := by
  have hsorted := eq_sortStably_of_select h
  have hmem {r : Record} (hr : r ∈ c.records.filter (Predicate.selects q.filter)) : r ∈ found :=
    hsorted ▸ mem_sortStably.2 hr
  rw [hsorted]
  refine (pairwise_sortStably_of_mem ?_ ?_).imp beq_iff_eq.1
  · intro x hx y hy z hz hxy hyz
    have hthree (key : SortKey) (hkey : key ∈ options.sort) : key.Orders [x, y, z] := by
      refine (horders key hkey).subset ?_
      simp [List.cons_subset, hmem hx, hmem hy, hmem hz]
    have hcoherent := Record.coherent_compareBy (origin? q options) hthree
    rw [beq_iff_eq.1 hxy, beq_iff_eq.1 hyz] at hcoherent
    exact beq_iff_eq.2 (hcoherent.2.2 rfl)
  · refine (hnumbers.filter _).imp fun {x y} hne => ?_
    have hdecided := Record.compareBy_ne_eq options.sort (origin? q options) hne
    rw [Record.compareBy_swap _ _ x y]
    cases hxy : Record.compareBy options.sort (origin? q options) x y with
    | lt => exact Or.inl rfl
    | eq => exact absurd hxy hdecided
    | gt => exact Or.inr rfl

end

/-- **Records are in a total order,** as far as their values are of one kind.  Comparing two records the
other way round turns their order round; records with different numbers of insertion are never equal;
and where the values of three records under each key are of one kind, what comes before a record that
comes before another one comes before that, too.  So if the records that a query selects have different
numbers and values of one kind under each key, the result is the one arrangement of the matching records
in which each comes before all that stand behind it. -/
theorem Record.compareBy_totalOrder [PatternEngine]
    (keys : List SortKey) (near : Option (String × Point))
    (a b c : Record) :
    compareBy keys near b a = (compareBy keys near a b).swap ∧
    (counter sequenceField a ≠ counter sequenceField b → compareBy keys near a b ≠ .eq) ∧
    ((∀ key ∈ keys, key.Uniform [a, b, c]) → compareBy keys near a b = .lt →
      compareBy keys near b c = .lt → compareBy keys near a c = .lt) ∧
    ∀ (held : Collection) (q : Query) (options : FindOptions) (found : List Record),
      options.sort = keys → Store.origin? q options = near →
      Store.select held q options = .ok found →
      (held.records.Pairwise fun x y => counter sequenceField x ≠ counter sequenceField y) →
      (∀ key ∈ keys, key.Uniform found) →
      ∀ arranged : List Record, arranged = found ↔
        arranged.Perm (held.records.filter (Predicate.selects q.filter)) ∧
        arranged.Pairwise fun x y => compareBy keys near x y = .lt := by
  refine ⟨compareBy_swap keys near a b, compareBy_ne_eq keys near, ?_, ?_⟩
  · intro hkinds hab hbc
    have h := coherent_compareBy near fun key hkey => (hkinds key hkey).orders
    rw [hab, hbc] at h
    exact h.2.2 rfl
  · rintro held q options found rfl rfl hselect hnumbers hkinds arranged
    have hperm : found.Perm (held.records.filter (Predicate.selects q.filter)) :=
      Store.eq_sortStably_of_select hselect ▸ perm_sortStably _ _
    have hsorted := Store.pairwise_of_select hselect hnumbers fun key hkey =>
      (hkinds key hkey).orders
    constructor
    · rintro rfl
      exact ⟨hperm, hsorted⟩
    · rintro ⟨hsame, hpairwise⟩
      exact List.Perm.eq_of_pairwise (fun x y _ _ hxy hyx => absurd hyx (not_lt_of_lt hxy))
        hpairwise hsorted (hsame.trans hperm.symm)

/-! Notes with ranks of one kind, and ranks of which a number comes between two texts. -/

namespace Record

/-- A stored note with a rank. -/
def ranked (id : String) (number : Nat) (rank : Json) : Record :=
  Store.stamp id number 0 [("rank", rank)]

/-- Three notes with words for ranks. -/
def rankedNotes : Collection :=
  ⟨[ranked "a" 0 (.str "y"), ranked "b" 1 (.str "x"), ranked "c" 2 (.str "x")], []⟩

theorem compareBy_totalOrder_ranked :
    compareBy [.asc "rank"] none (ranked "c" 2 (.str "x")) (ranked "a" 0 (.str "y")) = .lt ∧
    ∃ found, Store.select rankedNotes ⟨"notes", none, none⟩ (.sortedBy [.asc "rank"]) = .ok found ∧
      found.map id? = [some "c", some "b", some "a"] ∧
      ∀ arranged : List Record, arranged = found ↔ arranged.Perm rankedNotes.records ∧
        arranged.Pairwise fun a b => compareBy [.asc "rank"] none a b = .lt := by
  have hanswer : (Store.select rankedNotes ⟨"notes", none, none⟩
      (.sortedBy [.asc "rank"])).toOption.map (·.map id?) = some [some "c", some "b", some "a"] := by
    decide +kernel
  obtain ⟨found, hfound, hids⟩ := Option.map_eq_some_iff.1 hanswer
  have hfound := Except.eq_ok_of_toOption hfound
  have hwords : (SortKey.asc "rank").Uniform rankedNotes.records :=
    SortKey.Uniform.of_kinds .text (by decide +kernel)
  have hkinds (records : List Record) (hsub : records ⊆ rankedNotes.records) :
      ∀ key ∈ [SortKey.asc "rank"], key.Uniform records :=
    List.forall_mem_singleton.2 (hwords.subset hsub)
  obtain ⟨_, _, htrans, hunique⟩ := compareBy_totalOrder [.asc "rank"] none
    (ranked "c" 2 (.str "x")) (ranked "b" 1 (.str "x")) (ranked "a" 0 (.str "y"))
  have hthree := hkinds [ranked "c" 2 (.str "x"), ranked "b" 1 (.str "x"), ranked "a" 0 (.str "y")]
    (by simp [rankedNotes])
  refine ⟨htrans hthree (by decide +kernel) (by decide +kernel), found, hfound, hids, ?_⟩
  exact hunique _ _ _ _ rfl rfl hfound (by decide +kernel)
    (hkinds found fun r hr => (Store.mem_select hfound hr).1)

/-- The text `"10"` comes before the text `"9"` and that before the number `9.5`, which as a number
comes before `"10"`; and what ties with each of two texts does not make them equal. -/
theorem compareBy_not_transitive :
    (compareBy [.asc "rank"] none (ranked "a" 0 (.str "10")) (ranked "b" 1 (.str "9")) = .lt ∧
      compareBy [.asc "rank"] none (ranked "b" 1 (.str "9")) (ranked "c" 2 (.num (.float 9.5))) = .lt ∧
      compareBy [.asc "rank"] none (ranked "a" 0 (.str "10")) (ranked "c" 2 (.num (.float 9.5))) = .gt) ∧
    (compareBy [.asc "rank"] none (ranked "c" 2 (.str "b")) (ranked "b" 1 (.bool true)) = .lt ∧
      compareBy [.asc "rank"] none (ranked "b" 1 (.bool true)) (ranked "a" 0 (.str "a")) = .lt ∧
      compareBy [.asc "rank"] none (ranked "c" 2 (.str "b")) (ranked "a" 0 (.str "a")) = .gt) := by
  decide +kernel

end Record

end HeadlessCms
