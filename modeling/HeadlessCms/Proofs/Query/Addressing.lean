import HeadlessCms.Proofs.Query.Matching
import Mathlib.Data.List.Infix
import Mathlib.Data.List.Chain

/-!
# Where names lead

A key joins names by two underscores, and a clause cuts it again where it finds two of them.  The
names that come back are the names that went in exactly if the key can be cut in one way only
(`Path.segments_toData_key_iff`).  They reach the values that are stored under them, unless one of
them is taken for a position in an array (`Record.resolve_key_iff`).
-/

namespace HeadlessCms

/-! ### Cutting at points -/

namespace Text

/-- A text without the separator is one part. -/
theorem splitOn_of_notMem {sep : Char} {s : List Char} (h : sep ∉ s) : splitOn sep s = [s] := by
  induction s with
  | nil => rfl
  | cons c rest ih =>
    simp only [List.mem_cons, not_or] at h
    rw [splitOn, if_neg (Ne.symm h.1), ih h.2]

/-- The first part ends at the first separator. -/
theorem splitOn_append_cons {sep : Char} {p : List Char} (h : sep ∉ p) (s : List Char) :
    splitOn sep (p ++ sep :: s) = p :: splitOn sep s := by
  induction p with
  | nil => simp [splitOn]
  | cons c rest ih =>
    simp only [List.mem_cons, not_or] at h
    rw [List.cons_append, splitOn, if_neg (Ne.symm h.1), ih h.2]

/-- No part has a separator in it. -/
theorem notMem_of_mem_splitOn {sep : Char} {s part : List Char} (h : part ∈ splitOn sep s) :
    sep ∉ part := by
  induction s generalizing part with
  | nil => simp_all [splitOn]
  | cons c rest ih =>
    unfold splitOn at h
    split at h
    · rcases List.mem_cons.1 h with rfl | h
      · simp
      · exact ih h
    · next hc =>
      split at h
      · simp only [List.mem_singleton] at h
        simpa [h] using Ne.symm hc
      · next first parts hparts =>
        rcases List.mem_cons.1 h with rfl | h
        · have hfirst : sep ∉ first := ih (hparts ▸ List.mem_cons_self)
          simpa [hfirst] using Ne.symm hc
        · exact ih (hparts ▸ List.mem_cons_of_mem _ h)

/-- Parts are cut out of the text. -/
theorem isInfix_join_of_mem {sep : Char} {parts : List (List Char)} {part : List Char}
    (h : part ∈ parts) : part <:+: join sep parts := by
  induction parts with
  | nil => simp at h
  | cons p rest ih =>
    cases rest with
    | nil =>
      rw [List.mem_singleton.1 h]
      exact List.infix_refl p
    | cons q rest =>
      rcases List.mem_cons.1 h with rfl | h
      · exact (List.prefix_append part _).isInfix
      · exact (ih h).trans ((List.suffix_cons sep _).isInfix.trans
          (List.suffix_append p _).isInfix)

/-- All parts but the last are followed by the separator. -/
theorem isInfix_join_of_mem_dropLast {sep : Char} {parts : List (List Char)} {part : List Char}
    (h : part ∈ parts.dropLast) : part ++ [sep] <:+: join sep parts := by
  induction parts with
  | nil => simp at h
  | cons p rest ih =>
    cases rest with
    | nil => simp at h
    | cons q rest =>
      rcases List.mem_cons.1 h with rfl | h
      · refine List.IsPrefix.isInfix ⟨join sep (q :: rest), ?_⟩
        simp [join]
      · exact (ih h).trans ((List.suffix_cons sep _).isInfix.trans
          (List.suffix_append p _).isInfix)

end Text

/-! ### Keys -/

namespace Path

/-- The key of a list of names. -/
def key (names : List String) : String :=
  separator.intercalate names

/-- A key of the names can be cut in one way only: no name holds a separator of either form, and
none but the last ends in an underscore. -/
structure Separable (names : List String) : Prop where
  point : ∀ name ∈ names, '.' ∉ name.toList
  underscores : ∀ name ∈ names, ¬ ['_', '_'] <:+: name.toList
  last : ∀ name ∈ names.dropLast, name.toList.getLast? ≠ some '_'

/-- Neither an underscore nor a point comes right after an underscore. -/
def Loose (a b : Char) : Prop :=
  a = '_' → b ≠ '_' ∧ b ≠ '.'

/-- The key of several names starts with the first one and two underscores. -/
theorem toList_key_cons {name : String} {names : List String} (h : names ≠ []) :
    (key (name :: names)).toList = name.toList ++ '_' :: '_' :: (key names).toList := by
  unfold key
  rw [String.intercalate_cons_of_ne_nil h]
  simp [separator]

/-- A key goes on behind the first name with the key of the others. -/
theorem key_cons {name : String} {names : List String} (h : names ≠ []) :
    key (name :: names) = name ++ separator ++ key names :=
  String.intercalate_cons_of_ne_nil h

@[simp] theorem key_singleton (name : String) : key [name] = name :=
  String.intercalate_singleton

/-- A key holds a point if a name does. -/
theorem point_mem_key_iff {names : List String} :
    '.' ∈ (key names).toList ↔ ∃ name ∈ names, '.' ∈ name.toList := by
  induction names with
  | nil => simp [key]
  | cons name rest ih =>
    by_cases hrest : rest = []
    · simp [hrest]
    · simp [toList_key_cons hrest, ih]

/-- What is no underscore stays in a path. -/
theorem dataChars_cons_of_ne {c : Char} (h : c ≠ '_') (s : List Char) :
    dataChars (c :: s) = c :: dataChars s := by
  cases s with
  | nil => rw [dataChars]; simp [h]
  | cons d s => rw [dataChars]; simp [h]

/-- A single underscore stays in a path. -/
theorem dataChars_underscore_cons {d : Char} (h : d ≠ '_') (s : List Char) :
    dataChars ('_' :: d :: s) = '_' :: dataChars (d :: s) := by
  rw [dataChars]
  simp [h]

/-- **What was cut is loose,** if there were no points in it. -/
theorem isChain_dataChars {s : List Char} (h : '.' ∉ s) : (dataChars s).IsChain Loose := by
  induction s using dataChars.induct with
  | case1 rest ih =>
    simp only [List.mem_cons, not_or] at h
    rw [dataChars, List.isChain_cons]
    exact ⟨fun _ _ hc => absurd hc (by decide), ih h.2.2⟩
  | case2 c rest hpair ih =>
    simp only [List.mem_cons, not_or] at h
    by_cases hc : c = '_'
    · subst hc
      cases rest with
      | nil => simp [dataChars]
      | cons d rest =>
        have hd : d ≠ '_' := fun heq => hpair rest rfl (heq ▸ rfl)
        have hdot : '.' ≠ d := fun heq => h.2 (heq ▸ List.mem_cons_self)
        have ih := ih h.2
        rw [dataChars_cons_of_ne hd] at ih
        rw [dataChars_underscore_cons hd, dataChars_cons_of_ne hd]
        exact List.isChain_cons_cons.2 ⟨fun _ => ⟨hd, Ne.symm hdot⟩, ih⟩
    · rw [dataChars_cons_of_ne hc, List.isChain_cons]
      exact ⟨fun _ _ heq => absurd heq hc, ih h.2⟩
  | case3 => simp [dataChars]

/-- A path without two underscores in a row stays as it is. -/
theorem dataChars_eq_self {s : List Char} (h : ¬ ['_', '_'] <:+: s) : dataChars s = s := by
  induction s using dataChars.induct with
  | case1 rest => exact absurd ⟨[], rest, rfl⟩ h
  | case2 c rest hpair ih =>
    rw [dataChars]
    · rw [ih fun hpart => h (hpart.trans (List.suffix_cons c rest).isInfix)]
    · exact hpair
  | case3 => simp [dataChars]

/-- A name and the underscores after it are cut apart. -/
theorem dataChars_append {name : List Char} (hpair : ¬ ['_', '_'] <:+: name)
    (hlast : name.getLast? ≠ some '_') (s : List Char) :
    dataChars (name ++ '_' :: '_' :: s) = name ++ '.' :: dataChars s := by
  induction name with
  | nil => simp [dataChars]
  | cons c rest ih =>
    have hrest : ¬ ['_', '_'] <:+: rest := fun hpart =>
      hpair (hpart.trans (List.suffix_cons c rest).isInfix)
    cases rest with
    | nil =>
      have hc : c ≠ '_' := fun heq => hlast (by simp [heq])
      simp [dataChars_cons_of_ne hc, dataChars]
    | cons d rest =>
      have ih := ih hrest (by simpa using hlast)
      by_cases hc : c = '_'
      · subst hc
        have hd : d ≠ '_' := by
          rintro rfl
          exact hpair ⟨[], rest, rfl⟩
        rw [List.cons_append, List.cons_append, dataChars_underscore_cons hd, ← List.cons_append, ih,
          List.cons_append, List.cons_append, List.cons_append]
      · rw [List.cons_append, dataChars_cons_of_ne hc, ih]
        rfl

/-- The key of separable names is cut into these names. -/
theorem splitOn_dataChars_key {names : List String} (h : Separable names) (hne : names ≠ []) :
    Text.splitOn '.' (dataChars (key names).toList) = names.map String.toList := by
  induction names with
  | nil => exact absurd rfl hne
  | cons name rest ih =>
    have hpoint := h.point name List.mem_cons_self
    have hpair := h.underscores name List.mem_cons_self
    by_cases hrest : rest = []
    · subst hrest
      simp [dataChars_eq_self hpair, Text.splitOn_of_notMem hpoint]
    · obtain ⟨next, more, rfl⟩ := List.exists_cons_of_ne_nil hrest
      have hlast := h.last name (by simp)
      rw [toList_key_cons hrest, dataChars_append hpair hlast, Text.splitOn_append_cons hpoint,
        List.map_cons, ih ⟨fun n hn => h.point n (.tail _ hn), fun n hn => h.underscores n (.tail _ hn),
          fun n hn => h.last n (by simpa using Or.inr hn)⟩ hrest]

/-- **The names come back exactly if the key can be cut in one way only.** -/
theorem segments_toData_key_iff {names : List String} (hne : names ≠ []) :
    segments (toData (key names)) = names ↔ Separable names := by
  have hchars : segments (toData (key names)) = names ↔
      Text.splitOn '.' (dataChars (key names).toList) = names.map String.toList := by
    unfold segments toData
    rw [String.toList_ofList]
    constructor
    · intro h
      conv_rhs => rw [← h]
      simp [List.map_map, Function.comp_def]
    · intro h
      rw [h]
      simp [List.map_map, Function.comp_def]
  rw [hchars]
  refine ⟨fun h => ?_, fun h => splitOn_dataChars_key h hne⟩
  have hmem : ∀ name ∈ names, name.toList ∈ Text.splitOn '.' (dataChars (key names).toList) := by
    intro name hname
    rw [h]
    exact List.mem_map_of_mem hname
  have hpoint : ∀ name ∈ names, '.' ∉ name.toList := fun name hname =>
    Text.notMem_of_mem_splitOn (hmem name hname)
  have hjoin := Text.join_splitOn '.' (dataChars (key names).toList)
  -- The names are parts of what was cut at points, so no point is in them and the cut text is loose.
  have hloose := isChain_dataChars (s := (key names).toList) fun hdot => by
    obtain ⟨name, hname, hdot⟩ := point_mem_key_iff.1 hdot
    exact hpoint name hname hdot
  refine ⟨hpoint, fun name hname hpair => ?_, fun name hname hlast => ?_⟩
  · have hpart := @Text.isInfix_join_of_mem '.' _ _ (hmem name hname)
    rw [hjoin] at hpart
    have hchain := List.IsChain.infix hloose (hpair.trans hpart)
    exact (List.isChain_pair.1 hchain rfl).1 rfl
  · have hdrop : name.toList ∈ (Text.splitOn '.' (dataChars (key names).toList)).dropLast := by
      rw [h, ← List.map_dropLast]
      exact List.mem_map_of_mem hname
    have hpart := @Text.isInfix_join_of_mem_dropLast '.' _ _ hdrop
    rw [hjoin] at hpart
    obtain ⟨front, hfront⟩ := List.getLast?_eq_some_iff.1 hlast
    have hpair : ['_', '.'] <:+: name.toList ++ ['.'] := by
      rw [hfront, List.append_assoc]
      exact (List.suffix_append front _).isInfix
    have hchain := List.IsChain.infix hloose (hpair.trans hpart)
    exact (List.isChain_pair.1 hchain rfl).2 rfl

end Path

/-! ### Values under names -/

namespace Json

mutual

/-- The values in an array, also in arrays inside it, or the value itself. -/
def spread : Json → List Json
  | .arr items => spreadAll items
  | v => [v]

def spreadAll : List Json → List Json
  | [] => []
  | v :: rest => v.spread ++ spreadAll rest

end

/-- The value of a member, if there is one. -/
def member? (name : String) : Json → Option Json
  | .obj members => Table.get? name members
  | _ => none

/-- The values that are stored under names, one inside the other.  What an array holds is stored
under the name of the array. -/
def under : List String → Json → List Json
  | [], v => [v]
  | name :: rest, v => (v.spread.filterMap (member? name)).flatMap (under rest)

/-- A value stored under names and nothing else. -/
def nested : List String → Json → Json
  | [], v => v
  | name :: rest, v => .obj [(name, nested rest v)]

/-- What lies under names in a value that is nested in them lies in the value itself. -/
theorem under_append_nested (names rest : List String) (v : Json) :
    under (names ++ rest) (nested names v) = under rest v := by
  induction names with
  | nil => rfl
  | cons name names ih => simp [under, nested, spread, member?, Table.get?, ih]

/-- What lies under names in a value that is nested in them is reached there. -/
theorem reach_append_nested (names rest : List String) (v : Json) :
    reach (nested names v) (names ++ rest) = reach v rest := by
  induction names with
  | nil => rfl
  | cons name names ih => simp [nested, reach, reachMember, ih]

/-- A value stored under names alone is reached by these names alone. -/
theorem reach_nested_null_iff {names segments : List String} :
    reach (nested names .null) segments = [.null] ↔ segments = names := by
  induction names generalizing segments with
  | nil => cases segments <;> simp [nested, reach]
  | cons name names ih =>
    cases segments with
    | nil => simp [nested]
    | cons segment segments =>
      by_cases h : name = segment
      · simp [nested, reach, reachMember, h, ih]
      · simp [nested, reach, reachMember, h, Ne.symm h]

mutual

/-- **A name that is no position reaches into all items.** -/
theorem reach_cons {name : String} (h : arrayIndex? name = none) (rest : List String) :
    (v : Json) → reach v (name :: rest) =
      (v.spread.filterMap (member? name)).flatMap (reach · rest)
  | .arr items => by
    simp only [reach, h]
    exact reachItems_cons h rest items
  | .obj members => by
    simp only [reach, reachMember_eq, spread, List.filterMap_cons, member?]
    cases Table.get? name members <;> simp
  | .null | .bool _ | .num _ | .str _ => by simp [reach, spread, member?]

/-- A name that is no position is looked for in all items, those of lists in lists among them. -/
theorem reachItems_cons {name : String} (h : arrayIndex? name = none) (rest : List String) :
    (items : List Json) → reachItems items (name :: rest) =
      ((spreadAll items).filterMap (member? name)).flatMap (reach · rest)
  | [] => rfl
  | v :: more => by
    rw [reachItems, spreadAll, List.filterMap_append, List.flatMap_append, reach_cons h rest v,
      reachItems_cons h rest more]

end

/-- **Names that are no positions reach what is stored under them.** -/
theorem reach_eq_under {names : List String} (h : ∀ name ∈ names, arrayIndex? name = none)
    (v : Json) : reach v names = under names v := by
  induction names generalizing v with
  | nil => simp [under]
  | cons name rest ih =>
    rw [reach_cons (h name List.mem_cons_self), under]
    exact congrArg (List.flatMap · _) (funext (ih fun n hn => h n (.tail _ hn)))

end Json

namespace Record

/-- The values at a path of a record are reached from the object of its members. -/
theorem resolve_eq_reach (record : Record) (path : String) :
    Record.resolve record path = reach (.obj record) (Path.segments path) := by
  unfold Record.resolve
  cases h : Path.segments path with
  | nil => exact absurd (List.map_eq_nil_iff.1 h) (Text.splitOn_ne_nil '.' _)
  | cons head rest => simp only [reach]

/-- **A key resolves to what is stored under its names** exactly if it can be cut in one way only
and no name behind the first is a position in an array. -/
theorem resolve_key_iff {names : List String} (hne : names ≠ []) :
    (∀ record : Record, Record.resolve record (Path.toData (Path.key names)) =
      Json.under names (.obj record)) ↔
      Path.Separable names ∧ ∀ name ∈ names.tail, arrayIndex? name = none := by
  obtain ⟨first, rest, rfl⟩ := List.exists_cons_of_ne_nil hne
  simp only [resolve_eq_reach, ← Path.segments_toData_key_iff hne, List.tail_cons]
  constructor
  · intro h
    -- A record with one value tells which names the key is cut into.
    have hnested := Json.under_append_nested (first :: rest) [] .null
    rw [List.append_nil] at hnested
    have hsegments : Path.segments (Path.toData (Path.key (first :: rest))) = first :: rest :=
      Json.reach_nested_null_iff.1 ((h [(first, Json.nested rest .null)]).trans hnested)
    refine ⟨hsegments, fun name hname => ?_⟩
    by_contra hindex
    obtain ⟨i, hi⟩ := Option.ne_none_iff_exists'.1 hindex
    obtain ⟨front, back, rfl⟩ := List.append_of_mem hname
    -- A position leads to an item of an array, where a name leads on to its members.
    let item := Json.nested (name :: back) .null
    have hitem : Json.under (name :: back) (.arr [item]) = [.null] := by
      have hself := Json.under_append_nested (name :: back) [] .null
      rw [List.append_nil] at hself
      exact hself
    have hreach := h [(first, Json.nested front (.arr [item]))]
    rw [hsegments] at hreach
    have hsplit := (Json.reach_append_nested (first :: front) (name :: back) (.arr [item])).symm.trans
      (hreach.trans (Json.under_append_nested (first :: front) (name :: back) (.arr [item])))
    rw [hitem] at hsplit
    simp only [reach, hi] at hsplit
    cases i with
    | zero =>
      have hlength := congrArg List.length (Json.reach_nested_null_iff.1 hsplit)
      simp at hlength
    | succ i => simp [reachItem] at hsplit
  · rintro ⟨hsegments, hindex⟩ record
    rw [hsegments, reach, reachMember_eq]
    simp only [Json.under, Json.spread, List.filterMap_cons, Json.member?]
    cases Table.get? first record with
    | none => simp
    | some v => simp [Json.reach_eq_under hindex]

end Record

end HeadlessCms
