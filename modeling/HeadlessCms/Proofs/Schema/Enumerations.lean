import HeadlessCms.Schema.ValueType
import Mathlib.Data.List.Induction
import Mathlib.Data.List.Nodup
import Mathlib.Data.List.Perm.Subperm
import Mathlib.Data.Nat.Find

/-!
# Names of enumerated values

Different values can have the same identifier, so an enumeration numbers them: `a`, `a_2`, `a_3` and so
on.  The search for a free name has no bound of its own, but the names that it tries are all different
(`EnumType.candidate_injective`), so it comes to a free one after at most as many steps as there are
names (`EnumType.exists_free`).  A numbered name may be the identifier of a later value, which is then
numbered in turn; so what holds is stated for each value with what stands before it
(`EnumType.NamedInTurn`).
-/

namespace HeadlessCms.EnumType

open HeadlessCms.Text (identifier)

/-- The name with a number, as it is tried after the name itself is taken. -/
def numbered (base : String) (k : Nat) : String :=
  base ++ "_" ++ toString k

/-- A search for a free name without a bound, from one candidate on: the candidate is free, or it is
taken and the search goes on. -/
inductive Search (taken : List String) (base : String) : Nat → String → Prop where
  | free {n : Nat} (h : candidate base n ∉ taken) : Search taken base n (candidate base n)
  | next {n : Nat} {name : String} (h : candidate base n ∈ taken)
      (later : Search taken base (n + 1) name) : Search taken base n name

/-- The name of a value where some names are taken: its identifier if that is free, and else its
identifier with the least number from 2 on that makes it free. -/
inductive Named (taken : List String) (value : String) : String → Prop where
  | plain (hfree : identifier value ∉ taken) : Named taken value (identifier value)
  | numbered {k : Nat} (htaken : identifier value ∈ taken) (htwo : 2 ≤ k)
      (hbound : k ≤ taken.length + 1) (hfree : numbered (identifier value) k ∉ taken)
      (hleast : ∀ j, 2 ≤ j → j < k → numbered (identifier value) j ∈ taken) :
      Named taken value (numbered (identifier value) k)

/-- Each value is named in view of the names before it. -/
def NamedInTurn (values : List EnumValue) : Prop :=
  ∀ before v after, values = before ++ v :: after → Named (before.map (·.name)) v.value v.name

/-! ### The search for a free name -/

/-- A numbered name is not the name itself. -/
theorem numbered_ne (base : String) (k : Nat) : numbered base k ≠ base := by
  intro h
  have hlength := congrArg String.length h
  simp only [numbered, String.length_append] at hlength
  have hunderscore : "_".length = 1 := rfl
  omega

/-- Different numbers make different names. -/
theorem numbered_inj {base : String} {j k : Nat} (h : numbered base j = numbered base k) : j = k := by
  have hrepr : j.repr = k.repr := (String.append_right_inj _).1 h
  have hdigits : Nat.toDigits 10 j = Nat.toDigits 10 k := by
    rw [← Nat.toList_repr, ← Nat.toList_repr, hrepr]
  rw [← Nat.ofDigitChars_ten_toDigits (n := j), hdigits, Nat.ofDigitChars_ten_toDigits]

/-- **No name is tried twice.** -/
theorem candidate_injective (base : String) : Function.Injective (candidate base) := by
  intro i j h
  match i, j with
  | 0, 0 => rfl
  | 0, j + 1 => exact absurd (Eq.symm h) (numbered_ne base (j + 2))
  | i + 1, 0 => exact absurd h (numbered_ne base (i + 2))
  | i + 1, j + 1 =>
    have hnumbers : i + 2 = j + 2 := numbered_inj h
    omega

/-- **Among one candidate more than there are names one is free.** -/
theorem exists_free (taken : List String) (base : String) :
    ∃ n ≤ taken.length, candidate base n ∉ taken ∧ ∀ i < n, candidate base i ∈ taken := by
  obtain ⟨n, hn, hfree⟩ : ∃ n ≤ taken.length, candidate base n ∉ taken := by
    by_contra hnone
    have hnodup : ((List.range (taken.length + 1)).map (candidate base)).Nodup :=
      List.nodup_range.map (candidate_injective base)
    have htaken : ∀ name ∈ (List.range (taken.length + 1)).map (candidate base), name ∈ taken := by
      intro name hname
      obtain ⟨n, hn, rfl⟩ := List.mem_map.1 hname
      by_contra hfree
      exact hnone ⟨n, Nat.lt_succ_iff.1 (List.mem_range.1 hn), hfree⟩
    have hlength := (hnodup.subperm htaken).length_le
    rw [List.length_map, List.length_range] at hlength
    omega
  have hsome : ∃ n, candidate base n ∉ taken := ⟨n, hfree⟩
  exact ⟨Nat.find hsome, Nat.le_trans (Nat.find_min' hsome hfree) hn, Nat.find_spec hsome,
    fun i hi => not_not.1 (Nat.find_min hsome hi)⟩

/-- The name that is taken is the first free candidate. -/
theorem freshName_eq {taken : List String} {base : String} {n : Nat} (hn : n ≤ taken.length)
    (hfree : candidate base n ∉ taken) (hearlier : ∀ i < n, candidate base i ∈ taken) :
    freshName taken base = candidate base n := by
  have hfound : (List.range (taken.length + 1)).find?
      ((fun name => !taken.contains name) ∘ candidate base) = some n := by
    rw [List.find?_range_eq_some]
    refine ⟨by simpa using hfree, List.mem_range.2 (Nat.lt_succ_of_le hn), fun i hi => ?_⟩
    simpa using hearlier i hi
  rw [freshName, List.find?_map, hfound]
  rfl

/-- The search comes to the first free candidate. -/
theorem search_of_free {taken : List String} {base : String} {n : Nat}
    (hfree : candidate base n ∉ taken) (hearlier : ∀ i < n, candidate base i ∈ taken) :
    ∀ i ≤ n, Search taken base i (candidate base n) := by
  intro i hi
  induction hi using Nat.decreasingInduction with
  | self => exact .free hfree
  | of_succ k hk ih => exact .next (hearlier k hk) ih

/-- **The name that is chosen is the identifier with the least number that makes it free.** -/
theorem named_freshName (taken : List String) (value : String) :
    Named taken value (freshName taken (identifier value)) := by
  obtain ⟨n, hn, hfree, hearlier⟩ := exists_free taken (identifier value)
  rw [freshName_eq hn hfree hearlier]
  cases n with
  | zero => exact .plain hfree
  | succ n =>
    refine .numbered (k := n + 2) (hearlier 0 (Nat.succ_pos n)) (by omega) (by omega) hfree ?_
    intro j htwo hj
    obtain ⟨i, rfl⟩ := Nat.exists_eq_add_of_le' htwo
    exact hearlier (i + 1) (by omega)

/-- **A search ends with the name of the value.** -/
theorem Named.search {taken : List String} {value name : String} (h : Named taken value name) :
    Search taken (identifier value) 0 name := by
  cases h with
  | plain hfree => exact .free hfree
  | @numbered k htaken htwo _ hfree hleast =>
    obtain ⟨n, rfl⟩ := Nat.exists_eq_add_of_le' htwo
    refine search_of_free (n := n + 1) hfree (fun i hi => ?_) 0 (Nat.zero_le _)
    cases i with
    | zero => exact htaken
    | succ i => exact hleast (i + 2) (by omega) (by omega)

/-- The name that a value gets is not taken. -/
theorem Named.notMem {taken : List String} {value name : String} (h : Named taken value name) :
    name ∉ taken := by
  cases h with
  | plain hfree => exact hfree
  | numbered _ _ _ hfree _ => exact hfree

/-! ### Values in order -/

/-- No values are named in turn. -/
theorem namedInTurn_nil : NamedInTurn [] := by
  intro before v after h
  cases before <;> cases h

/-- What is named last is named in view of all others. -/
theorem namedInTurn_append {known : List EnumValue} {v : EnumValue} (h : NamedInTurn known)
    (hv : Named (known.map (·.name)) v.value v.name) : NamedInTurn (known ++ [v]) := by
  intro before w after hsplit
  rcases List.eq_nil_or_concat after with rfl | ⟨more, last, rfl⟩
  · obtain ⟨rfl, hlast⟩ := List.append_inj' hsplit rfl
    cases hlast
    exact hv
  · rw [List.concat_eq_append, ← List.cons_append, ← List.append_assoc] at hsplit
    exact h before w more (List.append_inj' hsplit rfl).1

/-- **Values that are named in turn have different names.** -/
theorem NamedInTurn.nodup {known : List EnumValue} (h : NamedInTurn known) :
    (known.map (·.name)).Nodup := by
  induction known using List.reverseRecOn with
  | nil => exact List.nodup_nil
  | append_singleton known v ih =>
    have hknown : NamedInTurn known := fun before w after hsplit =>
      h before w (after ++ [v]) (by rw [hsplit, List.append_assoc, List.cons_append])
    have hv := (h known v [] rfl).notMem
    rw [List.map_append, List.map_singleton, ← List.concat_eq_append, List.nodup_concat]
    exact ⟨hv, ih hknown⟩

variable {known : List EnumValue}

/-- One more value is named after all others. -/
theorem namedInTurn_addValue (h : NamedInTurn known) (value : String) :
    NamedInTurn (addValue known value) := by
  unfold addValue
  split
  · exact h
  · exact namedInTurn_append h (named_freshName _ value)

/-- A value is added behind the others unless it is among them. -/
theorem map_value_addValue (known : List EnumValue) (value : String) :
    (addValue known value).map (·.value) =
      if value ∈ known.map (·.value) then known.map (·.value) else known.map (·.value) ++ [value] := by
  have hknown : known.any (·.value == value) = true ↔ value ∈ known.map (·.value) := by
    simp only [List.any_eq_true, beq_iff_eq, List.mem_map]
  unfold addValue
  simp only [hknown]
  split
  · rfl
  · rw [List.map_append, List.map_singleton]

/-- The last value is added last. -/
theorem ofValues_append (name : String) (values : List String) (value : String) :
    (ofValues name (values ++ [value])).values = addValue (ofValues name values).values value := by
  simp only [ofValues, List.foldl_append, List.foldl_cons, List.foldl_nil]

/-- **The values of an enumeration are those it is made of, in the order in which they first occur.** -/
theorem map_value_ofValues (name : String) (values : List String) :
    (ofValues name values).values.map (·.value) = values.eraseDups := by
  induction values using List.reverseRecOn with
  | nil => rfl
  | append_singleton values value ih =>
    rw [ofValues_append, map_value_addValue, ih, List.eraseDups_append]
    by_cases hvalue : value ∈ values
    · simp [hvalue, List.mem_eraseDups, List.removeAll]
    · simp [hvalue, List.mem_eraseDups, List.removeAll, List.eraseDups_cons]

/-- **An enumeration has the values that it is made of.** -/
theorem containsValue_ofValues {name s : String} {values : List String} :
    (ofValues name values).containsValue s = true ↔ s ∈ values := by
  rw [← List.mem_eraseDups, ← map_value_ofValues name]
  simp only [containsValue, List.any_eq_true, beq_iff_eq, List.mem_map]

/-- The values of an enumeration are named in turn. -/
theorem namedInTurn_ofValues (name : String) (values : List String) :
    NamedInTurn (ofValues name values).values := by
  induction values using List.reverseRecOn with
  | nil => exact namedInTurn_nil
  | append_singleton values value ih =>
    rw [ofValues_append]
    exact namedInTurn_addValue ih value

/-- **An enumeration keeps every value under a name of its own.**  Its values are those it is made of, in
the order in which they first occur, and their names are all different: the identifier of the value if no
earlier one has it, and else the identifier with the least number from 2 on that no earlier one has.  The
search for that name ends, and the number is at most one more than the number of earlier values. -/
theorem ofValues_named (name : String) (values : List String) :
    (ofValues name values).values.map (·.value) = values.eraseDups ∧
    ((ofValues name values).values.map (·.name)).Nodup ∧
    ∀ before v after, (ofValues name values).values = before ++ v :: after →
      Search (before.map (·.name)) (identifier v.value) 0 v.name ∧
      Named (before.map (·.name)) v.value v.name := by
  have hturn := namedInTurn_ofValues name values
  refine ⟨map_value_ofValues name values, hturn.nodup, fun before v after hsplit => ?_⟩
  exact ⟨(hturn before v after hsplit).search, hturn before v after hsplit⟩

/-- A numbered name can be the identifier of a value that comes later. -/
theorem ofValues_named_later :
    (ofValues "Post_status_Input" ["a", "a!", "a-2", "a"]).values =
      [⟨"a", "a"⟩, ⟨"a_2", "a!"⟩, ⟨"a_2_2", "a-2"⟩] ∧
    Search ["a", "a_2"] "a_2" 0 "a_2_2" ∧ Named ["a", "a_2"] "a-2" "a_2_2" := by
  have hvalues : (ofValues "Post_status_Input" ["a", "a!", "a-2", "a"]).values =
      [⟨"a", "a"⟩, ⟨"a_2", "a!"⟩, ⟨"a_2_2", "a-2"⟩] := by decide
  exact ⟨hvalues, (ofValues_named "Post_status_Input" ["a", "a!", "a-2", "a"]).2.2
    [⟨"a", "a"⟩, ⟨"a_2", "a!"⟩] ⟨"a_2_2", "a-2"⟩ [] hvalues⟩

end HeadlessCms.EnumType
