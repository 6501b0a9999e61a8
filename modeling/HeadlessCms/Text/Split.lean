/-!
# Cutting and joining text

Text is handled as a list of characters, so that every function here is a plain recursion.  The
main statement is `join_splitOn`: cutting at a separator and joining with it again gives the text
back.
-/

namespace HeadlessCms.Text

/-- The parts of a text between the occurrences of a separator.  There is always at least one part,
and parts may be empty. -/
def splitOn (sep : Char) : List Char → List (List Char)
  | [] => [[]]
  | c :: rest =>
    if c = sep then [] :: splitOn sep rest
    else
      match splitOn sep rest with
      | [] => [[c]]
      | part :: parts => (c :: part) :: parts

/-- The parts written one after the other with the separator between two of them. -/
def join (sep : Char) : List (List Char) → List Char
  | [] => []
  | [part] => part
  | part :: parts => part ++ sep :: join sep parts

/-- Splitting a text gives at least one part. -/
theorem splitOn_ne_nil (sep : Char) (s : List Char) : splitOn sep s ≠ [] := by
  cases s with
  | nil => simp [splitOn]
  | cons c rest => unfold splitOn; split <;> (try split) <;> simp

/-- **Cutting loses nothing.** -/
theorem join_splitOn (sep : Char) (s : List Char) : join sep (splitOn sep s) = s := by
  induction s with
  | nil => rfl
  | cons c rest ih =>
    unfold splitOn
    split
    · next h =>
      cases hr : splitOn sep rest with
      | nil => exact absurd hr (splitOn_ne_nil sep rest)
      | cons part parts => rw [hr] at ih; simp [join, ih, h]
    · cases hr : splitOn sep rest with
      | nil => exact absurd hr (splitOn_ne_nil sep rest)
      | cons part parts =>
        rw [hr] at ih
        cases parts with
        | nil => simp [join] at ih ⊢; exact ih
        | cons p ps => simp [join] at ih ⊢; exact ih

/-- What is left of a text after a given beginning, if the text begins that way. -/
def dropStart? : List Char → List Char → Option (List Char)
  | [], s => some s
  | _ :: _, [] => none
  | p :: ps, c :: cs => if p = c then dropStart? ps cs else none

/-- A start can be dropped from the texts that it starts. -/
theorem dropStart?_eq_some_iff {p s r : List Char} : dropStart? p s = some r ↔ s = p ++ r := by
  induction p generalizing s with
  | nil => simp [dropStart?]
  | cons a p ih =>
    cases s with
    | nil => simp [dropStart?]
    | cons c cs =>
      by_cases h : a = c
      · simp [dropStart?, h, ih]
      · have : ¬ c = a := fun hc => h hc.symm
        simp [dropStart?, h, this]

/-- Whether one text occurs somewhere inside another. -/
def occursIn (needle : List Char) : List Char → Bool
  | [] => needle.isEmpty
  | c :: rest => (dropStart? needle (c :: rest)).isSome || occursIn needle rest

end HeadlessCms.Text
