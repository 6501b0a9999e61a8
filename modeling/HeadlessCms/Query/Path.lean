import HeadlessCms.Text.Split

/-!
# Paths

A data path names a stored value: names of fields with points between them, `points.location`.  A
query path is the form in which clients write it, with two underscores between the names,
`points__location`.  The two conversions replace one separator by the other.
-/

namespace HeadlessCms.Path

/-- Two underscores for every point, over characters. -/
def queryChars (s : List Char) : List Char :=
  s.flatMap fun c => if c = '.' then ['_', '_'] else [c]

/-- A point for every two underscores, from the left, over characters. -/
def dataChars : List Char → List Char
  | '_' :: '_' :: rest => '.' :: dataChars rest
  | c :: rest => c :: dataChars rest
  | [] => []

/-- The query path of a path in either form. -/
def toQuery (path : String) : String :=
  String.ofList (queryChars path.toList)

/-- The data path of a path in either form. -/
def toData (path : String) : String :=
  String.ofList (dataChars path.toList)

/-- The names in a data path. -/
def segments (path : String) : List String :=
  (Text.splitOn '.' path.toList).map String.ofList

/-- What separates the names in a query path. -/
def separator : String := "__"

/-- The data path at which the value of one locale is stored: the locale comes right after the first
localized path that is the path itself or lies above it. -/
def inLocale (localized : List String) (locale path : String) : String :=
  match localized with
  | [] => path
  | above :: rest =>
    if path = above then path ++ "." ++ locale
    else
      match Text.dropStart? above.toList path.toList with
      | some ('.' :: below) => above ++ "." ++ locale ++ "." ++ String.ofList below
      | _ => inLocale rest locale path

/-- A query path holds no points. -/
theorem point_notMem_queryChars (s : List Char) : '.' ∉ queryChars s := by
  unfold queryChars
  simp only [List.mem_flatMap, not_exists, not_and]
  intro c _
  split
  · decide
  · next h => simpa using fun hc => h hc.symm

end HeadlessCms.Path
