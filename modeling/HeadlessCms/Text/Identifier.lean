import HeadlessCms.Text.Ascii

/-!
# Identifiers of generated types

Names of generated types are built from field names, labels and option values.  `identifier` makes
any text usable as such a name: `[_A-Za-z][_0-9A-Za-z]*`.
-/

namespace HeadlessCms.Text

/-- Punctuation that leaves an underscore behind. -/
def leavesUnderscore (c : Char) : Bool :=
  c == '.' || c == '-' || c == '/' || c == '+' || c == ',' || c == '(' || c == ')' || c == '\''

/-- What one character contributes to an identifier: ASCII letters, digits and the underscore stand
for themselves, some punctuation becomes an underscore, all else disappears. -/
def identifierPart (c : Char) : List Char :=
  if leavesUnderscore c then ['_']
  else if isAsciiAlphanumeric c || c == '_' then [c]
  else []

/-- The identifier of a text, over characters.  A text that starts with a digit gets an underscore
in front, and so does a text of which nothing remains. -/
def identifierChars (raw : List Char) : List Char :=
  let guarded :=
    match raw with
    | c :: _ => if isAsciiDigit c then ['_'] else []
    | [] => []
  match guarded ++ raw.flatMap identifierPart with
  | [] => ['_']
  | formatted => formatted

/-- The identifier of a text. -/
def identifier (raw : String) : String :=
  String.ofList (identifierChars raw.toList)

/-- The name of a type generated for `name` inside `parent`. -/
def qualified (parent name : String) : String :=
  identifier (parent ++ "_" ++ name)

end HeadlessCms.Text
