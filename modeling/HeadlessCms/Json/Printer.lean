import HeadlessCms.Json.Basic
import HeadlessCms.Decimal.Layout

/-!
# Writing JSON

The text of a value without any spaces.  Strings escape the quotation mark, the backslash and the
control characters; every other character stands for itself.
-/

namespace HeadlessCms.Json

/-- A hexadecimal digit in lower case. -/
def hexDigit (n : Nat) : Char :=
  if n < 10 then Char.ofNat ('0'.toNat + n) else Char.ofNat ('a'.toNat + n - 10)

/-- A character as it stands inside a string. -/
def escape (c : Char) : List Char :=
  if c = '"' then ['\\', '"']
  else if c = '\\' then ['\\', '\\']
  else if c = '\n' then ['\\', 'n']
  else if c = '\r' then ['\\', 'r']
  else if c = '\t' then ['\\', 't']
  else if c.toNat = 8 then ['\\', 'b']
  else if c.toNat = 12 then ['\\', 'f']
  else if c.toNat < 32 then ['\\', 'u', '0', '0', hexDigit (c.toNat / 16), hexDigit (c.toNat % 16)]
  else [c]

/-- The text of a string value. -/
def quote (s : String) : List Char :=
  '"' :: s.toList.flatMap escape ++ ['"']

/-- The text of a number. -/
def numberText : Number → List Char
  | .int i => if i < 0 then '-' :: Decimal.digitsOf i.natAbs else Decimal.digitsOf i.natAbs
  | .float x => Decimal.jsonLayout.writeFloat x

mutual

/-- The text of a value. -/
def write : Json → List Char
  | .null => ['n', 'u', 'l', 'l']
  | .bool true => ['t', 'r', 'u', 'e']
  | .bool false => ['f', 'a', 'l', 's', 'e']
  | .num n => numberText n
  | .str s => quote s
  | .arr [] => ['[', ']']
  | .arr (v :: rest) => '[' :: write v ++ writeItems rest
  | .obj [] => ['\x7b', '\x7d']
  | .obj ((k, v) :: rest) => '\x7b' :: quote k ++ ':' :: write v ++ writeMembers rest

/-- The text of the remaining items of an array, with its end. -/
def writeItems : List Json → List Char
  | [] => [']']
  | v :: rest => ',' :: write v ++ writeItems rest

/-- The text of the remaining members of an object, with its end. -/
def writeMembers : List (String × Json) → List Char
  | [] => ['\x7d']
  | (k, v) :: rest => ',' :: quote k ++ ':' :: write v ++ writeMembers rest

end

/-- The text of a value. -/
def render (v : Json) : String :=
  String.ofList (write v)

end HeadlessCms.Json
