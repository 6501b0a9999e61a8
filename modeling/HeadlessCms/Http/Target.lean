import HeadlessCms.Text.Ascii
import HeadlessCms.Text.Split
import HeadlessCms.Text.Utf8

/-!
# Request targets

The target of a request is a path and a query, and a client may write the scheme and the host in
front of them.  The path is cut at its slashes before anything in it is decoded, so that an encoded
slash is part of a segment.  The query is a list of named values between ampersands.
-/

namespace HeadlessCms.Http

/-- The octets of a text in which a percent sign with two hexadecimal digits stands for an octet. -/
def percentDecode : List Char → List UInt8
  | '%' :: a :: b :: rest =>
    match Text.hexValue? a, Text.hexValue? b with
    | some high, some low => UInt8.ofNat (high * 16 + low) :: percentDecode rest
    | _, _ => String.utf8EncodeChar '%' ++ percentDecode (a :: b :: rest)
  | c :: rest => String.utf8EncodeChar c ++ percentDecode rest
  | [] => []

/-- The text up to the first occurrence of a character, and what comes after it. -/
def cutAt (sep : Char) (s : List Char) : List Char × List Char :=
  (s.takeWhile (· != sep), (s.dropWhile (· != sep)).drop 1)

/-- Where a request goes. -/
structure Target where
  /-- The parts of the path after its first slash, still encoded. -/
  segments : List (List Char)
  /-- The query, still encoded. -/
  query : List Char

namespace Target

/-- The characters of which the name of a scheme is made. -/
def isSchemeChar (c : Char) : Bool :=
  Text.isAsciiAlphanumeric c || "+-.".toList.contains c

/-- The path and the query of a target.  A target starts with the slash of its path, or with a
scheme and a host in front of it; a target of another form has no path. -/
def pathAndQuery (text : List Char) : List Char :=
  if text.head? = some '/' then text
  else
    match text.dropWhile isSchemeChar with
    | ':' :: '/' :: '/' :: rest => rest.dropWhile fun c => c != '/' && c != '?'
    | _ => []

/-- Reads a target; what comes after `#` is not sent. -/
def ofText (text : String) : Target :=
  let sent := (cutAt '#' text.toList).1
  let (path, query) := cutAt '?' (pathAndQuery sent)
  ⟨(Text.splitOn '/' path).drop 1, query⟩

/-- The text of a segment, if its octets are UTF-8. -/
def decodeSegment? (segment : List Char) : Option String :=
  (Text.Utf8.decode? (percentDecode segment)).map String.ofList

/-- A name or a value in a query; a plus sign stands for a space. -/
def decodeField (field : List Char) : String :=
  String.ofList (Text.Utf8.decodeLossy
    (percentDecode (field.map fun c => if c = '+' then ' ' else c)))

/-- The named values of the query in their order. -/
def parameters (t : Target) : List (String × String) :=
  ((Text.splitOn '&' t.query).filter (!·.isEmpty)).map fun field =>
    let (name, value) := cutAt '=' field
    (decodeField name, decodeField value)

end Target

end HeadlessCms.Http
