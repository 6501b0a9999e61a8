import HeadlessCms.Text.Ascii
import HeadlessCms.Text.Split

/-!
# Media types

A body is read as JSON if its media type is `application/json`, or a type under `application` whose
name ends in `+json`.  Parameters may follow, but they must be well-formed.  Letters may be in
either case.
-/

namespace HeadlessCms.Http.MediaType

/-- The characters of which names in a media type are made. -/
def isTokenChar (c : Char) : Bool :=
  Text.isAsciiAlphanumeric c || "!#$%&'*+-.^_`|~".toList.contains c

/-- What may stand between quotation marks.  A backslash is a character like the others there, and a
quotation mark that comes first does not end the quotation. -/
def isQuotable (c : Char) : Bool :=
  32 ≤ c.toNat && c.toNat < 127

/-- Where the reading of parameters stands. -/
inductive Phase where
  /-- Before a parameter. -/
  | start
  | name
  /-- After the equality sign. -/
  | valueStart
  | value
  /-- After the first quotation mark. -/
  | quotedStart
  | quoted
  /-- After the second quotation mark. -/
  | afterQuoted
  deriving DecidableEq

/-- What parameters may go on with. -/
def Phase.next? (phase : Phase) (c : Char) : Option Phase :=
  match phase with
  | .start => if c = ' ' then some .start else if isTokenChar c then some .name else none
  | .name => if c = '=' then some .valueStart else if isTokenChar c then some .name else none
  | .valueStart =>
    if c = '"' then some .quotedStart else if isTokenChar c then some .value else none
  | .value => if c = ';' then some .start else if isTokenChar c then some .value else none
  | .quotedStart => if isQuotable c then some .quoted else none
  | .quoted =>
    if c = '"' then some .afterQuoted else if isQuotable c then some .quoted else none
  | .afterQuoted =>
    if c = ';' then some .start else if c = ' ' then some .afterQuoted else none

/-- Whether parameters may end here. -/
def Phase.isComplete : Phase → Bool
  | .start | .valueStart | .value | .afterQuoted => true
  | _ => false

/-- Whether a text is well-formed as the parameters of a media type. -/
def areParameters (s : List Char) : Bool :=
  match s.foldlM Phase.next? .start with
  | some phase => phase.isComplete
  | none => false

/-- Whether a name under `application` stands for a JSON format: before or after its last plus sign
it is `json`. -/
def namesJson (subtype : List Char) : Bool :=
  let ending := (subtype.reverse.takeWhile (· != '+')).reverse
  let base := subtype.take (subtype.length - ending.length - 1)
  if base.isEmpty then subtype == "json".toList
  else base == "json".toList || ending == "json".toList

/-- Whether a media type stands for a JSON format. -/
def isJson (text : String) : Bool :=
  let (essence, parameters) := (text.toList.takeWhile (· != ';'),
    (text.toList.dropWhile (· != ';')).drop 1)
  match Text.splitOn '/' (essence.map Char.toLower) with
  | [type, subtype] =>
    type == "application".toList && subtype.all isTokenChar && namesJson subtype &&
      areParameters parameters
  | _ => false

end HeadlessCms.Http.MediaType
