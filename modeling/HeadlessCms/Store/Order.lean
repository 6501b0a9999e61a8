import HeadlessCms.Query.Matching

/-!
# The order of results

Records are ordered by the requested keys.  Records that are equal under all keys come nearest first
when points near another one were asked for, and the latest inserted first otherwise.
-/

namespace HeadlessCms

inductive SortDirection where
  | ascending
  | descending
  deriving DecidableEq, Repr

/-- An order by the first value at a data path. -/
structure SortKey where
  path : String
  direction : SortDirection
  deriving DecidableEq, Repr

namespace SortKey

def asc (path : String) : SortKey := ⟨path, .ascending⟩

def desc (path : String) : SortKey := ⟨path, .descending⟩

/-- Reads a key: a path in either form, with a hyphen in front for the descending order. -/
def ofChars? (raw : List Char) : Option SortKey :=
  match Path.dataChars (Text.trim raw) with
  | [] => none
  | ['-'] => none
  | '-' :: path => some (desc (String.ofList path))
  | path => some (asc (String.ofList path))

/-- Reads a key. -/
def ofText? (raw : String) : Option SortKey :=
  ofChars? raw.toList

/-- Reads keys with commas between them; parts that are no key are left out. -/
def listOfText (raw : String) : List SortKey :=
  (Text.splitOn ',' raw.toList).filterMap ofChars?

/-- The order of two records under a key.  A record without a value comes first, and values without
an order count as equal. -/
def compare (key : SortKey) (a b : Record) : Ordering :=
  let order : Ordering :=
    match (Record.resolve a key.path).head?, (Record.resolve b key.path).head? with
    | none, none => .eq
    | none, some _ => .lt
    | some _, none => .gt
    | some v, some w => (compareValues v w).getD .eq
  match key.direction with
  | .ascending => order
  | .descending => order.swap

end SortKey

namespace Record

/-- Under this name the store numbers the records it has inserted. -/
def sequenceField : String := "_seq"

/-- Under this name the store counts the changes of a record. -/
def revisionField : String := "__v"

/-- A record without what the store keeps for itself. -/
def sanitize (record : Record) : Record :=
  Table.erase revisionField (Table.erase sequenceField record)

/-- A number that the store keeps in a record. -/
def counter (field : String) (record : Record) : Nat :=
  ((Table.get? field record).bind Json.asNat?).getD 0

/-- The id of a record, if it has one. -/
def id? (record : Record) : Option String :=
  (Table.get? "id" record).bind Json.asString?

/-- The distance from a point to the nearest of the points at a path. -/
def distanceTo (origin : Point) (path : String) (record : Record) : Float :=
  ((Record.resolve record path).filterMap Point.ofJson?).foldl
    (fun least p => lesser least (origin.distance p)) Decimal.infinity

/-- The order of two records by the keys, then by distance, then by insertion. -/
def compareBy (keys : List SortKey) (near : Option (String × Point)) (a b : Record) : Ordering :=
  match keys with
  | key :: rest => (key.compare a b).then (compareBy rest near a b)
  | [] =>
    let byDistance : Ordering :=
      match near with
      | some (path, origin) =>
        (compareFloats (distanceTo origin path a) (distanceTo origin path b)).getD .eq
      | none => .eq
    byDistance.then (compare (counter sequenceField b) (counter sequenceField a))

end Record

/-- Puts an item into a list that is in reverse order, behind all items that it comes before. -/
def placeBackwards {α : Type} (precedes : α → α → Bool) (x : α) : List α → List α
  | [] => [x]
  | y :: rest => if precedes x y then y :: placeBackwards precedes x rest else x :: y :: rest

/-- A list in order, items of equal rank in the order they had.  It stands for the stable sort of a
library, which promises an order where the comparison is a total one, and may fail otherwise.  Where the
comparison is none, the list that comes out here, and that neighbours in it never stand the wrong way
round, is a property of this sort alone. -/
def sortStably {α : Type} (precedes : α → α → Bool) (items : List α) : List α :=
  (items.foldl (fun sorted x => placeBackwards precedes x sorted) []).reverse

end HeadlessCms
