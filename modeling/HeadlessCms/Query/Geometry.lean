import HeadlessCms.Query.Comparison
import HeadlessCms.Query.Predicate
import HeadlessCms.Text.Split

/-!
# Points, distances and polygons

Points are stored as `[longitude, latitude]` or as a GeoJSON `Point`.  Distances are great-circle
distances in metres on a sphere with the mean radius of the earth.
-/

namespace HeadlessCms

/-- A point by longitude and latitude in degrees. -/
structure Point where
  x : Float
  y : Float

namespace Point

mutual

/-- The point that a value stands for: a pair of numbers, or an object with coordinates. -/
def ofJson? : Json → Option Point
  | .arr [a, b] => do
    let x ← a.asFloat?
    let y ← b.asFloat?
    some ⟨x, y⟩
  | .obj members => ofMembers? members
  | _ => none

/-- The point that the member `coordinates` stands for. -/
def ofMembers? : List (String × Json) → Option Point
  | [] => none
  | (key, v) :: rest => if key = "coordinates" then ofJson? v else ofMembers? rest

end

/-- The mean radius of the earth in metres. -/
def earthRadius : Float := 6371008.8

def radians (degrees : Float) : Float :=
  degrees * (3.14159265358979323846 / 180.0)

def squared (x : Float) : Float :=
  x * x

/-- The great-circle distance of two points in metres. -/
def distance (p q : Point) : Float :=
  let lng1 := radians p.x
  let lat1 := radians p.y
  let lng2 := radians q.x
  let lat2 := radians q.y
  let a := squared (Float.sin ((lat2 - lat1) / 2.0)) +
    Float.cos lat1 * Float.cos lat2 * squared (Float.sin ((lng2 - lng1) / 2.0))
  2.0 * earthRadius * Float.asin (Float.sqrt a)

end Point

/-- The lesser of two doubles; one that is not a number gives way to the other. -/
def lesser (a b : Float) : Float :=
  if a.isNaN then b else if b.isNaN then a else if b < a then b else a

/-- The greater of two doubles; one that is not a number gives way to the other. -/
def greater (a b : Float) : Float :=
  if a.isNaN then b else if b.isNaN then a else if a < b then b else a

/-- What a `near` constraint asks for: points at a distance from an origin, in metres. -/
structure NearQuery where
  origin : Point
  maxDistance : Option Float
  minDistance : Option Float

namespace NearQuery

/-- One part of an operand that is written as text; empty parts and `null` are left out. -/
def partOfText? (part : List Char) : Option Float :=
  let part := Text.trim part
  if part.isEmpty ∨ part = "null".toList then none else Decimal.readFloat? part

/-- The query of four parts, of which the first two must be there. -/
def ofParts? (parts : List (Option Float)) : Option NearQuery := do
  let x ← (parts[0]?).join
  let y ← (parts[1]?).join
  some ⟨⟨x, y⟩, (parts[2]?).join, (parts[3]?).join⟩

/-- Reads the operand of a `near` constraint: longitude, latitude, greatest and least distance, as
an array or as text with commas. -/
def ofJson? : Json → Option NearQuery
  | .arr items => ofParts? (items.map numberOf?)
  | .str s => ofParts? ((Text.splitOn ',' s.toList).map partOfText?)
  | _ => none

/-- Whether a point lies within the distances. -/
def accepts (q : NearQuery) (p : Point) : Bool :=
  let d := q.origin.distance p
  (match q.maxDistance with
    | some greatest => d ≤ greatest
    | none => true) &&
  (match q.minDistance with
    | some least => least ≤ d
    | none => true)

end NearQuery

/-- The path and the origin of the first `near` constraint that can be read. -/
def Predicate.nearOrigin? (p : Predicate) : Option (String × Point) :=
  p.leaves.findSome? fun c =>
    if c.operator = .near then (NearQuery.ofJson? c.value).map fun q => (c.path, q.origin)
    else none

/-- A closed line through points. -/
abbrev Ring := List Point

namespace Ring

/-- The ring of an array of points. -/
def ofJson? (v : Json) : Option Ring := do
  let items ← v.asArray?
  items.mapM Point.ofJson?

/-- The outer ring of a polygon, its first one. -/
def ofPolygon? (v : Json) : Option Ring := do
  let rings ← v.asArray?
  let outer ← rings.head?
  ofJson? outer

/-- The difference of 1 and the next double. -/
def epsilon : Float := 2.220446049250313e-16

/-- Whether a point lies on the edge between two points. -/
def onEdge (p a b : Point) : Bool :=
  let cross := (p.x - a.x) * (b.y - a.y) - (p.y - a.y) * (b.x - a.x)
  Float.abs cross < epsilon &&
    (lesser a.x b.x ≤ p.x && p.x ≤ greater a.x b.x) &&
    (lesser a.y b.y ≤ p.y && p.y ≤ greater a.y b.y)

/-- Whether a ray to the right of a point crosses the edge between two points. -/
def crosses (p a b : Point) : Bool :=
  ((a.y > p.y : Bool) != (b.y > p.y : Bool)) &&
    p.x < (b.x - a.x) * (p.y - a.y) / (b.y - a.y) + a.x

/-- Whether a point lies inside, the corners taken in order after `previous`: an odd number of edges
is crossed, or the point lies on an edge. -/
def containsFrom (p previous : Point) (inside : Bool) : List Point → Bool
  | [] => inside
  | corner :: rest =>
    if onEdge p corner previous then true
    else containsFrom p corner (inside != crosses p corner previous) rest

/-- Whether a point lies inside a ring or on it. -/
def contains (ring : Ring) (p : Point) : Bool :=
  match ring.getLast? with
  | none => false
  | some last => containsFrom p last false ring

end Ring

/-- The outer rings of a GeoJSON `Polygon` or `MultiPolygon`. -/
def polygonsOf? (v : Json) : Option (List Ring) := do
  let geometry ← v.asRecord?
  let coordinates ← Table.get? "coordinates" geometry
  let type ← (Table.get? "type" geometry).bind Json.asString?
  if type = "Polygon" then (Ring.ofPolygon? coordinates).map fun ring => [ring]
  else if type = "MultiPolygon" then do
    let polygons ← coordinates.asArray?
    polygons.mapM Ring.ofPolygon?
  else none

end HeadlessCms
