import HeadlessCms.Entity.Basic

/-!
# Pages

Results are delivered in pages, counted from one.  A page says which part of the result it is; all
other figures follow from that (`Page.totalPages`, `Page.hasNext` and so on).  Products that exceed
64 bits stay at the greatest number of 64 bits.
-/

namespace HeadlessCms

/-- The greatest number of 64 bits. -/
def wordMax : Nat := wordLimit - 1

/-- A number cut off at 64 bits. -/
def saturate (n : Nat) : Nat :=
  min n wordMax

/-- A request for a page; page and limit are at least one. -/
structure Pagination where
  page : Nat
  limit : Nat
  deriving DecidableEq, Repr

namespace Pagination

/-- A request in which zeros count as ones. -/
def of (page limit : Nat) : Pagination :=
  ⟨max page 1, max limit 1⟩

/-- How many results come before the page. -/
def offset (p : Pagination) : Nat :=
  saturate ((p.page - 1) * p.limit)

end Pagination

/-- One page of a result. -/
structure Page (α : Type) where
  docs : List α
  /-- How many results there are on all pages. -/
  totalDocs : Nat
  limit : Nat
  page : Nat

namespace Page

variable {α β : Type}

/-- The page with these documents.  Without pagination everything is one page. -/
def ofDocs (docs : List α) (totalDocs : Nat) : Option Pagination → Page α
  | some p => ⟨docs, totalDocs, p.limit, p.page⟩
  | none => ⟨docs, totalDocs, max (max totalDocs docs.length) 1, 1⟩

/-- The same page with other documents. -/
def withDocs (p : Page α) (docs : List β) : Page β :=
  ⟨docs, p.totalDocs, p.limit, p.page⟩

/-- How many pages there are, at least one. -/
def totalPages (p : Page α) : Nat :=
  max ((p.totalDocs + p.limit - 1) / p.limit) 1

/-- The number of the first document of the page. -/
def pagingCounter (p : Page α) : Nat :=
  saturate (saturate ((p.page - 1) * p.limit) + 1)

def hasPrev (p : Page α) : Bool :=
  1 < p.page

def hasNext (p : Page α) : Bool :=
  p.page < p.totalPages

def prev? (p : Page α) : Option Nat :=
  if p.hasPrev then some (p.page - 1) else none

def next? (p : Page α) : Option Nat :=
  if p.hasNext then some (p.page + 1) else none

/-- The page as a JSON value, given the writing of one document. -/
def toJson (write : α → Json) (p : Page α) : Json :=
  let number : Option Nat → Json
    | some n => .nat n
    | none => .null
  .obj [("docs", .arr (p.docs.map write)), ("hasNextPage", .bool p.hasNext),
    ("hasPrevPage", .bool p.hasPrev), ("limit", .nat p.limit), ("nextPage", number p.next?),
    ("page", .nat p.page), ("pagingCounter", .nat p.pagingCounter), ("prevPage", number p.prev?),
    ("totalDocs", .nat p.totalDocs), ("totalPages", .nat p.totalPages)]

end Page

end HeadlessCms
