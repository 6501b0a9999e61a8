import HeadlessCms.Http.Problem
import HeadlessCms.Http.Target

/-!
# Endpoints

| path | methods |
|---|---|
| `/api/:slug` | GET a page of documents, POST a new document |
| `/api/:slug/where-schema` | GET the where-schema |
| `/api/:slug/versions` | GET a page of versions |
| `/api/:slug/:id` | GET a document, PATCH a document |
| `/api/globals/:slug` | GET a global, POST a global |
| `/api/globals/:slug/versions` | GET a page of versions of a global |

Fixed segments go before named ones.  A named segment may be empty unless it is the last.
-/

namespace HeadlessCms.Http

/-- What a path leads to, over the type of its named segments. -/
inductive Endpoint (α : Type) where
  | collection (slug : α)
  | whereSchema (slug : α)
  | versions (slug : α)
  | document (slug id : α)
  | global (slug : α)
  | globalVersions (slug : α)
  deriving DecidableEq, Repr

namespace Endpoint

/-- The endpoint of a path. -/
def ofSegments? : List (List Char) → Option (Endpoint (List Char))
  | [api, first] => if isApi api ∧ first ≠ [] then some (.collection first) else none
  | [api, first, second] =>
    if !isApi api || second.isEmpty then none
    else if first = "globals".toList then some (.global second)
    else if second = "where-schema".toList then some (.whereSchema first)
    else if second = "versions".toList then some (.versions first)
    else some (.document first second)
  | [api, first, second, third] =>
    if isApi api ∧ first = "globals".toList ∧ third = "versions".toList then
      some (.globalVersions second)
    else none
  | _ => none
where
  /-- Whether a segment is the one with which all paths start. -/
  isApi (segment : List Char) : Bool :=
    segment == "api".toList

/-- The endpoint with its named segments read, if each can be read. -/
def mapM? {α β : Type} (read : α → Option β) : Endpoint α → Option (Endpoint β)
  | .collection slug => (read slug).map .collection
  | .whereSchema slug => (read slug).map .whereSchema
  | .versions slug => (read slug).map .versions
  | .document slug id => do
    let slug ← read slug
    let id ← read id
    some (.document slug id)
  | .global slug => (read slug).map .global
  | .globalVersions slug => (read slug).map .globalVersions

end Endpoint

/-- What a request wants to do. -/
inductive Verb where
  | get
  /-- Like `get`, but only the status of the answer is asked for. -/
  | head
  | post
  | patch
  | other
  deriving DecidableEq, Repr

def Verb.ofText (method : String) : Verb :=
  if method = "GET" then .get
  else if method = "HEAD" then .head
  else if method = "POST" then .post
  else if method = "PATCH" then .patch
  else .other

end HeadlessCms.Http
