import HeadlessCms.Http.Endpoint
import HeadlessCms.Http.MediaType
import HeadlessCms.Http.Parameters
import HeadlessCms.Service.Write

/-!
# The server

A request is answered in a fixed order of checks: the path, the method, the named segments, the
query, the media type and the body.  Only then the service is asked, so a request that is rejected
makes no call on the store.
-/

namespace HeadlessCms.Http

/-- A request. -/
structure Request where
  method : String
  target : String
  contentType : Option String
  body : String

/-- An answer.  One without a body in JSON has none here. -/
structure Response where
  status : Nat
  body : Option Json

/-- Why a request does not get what it asks for. -/
inductive Failure where
  | rejected (r : Rejection)
  | failed (p : Problem)

def Failure.response : Failure → Response
  | .rejected r => ⟨r.status, none⟩
  | .failed p => ⟨p.status, some p.toJson⟩

/-- The value at the beginning of a body must be an object.  An array is refused without reading
it to the end; what comes after the value does not count. -/
def readBody (body : String) : Except Rejection Record :=
  match (body.toList.dropWhile Reader.isSpace).head? with
  | some '[' => .error .bodyNoObject
  | _ =>
    match (Reader.State.start.firstValue? body.toList).bind Json.normalize? with
    | none => .error .malformedBody
    | some (.obj members) => .ok members
    | some _ => .error .bodyNoObject

/-- The object that a request carries. -/
def Request.record (r : Request) : Except Rejection Record :=
  if (r.contentType.map MediaType.isJson).getD false then readBody r.body else .error .notJson

/-- What the handling of a request comes to. -/
abbrev Handling := Action Failure Response

namespace Handling

/-- A check of the request. -/
def check {α : Type} (c : Except Rejection α) : Action Failure α :=
  Action.ofExcept (c.mapError .rejected)

/-- An operation of the service. -/
def ask {α : Type} (a : Action ServiceError α) : Action Failure α :=
  Action.mapError (fun e => .failed (.ofServiceError e)) a

/-- An answer with a value. -/
def answer (status : Nat) (v : Json) : Handling :=
  pure ⟨status, some v⟩

/-- What a request for a page asks for. -/
def listParams (p : Parameters) : Action Failure FindParams := do
  let (params, clause) ← check p.forList
  let filter ← Action.ofExcept ((Parameters.readFilter clause).mapError .failed)
  pure { params with filter }

end Handling

namespace Server

open Handling

/-- Reads from an endpoint. -/
def get (s : Service) (p : Parameters) : Endpoint String → Handling
  | .collection slug => do
    let params ← listParams p
    let page ← ask (s.find slug params)
    answer 200 (page.toJson Document.toJson)
  | .whereSchema slug => do
    let schema ← ask (Action.ofExcept (s.whereSchema slug))
    answer 200 schema.toJson
  | .versions slug => do
    let params ← listParams p
    let page ← ask (s.findVersions slug params)
    answer 200 (page.toJson Version.toJson)
  | .document slug id => do
    let params ← check p.forRead
    let doc ← ask (s.findById slug id params)
    answer 200 doc.toJson
  | .global slug => do
    let params ← check p.forRead
    let record ← ask (s.findGlobal slug params)
    answer 200 (.obj record)
  | .globalVersions slug => do
    let params ← listParams p
    let page ← ask (s.findGlobalVersions slug params)
    answer 200 (page.toJson Version.toJson)

/-- Creates a document, or creates or changes a global. -/
def post (s : Service) (r : Request) (p : Parameters) : Endpoint String → Handling
  | .collection slug => do
    let params ← check p.forSave
    let data ← check r.record
    let doc ← ask (s.create slug data params)
    answer 201 doc.toJson
  | .global slug => do
    let params ← check p.forSave
    let data ← check r.record
    let record ← ask (s.saveGlobal slug data params)
    answer 200 (.obj record)
  | _ => throw (.rejected .methodNotAllowed)

/-- Changes a document. -/
def patch (s : Service) (r : Request) (p : Parameters) : Endpoint String → Handling
  | .document slug id => do
    let params ← check p.forSave
    let data ← check r.record
    let doc ← ask (s.update slug id data params)
    answer 200 doc.toJson
  | _ => throw (.rejected .methodNotAllowed)

/-- Whether an endpoint serves a kind of request. -/
def serves {α : Type} : Verb → Endpoint α → Bool
  | .get, _ | .head, _ => true
  | .post, .collection _ | .post, .global _ => true
  | .patch, .document .. => true
  | _, _ => false

/-- Handles a request. -/
def handle (s : Service) (r : Request) : Handling := do
  let target := Target.ofText r.target
  let verb := Verb.ofText r.method
  match Endpoint.ofSegments? target.segments with
  | none => throw (.rejected .noSuchPath)
  | some path =>
    if !serves verb path then throw (.rejected .methodNotAllowed)
    match path.mapM? Target.decodeSegment? with
    | none => throw (.rejected .malformedPath)
    | some endpoint =>
      match verb with
      | .get | .head => get s target.parameters endpoint
      | .post => post s r target.parameters endpoint
      | .patch => patch s r target.parameters endpoint
      | .other => throw (.rejected .methodNotAllowed)

/-- Answers a request. -/
def respond (s : Service) (r : Request) : Process Response := do
  let outcome ← ExceptT.run (handle s r)
  let response :=
    match outcome with
    | .ok response => response
    | .error failure => failure.response
  pure (if Verb.ofText r.method = .head then { response with body := none } else response)

end Server

end HeadlessCms.Http
