import HeadlessCms.Field.Codec
import HeadlessCms.Service.Error

/-!
# Why a request is not served

A request that cannot be understood is rejected with a status and nothing else.  A request that is
understood but fails is answered with a problem: a message for people, a code for programs, and
details where the fault is not the client's.  The code decides the status.
-/

namespace HeadlessCms.Http

/-- Why a request is not understood. -/
inductive Rejection where
  | noSuchPath
  | methodNotAllowed
  /-- A segment of the path is no text. -/
  | malformedPath
  | malformedQuery
  /-- The body does not claim to be JSON. -/
  | notJson
  | malformedBody
  /-- The body is JSON but no object. -/
  | bodyNoObject
  deriving DecidableEq, Repr

def Rejection.status : Rejection → Nat
  | noSuchPath => 404
  | methodNotAllowed => 405
  | malformedPath | malformedQuery | malformedBody => 400
  | notJson => 415
  | bodyNoObject => 422

/-- The body of an answer to a request that fails. -/
structure Problem where
  message : String
  code : String
  details : Option String
  deriving DecidableEq, Repr

namespace Problem

/-- The codes that say that something is not there. -/
def missingCodes : List String :=
  ["ENTITY_NOT_FOUND", "DOCUMENT_NOT_FOUND"]

/-- The codes that say that a request makes no sense. -/
def clientCodes : List String :=
  ["INVALID_INPUT", "INVALID_WHERE", "NOT_VERSIONED"]

/-- The status of the answer; codes that are not known are faults of the server. -/
def status (p : Problem) : Nat :=
  if missingCodes.contains p.code then 404
  else if p.code = "FORBIDDEN" then 403
  else if clientCodes.contains p.code then 400
  else 500

def toJson (p : Problem) : Json :=
  .obj ([("code", .str p.code)] ++ memberOf "details" (p.details.map .str) ++
    [("message", .str p.message)])

/-- The parameter `where` is no JSON. -/
def whereNoJson (raw : String) : Problem :=
  ⟨"'where' must be a JSON object", "INVALID_WHERE", some raw⟩

/-- The code for an error of the service. -/
def codeOf : ServiceError → String
  | .entityNotFound .. => "ENTITY_NOT_FOUND"
  | .documentNotFound .. => "DOCUMENT_NOT_FOUND"
  | .forbidden _ => "FORBIDDEN"
  | .notVersioned _ => "NOT_VERSIONED"
  | .invalidPredicate _ | .invalidWhere _ => "INVALID_WHERE"
  | .unknownLocale _ | .unknownFallbackLocale _ | .everyLocaleAtOnce => "INVALID_INPUT"
  | .schema _ => "SCHEMA_ERROR"
  | .store _ => "STORE_ERROR"
  | .mismatch _ => "SERIALIZATION_ERROR"

/-- The cause of an error inside the server. -/
def detailsOf : ServiceError → Option String
  | .store cause => some cause.message
  | .mismatch cause => some cause.message
  | _ => none

def ofServiceError (e : ServiceError) : Problem :=
  ⟨e.message, codeOf e, detailsOf e⟩

end Problem

end HeadlessCms.Http
