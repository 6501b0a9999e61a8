import HeadlessCms.Schema.Compile
import HeadlessCms.Schema.Validate
import HeadlessCms.Store.Basic

/-!
# Why a request fails

The errors of the service.  Errors of the parts it is built from are passed on as causes.
-/

namespace HeadlessCms

inductive ServiceError where
  | entityNotFound (kind : EntityKind) (slug : String)
  /-- There is no such document, or the reader may not see it. -/
  | documentNotFound (slug id : String)
  | forbidden (slug : String)
  | notVersioned (slug : String)
  | invalidPredicate (cause : PredicateError)
  | invalidWhere (cause : WhereError)
  | schema (cause : SchemaError)
  | unknownLocale (locale : String)
  | unknownFallbackLocale (locale : String)
  /-- A document is written in one locale at a time. -/
  | everyLocaleAtOnce
  | store (cause : StoreError)
  /-- A stored record is no document. -/
  | mismatch (cause : Mismatch)

namespace ServiceError

def message : ServiceError → String
  | entityNotFound kind slug => s!"Unknown {kind.name}: {slug}"
  | documentNotFound slug id => s!"Document not found in '{slug}': {id}"
  | forbidden slug => s!"Not allowed to read '{slug}'"
  | notVersioned slug => s!"'{slug}' is not versioned"
  | invalidPredicate cause => s!"Invalid where clause: {cause.message}"
  | invalidWhere cause => s!"Invalid where clause: {cause.message}"
  | schema cause => s!"Schema error: {cause.message}"
  | unknownLocale locale => s!"Invalid input: Unknown locale '{locale}'"
  | unknownFallbackLocale locale => s!"Invalid input: Unknown fallback locale '{locale}'"
  | everyLocaleAtOnce => "Invalid input: Documents cannot be written in every locale at once"
  | store cause => s!"Store operation failed: {cause.message}"
  | mismatch cause => s!"Serialization error: {cause.message}"

end ServiceError

end HeadlessCms
