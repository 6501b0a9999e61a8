import HeadlessCms.Entity.Basic
import HeadlessCms.Json.Reader
import HeadlessCms.Text.Blank

/-!
# Configuration

One JSON document declares the collections, the globals, the locales and the settings of the server.
`Config.ofText` reads and checks it; `Config.load` also lets an environment variable replace the
port.
-/

namespace HeadlessCms

/-- The locales in which documents are stored. -/
structure Locales where
  names : List String
  default : String
  /-- Whether a missing value is replaced by that of the default locale. -/
  fallback : Bool
  deriving DecidableEq, Repr

def Locales.has (l : Locales) (locale : String) : Bool :=
  l.names.contains locale

structure ServerSettings where
  host : String
  port : Nat
  deriving DecidableEq, Repr

def ServerSettings.standard : ServerSettings :=
  ⟨"127.0.0.1", 3000⟩

def ServerSettings.address (s : ServerSettings) : String :=
  s.host ++ ":" ++ toString s.port

/-- How many documents a page holds. -/
structure PageLimits where
  default : Nat
  max : Nat
  deriving DecidableEq, Repr

def PageLimits.standard : PageLimits :=
  ⟨10, 100⟩

/-- The size of a page for a request: the default unless a positive size is asked for, and never more
than the maximum. -/
def PageLimits.clamp (limits : PageLimits) (requested : Option Nat) : Nat :=
  min ((requested.filter (0 < ·)).getD limits.default) limits.max

/-- The whole configuration. -/
structure Config where
  collections : List Entity
  globals : List Entity
  localization : Option Locales
  server : ServerSettings
  pagination : PageLimits

/-- Why there is no configuration. -/
inductive ConfigError where
  /-- The file cannot be read. -/
  | unreadable
  /-- The text is no configuration. -/
  | malformed
  | duplicateSlug (slug : String)
  | emptySlug
  | reservedSlug (slug : String)
  | noLocales
  | unknownDefaultLocale (locale : String)
  | limitIsZero
  | defaultAboveMax (default max : Nat)
  | invalidPort (text : String)
  deriving DecidableEq, Repr

/-- The environment variable that replaces the port. -/
def portVariable : String := "CONTENTFORGE_PORT"

def ConfigError.message : ConfigError → String
  | .unreadable => "Failed to read configuration"
  | .malformed => "Invalid configuration JSON"
  | .duplicateSlug slug => s!"Slug '{slug}' is declared more than once"
  | .emptySlug => "Entity slugs cannot be empty"
  | .reservedSlug slug => s!"Slug '{slug}' is reserved"
  | .noLocales => "Localization needs at least one locale"
  | .unknownDefaultLocale locale =>
    s!"Default locale '{locale}' is not one of the configured locales"
  | .limitIsZero => "Invalid pagination: limits must be greater than 0"
  | .defaultAboveMax default max =>
    s!"Invalid pagination: defaultLimit {default} exceeds maxLimit {max}"
  | .invalidPort text => s!"Invalid port in {portVariable}: '{text}'"

/-! ### JSON -/

open Typed

def Locales.ofJson (v : Json) : Typed Locales := do
  let members ← Json.readMembers ["locales", "defaultLocale", "fallback"] v
  let names ← need "locales" (Json.readList Json.readString) members
  let default ← need "defaultLocale" Json.readString members
  let fallback ← orDefault "fallback" true Json.readBool members
  .ok ⟨names, default, fallback⟩

def Locales.toJson (l : Locales) : Json :=
  .obj [("defaultLocale", .str l.default), ("fallback", .bool l.fallback),
    ("locales", stringArray l.names)]

/-- Ports have 16 bits. -/
def portLimit : Nat := Nat.pow 2 16

def ServerSettings.ofJson (v : Json) : Typed ServerSettings := do
  let members ← Json.readMembers ["host", "port"] v
  let host ← orDefault "host" standard.host Json.readString members
  let port ← orDefault "port" standard.port (Json.readNat portLimit) members
  .ok ⟨host, port⟩

def ServerSettings.toJson (s : ServerSettings) : Json :=
  .obj [("host", .str s.host), ("port", .nat s.port)]

def PageLimits.ofJson (v : Json) : Typed PageLimits := do
  let members ← Json.readMembers ["defaultLimit", "maxLimit"] v
  let default ← orDefault "defaultLimit" standard.default (Json.readNat wordLimit) members
  let max ← orDefault "maxLimit" standard.max (Json.readNat wordLimit) members
  .ok ⟨default, max⟩

def PageLimits.toJson (p : PageLimits) : Json :=
  .obj [("defaultLimit", .nat p.default), ("maxLimit", .nat p.max)]

namespace Config

def ofJson (v : Json) : Typed Config := do
  let members ←
    Json.readMembers ["collections", "globals", "localization", "server", "pagination"] v
  let collections ← orDefault "collections" [] (Json.readList Entity.ofJson) members
  let globals ← orDefault "globals" [] (Json.readList Entity.ofJson) members
  let localization ← nullable "localization" Locales.ofJson members
  let server ← orDefault "server" .standard ServerSettings.ofJson members
  let pagination ← orDefault "pagination" .standard PageLimits.ofJson members
  .ok { collections, globals, localization, server, pagination }

def toJson (c : Config) : Json :=
  .obj ([("collections", .arr (c.collections.map Entity.toJson)),
      ("globals", .arr (c.globals.map Entity.toJson))] ++
    memberOf "localization" (c.localization.map Locales.toJson) ++
    [("pagination", c.pagination.toJson), ("server", c.server.toJson)])

/-! ### Checks -/

/-- Slugs that name something else in the store and in the routes. -/
def reservedSlugs : List String := ["globals"]

/-- Checks slugs one after the other; `seen` are those before. -/
def checkSlugs (seen : List String) : List String → Except ConfigError Unit
  | [] => .ok ()
  | slug :: rest =>
    if (Text.trim slug.toList).isEmpty then .error .emptySlug
    else if reservedSlugs.contains slug then .error (.reservedSlug slug)
    else if seen.contains slug then .error (.duplicateSlug slug)
    else checkSlugs (slug :: seen) rest

/-- The locales must not be empty and must contain the default. -/
def checkLocales : Option Locales → Except ConfigError Unit
  | none => .ok ()
  | some l =>
    if l.names.isEmpty then .error .noLocales
    else if l.has l.default then .ok ()
    else .error (.unknownDefaultLocale l.default)

/-- The sizes of pages must be positive and in order. -/
def checkLimits (p : PageLimits) : Except ConfigError Unit :=
  if p.default = 0 ∨ p.max = 0 then .error .limitIsZero
  else if p.max < p.default then .error (.defaultAboveMax p.default p.max)
  else .ok ()

/-- Checks what the form of the document does not ensure. -/
def validate (c : Config) : Except ConfigError Unit := do
  checkSlugs [] ((c.collections ++ c.globals).map (·.slug))
  checkLocales c.localization
  checkLimits c.pagination

/-- Reads a configuration without checking it. -/
def read (text : String) : Except ConfigError Config :=
  match Json.readRaw? text with
  | none => .error .malformed
  | some v => (ofJson v).mapError fun _ => .malformed

/-- Reads and checks a configuration. -/
def ofText (text : String) : Except ConfigError Config := do
  let config ← read text
  config.validate
  .ok config

/-- Replaces the port by the value of the environment variable, if that is set. -/
def overridePort (c : Config) : Option String → Except ConfigError Config
  | none => .ok c
  | some text =>
    match Decimal.readNatural? portLimit (Text.trim text.toList) with
    | some port => .ok { c with server := { c.server with port } }
    | none => .error (.invalidPort text)

/-- Reads a configuration from the content of a file, if there is one, and from the environment, and
checks it. -/
def load (file port : Option String) : Except ConfigError Config := do
  match file with
  | none => .error .unreadable
  | some text =>
    let config ← read text
    let config ← config.overridePort port
    config.validate
    .ok config

end Config

end HeadlessCms
