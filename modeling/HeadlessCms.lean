import HeadlessCms.Config
import HeadlessCms.Decimal.Layout
import HeadlessCms.Decimal.Numeral
import HeadlessCms.Decimal.Shortest
import HeadlessCms.Document.Basic
import HeadlessCms.Document.Draft
import HeadlessCms.Document.History
import HeadlessCms.Document.Version
import HeadlessCms.Entity.Access
import HeadlessCms.Entity.Basic
import HeadlessCms.Field.Basic
import HeadlessCms.Field.Codec
import HeadlessCms.Http.Endpoint
import HeadlessCms.Http.MediaType
import HeadlessCms.Http.Parameters
import HeadlessCms.Http.Problem
import HeadlessCms.Http.Server
import HeadlessCms.Http.Target
import HeadlessCms.Json.Basic
import HeadlessCms.Json.Printer
import HeadlessCms.Json.Reader
import HeadlessCms.Json.Typed
import HeadlessCms.Localization
import HeadlessCms.Proofs.Config
import HeadlessCms.Proofs.Decimal.Range
import HeadlessCms.Proofs.Decimal.WholeNumbers
import HeadlessCms.Proofs.Document.Conversion
import HeadlessCms.Proofs.Document.InStep
import HeadlessCms.Proofs.Document.Ledger
import HeadlessCms.Proofs.Document.Newest
import HeadlessCms.Proofs.Document.Pruning
import HeadlessCms.Proofs.Document.ReadBack
import HeadlessCms.Proofs.Document.RecordForm
import HeadlessCms.Proofs.Document.Scoping
import HeadlessCms.Proofs.Document.Shapes
import HeadlessCms.Proofs.Document.Snapshot
import HeadlessCms.Proofs.Entity.RoundTrip
import HeadlessCms.Proofs.Except
import HeadlessCms.Proofs.Field.LocalizedPaths
import HeadlessCms.Proofs.Field.RoundTrip
import HeadlessCms.Proofs.Json.Typed
import HeadlessCms.Proofs.Localization
import HeadlessCms.Proofs.Localization.Clauses
import HeadlessCms.Proofs.Localization.Naming
import HeadlessCms.Proofs.Localization.Positions
import HeadlessCms.Proofs.Localization.Records
import HeadlessCms.Proofs.Localization.RoundTrip
import HeadlessCms.Proofs.Localization.Texts
import HeadlessCms.Proofs.Localization.Undoing
import HeadlessCms.Proofs.Localization.Values
import HeadlessCms.Proofs.Localization.Writing
import HeadlessCms.Proofs.Query.Addressing
import HeadlessCms.Proofs.Query.Clauses
import HeadlessCms.Proofs.Query.Comparison
import HeadlessCms.Proofs.Query.Matching
import HeadlessCms.Proofs.Query.Meaning
import HeadlessCms.Proofs.Query.NearOperands
import HeadlessCms.Proofs.Query.Operands
import HeadlessCms.Proofs.Query.Operators
import HeadlessCms.Proofs.Query.Points
import HeadlessCms.Proofs.Query.Rewriting
import HeadlessCms.Proofs.Schema.Addressing
import HeadlessCms.Proofs.Schema.Enumerations
import HeadlessCms.Proofs.Schema.Exactness
import HeadlessCms.Proofs.Schema.Names
import HeadlessCms.Proofs.Schema.Options
import HeadlessCms.Proofs.Schema.Versions
import HeadlessCms.Proofs.Schema.Walk
import HeadlessCms.Proofs.Service.Answering
import HeadlessCms.Proofs.Service.Courses
import HeadlessCms.Proofs.Service.Creating
import HeadlessCms.Proofs.Service.Dating
import HeadlessCms.Proofs.Service.Desk
import HeadlessCms.Proofs.Service.EveryLocale
import HeadlessCms.Proofs.Service.Failing
import HeadlessCms.Proofs.Service.Globals
import HeadlessCms.Proofs.Service.GlobalsApart
import HeadlessCms.Proofs.Service.Interleaving
import HeadlessCms.Proofs.Service.Isolation
import HeadlessCms.Proofs.Service.Keeping
import HeadlessCms.Proofs.Service.Listing
import HeadlessCms.Proofs.Service.Naming
import HeadlessCms.Proofs.Service.Reaching
import HeadlessCms.Proofs.Service.ReadingBack
import HeadlessCms.Proofs.Service.Saving
import HeadlessCms.Proofs.Service.SavingGlobals
import HeadlessCms.Proofs.Service.Scope
import HeadlessCms.Proofs.Service.Searching
import HeadlessCms.Proofs.Service.Shaping
import HeadlessCms.Proofs.Service.Showing
import HeadlessCms.Proofs.Service.Singletons
import HeadlessCms.Proofs.Service.Sorting
import HeadlessCms.Proofs.Service.Starting
import HeadlessCms.Proofs.Service.StoreNames
import HeadlessCms.Proofs.Service.Succeeding
import HeadlessCms.Proofs.Service.Timing
import HeadlessCms.Proofs.Service.Updating
import HeadlessCms.Proofs.Service.Visibility
import HeadlessCms.Proofs.Store.Actions
import HeadlessCms.Proofs.Store.Bookkeeping
import HeadlessCms.Proofs.Store.Clock
import HeadlessCms.Proofs.Store.Contents
import HeadlessCms.Proofs.Store.Drawing
import HeadlessCms.Proofs.Store.Failing
import HeadlessCms.Proofs.Store.InStep
import HeadlessCms.Proofs.Store.Mirroring
import HeadlessCms.Proofs.Store.Numbering
import HeadlessCms.Proofs.Store.Ordering
import HeadlessCms.Proofs.Store.Outcomes
import HeadlessCms.Proofs.Store.Paging
import HeadlessCms.Proofs.Store.Renumbering
import HeadlessCms.Proofs.Store.Replacing
import HeadlessCms.Proofs.Store.Selection
import HeadlessCms.Proofs.Store.Succeeding
import HeadlessCms.Proofs.Store.TakingTurns
import HeadlessCms.Proofs.Store.Touching
import HeadlessCms.Proofs.Store.Upkeep
import HeadlessCms.Proofs.Table
import HeadlessCms.Proofs.Text.Identifier
import HeadlessCms.Proofs.Time.Agreement
import HeadlessCms.Proofs.Time.Calendar
import HeadlessCms.Proofs.Time.RoundTrip
import HeadlessCms.Proofs.Time.Storable
import HeadlessCms.Proofs.Time.Timestamps
import HeadlessCms.Query.Comparison
import HeadlessCms.Query.Geometry
import HeadlessCms.Query.Matching
import HeadlessCms.Query.Operator
import HeadlessCms.Query.Path
import HeadlessCms.Query.Predicate
import HeadlessCms.Schema.Basic
import HeadlessCms.Schema.Compile
import HeadlessCms.Schema.Validate
import HeadlessCms.Schema.ValueType
import HeadlessCms.Service.Basic
import HeadlessCms.Service.Error
import HeadlessCms.Service.Read
import HeadlessCms.Service.Registry
import HeadlessCms.Service.Write
import HeadlessCms.Store.Basic
import HeadlessCms.Store.Clock
import HeadlessCms.Store.Order
import HeadlessCms.Store.Page
import HeadlessCms.Store.Process
import HeadlessCms.Table
import HeadlessCms.Text.Ascii
import HeadlessCms.Text.Blank
import HeadlessCms.Text.CaseFold
import HeadlessCms.Text.Identifier
import HeadlessCms.Text.LowerCase
import HeadlessCms.Text.Split
import HeadlessCms.Text.Utf8
import HeadlessCms.Time.Calendar
import HeadlessCms.Time.Instant
import HeadlessCms.Time.Relaxed
import HeadlessCms.Time.Rfc3339
