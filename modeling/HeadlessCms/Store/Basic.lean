import HeadlessCms.Localization
import HeadlessCms.Store.Order
import HeadlessCms.Store.Page

/-!
# The store

The store keeps named collections of records.  It numbers the records as they are inserted and
counts the changes of each; both numbers stand in the record and are only shown on request.

Every operation is a function from a store to an answer and, where it changes something, the store
afterwards.  An operation that fails leaves all collections as they are.
-/

namespace HeadlessCms

/-- Why the store does not do what it is asked for. -/
inductive StoreError where
  | unknownCollection (collection : String)
  | documentNotFound (collection id : String)
  | duplicateId (collection id : String)
  | invalidOperand (cause : InvalidOperand)
  /-- A stored record does not have the form that is needed. -/
  | mismatch (cause : Mismatch)
  | unavailable (reason : String)

def StoreError.message : StoreError → String
  | .unknownCollection collection => s!"Unknown collection: {collection}"
  | .documentNotFound collection id => s!"Document '{id}' not found in '{collection}'"
  | .duplicateId collection id => s!"Document '{id}' already exists in '{collection}'"
  | .invalidOperand e => s!"Invalid value for '{e.operator.token}' on '{e.path}': {e.reason}"
  | .mismatch cause => s!"Serialization error: {cause.message}"
  | .unavailable reason => s!"Store unavailable: {reason}"

/-- A query that the store can execute: data paths, with the locale already in them. -/
structure Query where
  collection : String
  filter : Option Predicate
  locale : Option String

/-- How the results of a query are delivered. -/
structure FindOptions where
  /-- Whether records show what the store keeps in them. -/
  lean : Bool
  /-- Whether the total is that of the collection instead of the matching records. -/
  estimatedCount : Bool
  sort : List SortKey

/-- Sanitized records with an exact total. -/
def FindOptions.sortedBy (sort : List SortKey) : FindOptions :=
  ⟨false, false, sort⟩

/-- A collection: its records in the order of insertion, and the data paths of its localized
fields. -/
structure Collection where
  records : List Record
  localizedPaths : List String

/-- The store. -/
structure Store where
  collections : Table Collection
  /-- How many records have been inserted so far. -/
  sequence : Nat
  /-- How many ids have been drawn so far. -/
  drawn : Nat

namespace Store

def empty : Store :=
  ⟨[], 0, 0⟩

/-- The collection with a name. -/
def collection? (s : Store) (name : String) : Except StoreError Collection :=
  match Table.get? name s.collections with
  | some c => .ok c
  | none => .error (.unknownCollection name)

/-- The records of a collection; none if there is no such collection. -/
def recordsOf (s : Store) (name : String) : List Record :=
  match Table.get? name s.collections with
  | some c => c.records
  | none => []

/-- The store with other records in a collection. -/
def withRecords (s : Store) (name : String) (c : Collection) (records : List Record) : Store :=
  { s with collections := Table.insert name { c with records } s.collections }

/-- Declares a collection.  If it is there already its records stay. -/
def register (s : Store) (name : String) (localizedPaths : List String) : Store :=
  let records := s.recordsOf name
  { s with collections := Table.insert name ⟨records, localizedPaths⟩ s.collections }

/-- How many records a collection holds. -/
def count (s : Store) (name : String) : Except StoreError Nat :=
  (s.collection? name).map (·.records.length)

/-- The stored path for a path of a clause: points for underscores and, in one locale, the locale
behind a localized path. -/
def storedPath (localized : List String) (locale : Option String) (path : String) : String :=
  let dotted := Path.toData path
  match locale with
  | none => dotted
  | some l => if l = allLocales then dotted else Path.inLocale localized l dotted

/-- Turns a where-clause into a query on a collection. -/
def buildQuery (s : Store) (name : String) (clause : Option Predicate) (locale : Option String) :
    Except StoreError Query := do
  let c ← s.collection? name
  .ok ⟨name, clause.map (·.mapPaths (storedPath c.localizedPaths locale)), locale⟩

variable [PatternEngine]

/-- The records that satisfy a filter, in their order.  The first operand that cannot be evaluated
is an error. -/
def matching (filter : Option Predicate) : List Record → Except StoreError (List Record)
  | [] => .ok []
  | record :: rest =>
    match Predicate.holdsFor filter record with
    | .error e => .error (.invalidOperand e)
    | .ok keep => do
      let more ← matching filter rest
      .ok (if keep then record :: more else more)

/-- The records of a collection that a query selects, in the order of the options. -/
def select (c : Collection) (q : Query) (options : FindOptions) :
    Except StoreError (List Record) := do
  let found ← matching q.filter c.records
  let near := if options.sort.isEmpty then q.filter.bind Predicate.nearOrigin? else none
  .ok (sortStably (fun a b => Record.compareBy options.sort near a b == .lt) found)

/-- A record as it is shown. -/
def present (options : FindOptions) (record : Record) : Record :=
  if options.lean then record else Record.sanitize record

/-- The first record that a query selects. -/
def findOne (s : Store) (q : Query) (options : FindOptions) :
    Except StoreError (Option Record) := do
  let c ← s.collection? q.collection
  let found ← select c q options
  .ok (found.head?.map (present options))

/-- The part of a list that lies on a page. -/
def slice {α : Type} (items : List α) : Option Pagination → List α
  | some p => (items.drop p.offset).take p.limit
  | none => items

/-- The records that a query selects, or a page of them. -/
def find (s : Store) (q : Query) (options : FindOptions) (pagination : Option Pagination) :
    Except StoreError (Page Record) := do
  let c ← s.collection? q.collection
  let found ← select c q options
  let total := if options.estimatedCount then c.records.length else found.length
  .ok (.ofDocs ((slice found pagination).map (present options)) total pagination)

/-- A record with its id and the numbers that the store keeps in it. -/
def stamp (id : String) (sequence revision : Nat) (record : Record) : Record :=
  Table.insert Record.revisionField (.nat revision)
    (Table.insert Record.sequenceField (.nat sequence) (Table.insert "id" (.str id) record))

/-- Inserts a record.  If it has no id it gets the next one of `ids`, which is then used up even if
it turns out to be taken. -/
def insert (ids : Nat → String) (s : Store) (name : String) (record : Record) :
    Except StoreError Record × Store :=
  match Table.get? name s.collections with
  | none => (.error (.unknownCollection name), s)
  | some c =>
    let (id, s) :=
      match Record.id? record with
      | some id => (id, s)
      | none => (ids s.drawn, { s with drawn := s.drawn + 1 })
    if c.records.any (Record.id? · == some id) then (.error (.duplicateId name id), s)
    else
      let stored := stamp id s.sequence 0 record
      let s := s.withRecords name c (c.records ++ [stored])
      (.ok (Record.sanitize stored), { s with sequence := s.sequence + 1 })

/-- A record that replaces another one: the id and the number of insertion stay, and the count of
changes goes up. -/
def revise (existing : Record) (id : String) (record : Record) : Record :=
  stamp id (Record.counter Record.sequenceField existing)
    (Record.counter Record.revisionField existing + 1) record

/-- Replaces the first record with an id. -/
def replaceFirst (id : String) (record : Record) : List Record → List Record
  | [] => []
  | existing :: rest =>
    if Record.id? existing = some id then revise existing id record :: rest
    else existing :: replaceFirst id record rest

/-- Replaces the data of the record with an id. -/
def update (s : Store) (name id : String) (record : Record) : Except StoreError Record × Store :=
  match Table.get? name s.collections with
  | none => (.error (.unknownCollection name), s)
  | some c =>
    match c.records.find? (Record.id? · == some id) with
    | none => (.error (.documentNotFound name id), s)
    | some existing =>
      (.ok (Record.sanitize (revise existing id record)),
        s.withRecords name c (replaceFirst id record c.records))

/-- The records that do not satisfy a filter, in their order. -/
def remaining (filter : Option Predicate) : List Record → Except StoreError (List Record)
  | [] => .ok []
  | record :: rest =>
    match Predicate.holdsFor filter record with
    | .error e => .error (.invalidOperand e)
    | .ok doomed => do
      let more ← remaining filter rest
      .ok (if doomed then more else record :: more)

/-- Deletes the records that a query selects, and says how many they were. -/
def deleteMany (s : Store) (q : Query) : Except StoreError Nat × Store :=
  match Table.get? q.collection s.collections with
  | none => (.error (.unknownCollection q.collection), s)
  | some c =>
    match remaining q.filter c.records with
    | .error e => (.error e, s)
    | .ok kept => (.ok (c.records.length - kept.length), s.withRecords q.collection c kept)

end Store

end HeadlessCms
