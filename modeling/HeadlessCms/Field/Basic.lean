/-!
# Fields

A content type is a list of fields.  Containers (`array`, `group`, `row`, `blocks`) hold further
fields, so the description of a content type is a tree.

A row only arranges fields: what it holds is stored beside it, not under it.  A `ui` field stores
nothing.  All other fields store a value under their own name (`Field.affectsData`).
-/

namespace HeadlessCms

/-- The kinds of fields.  A tag that is not listed is kept as it is, and such a field is stored but
cannot be queried. -/
inductive FieldKind where
  | text
  | textarea
  | email
  | number
  | checkbox
  | select
  | radio
  | date
  | point
  | richText
  | code
  | relationship
  | upload
  | array
  | group
  | row
  | blocks
  | ui
  | unknown (tag : String)
  deriving DecidableEq, Repr

namespace FieldKind

/-- The tag of a kind in a configuration. -/
def tag : FieldKind → String
  | text => "text"
  | textarea => "textarea"
  | email => "email"
  | number => "number"
  | checkbox => "checkbox"
  | select => "select"
  | radio => "radio"
  | date => "date"
  | point => "point"
  | richText => "richText"
  | code => "code"
  | relationship => "relationship"
  | upload => "upload"
  | array => "array"
  | group => "group"
  | row => "row"
  | blocks => "blocks"
  | ui => "ui"
  | unknown tag => tag

/-- The kinds with a tag of their own. -/
def known : List FieldKind :=
  [text, textarea, email, number, checkbox, select, radio, date, point, richText, code,
    relationship, upload, array, group, row, blocks, ui]

/-- The kind with a tag. -/
def ofTag (t : String) : FieldKind :=
  (known.find? fun kind => kind.tag == t).getD (unknown t)

/-- **Tags are kept.** -/
theorem tag_ofTag (t : String) : (ofTag t).tag = t := by
  unfold ofTag
  cases h : known.find? fun kind => kind.tag == t with
  | none => rfl
  | some kind => simpa using List.find?_some h

end FieldKind

/-- An option of a `select` or `radio` field. -/
inductive SelectOption where
  | plain (value : String)
  | labeled (value label : String)
  deriving DecidableEq, Repr

/-- The stored value of an option. -/
def SelectOption.value : SelectOption → String
  | .plain value => value
  | .labeled value _ => value

/-- The collections that a relationship may point to. -/
inductive RelationTo where
  | single (slug : String)
  | many (slugs : List String)
  deriving DecidableEq, Repr

/-- The slugs of the collections that a relationship may point to. -/
def RelationTo.slugs : RelationTo → List String
  | .single slug => [slug]
  | .many slugs => slugs

/-- Whether the collection is part of the stored value. -/
def RelationTo.isPolymorphic : RelationTo → Bool
  | .single _ => false
  | .many _ => true

/-- One block type of a `blocks` field, over the type of fields it holds. -/
structure Block (φ : Type) where
  /-- Stored as `blockType` with each block of this type. -/
  slug : String
  fields : List φ

/-- A node of the tree of fields. -/
structure Field where
  /-- Rows and `ui` fields may leave it empty. -/
  name : String
  kind : FieldKind
  label : Option String
  required : Bool
  /-- Hidden fields are stored but never queried. -/
  hidden : Bool
  /-- The value is stored once per locale. -/
  localized : Bool
  hasMany : Bool
  options : List SelectOption
  relationTo : Option RelationTo
  /-- What an `array`, `group` or `row` holds. -/
  fields : List Field
  /-- The block types of a `blocks` field. -/
  blocks : List (Block Field)

namespace Field

/-- A container of a kind, with all other attributes at their defaults. -/
def container (name : String) (kind : FieldKind) (fields : List Field) : Field where
  name := name
  kind := kind
  label := none
  required := false
  hidden := false
  localized := false
  hasMany := false
  options := []
  relationTo := none
  fields := fields
  blocks := []

/-- A field of a kind, with all other attributes at their defaults. -/
def ofKind (name : String) (kind : FieldKind) : Field :=
  container name kind []

/-- Whether the field only serves an editor and stores nothing. -/
def isPresentational (f : Field) : Bool :=
  f.kind == .ui

/-- Whether the field stores a value under its own name. -/
def affectsData (f : Field) : Bool :=
  !f.isPresentational && f.kind != .row

/-- Whether the field is a container of the kinds that hold fields directly. -/
def hasSubFields (f : Field) : Bool :=
  f.kind == .array || f.kind == .group || f.kind == .row

mutual

/-- The field itself or, for a row, the field inside it that stores a value under a name. -/
def find? (name : String) : Field → Option Field
  | ⟨ownName, kind, label, required, hidden, localized, hasMany, options, relationTo, fields,
      blocks⟩ =>
    let f : Field := ⟨ownName, kind, label, required, hidden, localized, hasMany, options,
      relationTo, fields, blocks⟩
    if kind = .row then findIn? name fields
    else if f.affectsData && ownName == name then some f
    else none

/-- The first field among siblings that stores a value under a name, rows looked through. -/
def findIn? (name : String) : List Field → Option Field
  | [] => none
  | f :: rest => (f.find? name).or (findIn? name rest)

end

/-- The child that stores a value under a name. -/
def child? (f : Field) (name : String) : Option Field :=
  findIn? name f.fields

mutual

/-- The data paths of the localized fields in the tree below `start`, which is empty or ends in a
point.  What lies under a localized container is not listed. -/
def localizedFrom (start : String) : Field → List String
  | ⟨name, kind, _, _, _, localized, _, _, _, fields, blocks⟩ =>
    match kind with
    | .row => localizedIn start fields
    | .ui => []
    | _ =>
      let path := start ++ name
      if localized then [path]
      else
        match kind with
        | .array | .group => localizedIn (path ++ ".") fields
        | .blocks => localizedInBlocks (path ++ ".") blocks
        | _ => []

def localizedIn (start : String) : List Field → List String
  | [] => []
  | f :: rest => f.localizedFrom start ++ localizedIn start rest

def localizedInBlocks (start : String) : List (Block Field) → List String
  | [] => []
  | ⟨_, fields⟩ :: rest => localizedIn start fields ++ localizedInBlocks start rest

end

/-- The data paths of the localized fields of a content type. -/
def localizedPaths (fields : List Field) : List String :=
  localizedIn "" fields

end Field

end HeadlessCms
