import HeadlessCms.Proofs.Json.Typed

/-!
# Fields are read back

Every field that has been read is read back from what is written for it (`Field.rereads`).  The
induction is on how deep the fields are nested that have been read: the fields inside have been read
one level less deep, so they are read back, at every depth that their own form needs.
-/

namespace HeadlessCms

open Typed

/-- Options are read back. -/
theorem SelectOption.ofJson_toJson (o : SelectOption) : SelectOption.ofJson o.toJson = .ok o := by
  cases o with
  | plain value => rfl
  | labeled value label =>
    have hsorted : Table.ofList [("value", Json.str value), ("label", .str label)] =
        [("label", .str label), ("value", .str value)] := by
      have hlt : "label" < "value" := by decide
      simp only [Table.ofList, Table.insertAll, List.foldl_cons, List.foldl_nil, Table.insert,
        if_pos hlt]
    rw [toJson, hsorted]
    rfl

/-- Targets of relations are read back. -/
theorem RelationTo.ofJson_toJson (target : RelationTo) :
    RelationTo.ofJson target.toJson = .ok target := by
  cases target with
  | single slug => rfl
  | many slugs =>
    show (Json.readList Json.readString (stringArray slugs)).map RelationTo.many = _
    rw [readList_stringArray]
    rfl

/-- Targets of relations are not written as null. -/
theorem RelationTo.toJson_ne_null (target : RelationTo) : target.toJson ≠ .null := by
  cases target <;> exact Json.noConfusion

/-- Kinds of fields that have been read are read back from their tags. -/
theorem FieldKind.rereads : Rereads FieldKind.ofJson fun kind => .str kind.tag := by
  intro v kind h
  cases v with
  | str t =>
    cases h
    show Except.ok (ofTag (ofTag t).tag) = _
    rw [tag_ofTag]
  | _ => cases h

namespace Field

/-- The members that are written for a block type. -/
def blockEntries (b : Block Field) : List (String × Json) :=
  [("slug", .str b.slug), ("fields", .arr (b.fields.map toJson))]

/-- What is written for a block type. -/
def blockToJson (b : Block Field) : Json :=
  .obj (Table.ofList (blockEntries b))

/-- No member of a block is written twice. -/
theorem nodup_blockEntries (b : Block Field) : ((blockEntries b).map (·.1)).Nodup := by
  show ["slug", "fields"].Nodup
  decide

/-- A list of fields is written field by field. -/
theorem listToJson_eq_map (fields : List Field) : listToJson fields = fields.map toJson := by
  induction fields with
  | nil => simp [listToJson]
  | cons f rest ih => simp [listToJson, ih]

/-- A list of blocks is written block by block. -/
theorem blocksToJson_eq_map (blocks : List (Block Field)) :
    blocksToJson blocks = blocks.map blockToJson := by
  induction blocks with
  | nil => simp [blocksToJson]
  | cons b rest ih =>
    obtain ⟨slug, fields⟩ := b
    simp [blocksToJson, ih, blockToJson, blockEntries, listToJson_eq_map]

/-- The members that are written for a field. -/
def entries (f : Field) : List (String × Json) :=
  [("name", .str f.name), ("type", .str f.kind.tag), ("required", .bool f.required),
    ("hidden", .bool f.hidden), ("localized", .bool f.localized), ("hasMany", .bool f.hasMany)] ++
  memberOf "label" (f.label.map .str) ++
  memberWhen (!f.options.isEmpty) "options" (.arr (f.options.map SelectOption.toJson)) ++
  memberOf "relationTo" (f.relationTo.map RelationTo.toJson) ++
  memberWhen (!f.fields.isEmpty) "fields" (.arr (f.fields.map toJson)) ++
  memberWhen (!f.blocks.isEmpty) "blocks" (.arr (f.blocks.map blockToJson))

/-- A field is written as the table of its members. -/
theorem toJson_eq (f : Field) : f.toJson = .obj (Table.ofList f.entries) := by
  cases f
  rw [toJson, listToJson_eq_map, blocksToJson_eq_map]
  rfl

/-- No member of a field is written twice. -/
theorem nodup_entries (f : Field) : (f.entries.map (·.1)).Nodup := by
  have hkeys : (f.entries.map (·.1)).Sublist
      ["name", "type", "required", "hidden", "localized", "hasMany", "label", "options", "relationTo",
        "fields", "blocks"] := by
    unfold entries
    simp only [List.map_append]
    exact (((((List.Sublist.refl _).append (Table.keys_memberOf _ _)).append
      (Table.keys_memberWhen _ _ _)).append (Table.keys_memberOf _ _)).append
      (Table.keys_memberWhen _ _ _)).append (Table.keys_memberWhen _ _ _)
  exact List.Nodup.sublist hkeys (by decide)

/-- What a field has written under a name, by the runs of members that may be absent. -/
theorem get?_entries (f : Field) (key : String) :
    Table.get? key (Table.ofList f.entries) =
      (((((Table.get? key [("name", .str f.name), ("type", .str f.kind.tag),
          ("required", .bool f.required), ("hidden", .bool f.hidden),
          ("localized", .bool f.localized), ("hasMany", .bool f.hasMany)]).or
        (if "label" = key then f.label.map .str else none)).or
        (if "options" = key then
          if !f.options.isEmpty then some (.arr (f.options.map SelectOption.toJson)) else none
          else none)).or
        (if "relationTo" = key then f.relationTo.map RelationTo.toJson else none)).or
        (if "fields" = key then
          if !f.fields.isEmpty then some (.arr (f.fields.map toJson)) else none
          else none)).or
        (if "blocks" = key then
          if !f.blocks.isEmpty then some (.arr (f.blocks.map blockToJson)) else none
          else none) := by
  rw [Table.get?_ofList f.nodup_entries, entries]
  simp only [Table.get?_append, Table.get?_memberOf, Table.get?_memberWhen]

/-! ### Depth -/

/-- What stands in a list of a field lies two levels deeper than the field. -/
theorem depth_lt_of_member {f : Field} {key : String} {items : List Json} {v : Json}
    (hget : Table.get? key (Table.ofList f.entries) = some (.arr items)) (h : v ∈ items) :
    v.depth + 1 < f.toJson.depth := by
  have hmember := Json.depth_le_membersDepth hget
  have hitem := Json.depth_le_itemsDepth h
  rw [Json.depth] at hmember
  rw [toJson_eq, Json.depth]
  omega

/-- A field lies deeper than the one that holds it. -/
theorem depth_lt_of_mem_fields {f g : Field} (h : g ∈ f.fields) :
    g.toJson.depth < f.toJson.depth := by
  have hsome : f.fields.isEmpty = false := List.isEmpty_eq_false_iff_exists_mem.2 ⟨g, h⟩
  have hget : Table.get? "fields" (Table.ofList f.entries) = some (.arr (f.fields.map toJson)) := by
    rw [get?_entries]
    simp [Table.get?, hsome]
  have hlt := depth_lt_of_member hget (List.mem_map_of_mem h)
  omega

/-- A field of a block lies deeper than the field that holds the block. -/
theorem depth_lt_of_mem_blocks {f g : Field} {b : Block Field} (hb : b ∈ f.blocks)
    (h : g ∈ b.fields) : g.toJson.depth < f.toJson.depth := by
  have hsome : f.blocks.isEmpty = false := List.isEmpty_eq_false_iff_exists_mem.2 ⟨b, hb⟩
  have hget : Table.get? "blocks" (Table.ofList f.entries) =
      some (.arr (f.blocks.map blockToJson)) := by
    rw [get?_entries]
    simp [Table.get?, hsome]
  have hlt := depth_lt_of_member hget (List.mem_map_of_mem hb)
  have hfields : Table.get? "fields" (Table.ofList (blockEntries b)) =
      some (.arr (b.fields.map toJson)) := Table.get?_ofList (nodup_blockEntries b) "fields"
  have hmember := Json.depth_le_membersDepth hfields
  have hitem := Json.depth_le_itemsDepth (List.mem_map_of_mem (f := toJson) h)
  rw [Json.depth] at hmember
  rw [blockToJson, Json.depth] at hlt
  omega

/-! ### Reading back -/

/-- What a block type holds has been read. -/
theorem exists_of_readBlock {read : Json → Typed Field} {v : Json} {b : Block Field}
    (h : readBlock read v = .ok b) : ∀ g ∈ b.fields, ∃ item, read item = .ok g := by
  simp only [readBlock, Except.bind_eq_ok_iff] at h
  obtain ⟨members, -, slug, -, fields, hfields, heq⟩ := h
  cases heq
  rcases exists_of_orDefault hfields with rfl | ⟨list, hlist⟩
  · exact fun g hg => nomatch hg
  · exact exists_of_mem_readList hlist

/-- A block is read back by a reader that reads its fields back. -/
theorem readBlock_blockToJson {read : Json → Typed Field} {b : Block Field}
    (h : ∀ g ∈ b.fields, read g.toJson = .ok g) : readBlock read (blockToJson b) = .ok b := by
  have hmembers := Json.readMembers_obj ["slug", "fields"] (Table.ascending_ofList (blockEntries b))
  have hget := Table.get?_ofList (nodup_blockEntries b)
  have hslug : need "slug" Json.readString (Table.ofList (blockEntries b)) = .ok b.slug :=
    need_written (hget "slug") rfl
  have hfields : orDefault "fields" [] (Json.readList read) (Table.ofList (blockEntries b)) =
      .ok b.fields := orDefault_written [] (hget "fields") (readList_map h)
  simp only [readBlock, blockToJson, hmembers, hslug, hfields, bind, Except.bind]

/-- A field is read back as soon as the parts are that have a form of their own. -/
theorem ofJsonWithin_toJson {f : Field} {depth : Nat}
    (hkind : FieldKind.ofJson (.str f.kind.tag) = .ok f.kind)
    (hfields : ∀ g ∈ f.fields, ofJsonWithin depth g.toJson = .ok g)
    (hblocks : ∀ b ∈ f.blocks, ∀ g ∈ b.fields, ofJsonWithin depth g.toJson = .ok g) :
    ofJsonWithin (depth + 1) f.toJson = .ok f := by
  have hmembers := Json.readMembers_obj memberNames (Table.ascending_ofList f.entries)
  have hget := f.get?_entries
  rw [toJson_eq, ofJsonWithin]
  -- Each reader only needs what the table has under its name.
  generalize Table.ofList f.entries = members at hmembers hget ⊢
  have hname : orDefault "name" "" Json.readString members = .ok f.name :=
    orDefault_written "" (hget "name") rfl
  have htype : need "type" FieldKind.ofJson members = .ok f.kind :=
    need_written (hget "type") hkind
  have hlabel : nullable "label" Json.readString members = .ok f.label := by
    refine nullable_written .str ?_ (fun _ => Json.noConfusion) fun _ _ => rfl
    rw [hget]
    simp [Table.get?]
  have hrequired : orDefault "required" false Json.readBool members = .ok f.required :=
    orDefault_written false (hget "required") rfl
  have hhidden : orDefault "hidden" false Json.readBool members = .ok f.hidden :=
    orDefault_written false (hget "hidden") rfl
  have hlocalized : orDefault "localized" false Json.readBool members = .ok f.localized :=
    orDefault_written false (hget "localized") rfl
  have hmany : orDefault "hasMany" false Json.readBool members = .ok f.hasMany :=
    orDefault_written false (hget "hasMany") rfl
  have hoptions : orDefault "options" [] (Json.readList SelectOption.ofJson) members =
      .ok f.options := by
    refine orDefault_nil_written SelectOption.toJson ?_ fun o _ => SelectOption.ofJson_toJson o
    rw [hget]
    simp [Table.get?]
  have htarget : nullable "relationTo" RelationTo.ofJson members = .ok f.relationTo := by
    refine nullable_written RelationTo.toJson ?_ RelationTo.toJson_ne_null fun target _ =>
      target.ofJson_toJson
    rw [hget]
    simp [Table.get?]
  have hnested : orDefault "fields" [] (Json.readList (ofJsonWithin depth)) members =
      .ok f.fields := by
    refine orDefault_nil_written toJson ?_ hfields
    rw [hget]
    simp [Table.get?]
  have htypes : orDefault "blocks" [] (Json.readList (readBlock (ofJsonWithin depth))) members =
      .ok f.blocks := by
    refine orDefault_nil_written blockToJson ?_ fun b hb => readBlock_blockToJson (hblocks b hb)
    rw [hget]
    simp [Table.get?]
  simp only [hmembers, hname, htype, hlabel, hrequired, hhidden, hlocalized, hmany, hoptions, htarget,
    hnested, htypes, bind, Except.bind]
  cases f
  rfl

/-- **A field that has been read is read back,** at every depth that suffices for it. -/
theorem ofJsonWithin_of_read {bound : Nat} {v : Json} {f : Field}
    (h : ofJsonWithin bound v = .ok f) {depth : Nat} (hdepth : f.toJson.depth < depth) :
    ofJsonWithin depth f.toJson = .ok f := by
  induction bound generalizing v f depth with
  | zero => cases h
  | succ bound ih =>
    obtain _ | depth := depth
    · cases hdepth
    simp only [ofJsonWithin, Except.bind_eq_ok_iff] at h
    obtain ⟨members, -, name, -, kind, hkind, label, -, isRequired, -, hidden, -, localized, -, many,
      -, options, -, target, -, fields, hfields, blocks, hblocks, heq⟩ := h
    obtain rfl := Except.ok.inj heq
    refine ofJsonWithin_toJson ?_ (fun g hg => ?_) fun b hb g hg => ?_
    · obtain ⟨v, hv⟩ := exists_of_need hkind
      exact FieldKind.rereads v kind hv
    · have hlt := depth_lt_of_mem_fields hg
      rcases exists_of_orDefault hfields with rfl | ⟨list, hlist⟩
      · cases hg
      · obtain ⟨item, hitem⟩ := exists_of_mem_readList hlist g hg
        exact ih hitem (by omega)
    · have hlt := depth_lt_of_mem_blocks hb hg
      rcases exists_of_orDefault hblocks with rfl | ⟨list, hlist⟩
      · cases hb
      · obtain ⟨item, hitem⟩ := exists_of_mem_readList hlist b hb
        obtain ⟨inner, hinner⟩ := exists_of_readBlock hitem g hg
        exact ih hinner (by omega)

/-- Fields that have been read are read back as they are written. -/
theorem rereads : Rereads ofJson toJson :=
  fun _ _ h => ofJsonWithin_of_read h (Nat.lt_succ_self _)

end Field

end HeadlessCms
