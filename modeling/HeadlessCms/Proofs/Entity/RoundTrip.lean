import HeadlessCms.Config
import HeadlessCms.Proofs.Field.RoundTrip
import HeadlessCms.Service.Registry

/-!
# Configurations are read back

Every configuration that has been read is read back from what is written for it (`Config.rereads`), so
whatever is made of a configuration is the same after it has been written and read again.  Read rules
are kept as they have been put in order; numbers stay below the limits that they were read with.
-/

namespace HeadlessCms

open Typed

/-! ### Read rules -/

namespace AccessRule

/-- A rule that is no truth value is read as a scope. -/
theorem ofJson_of_ne_bool {v : Json} (h : ∀ b, v ≠ .bool b) :
    ofJson v = v.readAny.map .scope := by
  unfold ofJson
  split
  · next b => exact absurd rfl (h b)
  · rfl

/-- A clause is read back: it is in order, and it is not taken for a rule without clause. -/
theorem rereads : Rereads ofJson toJson := by
  intro v rule h
  by_cases hbool : ∃ b, v = .bool b
  · obtain ⟨b, rfl⟩ := hbool
    cases h
    rfl
  · rw [ofJson_of_ne_bool fun b hb => hbool ⟨b, hb⟩] at h
    obtain ⟨w, hw, rfl⟩ := Except.map_eq_ok_iff.1 h
    have hnormal := Json.readAny_eq_ok_iff.1 hw
    have hclause (b : Bool) : w ≠ .bool b := by
      rintro rfl
      exact hbool ⟨b, Json.eq_bool_of_normalize? hnormal⟩
    rw [toJson, ofJson_of_ne_bool hclause,
      Json.readAny_eq_ok_iff.2 (Json.normalize?_idem v w hnormal)]
    rfl

/-- The rule for reading is found in the object of access rules that has been written. -/
theorem ofAccessJson_written {rule : AccessRule} (h : ofJson rule.toJson = .ok rule) :
    ofAccessJson (.obj [("read", rule.toJson)]) = .ok rule := h

end AccessRule

/-! ### Entities -/

/-- Labels are read back. -/
theorem Labels.ofJson_toJson (l : Labels) : Labels.ofJson l.toJson = .ok l := rfl

/-- A number below its limit, or a default below it. -/
theorem lt_of_orDefault_nat {name : String} {default limit n : Nat} {members : List (String × Json)}
    (hdefault : default < limit)
    (h : orDefault name default (Json.readNat limit) members = .ok n) : n < limit := by
  rcases exists_of_orDefault h with rfl | ⟨v, hv⟩
  · exact hdefault
  · exact lt_of_readNat hv

/-- The settings of versions are read back, if the number of versions has a word of the machine. -/
theorem Versioning.ofJson_toJson {v : Versioning} (h : v.maxPerDoc < wordLimit) :
    Versioning.ofJson v.toJson = .ok v := by
  have hmembers : Json.readMembers ["drafts", "maxPerDoc"] v.toJson =
      .ok [("drafts", .bool v.drafts), ("maxPerDoc", .nat v.maxPerDoc)] := rfl
  exact Except.bind_eq_ok hmembers (Except.bind_eq_ok (orDefault_written _ rfl rfl)
    (Except.bind_eq_ok (orDefault_written _ rfl (readNat_nat h)) rfl))

/-- Settings of versions that have been read are read back as they are written. -/
theorem Versioning.rereads : Rereads Versioning.ofJson Versioning.toJson := by
  intro v versions h
  simp only [ofJson, Except.bind_eq_ok_iff] at h
  obtain ⟨_, -, drafts, -, maxPerDoc, hmax, heq⟩ := h
  obtain rfl := Except.ok.inj heq
  exact ofJson_toJson (lt_of_orDefault_nat (by decide) hmax)

/-- Settings of versions are not written as null. -/
theorem Versioning.toJson_ne_null (v : Versioning) : v.toJson ≠ .null :=
  Json.noConfusion

/-- Labels are not written as null. -/
theorem Labels.toJson_ne_null (l : Labels) : l.toJson ≠ .null :=
  Json.noConfusion

namespace Entity

/-- The members that are written for an entity. -/
def entries (e : Entity) : List (String × Json) :=
  [("access", .obj [("read", e.read.toJson)]), ("fields", .arr (Field.listToJson e.fields))] ++
    memberOf "labels" (e.labels.map Labels.toJson) ++
    [("slug", .str e.slug), ("timestamps", .bool e.timestamps)] ++
    memberOf "versions" (e.versions.map Versioning.toJson)

/-- The members of a written entity are in order. -/
theorem ascending_entries (e : Entity) : Table.Ascending e.entries := by
  refine Table.ascending_of_keys
    ["access", "fields", "labels", "slug", "timestamps", "versions"] ?_ (by decide)
  simp only [entries, Table.keys, List.map_append]
  exact (((List.Sublist.refl _).append (Table.keys_memberOf _ _)).append
    (List.Sublist.refl _)).append (Table.keys_memberOf _ _)

/-- What an entity has written under a name, by the runs of members that may be absent. -/
theorem get?_entries (e : Entity) (key : String) :
    Table.get? key e.entries =
      (((Table.get? key [("access", .obj [("read", e.read.toJson)]),
          ("fields", .arr (e.fields.map Field.toJson))]).or
        (if "labels" = key then e.labels.map Labels.toJson else none)).or
        (Table.get? key [("slug", .str e.slug), ("timestamps", .bool e.timestamps)])).or
        (if "versions" = key then e.versions.map Versioning.toJson else none) := by
  simp only [entries, Table.get?_append, Table.get?_memberOf, Field.listToJson_eq_map]

/-- An entity is read back as soon as its fields, its versioning and its read rule are. -/
theorem ofJson_toJson {e : Entity} (hfields : ∀ f ∈ e.fields, Field.ofJson f.toJson = .ok f)
    (hversions : ∀ v ∈ e.versions, Versioning.ofJson v.toJson = .ok v)
    (hread : AccessRule.ofJson e.read.toJson = .ok e.read) : ofJson e.toJson = .ok e := by
  have hmembers : Json.readMembers memberNames e.toJson = .ok e.entries :=
    Json.readMembers_obj memberNames e.ascending_entries
  have hslug : Table.get? "slug" e.entries = some (.str e.slug) := by
    simp [get?_entries, Table.get?]
  have hlabels : Table.get? "labels" e.entries = e.labels.map Labels.toJson := by
    simp [get?_entries, Table.get?]
  have hlist : Table.get? "fields" e.entries = some (.arr (e.fields.map Field.toJson)) := by
    simp [get?_entries, Table.get?]
  have htimestamps : Table.get? "timestamps" e.entries = some (.bool e.timestamps) := by
    simp [get?_entries, Table.get?]
  have hversioning : Table.get? "versions" e.entries = e.versions.map Versioning.toJson := by
    simp [get?_entries, Table.get?]
  have haccess : Table.get? "access" e.entries = some (.obj [("read", e.read.toJson)]) := by
    simp [get?_entries, Table.get?]
  exact Except.bind_eq_ok hmembers <|
    Except.bind_eq_ok (need_written hslug rfl) <|
    Except.bind_eq_ok (nullable_written Labels.toJson hlabels Labels.toJson_ne_null
      fun l _ => l.ofJson_toJson) <|
    Except.bind_eq_ok (orDefault_written [] hlist (readList_map hfields)) <|
    Except.bind_eq_ok (orDefault_written true htimestamps rfl) <|
    Except.bind_eq_ok (nullable_written Versioning.toJson hversioning Versioning.toJson_ne_null
      hversions) <|
    Except.bind_eq_ok
      (orDefault_written (.allow true) haccess (AccessRule.ofAccessJson_written hread)) rfl

/-- Entities that have been read are read back as they are written. -/
theorem rereads : Rereads ofJson toJson := by
  intro v e h
  simp only [ofJson, Except.bind_eq_ok_iff] at h
  obtain ⟨_, -, slug, -, labels, -, fields, hfields, timestamps, -, versions, hversions, read, hread,
    heq⟩ := h
  obtain rfl := Except.ok.inj heq
  refine ofJson_toJson (fun f hf => ?_) (fun w hw => ?_) ?_
  · rcases exists_of_orDefault hfields with rfl | ⟨list, hlist⟩
    · cases hf
    · obtain ⟨item, hitem⟩ := exists_of_mem_readList hlist f hf
      exact Field.rereads item f hitem
  · obtain ⟨item, hitem⟩ := exists_of_nullable hversions w hw
    exact Versioning.rereads item w hitem
  · rcases exists_of_orDefault hread with rfl | ⟨access, haccess⟩
    · rfl
    · obtain ⟨_, -, haccess⟩ := Except.bind_eq_ok_iff.1 haccess
      rcases exists_of_orDefault haccess with rfl | ⟨rule, hrule⟩
      · rfl
      · exact AccessRule.rereads rule read hrule

end Entity

/-! ### Settings -/

/-- Locales are read back. -/
theorem Locales.ofJson_toJson (l : Locales) : Locales.ofJson l.toJson = .ok l := by
  have hmembers : Json.readMembers ["locales", "defaultLocale", "fallback"] l.toJson =
      .ok [("defaultLocale", .str l.default), ("fallback", .bool l.fallback),
        ("locales", stringArray l.names)] := rfl
  exact Except.bind_eq_ok hmembers <|
    Except.bind_eq_ok (need_written rfl (readList_stringArray l.names)) <|
    Except.bind_eq_ok (need_written rfl rfl) <|
    Except.bind_eq_ok (orDefault_written true rfl rfl) rfl

/-- The settings of the server are read back, if its port is one. -/
theorem ServerSettings.ofJson_toJson {s : ServerSettings} (h : s.port < portLimit) :
    ServerSettings.ofJson s.toJson = .ok s := by
  have hmembers : Json.readMembers ["host", "port"] s.toJson =
      .ok [("host", .str s.host), ("port", .nat s.port)] := rfl
  exact Except.bind_eq_ok hmembers <|
    Except.bind_eq_ok (orDefault_written _ rfl rfl) <|
    Except.bind_eq_ok (orDefault_written _ rfl (readNat_nat h)) rfl

/-- The limits of pages are read back, if they are words of the machine. -/
theorem PageLimits.ofJson_toJson {p : PageLimits} (hdefault : p.default < wordLimit)
    (hmax : p.max < wordLimit) : PageLimits.ofJson p.toJson = .ok p := by
  have hmembers : Json.readMembers ["defaultLimit", "maxLimit"] p.toJson =
      .ok [("defaultLimit", .nat p.default), ("maxLimit", .nat p.max)] := rfl
  exact Except.bind_eq_ok hmembers <|
    Except.bind_eq_ok (orDefault_written _ rfl (readNat_nat hdefault)) <|
    Except.bind_eq_ok (orDefault_written _ rfl (readNat_nat hmax)) rfl

/-- Settings of the server that have been read are read back as they are written. -/
theorem ServerSettings.rereads : Rereads ServerSettings.ofJson ServerSettings.toJson := by
  intro v s h
  simp only [ofJson, Except.bind_eq_ok_iff] at h
  obtain ⟨_, -, host, -, port, hport, heq⟩ := h
  obtain rfl := Except.ok.inj heq
  exact ofJson_toJson (lt_of_orDefault_nat (by decide) hport)

/-- Limits of pages that have been read are read back as they are written. -/
theorem PageLimits.rereads : Rereads PageLimits.ofJson PageLimits.toJson := by
  intro v p h
  simp only [ofJson, Except.bind_eq_ok_iff] at h
  obtain ⟨_, -, default, hdefault, max, hmax, heq⟩ := h
  obtain rfl := Except.ok.inj heq
  exact ofJson_toJson (lt_of_orDefault_nat (by decide) hdefault)
    (lt_of_orDefault_nat (by decide) hmax)

/-! ### The whole configuration -/

namespace Config

def entries (c : Config) : List (String × Json) :=
  [("collections", .arr (c.collections.map Entity.toJson)),
      ("globals", .arr (c.globals.map Entity.toJson))] ++
    memberOf "localization" (c.localization.map Locales.toJson) ++
    [("pagination", c.pagination.toJson), ("server", c.server.toJson)]

/-- The members of a written configuration are in order. -/
theorem ascending_entries (c : Config) : Table.Ascending c.entries := by
  refine Table.ascending_of_keys
    ["collections", "globals", "localization", "pagination", "server"] ?_ (by decide)
  simp only [entries, Table.keys, List.map_append]
  exact ((List.Sublist.refl _).append (Table.keys_memberOf _ _)).append (List.Sublist.refl _)

/-- What a configuration has written under a name; only the locales may be absent. -/
theorem get?_entries (c : Config) (key : String) :
    Table.get? key c.entries =
      ((Table.get? key [("collections", .arr (c.collections.map Entity.toJson)),
          ("globals", .arr (c.globals.map Entity.toJson))]).or
        (if "localization" = key then c.localization.map Locales.toJson else none)).or
        (Table.get? key [("pagination", c.pagination.toJson), ("server", c.server.toJson)]) := by
  simp only [entries, Table.get?_append, Table.get?_memberOf]

/-- A configuration is read back as soon as its entities and its settings are. -/
theorem ofJson_toJson {c : Config}
    (hcollections : ∀ e ∈ c.collections, Entity.ofJson e.toJson = .ok e)
    (hglobals : ∀ e ∈ c.globals, Entity.ofJson e.toJson = .ok e)
    (hserver : ServerSettings.ofJson c.server.toJson = .ok c.server)
    (hpagination : PageLimits.ofJson c.pagination.toJson = .ok c.pagination) :
    ofJson c.toJson = .ok c := by
  have hmembers : Json.readMembers
      ["collections", "globals", "localization", "server", "pagination"] c.toJson =
        .ok c.entries := Json.readMembers_obj _ c.ascending_entries
  have hfirst : Table.get? "collections" c.entries =
      some (.arr (c.collections.map Entity.toJson)) := by
    simp [get?_entries, Table.get?]
  have hsecond : Table.get? "globals" c.entries = some (.arr (c.globals.map Entity.toJson)) := by
    simp [get?_entries, Table.get?]
  have hlocales : Table.get? "localization" c.entries = c.localization.map Locales.toJson := by
    simp [get?_entries, Table.get?]
  have hsettings : Table.get? "server" c.entries = some c.server.toJson := by
    simp [get?_entries, Table.get?]
  have hlimits : Table.get? "pagination" c.entries = some c.pagination.toJson := by
    simp [get?_entries, Table.get?]
  exact Except.bind_eq_ok hmembers <|
    Except.bind_eq_ok (orDefault_written [] hfirst (readList_map hcollections)) <|
    Except.bind_eq_ok (orDefault_written [] hsecond (readList_map hglobals)) <|
    Except.bind_eq_ok (nullable_written Locales.toJson hlocales (fun _ => Json.noConfusion)
      fun l _ => l.ofJson_toJson) <|
    Except.bind_eq_ok (orDefault_written _ hsettings hserver) <|
    Except.bind_eq_ok (orDefault_written _ hlimits hpagination) rfl

/-- The entities of a list that has been read. -/
theorem ofJson_toJson_of_mem {name : String} {members : List (String × Json)} {es : List Entity}
    (h : orDefault name [] (Json.readList Entity.ofJson) members = .ok es) :
    ∀ e ∈ es, Entity.ofJson e.toJson = .ok e := by
  intro e he
  rcases exists_of_orDefault h with rfl | ⟨list, hlist⟩
  · cases he
  · obtain ⟨item, hitem⟩ := exists_of_mem_readList hlist e he
    exact Entity.rereads item e hitem

/-- Configurations that have been read are read back as they are written. -/
theorem rereads : Rereads ofJson toJson := by
  intro v c h
  simp only [ofJson, Except.bind_eq_ok_iff] at h
  obtain ⟨_, -, collections, hcollections, globals, hglobals, locales, -, server, hserver, pagination,
    hpagination, heq⟩ := h
  obtain rfl := Except.ok.inj heq
  refine ofJson_toJson (ofJson_toJson_of_mem hcollections) (ofJson_toJson_of_mem hglobals) ?_ ?_
  · rcases exists_of_orDefault hserver with rfl | ⟨v, hv⟩
    · exact ServerSettings.ofJson_toJson
        (show ServerSettings.standard.port < portLimit by decide)
    · exact ServerSettings.rereads v server hv
  · rcases exists_of_orDefault hpagination with rfl | ⟨v, hv⟩
    · exact PageLimits.ofJson_toJson (show PageLimits.standard.default < wordLimit by decide)
        (show PageLimits.standard.max < wordLimit by decide)
    · exact PageLimits.rereads v pagination hv

/-- **What has been read is read back.**  Every configuration that has been read is read back from
what is written for it, with the same outcome of its checks and of its compilation; and so is every
list of fields. -/
theorem reads_back :
    (∀ v c, ofJson v = .ok c → ofJson c.toJson = .ok c ∧
      (ofJson c.toJson).map validate = .ok c.validate ∧
      (ofJson c.toJson).map Registry.build = .ok (Registry.build c)) ∧
    ∀ v fields, Json.readList Field.ofJson v = .ok fields →
      Json.readList Field.ofJson (.arr (Field.listToJson fields)) = .ok fields := by
  refine ⟨fun v c h => ?_, fun v fields h => ?_⟩
  · have hback := rereads v c h
    exact ⟨hback, by rw [hback]; rfl, by rw [hback]; rfl⟩
  · rw [Field.listToJson_eq_map]
    exact rereads_list Field.rereads v fields h

/-- The members of a shop: fields of a form that is not known, of options in both forms, of
relationships in both forms, nested in blocks, rows and groups. -/
def shopFields : Json :=
  .arr [.obj [("name", .str "tint"), ("type", .str "color"), ("label", .null)],
    .obj [("name", .str "size"), ("type", .str "select"), ("options",
      .arr [.str "small", .obj [("value", .str "xl"), ("label", .str "Very large"), ("rank", .null)]])],
    .obj [("type", .str "row"), ("fields",
      .arr [.obj [("name", .str "brand"), ("type", .str "relationship"), ("relationTo", .str "brands")],
        .obj [("name", .str "parts"), ("type", .str "relationship"), ("hasMany", .bool true),
          ("relationTo", .arr [.str "shirts", .str "brands"])]])],
    .obj [("name", .str "story"), ("type", .str "blocks"), ("blocks",
      .arr [.obj [("slug", .str "quote"), ("fields",
        .arr [.obj [("name", .str "source"), ("type", .str "group"), ("fields",
          .arr [.obj [("name", .str "author"), ("type", .str "text"), ("localized", .bool true)]])]])]])]]

/-- A shop, in two languages; what is sold is visible as long as it is not too expensive.  The clause
is not in order, and the server is written as a list. -/
def shop : Json :=
  .obj [("collections", .arr [.obj [("slug", .str "shirts"), ("fields", shopFields),
      ("versions", .obj [("maxPerDoc", .nat 5)]),
      ("access", .obj [("read", .obj [("price", .obj [("less_than", .num (.float 99.5))]),
        ("name", .obj [("not_equals", .null)])])])]]),
    ("localization", .obj [("locales", .arr [.str "en", .str "de"]), ("defaultLocale", .str "en")]),
    ("server", .arr [.str "localhost"])]

theorem reads_back_shop :
    (∃ c, ofJson shop = .ok c ∧ ofJson c.toJson = .ok c) ∧
    ∃ fields, Json.readList Field.ofJson shopFields = .ok fields ∧
      Json.readList Field.ofJson (.arr (Field.listToJson fields)) = .ok fields := by
  have hshop : (ofJson shop).isOk = true := by decide +kernel
  have hfields : (Json.readList Field.ofJson shopFields).isOk = true := by decide +kernel
  obtain ⟨c, hc⟩ := Except.exists_of_isOk hshop
  obtain ⟨fields, hlist⟩ := Except.exists_of_isOk hfields
  exact ⟨⟨c, hc, (reads_back.1 shop c hc).1⟩, fields, hlist, reads_back.2 shopFields fields hlist⟩

end Config

end HeadlessCms
