import HeadlessCms.Proofs.Localization.Texts
import HeadlessCms.Proofs.Service.Searching
import HeadlessCms.Proofs.Service.Showing
import HeadlessCms.Proofs.Service.Timing
import HeadlessCms.Proofs.Store.Ordering

/-!
# Sorted pages

The store sorts the records, the reader sees documents in a locale.  At a path that has nothing to do
with localized values both have the same texts (`Service.texts_resolve_shown`), so texts that are shown
there come in the order that was asked for (`Service.find_sorted`).  At a localized path the store
compares the values of all locales together, and what is shown is in no order
(`Service.find_titles_unsorted`).
-/

namespace HeadlessCms

/-- Items have the values that follow from those of the items that they belong to. -/
theorem map_eq_map_of_forall₂ {α β γ δ ε : Type} {R : α → β → Prop} {f : α → δ} {f' : γ → δ}
    {g : β → ε} {g' : γ → ε} {xs : List α} {ys : List β} {zs : List γ} (h : List.Forall₂ R xs ys)
    (hmap : ys.map g = zs.map g') (hvalue : ∀ x ∈ xs, ∀ y z, R x y → g y = g' z → f x = f' z) :
    xs.map f = zs.map f' := by
  induction h generalizing zs with
  | nil =>
    rw [List.map_nil, List.nil_eq, List.map_eq_nil_iff] at hmap
    rw [hmap]
    rfl
  | cons hxy _ ih =>
    cases zs with
    | nil => cases hmap
    | cons z rest =>
      obtain ⟨hfirst, hrest⟩ := List.cons.inj hmap
      rw [List.map_cons, List.map_cons, hvalue _ List.mem_cons_self _ z hxy hfirst,
        ih hrest fun x hx => hvalue x (List.mem_cons_of_mem _ hx)]

/-! ### Order under one key -/

/-- A text may stand before another one, in a direction. -/
def SortDirection.Allows : SortDirection → String → String → Prop
  | ascending, v, w => v ≤ w
  | descending, v, w => w ≤ v

instance : (direction : SortDirection) → DecidableRel direction.Allows
  | .ascending => fun v w => inferInstanceAs (Decidable (v ≤ w))
  | .descending => fun v w => inferInstanceAs (Decidable (w ≤ v))

theorem SortDirection.Allows.trans {direction : SortDirection} {u v w : String}
    (huv : direction.Allows u v) (hvw : direction.Allows v w) : direction.Allows u w := by
  cases direction with
  | ascending => exact String.le_trans huv hvw
  | descending => exact String.le_trans hvw huv

namespace SortKey

variable {key : SortKey}

/-- The text of a record that counts under a key, if it is a text. -/
def text? (key : SortKey) (record : Record) : Option String :=
  (key.value? record).bind Json.asString?

/-- The text under a key is the first value there, if that is a text. -/
theorem text?_eq_head (key : SortKey) (r : Record) :
    key.text? r = (Json.texts (Record.resolve r key.path)).head?.join := by
  unfold text? value? Json.texts
  cases Record.resolve r key.path <;> rfl

/-- A record has a text under a key exactly if the value that counts is this text. -/
theorem text?_eq_some_iff {r : Record} {w : String} :
    key.text? r = some w ↔ key.value? r = some (.str w) := by
  unfold text?
  constructor
  · intro h
    obtain ⟨v, hv, htext⟩ := Option.bind_eq_some_iff.1 h
    cases v with
    | str text => rw [hv, Option.some.inj htext]
    | null | bool _ | num _ | arr _ | obj _ => cases htext
  · intro h
    rw [h]
    rfl

/-- Texts that are no timestamps are compared as texts. -/
theorem allows_of_order {v w : String} (hplain : Time.readStrict? w = none) {direction : SortDirection}
    (h : (match direction with
      | .ascending => order (some (.str w)) (some (.str v))
      | .descending => (order (some (.str w)) (some (.str v))).swap) ≠ .lt) :
    direction.Allows v w := by
  rw [order, compareValues_texts hplain, Option.getD_some] at h
  cases direction with
  | ascending => exact String.not_lt.1 fun hlt => h (compareOfLessAndEq_eq_lt.2 hlt)
  | descending =>
    have hswap : Ord.compare v w = (Ord.compare w v).swap := Std.OrientedOrd.eq_swap
    exact String.not_lt.1 fun hlt => h (hswap ▸ compareOfLessAndEq_eq_lt.2 hlt)

/-- **Where no neighbours stand the wrong way round, texts are in order.** -/
theorem pairwise_of_isChain {records : List Record} {texts : List String}
    (hvalues : records.map key.value? = texts.map fun w => some (.str w))
    (hplain : ∀ w ∈ texts, Time.readStrict? w = none)
    (hchain : records.IsChain fun a b => key.compare b a ≠ .lt) :
    texts.Pairwise key.direction.Allows := by
  simp only [compare_eq] at hchain
  have htexts : (records.map key.value?).IsChain fun v w =>
      (match key.direction with
      | .ascending => order w v
      | .descending => (order w v).swap) ≠ .lt := (List.isChain_map _).2 hchain
  rw [hvalues, List.isChain_map] at htexts
  have htrans : IsTrans String key.direction.Allows := ⟨fun _ _ _ => SortDirection.Allows.trans⟩
  exact (htexts.imp_of_mem_imp fun v w _ hw hvw => allows_of_order (hplain w hw) hvw).pairwise

end SortKey

namespace Store

/-- Neighbours on a page are neighbours in the list. -/
theorem isChain_slice {α : Type} {R : α → α → Prop} {items : List α} (h : items.IsChain R)
    (pagination : Option Pagination) : (slice items pagination).IsChain R := by
  cases pagination with
  | none => exact h
  | some p => exact (h.drop p.offset).take p.limit

end Store

/-! ### What is read from a record -/

/-- Only the member with the first name of a path matters for its values. -/
theorem Record.resolve_congr {path head : String} {rest : List String}
    (hpath : Path.segments path = head :: rest) {r r' : Record}
    (h : Table.get? head r = Table.get? head r') : resolve r path = resolve r' path := by
  rw [resolve, resolve, hpath]
  simp only [reachMember_eq, h]

/-- The value that is left when the store has taken its own out has been there. -/
theorem SortKey.value?_of_sanitize {key : SortKey} {r : Record} {v : Json}
    (h : key.value? (Record.sanitize r) = some v) : key.value? r = some v := by
  obtain ⟨head, rest, hpath⟩ := List.exists_cons_of_ne_nil (Path.segments_ne_nil key.path)
  rw [← h, value?, value?]
  refine congrArg _ (Record.resolve_congr hpath ?_)
  by_cases hkept : head = "_seq" ∨ head = "__v"
  · have hnone : Table.get? head (Record.sanitize r) = none := by
      rw [Record.get?_sanitize, if_pos hkept]
    rw [value?, Record.resolve, hpath] at h
    simp [reachMember_eq, hnone] at h
  · rw [Record.get?_sanitize, if_neg hkept]

namespace Service

variable {s : Service} {c : CompiledEntity} {selection : Option LocaleSelection} {path : String}

/-- **What is shown has the texts of the record,** at paths that have nothing to do with localized
values. -/
theorem texts_resolve_shown {record : Record} {d : Document} (h : record.Timed)
    (hread : Document.ofRecord record = .ok d)
    (hapart : ∀ localized ∈ c.localizedPaths, ¬ Path.Reaches localized path) :
    Json.texts (Record.resolve (s.inLocale c.localizedPaths selection d).toRecord path) =
      Json.texts (Record.resolve record path) := by
  obtain ⟨head, rest, hpath⟩ := List.exists_cons_of_ne_nil (Path.segments_ne_nil path)
  have hdata : Record.IsData d.data := Document.isData_of_ofRecord h.ascending hread
  have hshown : Record.IsData (s.inLocale c.localizedPaths selection d).data :=
    hdata.of_keys (by rw [inLocale, keys_localize])
  have hlocalized : Json.texts (Record.resolve (s.localize c.localizedPaths selection d.data) path) =
      Json.texts (Record.resolve d.data path) := by
    rw [localize_eq]
    split
    · exact Record.texts_localize _ hapart d.data
    · rfl
  have hrecord : Record.resolve d.toRecord path = Record.resolve record path :=
    Record.resolve_congr hpath (Document.get?_toRecord_of_ofRecord h hread head)
  rw [← hrecord]
  by_cases henvelope : head ∈ Document.envelope
  · refine congrArg Json.texts (Record.resolve_congr hpath ?_)
    rw [Document.get?_toRecord_of_mem_envelope hshown.isBare henvelope,
      Document.get?_toRecord_of_mem_envelope hdata.isBare henvelope]
    rfl
  · rw [Record.resolve_congr hpath (Document.get?_toRecord_of_notMem_envelope hshown henvelope),
      Record.resolve_congr hpath (Document.get?_toRecord_of_notMem_envelope hdata henvelope)]
    exact hlocalized

/-- A text that is shown under a key is that of the record. -/
theorem text?_of_shown {r : Record} {d : Document} (h : r.Timed)
    (hread : Document.ofRecord (Record.sanitize r) = .ok d) {key : SortKey}
    (hapart : ∀ localized ∈ c.localizedPaths, ¬ Path.Reaches localized key.path) {w : String}
    (hshown : key.text? (s.inLocale c.localizedPaths selection d).toRecord = some w) :
    key.text? r = some w := by
  have htexts : Json.texts (Record.resolve (s.inLocale c.localizedPaths selection d).toRecord key.path) =
      Json.texts (Record.resolve (Record.sanitize r) key.path) :=
    texts_resolve_shown h.sanitize hread hapart
  have hsame : key.text? (Record.sanitize r) = some w := by
    rw [SortKey.text?_eq_head, ← htexts, ← SortKey.text?_eq_head, hshown]
  exact SortKey.text?_eq_some_iff.2
    (SortKey.value?_of_sanitize (SortKey.text?_eq_some_iff.1 hsame))

/-! ### A page -/

section

variable [PatternEngine] {env : Surroundings} {b b' : Backend} {slug : String} {params : FindParams}
  {page : Page Document}

/-- Without drafts a document is shown as it has been read. -/
theorem read_of_reveal {access : Access} {record : Record} {shown : Document}
    (hrun : (Action.runOn env (s.reveal c false selection access record) b).1 = .ok shown) :
    ∃ d, Document.ofRecord record = .ok d ∧ shown = s.inLocale c.localizedPaths selection d := by
  obtain ⟨d, _, hread, hpresent⟩ := Action.exists_of_runOn_bind hrun
  cases hpresent
  exact ⟨d, Except.mapError_eq_ok_iff.1 (Prod.mk.inj hread).1, rfl⟩

/-- The documents of a page are read from a piece of the selected records, and shown in the locale that
was asked for. -/
theorem selected_of_find (hc : s.registry.collection slug = .ok c) (hdraft : params.draft = false)
    (hfind : Action.runOn env (s.find slug params) b = (.ok page, b')) :
    ∃ selection q options held found pagination,
      (params.sort ≠ [] → options.sort = params.sort) ∧
      Table.get? slug b.store.collections = some held ∧ Store.select held q options = .ok found ∧
      List.Forall₂ (fun r shown => ∃ d, Document.ofRecord (Record.sanitize r) = .ok d ∧
        shown = s.inLocale c.localizedPaths selection d) (Store.slice found pagination) page.docs := by
  obtain ⟨x, hx⟩ := exists_search hc (congrArg Prod.fst hfind)
  have hdocs := hx.docs
  rw [hdraft] at hdocs
  have hread := (Action.forall₂_of_runOn_mapM (I := fun _ => True)
    (fun _ _ _ => ⟨trivial, fun _ _ => trivial⟩) trivial hdocs).imp
      fun record shown ⟨_, _, hrun⟩ => read_of_reveal hrun
  refine ⟨x.selection, _, _, x.held, x.found, _, ?_, hx.held, hx.found,
    List.forall₂_map_left_iff.1 hread⟩
  intro hsort
  simp [findOptions, hsort]

/-- **Texts that are shown come in the order that was asked for.**  Let a page of a collection be read
without drafts on any backend that has been reached, sorted by one path which leads to no localized
value.  If what the documents show at this path are texts that are no timestamps, they ascend or descend
as asked. -/
theorem find_sorted {config : Config} {registry : Registry}
    (hregular : ∀ n, (env.readings n).Regular) (hreach : Reachable env registry config b)
    (hc : registry.collection slug = .ok c) {key : SortKey} (hsort : params.sort = [key])
    (hdraft : params.draft = false)
    (hapart : ∀ localized ∈ c.localizedPaths, ¬ Path.Reaches localized key.path)
    (hfind : Action.runOn env ((ofRegistry registry config).find slug params) b = (.ok page, b'))
    {texts : List String}
    (hshown : page.docs.map (fun d => key.text? d.toRecord) = texts.map some)
    (hplain : ∀ w ∈ texts, Time.readStrict? w = none) : texts.Pairwise key.direction.Allows := by
  obtain ⟨selection, q, options, held, found, pagination, hoptions, hheld, hselect, hread⟩ :=
    selected_of_find (s := ofRegistry registry config) hc hdraft hfind
  have hsorted : options.sort = [key] := (hoptions (hsort ▸ List.cons_ne_nil key [])).trans hsort
  have hchain := Store.isChain_slice (Store.isChain_select hselect hsorted) pagination
  refine SortKey.pairwise_of_isChain (map_eq_map_of_forall₂ hread hshown ?_) hplain hchain
  rintro r hr shown w ⟨d, hrecord, rfl⟩ htext
  have hmem : r ∈ held.records := (Store.mem_select hselect (Store.mem_slice hr)).1
  have htimed : r.Timed := ((hreach.timed hregular).store slug held hheld).2 r hmem
  exact SortKey.text?_eq_some_iff.1 (text?_of_shown htimed hrecord hapart htext)

end

/-! Books with a plain author and a localized title. -/

def books : Entity :=
  Entity.ofFields "books" [Field.ofKind "author" .text,
    { Field.ofKind "title" .text with localized := true }]

def booksConfig : Config :=
  ⟨[books], [], some ⟨["en", "de"], "en", true⟩, .standard, .standard⟩

def booksRegistry : Registry :=
  (Registry.build booksConfig).toOption.getD ⟨[], []⟩

/-- The backend after a book has been created in English. -/
def withBook (b : Backend) (author title : String) : Backend :=
  (Action.runOn .backward ((ofRegistry booksRegistry booksConfig).create "books"
    [("author", .str author), ("title", .str title)] ⟨false, some "en"⟩) b).2

/-- A shelf with two books. -/
def shelf : Backend :=
  withBook (withBook (Action.runOn .backward (start booksRegistry booksConfig) .empty).2
    "Austen" "Emma") "Thoreau" "Walden"

/-- The books in English, sorted by a key. -/
def booksBy (key : SortKey) : Except ServiceError (Page Document) × Backend :=
  Action.runOn .backward ((ofRegistry booksRegistry booksConfig).find "books"
    ⟨none, [key], none, none, false, some "en", some noFallback⟩) shelf

/-- The texts that the page shows under the key. -/
def textsBy (key : SortKey) : Option (List (Option String)) :=
  (booksBy key).1.toOption.map fun page => page.docs.map fun d => key.text? d.toRecord

/-- A listing with these texts is a page with them. -/
theorem exists_booksBy {key : SortKey} {texts : List String} (h : textsBy key = some (texts.map some)) :
    ∃ page, booksBy key = (.ok page, (booksBy key).2) ∧
      page.docs.map (fun d => key.text? d.toRecord) = texts.map some := by
  obtain ⟨page, hpage, htexts⟩ := Option.map_eq_some_iff.1 h
  exact ⟨page, Prod.ext (Except.eq_ok_of_toOption hpage) rfl, htexts⟩

/-- The books make a service with a localized title. -/
theorem compiled_books :
    booksConfig.validate = .ok () ∧ Registry.build booksConfig = .ok booksRegistry ∧
      ∃ c, booksRegistry.collection "books" = .ok c ∧ c.localizedPaths = ["title"] := by
  have hbuild : Registry.build booksConfig = .ok booksRegistry := rfl
  obtain ⟨c, hc, hregistry⟩ := Registry.build_singleton rfl rfl hbuild
  refine ⟨rfl, hbuild, c, ?_, (CompiledEntity.of_compile hc).2.2⟩
  rw [hregistry]
  rfl

/-- The shelf is reached. -/
theorem reachable_shelf : Reachable .backward booksRegistry booksConfig shelf := by
  have htable (author title : String) :
      Table.Ascending [("author", Json.str author), ("title", Json.str title)] :=
    List.pairwise_pair.2 (by decide : "author" < "title")
  exact (Reachable.empty.started.created "books" ⟨false, some "en"⟩ (htable _ _)).created "books"
    ⟨false, some "en"⟩ (htable _ _)

theorem find_sorted_authors : ∃ page, booksBy (.asc "author") = (.ok page, (booksBy (.asc "author")).2) ∧
    page.docs.map (fun d => (SortKey.asc "author").text? d.toRecord) =
      ["Austen", "Thoreau"].map some ∧
    ["Austen", "Thoreau"].Pairwise SortDirection.ascending.Allows := by
  have htexts : textsBy (.asc "author") = some (["Austen", "Thoreau"].map some) := by decide +kernel
  obtain ⟨page, hfind, hshown⟩ := exists_booksBy htexts
  obtain ⟨_, _, c, hc, hpaths⟩ := compiled_books
  have hapart : ∀ localized ∈ c.localizedPaths, ¬ Path.Reaches localized "author" := by
    rw [hpaths]
    decide
  exact ⟨page, hfind, hshown, find_sorted Surroundings.proper_backward.regular reachable_shelf hc rfl
    rfl hapart hfind hshown (by decide)⟩

/-- **Titles are not sorted,** because the store compares what it has for all locales together: two
objects, which have no order. -/
theorem find_titles_unsorted :
    booksConfig.validate = .ok () ∧ Registry.build booksConfig = .ok booksRegistry ∧
      Reachable .backward booksRegistry booksConfig shelf ∧
      ∃ page, booksBy (.asc "title") = (.ok page, (booksBy (.asc "title")).2) ∧
        page.docs.map (fun d => (SortKey.asc "title").text? d.toRecord) =
          ["Walden", "Emma"].map some ∧
        (∀ w ∈ ["Walden", "Emma"], Time.readStrict? w = none) ∧
        ¬ ["Walden", "Emma"].Pairwise SortDirection.ascending.Allows := by
  have htexts : textsBy (.asc "title") = some (["Walden", "Emma"].map some) := by decide +kernel
  obtain ⟨page, hfind, hshown⟩ := exists_booksBy htexts
  exact ⟨compiled_books.1, compiled_books.2.1, reachable_shelf, page, hfind, hshown, by decide,
    by decide⟩

end Service

end HeadlessCms
