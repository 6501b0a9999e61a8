import HeadlessCms.Proofs.Query.Addressing
import HeadlessCms.Proofs.Service.Reaching
import HeadlessCms.Proofs.Service.Showing
import HeadlessCms.Service.Read

/-!
# Reads stay in scope

A reader whose access is a clause only receives documents that satisfy it.  What satisfies it is the
content as the requested locale itself has it; the fallback locale is put in afterwards, so it may
show a reader something that the clause has not been asked about.  Where nothing comes from the
fallback, the document satisfies the clause as it is shown (`Service.scoped_reads`).
-/

namespace HeadlessCms

open Time (Instant)

/-- The content that a backend has for a document: that of its record or, where drafts are shown, that
of one of its versions. -/
inductive Backend.Content (b : Backend) (c : CompiledEntity) (draft : Bool) (id : String) :
    Record → Prop
  | document {record : Record} (mem : record ∈ b.store.recordsOf c.slug)
      (own : Table.get? "id" record = some (.str id)) :
      Content b c draft id (Document.stripEnvelope (Record.sanitize record))
  | version {record snapshot : Record} (asked : draft = true)
      (mem : record ∈ b.store.recordsOf c.entity.versionsCollection)
      (parent : Table.get? "parent" record = some (.str id))
      (content : Table.get? "version" record = some (.obj snapshot)) :
      Content b c draft id (Document.stripEnvelope snapshot)

namespace Service

section

variable [PatternEngine]

/-- A document that is shown to a reader within a scope: its content is stored; as the selected locale
itself has it, it satisfies the clause; and so it does as it is shown, if all that the clause looks at
is shown as the locale itself has it. -/
structure InScope (s : Service) (b : Backend) (c : CompiledEntity) (draft : Bool) (scope : Predicate)
    (selection : Option LocaleSelection) (content : Record) (doc : Document) : Prop where
  stored : b.Content c draft doc.id content
  data : doc.data = s.localize c.localizedPaths selection content
  own : Document.Satisfies { doc with data := s.alone c.localizedPaths selection content } scope
  shown : (∀ k ∈ scope.leaves, s.ShowsOwn c.localizedPaths selection content k) →
    doc.Satisfies scope

variable {s : Service} {c : CompiledEntity} {selection : Option LocaleSelection}
  {requested fallback : Option String} {scope : Predicate} {draft : Bool}

/-! ### Clauses -/

section Clauses

variable {record : Record} {d doc : Document}

/-- **A document of which the record satisfies a clause satisfies it,** in the locale itself. -/
theorem satisfies_of_shows (h : record.Shows d)
    (hselect : s.selectLocale requested fallback = .ok selection) (hplain : s.PlainLocales)
    (hd : d.Tidy (c.shape s.localization))
    (hsteady : ∀ k ∈ scope.leaves, Path.Steady c.localizedPaths draft k.path)
    (hscope : (scope.mapPaths (Store.storedPath c.localizedPaths (localeOf selection))).holds record =
      .ok true) : (s.aloneIn c selection d).Satisfies scope := by
  refine Predicate.holds_mapPaths scope (fun k hk b htest => ?_) true hscope
  rw [Record.resolve_eq_reach] at htest ⊢
  rwa [h.reach_aloneIn hselect hplain hd (hsteady k hk)]

/-- **A draft of which the version satisfies a clause on drafts satisfies the clause.** -/
theorem satisfies_of_showsVersion {v : Version}
    (h : record.ShowsVersion (c.shape s.localization) v) (hparent : v.parent = some doc.id)
    (htimestamps : c.entity.timestamps = true)
    (hselect : s.selectLocale requested fallback = .ok selection) (hplain : s.PlainLocales)
    (hsteady : ∀ k ∈ scope.leaves, Path.Steady c.localizedPaths true k.path)
    (hscope : (scope.scopeToVersion.mapPaths
      (Store.storedPath c.versionLocalizedPaths (localeOf selection))).holds record = .ok true) :
    (s.aloneIn c selection (Draft.overlay doc v)).Satisfies scope := by
  rw [Predicate.scopeToVersion, Predicate.mapPaths_mapPaths] at hscope
  refine Predicate.holds_mapPaths scope (fun k hk b htest => ?_) true hscope
  rw [Record.resolve_eq_reach] at htest ⊢
  rwa [h.reach_aloneIn hparent htimestamps hselect hplain (hsteady k hk)]

/-- **Without the fallback a document is shown as it satisfies a clause.** -/
theorem satisfies_localize (hselect : s.selectLocale requested fallback = .ok selection)
    (hd : Record.Tidy (c.shape s.localization) d.data)
    (hsteady : ∀ k ∈ scope.leaves, Path.Steady c.localizedPaths draft k.path)
    (hshows : ∀ k ∈ scope.leaves, s.ShowsOwn c.localizedPaths selection d.data k)
    (hown : (s.aloneIn c selection d).Satisfies scope) :
    Document.Satisfies { d with data := s.localize c.localizedPaths selection d.data } scope := by
  have hdata : Record.IsData (s.localize c.localizedPaths selection d.data) :=
    hd.toIsData.of_keys (by rw [keys_localize])
  refine Predicate.holds_mapPaths scope (fun k hk b htest => ?_) true hown
  rw [Record.resolve_eq_reach] at htest ⊢
  obtain ⟨name, rest, hnames⟩ := List.exists_cons_of_ne_nil
    (Path.segments_ne_nil (Path.toData k.path))
  by_cases hname : name ∈ Document.envelope
  · -- The envelope reads alike in every locale.
    rw [hnames, Json.reach_obj_congr (Document.get?_toRecord_of_mem_envelope
      (isData_alone hd.toIsData).isBare hname)] at htest
    rwa [hnames, Json.reach_obj_congr (Document.get?_toRecord_of_mem_envelope hdata.isBare hname)]
  · rw [hnames, Json.reach_obj_congr (Document.get?_toRecord_of_notMem_envelope
      (isData_alone hd.toIsData) hname), ← hnames] at htest
    rw [hnames, Json.reach_obj_congr (Document.get?_toRecord_of_notMem_envelope hdata hname), ← hnames]
    exact test_localize hselect hd.localized (hsteady k hk) (hshows k hk) htest

/-- A document is in scope if its content, in the locale itself, satisfies the clause. -/
theorem inScope_localize {b : Backend} (hselect : s.selectLocale requested fallback = .ok selection)
    (hstored : b.Content c draft d.id d.data) (hd : Record.Tidy (c.shape s.localization) d.data)
    (hsteady : ∀ k ∈ scope.leaves, Path.Steady c.localizedPaths draft k.path)
    (hown : (s.aloneIn c selection d).Satisfies scope) :
    s.InScope b c draft scope selection d.data
      { d with data := s.localize c.localizedPaths selection d.data } where
  stored := hstored
  data := rfl
  own := hown
  shown hshows := satisfies_localize hselect hd hsteady hshows hown

end Clauses

/-! ### Drafts -/

/-- What the clause for the drafts of a reader asks of a version. -/
theorem of_draftClause {t : Instant} {id parent : String} {locale : Option String} {record : Record}
    (hparent : Table.get? "parent" record = some (.str parent))
    (hplain : Time.readStrict? parent = none)
    (h : ((Draft.clause .collection id t (.scoped scope)).mapPaths
      (Store.storedPath c.versionLocalizedPaths locale)).holds record = .ok true) :
    parent = id ∧ (scope.scopeToVersion.mapPaths
      (Store.storedPath c.versionLocalizedPaths locale)).holds record = .ok true := by
  have hclause : Draft.clause .collection id t (.scoped scope) =
      .and ([.compare "parent" .equals (.str id),
        .compare ("version." ++ Status.field) .equals (.str Status.draft.name),
        .compare "updatedAt" .greaterThan (.ofInstant t)] ++ [scope.scopeToVersion]) := rfl
  rw [hclause, Predicate.mapPaths_and, Predicate.holds_and, Predicate.allHold_eq_true_iff] at h
  refine ⟨?_, h _ (List.mem_map_of_mem (by simp))⟩
  have hpath : Path.segments "parent" = ["parent"] := rfl
  have hvalue : Record.resolve record "parent" = [.str parent] := by
    rw [Record.resolve_name hpath, hparent]
    rfl
  have hfirst := h _ (List.mem_map_of_mem List.mem_cons_self)
  rw [Predicate.mapPaths_compare, CompiledEntity.storedPath_outside (by decide) (by decide),
    Predicate.holds_equals_text hvalue hplain, Except.ok.injEq, beq_iff_eq] at hfirst
  exact hfirst

/-! ### Reads -/

section Reads

variable {env : Surroundings} {b : Backend} {config : Config} {registry : Registry} {slug : String}

omit [PatternEngine] in
/-- A record of an offered collection is stored under its name. -/
theorem mem_recordsOf {name : String} {held : Collection} {record : Record}
    (hheld : Backend.Offers (· = b) name held) (hmem : record ∈ held.records) :
    record ∈ b.store.recordsOf name := by
  obtain ⟨b', rfl, hget⟩ := hheld
  rw [Store.recordsOf, hget]
  exact hmem

/-- **A document that is found within the scope is shown within the scope,** also if a draft is shown
in its place. -/
theorem keeps_present (hlawful : b.Lawful env (c.law s.localization)) (hkind : c.kind = .collection)
    (hselect : s.selectLocale requested fallback = .ok selection) (hplain : s.PlainLocales)
    (hsteady : ∀ k ∈ scope.leaves,
      Path.Steady c.localizedPaths (draft && c.entity.hasDrafts) k.path)
    {record : Record} (hrecord : record ∈ b.store.recordsOf c.slug)
    (hscope : (scope.mapPaths (Store.storedPath c.localizedPaths (localeOf selection))).holds record =
      .ok true) {doc : Document} (hread : Document.ofRecord (Record.sanitize record) = .ok doc) :
    Action.Keeps env (· = b) (s.present c draft selection (.scoped scope) doc) fun shown =>
      ∃ content, s.InScope b c (draft && c.entity.hasDrafts) scope selection content shown := by
  obtain ⟨htidy, hshows⟩ := ((hlawful.store.recordsOf hrecord).1 rfl).read hread
  have hstored : b.Content c (draft && c.entity.hasDrafts) doc.id doc.data := by
    rw [hshows.data]
    exact .document hrecord hshows.id
  have hlive : ∃ content, s.InScope b c (draft && c.entity.hasDrafts) scope selection content
      { doc with data := s.localize c.localizedPaths selection doc.data } :=
    ⟨_, inScope_localize hselect hstored htidy.data hsteady
      (satisfies_of_shows hshows hselect hplain htidy hsteady hscope)⟩
  unfold present
  dsimp only
  split
  · next hdrafts =>
    refine ((Draft.keeps_resolve _ _ _ _ _).mapError _).bind fun newest hnewest => .pure ?_
    rcases hnewest with rfl | ⟨t, v, held, q, r, hupdated, hheld, rfl, hr, hversion, rfl⟩
    · exact hlive
    · have hmem : r ∈ b.store.recordsOf c.entity.versionsCollection := by
        obtain ⟨held', hheld', hr'⟩ := hr.mem
        exact mem_recordsOf hheld' hr'
      have hpaths : held.localizedPaths = c.versionLocalizedPaths := by
        obtain ⟨b', rfl, hget⟩ := hheld
        exact (hlawful.store _ _ hget).1.2 rfl
      have hv := ((hlawful.store.recordsOf hmem).2 rfl).read hversion
      obtain ⟨parent, hparent, hget, hplainParent⟩ := hv.parent
      have hclause := hr.holds
      rw [hpaths, hkind] at hclause
      obtain ⟨rfl, hdraft⟩ := of_draftClause hget hplainParent hclause
      rw [hdrafts] at hsteady ⊢
      refine ⟨_, inScope_localize (d := Draft.overlay doc v) hselect ?_ hv.tidy hsteady ?_⟩
      · exact .version rfl hmem hget hv.snapshot
      · exact satisfies_of_showsVersion hv hparent (htidy.updatedAt t hupdated).2 hselect hplain
          hsteady hdraft
  · exact Action.Keeps.bind (.pure rfl) fun d hd => .pure (hd ▸ hlive)

omit [PatternEngine] in
/-- A rule with a scope gives access within it. -/
theorem readAccess_of_scoped (h : c.entity.read.resolve = .ok (.scoped scope)) {access : Access}
    (haccess : readAccess c = .ok access) : access = .scoped scope := by
  unfold readAccess at haccess
  rw [h] at haccess
  exact (Except.ok.inj haccess).symm

variable (hlawful : b.Lawful env (c.law config.localization)) (h : config.Holds registry slug c)

include hlawful h

/-- A record that a query with the scope selects is one of the collection, within the scope. -/
theorem scoped_of_selects {held : Collection} {filter : Option Predicate} {locale : Option String}
    (hheld : Backend.Offers (· = b) slug held) {r : Record}
    (hr : Backend.Selects (· = b) ⟨slug, (withScope filter (.scoped scope)).map
      (·.mapPaths (Store.storedPath held.localizedPaths locale)), locale⟩ r) :
    r ∈ b.store.recordsOf c.slug ∧
      (scope.mapPaths (Store.storedPath c.localizedPaths locale)).holds r = .ok true := by
  have hpaths : held.localizedPaths = c.localizedPaths := by
    obtain ⟨b', rfl, hget⟩ := hheld
    exact (hlawful.store _ _ hget).1.1 h.slug_eq.symm
  obtain ⟨held', hheld', hmem⟩ := hr.mem
  refine ⟨?_, hpaths ▸ holds_scope_of_withScope hr.holds⟩
  rw [h.slug_eq]
  exact mem_recordsOf hheld' hmem

variable (hscope : c.entity.read.resolve = .ok (.scoped scope))
  (hplain : (ofRegistry registry config).PlainLocales)

include hscope hplain

/-- **Pages are within the scope.** -/
theorem keeps_find (params : FindParams) (hsteady : ∀ k ∈ scope.leaves,
      Path.Steady c.localizedPaths (params.draft && c.entity.hasDrafts) k.path) :
    Action.Keeps env (· = b) ((ofRegistry registry config).find slug params) fun page =>
      ∀ doc ∈ page.docs, ∃ selection content,
        (ofRegistry registry config).selectLocale params.locale params.fallbackLocale =
          .ok selection ∧ (ofRegistry registry config).InScope b c (params.draft && c.entity.hasDrafts)
            scope selection content doc := by
  unfold find
  refine .ofExcept_bind fun c' hc => ?_
  obtain rfl : c' = c := Except.ok.inj (hc.symm.trans h.collection)
  refine .ofExcept_bind fun access haccess => ?_
  obtain rfl := readAccess_of_scoped hscope haccess
  refine .ofExcept_bind fun selection hselect => ?_
  refine .ofExcept_bind fun filter _ => ?_
  dsimp only
  refine ((Action.Keeps.buildQuery _ _ _).mapError _).bind fun q hq => ?_
  obtain ⟨held, hheld, rfl⟩ := hq
  refine ((Action.Keeps.find _ _ _).mapError _).bind fun page hpage => ?_
  refine Action.Keeps.bind (Action.Keeps.mapM (Q := fun doc => ∃ content,
    (ofRegistry registry config).InScope b c' (params.draft && c'.entity.hasDrafts) scope selection
      content doc) fun shown hshown => ?_)
    fun docs hdocs => .pure fun doc hdoc => ?_
  · obtain ⟨r, hr, rfl⟩ := hpage shown hshown
    obtain ⟨hmem, hholds⟩ := scoped_of_selects hlawful h hheld hr
    refine (keeps_documentOf _).bind fun doc hread => ?_
    exact keeps_present (s := ofRegistry registry config) hlawful h.compiles.kind_eq hselect hplain
      hsteady hmem hholds hread
  · obtain ⟨content, hcontent⟩ := hdocs doc hdoc
    exact ⟨selection, content, hselect, hcontent⟩

/-- **So is the document with an id.** -/
theorem keeps_findById (id : String) (params : ReadParams) (hsteady : ∀ k ∈ scope.leaves,
      Path.Steady c.localizedPaths (params.draft && c.entity.hasDrafts) k.path) :
    Action.Keeps env (· = b) ((ofRegistry registry config).findById slug id params) fun doc =>
      ∃ selection content,
        (ofRegistry registry config).selectLocale params.locale params.fallbackLocale =
          .ok selection ∧ (ofRegistry registry config).InScope b c (params.draft && c.entity.hasDrafts)
            scope selection content doc := by
  unfold findById
  refine .ofExcept_bind fun c' hc => ?_
  obtain rfl : c' = c := Except.ok.inj (hc.symm.trans h.collection)
  refine .ofExcept_bind fun access haccess => ?_
  obtain rfl := readAccess_of_scoped hscope haccess
  refine .ofExcept_bind fun selection hselect => ?_
  dsimp only
  refine ((Action.Keeps.buildQuery _ _ _).mapError _).bind fun q hq => ?_
  obtain ⟨held, hheld, rfl⟩ := hq
  refine ((Action.Keeps.findOne _ _).mapError _).bind fun found hfound => ?_
  cases found with
  | none => exact .throw _
  | some shown =>
    obtain ⟨r, hr, rfl⟩ := hfound shown rfl
    obtain ⟨hmem, hholds⟩ := scoped_of_selects hlawful h hheld hr
    refine (keeps_documentOf _).bind fun doc hread => ?_
    refine (keeps_present (s := ofRegistry registry config) hlawful h.compiles.kind_eq hselect hplain
      hsteady hmem hholds hread).imp fun doc hdoc => ?_
    obtain ⟨content, hcontent⟩ := hdoc
    exact ⟨selection, content, hselect, hcontent⟩

end Reads

/-- The documents that reads of a collection return, by the draft flag, the locale and the fallback
locale that they ask for: the documents of a page, and the one with an id. -/
inductive Returned (env : Surroundings) (s : Service) (b : Backend) (slug : String) :
    Bool → Option String → Option String → Document → Prop
  | listed {params : FindParams} {page : Page Document} {doc : Document}
      (found : (Action.runOn env (s.find slug params) b).1 = .ok page) (mem : doc ∈ page.docs) :
      Returned env s b slug params.draft params.locale params.fallbackLocale doc
  | found {id : String} {params : ReadParams} {doc : Document}
      (found : (Action.runOn env (s.findById slug id params) b).1 = .ok doc) :
      Returned env s b slug params.draft params.locale params.fallbackLocale doc

/-- **Reads stay in scope.**  On every backend that is reached, whatever is returned to a reader whose
access is a clause on steady paths satisfies the clause, with its content as the requested locale itself
has it; and as it is shown, if all that the clause looks at is shown as the locale itself has it.  The
content is that of the stored document or, where drafts are asked for, of one of its versions. -/
theorem scoped_reads {env : Surroundings} {config : Config} {registry : Registry} {slug : String}
    {c : CompiledEntity} {scope : Predicate} {b : Backend} {draft : Bool}
    {locale fallback : Option String} {doc : Document} (henv : env.Proper)
    (h : config.Holds registry slug c) (hscope : c.entity.read.resolve = .ok (.scoped scope))
    (hplain : (ofRegistry registry config).PlainLocales)
    (hsteady : ∀ k ∈ scope.leaves,
      Path.Steady c.localizedPaths (draft && c.entity.hasDrafts) k.path)
    (hreach : Reachable env registry config b)
    (hreturned : Returned env (ofRegistry registry config) b slug draft locale fallback doc) :
    ∃ selection content,
      (ofRegistry registry config).selectLocale locale fallback = .ok selection ∧
      (ofRegistry registry config).InScope b c (draft && c.entity.hasDrafts) scope selection content
        doc := by
  have hlawful : b.Lawful env (c.law config.localization) := hreach.lawful henv h
  cases hreturned with
  | @listed params page _ hfound hmem =>
    exact (keeps_find hlawful h hscope hplain params hsteady b rfl).2 page hfound doc hmem
  | @found id params _ hfound =>
    exact (keeps_findById hlawful h hscope hplain id params hsteady b rfl).2 doc hfound

end

/-! A collection with a localized title whose readers may not see the title `secret`. -/

/-- The clause of the readers of posts. -/
def postsScope : Predicate :=
  .compare "title" .notEquals (.str "secret")

/-- Posts with a localized title. -/
def posts : Entity :=
  { Entity.ofFields "posts" [{ Field.ofKind "title" .text with localized := true }] with
    read := .scope (.obj [("title", .obj [("not_equals", .str "secret")])]) }

def postsConfig : Config :=
  ⟨[posts], [], some ⟨["en", "de"], "en", true⟩, .standard, .standard⟩

def postsRegistry : Registry :=
  (Registry.build postsConfig).toOption.getD ⟨[], []⟩

/-- The posts make a service with a scope. -/
theorem exists_holds_posts :
    ∃ c, postsConfig.Holds postsRegistry "posts" c ∧ c.localizedPaths = ["title"] ∧
      c.entity.read.resolve = .ok (.scoped postsScope) := by
  have hbuild : Registry.build postsConfig = .ok postsRegistry := rfl
  obtain ⟨c, hc, hregistry⟩ := Registry.build_singleton rfl rfl hbuild
  obtain ⟨hentity, _, hpaths⟩ := CompiledEntity.of_compile hc
  refine ⟨c, ⟨rfl, hbuild, ?_, by decide⟩, hpaths, ?_⟩
  · rw [hregistry]
    rfl
  · rw [hentity]
    rfl

/-- A title is a steady path, also if it is localized. -/
theorem steady_title (draft : Bool) : Path.Steady ["title"] draft "title" := by
  have hsegments : Path.segments (Path.toData "title") = ["title"] := rfl
  have hname : Path.segments "title" = ["title"] := rfl
  have hlone : Path.Lone ["title"] "title" := ⟨[], [], rfl, by simp⟩
  have hhead : ∀ name ∈ (Path.segments (Path.toData "title")).head?, name = "title" := by
    intro name h
    rw [hsegments] at h
    exact (Option.some.inj h).symm
  refine ⟨⟨?_, ?_, ?_⟩, ?_, ?_, ?_⟩
  · simp [hsegments, hname]
  · simp [hlone]
  · simp [hsegments]
  · exact fun name h => hhead name h ▸ by decide
  · exact fun _ name h => hhead name h ▸ by decide
  · exact fun _ _ _ name h => hhead name h ▸ by decide

/-- The backend after a post with a title has been created in English. -/
def postsBackend (title : String) : Backend :=
  (Action.runOn .backward ((ofRegistry postsRegistry postsConfig).create "posts"
    [("title", .str title)] ⟨false, some "en"⟩)
      (Action.runOn .backward (start postsRegistry postsConfig) .empty).2).2

/-- The backend with the post is reached. -/
theorem reachable_postsBackend (title : String) :
    Reachable .backward postsRegistry postsConfig (postsBackend title) :=
  .created (.started .empty) "posts" ⟨false, some "en"⟩ (List.pairwise_singleton _ _)

/-- What a reader of German posts is shown of the post. -/
def postsRead (title : String) : Except ServiceError Document :=
  (Action.runOn .backward ((ofRegistry postsRegistry postsConfig).findById "posts" "n"
    ⟨false, some "de", none⟩) (postsBackend title)).1

/-- What this read returns is returned. -/
theorem returned_of_postsRead {title : String} {doc : Document}
    (h : (postsRead title).toOption = some doc) :
    Returned .backward (ofRegistry postsRegistry postsConfig) (postsBackend title) "posts" false
      (some "de") none doc :=
  @Returned.found _ _ _ _ _ _ ⟨false, some "de", none⟩ _ (Except.eq_ok_of_toOption h)

theorem scoped_reads_posts :
    ∃ c doc selection content,
      Returned .backward (ofRegistry postsRegistry postsConfig) (postsBackend "open") "posts" false
        (some "de") none doc ∧
      (ofRegistry postsRegistry postsConfig).selectLocale (some "de") none = .ok selection ∧
      (ofRegistry postsRegistry postsConfig).InScope (postsBackend "open") c false postsScope selection
        content doc := by
  obtain ⟨c, hholds, hpaths, hscope⟩ := exists_holds_posts
  have hplain : (ofRegistry postsRegistry postsConfig).PlainLocales := by
    intro l hl
    cases hl
    decide
  have hsteady : ∀ k ∈ postsScope.leaves,
      Path.Steady c.localizedPaths (false && c.entity.hasDrafts) k.path := by
    intro k hk
    simp only [postsScope, Predicate.compare, Predicate.leaves, List.mem_singleton] at hk
    rw [hk, hpaths]
    exact steady_title _
  have hsome : (postsRead "open").toOption.isSome = true := by decide +kernel
  obtain ⟨doc, hdoc⟩ := Option.isSome_iff_exists.1 hsome
  have hreturned := returned_of_postsRead hdoc
  obtain ⟨selection, content, hselect, hin⟩ := scoped_reads Surroundings.proper_backward hholds
    hscope hplain hsteady (reachable_postsBackend "open") hreturned
  exact ⟨c, doc, selection, content, hreturned, hselect, hin⟩

/-- **The fallback may show what the clause excludes:** the English title of a post that has no German
one. -/
theorem not_satisfies_fallback :
    ∃ c doc, postsConfig.Holds postsRegistry "posts" c ∧
      c.entity.read.resolve = .ok (.scoped postsScope) ∧
      Reachable .backward postsRegistry postsConfig (postsBackend "secret") ∧
      Returned .backward (ofRegistry postsRegistry postsConfig) (postsBackend "secret") "posts" false
        (some "de") none doc ∧
      ¬ doc.Satisfies postsScope := by
  obtain ⟨c, hholds, _, hscope⟩ := exists_holds_posts
  have hread : (postsRead "secret").toOption.map (fun doc => decide (doc.Satisfies postsScope)) =
      some false := by
    decide +kernel
  obtain ⟨doc, hdoc, hnot⟩ := Option.map_eq_some_iff.1 hread
  exact ⟨c, doc, hholds, hscope, reachable_postsBackend "secret", returned_of_postsRead hdoc,
    of_decide_eq_false hnot⟩

end Service

end HeadlessCms
