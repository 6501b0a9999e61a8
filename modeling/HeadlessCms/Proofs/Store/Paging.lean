import HeadlessCms.Config
import HeadlessCms.Proofs.Store.Failing
import HeadlessCms.Proofs.Store.Upkeep

/-!
# Pages partition the result

The pages of a result, one behind the other, are the whole result (`Store.find_divides`).  What makes
it so is that the number of pages is the rounded-up quotient of the total by the limit
(`Page.lt_totalPages_iff`), and that an offset which no longer fits into 64 bits lies behind all
records anyway (`Store.slice_of`).

The figures of a page are computed with 64 bits.  `Page.figures?` repeats the computation with
operations that answer nothing when a result does not fit, or when the divisor is zero; it always
answers.
-/

namespace HeadlessCms

variable {α : Type}

/-! ### Numbers of 64 bits -/

namespace Word

/-- The difference, if it is not negative. -/
def sub? (a b : Nat) : Option Nat :=
  if b ≤ a then some (a - b) else none

/-- The sum, if it fits into 64 bits. -/
def add? (a b : Nat) : Option Nat :=
  if a + b ≤ wordMax then some (a + b) else none

/-- The quotient rounded up: one more than the quotient when there is a remainder. -/
def divCeil? (a b : Nat) : Option Nat :=
  if b = 0 then none
  else if a % b = 0 then some (a / b)
  else add? (a / b) 1

/-- A number that is computed only when it is wanted. -/
def when? (wanted : Bool) (n : Option Nat) : Option (Option Nat) :=
  if wanted then n.map some else some none

/-- A difference that is not negative is in range. -/
theorem sub?_of_le {a b : Nat} (h : b ≤ a) : sub? a b = some (a - b) :=
  if_pos h

/-- A sum up to the greatest word is in range. -/
theorem add?_of_le {a b : Nat} (h : a + b ≤ wordMax) : add? a b = some (a + b) :=
  if_pos h

/-- **The rounded-up quotient of a number of 64 bits fits.** -/
theorem divCeil?_eq {a b : Nat} (ha : a ≤ wordMax) (hb : 0 < b) :
    divCeil? a b = some ((a + b - 1) / b) := by
  unfold divCeil?
  rw [if_neg (Nat.ne_of_gt hb)]
  have hdivision := Nat.div_add_mod a b
  have hremainder : a % b < b := Nat.mod_lt a hb
  split
  · next hzero =>
    have hquotient : (a + b - 1) / b = a / b := by
      rw [Nat.div_eq_iff hb]
      rw [hzero, Nat.add_zero, Nat.mul_comm] at hdivision
      omega
    rw [hquotient]
  · next hmore =>
    have hquotient : (a + b - 1) / b = a / b + 1 := by
      rw [Nat.div_eq_iff hb, Nat.add_mul]
      rw [Nat.mul_comm] at hdivision
      omega
    have hfits : a / b + 1 ≤ wordMax := by
      -- The remainder leaves room for one more.
      have hpos : 0 < a % b := Nat.pos_of_ne_zero hmore
      have hle : a / b ≤ b * (a / b) := Nat.le_mul_of_pos_left _ hb
      omega
    rw [add?_of_le hfits, hquotient]

end Word

/-- How many results come before the page, or nothing if pages were counted from zero. -/
def Pagination.offset? (p : Pagination) : Option Nat := do
  let before ← Word.sub? p.page 1
  some (saturate (before * p.limit))

namespace Page

/-- What a page tells about its place in the result. -/
structure Figures where
  totalPages : Nat
  pagingCounter : Nat
  prev? : Option Nat
  next? : Option Nat
  deriving DecidableEq, Repr

def figures (p : Page α) : Figures :=
  ⟨p.totalPages, p.pagingCounter, p.prev?, p.next?⟩

/-- The figures, or nothing when one of the operations for them fails. -/
def figures? (p : Page α) : Option Figures := do
  let quotient ← Word.divCeil? p.totalDocs p.limit
  let total := max quotient 1
  let before ← Word.sub? p.page 1
  let prev ← Word.when? (1 < p.page) (Word.sub? p.page 1)
  let next ← Word.when? (p.page < total) (Word.add? p.page 1)
  some ⟨total, saturate (saturate (before * p.limit) + 1), prev, next⟩

/-- There is at least one page. -/
theorem one_le_totalPages (p : Page α) : 1 ≤ p.totalPages :=
  Nat.le_max_right _ _

/-- **There is a page behind the first `k` exactly when these do not hold all results.** -/
theorem lt_totalPages_iff {p : Page α} (hlimit : 0 < p.limit) {k : Nat} (hk : 1 ≤ k) :
    k < p.totalPages ↔ k * p.limit < p.totalDocs := by
  have hquotient : k + 1 ≤ (p.totalDocs + p.limit - 1) / p.limit ↔
      (k + 1) * p.limit ≤ p.totalDocs + p.limit - 1 := Nat.le_div_iff_mul_le hlimit
  rw [Nat.add_mul] at hquotient
  unfold totalPages
  omega

/-- There are no more pages than documents, or one. -/
theorem totalPages_le {p : Page α} (hlimit : 0 < p.limit) : p.totalPages ≤ max p.totalDocs 1 := by
  apply Nat.le_of_not_lt
  intro h
  have hmany := (lt_totalPages_iff hlimit (Nat.le_max_right p.totalDocs 1)).1 h
  have hfew : max p.totalDocs 1 ≤ max p.totalDocs 1 * p.limit := Nat.le_mul_of_pos_right _ hlimit
  omega

/-- **The figures of a page are computed without overflow.** -/
theorem figures?_eq {p : Page α} (htotal : p.totalDocs < wordMax) (hlimit : 0 < p.limit)
    (hpage : 1 ≤ p.page) : p.figures? = some p.figures := by
  have hquotient := Word.divCeil?_eq (Nat.le_of_lt htotal) hlimit
  have hbefore := Word.sub?_of_le hpage
  have hprev : Word.when? (1 < p.page) (some (p.page - 1)) = some p.prev? := by
    rw [Word.when?, prev?, hasPrev]
    split <;> rfl
  have hnext : Word.when? (p.page < p.totalPages) (Word.add? p.page 1) = some p.next? := by
    rw [Word.when?, next?, hasNext]
    split
    · next hlt =>
      have hle := totalPages_le hlimit
      have hmax : 1 < wordMax := by decide
      have hfits : p.page + 1 ≤ wordMax := by
        have hlt := of_decide_eq_true hlt
        omega
      rw [Word.add?_of_le hfits]
      rfl
    · rfl
  simp only [figures?, hquotient, hbefore, hprev, Option.bind_eq_bind, Option.bind_some]
  rw [← totalPages, hnext]
  rfl

end Page

/-- The offset of a page that has been brought into range is in range. -/
theorem Pagination.offset?_of (page limit : Nat) :
    (Pagination.of page limit).offset? = some (Pagination.of page limit).offset := by
  have hpage : 1 ≤ (Pagination.of page limit).page := Nat.le_max_right _ _
  simp [offset?, offset, Word.sub?_of_le hpage]

namespace Store

/-! ### Slices of a list -/

/-- Pieces of equal length, one behind the other. -/
theorem flatMap_pieces (items : List α) (limit n : Nat) :
    ((List.range n).flatMap fun i => (items.drop (i * limit)).take limit) =
      items.take (n * limit) := by
  induction n with
  | zero => simp
  | succ n ih =>
    rw [List.range_succ, List.flatMap_append, ih, Nat.add_mul, Nat.one_mul, List.take_add]
    simp

/-- **A page is the piece that stands at its place,** also when its offset does not fit. -/
theorem slice_of {items : List α} (hfew : items.length ≤ wordMax) (i : Nat) {limit : Nat}
    (hlimit : 1 ≤ limit) :
    slice items (some (.of (i + 1) limit)) = (items.drop (i * limit)).take limit := by
  have hoffset : (Pagination.of (i + 1) limit).offset = saturate (i * limit) := by
    simp [Pagination.offset, Pagination.of, Nat.max_eq_left hlimit]
  have htake : (Pagination.of (i + 1) limit).limit = limit := Nat.max_eq_left hlimit
  rw [slice, hoffset, htake]
  by_cases hfits : i * limit ≤ wordMax
  · rw [saturate, Nat.min_eq_left hfits]
  · have hmany : items.length ≤ i * limit := by omega
    rw [saturate, Nat.min_eq_right (by omega), List.drop_eq_nil_of_le hfew,
      List.drop_eq_nil_of_le hmany]

/-- What a search answers: a slice of the selected records, as they are shown. -/
theorem exists_of_find [PatternEngine] {s : Store} {q : Query} {options : FindOptions}
    {pagination : Option Pagination} {page : Page Record}
    (h : s.find q options pagination = .ok page) :
    ∃ c found, s.collection? q.collection = .ok c ∧ select c q options = .ok found ∧
      page = .ofDocs ((slice found pagination).map (present options))
        (if options.estimatedCount then c.records.length else found.length) pagination := by
  obtain ⟨c, hc, h⟩ := Except.bind_eq_ok_iff.1 h
  obtain ⟨found, hfound, h⟩ := Except.bind_eq_ok_iff.1 h
  cases h
  exact ⟨c, found, hc, hfound, rfl⟩

/-- As many records are selected as the clause selects. -/
theorem length_select [PatternEngine]
    {c : Collection} {q : Query} {options : FindOptions} {found : List Record}
    (h : select c q options = .ok found) :
    found.length = (c.records.filter (Predicate.selects q.filter)).length := by
  obtain ⟨matched, hmatched, h⟩ := Except.bind_eq_ok_iff.1 h
  cases h
  rw [(perm_sortStably _ _).length_eq, eq_filter_of_matching hmatched]

/-! ### The pages of a result -/

/-- Page `k` of selected records. -/
def pageOf (options : FindOptions) (found : List Record) (total limit k : Nat) : Page Record :=
  .ofDocs ((slice found (some (.of k limit))).map (present options)) total (some (.of k limit))

section

variable (options : FindOptions) {found : List Record} (total : Nat) {limit : Nat}

/-- Every page tells the limit. -/
theorem limit_pageOf (found : List Record) (hlimit : 1 ≤ limit) (k : Nat) :
    (pageOf options found total limit k).limit = limit :=
  Nat.max_eq_left hlimit

/-- A page shows the records between its offset and the next one. -/
theorem docs_pageOf (hfew : found.length ≤ wordMax) (hlimit : 1 ≤ limit) (i : Nat) :
    (pageOf options found total limit (i + 1)).docs =
      ((found.map (present options)).drop (i * limit)).take limit := by
  show (slice found (some (.of (i + 1) limit))).map (present options) = _
  rw [slice_of hfew i hlimit, List.map_take, List.map_drop]

/-- A page is full, or shows what is left. -/
theorem length_docs_pageOf (hfew : found.length ≤ wordMax) (hlimit : 1 ≤ limit) (i : Nat) :
    (pageOf options found total limit (i + 1)).docs.length =
      min limit (found.length - i * limit) := by
  rw [docs_pageOf options total hfew hlimit, List.length_take, List.length_drop, List.length_map]

/-- All pages tell the same number of pages. -/
theorem totalPages_pageOf (found : List Record) (hlimit : 1 ≤ limit) (k page : Nat) :
    (pageOf options found total limit k).totalPages =
      (pageOf options found total limit page).totalPages := by
  simp only [Page.totalPages, limit_pageOf options total found hlimit]
  rfl

/-- There is a page behind a page exactly if there are records behind it. -/
theorem lt_totalPages_pageOf_iff (found : List Record) (hlimit : 1 ≤ limit) {k : Nat} (hk : 1 ≤ k)
    (page : Nat) :
    k < (pageOf options found total limit page).totalPages ↔ k * limit < total := by
  have hpage := limit_pageOf options total found hlimit page
  have hpos : 0 < (pageOf options found total limit page).limit := Nat.lt_of_lt_of_eq hlimit hpage.symm
  rw [Page.lt_totalPages_iff hpos hk, hpage]
  exact Iff.rfl

/-- All pages together have room for the total. -/
theorem totalDocs_le_pageOf (found : List Record) (hlimit : 1 ≤ limit) (page : Nat) :
    total ≤ (pageOf options found total limit page).totalPages * limit := by
  apply Nat.le_of_not_lt
  intro hmore
  have hpages := Page.one_le_totalPages (pageOf options found total limit page)
  exact Nat.lt_irrefl _ ((lt_totalPages_pageOf_iff options total found hlimit hpages page).2 hmore)

end

/-- The pages of a result: `pageAt k` is what is answered for page `k`, and `last` is the number of
the last page. -/
structure Divides [PatternEngine] (s : Store) (q : Query) (options : FindOptions) (limit : Nat)
    (whole : Page Record) (pageAt : Nat → Page Record) (last : Nat) : Prop where
  answered : ∀ k, s.find q options (some (.of k limit)) = .ok (pageAt k)
  totalPages : ∀ k, (pageAt k).totalPages = last
  partition : ((List.range last).flatMap fun i => (pageAt (i + 1)).docs) = whole.docs
  first : s.findOne q options = .ok whole.docs.head?
  beyond : ∀ k, last < k → (pageAt k).docs = []
  offset : ∀ k, (Pagination.of k limit).offset? = some (Pagination.of k limit).offset
  figures : ∀ k, (pageAt k).figures? = some (pageAt k).figures
  total : options.estimatedCount = false → ∀ k, (pageAt k).totalDocs =
    ((s.recordsOf q.collection).filter (Predicate.selects q.filter)).length
  full : options.estimatedCount = false → ∀ k, 1 ≤ k → k < last → (pageAt k).docs.length = limit
  next : options.estimatedCount = false → ∀ k, 1 ≤ k →
    ((pageAt k).hasNext = true ↔ (pageAt (k + 1)).docs ≠ [])

/-- **Pages partition the result.**  If the whole result can be evaluated then so can every page of it,
whatever the configured limits and the requested one are.  The pages from the first to the last one
hold the documents of the whole result, each once and in the same order; the first of them is what a
search for one document answers; and the pages behind the last one are empty.  Nothing that is computed
for a page overflows.  Where the total is exact, it is the number of matching records, all pages before
the last one are full, and a page says that there is a next one exactly when that one holds something. -/
theorem find_divides [PatternEngine]
    {s : Store} {q : Query} {options : FindOptions} {whole : Page Record}
    (hfew : (s.recordsOf q.collection).length < 2 ^ 63)
    (hwhole : s.find q options none = .ok whole) (limits : PageLimits) (requested : Option Nat) :
    ∃ pageAt last, s.Divides q options (Pagination.of 1 (limits.clamp requested)).limit whole
      pageAt last := by
  obtain ⟨c, found, hc, hfound, rfl⟩ := exists_of_find hwhole
  have hrecords := recordsOf_of_get? (get?_of_collection? hc)
  rw [hrecords] at hfew
  have hlimit : 1 ≤ (Pagination.of 1 (limits.clamp requested)).limit := Nat.le_max_right _ _
  generalize (Pagination.of 1 (limits.clamp requested)).limit = limit at hlimit ⊢
  have hlength := length_select hfound
  have hle : found.length ≤ c.records.length := hlength ▸ List.length_filter_le _ _
  have hword : c.records.length < wordMax := Nat.lt_trans hfew (by decide)
  have hfits : found.length ≤ wordMax := by omega
  generalize htotal : (if options.estimatedCount then c.records.length else found.length) = total
  -- An estimated total may exceed the number of results, but never falls short of it.
  have hbounds : found.length ≤ total ∧ total < wordMax := by
    rw [← htotal]
    split <;> omega
  have hexactly (hexact : options.estimatedCount = false) : total = found.length := by
    rw [← htotal, hexact]
    rfl
  have hlast (k : Nat) (hk : 1 ≤ k) (page : Nat) :=
    lt_totalPages_pageOf_iff options total found hlimit hk page
  have hroom := totalDocs_le_pageOf options total found hlimit 1
  have hdocs := length_docs_pageOf options total hfits hlimit
  refine ⟨pageOf options found total limit, (pageOf options found total limit 1).totalPages, ?_⟩
  constructor
  case answered =>
    intro k
    simp [find, hc, hfound, bind, Except.bind, pageOf, htotal]
  case totalPages => exact fun k => totalPages_pageOf options total found hlimit k 1
  case partition =>
    simp only [docs_pageOf options total hfits hlimit]
    rw [flatMap_pieces, List.take_of_length_le]
    · rfl
    · rw [List.length_map]
      exact Nat.le_trans hbounds.1 hroom
  case first =>
    simp [findOne, hc, hfound, bind, Except.bind, Page.ofDocs, slice]
  case beyond =>
    intro k hk
    obtain ⟨i, rfl⟩ : ∃ i, k = i + 1 := ⟨k - 1, by omega⟩
    have hbehind := Nat.mul_le_mul_right limit (Nat.le_of_lt_succ hk)
    rw [← List.length_eq_zero_iff, hdocs]
    omega
  case offset => exact fun k => Pagination.offset?_of k limit
  case figures =>
    intro k
    have hpage := limit_pageOf options total found hlimit k
    exact Page.figures?_eq hbounds.2 (Nat.lt_of_lt_of_eq hlimit hpage.symm) (Nat.le_max_right k 1)
  case total =>
    intro hexact k
    rw [hrecords, ← hlength]
    exact hexactly hexact
  case full =>
    intro hexact k hk hlt
    obtain ⟨i, rfl⟩ : ∃ i, k = i + 1 := ⟨k - 1, by omega⟩
    have hmore := (hlast (i + 1) hk 1).1 hlt
    rw [hexactly hexact, Nat.add_mul] at hmore
    rw [hdocs]
    omega
  case next =>
    intro hexact k hk
    have hmore : (pageOf options found total limit k).hasNext = true ↔ k * limit < found.length := by
      have hpage : (pageOf options found total limit k).page = k := Nat.max_eq_left hk
      rw [Page.hasNext, hpage, decide_eq_true_iff, hlast k hk k, hexactly hexact]
    have hsome : (pageOf options found total limit (k + 1)).docs ≠ [] ↔
        0 < min limit (found.length - k * limit) := by
      rw [← List.length_pos_iff, hdocs]
    rw [hmore, hsome]
    omega

/-! Of four notes the three that are not called `b` fill two pages of two. -/

/-- A store with four notes. -/
def notes : Store :=
  ⟨[("notes", ⟨["a", "b", "c", "d"].zipIdx.map fun (id, n) => stamp id n 0 [], []⟩)], 4, 4⟩

/-- The notes other than `b`. -/
def notesBut : Query :=
  ⟨"notes", some (.compare "id" .notEquals (.str "b")), none⟩

theorem find_divides_notes :
    ∃ whole, notes.find notesBut (.sortedBy []) none = .ok whole ∧
      whole.docs.map Record.id? = [some "d", some "c", some "a"] ∧
      ∃ pageAt last, notes.Divides notesBut (.sortedBy []) 2 whole pageAt last ∧
        (pageAt 1).totalDocs = 3 := by
  have hanswer : (notes.find notesBut (.sortedBy []) none).toOption.map
      (fun whole => whole.docs.map Record.id?) = some [some "d", some "c", some "a"] := by
    decide +kernel
  obtain ⟨whole, hwhole, hids⟩ := Option.map_eq_some_iff.1 hanswer
  have hwhole := Except.eq_ok_of_toOption hwhole
  obtain ⟨pageAt, last, h⟩ := find_divides (by decide) hwhole ⟨2, 100⟩ none
  have htotal : (pageAt 1).totalDocs = 3 := h.total rfl 1 ▸ by decide +kernel
  exact ⟨whole, hwhole, hids, pageAt, last, h, htotal⟩

end Store

end HeadlessCms
