import HeadlessCms.Text.Identifier

/-!
# Names that are identifiers

`Text.IsIdentifier` is the grammar `[_A-Za-z][_0-9A-Za-z]*`.  What `Text.identifier` makes of a text is
never empty and consists of the characters of identifiers (`identifier_ne_empty`,
`continues_of_mem_identifier`).  But only the first character of the text is looked at to guard against a
digit in front: a digit behind characters that disappear comes to the front unguarded
(`Text.HidesDigit`).  Exactly then the result is no identifier (`isIdentifier_identifier_iff`), and
exactly then a second pass changes it (`identifier_identifier_iff`).
-/

namespace HeadlessCms.Text

/-- A character that an identifier may start with. -/
def startsIdentifier (c : Char) : Bool :=
  c == '_' || ('A' ≤ c && c ≤ 'Z') || ('a' ≤ c && c ≤ 'z')

/-- A character that an identifier may go on with. -/
def continuesIdentifier (c : Char) : Bool :=
  startsIdentifier c || ('0' ≤ c && c ≤ '9')

/-- An identifier: a letter or an underscore, then letters, digits and underscores. -/
def IsIdentifier (name : String) : Prop :=
  ∃ c rest, name.toList = c :: rest ∧ startsIdentifier c = true ∧
    ∀ d ∈ rest, continuesIdentifier d = true

/-- The first character that does not disappear is a digit, but it is not the first of the text. -/
def HidesDigit (raw : String) : Prop :=
  ∃ gone d rest, raw.toList = gone ++ d :: rest ∧ gone ≠ [] ∧ (∀ c ∈ gone, identifierPart c = []) ∧
    isAsciiDigit d = true

instance (name : String) : Decidable (IsIdentifier name) :=
  decidable_of_iff (name.toList.head?.any startsIdentifier = true ∧
      name.toList.tail.all continuesIdentifier = true) <| by
    unfold IsIdentifier
    cases name.toList <;> simp [and_assoc]

/-! ### Characters -/

/-- An identifier goes on with letters, digits and underscores. -/
theorem continuesIdentifier_eq (c : Char) :
    continuesIdentifier c = (isAsciiAlphanumeric c || c == '_') := by
  unfold continuesIdentifier startsIdentifier isAsciiAlphanumeric isAsciiDigit
  cases (c == '_') <;> cases ('A' ≤ c && c ≤ 'Z' : Bool) <;> cases ('a' ≤ c && c ≤ 'z' : Bool) <;>
    cases ('0' ≤ c && c ≤ '9' : Bool) <;> rfl

/-- Letters and the underscore come after the digits. -/
theorem isAsciiDigit_of_starts {c : Char} (h : startsIdentifier c = true) : isAsciiDigit c = false := by
  rw [Bool.eq_false_iff]
  intro hdigit
  simp only [startsIdentifier, isAsciiDigit, Bool.or_eq_true, Bool.and_eq_true, beq_iff_eq,
    decide_eq_true_eq] at h hdigit
  rcases h with (rfl | ⟨hlow, -⟩) | ⟨hlow, -⟩
  · exact absurd hdigit.2 (by decide)
  · exact absurd (Char.le_trans hlow hdigit.2) (by decide)
  · exact absurd (Char.le_trans hlow hdigit.2) (by decide)

/-- A character that continues an identifier also starts one, unless it is a digit. -/
theorem startsIdentifier_iff (c : Char) :
    startsIdentifier c = true ↔ continuesIdentifier c = true ∧ isAsciiDigit c = false := by
  constructor
  · exact fun h => ⟨by rw [continuesIdentifier, h, Bool.true_or], isAsciiDigit_of_starts h⟩
  · rintro ⟨hcontinues, hnot⟩
    rwa [continuesIdentifier, show ('0' ≤ c && c ≤ '9') = false from hnot, Bool.or_false] at hcontinues

/-- A character that may go on an identifier stays. -/
theorem identifierPart_of_continues {c : Char} (h : continuesIdentifier c = true) :
    identifierPart c = [c] := by
  have hpunctuation : leavesUnderscore c = false := by
    rw [Bool.eq_false_iff]
    intro hleaves
    simp only [leavesUnderscore, Bool.or_eq_true, beq_iff_eq] at hleaves
    rcases hleaves with ((((((rfl | rfl) | rfl) | rfl) | rfl) | rfl) | rfl) | rfl <;> cases h
  rw [continuesIdentifier_eq] at h
  rw [identifierPart, hpunctuation, if_neg Bool.false_ne_true, if_pos h]

/-- What a character is replaced by may go on an identifier. -/
theorem continues_of_mem_identifierPart {c d : Char} (h : d ∈ identifierPart c) :
    continuesIdentifier d = true := by
  unfold identifierPart at h
  split at h
  · rw [List.mem_singleton.1 h]
    rfl
  · split at h
    · next hkept => rw [List.mem_singleton.1 h, continuesIdentifier_eq, hkept]
    · cases h

/-! ### Identifiers of texts -/

/-- An identifier is not empty. -/
theorem identifierChars_ne_nil (raw : List Char) : identifierChars raw ≠ [] := by
  unfold identifierChars
  dsimp only
  split
  · exact List.cons_ne_nil _ _
  · next hne => exact hne

/-- A text of which something remains, if it does not start with a digit. -/
theorem identifierChars_eq_of_flatMap {raw kept : List Char} {d : Char}
    (hraw : ∀ c rest, raw = c :: rest → isAsciiDigit c = false)
    (hkept : raw.flatMap identifierPart = d :: kept) : identifierChars raw = d :: kept := by
  cases raw with
  | nil => cases hkept
  | cons c rest =>
    unfold identifierChars
    simp only [hraw c rest rfl, Bool.false_eq_true, if_false, hkept, List.nil_append]

/-- A text that starts with a digit. -/
theorem identifierChars_of_digit {c : Char} {rest : List Char} (hc : isAsciiDigit c = true) :
    identifierChars (c :: rest) = '_' :: (c :: rest).flatMap identifierPart := by
  unfold identifierChars
  simp only [hc, if_true, List.singleton_append]

/-- An underscore is put in front or taken for a text of which nothing remains, or what remains is left
as it is. -/
theorem identifierChars_cases (raw : List Char) :
    (∃ kept, identifierChars raw = '_' :: kept ∧ (kept = [] ∨ kept = raw.flatMap identifierPart)) ∨
      (∀ c rest, raw = c :: rest → isAsciiDigit c = false) ∧
        identifierChars raw = raw.flatMap identifierPart := by
  cases raw with
  | nil => exact .inl ⟨[], rfl, .inl rfl⟩
  | cons c rest =>
    by_cases hc : isAsciiDigit c = true
    · exact .inl ⟨_, identifierChars_of_digit hc, .inr rfl⟩
    · have hfirst : ∀ d tail, c :: rest = d :: tail → isAsciiDigit d = false := by
        rintro d tail heq
        rw [← (List.cons.inj heq).1, Bool.eq_false_iff]
        exact hc
      cases hkept : (c :: rest).flatMap identifierPart with
      | nil =>
        refine .inl ⟨[], ?_, .inl rfl⟩
        unfold identifierChars
        simp only [hc, hkept, List.append_nil, Bool.false_eq_true, if_false]
      | cons d kept => exact .inr ⟨hfirst, identifierChars_eq_of_flatMap hfirst hkept⟩

/-- All of its characters may go on an identifier. -/
theorem continues_of_mem_identifierChars {raw : List Char} {d : Char} (h : d ∈ identifierChars raw) :
    continuesIdentifier d = true := by
  have hkept (hd : d ∈ raw.flatMap identifierPart) : continuesIdentifier d = true := by
    obtain ⟨_, -, hpart⟩ := List.mem_flatMap.1 hd
    exact continues_of_mem_identifierPart hpart
  obtain ⟨kept, hchars, hwhich⟩ | ⟨-, hchars⟩ := identifierChars_cases raw
  · rw [hchars] at h
    rcases List.mem_cons.1 h with rfl | hd
    · rfl
    · rcases hwhich with rfl | rfl
      · cases hd
      · exact hkept hd
  · exact hkept (hchars ▸ h)

/-- Digits may go on an identifier. -/
theorem continues_of_digit {c : Char} (h : isAsciiDigit c = true) : continuesIdentifier c = true := by
  rw [continuesIdentifier, show ('0' ≤ c && c ≤ '9') = true from h, Bool.or_true]

/-- Digits stay. -/
theorem identifierPart_of_digit {c : Char} (h : isAsciiDigit c = true) : identifierPart c = [c] :=
  identifierPart_of_continues (continues_of_digit h)

/-- Punctuation turns into no digit. -/
theorem eq_of_digit_of_identifierPart {c d : Char} {more : List Char} (hd : isAsciiDigit d = true)
    (h : identifierPart c = d :: more) : c = d := by
  unfold identifierPart at h
  split at h
  · cases h
    cases hd
  · split at h
    · exact (List.cons.inj h).1
    · cases h

/-- A digit at the front of what remains stood behind characters that have disappeared. -/
theorem exists_gone_of_flatMap {d : Char} (hd : isAsciiDigit d = true) {raw kept : List Char}
    (h : raw.flatMap identifierPart = d :: kept) :
    ∃ gone rest, raw = gone ++ d :: rest ∧ ∀ c ∈ gone, identifierPart c = [] := by
  induction raw with
  | nil => cases h
  | cons c tail ih =>
    rw [List.flatMap_cons] at h
    cases hpart : identifierPart c with
    | nil =>
      rw [hpart, List.nil_append] at h
      obtain ⟨gone, rest, rfl, hgone⟩ := ih h
      exact ⟨c :: gone, rest, rfl, List.forall_mem_cons.2 ⟨hpart, hgone⟩⟩
    | cons e more =>
      rw [hpart, List.cons_append] at h
      obtain rfl := (List.cons.inj h).1
      exact ⟨[], tail, by rw [eq_of_digit_of_identifierPart hd hpart, List.nil_append],
        fun c hc => nomatch hc⟩

/-- **A digit is in front exactly if the text hides one.** -/
theorem exists_digit_iff (raw : String) :
    (∃ d kept, identifierChars raw.toList = d :: kept ∧ isAsciiDigit d = true) ↔ HidesDigit raw := by
  constructor
  · rintro ⟨d, kept, hchars, hd⟩
    obtain ⟨more, hunderscore, -⟩ | ⟨hfirst, hkept⟩ := identifierChars_cases raw.toList
    · rw [(List.cons.inj (hunderscore.symm.trans hchars)).1.symm] at hd
      cases hd
    · obtain ⟨gone, rest, hraw, hgone⟩ := exists_gone_of_flatMap hd (hkept.symm.trans hchars)
      refine ⟨gone, d, rest, hraw, ?_, hgone, hd⟩
      rintro rfl
      exact Bool.false_ne_true ((hfirst d rest hraw).symm.trans hd)
  · rintro ⟨gone, d, rest, hraw, hne, hgone, hd⟩
    refine ⟨d, rest.flatMap identifierPart, ?_, hd⟩
    apply identifierChars_eq_of_flatMap
    · rintro c tail hcons
      obtain ⟨g, more, rfl⟩ := List.exists_cons_of_ne_nil hne
      have hcg : g = c := (List.cons.inj (hraw.symm.trans hcons)).1
      rw [Bool.eq_false_iff]
      intro hc
      have hpart := hgone g List.mem_cons_self
      rw [hcg, identifierPart_of_digit hc] at hpart
      cases hpart
    · rw [hraw, List.flatMap_append, List.flatMap_eq_nil_iff.2 hgone, List.flatMap_cons,
        identifierPart_of_digit hd]
      rfl

instance (raw : String) : Decidable (HidesDigit raw) :=
  decidable_of_iff ((identifierChars raw.toList).head?.any isAsciiDigit = true) <| by
    rw [← exists_digit_iff]
    cases identifierChars raw.toList <;> simp

/-! ### Identifiers -/

/-- The characters of an identifier are made from those of the text. -/
theorem toList_identifier (raw : String) : (identifier raw).toList = identifierChars raw.toList :=
  String.toList_ofList

/-- An identifier has a first character. -/
theorem exists_cons_identifier (raw : String) : ∃ d kept, (identifier raw).toList = d :: kept := by
  rw [toList_identifier]
  exact List.exists_cons_of_ne_nil (identifierChars_ne_nil raw.toList)

/-- All of its characters may go on an identifier. -/
theorem continues_of_mem_identifier {raw : String} {d : Char} (h : d ∈ (identifier raw).toList) :
    continuesIdentifier d = true := by
  rw [toList_identifier] at h
  exact continues_of_mem_identifierChars h

/-- **The result is an identifier, unless the text hides a digit.** -/
theorem isIdentifier_identifier_iff (raw : String) :
    IsIdentifier (identifier raw) ↔ ¬ HidesDigit raw := by
  rw [← exists_digit_iff, ← toList_identifier]
  obtain ⟨d, kept, hchars⟩ := exists_cons_identifier raw
  have hcontinues {c : Char} (hc : c ∈ d :: kept) : continuesIdentifier c = true :=
    continues_of_mem_identifier (hchars ▸ hc)
  constructor
  · rintro ⟨c, rest, hname, hc, -⟩ ⟨e, more, hdigit, he⟩
    rw [(List.cons.inj (hname.symm.trans hdigit)).1] at hc
    exact Bool.false_ne_true ((isAsciiDigit_of_starts hc).symm.trans he)
  · intro hnone
    refine ⟨d, kept, hchars, ?_, fun c hc => hcontinues (List.mem_cons_of_mem d hc)⟩
    rw [startsIdentifier_iff, Bool.eq_false_iff]
    exact ⟨hcontinues List.mem_cons_self, fun hd => hnone ⟨d, kept, hchars, hd⟩⟩

/-- Characters that may go on an identifier stay as they are. -/
theorem flatMap_identifierPart_of_continues {s : List Char}
    (h : ∀ c ∈ s, continuesIdentifier c = true) : s.flatMap identifierPart = s := by
  induction s with
  | nil => rfl
  | cons c rest ih =>
    obtain ⟨hc, hrest⟩ := List.forall_mem_cons.1 h
    rw [List.flatMap_cons, identifierPart_of_continues hc, ih hrest]
    rfl

/-- **A second pass changes nothing, unless the text hides a digit.** -/
theorem identifier_identifier_iff (raw : String) :
    identifier (identifier raw) = identifier raw ↔ ¬ HidesDigit raw := by
  obtain ⟨d, kept, hchars⟩ := exists_cons_identifier raw
  have hkept : (d :: kept).flatMap identifierPart = d :: kept :=
    flatMap_identifierPart_of_continues fun c hc => continues_of_mem_identifier (hchars ▸ hc)
  rw [← String.toList_inj, toList_identifier (identifier raw), hchars, ← exists_digit_iff,
    ← toList_identifier, hchars]
  by_cases hd : isAsciiDigit d = true
  · refine iff_of_false ?_ fun hnone => hnone ⟨d, kept, rfl, hd⟩
    rw [identifierChars_of_digit hd, hkept]
    exact fun h => List.cons_ne_self _ _ h
  · refine iff_of_true (identifierChars_eq_of_flatMap ?_ hkept) ?_
    · rintro c rest hcons
      rw [← (List.cons.inj hcons).1, Bool.eq_false_iff]
      exact hd
    · rintro ⟨c, rest, hcons, hc⟩
      exact hd ((List.cons.inj hcons).1 ▸ hc)

/-! ### Names made of identifiers -/

/-- What is put behind a name decides nothing about its first character. -/
theorem isIdentifier_append_iff {name ending : String} (hname : name ≠ "")
    (hending : ∀ c ∈ ending.toList, continuesIdentifier c = true) :
    IsIdentifier (name ++ ending) ↔ IsIdentifier name := by
  obtain ⟨d, kept, hchars⟩ := List.exists_cons_of_ne_nil (mt String.toList_eq_nil_iff.1 hname)
  unfold IsIdentifier
  simp only [String.toList_append, hchars, List.cons_append, List.cons.injEq]
  constructor
  · rintro ⟨c, _, ⟨rfl, rfl⟩, hc, hrest⟩
    exact ⟨_, _, ⟨rfl, rfl⟩, hc, fun e he => hrest e (List.mem_append_left _ he)⟩
  · rintro ⟨c, _, ⟨rfl, rfl⟩, hc, hrest⟩
    exact ⟨_, _, ⟨rfl, rfl⟩, hc, fun e he => (List.mem_append.1 he).elim (hrest e) (hending e)⟩

/-- No text is made into an empty identifier. -/
theorem identifier_ne_empty (raw : String) : identifier raw ≠ "" := by
  rw [ne_eq, ← String.toList_eq_nil_iff, toList_identifier]
  exact identifierChars_ne_nil raw.toList

/-- An underscore does not disappear and is no digit, so only the text before it may hide a digit. -/
theorem hidesDigit_append_underscore_iff (parent rest : String) :
    HidesDigit (parent ++ "_" ++ rest) ↔ HidesDigit parent := by
  have hchars : (parent ++ "_" ++ rest).toList = parent.toList ++ '_' :: rest.toList := by
    simp
  constructor
  · rintro ⟨gone, d, more, hraw, hne, hgone, hd⟩
    rw [hchars] at hraw
    have hunderscore : d ≠ '_' := by
      rintro rfl
      cases hd
    obtain ⟨between, rfl, hbetween⟩ | ⟨between, hparent, hbetween⟩ := List.append_eq_append_iff.1 hraw
    · cases between with
      | nil => exact absurd (List.cons.inj hbetween).1.symm hunderscore
      | cons c tail =>
        obtain rfl := (List.cons.inj hbetween).1
        cases hgone '_' (List.mem_append_right _ List.mem_cons_self)
    · cases between with
      | nil => exact absurd (List.cons.inj hbetween).1 hunderscore
      | cons c tail =>
        obtain rfl := (List.cons.inj hbetween).1
        exact ⟨gone, d, tail, hparent, hne, hgone, hd⟩
  · rintro ⟨gone, d, more, hraw, hne, hgone, hd⟩
    refine ⟨gone, d, more ++ '_' :: rest.toList, ?_, hne, hgone, hd⟩
    rw [hchars, hraw, List.append_assoc, List.cons_append]

end HeadlessCms.Text
