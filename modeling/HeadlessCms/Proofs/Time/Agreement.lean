import HeadlessCms.Proofs.Time.RoundTrip
import Mathlib.Data.List.Induction

/-!
# The two readers agree

Clauses compare timestamps as the strict reader understands them, while stored records are decoded by
the relaxed one.  Whatever the strict reader accepts, with any offset, any fraction and in either
letter case, the relaxed reader accepts as the same instant (`readRelaxed_of_readStrict?`).  So a
record that is chosen by its time is decoded with that time.
-/

namespace HeadlessCms.Time

open HeadlessCms.Text (isAsciiDigit isBlank trimStart)
open HeadlessCms.Decimal (digitValue ofDigits takeDigits)

/-! ### Digits -/

/-- A digit is less than ten. -/
theorem digitValue_lt {c : Char} (h : isAsciiDigit c = true) : digitValue c < 10 := by
  simp only [isAsciiDigit, Bool.and_eq_true, decide_eq_true_eq, Char.le_def, UInt32.le_iff_toNat_le]
    at h
  have hnine : '9'.val.toNat = 57 := rfl
  have hzero : '0'.toNat = 48 := rfl
  have hvalue : c.toNat = c.val.toNat := rfl
  unfold digitValue
  omega

/-- A number of digits lies below the power of ten with as many zeros. -/
theorem ofDigits_lt {digits : List Nat} (h : ∀ d ∈ digits, d < 10) :
    ofDigits digits < 10 ^ digits.length := by
  induction digits using List.reverseRecOn with
  | nil => decide
  | append_singleton front last ih =>
    have hfront := ih fun d hd => h d (List.mem_append_left _ hd)
    have hlast := h last (by simp)
    have hstep : ofDigits (front ++ [last]) = ofDigits front * 10 + last := by
      simp [ofDigits, List.foldl_append]
    rw [hstep, List.length_append, List.length_singleton, Nat.pow_succ]
    omega

/-- What a field of fixed width holds. -/
theorem fixedDigits?_eq_some {n value : Nat} {s rest : List Char}
    (h : fixedDigits? n s = some (value, rest)) :
    ∃ digits, s = digits ++ rest ∧ digits.length = n ∧ (∀ c ∈ digits, isAsciiDigit c = true) ∧
      ofDigits (digits.map digitValue) = value := by
  unfold fixedDigits? at h
  dsimp only at h
  split at h
  · next hdigits =>
    cases h
    exact ⟨s.take n, (List.take_append_drop n s).symm, hdigits.1, List.all_eq_true.1 hdigits.2, rfl⟩
  · cases h

/-- What is read as digits of a fixed width lies below the power of ten with as many zeros. -/
theorem lt_of_fixedDigits? {n value : Nat} {s rest : List Char}
    (h : fixedDigits? n s = some (value, rest)) : value < 10 ^ n := by
  obtain ⟨digits, _, hlength, hall, rfl⟩ := fixedDigits?_eq_some h
  rw [← hlength, ← List.length_map digitValue]
  apply ofDigits_lt
  intro d hd
  obtain ⟨c, hc, rfl⟩ := List.mem_map.1 hd
  exact digitValue_lt (hall c hc)

/-- A field of fixed width starts with a digit. -/
theorem exists_cons_of_fixedDigits? {n value : Nat} (hn : 0 < n) {s rest : List Char}
    (h : fixedDigits? n s = some (value, rest)) :
    ∃ c more, s = c :: more ∧ isAsciiDigit c = true := by
  obtain ⟨digits, rfl, hlength, hall, _⟩ := fixedDigits?_eq_some h
  cases digits with
  | nil =>
    rw [List.length_nil] at hlength
    omega
  | cons c cs => exact ⟨c, cs ++ rest, rfl, hall c List.mem_cons_self⟩

/-- What is not blank in front stays. -/
theorem trimStart_cons {c : Char} (h : isBlank c = false) (rest : List Char) :
    trimStart (c :: rest) = c :: rest := by
  simp [trimStart, h]

/-- Nothing is blank in front of digits. -/
theorem trimStart_of_fixedDigits? {n value : Nat} (hn : 0 < n) {s rest : List Char}
    (h : fixedDigits? n s = some (value, rest)) : trimStart s = s := by
  obtain ⟨c, more, rfl, hc⟩ := exists_cons_of_fixedDigits? hn h
  exact trimStart_cons (isBlank_eq_false_of_digit hc) more

/-- A field of fixed width is read as that by the relaxed reader, even if more digits follow. -/
theorem scanDigits_of_fixedDigits? {n value : Nat} (hn : 0 < n) {s rest : List Char}
    (h : fixedDigits? n s = some (value, rest)) : scanDigits (some n) s = .ok (value, rest) := by
  obtain ⟨digits, rfl, hlength, hall, hvalue⟩ := fixedDigits?_eq_some h
  have hrun : ((digits ++ rest).takeWhile isAsciiDigit).take n = digits := by
    rw [List.takeWhile_append_of_pos hall, ← hlength,
      List.take_append_of_le_length (Nat.le_refl _), List.take_length]
  have hdrop : (digits ++ rest).drop digits.length = rest := by
    rw [List.drop_append_of_le_length (Nat.le_refl _), List.drop_length, List.nil_append]
  cases digits with
  | nil =>
    rw [List.length_nil] at hlength
    omega
  | cons c cs =>
    simp only [scanDigits, hrun]
    simp only [List.cons_append, hvalue]
    exact congrArg (fun r => Except.ok (value, r)) hdrop

/-! ### The parts of a timestamp -/

/-- Two digits within the bounds are read by both readers. -/
theorem scanPart_of_fixedDigits? {low high value : Nat} {s rest : List Char}
    (h : fixedDigits? 2 s = some (value, rest)) (hlow : low ≤ value) (hhigh : value ≤ high) :
    scanPart low high s = .ok (value, rest) := by
  have htwo : 0 < 2 := by decide
  simp only [scanPart, trimStart_of_fixedDigits? htwo h, scanDigits_of_fixedDigits? htwo h, bind,
    Except.bind, hlow, hhigh, and_self, if_true]

/-- A year of four digits is read by both readers. -/
theorem scanYear_of_fixedDigits? {value : Nat} {s rest : List Char}
    (h : fixedDigits? 4 s = some (value, rest)) : scanYear s = .ok ((value : Int), rest) := by
  have hfour : 0 < 4 := by decide
  have hscan := scanDigits_of_fixedDigits? hfour h
  have htrim := trimStart_of_fixedDigits? hfour h
  obtain ⟨c, more, rfl, hc⟩ := exists_cons_of_fixedDigits? hfour h
  -- A year without sign: the text starts with a digit.
  have hminus : c ≠ '-' := by
    intro heq
    rw [heq] at hc
    exact absurd hc (by decide)
  have hplus : c ≠ '+' := by
    intro heq
    rw [heq] at hc
    exact absurd hc (by decide)
  rw [scanYear, htrim]
  split
  · next heq => exact absurd (List.cons.inj heq).1 hminus
  · next heq => exact absurd (List.cons.inj heq).1 hplus
  · simp only [hscan, bind, Except.bind]

/-- The character that is expected stands in front. -/
theorem expect?_eq_some {c : Char} {s rest : List Char} (h : expect? c s = some rest) :
    s = c :: rest := by
  cases s with
  | nil => cases h
  | cons d more =>
    simp only [expect?] at h
    split at h
    · next heq =>
      cases h
      rw [heq]
    · cases h

/-- A mark is read by both readers. -/
theorem scanMark_of_expect? {c : Char} (hc : isBlank c = false) {s rest : List Char}
    (h : expect? c s = some rest) : scanMark c s = .ok rest := by
  rw [expect?_eq_some h]
  simp [scanMark, trimStart_cons hc]

/-- A fraction is read by both readers. -/
theorem scanFraction_of_fraction? {s rest : List Char} {nano : Nat}
    (h : fraction? s = some (nano, rest)) : scanFraction s = .ok (nano, rest) := by
  unfold fraction? at h
  split at h
  · next more =>
    cases hdigits : takeDigits more with
    | mk digits tail =>
      rw [hdigits] at h
      cases digits with
      | nil => cases h
      | cons d ds =>
        cases h
        -- The scan of the digits succeeds, for there is one after the point.
        have hrun : more.takeWhile isAsciiDigit ≠ [] := by
          intro hnone
          rw [takeDigits, hnone] at hdigits
          cases hdigits
        have hscan : ∃ found, scanDigits none more = .ok found := by
          obtain ⟨r, rs, hrun⟩ := List.exists_cons_of_ne_nil hrun
          cases more with
          | nil => cases hrun
          | cons c cs =>
            simp only [scanDigits, hrun]
            exact ⟨_, rfl⟩
        obtain ⟨found, hfound⟩ := hscan
        simp only [scanFraction, hfound, hdigits, bind, Except.bind]
  · next hpoint =>
    cases h
    cases s with
    | nil => rfl
    | cons c cs =>
      unfold scanFraction
      split
      · next heq => exact absurd heq (hpoint _)
      · rfl

/-- Two digits of an offset are read by both readers. -/
theorem scanPair_of_fixedDigits? {value : Nat} {s rest : List Char}
    (h : fixedDigits? 2 s = some (value, rest)) : scanPair s = .ok (value, rest) := by
  obtain ⟨digits, rfl, hlength, hall, hvalue⟩ := fixedDigits?_eq_some h
  match digits, hlength with
  | [a, b], _ =>
    have ha : isAsciiDigit a = true := hall a (by simp)
    have hb : isAsciiDigit b = true := hall b (by simp)
    have hpair : digitValue a * 10 + digitValue b = value := by
      rw [← hvalue]
      simp [ofDigits]
    simp only [List.cons_append, List.nil_append, scanPair, ha, hb, and_self, if_true, hpair]

/-- The sign of an offset is a plus, a minus or a hyphen. -/
theorem offsetSign?_eq_some {s rest : List Char} {sign : Int}
    (h : offsetSign? s = some (sign, rest)) :
    (sign = 1 ∨ sign = -1) ∧ ∃ c, s = c :: rest ∧ (c = '+' ∨ c = '-' ∨ c = '−') := by
  cases s with
  | nil => cases h
  | cons c more =>
    simp only [offsetSign?] at h
    split at h
    · next hplus =>
      cases h
      exact ⟨Or.inl rfl, c, rfl, Or.inl hplus⟩
    · split at h
      · next hminus =>
        cases h
        exact ⟨Or.inr rfl, c, rfl, Or.inr hminus⟩
      · cases h

/-- The relaxed reader skips the colon of an offset, and no more than that. -/
theorem dropWhile_of_expect? {value : Nat} {s rest rest' : List Char}
    (h : expect? ':' s = some rest) (hdigits : fixedDigits? 2 rest = some (value, rest')) :
    s.dropWhile (fun c => c == ':' || isBlank c) = rest := by
  obtain ⟨d, more, rfl, hd⟩ := exists_cons_of_fixedDigits? (by decide) hdigits
  have hcolon : d ≠ ':' := by
    intro heq
    rw [heq] at hd
    exact absurd hd (by decide)
  have hnext : (d == ':' || isBlank d) = false := by
    rw [isBlank_eq_false_of_digit hd, Bool.or_false, beq_eq_false_iff_ne]
    exact hcolon
  rw [expect?_eq_some h]
  simp [hnext]

/-- **An offset of fixed form** is read alike, and it is less than a day. -/
theorem scanOffset_of_strictOffset? {s : List Char} {offset : Int}
    (h : strictOffset? s = some offset) :
    scanOffset (trimStart s) = .ok (offset, []) ∧ -86400 < offset ∧ offset < 86400 := by
  unfold strictOffset? at h
  split at h
  · next hutc =>
    cases h
    apply And.intro ?_ (by decide)
    cases hutc with
    | inl hupper => rw [hupper]; rfl
    | inr hlower => rw [hlower]; rfl
  · obtain ⟨⟨sign, s1⟩, hsign, h⟩ := Option.bind_eq_some_iff.1 h
    obtain ⟨⟨hours, s2⟩, hhours, h⟩ := Option.bind_eq_some_iff.1 h
    obtain ⟨s3, hcolon, h⟩ := Option.bind_eq_some_iff.1 h
    obtain ⟨⟨minutes, s4⟩, hminutes, h⟩ := Option.bind_eq_some_iff.1 h
    dsimp only at hhours hcolon hminutes h
    split at h
    · next hbounds =>
      cases h
      obtain ⟨hend, hhour, hminute⟩ := hbounds
      rw [List.isEmpty_iff.1 hend] at hminutes
      obtain ⟨hunit, c, rfl, hc⟩ := offsetSign?_eq_some hsign
      have hletters : isBlank c = false ∧ c.toUpper ≠ 'U' ∧ ¬ (c = 'Z' ∨ c = 'z') := by
        rcases hc with rfl | rfl | rfl <;> decide
      have hutc : ((c :: s1).take 3).map Char.toUpper ≠ ['U', 'T', 'C'] := by
        intro heq
        rw [List.take_succ_cons, List.map_cons] at heq
        exact hletters.2.1 (List.cons.inj heq).1
      constructor
      · rw [trimStart_cons hletters.1, scanOffset, if_neg hutc]
        dsimp only
        rw [if_neg hletters.2.2, hsign]
        simp only [scanPair_of_fixedDigits? hhours, dropWhile_of_expect? hcolon hminutes,
          scanPair_of_fixedDigits? hminutes, bind, Except.bind, hminute, if_true]
      · cases hunit with
        | inl hplus => rw [hplus]; omega
        | inr hminus => rw [hminus]; omega
    · cases h

/-! ### Storable dates -/

/-- Before a month there lie at most 31 days for each month. -/
theorem daysBeforeMonth_le (year : Int) {month : Nat} (h : 1 ≤ month) :
    daysBeforeMonth year month ≤ 31 * month := by
  induction month with
  | zero => cases h
  | succ month ih =>
    by_cases hfirst : month = 0
    · rw [hfirst, daysBeforeMonth_one]
      omega
    · have hmonth : 1 ≤ month := by omega
      have hbefore := ih hmonth
      have hlast := daysInMonth_le year month
      rw [daysBeforeMonth_succ year hmonth]
      omega

/-- Months and days of a valid date are in the calendar. -/
theorem Date.bounds_of_isValid {d : Date} (h : d.isValid = true) :
    1 ≤ d.month ∧ d.month ≤ 12 ∧ 1 ≤ d.day ∧ d.day ≤ 31 := by
  simp only [isValid, Bool.and_eq_true, decide_eq_true_eq] at h
  have hlast := daysInMonth_le d.year d.month
  have hmonth : 1 ≤ d.month ∧ d.month ≤ 12 := by
    by_contra hno
    have hnone : daysInMonth d.year d.month = 0 := by
      unfold daysInMonth
      split <;> first | rfl | omega
    omega
  omega

/-- The instants of a date with a year of four digits can be stored, in whatever offset the date is
given. -/
theorem storableYear_of_ofClock {date : Date} (hvalid : date.isValid = true) (hlow : 0 ≤ date.year)
    (hhigh : date.year ≤ 9999) {hour minute second nano : Nat} {offset : Int} (hhour : hour < 24)
    (hminute : minute < 60) (hsecond : second ≤ 60) (hearly : -86400 < offset)
    (hlate : offset < 86400) :
    StorableYear (Instant.ofClock date hour minute second nano offset).date.year := by
  obtain ⟨hmonth, hmonth', hday, hday'⟩ := Date.bounds_of_isValid hvalid
  have hdays := daysBeforeMonth_le date.year hmonth
  have hnumber : -719529 ≤ date.dayNumber ∧ date.dayNumber ≤ 3000000 := by
    unfold Date.dayNumber daysBeforeYear epochOffset
    omega
  have hinstant : -719531 ≤ (Instant.ofClock date hour minute second nano offset).second / 86400 ∧
      (Instant.ofClock date hour minute second nano offset).second / 86400 ≤ 3000002 := by
    unfold Instant.ofClock
    dsimp only
    split <;> omega
  have hyear := daysBeforeYear_yearOfDay
    ((Instant.ofClock date hour minute second nano offset).second / 86400 + epochOffset)
  unfold StorableYear leastYear greatestYear Instant.date Date.ofDayNumber
  dsimp only
  unfold daysBeforeYear epochOffset at hyear
  unfold epochOffset
  omega

/-! ### Agreement -/

/-- **What the strict reader accepts, the relaxed reader reads as the same instant.** -/
theorem readRelaxed_of_readStrict? {s : String} {t : Instant} (h : readStrict? s = some t) :
    readRelaxed s = .ok t := by
  unfold readStrict? readStrictChars? at h
  obtain ⟨⟨year, s1⟩, hyear, h⟩ := Option.bind_eq_some_iff.1 h
  obtain ⟨s2, hdash, h⟩ := Option.bind_eq_some_iff.1 h
  obtain ⟨⟨month, s3⟩, hmonth, h⟩ := Option.bind_eq_some_iff.1 h
  obtain ⟨s4, hdash', h⟩ := Option.bind_eq_some_iff.1 h
  obtain ⟨⟨day, s5⟩, hday, h⟩ := Option.bind_eq_some_iff.1 h
  obtain ⟨s6, hmark, h⟩ := Option.bind_eq_some_iff.1 h
  obtain ⟨⟨hour, s7⟩, hhour, h⟩ := Option.bind_eq_some_iff.1 h
  obtain ⟨s8, hcolon, h⟩ := Option.bind_eq_some_iff.1 h
  obtain ⟨⟨minute, s9⟩, hminute, h⟩ := Option.bind_eq_some_iff.1 h
  obtain ⟨s10, hcolon', h⟩ := Option.bind_eq_some_iff.1 h
  obtain ⟨⟨second, s11⟩, hsecond, h⟩ := Option.bind_eq_some_iff.1 h
  obtain ⟨⟨nano, s12⟩, hnano, h⟩ := Option.bind_eq_some_iff.1 h
  obtain ⟨offset, hoffset, h⟩ := Option.bind_eq_some_iff.1 h
  dsimp only at hdash hmonth hdash' hday hmark hhour hcolon hminute hcolon' hsecond hnano hoffset h
  split at h
  · next hbounds =>
    cases h
    obtain ⟨hvalid, hhour', hminute', hsecond'⟩ := hbounds
    obtain ⟨hm, hm', hd, hd'⟩ := Date.bounds_of_isValid hvalid
    obtain ⟨hzone, hearly, hlate⟩ := scanOffset_of_strictOffset? hoffset
    have hfour := lt_of_fixedDigits? hyear
    have hstart : ∃ c more, s5 = c :: more := by
      cases s5 with
      | nil => cases hmark
      | cons c more => exact ⟨c, more, rfl⟩
    obtain ⟨c, more, rfl⟩ := hstart
    have hrange : ¬ ((year : Int) < -2147483648 ∨ 2147483648 ≤ (year : Int)) := by omega
    have hyearLe : (year : Int) ≤ 9999 := by omega
    have hstored :
        StorableYear (Instant.ofClock ⟨year, month, day⟩ hour minute second nano offset).date.year :=
      storableYear_of_ofClock hvalid (Int.natCast_nonneg year) hyearLe hhour' hminute' hsecond'
        hearly hlate
    have hyear' : StorableYear (year : Int) := by
      unfold StorableYear leastYear greatestYear
      omega
    have hend : trimStart [] = [] := rfl
    rw [readRelaxed, readRelaxedChars, scanYear_of_fixedDigits? hyear]
    simp only [bind, Except.bind, pure, Except.pure, hrange, if_false,
      scanMark_of_expect? (c := '-') rfl hdash, scanPart_of_fixedDigits? hmonth hm hm',
      scanMark_of_expect? (c := '-') rfl hdash', scanPart_of_fixedDigits? hday hd hd', hmark,
      scanPart_of_fixedDigits? hhour (Nat.zero_le _) (by omega : hour ≤ 23),
      scanMark_of_expect? (c := ':') rfl hcolon,
      scanPart_of_fixedDigits? hminute (Nat.zero_le _) (by omega : minute ≤ 59),
      scanMark_of_expect? (c := ':') rfl hcolon',
      scanPart_of_fixedDigits? hsecond (Nat.zero_le _) hsecond', scanFraction_of_fraction? hnano,
      hzone, hend, List.isEmpty_nil, Bool.not_true, Bool.false_eq_true]
    exact if_pos ⟨hvalid, hearly, hlate, hyear', hstored⟩
  · cases h

end HeadlessCms.Time
