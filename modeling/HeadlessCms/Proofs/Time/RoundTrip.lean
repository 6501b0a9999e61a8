import HeadlessCms.Proofs.Time.Calendar
import HeadlessCms.Time.Relaxed
import Mathlib.Algebra.Group.Nat.Defs

/-!
# Timestamps are read back

A timestamp is printed in UTC with as few digits as possible.  Both readers get the instant back:
the strict one that comparisons use (`readStrict?_write`) and the relaxed one that decodes stored
records (`readRelaxed_write`).  They do so for the instants that clocks show, in years of four
digits (`Instant.Printable`).  All other years are printed with a sign, which the strict reader refuses
(`readStrict?_write_eq_none`).
-/

namespace HeadlessCms.Time

open HeadlessCms.Text (isAsciiDigit isBlank trimStart)
open HeadlessCms.Decimal (digitsOf digitValue ofDigits takeDigits)

namespace Instant

/-- A second has `10 ^ 9` nanoseconds; only the last second of a minute may be followed by a leap
second, which holds as many again. -/
def Regular (t : Instant) : Prop :=
  t.nano < nanosPerSecond ∨ (t.second % 60 = 59 ∧ t.nano < 2 * nanosPerSecond)

/-- The year lies between 0 and 9999. -/
def FourDigitYear (t : Instant) : Prop :=
  0 ≤ t.date.year ∧ t.date.year ≤ 9999

instance (t : Instant) : Decidable t.Regular := by
  unfold Regular; infer_instance

instance (t : Instant) : Decidable t.FourDigitYear := by
  unfold FourDigitYear; infer_instance

/-- The instants whose timestamps have the fixed form of RFC 3339. -/
structure Printable (t : Instant) : Prop where
  regular : t.Regular
  year : t.FourDigitYear

end Instant

/-! ### Digits -/

theorem isAsciiDigit_eq_isDigit (c : Char) : isAsciiDigit c = c.isDigit :=
  rfl

/-- A digit is no white space. -/
theorem isBlank_eq_false_of_digit {c : Char} (h : isAsciiDigit c = true) : isBlank c = false := by
  simp only [isAsciiDigit, Bool.and_eq_true, decide_eq_true_eq, Char.le_def, UInt32.le_iff_toNat_le]
    at h
  simp only [isBlank, Char.toNat]
  obtain ⟨hlow, hhigh⟩ := h
  have : '0'.val.toNat = 48 := rfl
  have : '9'.val.toNat = 57 := rfl
  simp only [Bool.or_eq_false_iff, Bool.and_eq_false_iff, decide_eq_false_iff_not, beq_eq_false_iff_ne]
  omega

/-- A padded number consists of digits. -/
theorem mem_padded_isAsciiDigit {width n : Nat} {c : Char} (h : c ∈ padded width n) :
    isAsciiDigit c = true := by
  rw [isAsciiDigit_eq_isDigit]
  rcases List.mem_append.1 h with h | h
  · rw [List.eq_of_mem_replicate h]; rfl
  · exact Nat.isDigit_of_mem_toDigits (by omega) (by omega) h

/-- A number that fits is padded to the width. -/
theorem length_padded {width n : Nat} (hw : 0 < width) (h : n < 10 ^ width) :
    (padded width n).length = width := by
  have hlen : (digitsOf n).length ≤ width := (Nat.length_toDigits_le_iff (by omega) hw).2 h
  simp only [padded, List.length_append, List.length_replicate]
  omega

/-- The digits of a text give the number that the library reads from them. -/
theorem ofDigits_map_digitValue (s : List Char) :
    ofDigits (s.map digitValue) = Nat.ofDigitChars 10 s 0 := by
  rw [ofDigits, List.foldl_map, Nat.ofDigitChars_eq_foldl]
  simp only [digitValue, Nat.mul_comm]

/-- Leading zeros do not change the number. -/
theorem ofDigits_padded (width n : Nat) : ofDigits ((padded width n).map digitValue) = n := by
  rw [ofDigits_map_digitValue, padded, Nat.ofDigitChars_append, digitsOf]
  rw [Nat.ofDigitChars_replicate_zero, Nat.mul_zero, Nat.ofDigitChars_ten_toDigits]

/-- A padded number is not empty. -/
theorem padded_ne_nil (width n : Nat) : padded width n ≠ [] := by
  simp [padded, digitsOf, Nat.toDigits_ne_nil]

/-- A text that does not go on with a digit. -/
def EndsDigits (rest : List Char) : Prop :=
  rest.takeWhile isAsciiDigit = []

/-- A character that is no digit ends the digits. -/
theorem endsDigits_cons {c : Char} {rest : List Char} (h : isAsciiDigit c = false) :
    EndsDigits (c :: rest) := by
  simp [EndsDigits, h]

/-- The digits in front of a text that goes on otherwise are those of the number. -/
theorem takeWhile_padded (width n : Nat) {rest : List Char} (h : EndsDigits rest) :
    (padded width n ++ rest).takeWhile isAsciiDigit = padded width n := by
  rw [List.takeWhile_append_of_pos fun c hc => mem_padded_isAsciiDigit hc, h, List.append_nil]

/-- The digits of a padded number are taken off, and the rest stays. -/
theorem takeDigits_padded (width n : Nat) {rest : List Char} (h : EndsDigits rest) :
    takeDigits (padded width n ++ rest) = ((padded width n).map digitValue, rest) := by
  have hdrop : rest.dropWhile isAsciiDigit = rest := by
    have := List.takeWhile_append_dropWhile (p := isAsciiDigit) (l := rest)
    rwa [h, List.nil_append] at this
  rw [takeDigits, takeWhile_padded width n h]
  rw [List.dropWhile_append_of_pos fun c hc => mem_padded_isAsciiDigit hc, hdrop]

/-! ### The strict reader -/

/-- A padded number is read as digits of its width. -/
theorem fixedDigits?_padded {width n : Nat} (hw : 0 < width) (h : n < 10 ^ width)
    (rest : List Char) : fixedDigits? width (padded width n ++ rest) = some (n, rest) := by
  have hlen := length_padded hw h
  have htake : (padded width n ++ rest).take width = padded width n := by
    rw [List.take_append_of_le_length (Nat.le_of_eq hlen.symm), List.take_of_length_le (by omega)]
  have hdrop : (padded width n ++ rest).drop width = rest := by
    rw [List.drop_append_of_le_length (Nat.le_of_eq hlen.symm), List.drop_of_length_le (by omega)]
    rfl
  have hall : (padded width n).all isAsciiDigit = true :=
    List.all_eq_true.2 fun c hc => mem_padded_isAsciiDigit hc
  simp [fixedDigits?, htake, hdrop, hlen, hall, ofDigits_padded]

/-- The digits of a fraction, read as nanoseconds. -/
theorem nanosOf_padded {width n : Nat} (hw : 0 < width) (h9 : width ≤ 9) (h : n < 10 ^ width) :
    nanosOf ((padded width n).map digitValue) = n * 10 ^ (9 - width) := by
  have hlen : ((padded width n).map digitValue).length = width := by
    rw [List.length_map, length_padded hw h]
  rw [nanosOf, List.take_of_length_le (by omega)]
  simp only [hlen, ofDigits_padded, Nat.pow_eq]

/-- The three lengths of a fraction. -/
theorem fractionText_cases (nano : Nat) (h : nano < 1000000000) :
    (nano = 0 ∧ fractionText nano = []) ∨
      ∃ width n, 0 < width ∧ width ≤ 9 ∧ n < 10 ^ width ∧ nano = n * 10 ^ (9 - width) ∧
        fractionText nano = '.' :: padded width n := by
  unfold fractionText
  split
  · next h0 => exact Or.inl ⟨h0, rfl⟩
  · right
    split
    · exact ⟨3, nano / 1000000, by omega, by omega, by omega, by omega, rfl⟩
    · split
      · exact ⟨6, nano / 1000, by omega, by omega, by omega, by omega, rfl⟩
      · exact ⟨9, nano, by omega, by omega, by omega, by omega, rfl⟩

/-- A fraction is read as the nanoseconds that it has been written for. -/
theorem fraction?_fractionText {nano : Nat} (h : nano < 1000000000) :
    fraction? (fractionText nano ++ ['Z']) = some (nano, ['Z']) := by
  rcases fractionText_cases nano h with ⟨h0, htext⟩ | ⟨width, n, hw, h9, hn, hnano, htext⟩
  · rw [htext, h0]; rfl
  · rw [htext, List.cons_append]
    have hend : EndsDigits ['Z'] := endsDigits_cons rfl
    have htake := takeDigits_padded width n hend
    have hne := padded_ne_nil width n
    simp only [fraction?]
    rw [htake]
    cases hds : (padded width n).map digitValue with
    | nil => exact absurd (List.map_eq_nil_iff.1 hds) hne
    | cons d ds => simp only; rw [← hds, nanosOf_padded hw h9 hn, hnano]

/-- **The parts of a timestamp.**  A printed instant is the writing of a date and a time of day
from which the instant can be put together again; in a leap second the time shows second 60. -/
theorem chars_parts {t : Instant} (hreg : t.Regular) :
    ∃ shown nano, shown ≤ 60 ∧ nano < 1000000000 ∧
      Instant.ofClock t.date (t.secondOfDay / 3600) (t.secondOfDay / 60 % 60) shown nano 0 = t ∧
      t.chars = yearText t.date.year ++ '-' :: (padded 2 t.date.month ++
        '-' :: (padded 2 t.date.day ++ 'T' :: (padded 2 (t.secondOfDay / 3600) ++
        ':' :: (padded 2 (t.secondOfDay / 60 % 60) ++
        ':' :: (padded 2 shown ++ (fractionText nano ++ ['Z'])))))) := by
  have hday : t.date.dayNumber = t.second / 86400 := dayNumber_ofDayNumber _
  by_cases hleap : Instant.nanosPerSecond ≤ t.nano
  · refine ⟨t.secondOfDay % 60 + 1, t.nano - Instant.nanosPerSecond, by omega, ?_, ?_, ?_⟩
    · simp only [Instant.Regular, Instant.nanosPerSecond] at hreg ⊢
      omega
    · have hminute : t.second % 60 = 59 := by
        rcases hreg with hreg | ⟨hreg, _⟩ <;> omega
      obtain ⟨second, nano⟩ := t
      have hlast : (second % 86400).toNat % 60 + 1 = 60 := by dsimp only at hminute; omega
      simp only [Instant.ofClock, hday, Instant.secondOfDay, hlast, beq_self_eq_true, if_true,
        Instant.mk.injEq]
      exact ⟨by omega, Nat.sub_add_cancel hleap⟩
    · simp only [Instant.chars, hleap, if_true, List.append_assoc, List.cons_append]
  · refine ⟨t.secondOfDay % 60, t.nano, by omega, ?_, ?_, ?_⟩
    · simpa [Instant.nanosPerSecond] using hleap
    · obtain ⟨second, nano⟩ := t
      have hlast : (((second % 86400).toNat % 60) == 60) = false := by
        simp only [beq_eq_false_iff_ne]
        omega
      simp only [Instant.ofClock, hday, Instant.secondOfDay, hlast, Bool.false_eq_true, if_false,
        Instant.mk.injEq, and_true]
      omega
    · simp only [Instant.chars, hleap, if_false, Nat.add_zero, List.append_assoc, List.cons_append]

/-- The bounds of the parts. -/
theorem date_bounds (t : Instant) :
    t.date.month < 10 ^ 2 ∧ t.date.day < 10 ^ 2 ∧ t.secondOfDay / 3600 < 24 ∧
      t.secondOfDay / 60 % 60 < 60 := by
  have hmonth : 1 ≤ t.date.month ∧ t.date.month ≤ 12 := month_ofDayNumber _
  have hday : 1 ≤ t.date.day ∧ t.date.day ≤ 31 := day_ofDayNumber _
  have hsecond : t.secondOfDay < 86400 := by unfold Instant.secondOfDay; omega
  omega

/-- **The strict reader gets a printed instant back.** -/
theorem readStrict?_write {t : Instant} (h : t.Printable) : readStrict? t.write = some t := by
  obtain ⟨shown, nano, hshown, hnano, hclock, hchars⟩ := chars_parts h.regular
  obtain ⟨hmonth, hday, hhour, hminute⟩ := date_bounds t
  obtain ⟨-, hlow, hhigh⟩ := h
  have hyear : t.date.year.toNat < 10 ^ 4 := by omega
  have htext : yearText t.date.year = padded 4 t.date.year.toNat := if_pos ⟨hlow, hhigh⟩
  have hvalid : t.date.isValid = true := isValid_ofDayNumber _
  have hdate : (⟨(t.date.year.toNat : Int), t.date.month, t.date.day⟩ : Date) = t.date := by
    rw [Int.toNat_of_nonneg hlow]
  have hhour' : t.secondOfDay / 3600 < 10 ^ 2 := by omega
  have hminute' : t.secondOfDay / 60 % 60 < 10 ^ 2 := by omega
  have hshown' : shown < 10 ^ 2 := by omega
  have hoffset : strictOffset? ['Z'] = some 0 := rfl
  have h4 : 0 < 4 := by decide
  have h2 : 0 < 2 := by decide
  rw [readStrict?, Instant.write, String.toList_ofList, hchars, htext, readStrictChars?]
  rw [fixedDigits?_padded h4 hyear]
  simp only [Option.bind_eq_bind, Option.bind_some, expect?, if_true]
  rw [fixedDigits?_padded h2 hmonth]
  simp only [Option.bind_some, if_true]
  rw [fixedDigits?_padded h2 hday]
  simp only [Option.bind_some, timeMark?, true_or, if_true]
  rw [fixedDigits?_padded h2 hhour']
  simp only [Option.bind_some, if_true]
  rw [fixedDigits?_padded h2 hminute']
  simp only [Option.bind_some, if_true]
  rw [fixedDigits?_padded h2 hshown']
  simp only [Option.bind_some]
  rw [fraction?_fractionText hnano]
  simp only [Option.bind_some, hoffset, hdate, hvalid, hhour, hminute, hshown, and_self, if_true,
    hclock]

/-! ### Other years -/

/-- A text whose first character comes before that of another comes before it. -/
theorem compare_of_first {s t : String} {a b : Char} {v w : List Char} (hs : s.toList = a :: v)
    (ht : t.toList = b :: w) (h : a < b) : compare s t = .lt := by
  have hlt : s < t := by
    rw [String.lt_iff, hs, ht]
    exact List.cons_lt_cons_iff.2 (.inl h)
  exact if_pos hlt

/-- In a year of four digits a printed instant starts with a digit, in all other years with a sign. -/
theorem exists_toList_write {t : Instant} (h : t.Regular) :
    ∃ c rest, t.write.toList = c :: rest ∧
      if t.FourDigitYear then isAsciiDigit c = true else c = '-' ∨ c = '+' := by
  obtain ⟨_, _, _, _, _, hchars⟩ := chars_parts h
  rw [Instant.write, String.toList_ofList, hchars, yearText]
  by_cases hyear : 0 ≤ t.date.year ∧ t.date.year ≤ 9999
  · have hfour : t.FourDigitYear := hyear
    simp only [if_pos hyear, if_pos hfour]
    cases hdigits : padded 4 t.date.year.toNat with
    | nil => exact absurd hdigits (padded_ne_nil _ _)
    | cons c rest =>
      exact ⟨c, _, rfl, mem_padded_isAsciiDigit (hdigits ▸ List.mem_cons_self)⟩
  · have hfar : ¬ t.FourDigitYear := hyear
    simp only [if_neg hyear, if_neg hfar]
    refine ⟨_, _, rfl, ?_⟩
    split
    · exact .inl rfl
    · exact .inr rfl

/-- The strict reader refuses years that have not four digits. -/
theorem readStrict?_write_eq_none {t : Instant} (h : t.Regular) (hyear : ¬ t.FourDigitYear) :
    readStrict? t.write = none := by
  obtain ⟨c, rest, htext, hsign⟩ := exists_toList_write h
  rw [if_neg hyear] at hsign
  have hdigit : isAsciiDigit c = false := by
    rcases hsign with rfl | rfl <;> rfl
  have hrefused : fixedDigits? 4 (c :: rest) = none := by
    simp [fixedDigits?, hdigit]
  rw [readStrict?, htext, readStrictChars?, hrefused]
  rfl

/-- Years that have not four digits are printed in front of all others. -/
theorem compare_write_of_far {s t : Instant} (hs : s.Regular) (ht : t.Regular)
    (hfar : ¬ s.FourDigitYear) (hyear : t.FourDigitYear) : compare s.write t.write = .lt := by
  obtain ⟨c, v, hc, hsign⟩ := exists_toList_write hs
  obtain ⟨d, w, hd, hdigit⟩ := exists_toList_write ht
  rw [if_neg hfar] at hsign
  rw [if_pos hyear] at hdigit
  have hlow : '0' ≤ d := by
    rw [isAsciiDigit, Bool.and_eq_true, decide_eq_true_iff] at hdigit
    exact hdigit.1
  have hbelow : c < '0' := by
    rcases hsign with rfl | rfl <;> decide
  exact compare_of_first hc hd (Nat.lt_of_lt_of_le hbelow hlow)

/-! ### The relaxed reader -/

/-- A printed number does not start with white space. -/
theorem trimStart_padded (width n : Nat) (rest : List Char) :
    trimStart (padded width n ++ rest) = padded width n ++ rest := by
  cases hp : padded width n with
  | nil => exact absurd hp (padded_ne_nil width n)
  | cons c cs =>
    have hc : isBlank c = false :=
      isBlank_eq_false_of_digit (mem_padded_isAsciiDigit (hp ▸ List.mem_cons_self))
    simp [trimStart, hc]

/-- The relaxed reader takes the digits of a padded number. -/
theorem scanDigits_padded {width : Option Nat} {w n : Nat} {rest : List Char}
    (hkeep : ∀ k ∈ width, (padded w n).length ≤ k) (h : EndsDigits rest) :
    scanDigits width (padded w n ++ rest) = .ok (n, rest) := by
  have htake := takeWhile_padded w n h
  have hvalue := ofDigits_padded w n
  have hne := padded_ne_nil w n
  generalize padded w n = digits at hkeep htake hvalue hne
  have hcut : width.elim digits digits.take = digits := by
    cases width with
    | none => rfl
    | some k => exact List.take_of_length_le (hkeep k rfl)
  cases digits with
  | nil => exact absurd rfl hne
  | cons c cs =>
    have hdrop : (c :: cs ++ rest).drop (c :: cs).length = rest := by
      rw [List.drop_append_of_le_length (Nat.le_refl _), List.drop_length, List.nil_append]
    cases width <;>
      simp only [Option.elim] at hcut <;>
      simp only [scanDigits, htake, hcut] <;>
      simp only [List.cons_append, hvalue] <;>
      exact congrArg (fun r => Except.ok (n, r)) hdrop

/-- The relaxed reader takes a part of the date or of the time that is within its bounds. -/
theorem scanPart_padded {low high n : Nat} {rest : List Char} (hn : n < 10 ^ 2)
    (hlow : low ≤ n) (hhigh : n ≤ high) (h : EndsDigits rest) :
    scanPart low high (padded 2 n ++ rest) = .ok (n, rest) := by
  have hlen : (padded 2 n).length = 2 := length_padded (by decide) hn
  have hscan : scanDigits (some 2) (padded 2 n ++ rest) = .ok (n, rest) :=
    scanDigits_padded (by simp [hlen]) h
  simp [scanPart, trimStart_padded, hscan, hlow, hhigh, bind, Except.bind]

/-- A year is read back, whatever its sign and length. -/
theorem scanYear_yearText {year : Int} {rest : List Char} (h : EndsDigits rest) :
    scanYear (yearText year ++ rest) = .ok (year, rest) := by
  unfold yearText
  by_cases hfour : 0 ≤ year ∧ year ≤ 9999
  · rw [if_pos hfour]
    have hlen : (padded 4 year.toNat).length = 4 := length_padded (by decide) (by omega)
    have hscan : scanDigits (some 4) (padded 4 year.toNat ++ rest) = .ok (year.toNat, rest) :=
      scanDigits_padded (by simp [hlen]) h
    have hvalue : ((year.toNat : Nat) : Int) = year := Int.toNat_of_nonneg hfour.1
    cases hp : padded 4 year.toNat with
    | nil => exact absurd hp (padded_ne_nil 4 _)
    | cons c cs =>
      have hdigit : isAsciiDigit c = true := mem_padded_isAsciiDigit (hp ▸ List.mem_cons_self)
      have hminus : c ≠ '-' := by rintro rfl; exact absurd hdigit (by decide)
      have hplus : c ≠ '+' := by rintro rfl; exact absurd hdigit (by decide)
      have htrim := trimStart_padded 4 year.toNat rest
      rw [hp, List.cons_append] at htrim hscan
      rw [List.cons_append, scanYear, htrim]
      split
      · next heq => exact absurd (List.cons.inj heq).1 hminus
      · next heq => exact absurd (List.cons.inj heq).1 hplus
      · simp only [hscan, hvalue, bind, Except.bind]
  · rw [if_neg hfour]
    have hscan : scanDigits none (padded 4 year.natAbs ++ rest) = .ok (year.natAbs, rest) :=
      scanDigits_padded (by simp) h
    by_cases hsign : year < 0
    · have hvalue : -((year.natAbs : Nat) : Int) = year := by omega
      have htrim (s : List Char) : trimStart ('-' :: s) = '-' :: s := rfl
      rw [if_pos hsign, List.cons_append, scanYear, htrim]
      simp only [hscan, hvalue, bind, Except.bind]
    · have hvalue : ((year.natAbs : Nat) : Int) = year := by omega
      have htrim (s : List Char) : trimStart ('+' :: s) = '+' :: s := rfl
      rw [if_neg hsign, List.cons_append, scanYear, htrim]
      simp only [hscan, hvalue, bind, Except.bind]

/-- The relaxed reader takes a fraction as the nanoseconds that it has been written for. -/
theorem scanFraction_fractionText {nano : Nat} (h : nano < 1000000000) :
    scanFraction (fractionText nano ++ ['Z']) = .ok (nano, ['Z']) := by
  rcases fractionText_cases nano h with ⟨h0, htext⟩ | ⟨width, n, hw, h9, hn, hnano, htext⟩
  · rw [htext, h0]; rfl
  · have hends : EndsDigits ['Z'] := endsDigits_cons rfl
    have hscan : scanDigits none (padded width n ++ ['Z']) = .ok (n, ['Z']) :=
      scanDigits_padded (by simp) hends
    rw [htext, List.cons_append]
    simp only [scanFraction, hscan, takeDigits_padded width n hends, nanosOf_padded hw h9 hn,
      ← hnano, bind, Except.bind]

/-- A fraction, or the mark of UTC behind the seconds, ends their digits. -/
theorem endsDigits_fractionText (nano : Nat) : EndsDigits (fractionText nano ++ ['Z']) := by
  unfold fractionText
  split
  · exact endsDigits_cons rfl
  · split
    · exact endsDigits_cons rfl
    · split <;> exact endsDigits_cons rfl

/-- The years in which timestamps can be stored. -/
def StorableYear (year : Int) : Prop :=
  leastYear ≤ year ∧ year ≤ greatestYear

instance (year : Int) : Decidable (StorableYear year) := by
  unfold StorableYear; infer_instance

/-- Years of four digits can be stored. -/
theorem Instant.FourDigitYear.storable {t : Instant} (h : t.FourDigitYear) :
    StorableYear t.date.year := by
  obtain ⟨hlow, hhigh⟩ := h
  unfold StorableYear leastYear greatestYear
  omega

/-- **The relaxed reader gets every instant back** whose year can be stored, and refuses the
others. -/
theorem readRelaxed_write_eq {t : Instant} (h : t.Regular) :
    readRelaxed t.write = if StorableYear t.date.year then .ok t else .error .outOfRange := by
  obtain ⟨shown, nano, hshown, hnano, hclock, hchars⟩ := chars_parts h
  obtain ⟨hmonth, hday, hhour, hminute⟩ := date_bounds t
  have hmonth1 : 1 ≤ t.date.month ∧ t.date.month ≤ 12 := month_ofDayNumber _
  have hday1 : 1 ≤ t.date.day ∧ t.date.day ≤ 31 := day_ofDayNumber _
  have hvalid : t.date.isValid = true := isValid_ofDayNumber _
  have hyear (rest : List Char) :
      scanYear (yearText t.date.year ++ '-' :: rest) = .ok (t.date.year, '-' :: rest) :=
    scanYear_yearText (endsDigits_cons rfl)
  have hpart (low high n : Nat) (hn : n < 10 ^ 2) (hb : low ≤ n ∧ n ≤ high) {c : Char}
      (hc : isAsciiDigit c = false) (rest : List Char) :
      scanPart low high (padded 2 n ++ c :: rest) = .ok (n, c :: rest) :=
    scanPart_padded hn hb.1 hb.2 (endsDigits_cons hc)
  have hmark {c : Char} (hc : isBlank c = false) (rest : List Char) :
      scanMark c (c :: rest) = .ok rest := by
    simp [scanMark, trimStart, hc]
  have hsecond : scanPart 0 60 (padded 2 shown ++ (fractionText nano ++ ['Z'])) =
      .ok (shown, fractionText nano ++ ['Z']) :=
    scanPart_padded (by omega) (Nat.zero_le _) hshown (endsDigits_fractionText nano)
  have hZ : trimStart ['Z'] = ['Z'] := rfl
  have hoffset : scanOffset ['Z'] = .ok (0, []) := rfl
  have hend : trimStart [] = [] := rfl
  rw [readRelaxed, Instant.write, String.toList_ofList, hchars, readRelaxedChars, hyear]
  -- A year is refused where it does not fit a word, and also where no time may have it.
  by_cases hrange : t.date.year < -2147483648 ∨ 2147483648 ≤ t.date.year
  · have hfar : ¬ StorableYear t.date.year := by
      unfold StorableYear leastYear greatestYear
      omega
    rw [if_neg hfar]
    simp only [bind, Except.bind, hrange, if_true]
    rfl
  · simp only [bind, Except.bind, pure, Except.pure, hrange, if_false, hmark (c := '-') rfl,
      hmark (c := ':') rfl, hpart _ _ _ hmonth hmonth1 (c := '-') rfl,
      hpart _ _ _ hday hday1 (c := 'T') rfl,
      hpart 0 23 (t.secondOfDay / 3600) (by omega) (by omega) (c := ':') rfl,
      hpart 0 59 (t.secondOfDay / 60 % 60) (by omega) (by omega) (c := ':') rfl,
      hsecond, timeMark?, true_or, if_true, scanFraction_fractionText hnano, hZ, hoffset, hend,
      List.isEmpty_nil, Bool.not_true, Bool.false_eq_true, hvalid, hclock, true_and]
    by_cases hstorable : StorableYear t.date.year
    · rw [if_pos hstorable]
      exact if_pos ⟨by decide, by decide, hstorable, hstorable⟩
    · rw [if_neg hstorable]
      exact if_neg fun hall => hstorable hall.2.2.1

/-- **The relaxed reader gets a printed instant back.** -/
theorem readRelaxed_write {t : Instant} (h : t.Printable) : readRelaxed t.write = .ok t := by
  rw [readRelaxed_write_eq h.regular, if_pos h.year.storable]

/-- What is read from a printed instant is the instant. -/
theorem eq_of_readRelaxed_write {t u : Instant} (h : t.Regular) (hread : readRelaxed t.write = .ok u) :
    u = t := by
  rw [readRelaxed_write_eq h] at hread
  split at hread
  · exact (Except.ok.inj hread).symm
  · cases hread

end HeadlessCms.Time
