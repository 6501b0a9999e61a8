import HeadlessCms.Proofs.Time.Agreement

/-!
# Timestamps and their order

A timestamp of RFC 3339 has parts: a date and a time of day in digits of fixed number, a fraction of any
length and a zone (`Time.Timestamp`).  The strict reader accepts exactly these texts, and reads the
instant that the parts tell (`Time.readStrict?_eq_some_iff`).  Instants are printed as such texts, with
a fraction of 0, 3, 6 or 9 digits (`Time.Instant.Printable.exists_timestamp`).
-/

namespace HeadlessCms.Time

open HeadlessCms.Text (isAsciiDigit)
open HeadlessCms.Decimal (digitValue ofDigits takeDigits)

/-! ### Parts of timestamps -/

/-- A number that is written in exactly `n` digits. -/
structure Digits (n : Nat) where
  chars : List Char
  length_chars : chars.length = n
  isDigit : ∀ c ∈ chars, isAsciiDigit c = true

namespace Digits

def value {n : Nat} (d : Digits n) : Nat :=
  ofDigits (d.chars.map digitValue)

/-- A number with zeros in front. -/
def ofNat {width n : Nat} (hw : 0 < width) (h : n < 10 ^ width) : Digits width :=
  ⟨padded width n, length_padded hw h, fun _ => mem_padded_isAsciiDigit⟩

@[simp] theorem value_ofNat {width n : Nat} (hw : 0 < width) (h : n < 10 ^ width) :
    (ofNat hw h).value = n :=
  ofDigits_padded width n

end Digits

/-- What tells how far a clock is off from UTC. -/
inductive Zone where
  /-- It is not. -/
  | utc (mark : Char) (isMark : mark = 'Z' ∨ mark = 'z')
  /-- By less than a day. -/
  | offset (sign : Char) (hours minutes : Digits 2) (isSign : sign = '+' ∨ sign = '-' ∨ sign = '−')
      (hours_lt : hours.value < 24) (minutes_lt : minutes.value < 60)

namespace Zone

def chars : Zone → List Char
  | utc mark _ => [mark]
  | offset sign hours minutes _ _ _ => sign :: (hours.chars ++ ':' :: minutes.chars)

/-- By how many seconds the clock is ahead. -/
def seconds : Zone → Int
  | utc _ _ => 0
  | offset sign hours minutes _ _ _ =>
    (if sign = '+' then 1 else -1) * (hours.value * 3600 + minutes.value * 60)

end Zone

/-- An RFC 3339 timestamp, taken apart. -/
structure Timestamp where
  year : Digits 4
  month : Digits 2
  day : Digits 2
  /-- What stands between the date and the time of day. -/
  mark : Char
  hour : Digits 2
  minute : Digits 2
  second : Digits 2
  /-- The digits of the fraction of the second; without them there is no point either. -/
  fraction : List Char
  zone : Zone
  isMark : mark = 'T' ∨ mark = 't' ∨ mark = ' '
  isDigit : ∀ c ∈ fraction, isAsciiDigit c = true
  exists_date : (⟨year.value, month.value, day.value⟩ : Date).isValid = true
  hour_lt : hour.value < 24
  minute_lt : minute.value < 60
  /-- Second 60 is a leap second. -/
  second_le : second.value ≤ 60

/-- The fraction with the point in front of it. -/
def fractionChars : List Char → List Char
  | [] => []
  | digits => '.' :: digits

namespace Timestamp

def date (x : Timestamp) : Date :=
  ⟨x.year.value, x.month.value, x.day.value⟩

def chars (x : Timestamp) : List Char :=
  x.year.chars ++ '-' :: (x.month.chars ++ '-' :: (x.day.chars ++ x.mark ::
    (x.hour.chars ++ ':' :: (x.minute.chars ++ ':' :: (x.second.chars ++
      (fractionChars x.fraction ++ x.zone.chars))))))

def text (x : Timestamp) : String :=
  String.ofList x.chars

/-- The instant that a timestamp tells: the date and the time of day of a clock in its zone, digits of
the fraction from the tenth on left out. -/
def instant (x : Timestamp) : Instant :=
  .ofClock x.date x.hour.value x.minute.value x.second.value
    (nanosOf (x.fraction.map digitValue)) x.zone.seconds

end Timestamp

/-! ### What the strict reader accepts -/

/-- Digits of a fixed width are read exactly from such digits. -/
theorem fixedDigits?_eq_some_iff {n value : Nat} {s rest : List Char} :
    fixedDigits? n s = some (value, rest) ↔
      ∃ d : Digits n, s = d.chars ++ rest ∧ d.value = value := by
  constructor
  · intro h
    obtain ⟨digits, rfl, hlength, hall, hvalue⟩ := fixedDigits?_eq_some h
    exact ⟨⟨digits, hlength, hall⟩, rfl, hvalue⟩
  · rintro ⟨⟨digits, hlength, hall⟩, rfl, rfl⟩
    have htake : (digits ++ rest).take n = digits := by
      rw [← hlength, List.take_left']
      rfl
    have hdrop : (digits ++ rest).drop n = rest := by
      rw [← hlength, List.drop_left']
      rfl
    rw [fixedDigits?, htake, hdrop]
    exact if_pos ⟨hlength, List.all_eq_true.2 hall⟩

/-- A character is expected exactly where it stands. -/
theorem expect?_eq_some_iff {c : Char} {s rest : List Char} :
    expect? c s = some rest ↔ s = c :: rest := by
  constructor
  · exact expect?_eq_some
  · rintro rfl
    exact if_pos rfl

/-- Between date and time there stands a mark in one of its forms. -/
theorem timeMark?_eq_some_iff {s rest : List Char} :
    timeMark? s = some rest ↔ ∃ c, s = c :: rest ∧ (c = 'T' ∨ c = 't' ∨ c = ' ') := by
  cases s with
  | nil => simp [timeMark?]
  | cons c more =>
    simp only [timeMark?, List.cons.injEq]
    constructor
    · intro h
      split at h
      · next hc => exact ⟨c, ⟨rfl, Option.some.inj h⟩, hc⟩
      · cases h
    · rintro ⟨d, ⟨rfl, rfl⟩, hd⟩
      exact if_pos hd

/-- A zone begins with a letter or a sign. -/
theorem Zone.exists_cons (z : Zone) :
    ∃ c rest, z.chars = c :: rest ∧ isAsciiDigit c = false ∧ c ≠ '.' := by
  cases z with
  | utc mark isMark =>
    refine ⟨mark, [], rfl, ?_⟩
    rcases isMark with rfl | rfl <;> decide
  | offset sign hours minutes isSign _ _ =>
    refine ⟨sign, _, rfl, ?_⟩
    rcases isSign with rfl | rfl | rfl <;> decide

/-- **The reader of offsets accepts exactly the zones.** -/
theorem strictOffset?_eq_some_iff {s : List Char} {offset : Int} :
    strictOffset? s = some offset ↔ ∃ z : Zone, s = z.chars ∧ z.seconds = offset := by
  constructor
  · intro h
    unfold strictOffset? at h
    split at h
    · next hutc =>
      cases h
      rcases hutc with rfl | rfl
      · exact ⟨.utc 'Z' (.inl rfl), rfl, rfl⟩
      · exact ⟨.utc 'z' (.inr rfl), rfl, rfl⟩
    · obtain ⟨⟨sign, s1⟩, hsign, h⟩ := Option.bind_eq_some_iff.1 h
      obtain ⟨⟨hours, s2⟩, hhours, h⟩ := Option.bind_eq_some_iff.1 h
      obtain ⟨s3, hcolon, h⟩ := Option.bind_eq_some_iff.1 h
      obtain ⟨⟨minutes, s4⟩, hminutes, h⟩ := Option.bind_eq_some_iff.1 h
      dsimp only at hhours hcolon hminutes h
      split at h
      · next hbounds =>
        cases h
        obtain ⟨hend, hhour, hminute⟩ := hbounds
        obtain ⟨dh, rfl, rfl⟩ := fixedDigits?_eq_some_iff.1 hhours
        obtain rfl := expect?_eq_some hcolon
        obtain ⟨dm, rfl, rfl⟩ := fixedDigits?_eq_some_iff.1 hminutes
        obtain ⟨-, c, rfl, hc⟩ := offsetSign?_eq_some hsign
        rw [List.isEmpty_iff.1 hend, List.append_nil]
        refine ⟨.offset c dh dm hc hhour hminute, rfl, ?_⟩
        have hunit : (if c = '+' then 1 else -1) = sign := by
          rcases hc with rfl | rfl | rfl <;> exact (Prod.mk.inj (Option.some.inj hsign)).1
        rw [Zone.seconds, hunit]
      · cases h
  · rintro ⟨z, rfl, rfl⟩
    cases z with
    | utc mark isMark => rcases isMark with rfl | rfl <;> rfl
    | offset sign hours minutes isSign hours_lt minutes_lt =>
      have hletters : ¬ (sign = 'Z' ∨ sign = 'z') := by
        rcases isSign with rfl | rfl | rfl <;> decide
      have hutc : ¬ ((Zone.offset sign hours minutes isSign hours_lt minutes_lt).chars = ['Z'] ∨
          (Zone.offset sign hours minutes isSign hours_lt minutes_lt).chars = ['z']) := by
        intro h
        exact hletters (h.imp (fun h => (List.cons.inj h).1) fun h => (List.cons.inj h).1)
      have hsign (rest : List Char) :
          offsetSign? (sign :: rest) = some (if sign = '+' then 1 else -1, rest) := by
        rcases isSign with rfl | rfl | rfl <;> rfl
      have hhours : fixedDigits? 2 (hours.chars ++ ':' :: minutes.chars) =
          some (hours.value, ':' :: minutes.chars) :=
        fixedDigits?_eq_some_iff.2 ⟨hours, rfl, rfl⟩
      have hminutes : fixedDigits? 2 minutes.chars = some (minutes.value, []) :=
        fixedDigits?_eq_some_iff.2 ⟨minutes, (List.append_nil _).symm, rfl⟩
      rw [strictOffset?, if_neg hutc, Zone.chars, hsign]
      simp only [Option.bind_eq_bind, Option.bind_some, hhours, expect?, if_true, hminutes]
      exact if_pos ⟨rfl, hours_lt, minutes_lt⟩

/-- What is read as a fraction is one. -/
theorem exists_of_fraction? {nano : Nat} {s rest : List Char}
    (h : fraction? s = some (nano, rest)) :
    ∃ digits, (∀ c ∈ digits, isAsciiDigit c = true) ∧ s = fractionChars digits ++ rest ∧
      nanosOf (digits.map digitValue) = nano := by
  unfold fraction? at h
  split at h
  · next more =>
    split at h
    · cases h
    · next digits tail hne hdigits =>
      cases h
      obtain ⟨rfl, rfl⟩ := Prod.mk.inj hdigits
      refine ⟨more.takeWhile isAsciiDigit, fun c hc => ?_, ?_, rfl⟩
      · exact List.all_eq_true.1 List.all_takeWhile c hc
      · have hsome : more.takeWhile isAsciiDigit ≠ [] := fun hnil => hne (by rw [hnil]; rfl)
        obtain ⟨c, cs, hcs⟩ := List.exists_cons_of_ne_nil hsome
        rw [hcs, fractionChars, ← hcs, List.cons_append, List.takeWhile_append_dropWhile]
        exact nofun
  · cases h
    exact ⟨[], nofun, rfl, rfl⟩

/-- A fraction in front of a zone is read. -/
theorem fraction?_fractionChars {digits : List Char} (hdigits : ∀ c ∈ digits, isAsciiDigit c = true)
    (z : Zone) : fraction? (fractionChars digits ++ z.chars) =
      some (nanosOf (digits.map digitValue), z.chars) := by
  obtain ⟨c, rest, hz, hc, hpoint⟩ := z.exists_cons
  rw [hz]
  cases digits with
  | nil =>
    rw [fractionChars, List.nil_append, fraction?]
    · rfl
    · intro more heq
      exact hpoint (List.cons.inj heq).1
  | cons d ds =>
    have htake : takeDigits (d :: ds ++ c :: rest) = ((d :: ds).map digitValue, c :: rest) := by
      have hends : EndsDigits (c :: rest) := endsDigits_cons hc
      have hdrop : (c :: rest).dropWhile isAsciiDigit = c :: rest := by
        simp [hc]
      rw [takeDigits, List.takeWhile_append_of_pos hdigits, List.dropWhile_append_of_pos hdigits,
        hends, hdrop, List.append_nil]
    rw [fractionChars, List.cons_append, fraction?, htake]
    · rfl
    · intro heq
      cases heq

/-- **The strict reader accepts exactly the timestamps,** and reads the instants that they tell. -/
theorem readStrictChars?_eq_some_iff {s : List Char} {t : Instant} :
    readStrictChars? s = some t ↔ ∃ x : Timestamp, s = x.chars ∧ x.instant = t := by
  constructor
  · intro h
    unfold readStrictChars? at h
    obtain ⟨⟨year, s1⟩, hyear, h⟩ := Option.bind_eq_some_iff.1 h
    obtain ⟨s2, hdash, h⟩ := Option.bind_eq_some_iff.1 h
    obtain ⟨⟨month, s3⟩, hmonth, h⟩ := Option.bind_eq_some_iff.1 h
    obtain ⟨s4, hdash', h⟩ := Option.bind_eq_some_iff.1 h
    obtain ⟨⟨day, s5⟩, hday, h⟩ := Option.bind_eq_some_iff.1 h
    obtain ⟨s6, hmark, h⟩ := Option.bind_eq_some_iff.1 h
    obtain ⟨⟨hour, s7⟩, hhour, h⟩ := Option.bind_eq_some_iff.1 h
    obtain ⟨s8, hcolon, h⟩ := Option.bind_eq_some_iff.1 h
    obtain ⟨⟨minute, s9⟩, hminute, h⟩ := Option.bind_eq_some_iff.1 h
    obtain ⟨s10, hcolon', h⟩ := Option.bind_eq_some_iff.1 h
    obtain ⟨⟨second, s11⟩, hsecond, h⟩ := Option.bind_eq_some_iff.1 h
    obtain ⟨⟨nano, s12⟩, hnano, h⟩ := Option.bind_eq_some_iff.1 h
    obtain ⟨offset, hoffset, h⟩ := Option.bind_eq_some_iff.1 h
    dsimp only at hdash hmonth hdash' hday hmark hhour hcolon hminute hcolon' hsecond hnano hoffset h
    split at h
    · next hbounds =>
      cases h
      obtain ⟨hvalid, hhour', hminute', hsecond'⟩ := hbounds
      obtain ⟨dyear, rfl, rfl⟩ := fixedDigits?_eq_some_iff.1 hyear
      obtain rfl := expect?_eq_some hdash
      obtain ⟨dmonth, rfl, rfl⟩ := fixedDigits?_eq_some_iff.1 hmonth
      obtain rfl := expect?_eq_some hdash'
      obtain ⟨dday, rfl, rfl⟩ := fixedDigits?_eq_some_iff.1 hday
      obtain ⟨mark, rfl, isMark⟩ := timeMark?_eq_some_iff.1 hmark
      obtain ⟨dhour, rfl, rfl⟩ := fixedDigits?_eq_some_iff.1 hhour
      obtain rfl := expect?_eq_some hcolon
      obtain ⟨dminute, rfl, rfl⟩ := fixedDigits?_eq_some_iff.1 hminute
      obtain rfl := expect?_eq_some hcolon'
      obtain ⟨dsecond, rfl, rfl⟩ := fixedDigits?_eq_some_iff.1 hsecond
      obtain ⟨fraction, hfraction, rfl, rfl⟩ := exists_of_fraction? hnano
      obtain ⟨zone, rfl, rfl⟩ := strictOffset?_eq_some_iff.1 hoffset
      exact ⟨⟨dyear, dmonth, dday, mark, dhour, dminute, dsecond, fraction, zone, isMark, hfraction,
        hvalid, hhour', hminute', hsecond'⟩, rfl, rfl⟩
    · cases h
  · rintro ⟨x, rfl, rfl⟩
    have hdigits {n : Nat} (d : Digits n) (rest : List Char) :
        fixedDigits? n (d.chars ++ rest) = some (d.value, rest) :=
      fixedDigits?_eq_some_iff.2 ⟨d, rfl, rfl⟩
    have hexpect (c : Char) (rest : List Char) : expect? c (c :: rest) = some rest :=
      expect?_eq_some_iff.2 rfl
    have hmark (rest : List Char) : timeMark? (x.mark :: rest) = some rest :=
      timeMark?_eq_some_iff.2 ⟨x.mark, rfl, x.isMark⟩
    have hoffset : strictOffset? x.zone.chars = some x.zone.seconds :=
      strictOffset?_eq_some_iff.2 ⟨x.zone, rfl, rfl⟩
    rw [Timestamp.chars, readStrictChars?]
    simp only [Option.bind_eq_bind, Option.bind_some, hdigits, hexpect, hmark,
      fraction?_fractionChars x.isDigit x.zone, hoffset]
    exact if_pos ⟨x.exists_date, x.hour_lt, x.minute_lt, x.second_le⟩

/-- Exactly the timestamps are read, each as its instant. -/
theorem readStrict?_eq_some_iff {s : String} {t : Instant} :
    readStrict? s = some t ↔ ∃ x : Timestamp, s = x.text ∧ x.instant = t := by
  rw [readStrict?, readStrictChars?_eq_some_iff]
  simp only [Timestamp.text, ← String.toList_inj, String.toList_ofList]

/-- A timestamp is read as its instant. -/
theorem Timestamp.readStrict?_text (x : Timestamp) : readStrict? x.text = some x.instant :=
  readStrict?_eq_some_iff.2 ⟨x, rfl, rfl⟩

/-! ### How instants are printed -/

/-- A fraction is printed with 0, 3, 6 or 9 digits, from which the nanoseconds are read. -/
theorem exists_fractionChars {nano : Nat} (h : nano < 1000000000) :
    ∃ digits, (∀ c ∈ digits, isAsciiDigit c = true) ∧ fractionText nano = fractionChars digits ∧
      nanosOf (digits.map digitValue) = nano ∧ digits.length ∈ [0, 3, 6, 9] := by
  have hpadded (width n : Nat) (hw : 0 < width) (h9 : width ≤ 9) (hn : n < 10 ^ width)
      (hnano : nano = n * 10 ^ (9 - width)) (hlength : width ∈ [0, 3, 6, 9])
      (htext : fractionText nano = '.' :: padded width n) :
      ∃ digits, (∀ c ∈ digits, isAsciiDigit c = true) ∧ fractionText nano = fractionChars digits ∧
        nanosOf (digits.map digitValue) = nano ∧ digits.length ∈ [0, 3, 6, 9] := by
    refine ⟨padded width n, fun _ => mem_padded_isAsciiDigit, ?_, ?_, ?_⟩
    · rw [htext, fractionChars]
      exact padded_ne_nil width n
    · rw [nanosOf_padded hw h9 hn, hnano]
    · rwa [length_padded hw hn]
  by_cases h0 : nano = 0
  · subst h0
    exact ⟨[], nofun, rfl, rfl, by decide⟩
  · by_cases hmilli : nano % 1000000 = 0
    · exact hpadded 3 (nano / 1000000) (by decide) (by decide) (by omega) (by omega)
        (by decide) (by rw [fractionText, if_neg h0, if_pos hmilli])
    · by_cases hmicro : nano % 1000 = 0
      · exact hpadded 6 (nano / 1000) (by decide) (by decide) (by omega) (by omega)
          (by decide) (by rw [fractionText, if_neg h0, if_neg hmilli, if_pos hmicro])
      · exact hpadded 9 nano (by decide) (by decide) (by omega) (by omega)
          (by decide) (by rw [fractionText, if_neg h0, if_neg hmilli, if_neg hmicro])

/-- **Instants are printed as timestamps in UTC** that tell them. -/
theorem Instant.Printable.exists_timestamp {t : Instant} (h : t.Printable) :
    ∃ x : Timestamp, x.text = t.write ∧ x.instant = t ∧ x.fraction.length ∈ [0, 3, 6, 9] ∧
      x.zone = .utc 'Z' (.inl rfl) := by
  obtain ⟨shown, nano, hshown, hnano, hclock, hchars⟩ := chars_parts h.regular
  obtain ⟨hmonth, hday, hhour, hminute⟩ := date_bounds t
  obtain ⟨-, hlow, hhigh⟩ := h
  obtain ⟨fraction, hfraction, htext, hvalue, hlength⟩ := exists_fractionChars hnano
  have hyear : t.date.year.toNat < 10 ^ 4 := by omega
  have hyearText : yearText t.date.year = padded 4 t.date.year.toNat := if_pos ⟨hlow, hhigh⟩
  have hdate : (⟨(t.date.year.toNat : Int), t.date.month, t.date.day⟩ : Date) = t.date := by
    rw [Int.toNat_of_nonneg hlow]
  have hvalid : t.date.isValid = true := isValid_ofDayNumber _
  have two {n : Nat} (hn : n < 10 ^ 2) : ∃ d : Digits 2, d.chars = padded 2 n ∧ d.value = n :=
    ⟨.ofNat (by decide) hn, rfl, Digits.value_ofNat _ _⟩
  obtain ⟨dmonth, hmonthChars, hmonthValue⟩ := two hmonth
  obtain ⟨dday, hdayChars, hdayValue⟩ := two hday
  obtain ⟨dhour, hhourChars, hhourValue⟩ := two (by omega : t.secondOfDay / 3600 < 10 ^ 2)
  obtain ⟨dminute, hminuteChars, hminuteValue⟩ := two (by omega : t.secondOfDay / 60 % 60 < 10 ^ 2)
  obtain ⟨dsecond, hsecondChars, hsecondValue⟩ := two (by omega : shown < 10 ^ 2)
  let dyear : Digits 4 := .ofNat (by decide) hyear
  have hyearValue : dyear.value = t.date.year.toNat := Digits.value_ofNat _ _
  have hdate' : (⟨dyear.value, dmonth.value, dday.value⟩ : Date) = t.date := by
    rw [hyearValue, hmonthValue, hdayValue, hdate]
  let x : Timestamp := ⟨dyear, dmonth, dday, 'T', dhour, dminute, dsecond, fraction,
    .utc 'Z' (.inl rfl), .inl rfl, hfraction, by rw [hdate', hvalid], by rw [hhourValue]; exact hhour,
    by rw [hminuteValue]; exact hminute, by rw [hsecondValue]; exact hshown⟩
  refine ⟨x, ?_, ?_, hlength, rfl⟩
  · rw [Timestamp.text, Instant.write, hchars, hyearText, htext, ← hmonthChars, ← hdayChars,
      ← hhourChars, ← hminuteChars, ← hsecondChars]
    rfl
  · show Instant.ofClock ⟨dyear.value, dmonth.value, dday.value⟩ dhour.value dminute.value
      dsecond.value (nanosOf (fraction.map digitValue)) 0 = t
    rw [hdate', hhourValue, hminuteValue, hsecondValue, hvalue, hclock]

end HeadlessCms.Time
