import HeadlessCms.Proofs.Except
import HeadlessCms.Proofs.Time.Agreement

/-!
# Times that can be stored

A time can be stored if it is a proper time in a year that the reader of stored times accepts.  Such a
time is read back from its timestamp (`Instant.Storable.readRelaxed_write`), and whatever has been read
from a stored text can be stored again (`storable_of_readRelaxed`).
-/

namespace HeadlessCms.Time

open HeadlessCms.Text (isAsciiDigit isBlank trimStart)
open HeadlessCms.Decimal (digitValue ofDigits takeDigits)

/-- A time that is read back from its timestamp. -/
structure Instant.Storable (t : Instant) : Prop where
  regular : t.Regular
  year : StorableYear t.date.year

instance (t : Instant) : Decidable t.Storable :=
  decidable_of_iff (t.Regular ∧ StorableYear t.date.year) ⟨fun h => ⟨h.1, h.2⟩, fun h => ⟨h.1, h.2⟩⟩

/-- A storable time is read back as it was written. -/
theorem Instant.Storable.readRelaxed_write {t : Instant} (h : t.Storable) :
    readRelaxed t.write = .ok t := by
  rw [readRelaxed_write_eq h.regular, if_pos h.year]

/-- What has four digits in its year can be stored. -/
theorem Instant.Printable.storable {t : Instant} (h : t.Printable) : t.Storable :=
  ⟨h.regular, h.year.storable⟩

/-! ### The parts that have been read -/

/-- A fraction of a second has less than a billion nanoseconds. -/
theorem nanosOf_lt {digits : List Nat} (h : ∀ d ∈ digits, d < 10) : nanosOf digits < 10 ^ 9 := by
  have hkept : ofDigits (digits.take 9) < 10 ^ (digits.take 9).length :=
    ofDigits_lt fun d hd => h d (List.mem_of_mem_take hd)
  have hlength : (digits.take 9).length ≤ 9 := List.length_take_le 9 digits
  have hpow : 10 ^ (digits.take 9).length * 10 ^ (9 - (digits.take 9).length) = 10 ^ 9 := by
    rw [← Nat.pow_add, Nat.add_sub_cancel' hlength]
  rw [← hpow]
  exact Nat.mul_lt_mul_of_pos_right hkept (Nat.pow_pos (by decide))

/-- What is scanned as a fraction of a second has less than a billion nanoseconds. -/
theorem scanFraction_lt {nano : Nat} {s rest : List Char}
    (h : scanFraction s = .ok (nano, rest)) : nano < 1000000000 := by
  unfold scanFraction at h
  split at h
  · obtain ⟨found, _, h⟩ := Except.bind_eq_ok_iff.1 h
    cases h
    apply nanosOf_lt
    intro d hd
    obtain ⟨c, hc, rfl⟩ := List.mem_map.1 hd
    exact digitValue_lt (List.all_eq_true.1 List.all_takeWhile c hc)
  · cases h
    decide

/-- Offsets are whole minutes. -/
theorem scanOffset_minutes {offset : Int} {s rest : List Char}
    (h : scanOffset s = .ok (offset, rest)) : offset % 60 = 0 := by
  unfold scanOffset at h
  split at h
  · cases h
    rfl
  · split at h
    · cases h
    · split at h
      · cases h
        rfl
      · split at h
        · cases h
        · next sign _ hsign =>
          obtain ⟨⟨hours, s1⟩, _, h⟩ := Except.bind_eq_ok_iff.1 h
          obtain ⟨⟨minutes, s2⟩, _, h⟩ := Except.bind_eq_ok_iff.1 h
          dsimp only at h
          split at h
          · cases h
            obtain ⟨hunit, _⟩ := offsetSign?_eq_some hsign
            cases hunit with
            | inl hplus => rw [hplus]; omega
            | inr hminus => rw [hminus]; omega
          · cases h

/-- A time of day that can be read is a proper time, at any offset of whole minutes. -/
theorem regular_ofClock {date : Date} {hour minute second nano : Nat} {offset : Int}
    (hnano : nano < 1000000000) (hoffset : offset % 60 = 0) :
    (Instant.ofClock date hour minute second nano offset).Regular := by
  unfold Instant.Regular Instant.ofClock Instant.nanosPerSecond
  by_cases hleap : second = 60
  · right
    simp only [hleap, beq_self_eq_true, if_true]
    omega
  · left
    have hplain : (second == 60) = false := beq_eq_false_iff_ne.2 hleap
    simp only [hplain, Bool.false_eq_true, if_false]
    exact hnano

/-- **What has been read can be stored.** -/
theorem storable_of_readRelaxed {s : String} {t : Instant} (h : readRelaxed s = .ok t) :
    t.Storable := by
  unfold readRelaxed readRelaxedChars at h
  obtain ⟨⟨year, s1⟩, _, h⟩ := Except.bind_eq_ok_iff.1 h
  dsimp only at h
  split at h
  · cases h
  · obtain ⟨s2, _, h⟩ := Except.bind_eq_ok_iff.1 h
    obtain ⟨⟨month, s3⟩, _, h⟩ := Except.bind_eq_ok_iff.1 h
    obtain ⟨s4, _, h⟩ := Except.bind_eq_ok_iff.1 h
    obtain ⟨⟨day, s5⟩, _, h⟩ := Except.bind_eq_ok_iff.1 h
    dsimp only at h
    split at h
    · cases h
    · cases h
    · obtain ⟨s6, _, h⟩ := Except.bind_eq_ok_iff.1 h
      obtain ⟨⟨hour, s7⟩, _, h⟩ := Except.bind_eq_ok_iff.1 h
      obtain ⟨s8, _, h⟩ := Except.bind_eq_ok_iff.1 h
      obtain ⟨⟨minute, s9⟩, _, h⟩ := Except.bind_eq_ok_iff.1 h
      obtain ⟨s10, _, h⟩ := Except.bind_eq_ok_iff.1 h
      obtain ⟨⟨second, s11⟩, _, h⟩ := Except.bind_eq_ok_iff.1 h
      obtain ⟨⟨nano, s12⟩, hnano, h⟩ := Except.bind_eq_ok_iff.1 h
      obtain ⟨⟨offset, s13⟩, hoffset, h⟩ := Except.bind_eq_ok_iff.1 h
      dsimp only at h
      split at h
      · cases h
      · split at h
        · next hstorable =>
          cases h
          exact ⟨regular_ofClock (scanFraction_lt hnano) (scanOffset_minutes hoffset),
            hstorable.2.2.2.2⟩
        · cases h

end HeadlessCms.Time
