import HeadlessCms.Proofs.Time.RoundTrip
import HeadlessCms.Store.Clock

/-!
# The times of saves

`Clock.times` lists the times that a fresh clock hands out, one for each reading, and `Clock.after`
is the clock once some of them have been handed out.  Whatever the readings are, the times strictly
increase (`Clock.isBefore_times`), and they are proper times if the readings are
(`Clock.regular_times`).
-/

namespace HeadlessCms

open Time (Instant)

namespace Time.Instant

/-- Instants are ordered by second, then by nanosecond. -/
theorem isBefore_iff {a b : Instant} :
    a.isBefore b = true ↔ a.second < b.second ∨ a.second = b.second ∧ a.nano < b.nano := by
  rw [isBefore, beq_iff_eq, order, Ordering.then_eq_lt, Std.compare_eq_lt, Std.compare_eq_lt]
  simp only [Std.LawfulEqCmp.compare_eq_iff_eq]

/-- What is before an earlier instant is before a later one. -/
theorem isBefore_trans {a b c : Instant} (hab : a.isBefore b = true) (hbc : b.isBefore c = true) :
    a.isBefore c = true := by
  rw [isBefore_iff] at hab hbc ⊢
  omega

/-- No instant is before itself. -/
theorem isBefore_irrefl (a : Instant) : a.isBefore a = false := by
  rw [isBefore, order_self]
  rfl

/-- Of two instants at most one is before the other. -/
theorem isBefore_asymm {a b : Instant} (h : a.isBefore b = true) : b.isBefore a = false := by
  rw [Bool.eq_false_iff]
  intro hba
  rw [isBefore_iff] at h hba
  omega

/-- The next millisecond of a proper time is one. -/
theorem Regular.nextMillisecond {t : Instant} (h : t.Regular) : t.nextMillisecond.Regular := by
  unfold Regular nanosPerSecond at *
  unfold Instant.nextMillisecond nanosPerSecond
  dsimp only
  split <;> split <;> dsimp only <;> omega

end Time.Instant

namespace Clock

variable {readings : Nat → Instant}

/-- The times that a fresh clock hands out. -/
def times (readings : Nat → Instant) : Nat → Instant
  | 0 => advance none (readings 0)
  | n + 1 => advance (some (times readings n)) (readings (n + 1))

/-- The clock after a number of times. -/
def after (readings : Nat → Instant) : Nat → Clock
  | 0 => fresh
  | n + 1 => ⟨some (times readings n), n + 1⟩

@[simp] theorem taken_after (n : Nat) : (after readings n).taken = n := by
  cases n <;> rfl

/-- The clock hands out one time after the other. -/
theorem next_after (n : Nat) :
    (after readings n).next readings = (times readings n, after readings (n + 1)) := by
  cases n <;> rfl

/-- The clock advances. -/
theorem isBefore_advance (previous reading : Instant) :
    previous.isBefore (advance (some previous) reading) = true := by
  unfold advance
  dsimp only
  split
  · assumption
  · exact isBefore_nextMillisecond previous

/-- **The times of saves strictly increase,** in whatever order the readings come. -/
theorem isBefore_times {i j : Nat} (h : i < j) :
    (times readings i).isBefore (times readings j) = true := by
  induction h with
  | refl => exact isBefore_advance _ _
  | step _ ih => exact Instant.isBefore_trans ih (isBefore_advance _ _)

/-- Proper readings make proper times. -/
theorem regular_advance {last : Option Instant} {reading : Instant} (hlast : ∀ t ∈ last, t.Regular)
    (h : reading.Regular) : (advance last reading).Regular := by
  unfold advance
  split
  · exact h
  · next previous =>
    split
    · exact h
    · exact (hlast previous rfl).nextMillisecond

/-- The clock shows proper times if its readings are. -/
theorem regular_times (h : ∀ n, (readings n).Regular) (n : Nat) : (times readings n).Regular := by
  induction n with
  | zero => exact h 0
  | succ n ih => exact regular_advance (fun t ht => Option.some.inj ht ▸ ih) (h (n + 1))

/-- A printed time that comes before all times which the clock has still to hand out. -/
structure Past (readings : Nat → Instant) (n : Nat) (t : Instant) : Prop where
  printable : t.Printable
  isBefore_times : ∀ j, n ≤ j → t.isBefore (times readings j) = true

/-- What is past stays so. -/
theorem Past.later {n m : Nat} {t : Instant} (h : Past readings n t) (hnm : n ≤ m) :
    Past readings m t :=
  ⟨h.printable, fun j hj => h.isBefore_times j (Nat.le_trans hnm hj)⟩

/-- The time just handed out is past. -/
theorem past_times {n : Nat} (h : (times readings n).Printable) :
    Past readings (n + 1) (times readings n) :=
  ⟨h, fun _ hj => Clock.isBefore_times hj⟩

end Clock

end HeadlessCms
