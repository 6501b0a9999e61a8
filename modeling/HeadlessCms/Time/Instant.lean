import HeadlessCms.Time.Calendar

/-!
# Instants

An instant is a second and a count of nanoseconds.  A leap second shares the number of the second
before it and has nanoseconds from `10 ^ 9` on, so instants are ordered by second, then nanosecond.
-/

namespace HeadlessCms.Time

/-- A point in time. -/
structure Instant where
  /-- Seconds from 1970-01-01T00:00:00Z, leap seconds left out. -/
  second : Int
  /-- Nanoseconds, below `2 * 10 ^ 9`; from `10 ^ 9` on they lie in a leap second. -/
  nano : Nat
  deriving Repr, DecidableEq, Inhabited

namespace Instant

def nanosPerSecond : Nat := 1000000000

/-- The chronological order. -/
def order (a b : Instant) : Ordering :=
  (compare a.second b.second).then (compare a.nano b.nano)

/-- Whether an instant comes before another one. -/
def isBefore (a b : Instant) : Bool :=
  order a b == .lt

/-- The instant of a time of day on a date, at an offset from UTC in seconds.  The second may be 60,
a leap second. -/
def ofClock (date : Date) (hour minute second nano : Nat) (offset : Int) : Instant :=
  let leap := second == 60
  let ofDay : Nat := hour * 3600 + minute * 60 + (if leap then 59 else second)
  ⟨date.dayNumber * 86400 + ofDay - offset, if leap then nano + nanosPerSecond else nano⟩

/-- The date of an instant in UTC. -/
def date (t : Instant) : Date :=
  .ofDayNumber (t.second / 86400)

/-- The second of the day in UTC, without leap seconds. -/
def secondOfDay (t : Instant) : Nat :=
  (t.second % 86400).toNat

/-- One millisecond later.  Within a leap second the count goes on to its end. -/
def nextMillisecond (t : Instant) : Instant :=
  let nano := t.nano + 1000000
  if t.nano < nanosPerSecond then
    if nano < nanosPerSecond then ⟨t.second, nano⟩ else ⟨t.second + 1, nano - nanosPerSecond⟩
  else if nano < 2 * nanosPerSecond then ⟨t.second, nano⟩
  else ⟨t.second + 1, nano - 2 * nanosPerSecond⟩

/-- Every time is equal to itself. -/
theorem order_self (a : Instant) : order a a = .eq := by
  simp [order, Ordering.then]

/-- Exchanging two times reverses their order. -/
theorem order_swap (a b : Instant) : (order a b).swap = order b a := by
  unfold order
  rw [Ordering.swap_then]
  simp only [← Std.OrientedCmp.eq_swap]

/-- Only the same time is equal in order. -/
theorem order_eq_eq_iff {a b : Instant} : order a b = .eq ↔ a = b := by
  unfold order
  rw [Ordering.then_eq_eq]
  simp only [Std.LawfulEqCmp.compare_eq_iff_eq]
  cases a; cases b; simp

end Instant

end HeadlessCms.Time
