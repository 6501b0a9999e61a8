import HeadlessCms.Time.Instant

/-!
# The clock of saves

Saves need times that strictly increase, whatever the clock on the wall shows.  `Clock.next` takes
its reading if it is later than the last time handed out, and otherwise a millisecond more than
that (`isBefore_next`).
-/

namespace HeadlessCms

open Time (Instant)

/-- What has been handed out so far. -/
structure Clock where
  /-- The last time handed out. -/
  last : Option Instant
  /-- How many readings have been taken. -/
  taken : Nat

namespace Clock

def fresh : Clock :=
  ⟨none, 0⟩

/-- The next time for a reading. -/
def advance (last : Option Instant) (reading : Instant) : Instant :=
  match last with
  | none => reading
  | some previous => if previous.isBefore reading then reading else previous.nextMillisecond

/-- The next time. -/
def next (readings : Nat → Instant) (c : Clock) : Instant × Clock :=
  let t := advance c.last (readings c.taken)
  (t, ⟨some t, c.taken + 1⟩)

/-- An earlier second comes before a later one. -/
theorem isBefore_of_second_lt {a b : Instant} (h : a.second < b.second) :
    a.isBefore b = true := by
  have hcmp : compare a.second b.second = .lt := Std.compare_eq_lt.2 h
  simp [Instant.isBefore, Instant.order, hcmp, Ordering.then]

/-- An earlier nanosecond of the same second comes before a later one. -/
theorem isBefore_of_nano_lt {a b : Instant} (hs : a.second = b.second) (hn : a.nano < b.nano) :
    a.isBefore b = true := by
  have hcmp : compare a.nano b.nano = .lt := Nat.compare_eq_lt.2 hn
  simp [Instant.isBefore, Instant.order, hs, hcmp, Ordering.then]

/-- A millisecond later is later. -/
theorem isBefore_nextMillisecond (t : Instant) : t.isBefore t.nextMillisecond = true := by
  have hnano : t.nano < t.nano + 1000000 := by omega
  have hsecond : t.second < t.second + 1 := by omega
  unfold Instant.nextMillisecond
  dsimp only
  split
  · split
    · exact isBefore_of_nano_lt rfl hnano
    · exact isBefore_of_second_lt hsecond
  · split
    · exact isBefore_of_nano_lt rfl hnano
    · exact isBefore_of_second_lt hsecond

/-- **Times strictly increase.** -/
theorem isBefore_next (readings : Nat → Instant) (c : Clock) {previous : Instant}
    (h : c.last = some previous) : previous.isBefore (c.next readings).1 = true := by
  unfold next advance
  simp only [h]
  split
  · assumption
  · exact isBefore_nextMillisecond previous

end Clock

end HeadlessCms
