import HeadlessCms.Proofs.Store.TakingTurns

/-!
# The course of two updates

An update passes three milestones: it finds its document, takes a time, and writes what it makes of
the document.  Two updates pass theirs in any order (`Course`).  What comes of them is decided by
whether the one that writes last has found the document before or after the other one wrote
(`Course.settles`).
-/

namespace HeadlessCms

open Time (Instant)

/-! ### Milestones -/

/-- What can be told of an update: that it has found its document, taken its time, or written. -/
inductive Milestone where
  | looked
  | timed (t : Instant)
  | wrote
  deriving DecidableEq

/-- The milestone that an event is for the collection. -/
def Event.milestone? (slug : String) : Event → Option Milestone
  | ⟨.findOne q _, .ok (some _)⟩ => if q.collection = slug then some .looked else none
  | ⟨.now, t⟩ => some (.timed t)
  | ⟨.update name _ _, .ok _⟩ => if name = slug then some .wrote else none
  | _ => none

/-- The milestones among what has happened, each with the one whose it is. -/
def milestones (slug : String) (events : List (Bool × Event)) : List (Bool × Milestone) :=
  events.filterMap fun e => (e.2.milestone? slug).map (e.1, ·)

/-- The milestones of more events come behind those of the first ones. -/
theorem milestones_append (slug : String) (events later : List (Bool × Event)) :
    milestones slug (events ++ later) = milestones slug events ++ milestones slug later :=
  List.filterMap_append

/-- One event has its milestone. -/
theorem milestones_singleton {slug : String} {w : Bool} {e : Event} {m : Milestone}
    (h : e.milestone? slug = some m) : milestones slug [(w, e)] = [(w, m)] := by
  simp [milestones, h]

/-- Most events have none. -/
theorem milestones_singleton_none {slug : String} {w : Bool} {e : Event}
    (h : e.milestone? slug = none) : milestones slug [(w, e)] = [] := by
  simp [milestones, h]

/-- To find the document is to look. -/
theorem Event.milestone?_findOne {slug : String} {q : Query} (h : q.collection = slug)
    (options : FindOptions) (record : Record) :
    milestone? slug ⟨.findOne q options, .ok (some record)⟩ = some .looked :=
  if_pos h

/-- To update it is to write. -/
theorem Event.milestone?_update (slug id : String) (record shown : Record) :
    milestone? slug ⟨.update slug id record, .ok shown⟩ = some .wrote :=
  if_pos rfl

/-- The milestones of one of the two. -/
def milestonesOf (w : Bool) (ms : List (Bool × Milestone)) : List Milestone :=
  (ms.filter (·.1 == w)).map (·.2)

/-- The milestones of one update are among those of both. -/
theorem mem_of_mem_milestonesOf {w : Bool} {ms : List (Bool × Milestone)} {m : Milestone}
    (h : m ∈ milestonesOf w ms) : (w, m) ∈ ms := by
  obtain ⟨entry, hentry, rfl⟩ := List.mem_map.1 h
  obtain ⟨hmem, hw⟩ := List.mem_filter.1 hentry
  rwa [← beq_iff_eq.1 hw]

/-- How far an update has come. -/
inductive Progress where
  | begun
  | looked (found : Document)
  | timed (found : Document) (t : Instant)
  | wrote (t : Instant)

namespace Progress

/-- The document that it is going to rewrite. -/
def found? : Progress → Option Document
  | looked found => some found
  | timed found _ => some found
  | _ => none

/-- The time that it is going to write. -/
def pending? : Progress → Option Instant
  | timed _ t => some t
  | _ => none

/-- The milestones behind it. -/
def passed : Progress → List Milestone
  | begun => []
  | looked _ => [.looked]
  | timed _ t => [.looked, .timed t]
  | wrote t => [.looked, .timed t, .wrote]

/-- Who has found a document has looked. -/
theorem looked_mem_passed {p : Progress} {found : Document} (h : found ∈ p.found?) :
    .looked ∈ p.passed := by
  cases p with
  | begun | wrote => cases h
  | looked | timed => exact List.mem_cons_self

end Progress

section

variable (rewrite : Bool → Document → Instant → Document) (d₀ : Document)

/-- **The course of two updates:** the milestones in their order, how far each has come, and the stored
document.  Each finds the document that is stored when it looks, takes a later time than have been taken
before, and writes what it makes of the document that it has found. -/
inductive Course : List (Bool × Milestone) → (Bool → Progress) → Document → Prop
  | start : Course [] (fun _ => .begun) d₀
  | looked {ms progress d} (before : Course ms progress d) {w : Bool}
      (here : progress w = .begun) :
      Course (ms ++ [(w, .looked)]) (Function.update progress w (.looked d)) d
  | timed {ms progress d} (before : Course ms progress d) {w : Bool} {found : Document}
      (here : progress w = .looked found) {t : Instant}
      (later : ∀ v u, (v, .timed u) ∈ ms → u.isBefore t = true) :
      Course (ms ++ [(w, .timed t)]) (Function.update progress w (.timed found t)) d
  | wrote {ms progress d} (before : Course ms progress d) {w : Bool} {found : Document} {t : Instant}
      (here : progress w = .timed found t) :
      Course (ms ++ [(w, .wrote)]) (Function.update progress w (.wrote t)) (rewrite w found t)

/-- **What comes of two updates,** given their times. -/
inductive Settles (t : Bool → Instant) : List (Bool × Milestone) → Document → Prop
  /-- The last writer has found what the first one wrote. -/
  | inTurn (first : Bool) {before between : List (Bool × Milestone)}
      (looks : (!first, .looked) ∈ between) (later : (t first).isBefore (t !first) = true) :
      Settles t (before ++ (first, .wrote) :: between ++ [(!first, .wrote)])
        (rewrite (!first) (rewrite first d₀ (t first)) (t !first))
  /-- The last writer has not seen what the first one wrote. -/
  | overtaken (first : Bool) {before between : List (Bool × Milestone)}
      (looks : (!first, .looked) ∈ before) :
      Settles t (before ++ (first, .wrote) :: between ++ [(!first, .wrote)])
        (rewrite (!first) d₀ (t !first))

/-- The stored document while two updates are under way. -/
inductive Phase : List (Bool × Milestone) → (Bool → Progress) → Document → Prop
  | untouched {ms progress} (writing : ∀ w t, progress w ≠ .wrote t)
      (found : ∀ w, ∀ d ∈ (progress w).found?, d = d₀) : Phase ms progress d₀
  | once {progress} (first : Bool) {t : Instant} {before between : List (Bool × Milestone)}
      (wrote : progress first = .wrote t) (writing : ∀ u, progress (!first) ≠ .wrote u)
      (found : ∀ d ∈ (progress !first).found?,
        (!first, .looked) ∈ before ∧ d = d₀ ∨
          (!first, .looked) ∈ between ∧ d = rewrite first d₀ t ∧
            ∀ u ∈ (progress !first).pending?, t.isBefore u = true) :
      Phase (before ++ (first, .wrote) :: between) progress (rewrite first d₀ t)
  | twice {ms progress d} (t : Bool → Instant) (wrote : ∀ w, progress w = .wrote (t w))
      (settles : Settles rewrite d₀ t ms d) : Phase ms progress d

end

variable {rewrite : Bool → Document → Instant → Document} {d₀ d : Document}
  {ms : List (Bool × Milestone)} {progress : Bool → Progress}

namespace Course

/-- **The milestones of an update come in their order.** -/
theorem milestonesOf_eq (h : Course rewrite d₀ ms progress d) (w : Bool) :
    milestonesOf w ms = (progress w).passed := by
  have hstep {ms : List (Bool × Milestone)} {progress : Bool → Progress} {v : Bool} {m : Milestone}
      {p : Progress} (ih : milestonesOf w ms = (progress w).passed)
      (hp : p.passed = (progress v).passed ++ [m]) :
      milestonesOf w (ms ++ [(v, m)]) = (Function.update progress v p w).passed := by
    unfold milestonesOf at ih ⊢
    rw [List.filter_append, List.map_append, ih]
    by_cases hv : w = v
    · subst hv
      rw [Function.update_self, hp]
      simp
    · rw [Function.update_of_ne hv]
      simp [Ne.symm hv]
  induction h with
  | start => rfl
  | looked before here ih => exact hstep ih (by rw [here]; rfl)
  | timed before here later ih => exact hstep ih (by rw [here]; rfl)
  | wrote before here ih => exact hstep ih (by rw [here]; rfl)

/-- What an update has passed is on record. -/
theorem mem_of_mem_passed (h : Course rewrite d₀ ms progress d) {w : Bool} {m : Milestone}
    (hm : m ∈ (progress w).passed) : (w, m) ∈ ms :=
  mem_of_mem_milestonesOf (h.milestonesOf_eq w ▸ hm)

end Course

/-- An update that looks or takes a time leaves the document as it is. -/
theorem Phase.further (h : Phase rewrite d₀ ms progress d)
    (htimed : ∀ v t, progress v = .wrote t → (v, .timed t) ∈ ms) {w : Bool} {m : Milestone}
    {p : Progress} (hopen : ∀ t, progress w ≠ .wrote t) (hp : ∀ t, p ≠ .wrote t)
    (hfound : ∀ e ∈ p.found?, m = .looked ∧ e = d ∧ p.pending? = none ∨
      e ∈ (progress w).found? ∧
        ∀ u ∈ p.pending?, ∀ v t, (v, .timed t) ∈ ms → t.isBefore u = true) :
    Phase rewrite d₀ (ms ++ [(w, m)]) (Function.update progress w p) d := by
  cases h with
  | untouched writing found =>
    refine .untouched ?_ ?_
    · exact (Function.forall_update_iff progress fun _ q => ∀ t, q ≠ .wrote t).2
        ⟨hp, fun v _ => writing v⟩
    · refine (Function.forall_update_iff progress fun _ q => ∀ e ∈ q.found?, e = d₀).2
        ⟨fun e he => ?_, fun v _ => found v⟩
      rcases hfound e he with ⟨-, heq, -⟩ | ⟨hold, -⟩
      · exact heq
      · exact found w e hold
  | @once progress first t before between wrote writing found =>
    -- The one that has written goes no further.
    obtain rfl : w = !first := by
      refine Bool.eq_not_of_ne fun heq => hopen t ?_
      rw [heq, wrote]
    rw [List.append_assoc, List.cons_append]
    refine .once first ?_ ?_ ?_
    · rwa [Function.update_of_ne (Ne.symm (Bool.not_eq_self first).1)]
    · rw [Function.update_self]
      exact hp
    · rw [Function.update_self]
      intro e he
      rcases hfound e he with ⟨rfl, rfl, hnone⟩ | ⟨hold, hlater⟩
      · refine Or.inr ⟨by simp, rfl, fun u hu => ?_⟩
        rw [hnone] at hu
        cases hu
      · refine (found e hold).imp_right fun ⟨hlooked, heq, _⟩ => ⟨?_, heq, fun u hu => ?_⟩
        · exact List.mem_append_left _ hlooked
        · exact hlater u hu first t (htimed first t wrote)
  | twice t wrote settles => exact absurd (wrote w) (hopen _)

/-- **A write rewrites the document,** for the first time or on top of the other's. -/
theorem Phase.write (h : Phase rewrite d₀ ms progress d)
    (hlooked : ∀ v, ∀ e ∈ (progress v).found?, (v, .looked) ∈ ms) {w : Bool} {found : Document}
    {t : Instant} (here : progress w = .timed found t) :
    Phase rewrite d₀ (ms ++ [(w, .wrote)]) (Function.update progress w (.wrote t))
      (rewrite w found t) := by
  have hfound : found ∈ (progress w).found? := by
    rw [here]
    rfl
  cases h with
  | untouched writing same =>
    obtain rfl := same w found hfound
    have hother : (Function.update progress w (.wrote t)) (!w) = progress (!w) :=
      Function.update_of_ne (Bool.not_eq_self w).1 _ _
    refine .once w ?_ ?_ ?_
    · rw [Function.update_self]
    · rw [hother]
      exact writing !w
    · rw [hother]
      exact fun e he => Or.inl ⟨hlooked _ e he, same _ e he⟩
  | @once progress first u start between wrote writing same =>
    -- Nobody writes twice, so this is the other one.
    obtain rfl : w = !first := by
      refine Bool.eq_not_of_ne fun heq => ?_
      rw [heq, wrote] at here
      cases here
    obtain ⟨time, rfl, rfl⟩ : ∃ time : Bool → Instant, time first = u ∧ time (!first) = t :=
      ⟨fun v => bif v == first then u else t, by simp, by simp⟩
    refine .twice time (fun v => ?_) ?_
    · by_cases hv : v = first
      · subst hv
        rw [Function.update_of_ne (Ne.symm (Bool.not_eq_self v).1), wrote]
      · obtain rfl := Bool.eq_not_of_ne hv
        rw [Function.update_self]
    -- What the last writer has found decides whether the first write survives.
    · rcases same found hfound with ⟨hbefore, rfl⟩ | ⟨hbetween, rfl, hlater⟩
      · exact .overtaken first hbefore
      · refine .inTurn first hbetween (hlater _ ?_)
        rw [here]
        rfl
  | twice t wrote settles => exact nomatch (wrote w).symm.trans here

namespace Course

/-- **The document is untouched, or rewritten once, or settled.** -/
theorem phase (h : Course rewrite d₀ ms progress d) : Phase rewrite d₀ ms progress d := by
  have htimed {ms progress d} (h : Course rewrite d₀ ms progress d) (v : Bool) (t : Instant)
      (hv : progress v = .wrote t) : (v, .timed t) ∈ ms := by
    refine h.mem_of_mem_passed ?_
    rw [hv]
    exact List.mem_cons_of_mem _ List.mem_cons_self
  induction h with
  | start => exact .untouched nofun nofun
  | looked before here ih =>
    refine ih.further (htimed before) ?_ nofun fun e he => Or.inl ?_
    · rw [here]
      exact nofun
    · cases he
      exact ⟨rfl, rfl, rfl⟩
  | timed before here later ih =>
    refine ih.further (htimed before) ?_ nofun fun e he => Or.inr ⟨?_, fun u hu v t ht => ?_⟩
    · rw [here]
      exact nofun
    · rw [here]
      exact he
    · cases hu
      exact later v t ht
  | wrote before here ih =>
    exact ih.write (fun _ _ he => before.mem_of_mem_passed (Progress.looked_mem_passed he)) here

/-- **Two updates that have written have settled the document.** -/
theorem settles (h : Course rewrite d₀ ms progress d) (hwrote : ∀ w, ∃ t, progress w = .wrote t) :
    ∃ t : Bool → Instant, (∀ w, milestonesOf w ms = [.looked, .timed (t w), .wrote]) ∧
      Settles rewrite d₀ t ms d := by
  cases h.phase with
  | untouched writing found =>
    obtain ⟨t, ht⟩ := hwrote true
    exact absurd ht (writing true t)
  | once first wrote writing found =>
    obtain ⟨t, ht⟩ := hwrote !first
    exact absurd ht (writing t)
  | twice t wrote settles =>
    refine ⟨t, fun w => ?_, settles⟩
    rw [h.milestonesOf_eq, wrote]
    rfl

end Course

end HeadlessCms
