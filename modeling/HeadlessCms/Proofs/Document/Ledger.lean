import HeadlessCms.Proofs.Document.Snapshot
import HeadlessCms.Proofs.Store.Clock
import HeadlessCms.Proofs.Store.Contents
import Mathlib.Data.List.Nodup
import Mathlib.Data.List.Perm.Subperm

/-!
# The ledger of a collection with drafts

A ledger says what is stored of a collection: its documents, and a snapshot of every save that is
still kept.  The draft that is shown in place of a document is the last snapshot that is a later draft
of it (`Ledger.pending?`).  Every save adds a snapshot and then prunes those of its document
(`Ledger.recorded`).

`Ledger.Sound` is what saves preserve: ids are drawn once, times are past and grow along the history.
From it follows what a save does to pending drafts: it leaves those of other documents alone
(`Ledger.pending?_recorded_of_ne`), a draft becomes the pending one of its document
(`Ledger.pending?_recorded_draft`), and after a published save nothing is pending
(`Ledger.pending?_recorded_published`).  Pruning changes none of this, since the newest snapshot of a
document always stays.
-/

namespace HeadlessCms

open Time (Instant)

/-- What readers see of a document apart from its id. -/
structure Slot where
  createdAt : Instant
  updatedAt : Instant
  data : Record

/-- The document that is shown for a slot. -/
def Slot.toDocument (id : String) (s : Slot) : Document :=
  ⟨id, some s.createdAt, some s.updatedAt, s.data⟩

/-- What a draft shows: both times are that of the draft. -/
def Snapshot.slot (x : Snapshot) : Slot :=
  ⟨x.time, x.time, x.doc.data⟩

/-- A snapshot that adds a save of a document to a history. -/
structure Snapshot.IsSave (x : Snapshot) (history : List Snapshot) (d : Document) (status : Status)
    (time : Instant) : Prop where
  doc : x.doc = d
  status : x.status = status
  time : x.time = time
  new : x.id ∉ history.map (·.id)

/-- What is stored of a collection with drafts. -/
structure Ledger where
  /-- The documents by id, in the order in which they were created. -/
  docs : List (String × Slot)
  /-- The saves that are kept, the newest one last. -/
  history : List Snapshot

/-- The ids and readings that a backend takes from outside are as they should be: no id comes twice
or reads as a timestamp, and readings are proper times. -/
structure Surroundings.Proper (env : Surroundings) : Prop where
  ids_injective : Function.Injective env.ids
  plain : ∀ n, Time.readStrict? (env.ids n) = none
  regular : ∀ n, (env.readings n).Regular

/-- Ids of more and more letters, under a clock that runs backwards. -/
def Surroundings.backward : Surroundings where
  ids n := String.ofList ('n' :: List.replicate n '0')
  readings n := ⟨1700000000 - n, 0⟩

/-- These ids and readings are as they should be. -/
theorem Surroundings.proper_backward : Surroundings.backward.Proper where
  ids_injective n m h := by
    have hlength := congrArg (fun s : String => s.toList.length) h
    simpa [backward] using hlength
  plain n := by
    -- No year starts with a letter.
    have hyear : Time.fixedDigits? 4 ('n' :: List.replicate n '0') = none := by
      have hletter : (('n' :: List.replicate n '0').take 4).all Text.isAsciiDigit = false := rfl
      simp only [Time.fixedDigits?, hletter]
      exact if_neg fun hdigits => absurd hdigits.2 (by decide)
    rw [backward, Time.readStrict?, String.toList_ofList, Time.readStrictChars?, hyear]
    rfl
  regular n := Or.inl (show 0 < Instant.nanosPerSecond by decide)

namespace Ledger

def empty : Ledger :=
  ⟨[], []⟩

/-- The stored document with an id. -/
def live? (l : Ledger) (id : String) : Option Slot :=
  (l.docs.find? (·.1 == id)).map (·.2)

/-- The newest draft of a document that was last changed at a time. -/
def pending? (history : List Snapshot) (id : String) (updatedAt : Instant) : Option Slot :=
  (history.filter (·.isDraftAfter id updatedAt)).getLast?.map Snapshot.slot

/-- The ids of the versions of a document that are no longer kept; 0 keeps all. -/
def expired (keep : Nat) (id : String) (history : List Snapshot) : List String :=
  if keep = 0 then [] else ((history.filter (·.doc.id == id)).reverse.drop keep).map (·.id)

/-- The history without the versions of a document that are no longer kept. -/
def prune (keep : Nat) (id : String) (history : List Snapshot) : List Snapshot :=
  history.filter fun x => !(expired keep id history).contains x.id

/-- The history after a save. -/
def recorded (keep : Nat) (history : List Snapshot) (x : Snapshot) : List Snapshot :=
  prune keep x.doc.id (history ++ [x])

/-! ### Pruning -/

/-- A version that expires is an older one of the same document. -/
theorem mem_expired {keep : Nat} {history : List Snapshot} {x : Snapshot} {versionId : String}
    (h : versionId ∈ expired keep x.doc.id (history ++ [x])) :
    ∃ y ∈ history, y.doc.id = x.doc.id ∧ y.id = versionId := by
  unfold expired at h
  cases keep with
  | zero => simp at h
  | succ keep =>
    -- The newest version heads the list, so it is not among the expired ones.
    simp only [Nat.succ_ne_zero, if_false, List.filter_append, List.filter_cons, beq_self_eq_true,
      if_true, List.filter_nil, List.reverse_append, List.reverse_singleton, List.singleton_append,
      List.drop_succ_cons, List.mem_map] at h
    obtain ⟨y, hy, hyid⟩ := h
    have hmem := List.mem_filter.1 (List.mem_reverse.1 (List.mem_of_mem_drop hy))
    exact ⟨y, hmem.1, by simpa using hmem.2, hyid⟩

/-- **The newest version stays, and so do the versions of other documents.** -/
theorem recorded_eq_concat (keep : Nat) {history : List Snapshot} {x : Snapshot}
    (hids : ((history ++ [x]).map (·.id)).Nodup) :
    ∃ older, recorded keep history x = older ++ [x] ∧ older.Sublist history ∧
      ∀ y ∈ history, y.doc.id ≠ x.doc.id → y ∈ older := by
  have hinj : ∀ y ∈ history ++ [x], ∀ z ∈ history ++ [x], y.id = z.id → y = z :=
    fun y hy z hz => List.inj_on_of_nodup_map hids hy hz
  have hkeep : ∀ y ∈ history ++ [x], y = x ∨ y.doc.id ≠ x.doc.id →
      y.id ∉ expired keep x.doc.id (history ++ [x]) := by
    intro y hy hyx hexp
    obtain ⟨z, hz, hzdoc, hzid⟩ := mem_expired hexp
    have hzy : z = y := hinj z (List.mem_append_left _ hz) y hy hzid
    subst hzy
    rcases hyx with rfl | hne
    · rw [List.map_append, List.nodup_append] at hids
      exact hids.2.2 z.id (List.mem_map_of_mem hz) z.id (by simp) rfl
    · exact hne hzdoc
  refine ⟨history.filter fun y => !(expired keep x.doc.id (history ++ [x])).contains y.id, ?_,
    List.filter_sublist, ?_⟩
  · have hx := hkeep x (by simp) (Or.inl rfl)
    simp [recorded, prune, hx]
  · intro y hy hne
    have := hkeep y (List.mem_append_left _ hy) (Or.inr hne)
    exact List.mem_filter.2 ⟨hy, by simpa using this⟩

/-- Two filters that keep the same items of a list, one after the other or one alone. -/
theorem filter_eq_of_sublist {α : Type} {p : α → Bool} {older history : List α}
    (h : older.Sublist history) (hnodup : history.Nodup)
    (hmem : ∀ y ∈ history, p y = true → y ∈ older) : older.filter p = history.filter p := by
  refine (h.filter p).eq_of_length_le ?_
  have hsub : history.filter p ⊆ older.filter p := fun y hy => by
    obtain ⟨hy, hpy⟩ := List.mem_filter.1 hy
    exact List.mem_filter.2 ⟨hmem y hy hpy, hpy⟩
  exact ((hnodup.filter p).subperm hsub).length_le

/-! ### Pending drafts -/

section Pending

variable (keep : Nat) {history : List Snapshot} {x : Snapshot}

/-- Snapshots with different ids are different. -/
theorem nodup_of_ids (h : ((history ++ [x]).map (·.id)).Nodup) : history.Nodup :=
  List.Nodup.of_map _ ((List.nodup_append.1 (List.map_append ▸ h)).1)

/-- **A save leaves the drafts of other documents alone.** -/
theorem pending?_recorded_of_ne (hids : ((history ++ [x]).map (·.id)).Nodup) {id : String}
    (hne : id ≠ x.doc.id) (t : Instant) :
    pending? (recorded keep history x) id t = pending? history id t := by
  obtain ⟨older, hrec, hsub, hmem⟩ := recorded_eq_concat keep hids
  have hx : x.isDraftAfter id t = false := by
    simp [Snapshot.isDraftAfter, hne.symm]
  have holder : older.filter (·.isDraftAfter id t) = history.filter (·.isDraftAfter id t) := by
    refine filter_eq_of_sublist hsub (nodup_of_ids hids) fun y hy hyid => hmem y hy ?_
    simp only [Snapshot.isDraftAfter, Bool.and_eq_true, beq_iff_eq] at hyid
    exact fun h => hne (hyid.1.symm.trans h)
  simp [pending?, hrec, List.filter_append, hx, holder]

/-- **A draft becomes the pending one.** -/
theorem pending?_recorded_draft (hids : ((history ++ [x]).map (·.id)).Nodup)
    (hstatus : x.status = .draft) {t : Instant} (ht : t.isBefore x.time = true) :
    pending? (recorded keep history x) x.doc.id t = some x.slot := by
  obtain ⟨older, hrec, _, _⟩ := recorded_eq_concat keep hids
  have hx : x.isDraftAfter x.doc.id t = true := by
    simp [Snapshot.isDraftAfter, hstatus, ht]
  simp [pending?, hrec, List.filter_append, hx]

/-- **Nothing is pending at the time of the newest save.** -/
theorem pending?_recorded_published (hids : ((history ++ [x]).map (·.id)).Nodup)
    (hbefore : ∀ y ∈ history, y.time.isBefore x.time = true) :
    pending? (recorded keep history x) x.doc.id x.time = none := by
  obtain ⟨older, hrec, hsub, _⟩ := recorded_eq_concat keep hids
  have hnone : (older ++ [x]).filter (·.isDraftAfter x.doc.id x.time) = [] := by
    rw [List.filter_eq_nil_iff]
    intro y hy
    have hnot : x.time.isBefore y.time = false := by
      rcases List.mem_append.1 hy with hy | hy
      · exact Instant.isBefore_asymm (hbefore y (hsub.subset hy))
      · rw [List.mem_singleton.1 hy]
        exact Instant.isBefore_irrefl _
    simp [Snapshot.isDraftAfter, hnot]
  simp [pending?, hrec, hnone]

end Pending

/-! ### What saves preserve -/

/-- A slot with proper content and past times. -/
structure SoundSlot (env : Surroundings) (taken : Nat) (s : Slot) : Prop where
  content : Record.IsContent s.data
  createdAt : Clock.Past env.readings taken s.createdAt
  updatedAt : Clock.Past env.readings taken s.updatedAt

/-- The document of a sound slot can be stored. -/
theorem SoundSlot.storable {env : Surroundings} {taken : Nat} {s : Slot}
    (h : SoundSlot env taken s) (id : String) : (s.toDocument id).Storable :=
  ⟨h.content, fun _ ht => Option.some.inj ht ▸ h.createdAt.printable,
    fun _ ht => Option.some.inj ht ▸ h.updatedAt.printable⟩

/-- A sound slot stays so when more times are taken. -/
theorem SoundSlot.later {env : Surroundings} {n m : Nat} {s : Slot} (h : SoundSlot env n s)
    (hnm : n ≤ m) : SoundSlot env m s :=
  ⟨h.content, h.createdAt.later hnm, h.updatedAt.later hnm⟩

/-- The ids of the documents and versions of a ledger. -/
def allIds (l : Ledger) : List String :=
  l.docs.map (·.1) ++ l.history.map (·.id)

/-- What is true of a ledger after a number of times and ids have been handed out. -/
structure Sound (env : Surroundings) (taken drawn : Nat) (l : Ledger) : Prop where
  nodup : l.allIds.Nodup
  ids : ∀ id ∈ l.allIds, ∃ k < drawn, id = env.ids k
  slots : ∀ e ∈ l.docs, SoundSlot env taken e.2
  snapshots : ∀ x ∈ l.history, x.Sound ∧ Clock.Past env.readings taken x.time
  parents : ∀ x ∈ l.history, x.doc.id ∈ l.docs.map (·.1)
  ordered : l.history.Pairwise fun x y => x.time.isBefore y.time = true

namespace Sound

variable {env : Surroundings} {taken drawn : Nat} {l : Ledger}

/-- The empty ledger is sound. -/
theorem empty : Sound env 0 0 empty :=
  ⟨List.nodup_nil, fun _ h => absurd h List.not_mem_nil, fun _ h => absurd h List.not_mem_nil,
    fun _ h => absurd h List.not_mem_nil, fun _ h => absurd h List.not_mem_nil, List.Pairwise.nil⟩

/-- The documents of a sound ledger have different ids. -/
theorem docs_nodup (h : l.Sound env taken drawn) : (l.docs.map (·.1)).Nodup :=
  (List.nodup_append.1 h.nodup).1

/-- The snapshots of a sound ledger have different ids. -/
theorem history_nodup (h : l.Sound env taken drawn) : (l.history.map (·.id)).Nodup :=
  (List.nodup_append.1 h.nodup).2.1

/-- An id that has still to be drawn is new. -/
theorem fresh (henv : env.Proper) (h : l.Sound env taken drawn) {k : Nat} (hk : drawn ≤ k) :
    env.ids k ∉ l.allIds := by
  intro hmem
  obtain ⟨j, hj, heq⟩ := h.ids _ hmem
  have := henv.ids_injective heq
  omega

/-- A document that is added gets the next id. -/
theorem addDoc (henv : env.Proper) (h : l.Sound env taken drawn) {s : Slot}
    (hs : SoundSlot env taken s) :
    Sound env taken (drawn + 1) ⟨l.docs ++ [(env.ids drawn, s)], l.history⟩ := by
  have hfresh := h.fresh henv (Nat.le_refl drawn)
  have hperm : (allIds ⟨l.docs ++ [(env.ids drawn, s)], l.history⟩).Perm
      (env.ids drawn :: l.allIds) := by
    simp only [allIds, List.map_append, List.map_cons, List.map_nil, List.append_assoc,
      List.singleton_append]
    exact List.perm_middle
  refine ⟨hperm.nodup_iff.2 (List.nodup_cons.2 ⟨hfresh, h.nodup⟩), ?_, ?_, h.snapshots, ?_,
    h.ordered⟩
  · intro id hid
    rcases List.mem_cons.1 (hperm.mem_iff.1 hid) with rfl | hid
    · exact ⟨drawn, Nat.lt_succ_self _, rfl⟩
    · obtain ⟨k, hk, heq⟩ := h.ids id hid
      exact ⟨k, Nat.lt_succ_of_lt hk, heq⟩
  · intro e he
    rcases List.mem_append.1 he with he | he
    · exact h.slots e he
    · rw [List.mem_singleton.1 he]
      exact hs
  · intro x hx
    simp [h.parents x hx]

/-- Replacing the slot of a document keeps the list of ids. -/
theorem map_replaceItem (id : String) (s : Slot) (docs : List (String × Slot)) :
    (Store.Holds.replaceItem (·.1) id (id, s) docs).map (·.1) = docs.map (·.1) := by
  induction docs with
  | nil => rfl
  | cons e rest ih =>
    simp only [Store.Holds.replaceItem]
    split
    · next heq => simp [heq]
    · simp [ih]

/-- After a replacement there are the slots from before, and the new one. -/
theorem mem_replaceItem {id : String} {s : Slot} {docs : List (String × Slot)}
    {e : String × Slot} (h : e ∈ Store.Holds.replaceItem (·.1) id (id, s) docs) :
    e = (id, s) ∨ e ∈ docs := by
  induction docs with
  | nil => simp [Store.Holds.replaceItem] at h
  | cons d rest ih =>
    simp only [Store.Holds.replaceItem] at h
    split at h
    · rcases List.mem_cons.1 h with h | h
      · exact Or.inl h
      · exact Or.inr (List.mem_cons_of_mem _ h)
    · rcases List.mem_cons.1 h with h | h
      · exact Or.inr (h ▸ List.mem_cons_self)
      · exact (ih h).imp_right (List.mem_cons_of_mem _)

/-- A document may be replaced by a changed one. -/
theorem replaceDoc (h : l.Sound env taken drawn) {id : String} {s : Slot}
    (hs : SoundSlot env taken s) :
    Sound env taken drawn ⟨Store.Holds.replaceItem (·.1) id (id, s) l.docs, l.history⟩ := by
  have hids : allIds ⟨Store.Holds.replaceItem (·.1) id (id, s) l.docs, l.history⟩ = l.allIds := by
    simp only [allIds, map_replaceItem]
  refine ⟨hids ▸ h.nodup, hids ▸ h.ids, ?_, h.snapshots, ?_, h.ordered⟩
  · intro e he
    rcases mem_replaceItem he with rfl | he
    · exact hs
    · exact h.slots e he
  · intro x hx
    rw [map_replaceItem]
    exact h.parents x hx

/-- A sound ledger stays so when more times are taken. -/
theorem later (h : l.Sound env taken drawn) {n : Nat} (hn : taken ≤ n) : l.Sound env n drawn :=
  ⟨h.nodup, h.ids, fun e he => (h.slots e he).later hn,
    fun x hx => ⟨(h.snapshots x hx).1, (h.snapshots x hx).2.later hn⟩, h.parents, h.ordered⟩

/-- **A save keeps the ledger sound.** -/
theorem record (henv : env.Proper) (h : l.Sound env taken drawn) {x : Snapshot} (hx : x.Sound)
    (hid : x.id = env.ids drawn) (hpast : Clock.Past env.readings taken x.time)
    (hparent : x.doc.id ∈ l.docs.map (·.1))
    (hbefore : ∀ y ∈ l.history, y.time.isBefore x.time = true) (keep : Nat) :
    Sound env taken (drawn + 1) ⟨l.docs, recorded keep l.history x⟩ := by
  have hfresh : x.id ∉ l.allIds := hid ▸ h.fresh henv (Nat.le_refl drawn)
  have hsub : (recorded keep l.history x).Sublist (l.history ++ [x]) := List.filter_sublist
  have hmem : ∀ y ∈ recorded keep l.history x, y ∈ l.history ∨ y = x := fun y hy => by
    simpa using hsub.subset hy
  have hids : (allIds ⟨l.docs, recorded keep l.history x⟩).Sublist (l.allIds ++ [x.id]) := by
    have := (List.Sublist.refl (l.docs.map (·.1))).append (hsub.map (·.id))
    simpa [allIds] using this
  refine ⟨hids.nodup (List.nodup_append.2 ⟨h.nodup, List.nodup_singleton _, ?_⟩), ?_, h.slots, ?_,
    ?_, List.Pairwise.sublist hsub (List.pairwise_append.2 ⟨h.ordered, List.pairwise_singleton _ _, ?_⟩)⟩
  · intro id hmemid other hother heq
    rw [List.mem_singleton.1 hother] at heq
    exact hfresh (heq ▸ hmemid)
  · intro id hidmem
    rcases List.mem_append.1 (hids.subset hidmem) with hold | hnew
    · obtain ⟨k, hk, heq⟩ := h.ids id hold
      exact ⟨k, Nat.lt_succ_of_lt hk, heq⟩
    · exact ⟨drawn, Nat.lt_succ_self _, (List.mem_singleton.1 hnew).trans hid⟩
  · intro y hy
    rcases hmem y hy with hy | rfl
    · exact h.snapshots y hy
    · exact ⟨hx, hpast⟩
  · intro y hy
    rcases hmem y hy with hy | rfl
    · exact h.parents y hy
    · exact hparent
  · intro y hy z hz
    rw [List.mem_singleton.1 hz]
    exact hbefore y hy

end Sound

/-! ### Looking up documents -/

/-- A document that is added is the live one under its id, and all others stay. -/
theorem live?_addDoc (docs : List (String × Slot)) (history history' : List Snapshot)
    {id other : String} (s : Slot) (hnew : id ∉ docs.map (·.1)) :
    live? ⟨docs ++ [(id, s)], history'⟩ other =
      if other = id then some s else live? ⟨docs, history⟩ other := by
  simp only [live?, List.find?_append]
  by_cases hother : other = id
  · have hnone : docs.find? (·.1 == id) = none := by
      rw [List.find?_eq_none]
      intro e he hid
      exact hnew (List.mem_map.2 ⟨e, he, by simpa using hid⟩)
    simp [hother, hnone]
  · have hne : (id == other) = false := by simpa using fun h => hother h.symm
    simp [hother, hne]

/-- A document that is replaced is the live one under its id, and all others stay. -/
theorem live?_replaceDoc (docs : List (String × Slot)) (history history' : List Snapshot)
    {id other : String} (s : Slot) (hold : id ∈ docs.map (·.1)) :
    live? ⟨Store.Holds.replaceItem (·.1) id (id, s) docs, history'⟩ other =
      if other = id then some s else live? ⟨docs, history⟩ other := by
  simp only [live?]
  induction docs with
  | nil => simp at hold
  | cons e rest ih =>
    by_cases heid : e.1 = id
    · simp only [Store.Holds.replaceItem, heid, if_true, List.find?_cons]
      by_cases hother : other = id
      · simp [hother]
      · have hne : (id == other) = false := by simpa using fun h => hother h.symm
        simp [hother, hne]
    · have hrest : id ∈ rest.map (·.1) := by
        rcases List.mem_cons.1 hold with h | h
        · exact absurd h.symm heid
        · exact h
      simp only [Store.Holds.replaceItem, heid, if_false, List.find?_cons]
      by_cases heother : e.1 = other
      · have hne : other ≠ id := fun h => heid (heother.trans h)
        simp [heother, hne]
      · have hne : (e.1 == other) = false := by simpa using heother
        simpa [hne] using ih hrest

/-- Exactly under the ids of documents there are live ones. -/
theorem live?_eq_none_iff {l : Ledger} {id : String} :
    l.live? id = none ↔ id ∉ l.docs.map (·.1) := by
  rw [live?, Option.map_eq_none_iff, List.find?_eq_none, List.mem_map]
  constructor
  · rintro h ⟨e, he, hid⟩
    exact h e he (by simpa using hid)
  · intro h e he hid
    exact h ⟨e, he, by simpa using hid⟩

/-- A live document is one of the ledger. -/
theorem mem_of_live? {l : Ledger} {id : String} {s : Slot} (h : l.live? id = some s) :
    (id, s) ∈ l.docs := by
  obtain ⟨e, he, rfl⟩ := Option.map_eq_some_iff.1 h
  have hid : e.1 = id := by simpa using List.find?_some he
  exact hid ▸ List.mem_of_find?_eq_some he

/-- In a sound ledger each document is the live one under its id. -/
theorem Sound.live?_of_mem {env : Surroundings} {taken drawn : Nat} {l : Ledger}
    (h : l.Sound env taken drawn) {e : String × Slot} (he : e ∈ l.docs) :
    l.live? e.1 = some e.2 := by
  cases hlive : l.live? e.1 with
  | none => exact absurd (List.mem_map_of_mem he) (live?_eq_none_iff.1 hlive)
  | some s =>
    have heq : (e.1, s) = e := List.inj_on_of_nodup_map h.docs_nodup (mem_of_live? hlive) he rfl
    exact congrArg some (congrArg Prod.snd heq)

/-- The slot of a document that readers of drafts see. -/
def draft? (l : Ledger) (id : String) : Option Slot :=
  (l.live? id).map fun s => (pending? l.history id s.updatedAt).getD s

end Ledger

end HeadlessCms
