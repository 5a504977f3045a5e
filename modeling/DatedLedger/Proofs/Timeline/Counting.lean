import DatedLedger.Proofs.Timeline.History

/-!
# Events that count

An event counts as long as its date is not rescinded.  What it sets is given by the last
correction of its date, and by its own payload where there is none.  Events that count
are taken in the order of their dates, and on one date in the order of their places.

All this is said here of the logs as they are listed, whereas replay filters, sorts and
searches them.  Both come to the same where no two events share a place.
-/

namespace DatedLedger

/-! ## Places in an ordered list -/

/-- In a list in strict order, what stands in front of an element is what comes before it. -/
theorem exists_split_at_iff {α : Type} {r : α → α → Prop} {xs : List α}
    (hasymm : ∀ a b, r a b → ¬r b a) (h : xs.Pairwise r) {x : α} {p : α → Prop} :
    (∃ front back, xs = front ++ x :: back ∧ ∀ y ∈ front, p y) ↔
      x ∈ xs ∧ ∀ y ∈ xs, r y x → p y := by
  constructor
  · rintro ⟨front, back, rfl, hfront⟩
    refine ⟨List.mem_append_right front List.mem_cons_self, ?_⟩
    intro y hy hyx
    obtain ⟨-, hback, -⟩ := List.pairwise_append.mp h
    rcases List.mem_append.mp hy with hy | hy
    · exact hfront y hy
    · rcases List.mem_cons.mp hy with rfl | hy
      · exact absurd hyx (hasymm y y hyx)
      · exact absurd hyx (hasymm x y ((List.pairwise_cons.mp hback).1 y hy))
  · rintro ⟨hx, hbefore⟩
    obtain ⟨front, back, rfl⟩ := List.append_of_mem hx
    refine ⟨front, back, rfl, ?_⟩
    intro y hy
    have hyx : r y x := (List.pairwise_append.mp h).2.2 y hy x List.mem_cons_self
    exact hbefore y (List.mem_append_left _ hy) hyx

/-- In a list in strict order, the last element with a value is one that no such element comes
after. -/
theorem findSome?_reverse_eq_some_iff {α β : Type} {r : α → α → Prop} {xs : List α}
    (hasymm : ∀ a b, r a b → ¬r b a) (h : xs.Pairwise r) {f : α → Option β} {b : β} :
    xs.reverse.findSome? f = some b ↔
      ∃ x ∈ xs, f x = some b ∧ ∀ y ∈ xs, r x y → f y = none := by
  have hreverse : xs.reverse.Pairwise fun a b => r b a := List.pairwise_reverse.mpr h
  rw [List.findSome?_eq_some_iff]
  constructor
  · rintro ⟨front, x, back, hxs, hx, hfront⟩
    obtain ⟨hmem, hlater⟩ := (exists_split_at_iff (fun a b => hasymm b a) hreverse).mp
      ⟨front, back, hxs, hfront⟩
    exact ⟨x, List.mem_reverse.mp hmem, hx, fun y hy => hlater y (List.mem_reverse.mpr hy)⟩
  · rintro ⟨x, hmem, hx, hlater⟩
    obtain ⟨front, back, hxs, hfront⟩ := (exists_split_at_iff (fun a b => hasymm b a)
      hreverse).mpr ⟨List.mem_reverse.mpr hmem, fun y hy => hlater y (List.mem_reverse.mp hy)⟩
    exact ⟨front, x, back, hxs, hx, hfront⟩

/-! ## Order of events -/

namespace Event

variable {a b : Event}

/-- Earlier dates come first, and on one date earlier places. -/
def Precedes (a b : Event) : Prop :=
  a.date < b.date ∨ a.date = b.date ∧ a.pos < b.pos

theorem Precedes.asymm (h : a.Precedes b) : ¬b.Precedes a := by
  rintro (hlt | ⟨hdate, hpos⟩)
  · rcases h with hlt' | ⟨hdate', -⟩
    · exact lt_asymm hlt hlt'
    · exact hlt.ne hdate'.symm
  · rcases h with hlt' | ⟨-, hpos'⟩
    · exact hlt'.ne hdate.symm
    · exact Nat.lt_asymm hpos hpos'

theorem precedes_of_before (h : Replay.before a b) (hpos : a.pos ≠ b.pos) : a.Precedes b := by
  rcases Replay.before_iff.mp h with hlt | ⟨hdate, hle⟩
  · exact .inl hlt
  · exact .inr ⟨hdate, Nat.lt_of_le_of_ne hle hpos⟩

end Event

namespace History

variable {h : History} {e first : Event} {p : Payload}

/-! ## Events and payloads that count -/

/-- The event is on record, and its date is not rescinded. -/
structure Counts (h : History) (e : Event) : Prop where
  mem : e ∈ h.events
  stands : ∀ r ∈ h.rescinds, r.date ≠ e.date

/-- What an event sets: the payload of the last correction of its date in the list, or its own if
the date is not corrected. -/
inductive Sets (h : History) (e : Event) : Payload → Prop
  | corrected {front back : List Entry} {c : Entry} (hlisted : h.corrections = front ++ c :: back)
      (hdate : c.date = e.date) (hlast : ∀ x ∈ back, x.date ≠ e.date) : Sets h e c.payload
  | own (huncorrected : ∀ c ∈ h.corrections, c.date ≠ e.date) : Sets h e e.payload

/-- The first event that counts. -/
structure First (h : History) (first : Event) : Prop where
  counts : h.Counts first
  unpreceded : ∀ e, h.Counts e → ¬e.Precedes first

theorem counts_iff : h.Counts e ↔ e ∈ Replay.survivors h.events h.rescinds := by
  rw [Replay.mem_survivors_iff]
  exact ⟨fun hcounts => ⟨hcounts.mem, hcounts.stands⟩, fun ⟨hmem, hstands⟩ => ⟨hmem, hstands⟩⟩

theorem sets_iff : h.Sets e p ↔ p = Replay.effectivePayload h.corrections e := by
  have hnone : (∀ c ∈ h.corrections, c.date ≠ e.date) ↔
      h.corrections.reverse.find? (fun c => c.date == e.date) = none := by
    simp
  constructor
  · rintro (⟨hlisted, hdate, hlast⟩ | huncorrected)
    · have hback : ∀ xs : List Entry, (∀ x ∈ xs, x.date ≠ e.date) →
          xs.reverse.find? (fun c => c.date == e.date) = none := by
        simp
      rw [Replay.effectivePayload, hlisted, List.reverse_append, List.find?_append,
        List.reverse_cons, List.find?_append, hback _ hlast]
      simp [hdate]
    · rw [Replay.effectivePayload, hnone.mp huncorrected]
  · rintro rfl
    cases hfind : h.corrections.reverse.find? fun c => c.date == e.date with
    | none =>
      rw [Replay.effectivePayload, hfind]
      exact .own (hnone.mpr hfind)
    | some c =>
      obtain ⟨hdate, front, back, hreverse, hfront⟩ := List.find?_eq_some_iff_append.mp hfind
      have hlisted : h.corrections = back.reverse ++ c :: front.reverse := by
        simpa using congrArg List.reverse hreverse
      rw [Replay.effectivePayload, hfind]
      refine .corrected hlisted (by simpa using hdate) ?_
      intro x hx
      simpa using hfront x (List.mem_reverse.mp hx)

/-! ## Order of the events that count -/

theorem pairwise_precedes (hpos : (h.events.map fun e => e.pos).Nodup) :
    (Replay.survivors h.events h.rescinds).Pairwise Event.Precedes := by
  have hperm := perm_sortBy Replay.before
    (h.events.filter fun e => !Replay.isRescinded h.rescinds e.date)
  have hnodup : ((Replay.survivors h.events h.rescinds).map fun e => e.pos).Nodup :=
    (hperm.map _).nodup_iff.mpr (hpos.sublist (List.filter_sublist.map _))
  rw [List.Nodup, List.pairwise_map] at hnodup
  apply ((Replay.pairwise_survivors h.events h.rescinds).and hnodup).imp
  rintro a b ⟨hbefore, hne⟩
  exact Event.precedes_of_before hbefore hne

section Head

variable {rest : List Event} (hlisted : Replay.survivors h.events h.rescinds = e :: rest)
include hlisted

theorem counts_iff_of_eq_cons (x : Event) : h.Counts x ↔ x = e ∨ x ∈ rest := by
  rw [counts_iff, hlisted, List.mem_cons]

theorem precedes_of_eq_cons (hpos : (h.events.map fun e => e.pos).Nodup) :
    ∀ x ∈ rest, e.Precedes x := by
  have hsorted := pairwise_precedes hpos
  rw [hlisted] at hsorted
  exact (List.pairwise_cons.mp hsorted).1

theorem ne_of_eq_cons (hpos : (h.events.map fun e => e.pos).Nodup) : ∀ x ∈ rest, x ≠ e := by
  rintro x hx rfl
  have hself := precedes_of_eq_cons hlisted hpos x hx
  exact hself.asymm hself

/-- The head of the events that count is the first of them. -/
theorem first_iff_of_eq_cons (hpos : (h.events.map fun e => e.pos).Nodup) :
    h.First first ↔ first = e := by
  have hbefore := precedes_of_eq_cons hlisted hpos
  have hcounts := counts_iff_of_eq_cons hlisted
  constructor
  · rintro ⟨hfirst, hunpreceded⟩
    rcases (hcounts first).mp hfirst with rfl | hmem
    · rfl
    · exact absurd (hbefore first hmem) (hunpreceded e ((hcounts e).mpr (.inl rfl)))
  · rintro rfl
    refine ⟨(hcounts first).mpr (.inl rfl), ?_⟩
    intro x hx
    rcases (hcounts x).mp hx with rfl | hmem
    · exact fun hself => hself.asymm hself
    · exact (hbefore x hmem).asymm

end Head

end History

end DatedLedger
