import DatedLedger.Proofs.Timeline.Tiling

/-!
# Timelines without places

An entry has a place in the log: its position, and the time at which it was
recorded.  Replay reads positions only to order events of one date, and times not
at all.  Where no two events and no two corrections share a date, the timeline
therefore depends neither on the places of the entries nor on the order in which
they are listed.  Where events of one date differ in their positions, it still does
not depend on the order in which they are listed.
-/

namespace DatedLedger

/-- An event without its place. -/
def Event.unplaced (e : Event) : Event :=
  { e with pos := 0, recordedMs := 0 }

/-- An entry without its place. -/
def Entry.unplaced (e : Entry) : Entry :=
  { e with pos := 0, recordedMs := 0 }

/-- An entry of some log without its place. -/
def AuditEntry.unplaced : AuditEntry → AuditEntry
  | event e => event e.unplaced
  | correction e => correction e.unplaced
  | rescind e => rescind e.unplaced

/-- A history without the places of its entries. -/
def History.unplaced (h : History) : History where
  events := h.events.map Event.unplaced
  corrections := h.corrections.map Entry.unplaced
  rescinds := h.rescinds.map Entry.unplaced

theorem History.Perm.unplaced {h h' : History} (hperm : h'.Perm h) :
    h'.unplaced.Perm h.unplaced :=
  ⟨hperm.events.map _, hperm.corrections.map _, hperm.rescinds.map _⟩

namespace Replay

variable {events events' : List Event}

theorem steps_map_unplaced (key : EntityKey) (corrections : List Entry) (current : Option State)
    (events : List Event) :
    steps key corrections current (events.map Event.unplaced) =
      steps key corrections current events := by
  induction events generalizing current with
  | nil => rfl
  | cons e rest ih =>
    have happly : apply key current e.unplaced (effectivePayload corrections e.unplaced) =
        apply key current e (effectivePayload corrections e) := rfl
    rw [List.map_cons, steps, steps, happly]
    simp only [ih, Event.unplaced]

theorem filter_map_unplaced (events : List Event) (rescinds : List Entry) :
    (events.map Event.unplaced).filter (fun e => !isRescinded rescinds e.date) =
      (events.filter fun e => !isRescinded rescinds e.date).map Event.unplaced :=
  List.filter_map

/-- The same events in other places count in the same order, as long as no two share a date. -/
theorem map_unplaced_survivors_eq
    (hperm : (events.map Event.unplaced).Perm (events'.map Event.unplaced))
    (hnodup : (events.map fun e => e.date).Nodup) (rescinds : List Entry) :
    (survivors events rescinds).map Event.unplaced =
      (survivors events' rescinds).map Event.unplaced := by
  have hsurvivors : ∀ es : List Event, ((survivors es rescinds).map Event.unplaced).Perm
      ((es.map Event.unplaced).filter fun e => !isRescinded rescinds e.date) := by
    intro es
    rw [filter_map_unplaced]
    exact (perm_sortBy before _).map Event.unplaced
  have hsorted : ∀ es : List Event, ((survivors es rescinds).map Event.unplaced).Pairwise
      fun a b => a.date ≤ b.date := by
    intro es
    rw [List.pairwise_map]
    exact pairwise_date_le_survivors es rescinds
  have hsame := ((hsurvivors events).trans (hperm.filter _)).trans (hsurvivors events').symm
  refine hsame.eq_of_pairwise ?_ (hsorted events) (hsorted events')
  -- Both events are among the first ones, where a date determines its event.
  intro a b ha hb hab hba
  have hmem : ∀ x ∈ (survivors events rescinds).map Event.unplaced,
      x ∈ events.map Event.unplaced := fun x hx =>
    (List.mem_filter.mp ((hsurvivors events).mem_iff.mp hx)).1
  have hdates : ((events.map Event.unplaced).map fun e => e.date).Nodup := by
    rw [List.map_map]
    exact hnodup
  exact List.inj_on_of_nodup_map hdates (hmem a ha) (hmem b (hsame.mem_iff.mpr hb))
    (le_antisymm hab hba)

end Replay

/-- Neither the places of events nor the order in which they are listed changes a timeline, as
long as no two events share a date. -/
theorem replay_eq_of_perm_unplaced {events events' : List Event}
    (hperm : (events.map Event.unplaced).Perm (events'.map Event.unplaced))
    (hnodup : (events.map fun e => e.date).Nodup) (key : EntityKey)
    (corrections rescinds : List Entry) :
    replay key events corrections rescinds = replay key events' corrections rescinds := by
  have hsteps : Replay.steps key corrections none (Replay.survivors events rescinds) =
      Replay.steps key corrections none (Replay.survivors events' rescinds) := by
    rw [← Replay.steps_map_unplaced, Replay.map_unplaced_survivors_eq hperm hnodup,
      Replay.steps_map_unplaced]
  rw [replay, replay, hsteps]

namespace Replay

variable {corrections corrections' rescinds rescinds' : List Entry}

theorem isRescinded_map_unplaced (rescinds : List Entry) :
    isRescinded (rescinds.map Entry.unplaced) = isRescinded rescinds := by
  funext date
  rw [isRescinded, List.any_map]
  rfl

theorem isRescinded_eq_of_perm_unplaced
    (hperm : (rescinds.map Entry.unplaced).Perm (rescinds'.map Entry.unplaced)) :
    isRescinded rescinds = isRescinded rescinds' := by
  rw [← isRescinded_map_unplaced rescinds, ← isRescinded_map_unplaced rescinds']
  funext date
  exact hperm.any_eq

theorem effectivePayload_map_unplaced (corrections : List Entry) :
    effectivePayload (corrections.map Entry.unplaced) = effectivePayload corrections := by
  funext e
  have hdate : (fun c : Entry => c.date == e.date) ∘ Entry.unplaced =
      fun c => c.date == e.date := rfl
  rw [effectivePayload, effectivePayload, ← List.map_reverse, List.find?_map, hdate]
  cases corrections.reverse.find? fun c => c.date == e.date with
  | none => rfl
  | some c => rfl

theorem effectivePayload_eq_of_perm_unplaced
    (hperm : (corrections.map Entry.unplaced).Perm (corrections'.map Entry.unplaced))
    (hnodup : (corrections.map fun c => c.date).Nodup) :
    effectivePayload corrections = effectivePayload corrections' := by
  rw [← effectivePayload_map_unplaced corrections, ← effectivePayload_map_unplaced corrections']
  funext e
  -- At most one correction is about the date, so the last one is the only one.
  have halone : (corrections.map Entry.unplaced).reverse.Pairwise fun a b =>
      (a.date == e.date) = true → ¬(b.date == e.date) = true := by
    rw [List.Nodup, List.pairwise_map] at hnodup
    rw [List.pairwise_reverse, List.pairwise_map]
    apply hnodup.imp
    intro a b hab hb ha
    exact hab ((beq_iff_eq.mp ha).trans (beq_iff_eq.mp hb).symm)
  have hreverse := ((List.reverse_perm _).trans hperm).trans (List.reverse_perm _).symm
  rw [effectivePayload, effectivePayload, find?_eq_of_perm halone hreverse]

end Replay

/-- Of corrections and rescinds only the payloads and dates that they give matter. -/
theorem replay_congr {corrections corrections' rescinds rescinds' : List Entry}
    (hpayload : Replay.effectivePayload corrections = Replay.effectivePayload corrections')
    (hrescinded : Replay.isRescinded rescinds = Replay.isRescinded rescinds') (key : EntityKey)
    (events : List Event) :
    replay key events corrections rescinds = replay key events corrections' rescinds' := by
  rw [replay, replay, Replay.survivors, hrescinded, ← Replay.survivors,
    Replay.steps_congr fun e _ => congrFun hpayload e]

/-- Histories that differ only in the places and the order of their entries have the same
timeline, as long as no two events and no two corrections share a date. -/
theorem replay_eq_of_unplaced_perm {h h' : History} (hperm : h.unplaced.Perm h'.unplaced)
    (hevents : (h.events.map fun e => e.date).Nodup)
    (hcorrections : (h.corrections.map fun c => c.date).Nodup) (key : EntityKey) :
    replay key h.events h.corrections h.rescinds =
      replay key h'.events h'.corrections h'.rescinds :=
  (replay_eq_of_perm_unplaced hperm.events hevents key _ _).trans
    (replay_congr (Replay.effectivePayload_eq_of_perm_unplaced hperm.corrections hcorrections)
      (Replay.isRescinded_eq_of_perm_unplaced hperm.rescinds) key h'.events)

/-- Events that differ in their positions count in the same order, however they are listed. -/
theorem Replay.survivors_eq_of_perm {events events' : List Event} (hperm : events.Perm events')
    (hpos : (events.map fun e => e.pos).Nodup) (rescinds : List Entry) :
    survivors events rescinds = survivors events' rescinds := by
  refine sortBy_eq_of_perm before_total (fun _ _ _ => before_trans) ?_ (hperm.filter _)
  intro a ha b hb hab hba
  have hle : a.pos ≤ b.pos ∧ b.pos ≤ a.pos := by
    rcases before_iff.mp hab with hlt | ⟨hdate, hle⟩
    · rcases before_iff.mp hba with hlt' | ⟨hdate', -⟩
      · exact absurd hlt' (lt_asymm hlt)
      · exact absurd hdate' hlt.ne'
    · rcases before_iff.mp hba with hlt' | ⟨-, hle'⟩
      · exact absurd hdate hlt'.ne'
      · exact ⟨hle, hle'⟩
  exact List.inj_on_of_nodup_map hpos (List.mem_filter.mp ha).1 (List.mem_filter.mp hb).1
    (Nat.le_antisymm hle.1 hle.2)

/-- A replay does not depend on the order in which the entries of the three logs are listed, as long
as no two events have the same position and no two corrections the same date.  Where no two events
share a date, it does not depend on any of the positions either. -/
theorem replay_eq_of_reordered (h : History) (key : EntityKey) :
    ((h.events.map fun e => e.pos).Nodup → (h.corrections.map fun c => c.date).Nodup →
      ∀ h' : History, h.Perm h' →
        replay key h'.events h'.corrections h'.rescinds =
          replay key h.events h.corrections h.rescinds) ∧
    ((h.events.map fun e => e.date).Nodup →
      ∀ h' : History, h'.unplaced = h.unplaced →
        replay key h'.events h'.corrections h'.rescinds =
          replay key h.events h.corrections h.rescinds) := by
  constructor
  · intro hpos hcorrections h' hperm
    have hpayload :=
      Replay.effectivePayload_eq_of_perm_unplaced hperm.unplaced.corrections hcorrections
    have hrescinded := Replay.isRescinded_eq_of_perm_unplaced hperm.unplaced.rescinds
    rw [← replay_congr hpayload hrescinded, replay, replay,
      Replay.survivors_eq_of_perm hperm.events hpos]
  · intro hdates h' hsame
    obtain ⟨hevents, hcorrections, hrescinds⟩ := History.mk.inj hsame
    have hpayload : Replay.effectivePayload h.corrections =
        Replay.effectivePayload h'.corrections := by
      rw [← Replay.effectivePayload_map_unplaced h.corrections, ← hcorrections,
        Replay.effectivePayload_map_unplaced]
    have hrescinded := Replay.isRescinded_eq_of_perm_unplaced (.of_eq hrescinds.symm)
    rw [replay_eq_of_perm_unplaced (.of_eq hevents.symm) hdates, replay_congr hpayload hrescinded]

/-- The sample is replayed alike from back to front and, without one of the two events that share a
date, with all positions taken away. -/
theorem replay_eq_of_reordered_sample :
    replay ⟨"acme", "desk-7"⟩ Sample.history.events.reverse Sample.history.corrections.reverse
        Sample.history.rescinds.reverse =
      replay ⟨"acme", "desk-7"⟩ Sample.history.events Sample.history.corrections
        Sample.history.rescinds ∧
    replay ⟨"acme", "desk-7"⟩ ((Sample.history.events.take 3).map Event.unplaced)
        (Sample.history.corrections.map Entry.unplaced)
        (Sample.history.rescinds.map Entry.unplaced) =
      replay ⟨"acme", "desk-7"⟩ (Sample.history.events.take 3) Sample.history.corrections
        Sample.history.rescinds := by
  constructor
  · exact (replay_eq_of_reordered Sample.history ⟨"acme", "desk-7"⟩).1 (by decide) (by decide)
      ⟨Sample.history.events.reverse, Sample.history.corrections.reverse,
        Sample.history.rescinds.reverse⟩
      ⟨(List.reverse_perm _).symm, (List.reverse_perm _).symm, (List.reverse_perm _).symm⟩
  · let h : History := { Sample.history with events := Sample.history.events.take 3 }
    exact (replay_eq_of_reordered h ⟨"acme", "desk-7"⟩).2 (by decide) h.unplaced rfl

end DatedLedger
