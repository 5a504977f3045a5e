import DatedLedger.Proofs.Timeline.Places

/-!
# Replay after a correction

A correction replaces the payload of one event.  Every later state changes with it,
and replay checks them all; but a state in order stays in order under what later
updates set, so that only the replaced payload itself has to be in order.
-/

namespace DatedLedger

/-- What an event of this type may set: to create an entity, attributes in order; to change one,
only what leaves a state in order. -/
def EntityKind.PermitsAs (kind : EntityKind) (type : EventType) (p : Payload) : Prop :=
  match type with
  | .create => kind.violation? p.withoutNulls = none
  | .update => kind.Permits p

namespace Replay

variable {corrections corrections' : List Entry} {c : Entry} {e : Event}

theorem effectivePayload_cons (corrections : List Entry) (c : Entry) (e : Event)
    (hnew : ∀ x ∈ corrections, x.date ≠ c.date) :
    effectivePayload (c :: corrections) e =
      if c.date = e.date then c.payload else effectivePayload corrections e := by
  rw [effectivePayload, List.reverse_cons, List.find?_append]
  by_cases hdate : c.date = e.date
  · have hnone : corrections.reverse.find? (fun x => x.date == e.date) = none := by
      simpa [← hdate] using hnew
    simp [hnone, hdate]
  · rw [if_neg hdate, effectivePayload]
    simp [hdate]

/-- A new correction gives the payload that counts for the event of its date, and the payloads of
all other events stay. -/
theorem effectivePayload_add_correction (hperm : corrections'.Perm (c :: corrections))
    (hnodup : (corrections.map fun x => x.date).Nodup) (hnew : ∀ x ∈ corrections, x.date ≠ c.date)
    (e : Event) :
    effectivePayload corrections' e =
      if c.date = e.date then c.payload else effectivePayload corrections e := by
  have hdates := History.nodup_date_cons hnodup hnew
  rw [← effectivePayload_cons corrections c e hnew]
  exact (congrFun (effectivePayload_eq_of_perm_unplaced (hperm.symm.map Entry.unplaced) hdates)
    e).symm

end Replay

namespace History

variable {h : History} {kind : EntityKind} {target : Event} {c : Entry} {corrections' : List Entry}

/-- A well-formed history can still be replayed with a correction of an event that counts exactly
when an event of that type may set the replacement. -/
theorem WellFormed.lawful_add_correction_iff (hwf : h.WellFormed kind)
    (hlawful : Replay.Lawful h.corrections (Replay.survivors h.events h.rescinds))
    (htarget : target ∈ h.events) (hdate : target.date = c.date)
    (hstands : ∀ r ∈ h.rescinds, r.date ≠ c.date) (hnew : ∀ x ∈ h.corrections, x.date ≠ c.date)
    (hperm : corrections'.Perm (c :: h.corrections)) :
    Replay.Lawful corrections' (Replay.survivors h.events h.rescinds) ↔
      kind.PermitsAs target.type c.payload := by
  obtain ⟨first, hfirst⟩ := hwf.founded
  have hkind : first.kind = kind := hwf.kinds first hfirst.mem
  have hobeys := hfirst.lawful_iff.mp hlawful
  have hpayload := Replay.effectivePayload_add_correction hperm hwf.correctionDates hnew
  have hfirst' : ({ h with corrections := corrections' } : History).FoundedBy first :=
    ⟨hfirst.type, hfirst.others, hfirst.kept⟩
  refine hfirst'.lawful_iff.trans ?_
  rcases hfirst.eq_or_later htarget with rfl | ⟨htype, hlater⟩
  · -- The creating event is corrected, and no later event is.
    rw [hfirst.type]
    constructor
    · intro hobeys'
      have hfounding := hobeys'.founding
      rw [hpayload, if_pos hdate.symm, hkind] at hfounding
      exact hfounding
    · intro hpermits
      constructor
      · rw [hpayload, if_pos hdate.symm, hkind]
        exact hpermits
      · intro e he hedate hcounts
        have hne : c.date ≠ e.date := by
          rw [← hdate]
          exact hedate.ne
        rw [hpayload, if_neg hne]
        exact hobeys.later e he hedate hcounts
  · rw [htype]
    have hcounts : ∀ r ∈ h.rescinds, r.date ≠ target.date := by
      rw [hdate]
      exact hstands
    constructor
    · intro hobeys'
      have hpermits := (hobeys'.later target htarget hlater hcounts).2
      rw [hpayload, if_pos hdate.symm, hkind] at hpermits
      exact hpermits
    · intro hpermits
      constructor
      · have hne : c.date ≠ first.date := by
          rw [← hdate]
          exact hlater.ne'
        rw [hpayload, if_neg hne]
        exact hobeys.founding
      · intro e he hedate hstandse
        by_cases hcorrected : c.date = e.date
        · rw [hpayload, if_pos hcorrected, hkind]
          exact ⟨hwf.kinds e he, hpermits⟩
        · rw [hpayload, if_neg hcorrected]
          exact hobeys.later e he hedate hstandse

end History

end DatedLedger
