import DatedLedger.Proofs.Timeline.History

/-!
# A further event in a lawful history

Which rule an event breaks does not depend on the changes before it.  Where an update
has been added to a lawful history, only that update can be to blame, and the cause is
the one for which it would be refused directly after the creation of the entity.
-/

namespace DatedLedger

theorem verdict_bind_of_eq_ok {α β : Type} {r : Except LedgerError α} {a : α}
    (h : r = .ok a) (f : α → Except LedgerError β) : verdict (r >>= f) = verdict (f a) := by
  rw [h]
  rfl

/-- Where all results are given one value, only the verdict is left. -/
theorem map_const_map {α β γ : Type} (r : Except LedgerError α) (c : β) (f : β → γ) :
    (r.map fun _ => c).map f = (verdict r).map fun _ => f c := by
  cases r with
  | ok a => rfl
  | error fault => rfl

namespace Replay

variable {key : EntityKey} {corrections rescinds : List Entry} {state : State}
  {first e : Event} {later events events' : List Event}

/-- Among permitted updates an event meets the same fate as if it were alone. -/
theorem verdict_steps_append_cons (key : EntityKey) {before after : List Event}
    (hstate : state.kind.violation? state.attributes = none)
    (hpermitted : ∀ x ∈ before ++ after, x.kind = state.kind ∧ x.type = .update ∧
      state.kind.Permits (effectivePayload corrections x)) :
    verdict (steps key corrections (some state) (before ++ e :: after)) =
      verdict (apply key (some state) e (effectivePayload corrections e)) := by
  have hchecks : ∀ x ∈ before ++ after,
      verdict (apply key (some state) x (effectivePayload corrections x)) = .ok () := by
    intro x hx
    exact verdict_eq_ok_iff.mpr ((exists_apply_some_iff hstate).mpr (hpermitted x hx))
  have hbefore := forM_eq_ok_iff.mpr fun x hx => hchecks x (List.mem_append_left after hx)
  have hafter := forM_eq_ok_iff.mpr fun x hx => hchecks x (List.mem_append_right before hx)
  rw [verdict_steps_some key hstate, List.forM_append, hbefore, List.forM_cons, hafter]
  exact bind_pure (verdict (apply key (some state) e (effectivePayload corrections e)))

/-- The state in which an event creates its entity. -/
def founding (corrections : List Entry) (first : Event) : State :=
  ⟨first.kind, (effectivePayload corrections first).withoutNulls⟩

theorem verdict_steps_of_perm (key : EntityKey) (hlawful : Lawful corrections (first :: later))
    (hlater : ∀ x ∈ later, first.date < x.date)
    (hsorted : events.Pairwise fun a b => before a b) (hperm : events.Perm (e :: first :: later))
    (hdate : first.date < e.date) :
    verdict (steps key corrections none events) =
      verdict (apply key (some (founding corrections first)) e
        (effectivePayload corrections e)) := by
  obtain ⟨htype, hviolation, hpermitted⟩ := hlawful
  obtain ⟨rest, rfl, hrest⟩ := exists_eq_cons_of_perm hsorted
    (hperm.trans (.swap first e later)) (List.forall_mem_cons.mpr ⟨hdate, hlater⟩)
  obtain ⟨before, after, rfl⟩ := List.append_of_mem (hrest.mem_iff.mpr List.mem_cons_self)
  have hothers : (before ++ after).Perm later := (List.perm_middle.symm.trans hrest).cons_inv
  have hfounding : apply key none first (effectivePayload corrections first) =
      .ok (founding corrections first) :=
    apply_none_eq_ok_iff.mpr ⟨htype, hviolation, rfl⟩
  rw [steps, verdict_bind_of_eq_ok hfounding]
  refine (verdict_map _ _).trans (verdict_steps_append_cons key hviolation ?_)
  intro x hx
  obtain ⟨hkind, hupdate, hpermits⟩ := hpermitted x (hothers.mem_iff.mp hx)
  exact ⟨hkind, hupdate, hpermits⟩

theorem steps_update_first (htype : e.type = .update) (rest : List Event) :
    steps key corrections none (e :: rest) =
      .error (.invalidSequence key.entity (.updateFirst e.date)) := by
  simp [steps, apply, htype, bind, Except.bind]

/-- A further event on a date that is not rescinded counts besides those that counted before. -/
theorem perm_survivors_cons (hperm : events'.Perm (e :: events))
    (hcounts : ∀ r ∈ rescinds, r.date ≠ e.date) :
    (survivors events' rescinds).Perm (e :: survivors events rescinds) := by
  have hkept : (!isRescinded rescinds e.date) = true := by
    simpa [isRescinded] using hcounts
  have hfilter := hperm.filter fun e => !isRescinded rescinds e.date
  rw [List.filter_cons_of_pos (by exact hkept)] at hfilter
  exact ((perm_sortBy before _).trans hfilter).trans ((perm_sortBy before _).symm.cons e)

end Replay

namespace History

variable {h : History} {first e : Event} {kind : EntityKind} {events : List Event}

/-- An update after the creation of its entity meets the same fate as directly after it. -/
theorem WellFormed.verdict_add_later (hwf : h.WellFormed kind) (hfirst : h.FoundedBy first)
    (hlawful : Replay.Lawful h.corrections (Replay.survivors h.events h.rescinds))
    (hnew : ∀ x ∈ h.events, x.date ≠ e.date) (hperm : events.Perm (e :: h.events))
    (hdate : first.date < e.date) (key : EntityKey) :
    verdict (replay key events h.corrections h.rescinds) =
      verdict (Replay.apply key (some (Replay.founding h.corrections first)) e e.payload) := by
  obtain ⟨later, hsurvivors, hlater⟩ := hfirst.survivors_eq_cons
  have hadded := Replay.perm_survivors_cons hperm (hwf.counts_of_new hnew)
  rw [hsurvivors] at hlawful hadded
  have hsteps := Replay.verdict_steps_of_perm key hlawful (fun x hx => ((hlater x).mp hx).2.1)
    (Replay.pairwise_survivors events h.rescinds) hadded hdate
  rw [hwf.effectivePayload_of_new hnew] at hsteps
  exact (verdict_map _ _).trans hsteps

/-- An update before the creation of its entity is refused for coming first. -/
theorem WellFormed.replay_add_earlier (hwf : h.WellFormed kind) (hfirst : h.FoundedBy first)
    (hnew : ∀ x ∈ h.events, x.date ≠ e.date) (hperm : events.Perm (e :: h.events))
    (htype : e.type = .update) (hdate : e.date < first.date) (key : EntityKey) :
    replay key events h.corrections h.rescinds =
      .error (.invalidSequence key.entity (.updateFirst e.date)) := by
  obtain ⟨later, hsurvivors, hlater⟩ := hfirst.survivors_eq_cons
  have hadded := Replay.perm_survivors_cons hperm (hwf.counts_of_new hnew)
  rw [hsurvivors] at hadded
  obtain ⟨rest, hrest, -⟩ := Replay.exists_eq_cons_of_perm
    (Replay.pairwise_survivors events h.rescinds) hadded <| by
      refine List.forall_mem_cons.mpr ⟨hdate, ?_⟩
      intro x hx
      exact hdate.trans ((hlater x).mp hx).2.1
  rw [replay, hrest, Replay.steps_update_first htype]
  rfl

end History

end DatedLedger
