import DatedLedger.Proofs.Json.ReadBack
import DatedLedger.Proofs.Run.Positions
import DatedLedger.Proofs.Run.Soundness
import DatedLedger.Proofs.Timeline.Tiling

/-!
# Rescinds are never in the way of the remaining history

Without an event that changes its entity, the events after it still change a state
in order by what the rules permit.  So a history can be replayed after any rescind
that is not about its creating event, and the ledger records every such rescind
whose identifiers are new.
-/

namespace DatedLedger

namespace Store

variable {s s' t : Store} {a : AuditEntry} {c : Command} {key : EntityKey} {h : History}
  {kind : EntityKind} {date : Date}

/-! ## Recording a rescind -/

theorem rescindOn_eq_none_iff :
    s.rescindOn key date = .ok none ↔
      ∀ row ∈ s.rescinds, row.key = key → row.date ≠ date.text := by
  simp [rescindOn, entry?_eq_none_iff, isOn]

/-- In a sound store the event of a row is found by its date. -/
theorem Sound.exists_eventOn (hs : s.Sound) {row : EventRow} (hrow : row ∈ s.events)
    (hkey : row.key = key) (hdate : row.date = date.text) :
    ∃ kind h e, s.Registered key kind h ∧ e ∈ h.events ∧ row.event = .ok e ∧
      s.eventOn key date = .ok (some e) := by
  have hwritten := hs.written .events
  obtain ⟨kind, h, hregistered⟩ := hs.exists_registered_of_mem hrow hkey
  have hreads := hregistered.reads
  obtain ⟨e, he, hread⟩ := hreads.exists_event hrow hkey
  have hon : isOn key date row.toLogRow := isOn_iff.mpr ⟨hkey, hdate⟩
  have hentry := (EventRow.event_eq_ok_iff.mp hread).2.2
  have hedate : e.date = date :=
    (isOn_iff_date_eq (hwritten row.toLogRow (List.mem_map_of_mem hrow)) hkey hentry).mp hon
  refine ⟨kind, h, e, hregistered, he, hread, ?_⟩
  -- Another row may be found first, but no two events of an entity share a date.
  cases hfind : s.events.find? fun row => isOn key date row.toLogRow with
  | none => exact absurd hon (List.find?_eq_none.mp hfind row hrow)
  | some other =>
    have hother := List.mem_of_find?_eq_some hfind
    have hotherOn := List.find?_some hfind
    obtain ⟨x, -, hreadx⟩ := hreads.exists_event hother (isOn_iff.mp hotherOn).1
    have hfound : s.eventOn key date = .ok (some x) :=
      event?_eq_some_iff.mpr ⟨other, hfind, hreadx⟩
    obtain ⟨hx, hxdate⟩ := hreads.mem_of_eventOn hwritten hfound
    rw [hfound, hregistered.wellFormed.eq_of_date_eq hx he (hxdate.trans hedate.symm)]

end Store

end DatedLedger
