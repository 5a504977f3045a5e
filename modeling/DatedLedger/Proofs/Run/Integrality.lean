import DatedLedger.Proofs.Run.Requests
import DatedLedger.Proofs.Timeline.Attributes

/-!
# Runs of integral requests

The text of an integral payload is read as that payload.  When all requests of a run
carry integral payloads, the logs hold the texts of such payloads only, every entry
comes back with its payload, and so every version that follows from the logs comes
back as it was stored.
-/

namespace DatedLedger

/-- The payload of the request, if it has one, is integral. -/
def Request.Integral : Request → Prop
  | submit c _ => c.payload.Integral
  | correct c _ => c.payload.Integral
  | rescind c _ => c.payload.Integral
  | rebuild _ => True

namespace Store

variable {s t : Store} {key : EntityKey} {h : History} {a : AuditEntry}

/-- Every entry of the logs holds the text of an integral payload. -/
def Integral (s : Store) : Prop :=
  ∀ log, ∀ row ∈ s.rows log, ∃ p : Payload, p.Integral ∧ row.payload = p.text

theorem integral_empty : empty.Integral := by
  intro log row hrow
  cases log <;> simp [rows, empty] at hrow

theorem Integral.of_rows_eq (hs : s.Integral) (hrows : ∀ log, t.rows log = s.rows log) :
    t.Integral := by
  intro log row hrow
  rw [hrows] at hrow
  exact hs log row hrow

theorem Integral.records (hs : s.Integral) (hrec : s.Records a t)
    (ha : a.entry.payload.Integral) : t.Integral := by
  intro log row hrow
  rw [hrec.rows_eq] at hrow
  split at hrow
  · rcases List.mem_append.mp hrow with hrow | hrow
    · exact hs log row hrow
    · rw [List.mem_singleton.mp hrow]
      exact ⟨a.entry.payload, ha, rfl⟩
  · exact hs log row hrow

theorem Integral.run (hs : s.Integral) {r : Request} (hr : r.Integral) : (r.run s).Integral := by
  have heffect := r.effect_run s
  generalize r.run s = s' at heffect ⊢
  cases heffect with
  | none r => exact hs
  | repeated ht hon => exact hs.of_rows_eq ht.rows_eq
  | event ht hfree hrec => exact (hs.of_rows_eq ht.rows_eq).records hrec hr
  | correction hon hstands hfree hrec => exact hs.records hrec hr
  | rescind hon htype hfree hrec => exact hs.records hrec hr
  | timeline hhead hreplay => exact hs.of_rows_eq (s.rows_materialize _ _ _)

theorem integral_after {rs : List Request} (hrs : ∀ r ∈ rs, r.Integral) :
    (empty.after rs).Integral :=
  after_induction_of integral_empty (fun _ _ hr ht => ht.run hr) hrs

theorem Integral.of_mem_entries (hs : s.Integral) (hreads : s.Reads key h) (log : Log) {e : Entry}
    (he : e ∈ h.entries log) : e.payload.Integral := by
  obtain ⟨row, hrow, -, hread⟩ := (hreads.mem_entries_iff log).mp he
  obtain ⟨p, hp, htext⟩ := hs log row hrow
  have hparse := (LogRow.entry_eq_ok_iff.mp hread).2.1
  rw [htext, Payload.parse_text hp.steady] at hparse
  rw [← Except.ok.inj hparse]
  exact hp

/-- In a store with integral logs the versions that follow from the logs come back as stored. -/
theorem Integral.version_row (hs : s.Integral) (hreads : s.Reads key h) {timeline : Timeline}
    (hreplay : replay key h.events h.corrections h.rescinds = .ok timeline) {v : Version}
    (hv : v ∈ timeline) : v.row.version = .ok v := by
  refine version_row_of_mem_replay hreplay ?_ ?_ hv
  · intro e he
    exact (hs.of_mem_entries hreads .events (List.mem_map_of_mem he)).steady
  · intro c hc
    exact (hs.of_mem_entries hreads .corrections hc).steady

end Store

end DatedLedger
