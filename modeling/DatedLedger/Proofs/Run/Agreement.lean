import DatedLedger.Proofs.Run.Positions
import DatedLedger.Proofs.Run.Soundness

/-!
# What holds in every store that a run reaches

As long as positions fit into signed words, a stored position is the position
itself.  Then soundness and the count of positions say about stored rows what they
say about entries: summaries name the last position, and corrections stand before
the rescinds of their dates.
-/

namespace DatedLedger

theorem natCast_unsignedWord {i : Int} (hlow : 0 ≤ i) (hhigh : i < 2 ^ 63) :
    (unsignedWord i : Int) = i := by
  rw [unsignedWord, Int.emod_eq_of_lt hlow (by omega), Int.toNat_of_nonneg hlow]

namespace Store

variable {s : Store} {key : EntityKey} {head : HeadRow} {h : History} {timeline : Timeline}

/-- The positions in a history are those of the rows of its entity. -/
theorem Reads.mem_positions_iff (hs : s.Reads key h) {p : Position} :
    p ∈ h.positions ↔ ∃ i ∈ (s.ofEntity key).positions, unsignedWord i = p := by
  rw [History.mem_positions_iff]
  constructor
  · rintro ⟨log, e, he, rfl⟩
    obtain ⟨row, hrow, hkey, hread⟩ := (hs.mem_entries_iff log).mp he
    have hmem := mem_rows_ofEntity.mpr ⟨hrow, hkey⟩
    exact ⟨row.pos, Store.mem_positions_iff.mpr ⟨log, row, hmem, rfl⟩,
      (LogRow.entry_eq_ok_iff.mp hread).2.2.1.symm⟩
  · rintro ⟨_, hi, rfl⟩
    obtain ⟨log, row, hrow, rfl⟩ := Store.mem_positions_iff.mp hi
    obtain ⟨hrow, hkey⟩ := mem_rows_ofEntity.mp hrow
    obtain ⟨e, he, hread⟩ := hs.exists_entry log hrow hkey
    exact ⟨log, e, he, (LogRow.entry_eq_ok_iff.mp hread).2.2.1⟩

/-! ## Summaries -/

theorem Counted.bounds_of_mem_ofEntity (hs : s.Counted) {i : Int}
    (hi : i ∈ (s.ofEntity key).positions) : 1 ≤ i ∧ i ≤ s.size := by
  obtain ⟨log, row, hrow, rfl⟩ := Store.mem_positions_iff.mp hi
  exact hs.bounds log (mem_rows_ofEntity.mp hrow).1

/-- The summary of an entity names the greatest position of its entries. -/
theorem Coherent.max?_positions (hs : s.Coherent key head h timeline) (hcounted : s.Counted)
    (hsize : s.size < 2 ^ 63) : (s.ofEntity key).positions.max? = some head.lastPos := by
  obtain ⟨last, hmax, hlast⟩ := hs.lastPos
  obtain ⟨hmem, hgreatest⟩ := List.max?_eq_some_iff.mp hmax
  obtain ⟨i, hi, hword⟩ := hs.reads.mem_positions_iff.mp hmem
  have hbounds := hcounted.bounds_of_mem_ofEntity hi
  have hcast := natCast_unsignedWord (i := i) (by omega) (by omega)
  have hlastPos : head.lastPos = i := by
    rw [hlast, signedWord_of_lt (by omega), ← hcast, hword]
  rw [hlastPos, List.max?_eq_some_iff]
  refine ⟨hi, ?_⟩
  intro j hj
  have hboundsj := hcounted.bounds_of_mem_ofEntity hj
  have hcastj := natCast_unsignedWord (i := j) (by omega) (by omega)
  have hle : unsignedWord j ≤ last :=
    hgreatest _ (hs.reads.mem_positions_iff.mpr ⟨j, hj, rfl⟩)
  omega

/-- In every store that a run reaches, an entity either has no rows, or it is registered once, its
logs can be replayed, its stored timeline is the one that follows from them, and its summary
gives the number of versions, their digest, and the greatest position of its entries. -/
theorem coherent_after (rs : List Request) (hsize : (empty.after rs).size < 2 ^ 63 - 1)
    (key : EntityKey) :
    (empty.after rs).ofEntity key = .empty ∨
      ∃ head h timeline, (empty.after rs).Coherent key head h timeline ∧
        ((empty.after rs).ofEntity key).positions.max? = some head.lastPos := by
  have hcounted := counted_after rs (by omega)
  rcases (sound_after rs).entities key with hempty | ⟨kind, h, -, head, timeline, -, hcoherent⟩
  · exact .inl hempty
  · exact .inr ⟨head, h, timeline, hcoherent, hcoherent.max?_positions hcounted (by omega)⟩

theorem coherent_after_sample :
    (empty.after Sample.run).size < 2 ^ 63 - 1 ∧
      ((empty.after Sample.run).ofEntity Sample.key).events ≠ [] ∧
      ((empty.after Sample.run).ofEntity Sample.key = .empty ∨
        ∃ head h timeline, (empty.after Sample.run).Coherent Sample.key head h timeline ∧
          ((empty.after Sample.run).ofEntity Sample.key).positions.max? = some head.lastPos) :=
  ⟨size_sample_lt, Sample.events_run_ne_nil, coherent_after Sample.run size_sample_lt Sample.key⟩

/-! ## Histories -/

/-- A correction stands before the rescind of its date. -/
theorem Counted.pos_lt_pos (hcounted : s.Counted) (hsound : s.Sound) (hsize : s.size < 2 ^ 63)
    (hs : s.Reads key h) {c r : Entry} (hc : c ∈ h.corrections) (hr : r ∈ h.rescinds)
    (hdate : c.date = r.date) : c.pos < r.pos := by
  obtain ⟨rowc, hrowc, hkeyc, hreadc⟩ := (hs.mem_entries_iff .corrections).mp hc
  obtain ⟨rowr, hrowr, hkeyr, hreadr⟩ := (hs.mem_entries_iff .rescinds).mp hr
  have htextc := (hsound.written .corrections rowc hrowc).date_eq hreadc
  have htextr := (hsound.written .rescinds rowr hrowr).date_eq hreadr
  have hlt : rowc.pos < rowr.pos := by
    apply hcounted.ordered rowc hrowc rowr hrowr (hkeyc.trans hkeyr.symm)
    rw [htextc, htextr, hdate]
  have hboundsc := hcounted.bounds .corrections hrowc
  have hboundsr := hcounted.bounds .rescinds hrowr
  have hcastc := natCast_unsignedWord (i := rowc.pos) (by omega) (by omega)
  have hcastr := natCast_unsignedWord (i := rowr.pos) (by omega) (by omega)
  have hwords : unsignedWord rowc.pos < unsignedWord rowr.pos := by omega
  rw [(LogRow.entry_eq_ok_iff.mp hreadc).2.2.1, (LogRow.entry_eq_ok_iff.mp hreadr).2.2.1]
  exact hwords

/-- In every store that a run reaches, the history of an entity with events is well-formed, of the
kind that the entity is registered with, and a correction of a date comes before a rescind of
that date. -/
theorem wellFormed_after (rs : List Request) (hsize : (empty.after rs).size < 2 ^ 63 - 1)
    (key : EntityKey) (hevents : ((empty.after rs).ofEntity key).events ≠ []) :
    ∃ head h, (empty.after rs).head key = .ok (some head) ∧ (empty.after rs).Reads key h ∧
      h.WellFormed head.kind ∧
      ∀ c ∈ h.corrections, ∀ r ∈ h.rescinds, c.date = r.date → c.pos < r.pos := by
  have hcounted := counted_after rs (by omega)
  have hsound := sound_after rs
  rcases hsound.entities key with hempty | ⟨kind, h, hregistered⟩
  · rw [hempty] at hevents
    exact absurd rfl hevents
  · obtain ⟨head, hhead, rfl⟩ := hregistered.exists_head
    refine ⟨head, h, hhead, hregistered.reads, hregistered.wellFormed, ?_⟩
    intro c hc r hr hdate
    exact hcounted.pos_lt_pos hsound (by omega) hregistered.reads hc hr hdate

theorem wellFormed_after_sample :
    (empty.after Sample.run).size < 2 ^ 63 - 1 ∧
      ((empty.after Sample.run).ofEntity Sample.key).events ≠ [] ∧
      ∃ head h, (empty.after Sample.run).head Sample.key = .ok (some head) ∧
        (empty.after Sample.run).Reads Sample.key h ∧ h.WellFormed head.kind ∧
        ∀ c ∈ h.corrections, ∀ r ∈ h.rescinds, c.date = r.date → c.pos < r.pos :=
  ⟨size_sample_lt, Sample.events_run_ne_nil,
    wellFormed_after Sample.run size_sample_lt Sample.key Sample.events_run_ne_nil⟩

end Store

end DatedLedger
