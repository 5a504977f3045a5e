import DatedLedger.Proofs.Store.Rows
import DatedLedger.Proofs.Store.Sessions
import DatedLedger.Proofs.Timeline.Tiling

/-!
# The rows of one entity

What the ledger knows about an entity depends on the rows of that entity alone, and
an operation on one entity leaves the rows of all others in place.  A mutation
consists of two changes of the store: an entry is added to its log, and the stored
timeline of its entity is replaced by the one that now follows from the logs.
-/

namespace DatedLedger

namespace Store

/-- The rows of the entities that are selected. -/
def restrict (s : Store) (p : EntityKey → Bool) : Store where
  events := s.events.filter fun row => p row.key
  corrections := s.corrections.filter fun row => p row.key
  rescinds := s.rescinds.filter fun row => p row.key
  heads := s.heads.filter fun row => p row.key
  versions := s.versions.filter fun row => p row.key

/-- The rows of one entity. -/
def ofEntity (s : Store) (key : EntityKey) : Store where
  events := s.events.filter fun row => row.key == key
  corrections := s.corrections.filter fun row => row.key == key
  rescinds := s.rescinds.filter fun row => row.key == key
  heads := s.heads.filter fun row => row.key == key
  versions := s.versions.filter fun row => row.key == key

theorem mem_events_ofEntity {s : Store} {key : EntityKey} {row : EventRow} :
    row ∈ (s.ofEntity key).events ↔ row ∈ s.events ∧ row.key = key := by
  simp [ofEntity]

theorem mem_corrections_ofEntity {s : Store} {key : EntityKey} {row : LogRow} :
    row ∈ (s.ofEntity key).corrections ↔ row ∈ s.corrections ∧ row.key = key := by
  simp [ofEntity]

theorem mem_rescinds_ofEntity {s : Store} {key : EntityKey} {row : LogRow} :
    row ∈ (s.ofEntity key).rescinds ↔ row ∈ s.rescinds ∧ row.key = key := by
  simp [ofEntity]

theorem mem_heads_ofEntity {s : Store} {key : EntityKey} {row : HeadRow} :
    row ∈ (s.ofEntity key).heads ↔ row ∈ s.heads ∧ row.key = key := by
  simp [ofEntity]

theorem mem_rows_ofEntity {s : Store} {key : EntityKey} {log : Log} {row : LogRow} :
    row ∈ (s.ofEntity key).rows log ↔ row ∈ s.rows log ∧ row.key = key := by
  cases log with
  | events =>
    simp only [rows, List.mem_map, mem_events_ofEntity]
    constructor
    · rintro ⟨r, ⟨hr, hkey⟩, rfl⟩
      exact ⟨⟨r, hr, rfl⟩, hkey⟩
    · rintro ⟨⟨r, hr, rfl⟩, hkey⟩
      exact ⟨r, ⟨hr, hkey⟩, rfl⟩
  | corrections => exact mem_corrections_ofEntity
  | rescinds => exact mem_rescinds_ofEntity

section Congruence

variable {s t : Store} {key : EntityKey}

theorem eventsOf_congr (h : (s.ofEntity key).events = (t.ofEntity key).events) :
    s.eventsOf key = t.eventsOf key :=
  congrArg (fun rows => readAll EventRow.event (sortBy byDate rows)) h

theorem correctionsOf_congr
    (h : (s.ofEntity key).corrections = (t.ofEntity key).corrections) :
    s.correctionsOf key = t.correctionsOf key :=
  congrArg (fun rows => readAll LogRow.entry (sortBy byPosition rows)) h

theorem rescindsOf_congr (h : (s.ofEntity key).rescinds = (t.ofEntity key).rescinds) :
    s.rescindsOf key = t.rescindsOf key :=
  congrArg (fun rows => readAll LogRow.entry (sortBy byPosition rows)) h

theorem replayEntity_congr (h : s.ofEntity key = t.ofEntity key) :
    s.replayEntity key = t.replayEntity key := by
  rw [replayEntity, replayEntity, eventsOf_congr (congrArg Store.events h),
    correctionsOf_congr (congrArg Store.corrections h),
    rescindsOf_congr (congrArg Store.rescinds h)]

end Congruence

/-! ## Adding an entry -/

/-- The store with one more entry in the log it belongs to. -/
def add (s : Store) : AuditEntry → Store
  | .event e => { s with events := s.events ++ [e.row] }
  | .correction e => { s with corrections := s.corrections ++ [e.row] }
  | .rescind e => { s with rescinds := s.rescinds ++ [e.row] }

theorem add_heads (s : Store) (a : AuditEntry) : (s.add a).heads = s.heads := by
  cases a <;> rfl

theorem rows_add (s : Store) (a : AuditEntry) (log : Log) :
    (s.add a).rows log = if log = a.log then s.rows log ++ [a.entry.row] else s.rows log := by
  cases a <;> cases log <;> simp [add, rows, AuditEntry.log, AuditEntry.entry, Event.row]

section Restriction

variable {s : Store} {a : AuditEntry} {p q : EntityKey → Bool}

theorem ofEntity_eq_restrict (s : Store) (key : EntityKey) :
    s.ofEntity key = s.restrict fun k => k == key := rfl

theorem restrict_restrict (h : ∀ key, q key → p key) :
    (s.restrict p).restrict q = s.restrict q := by
  have hfilter : ∀ {ρ : Type} (key : ρ → EntityKey) (rows : List ρ),
      (rows.filter fun row => p (key row)).filter (fun row => q (key row)) =
        rows.filter fun row => q (key row) := by
    intro ρ key rows
    rw [List.filter_filter]
    apply List.filter_congr
    intro row _
    cases hq : q (key row) with
    | false => rfl
    | true => exact h (key row) hq
  simp only [restrict, hfilter]

theorem restrict_add_of_not (h : ¬p a.entry.key) : (s.add a).restrict p = s.restrict p := by
  cases a with
  | event e =>
    have hrow : ¬p e.row.key := h
    simp [add, restrict, List.filter_append, hrow]
  | correction e =>
    have hrow : ¬p e.row.key := h
    simp [add, restrict, List.filter_append, hrow]
  | rescind e =>
    have hrow : ¬p e.row.key := h
    simp [add, restrict, List.filter_append, hrow]

theorem restrict_add (h : p a.entry.key) : (s.add a).restrict p = (s.restrict p).add a := by
  cases a with
  | event e =>
    have hrow : p e.row.key := h
    simp [add, restrict, List.filter_append, hrow]
  | correction e =>
    have hrow : p e.row.key := h
    simp [add, restrict, List.filter_append, hrow]
  | rescind e =>
    have hrow : p e.row.key := h
    simp [add, restrict, List.filter_append, hrow]

theorem restrict_register_of_not {row : HeadRow} (h : ¬p row.key) :
    ({ s with heads := s.heads ++ [row] } : Store).restrict p = s.restrict p := by
  simp [restrict, List.filter_append, h]

theorem restrict_register {row : HeadRow} (h : p row.key) :
    ({ s with heads := s.heads ++ [row] } : Store).restrict p =
      { s.restrict p with heads := (s.restrict p).heads ++ [row] } := by
  simp [restrict, List.filter_append, h]

end Restriction

theorem ofEntity_add_of_ne {s : Store} {a : AuditEntry} {key : EntityKey}
    (h : a.entry.key ≠ key) : (s.add a).ofEntity key = s.ofEntity key :=
  restrict_add_of_not (p := fun k => k == key) (mt beq_iff_eq.mp h)

theorem ofEntity_add {s : Store} {a : AuditEntry} :
    (s.add a).ofEntity a.entry.key = (s.ofEntity a.entry.key).add a :=
  restrict_add (p := fun k => k == a.entry.key) (beq_self_eq_true a.entry.key)

end Store

/-! ## Replacing the stored timeline -/

/-- The row of an entity in the registry with the summary of a timeline. -/
def HeadRow.summarised (row : HeadRow) (timeline : Timeline) (last : Option Position) :
    HeadRow :=
  { row with
    versionCount := timeline.length
    digest := timeline.digest
    lastPos := match last with
      | some pos => signedWord pos
      | none => row.lastPos }

namespace Store

/-- The store with another stored timeline of an entity, and the summary of that timeline. -/
def materialize (s : Store) (key : EntityKey) (timeline : Timeline) (last : Option Position) :
    Store :=
  { s with
    versions := (s.versions.filter fun row => row.key != key) ++ timeline.map Version.row
    heads := s.heads.map fun row => if row.key = key then row.summarised timeline last else row }

theorem rows_materialize (s : Store) (key : EntityKey) (timeline : Timeline)
    (last : Option Position) (log : Log) :
    (s.materialize key timeline last).rows log = s.rows log := by
  cases log <;> rfl

section Restriction

variable {s : Store} {key other : EntityKey} {timeline : Timeline} {last : Option Position}
  {p : EntityKey → Bool}

theorem heads_restrict_materialize (s : Store) (key : EntityKey) (timeline : Timeline)
    (last : Option Position) (p : EntityKey → Bool) :
    ((s.materialize key timeline last).restrict p).heads =
      (s.restrict p).heads.map fun row =>
        if row.key = key then row.summarised timeline last else row := by
  simp only [restrict, materialize, List.filter_map]
  congr 1
  apply List.filter_congr
  intro row _
  by_cases hrow : row.key = key
  · simp [hrow, HeadRow.summarised]
  · simp [hrow]

theorem restrict_materialize_of_not (hkeys : ∀ v ∈ timeline, v.key = key) (h : ¬p key) :
    (s.materialize key timeline last).restrict p = s.restrict p := by
  have hheads : ((s.materialize key timeline last).restrict p).heads = (s.restrict p).heads := by
    rw [heads_restrict_materialize]
    refine (List.map_congr_left fun row hrow => ?_).trans (List.map_id _)
    refine if_neg fun hkey => h ?_
    rw [← hkey]
    exact (List.mem_filter.mp hrow).2
  have hversions : ((s.materialize key timeline last).restrict p).versions =
      (s.restrict p).versions := by
    simp only [restrict, materialize, List.filter_append, List.filter_filter]
    have hnew : (timeline.map Version.row).filter (fun row => p row.key) = [] := by
      rw [List.filter_eq_nil_iff]
      intro row hrow
      obtain ⟨v, hv, rfl⟩ := List.mem_map.mp hrow
      have hkey : v.row.key = key := hkeys v hv
      rwa [hkey]
    rw [hnew, List.append_nil]
    apply List.filter_congr
    intro row _
    by_cases hrow : row.key = key
    · simp [hrow, h]
    · simp [hrow]
  rw [restrict] at hheads hversions ⊢
  rw [restrict] at hheads hversions ⊢
  simp only at hheads hversions
  rw [hheads, hversions]
  rfl

theorem restrict_materialize (hkeys : ∀ v ∈ timeline, v.key = key) (h : p key) :
    (s.materialize key timeline last).restrict p =
      (s.restrict p).materialize key timeline last := by
  have hheads := heads_restrict_materialize s key timeline last p
  have hversions : ((s.materialize key timeline last).restrict p).versions =
      ((s.restrict p).materialize key timeline last).versions := by
    simp only [restrict, materialize, List.filter_append, List.filter_filter]
    have hnew : (timeline.map Version.row).filter (fun row => p row.key) =
        timeline.map Version.row := by
      rw [List.filter_eq_self]
      intro row hrow
      obtain ⟨v, hv, rfl⟩ := List.mem_map.mp hrow
      have hkey : v.row.key = key := hkeys v hv
      rwa [hkey]
    rw [hnew]
    congr 1
    apply List.filter_congr
    intro row _
    exact Bool.and_comm _ _
  rw [restrict] at hheads hversions ⊢
  simp only at hheads hversions
  rw [hheads, hversions]
  rfl

theorem ofEntity_materialize_of_ne (hkeys : ∀ v ∈ timeline, v.key = key) (h : key ≠ other) :
    (s.materialize key timeline last).ofEntity other = s.ofEntity other :=
  restrict_materialize_of_not (p := fun k => k == other) hkeys (mt beq_iff_eq.mp h)

theorem ofEntity_materialize (hkeys : ∀ v ∈ timeline, v.key = key) :
    (s.materialize key timeline last).ofEntity key =
      (s.ofEntity key).materialize key timeline last :=
  restrict_materialize (p := fun k => k == key) hkeys (beq_self_eq_true key)

theorem versions_ofEntity_materialize (hkeys : ∀ v ∈ timeline, v.key = key) :
    ((s.materialize key timeline last).ofEntity key).versions = timeline.map Version.row := by
  rw [ofEntity_materialize hkeys]
  have hold : (s.ofEntity key).versions.filter (fun row => row.key != key) = [] := by
    rw [List.filter_eq_nil_iff]
    intro row hrow
    have hkey := List.mem_filter.mp hrow
    simpa using hkey.2
  rw [materialize, hold, List.nil_append]

theorem heads_ofEntity_materialize (s : Store) (key : EntityKey) (timeline : Timeline)
    (last : Option Position) :
    ((s.materialize key timeline last).ofEntity key).heads =
      (s.ofEntity key).heads.map fun row => row.summarised timeline last := by
  rw [ofEntity_eq_restrict, heads_restrict_materialize]
  apply List.map_congr_left
  intro row hrow
  exact if_pos (mem_heads_ofEntity.mp hrow).2

end Restriction

/-- The logs of an entity can be read, and hold this history. -/
structure Reads (s : Store) (key : EntityKey) (h : History) : Prop where
  events : s.eventsOf key = .ok h.events
  corrections : s.correctionsOf key = .ok h.corrections
  rescinds : s.rescindsOf key = .ok h.rescinds

theorem replayEntity_eq_ok_iff {s : Store} {key : EntityKey} {timeline : Timeline}
    {last : Option Position} :
    s.replayEntity key = .ok (timeline, last) ↔
      ∃ h, s.Reads key h ∧ replay key h.events h.corrections h.rescinds = .ok timeline ∧
        last = h.positions.max? := by
  constructor
  · intro hreplay
    rw [replayEntity] at hreplay
    cases hevents : s.eventsOf key with
    | error e => simp [bind, Except.bind, hevents] at hreplay
    | ok events =>
      cases hcorrections : s.correctionsOf key with
      | error e => simp [bind, Except.bind, hevents, hcorrections] at hreplay
      | ok corrections =>
        cases hrescinds : s.rescindsOf key with
        | error e => simp [bind, Except.bind, hevents, hcorrections, hrescinds] at hreplay
        | ok rescinds =>
          cases h : replay key events corrections rescinds with
          | error e => simp [bind, Except.bind, hevents, hcorrections, hrescinds, h] at hreplay
          | ok t =>
            simp only [bind, Except.bind, hevents, hcorrections, hrescinds, h, Except.ok.injEq,
              Prod.mk.injEq] at hreplay
            obtain ⟨rfl, rfl⟩ := hreplay
            exact ⟨⟨events, corrections, rescinds⟩, ⟨hevents, hcorrections, hrescinds⟩, h, rfl⟩
  · rintro ⟨h, hreads, hreplay, rfl⟩
    simp only [replayEntity, bind, Except.bind, hreads.events, hreads.corrections,
      hreads.rescinds, hreplay, History.positions]

end Store

namespace Session

/-- Storing a timeline anew succeeds when the logs have one, whose numbers do not repeat. -/
theorem rematerialize_eq_ok_iff {key : EntityKey} {s s' : Store} {timeline : Timeline} :
    rematerialize key s = .ok timeline s' ↔
      ∃ last, s.replayEntity key = .ok (timeline, last) ∧
        s' = s.materialize key timeline last := by
  simp only [rematerialize, bind_eq_ok_iff, read_eq_ok_iff, deleteVersions, modify_eq_ok_iff,
    forM_insertVersion_eq_ok_iff, summarise, updateHead, pure_eq_ok_iff]
  constructor
  · rintro ⟨⟨fresh, last⟩, t, ⟨hreplay, rfl⟩, _, _, rfl, _, _, ⟨-, -, rfl⟩, _, _, rfl, rfl, rfl⟩
    exact ⟨last, hreplay, rfl⟩
  · rintro ⟨last, hreplay, rfl⟩
    obtain ⟨h, -, hfresh, -⟩ := Store.replayEntity_eq_ok_iff.mp hreplay
    refine ⟨(timeline, last), s, ⟨hreplay, rfl⟩, (), _, rfl, (), _, ⟨?_, ?_, rfl⟩, (), _, rfl, rfl,
      rfl⟩
    · have hnodup := nodup_seqNo_replay hfresh
      rw [List.Nodup, List.pairwise_map] at hnodup
      apply hnodup.imp
      intro v w hvw h
      exact hvw (Int.ofNat_inj.mp h.2).symm
    · intro v hv r hr h
      have hkey : r.key = key := by
        rw [← h.1]
        exact key_of_mem_replay hfresh hv
      simp [hkey] at hr

end Session

end DatedLedger
