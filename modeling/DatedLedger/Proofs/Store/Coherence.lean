import DatedLedger.Proofs.Store.Mutations

/-!
# Agreement of logs, registry and timelines

What stands in the registry and in the stored timelines follows from the logs.  A
store is sound when that holds for each entity, the logs form a well-formed
history, and every row of a log was written by the ledger.  Recording an entry
leaves all this in place, given that the history of its entity stays well-formed.
-/

namespace DatedLedger

/-- An entry as it comes back from its log. -/
def AuditEntry.stored : AuditEntry → Payload → AuditEntry
  | .event e, p => .event (e.stored p)
  | .correction e, p => .correction (e.stored p)
  | .rescind e, p => .rescind (e.stored p)

theorem HeadRow.head_eq_ok_iff {row : HeadRow} {head : Head} :
    row.head = .ok head ↔ row.kind = head.kind.name ∧ head.owningKey = row.owningKey ∧
      head.versionCount = (row.versionCount % 2 ^ 32).toNat ∧ head.digest = row.digest ∧
      head.lastPos = unsignedWord row.lastPos := by
  obtain ⟨kind, owningKey, versionCount, digest, lastPos⟩ := head
  rw [← readKind_eq_ok_iff, HeadRow.head]
  cases hkind : readKind row.kind with
  | error f => simp [bind, Except.bind]
  | ok k =>
    simp only [bind, Except.bind, Except.ok.injEq, Head.mk.injEq]
    grind

/-- A row of the registry with the name of a kind can be read. -/
theorem HeadRow.exists_head_eq_ok {row : HeadRow} {kind : EntityKind}
    (hkind : row.kind = kind.name) :
    ∃ head, row.head = .ok head ∧ head.kind = kind ∧ head.owningKey = row.owningKey :=
  ⟨⟨kind, row.owningKey, _, _, _⟩, head_eq_ok_iff.mpr ⟨hkind, rfl, rfl, rfl, rfl⟩, rfl, rfl⟩

namespace Store

variable {s s' t : Store} {key : EntityKey} {head : HeadRow} {h h' : History} {kind : EntityKind}
  {timeline : Timeline} {a : AuditEntry} {p : Payload} {date : Date}

/-! ## Reading the logs of an entity -/

theorem Reads.eq (hs : s.Reads key h) (hs' : s.Reads key h') : h = h' := by
  have hevents := Except.ok.inj (hs.events.symm.trans hs'.events)
  have hcorrections := Except.ok.inj (hs.corrections.symm.trans hs'.corrections)
  have hrescinds := Except.ok.inj (hs.rescinds.symm.trans hs'.rescinds)
  cases h
  cases h'
  simp only at hevents hcorrections hrescinds
  rw [hevents, hcorrections, hrescinds]

theorem Reads.congr (hs : s.Reads key h) (hentity : s.ofEntity key = t.ofEntity key) :
    t.Reads key h where
  events := (eventsOf_congr (congrArg Store.events hentity)).symm.trans hs.events
  corrections :=
    (correctionsOf_congr (congrArg Store.corrections hentity)).symm.trans hs.corrections
  rescinds := (rescindsOf_congr (congrArg Store.rescinds hentity)).symm.trans hs.rescinds

theorem reads_empty (hs : s.ofEntity key = .empty) : s.Reads key .empty := by
  have hempty : empty.Reads key .empty := ⟨rfl, rfl, rfl⟩
  exact hempty.congr hs.symm

theorem Reads.mem_events_iff (hs : s.Reads key h) {e : Event} :
    e ∈ h.events ↔ ∃ row ∈ s.events, row.key = key ∧ row.event = .ok e := by
  constructor
  · intro he
    obtain ⟨row, hrow, hread⟩ := exists_of_mem_readAll hs.events he
    obtain ⟨hrow, hkey⟩ := mem_events_ofEntity.mp (mem_sortBy.mp hrow)
    exact ⟨row, hrow, hkey, hread⟩
  · rintro ⟨row, hrow, hkey, hread⟩
    obtain ⟨x, hx, hreadx⟩ := exists_mem_of_readAll hs.events
      (mem_sortBy.mpr (mem_events_ofEntity.mpr ⟨hrow, hkey⟩))
    rw [hread] at hreadx
    rwa [Except.ok.inj hreadx]

theorem Reads.exists_event (hs : s.Reads key h) {row : EventRow} (hrow : row ∈ s.events)
    (hkey : row.key = key) : ∃ e ∈ h.events, row.event = .ok e :=
  exists_mem_of_readAll hs.events (mem_sortBy.mpr (mem_events_ofEntity.mpr ⟨hrow, hkey⟩))

theorem mem_entriesOf_iff {rows : List LogRow} {es : List Entry}
    (hs : entriesOf rows key = .ok es) {e : Entry} :
    e ∈ es ↔ ∃ row ∈ rows, row.key = key ∧ row.entry = .ok e := by
  constructor
  · intro he
    obtain ⟨row, hrow, hread⟩ := exists_of_mem_readAll hs he
    obtain ⟨hrow, hkey⟩ := List.mem_filter.mp (mem_sortBy.mp hrow)
    exact ⟨row, hrow, beq_iff_eq.mp hkey, hread⟩
  · rintro ⟨row, hrow, hkey, hread⟩
    obtain ⟨x, hx, hreadx⟩ := exists_mem_of_readAll hs
      (mem_sortBy.mpr (List.mem_filter.mpr ⟨hrow, beq_iff_eq.mpr hkey⟩))
    rw [hread] at hreadx
    rwa [Except.ok.inj hreadx]

/-- The entries of a history in one log are what the rows of that log are read as. -/
theorem Reads.mem_entries_iff (hs : s.Reads key h) (log : Log) {e : Entry} :
    e ∈ h.entries log ↔ ∃ row ∈ s.rows log, row.key = key ∧ row.entry = .ok e := by
  cases log with
  | events =>
    constructor
    · intro he
      obtain ⟨x, hx, rfl⟩ := List.mem_map.mp he
      obtain ⟨row, hrow, hkey, hread⟩ := hs.mem_events_iff.mp hx
      exact ⟨row.toLogRow, List.mem_map_of_mem hrow, hkey, (EventRow.event_eq_ok_iff.mp hread).2.2⟩
    · rintro ⟨_, hmem, hkey, hread⟩
      obtain ⟨row, hrow, rfl⟩ := List.mem_map.mp hmem
      obtain ⟨x, hx, hreadx⟩ := hs.exists_event hrow hkey
      rw [(EventRow.event_eq_ok_iff.mp hreadx).2.2] at hread
      rw [← Except.ok.inj hread]
      exact List.mem_map_of_mem hx
  | corrections => exact mem_entriesOf_iff hs.corrections
  | rescinds => exact mem_entriesOf_iff hs.rescinds

theorem Reads.exists_entry (hs : s.Reads key h) (log : Log) {row : LogRow}
    (hrow : row ∈ s.rows log) (hkey : row.key = key) :
    ∃ e ∈ h.entries log, row.entry = .ok e := by
  have hentry : ∃ e, row.entry = .ok e := by
    cases log with
    | events =>
      obtain ⟨r, hr, rfl⟩ := List.mem_map.mp hrow
      obtain ⟨x, -, hread⟩ := hs.exists_event hr hkey
      exact ⟨x.toEntry, (EventRow.event_eq_ok_iff.mp hread).2.2⟩
    | corrections =>
      obtain ⟨x, -, hread⟩ := exists_mem_of_readAll hs.corrections
        (mem_sortBy.mpr (List.mem_filter.mpr ⟨hrow, beq_iff_eq.mpr hkey⟩))
      exact ⟨x, hread⟩
    | rescinds =>
      obtain ⟨x, -, hread⟩ := exists_mem_of_readAll hs.rescinds
        (mem_sortBy.mpr (List.mem_filter.mpr ⟨hrow, beq_iff_eq.mpr hkey⟩))
      exact ⟨x, hread⟩
  obtain ⟨e, hread⟩ := hentry
  exact ⟨e, (hs.mem_entries_iff log).mpr ⟨row, hrow, hkey, hread⟩, hread⟩

/-! ## Rows of a date -/

/-- A row is about the date that it is read with. -/
theorem isOn_iff_date_eq {row : LogRow} (hrow : row.Written) (hkey : row.key = key) {e : Entry}
    (hread : row.entry = .ok e) : isOn key date row ↔ e.date = date := by
  rw [isOn_iff, hrow.date_eq hread, Date.text_inj]
  exact and_iff_right hkey

theorem Reads.forall_date_ne_iff (hs : s.Reads key h) (date : Date) (log : Log)
    (hwritten : ∀ row ∈ s.rows log, row.Written) :
    (∀ row ∈ s.rows log, ¬isOn key date row) ↔ ∀ e ∈ h.entries log, e.date ≠ date := by
  constructor
  · intro hnone e he hdate
    obtain ⟨row, hrow, hkey, hread⟩ := (hs.mem_entries_iff log).mp he
    exact hnone row hrow ((isOn_iff_date_eq (hwritten row hrow) hkey hread).mpr hdate)
  · intro hnone row hrow hon
    have hkey := (isOn_iff.mp hon).1
    obtain ⟨e, he, hread⟩ := hs.exists_entry log hrow hkey
    exact hnone e he ((isOn_iff_date_eq (hwritten row hrow) hkey hread).mp hon)

theorem Reads.eventOn_eq_none_iff (hs : s.Reads key h)
    (hwritten : ∀ row ∈ s.rows .events, row.Written) :
    s.eventOn key date = .ok none ↔ ∀ e ∈ h.events, e.date ≠ date := by
  rw [eventOn, event?_eq_none_iff]
  have hrows := hs.forall_date_ne_iff date .events hwritten
  rw [rows, History.entries, List.forall_mem_map, List.forall_mem_map] at hrows
  exact hrows

theorem Reads.correctionOn_eq_none_iff (hs : s.Reads key h)
    (hwritten : ∀ row ∈ s.rows .corrections, row.Written) :
    s.correctionOn key date = .ok none ↔ ∀ c ∈ h.corrections, c.date ≠ date := by
  rw [correctionOn, entry?_eq_none_iff]
  exact hs.forall_date_ne_iff date .corrections hwritten

theorem Reads.rescindOn_eq_none_iff (hs : s.Reads key h)
    (hwritten : ∀ row ∈ s.rows .rescinds, row.Written) :
    s.rescindOn key date = .ok none ↔ ∀ r ∈ h.rescinds, r.date ≠ date := by
  rw [rescindOn, entry?_eq_none_iff]
  exact hs.forall_date_ne_iff date .rescinds hwritten

theorem Reads.mem_of_eventOn (hs : s.Reads key h)
    (hwritten : ∀ row ∈ s.rows .events, row.Written) {e : Event}
    (hon : s.eventOn key date = .ok (some e)) : e ∈ h.events ∧ e.date = date := by
  obtain ⟨row, hfind, hread⟩ := event?_eq_some_iff.mp hon
  have hrow := List.mem_of_find?_eq_some hfind
  have hrowOn := List.find?_some hfind
  have hkey := (isOn_iff.mp hrowOn).1
  have hentry := (EventRow.event_eq_ok_iff.mp hread).2.2
  have hrowWritten := hwritten row.toLogRow (List.mem_map_of_mem hrow)
  exact ⟨hs.mem_events_iff.mpr ⟨row, hrow, hkey, hread⟩,
    (isOn_iff_date_eq hrowWritten hkey hentry).mp hrowOn⟩

/-! ## Reading the logs after an entry was added -/

theorem Reads.exists_add (hs : s.Reads a.entry.key h)
    (hp : Payload.parse a.entry.payload.text = .ok p) :
    ∃ h', (s.add a).Reads a.entry.key h' ∧ h'.Perm (h.add (a.stored p)) := by
  cases a with
  | event e =>
    have hrow : e.row.event = .ok (e.stored p) := Event.event_row_eq_ok_iff.mpr ⟨p, hp, rfl⟩
    obtain ⟨events, hread, hperm⟩ := readAll_sortBy_append hs.events hrow
    refine ⟨{ h with events := events }, ⟨?_, hs.corrections, hs.rescinds⟩,
      ⟨hperm, .refl _, .refl _⟩⟩
    have hrows := congrArg Store.events (ofEntity_add (s := s) (a := .event e))
    exact (congrArg (fun rows => readAll EventRow.event (sortBy byDate rows)) hrows).trans hread
  | correction e =>
    have hrow : e.row.entry = .ok (e.stored p) := Entry.entry_row_eq_ok_iff.mpr ⟨p, hp, rfl⟩
    obtain ⟨corrections, hread, hperm⟩ := readAll_sortBy_append hs.corrections hrow
    refine ⟨{ h with corrections := corrections }, ⟨hs.events, ?_, hs.rescinds⟩,
      ⟨.refl _, hperm, .refl _⟩⟩
    have hrows := congrArg Store.corrections (ofEntity_add (s := s) (a := .correction e))
    exact (congrArg (fun rows => readAll LogRow.entry (sortBy byPosition rows)) hrows).trans hread
  | rescind e =>
    have hrow : e.row.entry = .ok (e.stored p) := Entry.entry_row_eq_ok_iff.mpr ⟨p, hp, rfl⟩
    obtain ⟨rescinds, hread, hperm⟩ := readAll_sortBy_append hs.rescinds hrow
    refine ⟨{ h with rescinds := rescinds }, ⟨hs.events, hs.corrections, ?_⟩,
      ⟨.refl _, .refl _, hperm⟩⟩
    have hrows := congrArg Store.rescinds (ofEntity_add (s := s) (a := .rescind e))
    exact (congrArg (fun rows => readAll LogRow.entry (sortBy byPosition rows)) hrows).trans hread

theorem Reads.exists_parse (hs : (s.add a).Reads a.entry.key h) :
    ∃ p, Payload.parse a.entry.payload.text = .ok p := by
  cases a with
  | event e =>
    have hmem : e.row ∈ (s.add (.event e)).events := List.mem_append_right _ List.mem_cons_self
    obtain ⟨e', -, hread⟩ := hs.exists_event hmem rfl
    obtain ⟨p, hp, -⟩ := Event.event_row_eq_ok_iff.mp hread
    exact ⟨p, hp⟩
  | correction e =>
    have hmem : e.row ∈ (s.add (.correction e)).corrections :=
      List.mem_append_right _ List.mem_cons_self
    obtain ⟨e', -, hread⟩ := hs.exists_entry .corrections hmem rfl
    obtain ⟨p, hp, -⟩ := Entry.entry_row_eq_ok_iff.mp hread
    exact ⟨p, hp⟩
  | rescind e =>
    have hmem : e.row ∈ (s.add (.rescind e)).rescinds :=
      List.mem_append_right _ List.mem_cons_self
    obtain ⟨e', -, hread⟩ := hs.exists_entry .rescinds hmem rfl
    obtain ⟨p, hp, -⟩ := Entry.entry_row_eq_ok_iff.mp hread
    exact ⟨p, hp⟩

/-- The history after an entry was added has that entry besides those it had before. -/
theorem Reads.perm_add (hs : s.Reads a.entry.key h) (hs' : (s.add a).Reads a.entry.key h') :
    ∃ p, Payload.parse a.entry.payload.text = .ok p ∧ h'.Perm (h.add (a.stored p)) := by
  obtain ⟨p, hp⟩ := hs'.exists_parse
  obtain ⟨h'', hreads, hperm⟩ := hs.exists_add hp
  rw [hreads.eq hs'] at hperm
  exact ⟨p, hp, hperm⟩

theorem Reads.events_add_of_ne (hs : s.Reads key h) (hs' : (s.add a).Reads key h')
    (hlog : a.log ≠ .events) : h'.events = h.events := by
  cases a with
  | event e => exact absurd rfl hlog
  | correction e => exact Except.ok.inj (hs'.events.symm.trans hs.events)
  | rescind e => exact Except.ok.inj (hs'.events.symm.trans hs.events)

theorem Reads.corrections_add_of_ne (hs : s.Reads key h) (hs' : (s.add a).Reads key h')
    (hlog : a.log ≠ .corrections) : h'.corrections = h.corrections := by
  cases a with
  | event e => exact Except.ok.inj (hs'.corrections.symm.trans hs.corrections)
  | correction e => exact absurd rfl hlog
  | rescind e => exact Except.ok.inj (hs'.corrections.symm.trans hs.corrections)

theorem Reads.rescinds_add_of_ne (hs : s.Reads key h) (hs' : (s.add a).Reads key h')
    (hlog : a.log ≠ .rescinds) : h'.rescinds = h.rescinds := by
  cases a with
  | event e => exact Except.ok.inj (hs'.rescinds.symm.trans hs.rescinds)
  | correction e => exact Except.ok.inj (hs'.rescinds.symm.trans hs.rescinds)
  | rescind e => exact absurd rfl hlog

theorem Reads.replayEntity_eq (hs : s.Reads key h) :
    s.replayEntity key = (replay key h.events h.corrections h.rescinds).map
      fun timeline => (timeline, h.positions.max?) := by
  rw [replayEntity, hs.events, hs.corrections, hs.rescinds]
  rfl

/-- An entry whose payload does not come back from the log keeps its entity from being replayed. -/
theorem Reads.replayEntity_add_unreadable (hs : s.Reads a.entry.key h) {fault : PayloadFault}
    (hpayload : Payload.parse a.entry.payload.text = .error fault) :
    (s.add a).replayEntity a.entry.key = .error (.row (.payload fault)) := by
  cases a with
  | event e =>
    have hrow : e.row.event = .error (.payload fault) := Event.event_row_of_parse_eq_error hpayload
    have hread := readAll_sortBy_append_of_eq_error hs.events hrow
    have hrows := congrArg Store.events (ofEntity_add (s := s) (a := .event e))
    have hevents : (s.add (.event e)).eventsOf e.key = .error (.row (.payload fault)) :=
      (congrArg (fun rows => readAll EventRow.event (sortBy byDate rows)) hrows).trans hread
    rw [AuditEntry.entry, replayEntity, hevents]
    rfl
  | correction e =>
    have hrow : e.row.entry = .error (.payload fault) := Entry.entry_row_of_parse_eq_error hpayload
    have hread := readAll_sortBy_append_of_eq_error hs.corrections hrow
    have hrows := congrArg Store.corrections (ofEntity_add (s := s) (a := .correction e))
    have hevents : (s.add (.correction e)).eventsOf e.key = .ok h.events := hs.events
    have hcorrections : (s.add (.correction e)).correctionsOf e.key =
        .error (.row (.payload fault)) :=
      (congrArg (fun rows => readAll LogRow.entry (sortBy byPosition rows)) hrows).trans hread
    rw [AuditEntry.entry, replayEntity, hevents, hcorrections]
    rfl
  | rescind e =>
    have hrow : e.row.entry = .error (.payload fault) := Entry.entry_row_of_parse_eq_error hpayload
    have hread := readAll_sortBy_append_of_eq_error hs.rescinds hrow
    have hrows := congrArg Store.rescinds (ofEntity_add (s := s) (a := .rescind e))
    have hevents : (s.add (.rescind e)).eventsOf e.key = .ok h.events := hs.events
    have hcorrections : (s.add (.rescind e)).correctionsOf e.key = .ok h.corrections :=
      hs.corrections
    have hrescinds : (s.add (.rescind e)).rescindsOf e.key = .error (.row (.payload fault)) :=
      (congrArg (fun rows => readAll LogRow.entry (sortBy byPosition rows)) hrows).trans hread
    rw [AuditEntry.entry, replayEntity, hevents, hcorrections, hrescinds]
    rfl

/-! ## Coherence -/

/-- The registry and the stored timeline of an entity agree with the history in its logs. -/
structure Coherent (s : Store) (key : EntityKey) (head : HeadRow) (h : History)
    (timeline : Timeline) : Prop where
  heads : (s.ofEntity key).heads = [head]
  reads : s.Reads key h
  replayed : replay key h.events h.corrections h.rescinds = .ok timeline
  versions : (s.ofEntity key).versions = timeline.map Version.row
  versionCount : head.versionCount = timeline.length
  digest : head.digest = timeline.digest
  lastPos : ∃ last, h.positions.max? = some last ∧ head.lastPos = signedWord last

theorem Coherent.congr (hs : s.Coherent key head h timeline)
    (hentity : s.ofEntity key = t.ofEntity key) : t.Coherent key head h timeline where
  heads := (congrArg Store.heads hentity).symm.trans hs.heads
  reads := hs.reads.congr hentity
  replayed := hs.replayed
  versions := (congrArg Store.versions hentity).symm.trans hs.versions
  versionCount := hs.versionCount
  digest := hs.digest
  lastPos := hs.lastPos

theorem Reads.materialize (hs : s.Reads key h) (other : EntityKey) (last : Option Position) :
    (s.materialize other timeline last).Reads key h :=
  ⟨hs.events, hs.corrections, hs.rescinds⟩

/-- A timeline that follows from the logs of an entity is stored in agreement with them. -/
theorem coherent_materialize (hheads : (s.ofEntity key).heads = [head]) (hreads : s.Reads key h)
    (hreplay : replay key h.events h.corrections h.rescinds = .ok timeline)
    (hpositions : h.positions ≠ []) :
    (s.materialize key timeline h.positions.max?).Coherent key
      (head.summarised timeline h.positions.max?) h timeline := by
  obtain ⟨last, hlast⟩ : ∃ last, h.positions.max? = some last := by
    rw [← Option.isSome_iff_exists, Option.isSome_iff_ne_none]
    intro hnone
    exact hpositions (List.max?_eq_none_iff.mp hnone)
  refine ⟨?_, hreads.materialize key _, hreplay, ?_, rfl, rfl, ?_⟩
  · rw [heads_ofEntity_materialize, hheads, List.map_singleton]
  · exact versions_ofEntity_materialize fun v hv => key_of_mem_replay hreplay hv
  · exact ⟨last, hlast, by simp [HeadRow.summarised, hlast]⟩

/-- Recording leaves the rows of other entities in place. -/
theorem Records.ofEntity_of_ne (hrec : t.Records a s') (hne : a.entry.key ≠ key) :
    s'.ofEntity key = t.ofEntity key := by
  obtain ⟨-, timeline, last, hreplay, rfl⟩ := hrec
  obtain ⟨h, -, hreplay, -⟩ := replayEntity_eq_ok_iff.mp hreplay
  rw [ofEntity_materialize_of_ne (fun v hv => key_of_mem_replay hreplay hv) hne,
    ofEntity_add_of_ne hne]

theorem Records.rows_eq (hrec : t.Records a s') (log : Log) :
    s'.rows log = if log = a.log then t.rows log ++ [a.entry.row] else t.rows log := by
  obtain ⟨-, timeline, last, -, rfl⟩ := hrec
  rw [rows_materialize, rows_add]

/-- An entity whose registry and timeline agree with a well-formed history in its logs. -/
structure Registered (s : Store) (key : EntityKey) (kind : EntityKind) (h : History) : Prop where
  wellFormed : h.WellFormed kind
  coherent : ∃ head timeline, head.kind = kind.name ∧ s.Coherent key head h timeline

theorem Registered.congr (hs : s.Registered key kind h)
    (hentity : s.ofEntity key = t.ofEntity key) : t.Registered key kind h := by
  obtain ⟨hwf, head, timeline, hkind, hcoherent⟩ := hs
  exact ⟨hwf, head, timeline, hkind, hcoherent.congr hentity⟩

theorem Registered.reads (hs : s.Registered key kind h) : s.Reads key h := by
  obtain ⟨-, head, timeline, -, hcoherent⟩ := hs
  exact hcoherent.reads

theorem Registered.lawful (hs : s.Registered key kind h) :
    Replay.Lawful h.corrections (Replay.survivors h.events h.rescinds) := by
  obtain ⟨-, head, timeline, -, hcoherent⟩ := hs
  exact (exists_replay_iff _).mp ⟨timeline, hcoherent.replayed⟩

/-- Recording an entry keeps its entity registered, as long as the history stays well-formed. -/
theorem Records.registered (hrec : t.Records a s') (hreads : t.Reads a.entry.key h)
    (hheads : (t.ofEntity a.entry.key).heads = [head]) (hkind : head.kind = kind.name)
    (hwf : ∀ h' p, (t.add a).Reads a.entry.key h' → h'.Perm (h.add (a.stored p)) →
      Replay.Lawful h'.corrections (Replay.survivors h'.events h'.rescinds) →
      h'.WellFormed kind) :
    ∃ h', s'.Registered a.entry.key kind h' := by
  obtain ⟨-, timeline, last, hreplay, rfl⟩ := hrec
  obtain ⟨h', hreads', htimeline, rfl⟩ := replayEntity_eq_ok_iff.mp hreplay
  obtain ⟨p, -, hperm⟩ := hreads.perm_add hreads'
  have hwf' := hwf h' p hreads' hperm ((exists_replay_iff _).mp ⟨timeline, htimeline⟩)
  have hheads' : ((t.add a).ofEntity a.entry.key).heads = [head] := by
    rw [ofEntity_add, add_heads, hheads]
  exact ⟨h', hwf', head.summarised timeline h'.positions.max?, timeline, hkind,
    coherent_materialize hheads' hreads' htimeline hwf'.positions_ne_nil⟩

/-- Every row was written by the ledger, and each entity is without rows or registered. -/
structure Sound (s : Store) : Prop where
  written : ∀ log, ∀ row ∈ s.rows log, row.Written
  entities : ∀ key, s.ofEntity key = .empty ∨ ∃ kind h, s.Registered key kind h

theorem Sound.exists_reads (hs : s.Sound) (key : EntityKey) : ∃ h, s.Reads key h := by
  rcases hs.entities key with hempty | ⟨kind, h, hregistered⟩
  · exact ⟨.empty, reads_empty hempty⟩
  · exact ⟨h, hregistered.reads⟩

/-! ## The registry -/

/-- A row of the registry agrees with the logs of its entity. -/
theorem Sound.exists_coherent_of_mem (hs : s.Sound) (hrow : head ∈ s.heads) :
    ∃ (kind : EntityKind) (h : History) (timeline : Timeline), head.kind = kind.name ∧
      s.Coherent head.key head h timeline := by
  have hmem := mem_heads_ofEntity.mpr ⟨hrow, rfl⟩
  rcases hs.entities head.key with hempty | ⟨kind, h, -, row, timeline, hkind, hcoherent⟩
  · rw [hempty] at hmem
    cases hmem
  · rw [hcoherent.heads] at hmem
    obtain rfl := List.mem_singleton.mp hmem
    exact ⟨kind, h, timeline, hkind, hcoherent⟩

theorem find?_heads (s : Store) (key : EntityKey) :
    s.heads.find? (fun row => row.key == key) = (s.ofEntity key).heads.head? :=
  List.head?_filter.symm

theorem head_eq_none_of_empty (hs : s.ofEntity key = .empty) : s.head key = .ok none := by
  rw [Store.head, mapM_rowResult_eq_none_iff, find?_heads, hs]
  rfl

theorem Registered.exists_head (hs : s.Registered key kind h) :
    ∃ head, s.head key = .ok (some head) ∧ head.kind = kind := by
  obtain ⟨-, row, timeline, hkind, hcoherent⟩ := hs
  obtain ⟨head, hhead, hsame, -⟩ := HeadRow.exists_head_eq_ok hkind
  refine ⟨head, mapM_rowResult_eq_some_iff.mpr ⟨row, ?_, hhead⟩, hsame⟩
  rw [find?_heads, hcoherent.heads]
  rfl

/-- An entity that the registry does not know has no rows at all. -/
theorem Sound.head_eq_none_iff (hs : s.Sound) :
    s.head key = .ok none ↔ s.ofEntity key = .empty := by
  constructor
  · intro hnone
    rcases hs.entities key with hempty | ⟨kind, h, hregistered⟩
    · exact hempty
    · obtain ⟨head, hhead, -⟩ := hregistered.exists_head
      rw [hnone] at hhead
      cases hhead
  · exact head_eq_none_of_empty

theorem Sound.exists_registered (hs : s.Sound) {head : Head}
    (hhead : s.head key = .ok (some head)) : ∃ h, s.Registered key head.kind h := by
  rcases hs.entities key with hempty | ⟨kind, h, hregistered⟩
  · rw [head_eq_none_of_empty hempty] at hhead
    cases hhead
  · obtain ⟨head', hhead', hkind⟩ := hregistered.exists_head
    rw [hhead'] at hhead
    cases hhead
    exact ⟨h, hkind ▸ hregistered⟩

end Store

end DatedLedger
