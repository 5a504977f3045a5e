import DatedLedger.Proofs.Run.Requests

/-!
# Soundness of runs

Every request keeps a sound store sound.  A request that records an entry rewrites
the rows of one entity, and all others stay as they are.  For that entity replay
does most of the work: a history that does not begin with its one creating event
cannot be replayed, and then nothing is recorded.
-/

namespace DatedLedger

namespace Store

variable {s s' t : Store} {h h' : History} {kind : EntityKind} {a : AuditEntry} {c : Submission}
  {pos : Position} {e : Event} {key : EntityKey}

theorem sound_empty : empty.Sound where
  written := by
    intro log row hrow
    cases log <;> simp [rows, empty] at hrow
  entities := fun _ => .inl rfl

/-- Recording an entry keeps a store sound when its entity is registered afterwards. -/
theorem Sound.of_records (hs : s.Sound) (hrows : ∀ log, t.rows log = s.rows log)
    (hother : ∀ key, a.entry.key ≠ key → t.ofEntity key = s.ofEntity key) (hrec : t.Records a s')
    (hentity : ∃ kind h, s'.Registered a.entry.key kind h) : s'.Sound where
  written := by
    intro log row hrow
    rw [hrec.rows_eq, hrows] at hrow
    split at hrow
    · rcases List.mem_append.mp hrow with hrow | hrow
      · exact hs.written log row hrow
      · rw [List.mem_singleton.mp hrow]
        exact a.entry.written_row
    · exact hs.written log row hrow
  entities := by
    intro key
    by_cases hkey : a.entry.key = key
    · right
      rw [← hkey]
      exact hentity
    · have hsame : s'.ofEntity key = s.ofEntity key :=
        (hrec.ofEntity_of_ne hkey).trans (hother key hkey)
      rcases hs.entities key with hempty | ⟨kind, h, hregistered⟩
      · exact .inl (hsame.trans hempty)
      · exact .inr ⟨kind, h, hregistered.congr hsame.symm⟩

/-! ## Events -/

/-- The first event of an entity creates it. -/
theorem type_eq_create_of_lawful {p : Payload}
    (hperm : h'.Perm (History.empty.add ((AuditEntry.event e).stored p)))
    (hlawful : Replay.Lawful h'.corrections (Replay.survivors h'.events h'.rescinds)) :
    e.type = .create := by
  have hevents : h'.events = [e.stored p] := List.perm_singleton.mp hperm.events
  have hrescinds : h'.rescinds = [] := hperm.rescinds.eq_nil
  rw [hevents, hrescinds] at hlawful
  exact hlawful.1

theorem Sound.record_event (hs : s.Sound) (hregistered : s.Registered e.key kind h)
    (hkind : e.kind = kind) (hfree : s.eventOn e.key e.date = .ok none)
    (hrec : s.Records (.event e) s') : s'.Sound := by
  refine hs.of_records (fun _ => rfl) (fun _ _ => rfl) hrec ⟨kind, ?_⟩
  obtain ⟨hwf, head, timeline, hheadKind, hcoherent⟩ := hregistered
  have hreads := hcoherent.reads
  refine hrec.registered hreads hcoherent.heads hheadKind ?_
  intro h' p hreads' hperm hlawful
  obtain ⟨first, hfirst⟩ := hwf.founded
  have hnew := (hreads.eventOn_eq_none_iff (hs.written .events)).mp hfree
  rw [hreads.rescinds_add_of_ne hreads' (by simp [AuditEntry.log])] at hlawful
  obtain ⟨htype, hlater⟩ := hfirst.later_of_lawful (e := e.stored p) hperm.events hnew
    (hwf.counts_of_new hnew) hlawful
  exact (hwf.add_event hfirst (e := e.stored p) hkind hnew htype hlater).of_perm hperm

theorem ofEntity_register_of_ne {row : HeadRow} (hne : row.key ≠ key) :
    ({ s with heads := s.heads ++ [row] } : Store).ofEntity key = s.ofEntity key :=
  restrict_register_of_not (p := fun k => k == key) (mt beq_iff_eq.mp hne)

theorem heads_ofEntity_register {row : HeadRow} (hkey : row.key = key)
    (hempty : s.ofEntity key = .empty) :
    (({ s with heads := s.heads ++ [row] } : Store).ofEntity key).heads = [row] := by
  have hrow : (row.key == key) = true := beq_iff_eq.mpr hkey
  have hheads : s.heads.filter (fun row => row.key == key) = [] := congrArg Store.heads hempty
  simp [ofEntity, List.filter_append, hrow, hheads]

theorem Sound.record_first (hs : s.Sound) (hempty : s.ofEntity c.key = .empty)
    {now : Nat}
    (hrec : ({ s with heads := s.heads ++ [c.headRow pos] } : Store).Records
      (.event (c.event pos now)) s') : s'.Sound := by
  refine hs.of_records (fun log => ?_) (fun key hne => ofEntity_register_of_ne hne) hrec
    ⟨c.kind, ?_⟩
  · cases log <;> rfl
  · have hreads := reads_empty hempty
    refine hrec.registered (h := .empty) ⟨hreads.events, hreads.corrections, hreads.rescinds⟩
      (heads_ofEntity_register rfl hempty) rfl ?_
    intro h' p _ hperm hlawful
    have htype := type_eq_create_of_lawful hperm hlawful
    exact (History.wellFormed_create (e := (c.event pos now).stored p) htype).of_perm hperm

/-- An update of an entity without rows is not recorded. -/
theorem not_records_update (hempty : s.ofEntity e.key = .empty) (htype : e.type = .update)
    (hrec : s.Records (.event e) s') : False := by
  obtain ⟨-, timeline, last, hreplay, -⟩ := hrec
  obtain ⟨h', hreads, hreplay, -⟩ := replayEntity_eq_ok_iff.mp hreplay
  obtain ⟨p, -, hperm⟩ := Reads.perm_add (a := .event e) (reads_empty hempty) hreads
  have hcreate := type_eq_create_of_lawful hperm ((exists_replay_iff _).mp ⟨timeline, hreplay⟩)
  rw [htype] at hcreate
  cases hcreate

theorem Sound.record_submission (hs : s.Sound) {now : Nat} (ht : s.Identifies c pos t)
    (hfree : t.eventOn c.key c.date = .ok none)
    (hrec : t.Records (.event (c.event pos now)) s') : s'.Sound := by
  cases ht with
  | registered head hhead hkind howning =>
    obtain ⟨h, hregistered⟩ := hs.exists_registered hhead
    exact hs.record_event (e := c.event pos now) hregistered hkind.symm hfree hrec
  | registers hhead htype howning hfault =>
    exact hs.record_first (hs.head_eq_none_iff.mp hhead) hrec
  | unregistered hhead htype =>
    exact (not_records_update (e := c.event pos now) (hs.head_eq_none_iff.mp hhead) htype
      hrec).elim

/-- An entity with an event in the log is registered. -/
theorem Sound.exists_registered_of_mem (hs : s.Sound) {row : EventRow} (hrow : row ∈ s.events)
    (hkey : row.key = key) : ∃ kind h, s.Registered key kind h := by
  rcases hs.entities key with hempty | hregistered
  · have hmem := mem_events_ofEntity.mpr ⟨hrow, hkey⟩
    rw [hempty] at hmem
    cases hmem
  · exact hregistered

/-- Where the date of a submission has an event, its entity was registered before. -/
theorem Sound.eq_of_eventOn (hs : s.Sound) (ht : s.Identifies c pos t) {stored : Event}
    (hon : t.eventOn c.key c.date = .ok (some stored)) : t = s := by
  cases ht with
  | registered head hhead hkind howning => rfl
  | registers hhead htype hfree hfault =>
    obtain ⟨row, hfind, -⟩ := event?_eq_some_iff.mp hon
    have hrow := List.mem_of_find?_eq_some hfind
    have hrowOn := List.find?_some hfind
    obtain ⟨kind, h, hregistered⟩ := hs.exists_registered_of_mem hrow (isOn_iff.mp hrowOn).1
    obtain ⟨head, hfound, -⟩ := hregistered.exists_head
    rw [hhead] at hfound
    cases hfound
  | unregistered hhead htype => rfl

/-! ## Corrections and rescinds -/

theorem Sound.exists_registered_of_eventOn (hs : s.Sound) {date : Date}
    (hon : s.eventOn key date = .ok (some e)) :
    ∃ kind h, s.Registered key kind h ∧ e ∈ h.events ∧ e.date = date := by
  rcases hs.entities key with hempty | ⟨kind, h, hregistered⟩
  · obtain ⟨hmem, -⟩ := (reads_empty hempty).mem_of_eventOn (hs.written .events) hon
    cases hmem
  · exact ⟨kind, h, hregistered, hregistered.reads.mem_of_eventOn (hs.written .events) hon⟩

theorem Sound.record_correction (hs : s.Sound) {x : Entry}
    (hon : s.eventOn x.key x.date = .ok (some e)) (hfree : s.correctionOn x.key x.date = .ok none)
    (hrec : s.Records (.correction x) s') : s'.Sound := by
  obtain ⟨kind, h, ⟨hwf, head, timeline, hkind, hcoherent⟩, he, hdate⟩ :=
    hs.exists_registered_of_eventOn hon
  refine hs.of_records (fun _ => rfl) (fun _ _ => rfl) hrec ⟨kind, ?_⟩
  refine hrec.registered hcoherent.reads hcoherent.heads hkind ?_
  intro h' p _ hperm _
  have hnew := (hcoherent.reads.correctionOn_eq_none_iff (hs.written .corrections)).mp hfree
  exact (hwf.add_correction (c := x.stored p) ⟨e, he, hdate⟩ hnew).of_perm hperm

theorem Sound.record_rescind (hs : s.Sound) {x : Entry}
    (hon : s.eventOn x.key x.date = .ok (some e)) (htype : e.type = .update)
    (hfree : s.rescindOn x.key x.date = .ok none)
    (hrec : s.Records (.rescind x) s') : s'.Sound := by
  obtain ⟨kind, h, ⟨hwf, head, timeline, hkind, hcoherent⟩, he, hdate⟩ :=
    hs.exists_registered_of_eventOn hon
  refine hs.of_records (fun _ => rfl) (fun _ _ => rfl) hrec ⟨kind, ?_⟩
  refine hrec.registered hcoherent.reads hcoherent.heads hkind ?_
  intro h' p _ hperm _
  have hnew := (hcoherent.reads.rescindOn_eq_none_iff (hs.written .rescinds)).mp hfree
  exact (hwf.add_rescind (r := x.stored p) he htype hdate hnew).of_perm hperm

/-! ## Rebuilding -/

theorem Sound.materialize (hs : s.Sound) {head : Head} {timeline : Timeline}
    {last : Option Position} (hhead : s.head key = .ok (some head))
    (hreplay : s.replayEntity key = .ok (timeline, last)) :
    (s.materialize key timeline last).Sound := by
  obtain ⟨h', hreads, htimeline, rfl⟩ := replayEntity_eq_ok_iff.mp hreplay
  obtain ⟨h, hwf, row, old, hkind, hcoherent⟩ := hs.exists_registered hhead
  have hh : h = h' := hcoherent.reads.eq hreads
  rw [← hh] at htimeline ⊢
  constructor
  · intro log row hrow
    rw [rows_materialize] at hrow
    exact hs.written log row hrow
  · intro other
    by_cases hkey : key = other
    · right
      rw [← hkey]
      exact ⟨head.kind, h, hwf, row.summarised timeline h.positions.max?, timeline, hkind,
        coherent_materialize hcoherent.heads hcoherent.reads htimeline hwf.positions_ne_nil⟩
    · have hsame : (s.materialize key timeline h.positions.max?).ofEntity other =
          s.ofEntity other :=
        ofEntity_materialize_of_ne (fun v hv => key_of_mem_replay htimeline hv) hkey
      rcases hs.entities other with hempty | ⟨kind, h, hregistered⟩
      · exact .inl (hsame.trans hempty)
      · exact .inr ⟨kind, h, hregistered.congr hsame.symm⟩

/-! ## Runs -/

theorem Sound.run (hs : s.Sound) (r : Request) : (r.run s).Sound := by
  have heffect := r.effect_run s
  generalize r.run s = s' at heffect ⊢
  cases heffect with
  | none r => exact hs
  | repeated ht hon =>
    rw [hs.eq_of_eventOn ht hon]
    exact hs
  | event ht hfree hrec => exact hs.record_submission ht hfree hrec
  | correction hon hstands hfree hrec => exact hs.record_correction hon hfree hrec
  | rescind hon htype hfree hrec => exact hs.record_rescind hon htype hfree hrec
  | timeline hhead hreplay => exact hs.materialize hhead hreplay

theorem Sound.after (hs : s.Sound) (rs : List Request) : (s.after rs).Sound :=
  after_induction hs (fun r _ ht => ht.run r) rs

theorem sound_after (rs : List Request) : (empty.after rs).Sound :=
  sound_empty.after rs

end Store

/-- A ledger with a sound store keeps it sound, whatever it is asked in whatever contexts. -/
theorem Ledger.sound_performs {l : Ledger} (hl : l.store.Sound)
    (asked : List (Context × Request)) :
    (asked.foldl (fun l ask => ask.2.perform ask.1 l) l).store.Sound := by
  obtain ⟨rs, -, hstore⟩ := Request.exists_store_performs asked l
  rw [hstore]
  exact hl.after rs

end DatedLedger
