import DatedLedger.Proofs.Run.Past
import DatedLedger.Proofs.Run.Rescission

/-!
# Rescinds are final

Once a date of an entity carries a rescind, no request changes what the logs hold
about that date.  Whatever else the ledger is asked, the date stays occupied by its
event, takes no correction, and no version begins on it.
-/

namespace DatedLedger

/-! ## Rescinds of a history -/

section Histories

variable {h : History} {kind : EntityKind} {key : EntityKey} {timeline : Timeline} {r : Entry}

theorem validFrom_ne_of_rescinded
    (hreplay : replay key h.events h.corrections h.rescinds = .ok timeline)
    (hr : r ∈ h.rescinds) : ∀ v ∈ timeline, v.validFrom ≠ r.date := by
  intro v hv hfrom
  obtain ⟨-, -, -, hcounts⟩ := exists_event_of_mem_replay hreplay hv
  exact hcounts r hr hfrom.symm

/-- On a rescinded date the latest version that begins before it is in effect.  There is one, as
the event that creates an entity is not rescinded. -/
theorem History.WellFormed.exists_asOf?_of_rescinded (hwf : h.WellFormed kind)
    (hreplay : replay key h.events h.corrections h.rescinds = .ok timeline)
    (hr : r ∈ h.rescinds) :
    ∃ v, timeline.asOf? r.date = some v ∧ v.validFrom < r.date ∧
      ∀ w ∈ timeline, w.validFrom < r.date → w.validFrom ≤ v.validFrom := by
  obtain ⟨first, hfirst⟩ := hwf.founded
  obtain ⟨e, he, hedate⟩ := hwf.rescinded r hr
  have hlater : first.date < r.date := by
    rw [← hedate]
    rcases hfirst.eq_or_later he with rfl | ⟨-, hlater⟩
    · exact absurd hedate.symm (hfirst.kept r hr)
    · exact hlater
  cases hfound : timeline.asOf? r.date with
  | none => exact absurd ((Store.asOf?_eq_none_iff hfirst hreplay).mp hfound) hlater.not_gt
  | some v =>
    have hv : v ∈ timeline := List.mem_of_find?_eq_some hfound
    have hcontains := List.find?_some hfound
    have hbegun : v.validFrom ≤ r.date := (Version.contains_iff.mp hcontains).1
    have hbefore : v.validFrom < r.date :=
      lt_of_le_of_ne hbegun (validFrom_ne_of_rescinded hreplay hr v hv)
    exact ⟨v, rfl, hbefore, fun w hw hwdate => validFrom_le_of_asOf? hreplay hfound hw hwdate.le⟩

end Histories

namespace Store

variable {s t : Store} {a : AuditEntry} {key : EntityKey} {date : Date} {h : History}

/-! ## The rows of a date -/

/-- What the logs of an entity hold about a date. -/
def onDate (s : Store) (key : EntityKey) (date : Date) : Store where
  events := s.events.filter fun row => isOn key date row.toLogRow
  corrections := s.corrections.filter (isOn key date)
  rescinds := s.rescinds.filter (isOn key date)
  heads := []
  versions := []

/-- Some rescind is about the date of the entity. -/
def Rescinded (s : Store) (key : EntityKey) (date : Date) : Prop :=
  ∃ row ∈ s.rescinds, row.key = key ∧ row.date = date.text

theorem rescinded_iff_rescindOn : s.Rescinded key date ↔ s.rescindOn key date ≠ .ok none := by
  rw [Ne, rescindOn_eq_none_iff]
  simp [Rescinded]

theorem onDate_eq_of_logs_eq (hlogs : t.logs = s.logs) (key : EntityKey) (date : Date) :
    t.onDate key date = s.onDate key date := by
  have honDate := congrArg (fun u : Store => u.onDate key date) hlogs
  exact honDate

/-- An entry about another date, or another entity, is not among the rows of a date. -/
theorem onDate_add_of_not (h : ¬isOn key date a.entry.row) :
    (s.add a).onDate key date = s.onDate key date := by
  cases a with
  | event e =>
    have hrow : isOn key date e.row.toLogRow = false := Bool.eq_false_iff.mpr h
    simp [onDate, add, hrow]
  | correction c =>
    have hrow : isOn key date c.row = false := Bool.eq_false_iff.mpr h
    simp [onDate, add, hrow]
  | rescind r =>
    have hrow : isOn key date r.row = false := Bool.eq_false_iff.mpr h
    simp [onDate, add, hrow]

theorem Rescinded.of_onDate_eq (hs : s.Rescinded key date)
    (h : t.onDate key date = s.onDate key date) : t.Rescinded key date := by
  obtain ⟨row, hrow, hon⟩ := hs
  have hmem : row ∈ (s.onDate key date).rescinds :=
    List.mem_filter.mpr ⟨hrow, isOn_iff.mpr hon⟩
  rw [← h] at hmem
  exact ⟨row, (List.mem_filter.mp hmem).1, hon⟩

/-- In a sound store a rescinded date has an event, which look-ups find. -/
theorem Sound.exists_of_rescinded (hs : s.Sound) (hrescinded : s.Rescinded key date) :
    ∃ kind h e, s.Registered key kind h ∧ e ∈ h.events ∧ e.date = date ∧
      (∃ r ∈ h.rescinds, r.date = date) ∧ s.eventOn key date = .ok (some e) := by
  obtain ⟨row, hrow, hkey, hdate⟩ := hrescinded
  rcases hs.entities key with hempty | ⟨kind, h, hregistered⟩
  · have hmem := mem_rescinds_ofEntity.mpr ⟨hrow, hkey⟩
    rw [hempty] at hmem
    cases hmem
  · have hreads := hregistered.reads
    obtain ⟨r, hr, hread⟩ := hreads.exists_entry .rescinds hrow hkey
    have hrdate : r.date = date :=
      (isOn_iff_date_eq (hs.written .rescinds row hrow) hkey hread).mp (isOn_iff.mpr ⟨hkey, hdate⟩)
    obtain ⟨e, he, hedate⟩ := hregistered.wellFormed.rescinded r hr
    obtain ⟨eventRow, heventRow, heventKey, heventRead⟩ := hreads.mem_events_iff.mp he
    have htext := (hs.written .events _ (List.mem_map_of_mem heventRow)).date_eq
      (EventRow.event_eq_ok_iff.mp heventRead).2.2
    rw [hedate, hrdate] at htext
    obtain ⟨kind', h', e', hregistered', he', -, hon⟩ := hs.exists_eventOn heventRow heventKey htext
    have hsame := hreads.eq hregistered'.reads
    rw [hsame] at hr
    exact ⟨kind', h', e', hregistered', he',
      (hregistered'.reads.mem_of_eventOn (hs.written .events) hon).2, ⟨r, hr, hrdate⟩, hon⟩

/-! ## Requests -/

/-- No entry about a rescinded date may be added any more. -/
theorem Sound.not_isOn_of_admits (hs : s.Sound) (hrescinded : s.Rescinded key date)
    (hadmits : s.Admits a) : ¬isOn key date a.entry.row := by
  intro hon
  obtain ⟨hkey, hdate⟩ := isOn_iff.mp hon
  have hfits := Session.fault?_eq_none_iff.mp hadmits.fits
  obtain ⟨kind, h, e, hregistered, he, hedate, -, heventOn⟩ := hs.exists_of_rescinded hrescinded
  cases a with
  | event x =>
    obtain ⟨row, hfind, -⟩ := event?_eq_some_iff.mp heventOn
    have hrowOn := List.find?_some hfind
    obtain ⟨hrowKey, hrowDate⟩ := isOn_iff.mp hrowOn
    have hmem : row.toLogRow ∈ s.rows .events :=
      List.mem_map_of_mem (List.mem_of_find?_eq_some hfind)
    exact (hfits row.toLogRow hmem).2.2.1 ⟨hkey.trans hrowKey.symm, hdate.trans hrowDate.symm⟩
  | correction x =>
    have hstands := hadmits.stands x rfl
    have hxkey : x.key = key := hkey
    have hxdate : x.date = date := Date.text_inj.mp hdate
    rw [hxkey, hxdate] at hstands
    exact rescinded_iff_rescindOn.mp hrescinded hstands
  | rescind x =>
    obtain ⟨row, hrow, hrowKey, hrowDate⟩ := hrescinded
    exact (hfits row hrow).2.2.1 ⟨hkey.trans hrowKey.symm, hdate.trans hrowDate.symm⟩

/-- A request leaves all rows of a rescinded date as they are. -/
theorem Sound.onDate_run (hs : s.Sound) (hrescinded : s.Rescinded key date) (r : Request) :
    (r.run s).onDate key date = s.onDate key date := by
  rcases r.logs_run s with hlogs | ⟨a, hadmits, hlogs⟩
  · exact onDate_eq_of_logs_eq hlogs key date
  · rw [onDate_eq_of_logs_eq hlogs]
    exact onDate_add_of_not (hs.not_isOn_of_admits hrescinded hadmits)

theorem Sound.onDate_after (hs : s.Sound) (hrescinded : s.Rescinded key date) (rs : List Request) :
    (s.after rs).onDate key date = s.onDate key date := by
  have hafter : (s.after rs).Sound ∧ (s.after rs).onDate key date = s.onDate key date := by
    refine after_induction (P := fun t => t.Sound ∧ t.onDate key date = s.onDate key date)
      ⟨hs, rfl⟩ ?_ rs
    rintro r t ⟨ht, honDate⟩
    exact ⟨ht.run r, (ht.onDate_run (hrescinded.of_onDate_eq honDate) r).trans honDate⟩
  exact hafter.2

/-! ## Rescinded dates -/

/-- The event of a date is out of the timeline of its entity, and stays on record: no other event
and no correction of the date is accepted, no version begins on it, and the version that is in
effect on it is the latest of those that begin earlier. -/
structure Withdrawn (s : Store) (key : EntityKey) (date : Date) : Prop where
  event : ∃ e, s.eventOn key date = .ok (some e) ∧
    ∀ (c : Submission) (now : Nat), c.key = key → c.date = date → c.id ≠ e.id →
      ∃ fault, (Session.submit c now).FailsWith s fault
  correction : ∀ (c : Command) (now : Nat), c.key = key → c.date = date →
    ∃ fault, (Session.correct c now).FailsWith s fault
  versions : ∀ row ∈ s.versions, row.key = key → row.validFrom ≠ date.text
  effect : ∃ timeline v, s.Shows key timeline ∧ timeline.asOf? date = some v ∧
    v.validFrom < date ∧ ∀ w ∈ timeline, w.validFrom < date → w.validFrom ≤ v.validFrom

theorem Sound.submit_rescinded_fails (hs : s.Sound) {c : Submission}
    (hrescinded : s.Rescinded c.key c.date) {e : Event}
    (hon : s.eventOn c.key c.date = .ok (some e)) (hid : c.id ≠ e.id) (now : Nat) :
    ∃ fault, (Session.submit c now).FailsWith s fault := by
  apply Session.exists_failsWith
  intro out s' hok
  obtain ⟨-, ⟨x, hfound, hasks, -, -⟩ | ⟨-, -, t, ht, ⟨x, -, hstands, -⟩ | ⟨hfree, -, -⟩⟩⟩ :=
    Session.submit_eq_ok_iff.mp hok
  · -- An event with the identifier and the date of the submission is the event of the date.
    obtain ⟨kind, h, hregistered, he, hedate⟩ := hs.exists_registered_of_eventOn hon
    obtain ⟨row, hfind, hread⟩ := event?_eq_some_iff.mp hfound
    simp only [Submission.isEvent, Command.isEntry, Bool.and_eq_true, beq_iff_eq] at hasks
    obtain ⟨⟨⟨⟨⟨⟨⟨hxid, hxkey⟩, hxdate⟩, -⟩, -⟩, -⟩, -⟩, -⟩ := hasks
    have hrowKey := (LogRow.entry_eq_ok_iff.mp (EventRow.event_eq_ok_iff.mp hread).2.2).2.2.2.2.1
    have hx : x ∈ h.events := hregistered.reads.mem_events_iff.mpr
      ⟨row, List.mem_of_find?_eq_some hfind, hrowKey.symm.trans hxkey, hread⟩
    rw [hregistered.wellFormed.eq_of_date_eq hx he (hxdate.trans hedate.symm)] at hxid
    exact hid hxid.symm
  · rw [rescindOn, ht.logs_eq.2.2.1] at hstands
    exact rescinded_iff_rescindOn.mp hrescinded hstands
  · rw [eventOn, event?, ht.logs_eq.1] at hfree
    have hnone : s.eventOn c.key c.date = .ok none := hfree
    rw [hon] at hnone
    cases hnone

theorem correct_rescinded_fails {c : Command} (hrescinded : s.Rescinded c.key c.date) (now : Nat) :
    ∃ fault, (Session.correct c now).FailsWith s fault := by
  apply Session.exists_failsWith
  intro out s' hok
  obtain ⟨-, -, hstands, -⟩ := Session.correct_eq_ok_iff.mp hok
  exact rescinded_iff_rescindOn.mp hrescinded hstands

theorem Sound.withdrawn (hs : s.Sound) (hrescinded : s.Rescinded key date) :
    s.Withdrawn key date := by
  obtain ⟨kind, h, e, hregistered, -, -, ⟨r, hr, rfl⟩, hon⟩ := hs.exists_of_rescinded hrescinded
  obtain ⟨history, timeline, hreads, hreplay, hversions⟩ := hs.exists_timeline key
  obtain rfl := hregistered.reads.eq hreads
  constructor
  · refine ⟨e, hon, ?_⟩
    rintro c now rfl hdate hid
    rw [← hdate] at hrescinded hon
    exact hs.submit_rescinded_fails hrescinded hon hid now
  · rintro c now rfl hdate
    rw [← hdate] at hrescinded
    exact correct_rescinded_fails hrescinded now
  · intro row hrow hkey hfrom
    have hmem : row ∈ (s.ofEntity key).versions :=
      List.mem_filter.mpr ⟨hrow, beq_iff_eq.mpr hkey⟩
    rw [hversions] at hmem
    obtain ⟨v, hv, rfl⟩ := List.mem_map.mp hmem
    exact validFrom_ne_of_rescinded hreplay hr v hv (Date.text_inj.mp hfrom)
  · obtain ⟨v, hfound, hbefore, hlatest⟩ :=
      hregistered.wellFormed.exists_asOf?_of_rescinded hreplay hr
    exact ⟨timeline, v, ⟨⟨_, replayEntity_eq_ok_iff.mpr ⟨h, hreads, hreplay, rfl⟩⟩, hversions⟩,
      hfound, hbefore, hlatest⟩

/-- Once a run has rescinded a date of an entity, whatever is asked afterwards leaves the event, the
correction and the rescind of that date as they are, and the event stays withdrawn. -/
theorem withdrawn_after (before rest : List Request) (key : EntityKey) (date : Date)
    (hrescinded : (empty.after before).Rescinded key date) :
    ((empty.after before).after rest).onDate key date = (empty.after before).onDate key date ∧
      ((empty.after before).after rest).Withdrawn key date := by
  have hsound := sound_after before
  have honDate := hsound.onDate_after hrescinded rest
  exact ⟨honDate, (hsound.after rest).withdrawn (hrescinded.of_onDate_eq honDate)⟩

/-- Submitting the later change once more, under new identifiers, does not bring it back. -/
theorem withdrawn_after_sample :
    (empty.after [.submit Sample.created 1, .submit Sample.updated 2,
        .rescind Sample.rescinded 3]).Rescinded Sample.key Sample.rescinded.date ∧
      ((empty.after [.submit Sample.created 1, .submit Sample.updated 2,
        .rescind Sample.rescinded 3]).after
          [.submit { Sample.updated with id := "e-3", submission := "s-3" } 4]).Withdrawn
            Sample.key Sample.rescinded.date := by
  have hrescinded : ∃ row ∈ (empty.after [.submit Sample.created 1, .submit Sample.updated 2,
      .rescind Sample.rescinded 3]).rescinds,
      row.key = Sample.key ∧ row.date = Sample.rescinded.date.text := by decide +kernel
  exact ⟨hrescinded, (withdrawn_after _ _ _ _ hrescinded).2⟩

end Store

end DatedLedger
