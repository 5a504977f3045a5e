import DatedLedger.Proofs.Run.Positions
import DatedLedger.Proofs.Run.Soundness

/-!
# Which submissions are accepted

The ledger decides on a submission by replaying the whole history of its entity.  In
a store that a run reaches the decision is a local one: the identifiers have to be
new, the date has to be free, and the submission has to be either a permitted update
after the creation of a registered entity, or the creation of an unknown one.
-/

namespace DatedLedger

namespace Store

/-- The submission changes a registered entity: it agrees with what is registered, is later than
the event that created the entity, and sets only what the rules permit. -/
structure AcceptsUpdate (s : Store) (c : Submission) : Prop where
  registered : ∃ head, s.head c.key = .ok (some head) ∧ head.kind = c.kind ∧
    ∀ k ∈ c.owningKey, head.owningKey = some k
  type : c.type = .update
  later : ∃ h, s.Reads c.key h ∧ ∃ first ∈ h.events, first.type = .create ∧ first.date < c.date
  permits : c.kind.Permits c.payload

/-- The submission creates an unknown entity: its owning key is free, and what it sets satisfies
the rules. -/
structure AcceptsCreate (s : Store) (c : Submission) : Prop where
  unregistered : s.head c.key = .ok none
  type : c.type = .create
  owningKey : ∀ k ∈ c.owningKey, ∀ row ∈ s.heads,
    ¬(row.key.tenant = c.key.tenant ∧ row.kind = c.kind.name ∧ row.owningKey = some k)
  obeys : c.kind.violation? c.payload.withoutNulls = none

/-- No event has the identifier of the submission, none of its tenant has its request, and none of
its entity has its date. -/
structure IsNew (s : Store) (c : Submission) : Prop where
  id : ∀ row ∈ s.events, row.id ≠ c.id
  submission : ∀ row ∈ s.events, row.key.tenant = c.key.tenant → row.submission ≠ c.submission
  date : ∀ row ∈ s.events, row.key = c.key → row.date ≠ c.date.text

variable {s s' t : Store} {c : Submission} {h : History} {kind : EntityKind} {key : EntityKey}
  {pos : Position} {now : Nat}

/-! ## Look-ups -/

theorem eventById_eq_none_iff {id : String} :
    s.eventById id = .ok none ↔ ∀ row ∈ s.events, row.id ≠ id := by
  simp [eventById, event?_eq_none_iff, hasId]

theorem eventBySubmission_eq_none_iff {tenant submission : String} :
    s.eventBySubmission tenant submission = .ok none ↔
      ∀ row ∈ s.events, row.key.tenant = tenant → row.submission ≠ submission := by
  simp [eventBySubmission, event?_eq_none_iff, hasSubmission]

theorem eventOn_eq_none_iff {date : Date} :
    s.eventOn key date = .ok none ↔ ∀ row ∈ s.events, row.key = key → row.date ≠ date.text := by
  simp [eventOn, event?_eq_none_iff, isOn]

theorem entityByOwningKey_eq_none_iff {tenant owningKey : String} :
    s.entityByOwningKey tenant kind owningKey = none ↔ ∀ row ∈ s.heads,
      ¬(row.key.tenant = tenant ∧ row.kind = kind.name ∧ row.owningKey = some owningKey) := by
  simp [entityByOwningKey, List.find?_eq_none, and_assoc]

theorem head_eq_none_iff : s.head key = .ok none ↔ ∀ row ∈ s.heads, row.key ≠ key := by
  rw [Store.head, mapM_rowResult_eq_none_iff, List.find?_eq_none]
  simp

theorem headFault?_eq_none_iff {row : HeadRow} {rows : List HeadRow} :
    row.fault? rows = none ↔
      (∀ r ∈ rows, ¬row.sharesOwningKey r) ∧ ∀ r ∈ rows, r.key ≠ row.key := by
  by_cases hshares : rows.any row.sharesOwningKey
  · have hnot : ¬∀ r ∈ rows, ¬row.sharesOwningKey r := by
      simpa using hshares
    simp only [HeadRow.fault?, hshares, if_true, reduceCtorEq, hnot, false_and]
  · have hall : ∀ r ∈ rows, ¬row.sharesOwningKey r := by
      simpa using hshares
    rw [and_iff_right hall]
    simp [HeadRow.fault?, hshares]

/-! ## Recording an event -/

variable {e : Event} {first : Event} {h' : History}

/-- An event that fits into its log is recorded exactly when its entity can then be replayed. -/
theorem exists_records_iff (hfits : e.row.toLogRow.fault? .events (s.rows .events) = none)
    (hreads : (s.add (.event e)).Reads e.key h') :
    (∃ s', s.Records (.event e) s') ↔
      Replay.Lawful h'.corrections (Replay.survivors h'.events h'.rescinds) := by
  rw [← exists_replay_iff e.key]
  constructor
  · rintro ⟨s', -, timeline, last, hreplay, -⟩
    obtain ⟨h'', hreads', htimeline, -⟩ := replayEntity_eq_ok_iff.mp hreplay
    rw [← hreads.eq hreads'] at htimeline
    exact ⟨timeline, htimeline⟩
  · rintro ⟨timeline, htimeline⟩
    exact ⟨_, hfits, timeline, h'.positions.max?,
      replayEntity_eq_ok_iff.mpr ⟨h', hreads, htimeline, rfl⟩, rfl⟩

/-- To a registered entity an event is added exactly as a permitted update after its creation. -/
theorem Registered.exists_records_iff (hregistered : s.Registered e.key kind h)
    (hfirst : h.FoundedBy first)
    (hfits : e.row.toLogRow.fault? .events (s.rows .events) = none)
    (hpayload : Payload.parse e.payload.text = .ok e.payload)
    (hnew : ∀ x ∈ h.events, x.date ≠ e.date) :
    (∃ s', s.Records (.event e) s') ↔
      e.type = .update ∧ first.date < e.date ∧ e.kind = kind ∧ kind.Permits e.payload := by
  have hreads := hregistered.reads
  obtain ⟨h', hreads', hperm⟩ := Reads.exists_add (a := .event e) hreads hpayload
  have hevents : h'.events.Perm (e.stored e.payload :: h.events) := hperm.events
  rw [Store.exists_records_iff hfits hreads']
  exact hregistered.wellFormed.lawful_add_event_iff (e := e.stored e.payload) hfirst
    hregistered.lawful hnew hevents
    (hreads.corrections_add_of_ne hreads' (by simp [AuditEntry.log]))
    (hreads.rescinds_add_of_ne hreads' (by simp [AuditEntry.log]))

/-- The first event of an entity is added exactly when it creates the entity in a state in order. -/
theorem exists_records_first_iff (hreads : s.Reads e.key .empty)
    (hfits : e.row.toLogRow.fault? .events (s.rows .events) = none)
    (hpayload : Payload.parse e.payload.text = .ok e.payload) :
    (∃ s', s.Records (.event e) s') ↔
      e.type = .create ∧ e.kind.violation? e.payload.withoutNulls = none := by
  obtain ⟨h', hreads', hperm⟩ := Reads.exists_add (a := .event e) hreads hpayload
  have hevents : h'.events = [e.stored e.payload] := List.perm_singleton.mp hperm.events
  have hcorrections : h'.corrections = [] := hperm.corrections.eq_nil
  have hrescinds : h'.rescinds = [] := hperm.rescinds.eq_nil
  rw [exists_records_iff hfits hreads', hevents, hcorrections, hrescinds]
  exact History.lawful_singleton_iff

/-- A new submission fits into the log of events at the next position. -/
theorem IsNew.fits (hnew : s.IsNew c) (hcounted : s.Counted) (hsize : s.size + 1 < 2 ^ 63) :
    (c.event s.nextPosition now).row.toLogRow.fault? .events (s.rows .events) = none := by
  apply hcounted.fits hsize .events (e := (c.event s.nextPosition now).toEntry) rfl
  intro r hr
  obtain ⟨row, hrow, rfl⟩ := List.mem_map.mp hr
  exact ⟨hnew.id row hrow, hnew.submission row hrow, hnew.date row hrow⟩

/-! ## Acceptance -/

theorem Reads.exists_create_iff (hs : s.Reads key h) (hfirst : h.FoundedBy first)
    {date : Date} :
    (∃ h, s.Reads key h ∧ ∃ first ∈ h.events, first.type = .create ∧ first.date < date) ↔
      first.date < date := by
  constructor
  · rintro ⟨h'', hs', x, hx, htype, hdate⟩
    rw [← hs.eq hs'] at hx
    rcases hfirst.eq_or_later hx with rfl | ⟨hupdate, -⟩
    · exact hdate
    · rw [htype] at hupdate
      cases hupdate
  · intro hdate
    exact ⟨h, hs, first, hfirst.mem, hfirst.type, hdate⟩

/-- For a registered entity a new submission is recorded exactly as a permitted update. -/
theorem Sound.records_registered_iff (hs : s.Sound) (hcounted : s.Counted)
    (hsize : s.size + 1 < 2 ^ 63) (hpayload : Payload.parse c.payload.text = .ok c.payload)
    (hnew : s.IsNew c) {head : Head} (hhead : s.head c.key = .ok (some head)) :
    (∃ s', s.Records (.event (c.event s.nextPosition now)) s') ↔ c.type = .update ∧
      (∃ h, s.Reads c.key h ∧ ∃ first ∈ h.events, first.type = .create ∧ first.date < c.date) ∧
      c.kind = head.kind ∧ head.kind.Permits c.payload := by
  obtain ⟨h, hregistered⟩ := hs.exists_registered hhead
  obtain ⟨first, hfirst⟩ := hregistered.wellFormed.founded
  have hreads := hregistered.reads
  have hfree := (hreads.eventOn_eq_none_iff (hs.written .events)).mp
    (eventOn_eq_none_iff.mpr hnew.date)
  rw [hreads.exists_create_iff hfirst]
  exact Registered.exists_records_iff (e := c.event s.nextPosition now) hregistered hfirst
    (hnew.fits hcounted hsize) hpayload hfree

/-- The store in which the entity of a submission has just been registered. -/
def register (s : Store) (c : Submission) (pos : Position) : Store :=
  { s with heads := s.heads ++ [c.headRow pos] }

theorem Sound.records_unregistered_iff (hs : s.Sound) (hcounted : s.Counted)
    (hsize : s.size + 1 < 2 ^ 63) (hpayload : Payload.parse c.payload.text = .ok c.payload)
    (hnew : s.IsNew c) (hhead : s.head c.key = .ok none) :
    (∃ s', (s.register c s.nextPosition).Records (.event (c.event s.nextPosition now)) s') ↔
      c.type = .create ∧ c.kind.violation? c.payload.withoutNulls = none := by
  have hreads := reads_empty (hs.head_eq_none_iff.mp hhead)
  exact exists_records_first_iff (e := c.event s.nextPosition now)
    (s := s.register c s.nextPosition)
    ⟨hreads.events, hreads.corrections, hreads.rescinds⟩ (hnew.fits hcounted hsize) hpayload

/-- The entity of a submission can be registered exactly when its owning key is free. -/
theorem headRow_fits_iff (hhead : s.head c.key = .ok none) :
    (c.headRow pos).fault? s.heads = none ↔ ∀ k ∈ c.owningKey, ∀ row ∈ s.heads,
      ¬(row.key.tenant = c.key.tenant ∧ row.kind = c.kind.name ∧ row.owningKey = some k) := by
  rw [headFault?_eq_none_iff]
  constructor
  · rintro ⟨hshares, -⟩ k hk row hrow ⟨htenant, hkind, howning⟩
    apply hshares row hrow
    have hkey : c.owningKey = some k := hk
    simp [HeadRow.sharesOwningKey, Submission.headRow, htenant, hkind, howning, hkey]
  · intro hfree
    refine ⟨?_, head_eq_none_iff.mp hhead⟩
    intro row hrow hshares
    simp only [HeadRow.sharesOwningKey, Submission.headRow, Bool.and_eq_true, beq_iff_eq] at hshares
    obtain ⟨⟨⟨htenant, hkind⟩, hsome⟩, howning⟩ := hshares
    obtain ⟨k, hk⟩ := Option.isSome_iff_exists.mp hsome
    exact hfree k hk row hrow ⟨htenant.symm, hkind.symm, howning.symm.trans hk⟩

/-- In a sound and counted store a submission with its fields in place is recorded exactly when it
is new, and changes a registered entity or creates an unknown one. -/
theorem Sound.appends_iff (hs : s.Sound) (hcounted : s.Counted) (hsize : s.size + 1 < 2 ^ 63)
    (hblank : c.blankField? = none) (hpayload : Payload.parse c.payload.text = .ok c.payload) :
    (Session.submit c now).Appends s ↔ s.IsNew c ∧ (s.AcceptsUpdate c ∨ s.AcceptsCreate c) := by
  constructor
  · rintro ⟨r, s', h⟩
    obtain ⟨-, hid, hsubmission, rfl, t, ht, hfree, hrec⟩ :=
      Session.submit_eq_appended_iff.mp (Session.transaction_eq_ok_iff.mp h)
    have hnew : s.IsNew c := by
      refine ⟨eventById_eq_none_iff.mp hid, eventBySubmission_eq_none_iff.mp hsubmission, ?_⟩
      rw [← ht.logs_eq.1]
      exact eventOn_eq_none_iff.mp hfree
    refine ⟨hnew, ?_⟩
    cases ht with
    | registered head hhead hkind howning =>
      left
      obtain ⟨htype, hlater, -, hpermits⟩ :=
        (hs.records_registered_iff hcounted hsize hpayload hnew hhead).mp ⟨s', hrec⟩
      rw [hkind] at hpermits
      exact ⟨⟨head, hhead, hkind, howning⟩, htype, hlater, hpermits⟩
    | registers hhead htype howning hfault =>
      right
      obtain ⟨-, hobeys⟩ :=
        (hs.records_unregistered_iff hcounted hsize hpayload hnew hhead).mp ⟨s', hrec⟩
      exact ⟨hhead, htype, (headRow_fits_iff hhead).mp hfault, hobeys⟩
    | unregistered hhead htype =>
      exact (not_records_update (e := c.event s.nextPosition now)
        (hs.head_eq_none_iff.mp hhead) htype hrec).elim
  · rintro ⟨hnew, haccepts⟩
    have hid := eventById_eq_none_iff.mpr hnew.id
    have hsubmission := eventBySubmission_eq_none_iff.mpr hnew.submission
    have hfree := eventOn_eq_none_iff.mpr hnew.date
    have hrecorded : ∃ t, s.Identifies c s.nextPosition t ∧ t.eventOn c.key c.date = .ok none ∧
        ∃ s', t.Records (.event (c.event s.nextPosition now)) s' := by
      rcases haccepts with hupdate | hcreate
      · obtain ⟨head, hhead, hkind, howning⟩ := hupdate.registered
        refine ⟨s, .registered head hhead hkind howning, hfree, ?_⟩
        refine (hs.records_registered_iff hcounted hsize hpayload hnew hhead).mpr ?_
        rw [hkind]
        exact ⟨hupdate.type, hupdate.later, rfl, hupdate.permits⟩
      · have hhead := hcreate.unregistered
        refine ⟨s.register c s.nextPosition, .registers hhead hcreate.type ?_ ?_, hfree, ?_⟩
        · intro k hk
          exact entityByOwningKey_eq_none_iff.mpr (hcreate.owningKey k hk)
        · exact (headRow_fits_iff hhead).mpr hcreate.owningKey
        · exact (hs.records_unregistered_iff hcounted hsize hpayload hnew hhead).mpr
            ⟨hcreate.type, hcreate.obeys⟩
    obtain ⟨t, ht, htfree, s', hrec⟩ := hrecorded
    exact ⟨_, s', Session.transaction_of_eq_ok (Session.submit_eq_appended_iff.mpr
      ⟨hblank, hid, hsubmission, rfl, t, ht, htfree, hrec⟩)⟩

/-- In every store that a run reaches, a submission with its fields in place is recorded exactly
when it is new, and changes a registered entity or creates an unknown one. -/
theorem appends_after_iff (rs : List Request) (hsize : (empty.after rs).size < 2 ^ 63 - 1)
    (c : Submission) (now : Nat) (hblank : c.blankField? = none)
    (hpayload : Payload.parse c.payload.text = .ok c.payload) :
    (Session.submit c now).Appends (empty.after rs) ↔
      (empty.after rs).IsNew c ∧
        ((empty.after rs).AcceptsUpdate c ∨ (empty.after rs).AcceptsCreate c) :=
  (sound_after rs).appends_iff (counted_after rs (by omega)) (by omega) hblank hpayload

theorem appends_after_sample_iff :
    (Session.submit Sample.updated 9).Appends (empty.after [.submit Sample.created 1]) ∧
      ((Session.submit Sample.updated 9).Appends (empty.after [.submit Sample.created 1]) ↔
        (empty.after [.submit Sample.created 1]).IsNew Sample.updated ∧
          ((empty.after [.submit Sample.created 1]).AcceptsUpdate Sample.updated ∨
            (empty.after [.submit Sample.created 1]).AcceptsCreate Sample.updated)) := by
  have hsize := size_after_le (s := empty) [.submit Sample.created 1]
  have hempty : empty.size + [Request.submit Sample.created 1].length < 2 ^ 63 - 1 := by decide
  refine ⟨by decide +kernel, ?_⟩
  exact appends_after_iff _ (Nat.lt_of_le_of_lt hsize hempty) _ _ (by decide +kernel)
    Sample.parse_payload

end Store

end DatedLedger
