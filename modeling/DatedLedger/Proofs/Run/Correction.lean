import DatedLedger.Proofs.Run.Rescission
import DatedLedger.Proofs.Timeline.Corrections

/-!
# Which corrections are accepted

A correction replaces a payload in the middle of a history, and the ledger replays
the history to decide on it.  In a store that a run reaches the decision is a local
one: the date has to carry an event that is neither rescinded nor corrected, the
identifiers have to be new, and an event of the type of that event has to be
permitted to set the replacement.  What the events after it set is not asked.
-/

namespace DatedLedger

namespace Store

variable {s : Store} {c : Command} {h : History} {kind : EntityKind} {date : Date}
  {key : EntityKey}

/-! ## Recording a correction -/

/-- A correction that fits into its log is recorded exactly when an event of the type of its
target may set the replacement. -/
theorem Registered.exists_records_correction_iff {x : Entry} {target : Event}
    (hs : s.Registered x.key kind h)
    (hfits : x.row.fault? .corrections (s.rows .corrections) = none)
    (hpayload : Payload.parse x.payload.text = .ok x.payload) (htarget : target ∈ h.events)
    (hdate : target.date = x.date) (hstands : ∀ r ∈ h.rescinds, r.date ≠ x.date)
    (hnew : ∀ r ∈ h.corrections, r.date ≠ x.date) :
    (∃ s', s.Records (.correction x) s') ↔ kind.PermitsAs target.type x.payload := by
  have hreads := hs.reads
  obtain ⟨h', hreads', hperm⟩ := Reads.exists_add (a := .correction x) hreads hpayload
  have hevents := hreads.events_add_of_ne hreads' (by simp [AuditEntry.log])
  have hrescinds := hreads.rescinds_add_of_ne hreads' (by simp [AuditEntry.log])
  have hlawful := hs.wellFormed.lawful_add_correction_iff (c := x.stored x.payload) hs.lawful
    htarget hdate hstands hnew hperm.corrections
  rw [← hevents, ← hrescinds, ← exists_replay_iff x.key] at hlawful
  refine Iff.trans ?_ hlawful
  constructor
  · rintro ⟨s', -, timeline, last, hreplay, -⟩
    obtain ⟨h'', hreads'', htimeline, -⟩ := replayEntity_eq_ok_iff.mp hreplay
    rw [← hreads'.eq hreads''] at htimeline
    exact ⟨timeline, htimeline⟩
  · rintro ⟨timeline', hreplay'⟩
    exact ⟨_, hfits, timeline', h'.positions.max?,
      replayEntity_eq_ok_iff.mpr ⟨h', hreads', hreplay', rfl⟩, rfl⟩

/-! ## Commands -/

/-- The date of the command carries an event that is neither rescinded nor corrected and whose
type permits the replacement, and no correction has its identifier or, within its tenant, its
request. -/
structure AdmitsCorrection (s : Store) (c : Command) : Prop where
  target : ∃ row ∈ s.events, row.key = c.key ∧ row.date = c.date.text ∧
    ∃ kind type, row.kind = EntityKind.name kind ∧ row.type = EventType.name type ∧
      kind.PermitsAs type c.payload
  stands : ∀ row ∈ s.rescinds, row.key = c.key → row.date ≠ c.date.text
  uncorrected : ∀ row ∈ s.corrections, row.key = c.key → row.date ≠ c.date.text
  id : ∀ row ∈ s.corrections, row.id ≠ c.id
  submission : ∀ row ∈ s.corrections, row.key.tenant = c.key.tenant →
    row.submission ≠ c.submission

theorem correctionById_eq_none_iff {id : String} :
    s.correctionById id = .ok none ↔ ∀ row ∈ s.corrections, row.id ≠ id := by
  simp [correctionById, entry?_eq_none_iff, hasId]

theorem correctionBySubmission_eq_none_iff {tenant submission : String} :
    s.correctionBySubmission tenant submission = .ok none ↔
      ∀ row ∈ s.corrections, row.key.tenant = tenant → row.submission ≠ submission := by
  simp [correctionBySubmission, entry?_eq_none_iff, hasSubmission]

theorem correctionOn_eq_none_iff :
    s.correctionOn key date = .ok none ↔
      ∀ row ∈ s.corrections, row.key = key → row.date ≠ date.text := by
  simp [correctionOn, entry?_eq_none_iff, isOn]

/-- The row of an event names its kind and its type. -/
theorem permitsAs_row_iff {row : EventRow} {e : Event} (hread : row.event = .ok e) (p : Payload) :
    (∃ kind type, row.kind = EntityKind.name kind ∧ row.type = EventType.name type ∧
      kind.PermitsAs type p) ↔ e.kind.PermitsAs e.type p := by
  obtain ⟨hkind, htype, -⟩ := EventRow.event_eq_ok_iff.mp hread
  constructor
  · rintro ⟨kind, type, hrowKind, hrowType, hpermits⟩
    rw [EntityKind.name_inj.mp (hkind.symm.trans hrowKind)]
    rw [← readType_eq_ok_iff, hrowType, readType_eq_ok_iff.mpr rfl] at htype
    rw [← Except.ok.inj htype]
    exact hpermits
  · intro hpermits
    exact ⟨e.kind, e.type, hkind, htype, hpermits⟩

/-- Where all that a correction looks for is as it should be, its entry is recorded exactly when an
event of the type of its target may set the replacement. -/
theorem Sound.exists_records_correction_iff (hs : s.Sound) (hcounted : s.Counted)
    (hsize : s.size + 1 < 2 ^ 63)
    (hpayload : Payload.parse c.payload.text = .ok c.payload) {target : Event}
    (hregistered : s.Registered c.key kind h) (htarget : target ∈ h.events)
    (hdate : target.date = c.date) (hstands : s.rescindOn c.key c.date = .ok none)
    (hid : s.correctionById c.id = .ok none)
    (hsubmission : s.correctionBySubmission c.key.tenant c.submission = .ok none)
    (hfree : s.correctionOn c.key c.date = .ok none) (now : Nat) :
    (∃ s', s.Records (.correction (c.entry s.nextPosition now)) s') ↔
      kind.PermitsAs target.type c.payload := by
  have hreads := hregistered.reads
  have hfits := hcounted.fits_correction hsize hid hsubmission hfree now
  exact Registered.exists_records_correction_iff hregistered hfits hpayload htarget hdate
    ((hreads.rescindOn_eq_none_iff (hs.written .rescinds)).mp hstands)
    ((hreads.correctionOn_eq_none_iff (hs.written .corrections)).mp hfree)

/-- In a sound and counted store a correction with its fields in place is recorded exactly when
the store admits it. -/
theorem Sound.appends_correction_iff (hs : s.Sound) (hcounted : s.Counted)
    (hsize : s.size + 1 < 2 ^ 63) (hblank : c.blankField? .corrections = none)
    (hpayload : Payload.parse c.payload.text = .ok c.payload) (now : Nat) :
    (Session.correct c now).Appends s ↔ s.AdmitsCorrection c := by
  constructor
  · rintro ⟨r, s', happended⟩
    obtain ⟨-, ⟨target, hon⟩, hstands, hid, hsubmission, hfree, rfl, hrec⟩ :=
      Session.correct_eq_appended_iff.mp (Session.transaction_eq_ok_iff.mp happended)
    obtain ⟨kind, h, hregistered, htarget, hdate⟩ := hs.exists_registered_of_eventOn hon
    have hpermits := (hs.exists_records_correction_iff hcounted hsize hpayload hregistered
      htarget hdate hstands hid hsubmission hfree now).mp ⟨s', hrec⟩
    rw [← hregistered.wellFormed.kinds target htarget] at hpermits
    obtain ⟨row, hfind, hread⟩ := event?_eq_some_iff.mp hon
    have hrowOn := List.find?_some hfind
    obtain ⟨hkey, hrowDate⟩ := isOn_iff.mp hrowOn
    exact ⟨⟨row, List.mem_of_find?_eq_some hfind, hkey, hrowDate,
      (permitsAs_row_iff hread _).mpr hpermits⟩, rescindOn_eq_none_iff.mp hstands,
      correctionOn_eq_none_iff.mp hfree, correctionById_eq_none_iff.mp hid,
      correctionBySubmission_eq_none_iff.mp hsubmission⟩
  · intro hadmits
    obtain ⟨row, hrow, hkey, hdate, hpermits⟩ := hadmits.target
    obtain ⟨kind, h, target, hregistered, htarget, hread, hon⟩ :=
      hs.exists_eventOn hrow hkey hdate
    have htargetDate := (hregistered.reads.mem_of_eventOn (hs.written .events) hon).2
    have hstands := rescindOn_eq_none_iff.mpr hadmits.stands
    have hid := correctionById_eq_none_iff.mpr hadmits.id
    have hsubmission := correctionBySubmission_eq_none_iff.mpr hadmits.submission
    have hfree := correctionOn_eq_none_iff.mpr hadmits.uncorrected
    rw [permitsAs_row_iff hread, hregistered.wellFormed.kinds target htarget] at hpermits
    obtain ⟨s', hrec⟩ := (hs.exists_records_correction_iff hcounted hsize hpayload
      hregistered htarget htargetDate hstands hid hsubmission hfree now).mpr hpermits
    exact ⟨_, s', Session.transaction_of_eq_ok (Session.correct_eq_appended_iff.mpr
      ⟨hblank, ⟨target, hon⟩, hstands, hid, hsubmission, hfree, rfl, hrec⟩)⟩

/-- In every store that a run reaches, a correction with its fields in place is recorded exactly
when its date carries an event that is neither rescinded nor corrected, its identifiers are new,
and an event of that type may set the replacement. -/
theorem correction_appends_after_iff (rs : List Request)
    (hsize : (empty.after rs).size < 2 ^ 63 - 1) (c : Command) (now : Nat)
    (hblank : c.blankField? .corrections = none)
    (hpayload : Payload.parse c.payload.text = .ok c.payload) :
    (Session.correct c now).Appends (empty.after rs) ↔ (empty.after rs).AdmitsCorrection c :=
  (sound_after rs).appends_correction_iff (counted_after rs (by omega)) (by omega) hblank hpayload
    now

theorem correction_appends_after_sample_iff :
    (Session.correct Sample.corrected 9).Appends
        (empty.after [.submit Sample.created 1, .submit Sample.updated 2]) ∧
      ((Session.correct Sample.corrected 9).Appends
          (empty.after [.submit Sample.created 1, .submit Sample.updated 2]) ↔
        (empty.after [.submit Sample.created 1, .submit Sample.updated 2]).AdmitsCorrection
          Sample.corrected) := by
  have hsize := size_after_le (s := empty) [.submit Sample.created 1, .submit Sample.updated 2]
  have hempty : empty.size +
      [Request.submit Sample.created 1, .submit Sample.updated 2].length < 2 ^ 63 - 1 := by decide
  refine ⟨by decide +kernel, ?_⟩
  exact correction_appends_after_iff _ (Nat.lt_of_le_of_lt hsize hempty) _ _ (by decide +kernel)
    Sample.parse_payload

end Store

end DatedLedger
