import DatedLedger.Proofs.Run.Acceptance
import DatedLedger.Proofs.Store.Pairs
import DatedLedger.Proofs.Timeline.Faults
import DatedLedger.Proofs.Timeline.Places

/-!
# What submissions are answered

An update of a registered entity is answered from little of the store: the entries
that share one of its keys, the registered identity of its entity, and the event that
created it.  In particular the changes that other updates have made play no part.
-/

namespace DatedLedger

/-- An outcome without the place of a new event. -/
def Outcome.unplaced : Outcome Event → Outcome Event
  | existing e => .existing e
  | appended e => .appended e.unplaced

namespace Session

variable {α : Type} {s t : Store}

/-- What a session that is run as a transaction answers: its result, or the cause for which it
fails. -/
def answer (session : Session α) (s : Store) : Except LedgerError α :=
  match session.transaction s with
  | .ok a _ => .ok a
  | .error e _ => .error e

theorem answer_of_eq_ok {session : Session α} {a : α} (h : session s = .ok a t) :
    session.answer s = .ok a := by
  rw [answer, transaction_of_eq_ok h]

theorem answer_of_eq_error {session : Session α} {e : LedgerError} (h : session s = .error e t) :
    session.answer s = .error e := by
  rw [answer, transaction_of_eq_error h]

theorem appends_iff_exists_answer {session : Session (Outcome Event)} :
    session.Appends s ↔ ∃ r, (session.answer s).map Outcome.unplaced = .ok (.appended r) := by
  constructor
  · rintro ⟨r, s', h⟩
    refine ⟨r.unplaced, ?_⟩
    rw [answer, h]
    rfl
  · rintro ⟨r, h⟩
    rw [answer] at h
    split at h
    next out s' hsession =>
      cases out with
      | existing e => simp [Except.map, Outcome.unplaced] at h
      | appended e => exact ⟨e, s', hsession⟩
    next e s' hsession => cases h

/-! ## Sessions that are answered alike -/

/-- Two sessions on two stores have the same answer up to the place of a new event. -/
def Alike (x : Session (Outcome Event)) (s : Store) (y : Session (Outcome Event)) (t : Store) :
    Prop :=
  (x.answer s).map Outcome.unplaced = (y.answer t).map Outcome.unplaced

theorem alike_of_related {x y : Session (Outcome Event)}
    (h : Related (fun out _ out' _ => out.unplaced = out'.unplaced) x s y t) : Alike x s y t := by
  rcases h.ok_or_error with ⟨out, s', out', t', hx, hy, hsame⟩ | ⟨e, s', t', hx, hy⟩
  · rw [Alike, answer_of_eq_ok hx, answer_of_eq_ok hy]
    exact congrArg Except.ok hsame
  · rw [Alike, answer_of_eq_error hx, answer_of_eq_error hy]

/-- Events that are recorded or refused alike are answered as two new ones. -/
theorem related_of_alike {e e' : Event} (h : Alike (appendEvent e) s (appendEvent e') t) :
    Related (fun out _ out' _ => Outcome.Same e e' out out') (appendEvent e) s
      (appendEvent e') t := by
  cases hx : appendEvent e s with
  | ok out s' =>
    cases hy : appendEvent e' t with
    | ok out' t' =>
      exact .of_eq_ok hx hy
        (.inr ⟨(appendEvent_eq_ok_iff.mp hx).1, (appendEvent_eq_ok_iff.mp hy).1⟩)
    | error fault t' =>
      rw [Alike, answer_of_eq_ok hx, answer_of_eq_error hy] at h
      cases h
  | error fault s' =>
    cases hy : appendEvent e' t with
    | ok out' t' =>
      rw [Alike, answer_of_eq_error hx, answer_of_eq_ok hy] at h
      cases h
    | error fault' t' =>
      rw [Alike, answer_of_eq_error hx, answer_of_eq_error hy] at h
      exact .of_eq_error hx (Except.error.inj h ▸ hy)

/-! ## Submissions -/

variable {c : Submission} {head head' : Head} {now now' : Nat}

/-- A submission is answered alike in two stores in which it meets the same entries and the same
identity, if it is so where it is new. -/
theorem Alike.submit (hid : t.eventById c.id = s.eventById c.id)
    (hsubmission : t.eventBySubmission c.key.tenant c.submission =
      s.eventBySubmission c.key.tenant c.submission)
    (hon : t.eventOn c.key c.date = s.eventOn c.key c.date)
    (hrescind : t.rescindOn c.key c.date = s.rescindOn c.key c.date)
    (hhead : s.head c.key = .ok (some head)) (hhead' : t.head c.key = .ok (some head'))
    (hkind : head'.kind = head.kind) (howning : head'.owningKey = head.owningKey)
    (happend : s.IsNew c → Alike (appendEvent (c.event s.nextPosition now)) s
      (appendEvent (c.event t.nextPosition now')) t) :
    Alike (submit c now) s (submit c now') t := by
  have hidentity : (s.head c.key).map (Option.map fun head => (head.kind, head.owningKey)) =
      (t.head c.key).map (Option.map fun head => (head.kind, head.owningKey)) := by
    rw [hhead, hhead', Except.map, Except.map, Option.map_some, Option.map_some, hkind, howning]
  have hregister : s.head c.key = .ok none → Related (fun _ _ _ _ => True)
      (register c s.nextPosition) s (register c t.nextPosition) t := by
    intro hnone
    rw [hnone] at hhead
    cases hhead
  refine alike_of_related ((Related.submit hid.symm hsubmission.symm
    (.resolveIdentity hidentity hregister) hon.symm hrescind.symm ?_).mono ?_)
  · intro hfound hsame hon? s' t' hs' ht'
    rw [(hs'.agrees hhead).1, (ht'.agrees hhead').1]
    exact related_of_alike (happend ⟨Store.eventById_eq_none_iff.mp hfound,
      Store.eventBySubmission_eq_none_iff.mp hsame, Store.eventOn_eq_none_iff.mp hon?⟩)
  · rintro _ _ _ _ (⟨a, rfl, rfl⟩ | ⟨rfl, rfl⟩)
    · rfl
    · rfl

end Session

/-! ## Recording an update -/

/-- What becomes of an update that is added to the log of its entity, by the event that created the
entity and the corrections: its payload has to come back from the log, its date has to be later,
and the rules have to permit it. -/
def admission (key : EntityKey) (corrections : List Entry) (first e : Event) :
    Except LedgerError Unit :=
  match Payload.parse e.payload.text with
  | .error fault => .error (.row (.payload fault))
  | .ok payload =>
    if first.date < e.date then
      verdict (Replay.apply key (some (Replay.founding corrections first)) e payload)
    else .error (.invalidSequence key.entity (.updateFirst e.date))

namespace Store

variable {s : Store} {key : EntityKey} {h : History} {kind : EntityKind} {first e : Event}

/-- Whether an update of a registered entity can be replayed, and why not, is decided by the event
that created the entity. -/
theorem Registered.verdict_add_update (hs : s.Registered e.key kind h)
    (hfirst : h.FoundedBy first) (hnew : ∀ x ∈ h.events, x.date ≠ e.date)
    (htype : e.type = .update) :
    verdict ((s.add (.event e)).replayEntity e.key) =
      admission e.key h.corrections first e := by
  have hreads := hs.reads
  cases hpayload : Payload.parse e.payload.text with
  | error fault =>
    have hfails : (s.add (.event e)).replayEntity e.key = .error (.row (.payload fault)) :=
      Reads.replayEntity_add_unreadable (a := .event e) hreads hpayload
    rw [admission, hpayload, hfails]
    rfl
  | ok p =>
    obtain ⟨h', hreads', hperm⟩ : ∃ h', (s.add (.event e)).Reads e.key h' ∧
        h'.Perm (h.add (.event (e.stored p))) :=
      Reads.exists_add (a := .event e) hreads hpayload
    have hevents : h'.events.Perm (e.stored p :: h.events) := hperm.events
    have hcorrections := hreads.corrections_add_of_ne hreads' (by simp [AuditEntry.log])
    have hrescinds := hreads.rescinds_add_of_ne hreads' (by simp [AuditEntry.log])
    simp only [admission, hpayload]
    rw [hreads'.replayEntity_eq, verdict_map, hcorrections, hrescinds]
    split
    next hdate =>
      exact hs.wellFormed.verdict_add_later (e := e.stored p) hfirst hs.lawful hnew hevents hdate
        e.key
    next hdate =>
      have hearlier : e.date < first.date :=
        lt_of_le_of_ne (not_lt.mp hdate) (hnew first hfirst.mem).symm
      rw [hs.wellFormed.replay_add_earlier (e := e.stored p) hfirst hnew hevents htype hearlier]
      rfl

end Store

namespace Session

open Store

variable {s : Store} {e : Event}

/-- An event that fits into its log is answered by the replay of its entity. -/
theorem answer_appendEvent (hfits : e.row.toLogRow.fault? .events (s.rows .events) = none) :
    (appendEvent e).answer s =
      ((s.add (.event e)).replayEntity e.key).map fun _ => .appended e := by
  have htype : (EventType.ofName? e.row.type).isSome := by
    simp [Event.row, EventType.ofName?_name]
  cases hreplay : (s.add (.event e)).replayEntity e.key with
  | ok result =>
    obtain ⟨timeline, last⟩ := result
    exact answer_of_eq_ok (appendEvent_eq_ok_iff.mpr ⟨rfl, hfits, timeline, last, hreplay, rfl⟩)
  | error fault =>
    have hinsert : insertEvent e.row s = .ok () (s.add (.event e)) :=
      insertEvent_eq_ok_iff.mpr ⟨htype, hfits, rfl⟩
    have hread : Session.read (fun s => s.replayEntity e.key) (s.add (.event e)) =
        .error fault (s.add (.event e)) := by
      rw [Session.read, hreplay]
    apply answer_of_eq_error (t := s.add (.event e))
    rw [appendEvent, bind_of_eq_ok hinsert]
    exact bind_of_eq_error (bind_of_eq_error hread)

end Session

namespace Store

variable {s : Store} {c : Submission} {h : History} {kind : EntityKind} {first : Event}

/-- What a new update of a registered entity is answered, up to its place. -/
theorem Sound.answer_append_update (hs : s.Sound) (hcounted : s.Counted)
    (hsize : s.size + 1 < 2 ^ 63) (hregistered : s.Registered c.key kind h)
    (hfirst : h.FoundedBy first) (hnew : s.IsNew c) (htype : c.type = .update) (now : Nat) :
    ((Session.appendEvent (c.event s.nextPosition now)).answer s).map Outcome.unplaced =
      (admission c.key h.corrections first (c.event 0 0)).map fun _ => .appended (c.event 0 0) := by
  have hfree := (hregistered.reads.eventOn_eq_none_iff (hs.written .events)).mp
    (eventOn_eq_none_iff.mpr hnew.date)
  have hverdict : verdict ((s.add (.event (c.event s.nextPosition now))).replayEntity c.key) =
      admission c.key h.corrections first (c.event 0 0) :=
    hregistered.verdict_add_update (e := c.event s.nextPosition now) hfirst hfree htype
  rw [Session.answer_appendEvent (hnew.fits hcounted hsize), map_const_map]
  exact congrArg (Except.map fun _ => Outcome.appended (c.event 0 0)) hverdict

end Store

end DatedLedger
