import DatedLedger.Proofs.Store.Entities

/-!
# What a mutation does

A mutation that succeeds has met every one of its checks, and then either found its
entry on record and changed nothing, or recorded a new entry.  This module says so
once for each of the three mutations, as an equivalence; everything known about
them later follows from here.
-/

namespace DatedLedger

theorem EventType.ne_create_iff {type : EventType} : ¬type = .create ↔ type = .update := by
  cases type with
  | create => simp
  | update => simp

/-- The row that registers the entity of a submission. -/
def Submission.headRow (c : Submission) (pos : Position) : HeadRow where
  key := c.key
  kind := c.kind.name
  owningKey := c.owningKey
  versionCount := 0
  digest := ""
  lastPos := signedWord pos

namespace Store

/-- A new entry enters its log, and the timeline that then follows from the logs of its entity
becomes the stored one. -/
def Records (s : Store) (a : AuditEntry) (s' : Store) : Prop :=
  a.entry.row.fault? a.log (s.rows a.log) = none ∧
    ∃ timeline last, (s.add a).replayEntity a.entry.key = .ok (timeline, last) ∧
      s' = (s.add a).materialize a.entry.key timeline last

/-- The identity of a submission is in order; the second store has the entity registered if
this is its first event. -/
inductive Identifies (s : Store) (c : Submission) (pos : Position) : Store → Prop where
  | registered (head : Head) (hhead : s.head c.key = .ok (some head)) (hkind : head.kind = c.kind)
      (howning : ∀ k ∈ c.owningKey, head.owningKey = some k) : Identifies s c pos s
  | registers (hhead : s.head c.key = .ok none) (htype : c.type = .create)
      (hfree : ∀ k ∈ c.owningKey, s.entityByOwningKey c.key.tenant c.kind k = none)
      (hfault : (c.headRow pos).fault? s.heads = none) :
      Identifies s c pos { s with heads := s.heads ++ [c.headRow pos] }
  | unregistered (hhead : s.head c.key = .ok none) (htype : c.type = .update) :
      Identifies s c pos s

theorem Identifies.rows_eq {s t : Store} {c : Submission} {pos : Position}
    (h : s.Identifies c pos t) (log : Log) : t.rows log = s.rows log := by
  cases h with
  | registered head hhead hkind howning => rfl
  | registers hhead htype hfree hfault => cases log <;> rfl
  | unregistered hhead htype => rfl

theorem Identifies.logs_eq {s t : Store} {c : Submission} {pos : Position}
    (h : s.Identifies c pos t) :
    t.events = s.events ∧ t.corrections = s.corrections ∧ t.rescinds = s.rescinds ∧
      t.versions = s.versions := by
  cases h with
  | registered head hhead hkind howning => exact ⟨rfl, rfl, rfl, rfl⟩
  | registers hhead htype hfree hfault => exact ⟨rfl, rfl, rfl, rfl⟩
  | unregistered hhead htype => exact ⟨rfl, rfl, rfl, rfl⟩

/-- A submission to a registered entity is identified only as what is registered. -/
theorem Identifies.agrees {s t : Store} {c : Submission} {pos : Position} {head : Head}
    (ht : s.Identifies c pos t) (hhead : s.head c.key = .ok (some head)) :
    t = s ∧ head.kind = c.kind ∧ ∀ k ∈ c.owningKey, head.owningKey = some k := by
  cases ht with
  | registered found hfound hkind howning =>
    obtain rfl : found = head := Option.some.inj (Except.ok.inj (hfound.symm.trans hhead))
    exact ⟨rfl, hkind, howning⟩
  | registers hnone htype hfree hfault =>
    rw [hhead] at hnone
    cases hnone
  | unregistered hnone htype =>
    rw [hhead] at hnone
    cases hnone

end Store

namespace Session

variable {s s' : Store}

/-! ## Identity -/

theorem agree_eq_ok_iff {c : Submission} {head : Head} {u : Unit} :
    agree c head s = .ok u s' ↔
      head.kind = c.kind ∧ (∀ k ∈ c.owningKey, head.owningKey = some k) ∧ s' = s := by
  by_cases hkind : head.kind = c.kind
  · cases howning : c.owningKey with
    | none => simp [agree, pure_eq_ok_iff, hkind, howning]
    | some key =>
      by_cases hkey : head.owningKey = some key
      · simp [agree, pure_eq_ok_iff, hkind, howning, hkey]
      · simp [agree, throw_apply, hkind, howning, hkey]
  · simp [agree, bind_eq_ok_iff, throw_apply, hkind]

theorem register_eq_ok_iff {c : Submission} {pos : Position} {u : Unit} :
    register c pos s = .ok u s' ↔
      (∀ k ∈ c.owningKey, s.entityByOwningKey c.key.tenant c.kind k = none) ∧
        (c.headRow pos).fault? s.heads = none ∧
        s' = { s with heads := s.heads ++ [c.headRow pos] } := by
  cases howning : c.owningKey with
  | none =>
    have hregister : register c pos s = insertHead (c.headRow pos) s := by
      simp only [register, howning, Submission.headRow]
    rw [hregister, insertHead_eq_ok_iff]
    simp
  | some key =>
    cases hholder : s.entityByOwningKey c.key.tenant c.kind key with
    | none =>
      have hregister : register c pos s = insertHead (c.headRow pos) s := by
        simp only [register, howning, bind_of_eq_ok (get_apply s), hholder, Submission.headRow]
      rw [hregister, insertHead_eq_ok_iff]
      simp [hholder]
    | some holder =>
      simp [register, bind_eq_ok_iff, get_apply, throw_apply, howning, hholder]

theorem resolveIdentity_eq_ok_iff {c : Submission} {pos : Position} {u : Unit} :
    resolveIdentity c pos s = .ok u s' ↔ s.Identifies c pos s' := by
  rw [resolveIdentity, lookup_eq_ok_iff]
  simp only [agree_eq_ok_iff]
  constructor
  · rintro (⟨head, hhead, hkind, howning, rfl⟩ | ⟨hhead, h⟩)
    · exact .registered head hhead hkind howning
    · cases htype : c.type with
      | create =>
        simp only [htype, register_eq_ok_iff] at h
        obtain ⟨hfree, hfault, rfl⟩ := h
        exact .registers hhead htype hfree hfault
      | update =>
        simp only [htype, pure_eq_ok_iff] at h
        obtain ⟨-, rfl⟩ := h
        exact .unregistered hhead htype
  · intro h
    cases h with
    | registered head hhead hkind howning => exact .inl ⟨head, hhead, hkind, howning, rfl⟩
    | registers hhead htype hfree hfault =>
      refine .inr ⟨hhead, ?_⟩
      simp only [htype, register_eq_ok_iff]
      exact ⟨hfree, hfault, trivial⟩
    | unregistered hhead htype =>
      refine .inr ⟨hhead, ?_⟩
      simp only [htype, pure_eq_ok_iff, and_self]

/-! ## Recording an entry -/

theorem appendEvent_eq_ok_iff {e : Event} {out : Outcome Event} :
    appendEvent e s = .ok out s' ↔ out = .appended e ∧ s.Records (.event e) s' := by
  have htype : (EventType.ofName? e.row.type).isSome := by
    simp [Event.row, EventType.ofName?_name]
  simp only [appendEvent, bind_eq_ok_iff, insertEvent_eq_ok_iff, rematerialize_eq_ok_iff,
    pure_eq_ok_iff]
  constructor
  · rintro ⟨_, _, ⟨-, hfault, rfl⟩, timeline, _, ⟨last, hreplay, rfl⟩, rfl, rfl⟩
    exact ⟨rfl, hfault, timeline, last, hreplay, rfl⟩
  · rintro ⟨rfl, hfault, timeline, last, hreplay, rfl⟩
    exact ⟨(), _, ⟨htype, hfault, rfl⟩, timeline, _, ⟨last, hreplay, rfl⟩, rfl, rfl⟩

theorem appendCorrection_eq_ok_iff {e : Entry} {out : Outcome Entry} :
    appendCorrection e s = .ok out s' ↔ out = .appended e ∧ s.Records (.correction e) s' := by
  simp only [appendCorrection, bind_eq_ok_iff, insertCorrection_eq_ok_iff,
    rematerialize_eq_ok_iff, pure_eq_ok_iff]
  constructor
  · rintro ⟨_, _, ⟨hfault, rfl⟩, timeline, _, ⟨last, hreplay, rfl⟩, rfl, rfl⟩
    exact ⟨rfl, hfault, timeline, last, hreplay, rfl⟩
  · rintro ⟨rfl, hfault, timeline, last, hreplay, rfl⟩
    exact ⟨(), _, ⟨hfault, rfl⟩, timeline, _, ⟨last, hreplay, rfl⟩, rfl, rfl⟩

theorem appendRescind_eq_ok_iff {e : Entry} {out : Outcome Entry} :
    appendRescind e s = .ok out s' ↔ out = .appended e ∧ s.Records (.rescind e) s' := by
  simp only [appendRescind, bind_eq_ok_iff, insertRescind_eq_ok_iff, rematerialize_eq_ok_iff,
    pure_eq_ok_iff]
  constructor
  · rintro ⟨_, _, ⟨hfault, rfl⟩, timeline, _, ⟨last, hreplay, rfl⟩, rfl, rfl⟩
    exact ⟨rfl, hfault, timeline, last, hreplay, rfl⟩
  · rintro ⟨rfl, hfault, timeline, last, hreplay, rfl⟩
    exact ⟨(), _, ⟨hfault, rfl⟩, timeline, _, ⟨last, hreplay, rfl⟩, rfl, rfl⟩

/-! ## The three mutations -/

theorem settleDate_eq_ok_iff {c : Submission} {stored : Event} {out : Outcome Event} :
    settleDate c stored s = .ok out s' ↔
      s.rescindOn c.key c.date = .ok none ∧ stored.type = c.type ∧
        stored.payload.same c.payload ∧ out = .existing stored ∧ s' = s := by
  rw [settleDate, lookup_eq_ok_iff]
  simp only [answer_eq_ok_iff]
  simp [and_assoc]

/-- A submission is answered with the event that has its identifier, or with the one that has
its date, or by recording a new event. -/
theorem submit_eq_ok_iff {c : Submission} {now : Nat} {out : Outcome Event} :
    submit c now s = .ok out s' ↔ c.blankField? = none ∧
      ((∃ stored, s.eventById c.id = .ok (some stored) ∧ c.isEvent stored ∧
          out = .existing stored ∧ s' = s) ∨
        (s.eventById c.id = .ok none ∧
          s.eventBySubmission c.key.tenant c.submission = .ok none ∧
          ∃ t, s.Identifies c s.nextPosition t ∧
            ((∃ stored, t.eventOn c.key c.date = .ok (some stored) ∧
                t.rescindOn c.key c.date = .ok none ∧ stored.type = c.type ∧
                stored.payload.same c.payload ∧ out = .existing stored ∧ s' = t) ∨
              (t.eventOn c.key c.date = .ok none ∧
                out = .appended (c.event s.nextPosition now) ∧
                t.Records (.event (c.event s.nextPosition now)) s')))) := by
  rw [submit, fields_eq_ok_iff, lookup_eq_ok_iff]
  simp only [answer_eq_ok_iff, refuse_eq_ok_iff, get_bind_eq_ok_iff]
  simp only [bind_eq_ok_iff, resolveIdentity_eq_ok_iff]
  simp only [← bind_eq_ok_iff, lookup_eq_ok_iff, settleDate_eq_ok_iff, appendEvent_eq_ok_iff,
    exists_const]

/-- A correction is answered with the one that has its identifier, or with the one that has its
date, or by recording a new correction; its date carries an event and no rescind. -/
theorem correct_eq_ok_iff {c : Command} {now : Nat} {out : Outcome Entry} :
    correct c now s = .ok out s' ↔ c.blankField? .corrections = none ∧
      (∃ target, s.eventOn c.key c.date = .ok (some target)) ∧
      s.rescindOn c.key c.date = .ok none ∧
      ((∃ stored, s.correctionById c.id = .ok (some stored) ∧ c.isEntry stored ∧
          out = .existing stored ∧ s' = s) ∨
        (s.correctionById c.id = .ok none ∧
          s.correctionBySubmission c.key.tenant c.submission = .ok none ∧
          ((∃ stored, s.correctionOn c.key c.date = .ok (some stored) ∧
              stored.payload.same c.payload ∧ out = .existing stored ∧ s' = s) ∨
            (s.correctionOn c.key c.date = .ok none ∧
              out = .appended (c.entry s.nextPosition now) ∧
              s.Records (.correction (c.entry s.nextPosition now)) s')))) := by
  rw [correct]
  simp only [fields_eq_ok_iff, demand_eq_ok_iff, refuse_eq_ok_iff]
  rw [lookup_eq_ok_iff]
  simp only [answer_eq_ok_iff, refuse_eq_ok_iff]
  rw [lookup_eq_ok_iff]
  simp only [answer_eq_ok_iff, get_bind_eq_ok_iff, appendCorrection_eq_ok_iff]

/-- A rescind is answered with the one that has its identifier, or with the one that has its
date, or by recording a new rescind; its date carries an event that changes the entity. -/
theorem rescind_eq_ok_iff {c : Command} {now : Nat} {out : Outcome Entry} :
    rescind c now s = .ok out s' ↔ c.blankField? .rescinds = none ∧
      ∃ target, s.eventOn c.key c.date = .ok (some target) ∧ target.type = .update ∧
      ((∃ stored, s.rescindById c.id = .ok (some stored) ∧ c.isEntry stored ∧
          out = .existing stored ∧ s' = s) ∨
        (s.rescindById c.id = .ok none ∧
          s.rescindBySubmission c.key.tenant c.submission = .ok none ∧
          ((∃ stored, s.rescindOn c.key c.date = .ok (some stored) ∧
              stored.payload.same c.payload ∧ out = .existing stored ∧ s' = s) ∨
            (s.rescindOn c.key c.date = .ok none ∧
              out = .appended (c.entry s.nextPosition now) ∧
              s.Records (.rescind (c.entry s.nextPosition now)) s')))) := by
  rw [rescind, fields_eq_ok_iff, lookup_eq_ok_iff]
  simp only [unless_eq_ok_iff, throw_apply, reduceCtorEq, and_false, or_false,
    EventType.ne_create_iff]
  refine and_congr_right fun _ => exists_congr fun target => and_congr_right fun _ =>
    and_congr_right fun _ => ?_
  rw [lookup_eq_ok_iff]
  simp only [answer_eq_ok_iff, refuse_eq_ok_iff]
  rw [lookup_eq_ok_iff]
  simp only [answer_eq_ok_iff, get_bind_eq_ok_iff, appendRescind_eq_ok_iff]

/-! ## How a mutation ends -/

section Ends

variable {α : Type}

/-- The session, run as a transaction, is answered with an entry that is on record and changes
nothing. -/
def Answers (session : Session (Outcome α)) (s : Store) (entry : α) : Prop :=
  session.transaction s = .ok (.existing entry) s

/-- The session, run as a transaction, fails for this cause and changes nothing. -/
def FailsWith (session : Session α) (s : Store) (e : LedgerError) : Prop :=
  session.transaction s = .error e s

/-- The session, run as a transaction, adds an entry to its log. -/
def Appends (session : Session (Outcome α)) (s : Store) : Prop :=
  ∃ entry s', session.transaction s = .ok (.appended entry) s'

instance (session : Session (Outcome α)) (s : Store) : Decidable (session.Appends s) :=
  match h : session.transaction s with
  | .ok (.appended entry) s' => .isTrue ⟨entry, s', h⟩
  | .ok (.existing _) _ => .isFalse fun ⟨_, _, h'⟩ => by
    rw [h] at h'
    cases h'
  | .error _ _ => .isFalse fun ⟨_, _, h'⟩ => by
    rw [h] at h'
    cases h'

theorem failsWith_of_eq_error {session : Session α} {e : LedgerError}
    (h : session s = .error e s') : session.FailsWith s e :=
  transaction_of_eq_error h

theorem exists_failsWith {session : Session α} (h : ∀ a t, session s ≠ .ok a t) :
    ∃ e, session.FailsWith s e :=
  transaction_eq_error_of_forall_ne h

end Ends

theorem submit_eq_appended_iff {c : Submission} {now : Nat} {r : Event} :
    submit c now s = .ok (.appended r) s' ↔ c.blankField? = none ∧
      s.eventById c.id = .ok none ∧ s.eventBySubmission c.key.tenant c.submission = .ok none ∧
      r = c.event s.nextPosition now ∧
      ∃ t, s.Identifies c s.nextPosition t ∧ t.eventOn c.key c.date = .ok none ∧
        t.Records (.event r) s' := by
  rw [submit_eq_ok_iff]
  simp only [reduceCtorEq, false_and, and_false, exists_false, false_or, Outcome.appended.injEq]
  grind

theorem correct_eq_appended_iff {c : Command} {now : Nat} {r : Entry} :
    correct c now s = .ok (.appended r) s' ↔ c.blankField? .corrections = none ∧
      (∃ target, s.eventOn c.key c.date = .ok (some target)) ∧
      s.rescindOn c.key c.date = .ok none ∧ s.correctionById c.id = .ok none ∧
      s.correctionBySubmission c.key.tenant c.submission = .ok none ∧
      s.correctionOn c.key c.date = .ok none ∧
      r = c.entry s.nextPosition now ∧ s.Records (.correction r) s' := by
  rw [correct_eq_ok_iff]
  simp only [reduceCtorEq, false_and, and_false, exists_false, false_or, Outcome.appended.injEq]
  grind

theorem rescind_eq_appended_iff {c : Command} {now : Nat} {r : Entry} :
    rescind c now s = .ok (.appended r) s' ↔ c.blankField? .rescinds = none ∧
      (∃ target, s.eventOn c.key c.date = .ok (some target) ∧ target.type = .update) ∧
      s.rescindById c.id = .ok none ∧
      s.rescindBySubmission c.key.tenant c.submission = .ok none ∧
      s.rescindOn c.key c.date = .ok none ∧
      r = c.entry s.nextPosition now ∧ s.Records (.rescind r) s' := by
  rw [rescind_eq_ok_iff]
  simp only [reduceCtorEq, false_and, and_false, exists_false, false_or, Outcome.appended.injEq]
  grind

theorem submit_eq_reusedKey {c : Submission} {now : Nat} {stored : Event}
    (hblank : c.blankField? = none) (hid : s.eventById c.id = .ok (some stored))
    (hother : ¬c.isEvent stored) : submit c now s = .error (.reusedKey c.id) s := by
  have hfields : requireFields none s = .ok () s := requireFields_eq_ok_iff.mpr ⟨rfl, rfl⟩
  rw [submit, hblank, bind_of_eq_ok hfields, bind_of_eq_ok (read_of_eq_ok hid)]
  simp [hother, throw_apply]

theorem correct_eq_alreadyRescinded {c : Command} {now : Nat} {target : Event} {stored : Entry}
    (hblank : c.blankField? .corrections = none)
    (hon : s.eventOn c.key c.date = .ok (some target))
    (hrescind : s.rescindOn c.key c.date = .ok (some stored)) :
    correct c now s = .error (.alreadyRescinded c.key.entity c.date) s := by
  have hfields : requireFields none s = .ok () s := requireFields_eq_ok_iff.mpr ⟨rfl, rfl⟩
  rw [correct, hblank, bind_of_eq_ok hfields, bind_of_eq_ok (read_of_eq_ok hon)]
  simp only [Option.isNone_some, Bool.false_eq_true, if_false]
  rw [bind_of_eq_ok (read_of_eq_ok hrescind)]
  simp [throw_apply]

end Session

end DatedLedger
