import DatedLedger.Proofs.Run.Rescission
import DatedLedger.Proofs.Store.Failures

/-!
# What a failed session leaves

A session that is not run as a transaction keeps what it did before it failed.  The
mutations have done little by then: a submission may have registered its entity, and each
may have added its entry.  What could go wrong with the timeline is found out before the
stored one is taken away, for the only statement that is left then adds versions with
numbers of their own.  All this holds of any store, whatever its rows.
-/

namespace DatedLedger

namespace Session

variable {α : Type} {s t : Store}

namespace FailsWhere

/-! ## Statements -/

/-- A statement that is refused changes nothing. -/
theorem check_set (fault? : Option StorageFault) (u : Store) :
    FailsWhere (fun _ t => t = s) (do check fault?; set u) s := by
  cases fault? with
  | none => exact of_eq_ok (set_apply s u)
  | some fault => exact of_throw_bind rfl

theorem insertEvent (row : EventRow) :
    FailsWhere (fun _ t => t = s) (Session.insertEvent row) s :=
  of_get (of_ite (fun _ => of_throw_bind rfl) fun _ => check_set _ _)

theorem insertCorrection (row : LogRow) :
    FailsWhere (fun _ t => t = s) (Session.insertCorrection row) s :=
  of_get (check_set _ _)

theorem insertRescind (row : LogRow) :
    FailsWhere (fun _ t => t = s) (Session.insertRescind row) s :=
  of_get (check_set _ _)

theorem insertHead (row : HeadRow) : FailsWhere (fun _ t => t = s) (Session.insertHead row) s :=
  of_get (check_set _ _)

/-! ## Parts of mutations -/

/-- Storing a timeline anew fails before anything is changed. -/
theorem rematerialize_unchanged (key : EntityKey) :
    FailsWhere (fun _ t => t = s) (Session.rematerialize key) s :=
  rematerialize fun _ _ => rfl

/-- Recording an entry fails before its row is added or right after. -/
theorem append {x : Session Unit} {a : AuditEntry} {entry : α}
    (hx : FailsWhere (fun _ t => t = s) x s) (hok : ∀ t, x s = .ok () t → t = s.add a)
    (key : EntityKey) :
    FailsWhere (fun _ t => t = s ∨ t = s.add a)
      (do x; let _ ← Session.rematerialize key; return Outcome.appended entry) s := by
  refine bind (hx.mono fun _ _ => .inl) fun _ t ht => ?_
  have hadded := hok t ht
  refine bind ((rematerialize_unchanged key).mono fun _ u hu => .inr (hu.trans hadded)) ?_
  exact fun _ _ _ => of_eq_ok (pure_apply _ _)

theorem appendEvent (e : Event) :
    FailsWhere (fun _ t => t = s ∨ t = s.add (.event e)) (Session.appendEvent e) s :=
  append (a := .event e) (insertEvent _) (fun _ h => (insertEvent_eq_ok_iff.mp h).2.2) _

theorem appendCorrection (e : Entry) :
    FailsWhere (fun _ t => t = s ∨ t = s.add (.correction e)) (Session.appendCorrection e) s :=
  append (a := .correction e) (insertCorrection _) (fun _ h => (insertCorrection_eq_ok_iff.mp h).2)
    _

theorem appendRescind (e : Entry) :
    FailsWhere (fun _ t => t = s ∨ t = s.add (.rescind e)) (Session.appendRescind e) s :=
  append (a := .rescind e) (insertRescind _) (fun _ h => (insertRescind_eq_ok_iff.mp h).2) _

theorem agree (c : Submission) (head : Head) :
    FailsWhere (fun _ t => t = s) (Session.agree c head) s := by
  refine of_ite (fun _ => of_throw_bind rfl) fun _ => ?_
  cases c.owningKey with
  | none => exact of_eq_ok (pure_apply _ _)
  | some key => exact of_ite (fun _ => of_throw rfl) fun _ => of_eq_ok (pure_apply _ _)

theorem register (c : Submission) (pos : Position) :
    FailsWhere (fun _ t => t = s) (Session.register c pos) s := by
  rw [Session.register]
  cases c.owningKey with
  | none => exact insertHead _
  | some key =>
    refine of_get ?_
    cases s.entityByOwningKey c.key.tenant c.kind key with
    | none => exact insertHead _
    | some holder => exact of_throw_bind rfl

theorem resolveIdentity (c : Submission) (pos : Position) :
    FailsWhere (fun _ t => t = s) (Session.resolveIdentity c pos) s := by
  refine lookup (fun _ _ => rfl) fun head? _ => ?_
  cases head? with
  | some head => exact agree c head
  | none =>
    cases c.type with
    | create => exact register c pos
    | update => exact of_eq_ok (pure_apply _ _)

theorem settleDate (c : Submission) (stored : Event) :
    FailsWhere (fun _ t => t = s) (Session.settleDate c stored) s :=
  lookup (fun _ _ => rfl) fun _ _ =>
    of_ite (fun _ => of_eq_ok (pure_apply _ _)) fun _ => of_throw rfl

/-! ## Mutations -/

/-- A session that answers with what it found changes nothing. -/
theorem answer {Q : LedgerError → Store → Prop} {b : Prop} [Decidable b] {stored : α}
    {e : LedgerError} (h : Q e s) :
    FailsWhere Q (if b then pure (.existing stored) else throw e : Session (Outcome α)) s :=
  of_ite (fun _ => of_eq_ok (pure_apply _ _)) fun _ => of_throw h

theorem correct (c : Command) (now : Nat) :
    FailsWhere (fun _ t => t = s ∨ t = s.add (.correction (c.entry s.nextPosition now)))
      (Session.correct c now) s := by
  refine fields (fun _ => .inl rfl) (demand (fun _ _ => .inl rfl) (.inl rfl) ?_)
  refine refuse (fun _ _ => .inl rfl) (.inl rfl) fun _ => ?_
  refine lookup (fun _ _ => .inl rfl) fun found? _ => ?_
  cases found? with
  | some stored => exact answer (.inl rfl)
  | none =>
    refine refuse (fun _ _ => .inl rfl) (.inl rfl) fun _ => ?_
    refine lookup (fun _ _ => .inl rfl) fun on? _ => ?_
    cases on? with
    | some stored => exact answer (.inl rfl)
    | none => exact of_get (appendCorrection _)

theorem rescind (c : Command) (now : Nat) :
    FailsWhere (fun _ t => t = s ∨ t = s.add (.rescind (c.entry s.nextPosition now)))
      (Session.rescind c now) s := by
  refine fields (fun _ => .inl rfl) (lookup (fun _ _ => .inl rfl) fun target? _ => ?_)
  cases target? with
  | none => exact of_throw (.inl rfl)
  | some target =>
    refine of_ite (fun _ => of_throw (.inl rfl)) fun _ => ?_
    refine lookup (fun _ _ => .inl rfl) fun found? _ => ?_
    cases found? with
    | some stored => exact answer (.inl rfl)
    | none =>
      refine refuse (fun _ _ => .inl rfl) (.inl rfl) fun _ => ?_
      refine lookup (fun _ _ => .inl rfl) fun on? _ => ?_
      cases on? with
      | some stored => exact answer (.inl rfl)
      | none => exact of_get (appendRescind _)

end FailsWhere

end Session

namespace Store

/-- What a submission does to the registry before its event is added: nothing, or it registers the
entity that it creates. -/
def Enters (s : Store) (c : Submission) (t : Store) : Prop :=
  t = s ∨ c.type = .create ∧ (∀ row ∈ s.heads, row.key ≠ c.key) ∧
    t = { s with heads := s.heads ++ [c.headRow s.nextPosition] }

theorem Identifies.enters {s t : Store} {c : Submission} (h : s.Identifies c s.nextPosition t) :
    s.Enters c t := by
  cases h with
  | registered => exact .inl rfl
  | unregistered => exact .inl rfl
  | registers hhead htype =>
    refine .inr ⟨htype, ?_, rfl⟩
    rw [head, mapM_rowResult_eq_none_iff, List.find?_eq_none] at hhead
    intro row hrow hkey
    exact hhead row hrow (beq_iff_eq.mpr hkey)

end Store

namespace Session

variable {s : Store}

/-- A submission that fails has registered its entity or not, and added its event or not. -/
theorem FailsWhere.submit (c : Submission) (now : Nat) :
    FailsWhere (fun _ t => ∃ u, s.Enters c u ∧
      (t = u ∨ t = u.add (.event (c.event s.nextPosition now)))) (Session.submit c now) s := by
  have unchanged : ∃ u, s.Enters c u ∧
      (s = u ∨ s = u.add (.event (c.event s.nextPosition now))) := ⟨s, .inl rfl, .inl rfl⟩
  refine fields (fun _ => unchanged) (lookup (fun _ _ => unchanged) fun found? _ => ?_)
  cases found? with
  | some stored => exact answer unchanged
  | none =>
    refine refuse (fun _ _ => unchanged) unchanged fun _ => of_get ?_
    refine bind ((resolveIdentity c _).mono fun _ _ h => h ▸ unchanged) fun _ u hu => ?_
    have henters := (resolveIdentity_eq_ok_iff.mp hu).enters
    refine lookup (fun _ _ => ⟨u, henters, .inl rfl⟩) fun on? _ => ?_
    cases on? with
    | some stored => exact (settleDate c stored).mono fun _ _ h => ⟨u, henters, .inl h⟩
    | none => exact (appendEvent _).mono fun _ _ h => ⟨u, henters, h⟩

end Session

namespace Store

/-- A session that fails outside of a transaction leaves every row of any store in place and the
timelines as they are.  Storing a timeline anew leaves nothing behind, a correction or a rescind at
most its row, and a submission at most the row of its event and, where it creates an entity that is
not registered, the row of that entity. -/
theorem left_by_failures (s : Store) :
    (∀ (key : EntityKey) (e : LedgerError) (t : Store),
        Session.rematerialize key s = .error e t → t = s) ∧
      (∀ (c : Command) (now : Nat) (e : LedgerError) (t : Store),
        Session.correct c now s = .error e t →
          ∃ added : List LogRow, (added = [] ∨ added = [(c.entry s.nextPosition now).row]) ∧
            t = { s with corrections := s.corrections ++ added }) ∧
      (∀ (c : Command) (now : Nat) (e : LedgerError) (t : Store),
        Session.rescind c now s = .error e t →
          ∃ added : List LogRow, (added = [] ∨ added = [(c.entry s.nextPosition now).row]) ∧
            t = { s with rescinds := s.rescinds ++ added }) ∧
      ∀ (c : Submission) (now : Nat) (e : LedgerError) (t : Store),
        Session.submit c now s = .error e t →
          ∃ (events : List EventRow) (heads : List HeadRow),
            (events = [] ∨ events = [(c.event s.nextPosition now).row]) ∧
            (heads = [] ∨ heads = [c.headRow s.nextPosition] ∧ c.type = .create ∧
              ∀ row ∈ s.heads, row.key ≠ c.key) ∧
            t = { s with events := s.events ++ events, heads := s.heads ++ heads } := by
  refine ⟨fun key => Session.FailsWhere.rematerialize_unchanged key, ?_, ?_, ?_⟩
  · intro c now e t hfails
    rcases Session.FailsWhere.correct c now e t hfails with rfl | rfl
    · exact ⟨[], .inl rfl, by rw [List.append_nil]⟩
    · exact ⟨_, .inr rfl, rfl⟩
  · intro c now e t hfails
    rcases Session.FailsWhere.rescind c now e t hfails with rfl | rfl
    · exact ⟨[], .inl rfl, by rw [List.append_nil]⟩
    · exact ⟨_, .inr rfl, rfl⟩
  · intro c now e t hfails
    obtain ⟨u, henters, hadds⟩ := Session.FailsWhere.submit c now e t hfails
    obtain ⟨heads, hheads, rfl⟩ : ∃ heads : List HeadRow,
        (heads = [] ∨ heads = [c.headRow s.nextPosition] ∧ c.type = .create ∧
          ∀ row ∈ s.heads, row.key ≠ c.key) ∧ u = { s with heads := s.heads ++ heads } := by
      rcases henters with rfl | ⟨htype, hfree, rfl⟩
      · exact ⟨[], .inl rfl, by rw [List.append_nil]⟩
      · exact ⟨_, .inr ⟨rfl, htype, hfree⟩, rfl⟩
    rcases hadds with rfl | rfl
    · exact ⟨[], heads, .inl rfl, hheads, by rw [List.append_nil]⟩
    · exact ⟨_, heads, .inr rfl, hheads, rfl⟩

end Store

namespace Sample

/-- An organisation is created without a name. -/
def nameless : Submission :=
  { created with kind := .orgUnit }

end Sample

namespace Store

theorem left_by_failures_sample :
    ∃ e t, Session.submit Sample.nameless 1 empty = .error e t ∧
      t = { empty with
        events := [(Sample.nameless.event 1 1).row], heads := [Sample.nameless.headRow 1] } := by
  have hleft : (match Session.submit Sample.nameless 1 empty with
      | .ok _ _ => none
      | .error _ t => some (t.events.length, t.heads.length)) = some (1, 1) := by decide +kernel
  cases h : Session.submit Sample.nameless 1 empty with
  | ok r t =>
    rw [h] at hleft
    cases hleft
  | error e t =>
    rw [h] at hleft
    obtain ⟨hevents, hheads⟩ := Prod.mk.inj (Option.some.inj hleft)
    obtain ⟨events, heads, hadded, hregistered, rfl⟩ :=
      (left_by_failures empty).2.2.2 Sample.nameless 1 e t h
    rcases hadded with rfl | rfl
    · cases hevents
    rcases hregistered with rfl | ⟨rfl, -⟩
    · cases hheads
    exact ⟨e, _, rfl, rfl⟩

end Store

end DatedLedger
