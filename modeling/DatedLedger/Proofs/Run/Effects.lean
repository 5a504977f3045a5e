import DatedLedger.Proofs.Run.Soundness

/-!
# What a mutation changes

A mutation that fails, or finds its entry on record, changes nothing at all.  One that
records a new entry adds a single row to a single log and replaces what is derived
from the logs of that entity; no other row changes, and the entity stays registered
under the kind and owning key that it was created with.
-/

namespace DatedLedger

/-! ## Mutations -/

/-- An outcome whose entry is seen in another form. -/
def Outcome.map {α β : Type} (f : α → β) : Outcome α → Outcome β
  | existing e => .existing (f e)
  | appended e => .appended (f e)

/-- A command with the mutation that it asks for. -/
inductive Mutation where
  | submit (c : Submission)
  | correct (c : Command)
  | rescind (c : Command)

namespace Mutation

/-- The command, without what only submissions have. -/
def command : Mutation → Command
  | submit c => c.toCommand
  | correct c => c
  | rescind c => c

/-- The entity that is mutated. -/
def key (m : Mutation) : EntityKey :=
  m.command.key

/-- The entry that the mutation records, with the log that it is for. -/
def entry (m : Mutation) (pos : Position) (now : Nat) : AuditEntry :=
  match m with
  | submit c => .event (c.event pos now)
  | correct c => .correction (c.entry pos now)
  | rescind c => .rescind (c.entry pos now)

theorem key_entry (m : Mutation) (pos : Position) (now : Nat) :
    (m.entry pos now).entry.key = m.key := by
  cases m <;> rfl

theorem date_entry (m : Mutation) (pos : Position) (now : Nat) :
    (m.entry pos now).entry.date = m.command.date := by
  cases m <;> rfl

/-- The session of the mutation. -/
def session (m : Mutation) (now : Nat) : Session (Outcome AuditEntry) :=
  match m with
  | submit c => Outcome.map .event <$> Session.submit c now
  | correct c => Outcome.map .correction <$> Session.correct c now
  | rescind c => Outcome.map .rescind <$> Session.rescind c now

/-- What a ledger does when it is asked for the mutation in a context. -/
def perform (ctx : Context) (m : Mutation) (now : Nat) : Ledger.Action AuditEntry :=
  match m with
  | submit c => .event <$> Ledger.submit ctx c now
  | correct c => .correction <$> Ledger.correct ctx c now
  | rescind c => .rescind <$> Ledger.rescind ctx c now

end Mutation

namespace Session

variable {α β : Type} {s s' : Store}

theorem map_eq_ok_iff {f : α → β} {x : Session α} {b : β} :
    (f <$> x) s = .ok b s' ↔ ∃ a, x s = .ok a s' ∧ b = f a := by
  change EStateM.map f x s = .ok b s' ↔ _
  unfold EStateM.map
  split
  next a t hx => simp [hx, eq_comm, and_comm]
  next e t hx => simp [hx]

end Session

/-! ## Mutations of a ledger -/

namespace Ledger

variable {α β : Type} {ctx : Context} {tenant : String} {l l' : Ledger}

theorem mutate_of_locked (session : Session α) (hlocked : l.writeLocked) :
    mutate session l = .error (.storage .locked) l := by
  rw [mutate, if_pos hlocked]

theorem mutate_of_eq_ok {session : Session α} {a : α} {s : Store} (hfree : ¬l.writeLocked)
    (h : session l.store = .ok a s) : mutate session l = .ok a { l with store := s } := by
  rw [mutate, if_neg hfree, Session.transaction_of_eq_ok h]

theorem mutate_of_eq_error {session : Session α} {e : LedgerError} {s : Store}
    (hfree : ¬l.writeLocked) (h : session l.store = .error e s) :
    mutate session l = .error e l := by
  rw [mutate, if_neg hfree, Session.transaction_of_eq_error h]

theorem mutate_cases (session : Session α) (l : Ledger) :
    (∃ e, mutate session l = .error e l) ∨
      ∃ a s, session l.store = .ok a s ∧ mutate session l = .ok a { l with store := s } := by
  by_cases hlocked : l.writeLocked
  · exact .inl ⟨_, mutate_of_locked session hlocked⟩
  · cases h : session l.store with
    | error e t => exact .inl ⟨e, mutate_of_eq_error hlocked h⟩
    | ok a t => exact .inr ⟨a, t, rfl, mutate_of_eq_ok hlocked h⟩

/-- What the mutations of a ledger have in common: a session behind the check of its tenant. -/
def guarded (ctx : Context) (tenant : String) (session : Session (Outcome α)) : Action α := do
  authorize ctx tenant
  return (← mutate session).entry

variable {session : Session (Outcome α)}

theorem guarded_of_refused {e : LedgerError} (session : Session (Outcome α)) (l : Ledger)
    (hctx : ctx.authorize tenant = .error e) : guarded ctx tenant session l = .error e l := by
  simp only [guarded, authorize, hctx]
  rfl

theorem guarded_of_granted (session : Session (Outcome α)) (l : Ledger)
    (hctx : ctx.authorize tenant = .ok ()) :
    guarded ctx tenant session l = (Outcome.entry <$> mutate session) l := by
  simp only [guarded, authorize, hctx]
  rfl

theorem guarded_cases (ctx : Context) (tenant : String) (session : Session (Outcome α))
    (l : Ledger) :
    (∃ e, guarded ctx tenant session l = .error e l) ∨
      ctx.tenant = some tenant ∧ ∃ out s', session l.store = .ok out s' ∧
        guarded ctx tenant session l = .ok out.entry { l with store := s' } := by
  cases hctx : ctx.authorize tenant with
  | error e => exact .inl ⟨e, guarded_of_refused session l hctx⟩
  | ok u =>
    rw [guarded_of_granted session l hctx]
    rcases mutate_cases session l with ⟨e, hfails⟩ | ⟨out, t, hsession, hok⟩
    · exact .inl ⟨e, map_of_eq_error _ hfails⟩
    · exact .inr ⟨Context.authorize_eq_ok_iff.mp hctx, out, t, hsession, map_of_eq_ok _ hok⟩

theorem mutate_map (f : α → β) (session : Session α) (l : Ledger) :
    mutate (f <$> session) l = (f <$> mutate session) l := by
  by_cases hlocked : l.writeLocked
  · rw [mutate_of_locked _ hlocked, map_of_eq_error f (mutate_of_locked session hlocked)]
  · cases h : session l.store with
    | error e t =>
      rw [mutate_of_eq_error hlocked (map_of_eq_error f h),
        map_of_eq_error f (mutate_of_eq_error hlocked h)]
    | ok a t =>
      rw [mutate_of_eq_ok hlocked (map_of_eq_ok f h),
        map_of_eq_ok f (mutate_of_eq_ok hlocked h)]

theorem guarded_map (ctx : Context) (tenant : String) (session : Session (Outcome α))
    (f : α → β) :
    f <$> guarded ctx tenant session = guarded ctx tenant (Outcome.map f <$> session) := by
  funext l
  cases hctx : ctx.authorize tenant with
  | error e =>
    rw [guarded_of_refused _ l hctx, map_of_eq_error f (guarded_of_refused session l hctx)]
  | ok u =>
    have hgranted := guarded_of_granted session l hctx
    rw [guarded_of_granted _ l hctx]
    cases h : mutate session l with
    | error e t =>
      have hmap := (mutate_map (Outcome.map f) session l).trans (map_of_eq_error _ h)
      rw [map_of_eq_error _ hmap]
      exact map_of_eq_error f (hgranted.trans (map_of_eq_error _ h))
    | ok out t =>
      have hmap := (mutate_map (Outcome.map f) session l).trans (map_of_eq_ok _ h)
      rw [map_of_eq_ok _ hmap, map_of_eq_ok f (hgranted.trans (map_of_eq_ok _ h))]
      cases out with
      | existing a => rfl
      | appended a => rfl

end Ledger

theorem Mutation.perform_eq (ctx : Context) (m : Mutation) (now : Nat) :
    m.perform ctx now = Ledger.guarded ctx m.key.tenant (m.session now) := by
  cases m with
  | submit c => exact Ledger.guarded_map ctx _ _ _
  | correct c => exact Ledger.guarded_map ctx _ _ _
  | rescind c => exact Ledger.guarded_map ctx _ _ _

theorem Mutation.perform_of_eq_ok {ctx : Context} {m : Mutation} {now : Nat} {l : Ledger}
    {out : Outcome AuditEntry} {s : Store} (hctx : ctx.tenant = some m.key.tenant)
    (hfree : ¬l.writeLocked) (h : m.session now l.store = .ok out s) :
    m.perform ctx now l = .ok out.entry { l with store := s } := by
  rw [m.perform_eq, Ledger.guarded_of_granted _ l (Context.authorize_eq_ok_iff.mpr hctx)]
  exact map_of_eq_ok _ (Ledger.mutate_of_eq_ok hfree h)

/-! ## What becomes of the store -/

namespace Store

variable {s s' t : Store} {a : AuditEntry} {key : EntityKey}

/-- The second store is the first with one more entry in the log that it belongs to; besides, only
what is derived from the logs of its entity may differ. -/
structure Gains (s : Store) (a : AuditEntry) (s' : Store) : Prop where
  logs : s'.logs = (s.add a).logs
  others : ∀ key, key ≠ a.entry.key → s'.ofEntity key = s.ofEntity key

/-- The store that a mutation records its entry in: the entity is registered, if this creates it. -/
inductive Prepares (s : Store) : Mutation → Store → Prop where
  | registered (m : Mutation) {head : HeadRow} (hheads : (s.ofEntity m.key).heads = [head]) :
      Prepares s m s
  | registers {c : Submission} {pos : Position} (htype : c.type = .create)
      (hempty : s.ofEntity c.key = .empty) :
      Prepares s (.submit c) { s with heads := s.heads ++ [c.headRow pos] }

/-- The registry has the entity of the mutation as before, or, if the mutation creates it, as the
mutation says. -/
def Registers (s : Store) (m : Mutation) (s' : Store) : Prop :=
  ∃ row, (s'.ofEntity m.key).heads = [row] ∧
    ((∃ old, (s.ofEntity m.key).heads = [old] ∧ row.kind = old.kind ∧
        row.owningKey = old.owningKey) ∨
      ∃ c, m = .submit c ∧ c.type = .create ∧ (s.ofEntity m.key).heads = [] ∧
        row.kind = c.kind.name ∧ row.owningKey = c.owningKey)

theorem Registered.exists_heads {kind : EntityKind} {h : History} (hs : s.Registered key kind h) :
    ∃ head, (s.ofEntity key).heads = [head] := by
  obtain ⟨-, head, timeline, -, hcoherent⟩ := hs
  exact ⟨head, hcoherent.heads⟩

theorem Prepares.logs_eq {m : Mutation} (ht : s.Prepares m t) : t.logs = s.logs := by
  cases ht with
  | registered m hheads => rfl
  | registers htype hempty => rfl

theorem Prepares.rows_eq {m : Mutation} (ht : s.Prepares m t) (log : Log) :
    t.rows log = s.rows log := by
  cases ht with
  | registered m hheads => rfl
  | registers htype hempty => cases log <;> rfl

theorem Prepares.ofEntity_of_ne {m : Mutation} (ht : s.Prepares m t) (hne : m.key ≠ key) :
    t.ofEntity key = s.ofEntity key := by
  cases ht with
  | registered m hheads => rfl
  | registers htype hempty => exact ofEntity_register_of_ne hne

theorem Records.heads_eq (hrec : t.Records a s') {head : HeadRow}
    (hheads : (t.ofEntity a.entry.key).heads = [head]) :
    ∃ row, (s'.ofEntity a.entry.key).heads = [row] ∧ row.kind = head.kind ∧
      row.owningKey = head.owningKey := by
  obtain ⟨-, timeline, last, -, rfl⟩ := hrec
  refine ⟨head.summarised timeline last, ?_, rfl, rfl⟩
  rw [heads_ofEntity_materialize, ofEntity_add, add_heads, hheads]
  rfl

theorem Prepares.gains {m : Mutation} {pos : Position} {now : Nat} (ht : s.Prepares m t)
    (hrec : t.Records (m.entry pos now) s') : s.Gains (m.entry pos now) s' where
  logs := hrec.logs_eq.trans (logs_add ht.logs_eq _)
  others := by
    intro key hne
    rw [hrec.ofEntity_of_ne hne.symm]
    rw [m.key_entry] at hne
    exact ht.ofEntity_of_ne hne.symm

theorem Prepares.registers_of_records {m : Mutation} {pos : Position} {now : Nat}
    (ht : s.Prepares m t) (hrec : t.Records (m.entry pos now) s') : s.Registers m s' := by
  have hkey := m.key_entry pos now
  cases ht with
  | registered m hheads =>
    rw [← hkey] at hheads
    obtain ⟨row, hrow, hkind, howning⟩ := hrec.heads_eq hheads
    rw [hkey] at hheads hrow
    exact ⟨row, hrow, .inl ⟨_, hheads, hkind, howning⟩⟩
  | registers htype hempty =>
    obtain ⟨row, hrow, hkind, howning⟩ :=
      hrec.heads_eq (heads_ofEntity_register hkey.symm (hkey ▸ hempty))
    rw [hkey] at hrow
    exact ⟨row, hrow, .inr ⟨_, rfl, htype, congrArg Store.heads hempty, hkind, howning⟩⟩

end Store

namespace Mutation

variable {s s' : Store}

theorem eq_or_records_of_submit (hs : s.Sound) {c : Submission} {now : Nat} {out : Outcome Event}
    (h : Session.submit c now s = .ok out s') :
    (∃ e, out = .existing e ∧ s' = s) ∨
      out = .appended (c.event s.nextPosition now) ∧
        ∃ t, s.Prepares (.submit c) t ∧ t.Records (.event (c.event s.nextPosition now)) s' := by
  obtain ⟨-, ⟨stored, -, -, rfl, rfl⟩ | ⟨-, -, t, ht, ⟨stored, hon, -, -, -, rfl, rfl⟩ |
    ⟨-, rfl, hrec⟩⟩⟩ := Session.submit_eq_ok_iff.mp h
  · exact .inl ⟨stored, rfl, rfl⟩
  · exact .inl ⟨stored, rfl, hs.eq_of_eventOn ht hon⟩
  · refine .inr ⟨rfl, t, ?_, hrec⟩
    cases ht with
    | registered head hhead hkind howning =>
      obtain ⟨history, hregistered⟩ := hs.exists_registered hhead
      obtain ⟨row, hheads⟩ := hregistered.exists_heads
      exact .registered (.submit c) hheads
    | registers hhead htype hfree hfault =>
      exact .registers htype (hs.head_eq_none_iff.mp hhead)
    | unregistered hhead htype =>
      exact (Store.not_records_update (e := c.event s.nextPosition now)
        (hs.head_eq_none_iff.mp hhead) htype hrec).elim

/-- In a sound store a mutation that succeeds changes nothing or records its entry. -/
theorem eq_or_records (hs : s.Sound) {m : Mutation} {now : Nat} {out : Outcome AuditEntry}
    (h : m.session now s = .ok out s') :
    (∃ a, out = .existing a ∧ s' = s) ∨
      out = .appended (m.entry s.nextPosition now) ∧
        ∃ t, s.Prepares m t ∧ t.Records (m.entry s.nextPosition now) s' := by
  cases m with
  | submit c =>
    obtain ⟨result, hresult, rfl⟩ := Session.map_eq_ok_iff.mp h
    rcases eq_or_records_of_submit hs hresult with ⟨e, rfl, rfl⟩ | ⟨rfl, hrec⟩
    · exact .inl ⟨.event e, rfl, rfl⟩
    · exact .inr ⟨rfl, hrec⟩
  | correct c =>
    obtain ⟨result, hresult, rfl⟩ := Session.map_eq_ok_iff.mp h
    obtain ⟨-, ⟨target, hon⟩, -, ⟨stored, -, -, rfl, rfl⟩ | ⟨-, -, ⟨stored, -, -, rfl, rfl⟩ |
      ⟨-, rfl, hrec⟩⟩⟩ := Session.correct_eq_ok_iff.mp hresult
    · exact .inl ⟨.correction stored, rfl, rfl⟩
    · exact .inl ⟨.correction stored, rfl, rfl⟩
    · obtain ⟨kind, history, hregistered, -⟩ := hs.exists_registered_of_eventOn hon
      obtain ⟨head, hheads⟩ := hregistered.exists_heads
      exact .inr ⟨rfl, s, .registered (.correct c) hheads, hrec⟩
  | rescind c =>
    obtain ⟨result, hresult, rfl⟩ := Session.map_eq_ok_iff.mp h
    obtain ⟨-, target, hon, -, ⟨stored, -, -, rfl, rfl⟩ | ⟨-, -, ⟨stored, -, -, rfl, rfl⟩ |
      ⟨-, rfl, hrec⟩⟩⟩ := Session.rescind_eq_ok_iff.mp hresult
    · exact .inl ⟨.rescind stored, rfl, rfl⟩
    · exact .inl ⟨.rescind stored, rfl, rfl⟩
    · obtain ⟨kind, history, hregistered, -⟩ := hs.exists_registered_of_eventOn hon
      obtain ⟨head, hheads⟩ := hregistered.exists_heads
      exact .inr ⟨rfl, s, .registered (.rescind c) hheads, hrec⟩

theorem sound_of_eq_ok (hs : s.Sound) {m : Mutation} {now : Nat} {out : Outcome AuditEntry}
    (h : m.session now s = .ok out s') : s'.Sound := by
  cases m with
  | submit c =>
    obtain ⟨result, hresult, -⟩ := Session.map_eq_ok_iff.mp h
    exact Session.commit_of_eq_ok hresult ▸ hs.run (.submit c now)
  | correct c =>
    obtain ⟨result, hresult, -⟩ := Session.map_eq_ok_iff.mp h
    exact Session.commit_of_eq_ok hresult ▸ hs.run (.correct c now)
  | rescind c =>
    obtain ⟨result, hresult, -⟩ := Session.map_eq_ok_iff.mp h
    exact Session.commit_of_eq_ok hresult ▸ hs.run (.rescind c now)

end Mutation

namespace Store

/-- In every store that a run reaches, a mutation that a ledger runs changes nothing when it fails
or finds its entry on record.  Otherwise it adds the row of its entry to the log of that entry and
leaves every other row of the logs, all rows of other entities, and the kind and owning key of a
registered entity as they were; only a submission that creates an entity registers one, and only a
submission changes the log of events. -/
theorem changes_after (rs : List Request) (l : Ledger) (hl : l.store = empty.after rs)
    (ctx : Context) (m : Mutation) (now : Nat) :
    (∀ e l', m.perform ctx now l = .error e l' → l' = l) ∧
    ∀ a l', m.perform ctx now l = .ok a l' →
      (m.session now).Answers l.store a ∧ l' = l ∨
      ∃ s', (m.session now).transaction l.store = .ok (.appended a) s' ∧
        l' = { l with store := s' } ∧ a = m.entry l.store.nextPosition now ∧
        l.store.Gains a s' ∧ l.store.Registers m s' ∧
        (a.log ≠ .events → s'.events = l.store.events) := by
  have hsound : l.store.Sound := by
    rw [hl]
    exact sound_after rs
  rw [m.perform_eq]
  rcases Ledger.guarded_cases ctx m.key.tenant (m.session now) l with
    ⟨fault, hfails⟩ | ⟨-, out, s', hsession, hok⟩
  · rw [hfails]
    constructor
    · intro e l' h
      cases h
      rfl
    · intro a l' h
      cases h
  · rw [hok]
    constructor
    · intro e l' h
      cases h
    · intro a l' h
      cases h
      rcases Mutation.eq_or_records hsound hsession with ⟨a, rfl, rfl⟩ | ⟨rfl, t, ht, hrec⟩
      · exact .inl ⟨Session.transaction_of_eq_ok hsession, rfl⟩
      · refine .inr ⟨s', Session.transaction_of_eq_ok hsession, rfl, rfl, ht.gains hrec,
          ht.registers_of_records hrec, ?_⟩
        intro hlog
        have hevents := congrArg Store.events (ht.gains hrec).logs
        cases m with
        | submit c => exact absurd rfl hlog
        | correct c => exact hevents
        | rescind c => exact hevents

end Store

/-- A ledger on which an assignment was created and changed. -/
def Sample.ledger : Ledger where
  config := .standard
  store := Store.empty.after [.submit Sample.created 1, .submit Sample.updated 2]
  writeLocked := false

/-- The rescind of the change is recorded and leaves the events alone. -/
theorem Store.changes_after_sample :
    ∃ a s', Mutation.perform (.ofTenant "acme") (.rescind Sample.rescinded) 4 Sample.ledger =
        .ok a { Sample.ledger with store := s' } ∧
      Sample.ledger.store.Gains a s' ∧ s'.events = Sample.ledger.store.events := by
  have happends : (Mutation.session (.rescind Sample.rescinded) 4).Appends
      Sample.ledger.store := by
    decide +kernel
  obtain ⟨a, s', ha⟩ := happends
  have hsession := Session.transaction_eq_ok_iff.mp ha
  have hperform : Mutation.perform (.ofTenant "acme") (.rescind Sample.rescinded) 4
      Sample.ledger = .ok a { Sample.ledger with store := s' } :=
    Mutation.perform_of_eq_ok rfl Bool.false_ne_true hsession
  obtain ⟨-, hok⟩ := Store.changes_after [.submit Sample.created 1, .submit Sample.updated 2]
    Sample.ledger rfl (.ofTenant "acme") (.rescind Sample.rescinded) 4
  rcases hok _ _ hperform with ⟨hanswers, -⟩ | ⟨t, -, ht, ha, hgains, -, hevents⟩
  · rw [Session.Answers, ha] at hanswers
    cases hanswers
  · obtain rfl : s' = t := congrArg Ledger.store ht
    refine ⟨_, s', hperform, hgains, hevents ?_⟩
    rw [ha]
    decide

end DatedLedger
