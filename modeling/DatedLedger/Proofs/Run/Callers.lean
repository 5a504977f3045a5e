import DatedLedger.SharedLedger
import DatedLedger.Proofs.Locks.Desk
import DatedLedger.Proofs.Run.Operations
import DatedLedger.Proofs.Run.Sequence

/-!
# Callers of a ledger

Callers who share a ledger take their steps in any order, and still each of them is answered
as if it had been alone at one moment of its call: the moment at which its transaction runs,
while it has the lock of its entity.  Until it lets go of the lock nobody else changes the
entity.  So what holds of runs of requests holds of a shared ledger at any time.
-/

namespace DatedLedger

/-! ## What calls ask for -/

section

variable {α : Type} {s : Store} {p : EntityKey → Bool}

/-- The entity that a request is about. -/
def Request.key : Request → EntityKey
  | submit c _ => c.key
  | correct c _ => c.key
  | rescind c _ => c.key
  | rebuild key => key

theorem Mutation.key_request (m : Mutation) (now : Nat) : (m.request now).key = m.key := by
  cases m <;> rfl

theorem Mutation.restrict_run_request (hs : s.Sound) (m : Mutation) (now : Nat) (hp : ¬p m.key) :
    ((m.request now).run s).restrict p = s.restrict p := by
  rw [m.run_request]
  rcases Session.commit_cases (m.session now) s with hsame | ⟨out, hok⟩
  · rw [hsame]
  · exact restrict_of_session_eq_ok hs hok hp

/-- A request keeps the rows of every selection that its entity is not in. -/
theorem Request.restrict_run (hs : s.Sound) (r : Request) (hp : ¬p r.key) :
    (r.run s).restrict p = s.restrict p := by
  cases r with
  | submit c now => exact Mutation.restrict_run_request hs (.submit c) now hp
  | correct c now => exact Mutation.restrict_run_request hs (.correct c) now hp
  | rescind c now => exact Mutation.restrict_run_request hs (.rescind c) now hp
  | rebuild key =>
    rcases Session.commit_cases (Ledger.rederive key) s with hsame | ⟨timeline, hok⟩
    · exact congrArg (Store.restrict · p) hsame
    · exact (Ledger.rederive_confined hok).2 p hp

/-- Whenever one of the sessions is run as a transaction, it does what a request about the entity
does. -/
def Asks (key : EntityKey) (session : Nat → Session α) : Prop :=
  ∀ now, ∃ r : Request, r.key = key ∧ ∀ s, (session now).commit s = r.run s

theorem Mutation.asks (m : Mutation) : Asks m.key m.session :=
  fun now => ⟨m.request now, m.key_request now, fun s => (m.run_request now s).symm⟩

theorem asks_rederive (key : EntityKey) : Asks key fun _ => Ledger.rederive key :=
  fun _ => ⟨.rebuild key, rfl, fun _ => rfl⟩

end

namespace Ledger

variable {α β : Type} {l : Ledger}

theorem outcome_snd (action : Action α) (l : Ledger) : (outcome action l).2 = after action l := by
  rw [outcome, after]
  cases action l <;> rfl

theorem outcome_map (f : α → β) (action : Action α) (l : Ledger) :
    outcome (f <$> action) l = ((outcome action l).1.map f, (outcome action l).2) := by
  simp only [outcome, Functor.map, EStateM.map]
  cases action l <;> rfl

/-- In a context of its tenant a mutation comes to what its transaction comes to. -/
theorem outcome_perform {ctx : Context} (m : Mutation) (hctx : ctx.tenant = some m.key.tenant)
    (now : Nat) (l : Ledger) :
    outcome (m.perform ctx now) l =
      ((outcome (mutate (m.session now)) l).1.map Outcome.entry,
        (outcome (mutate (m.session now)) l).2) := by
  rw [← outcome_map, m.perform_eq, outcome,
    guarded_of_granted _ l (Context.authorize_eq_ok_iff.mpr hctx), outcome]

theorem outcome_rebuild {ctx : Context} {key : EntityKey} (hctx : ctx.tenant = some key.tenant)
    (l : Ledger) : outcome (rebuild ctx key) l = outcome (mutate (rederive key)) l := by
  rw [outcome, Operation.rebuild_of_granted (Context.authorize_eq_ok_iff.mpr hctx), outcome]

/-- A transaction leaves the store as it is, or as a request about the entity does. -/
theorem store_outcome_mutate {key : EntityKey} {session : Nat → Session α}
    (hasks : Asks key session) (now : Nat) (l : Ledger) :
    (outcome (mutate (session now)) l).2.store = l.store ∨
      ∃ r : Request, r.key = key ∧ (outcome (mutate (session now)) l).2.store = r.run l.store := by
  rw [outcome_snd]
  obtain ⟨r, hkey, hrun⟩ := hasks now
  rcases store_after_mutate (session now) l with hsame | hcommit
  · exact .inl hsame
  · exact .inr ⟨r, hkey, hcommit.trans (hrun l.store)⟩

end Ledger

namespace Call

variable {α : Type} {call : Call α} {a : LockAttempt}

/-- A call and the attempt that is to take its lock are about one entity.  The transaction of the
call is run while the guard lives, which is not let go of before. -/
structure Fits (call : Call α) (a : LockAttempt) : Prop where
  key : a.key = call.key
  held : call.result?.isSome → a.stage = .holding ∨ a.stage = .released
  run : a.stage = .released → call.result?.isSome

/-- A call without a result fits the attempt that it begins. -/
theorem fits_attempt (t : SharedTable) (key : EntityKey) (session : Nat → Session α)
    (timeout : Nat) : Fits ⟨key, session, none⟩ (t.attempt key timeout) where
  key := rfl
  held hresult := by cases hresult
  run hreleased := absurd hreleased (SharedTable.stage_attempt_ne nofun nofun)

theorem Fits.result?_eq_none (h : call.Fits a) (hholding : a.stage ≠ .holding)
    (hreleased : a.stage ≠ .released) : call.result? = none :=
  Option.not_isSome_iff_eq_none.mp fun hsome => (h.held hsome).elim hholding hreleased

theorem Fits.leads (h : call.Fits a) {t : SharedTable} {i : Nat} {action : LockAction}
    {stage : LockStage} (hleads : t.Leads i a action stage)
    (hdrop : action = .drop i → call.result?.isSome) : call.Fits { a with stage := stage } := by
  cases hleads with
  | approach hstage =>
    have hresult := h.result?_eq_none (by rcases hstage with h | h <;> simp [h])
      (by rcases hstage with h | h <;> simp [h])
    exact ⟨h.key, fun hsome => by simp [hresult] at hsome, nofun⟩
  | block hstage | take hstage | refuse hstage | wait hstage =>
    have hresult := h.result?_eq_none (by simp [hstage]) (by simp [hstage])
    exact ⟨h.key, fun hsome => by simp [hresult] at hsome, nofun⟩
  | drop => exact ⟨h.key, fun _ => .inr rfl, fun _ => hdrop rfl⟩

end Call

namespace SharedLedger

variable {α : Type} {s s' : SharedLedger α} {action : SharedAction α} {i j now : Nat}
  {call : Call α} {key : EntityKey}

/-! ## What an action can do -/

/-- What an action does, by the call that takes a step. -/
inductive Effect (s : SharedLedger α) : SharedAction α → SharedLedger α → Prop where
  | idle (action : SharedAction α) : Effect s action s
  | ask {ctx : Context} {key : EntityKey} {session : Nat → Session α}
      (hctx : ctx.tenant = some key.tenant) :
      Effect s (.ask ctx key session)
        { s with
          locks := s.locks.step (.call key (s.ledger.config.lockTimeoutMs * 10 ^ 6))
          calls := s.calls ++ [⟨key, session, none⟩] }
  | proceed (i : Nat) : Effect s (.proceed i) { s with locks := s.locks.step (.proceed i) }
  | transact {i : Nat} {call : Call α} {key : EntityKey} (now : Nat)
      (hcall : s.calls[i]? = some call) (hguard : s.locks.guard? i = some key)
      (hresult : call.result? = none) :
      Effect s (.transact i now)
        (s.settle i call (Ledger.outcome (Ledger.mutate (call.session now)) s.ledger))
  | leave {i : Nat} {call : Call α} (hcall : s.calls[i]? = some call)
      (hresult : call.result?.isSome) :
      Effect s (.leave i) { s with locks := s.locks.step (.drop i) }
  | contend (writeLocked : Bool) :
      Effect s (.contend writeLocked)
        { s with ledger := { s.ledger with writeLocked := writeLocked } }
  | tick (duration : Nat) :
      Effect s (.tick duration) { s with locks := s.locks.step (.tick duration) }

theorem effect_step (s : SharedLedger α) (action : SharedAction α) :
    s.Effect action (s.step action) := by
  cases action with
  | ask ctx key session =>
    cases hctx : ctx.authorize key.tenant with
    | error e =>
      simp only [step, SharedLedger.ask, hctx]
      exact .idle _
    | ok u =>
      simp only [step, SharedLedger.ask, hctx]
      exact .ask (Context.authorize_eq_ok_iff.mp hctx)
  | proceed i => exact .proceed i
  | transact i now =>
    simp only [step, SharedLedger.transact]
    split
    next call key hcall hguard =>
      split
      next => exact .idle _
      next hresult => exact .transact now hcall hguard (by simpa using hresult)
    next => exact .idle _
  | leave i =>
    simp only [step, SharedLedger.leave]
    split
    next => exact .idle _
    next result hresult =>
      obtain ⟨call, hcall, hsome⟩ := Option.bind_eq_some_iff.mp hresult
      exact .leave hcall (by rw [hsome]; rfl)
  | contend writeLocked => exact .contend writeLocked
  | tick duration => exact .tick duration

theorem calls_settle_self (hcall : s.calls[i]? = some call)
    (outcome : Except LedgerError α × Ledger) :
    (s.settle i call outcome).calls[i]? = some { call with result? := some outcome.1 } :=
  List.getElem?_set_self (List.getElem?_eq_some_iff.mp hcall).1

theorem calls_settle_of_ne (hij : i ≠ j) (outcome : Except LedgerError α × Ledger) :
    (s.settle i call outcome).calls[j]? = s.calls[j]? :=
  List.getElem?_set_ne hij

/-! ## The invariant -/

/-- Locks exclude each other, calls and attempts go together, and calls ask for requests. -/
structure Coherent (s : SharedLedger α) : Prop where
  locks : s.locks.Coherent
  length : s.calls.length = s.locks.attempts.length
  fits : ∀ (i : Nat) (call : Call α), s.calls[i]? = some call →
    ∃ a, s.locks.attempts[i]? = some a ∧ call.Fits a
  asks : ∀ call ∈ s.calls, Asks call.key call.session
  sound : s.ledger.store.Sound

namespace Coherent

theorem start {l : Ledger} (hl : l.store.Sound) (latest : Nat) :
    (SharedLedger.start l latest : SharedLedger α).Coherent where
  locks := .empty latest
  length := rfl
  fits := by simp [SharedLedger.start]
  asks := by simp [SharedLedger.start]
  sound := hl

theorem fits_of_getElem? (hs : s.Coherent) {a : LockAttempt} (hcall : s.calls[i]? = some call)
    (ha : s.locks.attempts[i]? = some a) : call.Fits a := by
  obtain ⟨b, hb, hfits⟩ := hs.fits i call hcall
  cases ha.symm.trans hb
  exact hfits

theorem exists_call (hs : s.Coherent) {a : LockAttempt} (ha : s.locks.attempts[i]? = some a) :
    ∃ call, s.calls[i]? = some call ∧ call.Fits a := by
  have hi : i < s.calls.length := hs.length ▸ (List.getElem?_eq_some_iff.mp ha).1
  have hcall := List.getElem?_eq_getElem hi
  exact ⟨_, hcall, hs.fits_of_getElem? hcall ha⟩

/-- A step towards a lock, and away from one after the transaction. -/
theorem lock (hs : s.Coherent) (lock : LockAction)
    (hcall : ∀ key timeout, lock ≠ .call key timeout)
    (hdrop : ∀ i call, lock = .drop i → s.calls[i]? = some call → call.result?.isSome) :
    ({ s with locks := s.locks.step lock }).Coherent where
  locks := hs.locks.effect (s.locks.effect_step lock)
  length := hs.length.trans ((s.locks.effect_step lock).length_attempts hcall).symm
  fits i call hi := by
    obtain ⟨a, ha, hfits⟩ := hs.fits i call hi
    rcases (s.locks.effect_step lock).attempt ha with hkept | ⟨stage, hleads, hled⟩
    · exact ⟨a, hkept, hfits⟩
    · exact ⟨_, hled, hfits.leads hleads fun heq => hdrop i call heq hi⟩
  asks := hs.asks
  sound := hs.sound

theorem proceed (hs : s.Coherent) (i : Nat) : (s.step (.proceed i)).Coherent :=
  hs.lock (.proceed i) nofun fun _ _ heq => nomatch heq

/-- A transaction is run by a call that has the lock. -/
theorem settle (hs : s.Coherent) (hcall : s.calls[i]? = some call)
    (hguard : s.locks.guard? i = some key) (now : Nat) :
    (s.settle i call (Ledger.outcome (Ledger.mutate (call.session now)) s.ledger)).Coherent where
  locks := hs.locks
  length := (List.length_set ..).trans hs.length
  fits j other hother := by
    by_cases hij : i = j
    · subst hij
      obtain ⟨a, ha, hholding, -⟩ := SharedTable.guard?_eq_some_iff.mp hguard
      cases (calls_settle_self hcall _).symm.trans hother
      exact ⟨a, ha, (hs.fits_of_getElem? hcall ha).key, fun _ => .inl hholding, fun _ => rfl⟩
    · exact hs.fits j other ((calls_settle_of_ne hij _).symm.trans hother)
  asks other hother := by
    rcases List.mem_or_eq_of_mem_set hother with hmem | rfl
    · exact hs.asks other hmem
    · exact hs.asks call (List.mem_of_getElem? hcall)
  sound := by
    have hasks := hs.asks call (List.mem_of_getElem? hcall)
    rcases Ledger.store_outcome_mutate hasks now s.ledger with hsame | ⟨r, -, hrun⟩
    · exact hsame ▸ hs.sound
    · exact hrun ▸ hs.sound.run r

/-- A call that asks for requests is about to take its lock. -/
theorem ask (hs : s.Coherent) {session : Nat → Session α} (hasks : Asks key session)
    (timeout : Nat) :
    ({ s with
      locks := s.locks.step (.call key timeout)
      calls := s.calls ++ [⟨key, session, none⟩] } : SharedLedger α).Coherent where
  locks := hs.locks.call key timeout
  length := by
    have hlength := congrArg (· + 1) hs.length
    simpa [SharedTable.step] using hlength
  fits j call hcall := by
    rcases SharedTable.getElem?_concat_eq_some_iff.mp hcall with hcall | ⟨rfl, rfl⟩
    · obtain ⟨a, ha, hfits⟩ := hs.fits j call hcall
      exact ⟨a, SharedTable.getElem?_concat_eq_some_iff.mpr (.inl ha), hfits⟩
    · have hlast : (s.locks.step (.call key timeout)).attempts[s.calls.length]? =
          some (s.locks.attempt key timeout) :=
        SharedTable.getElem?_concat_eq_some_iff.mpr (.inr ⟨hs.length, rfl⟩)
      exact ⟨_, hlast, Call.fits_attempt s.locks key session timeout⟩
  asks call hcall := by
    rcases List.mem_append.mp hcall with hmem | hnew
    · exact hs.asks call hmem
    · rw [List.mem_singleton.mp hnew]
      exact hasks
  sound := hs.sound

theorem effect (hs : s.Coherent) (h : s.Effect action s')
    (hasks : ∀ ctx key session, action = .ask ctx key session → Asks key session) :
    s'.Coherent := by
  cases h with
  | idle => exact hs
  | @ask ctx key session hctx => exact hs.ask (hasks ctx key session rfl) _
  | proceed i => exact hs.proceed i
  | tick duration => exact hs.lock (.tick duration) nofun fun _ _ heq => nomatch heq
  | transact now hcall hguard hresult => exact hs.settle hcall hguard now
  | contend writeLocked => exact ⟨hs.locks, hs.length, hs.fits, hs.asks, hs.sound⟩
  | @leave i call hcall hresult =>
    refine hs.lock (.drop i) nofun fun j other heq hother => ?_
    cases heq
    cases hcall.symm.trans hother
    exact hresult

end Coherent

/-! ## Changes of the store -/

namespace Coherent

theorem key_eq_of_guard? (hs : s.Coherent) (hcall : s.calls[i]? = some call)
    (hguard : s.locks.guard? i = some key) : key = call.key := by
  obtain ⟨a, ha, -, rfl⟩ := SharedTable.guard?_eq_some_iff.mp hguard
  exact (hs.fits_of_getElem? hcall ha).key

/-- The store changes only by the transaction of a call that has the lock of its entity. -/
theorem store_effect (hs : s.Coherent) (h : s.Effect action s') :
    s'.ledger.store = s.ledger.store ∨
      ∃ i now call, action = .transact i now ∧ s.calls[i]? = some call ∧
        s.locks.guard? i = some call.key ∧ call.result? = none ∧
        ∃ r : Request, r.key = call.key ∧ s'.ledger.store = r.run s.ledger.store := by
  cases h with
  | idle | ask | proceed | leave | contend | tick => exact .inl rfl
  | @transact i call key now hcall hguard hresult =>
    have hasks := hs.asks call (List.mem_of_getElem? hcall)
    obtain rfl := hs.key_eq_of_guard? hcall hguard
    rcases Ledger.store_outcome_mutate hasks now s.ledger with hsame | hrun
    · exact .inl hsame
    · exact .inr ⟨i, now, call, rfl, hcall, hguard, hresult, hrun⟩

/-- While a call has the lock of an entity, only its own transaction changes rows of the entity. -/
theorem ofEntity_effect (hs : s.Coherent) (h : s.Effect action s')
    (hguard : s.locks.guard? i = some key) (haction : ∀ now, action ≠ .transact i now) :
    s'.ledger.store.ofEntity key = s.ledger.store.ofEntity key := by
  rcases hs.store_effect h with hsame | ⟨j, now, call, rfl, -, hother, -, r, hr, hrun⟩
  · rw [hsame]
  · -- The transaction is that of another call, which has another lock.
    have hne : call.key ≠ key := by
      rintro rfl
      obtain rfl := hs.locks.exclusive hguard hother
      exact haction now rfl
    rw [hrun, Store.ofEntity_eq_restrict]
    exact r.restrict_run hs.sound (by simpa [hr] using hne)

end Coherent

/-! ## Answers -/

theorem answer?_eq_some_iff {answer : Except SharedError α} :
    s.answer? i = some answer ↔ ∃ a, s.locks.attempts[i]? = some a ∧
      ((∃ timeout waited, a.stage = .refused timeout waited ∧
          answer = .error (.lockTimeout timeout waited)) ∨
        a.stage = .released ∧ ∃ call result, s.calls[i]? = some call ∧
          call.result? = some result ∧ answer = result.mapError .ledger) := by
  simp only [answer?, Option.bind_eq_bind, Option.bind_eq_some_iff]
  refine exists_congr fun a => and_congr_right fun _ => ?_
  cases a.stage with
  | refused timeout waited => simp [eq_comm]
  | released => simp [Option.bind_eq_some_iff, eq_comm (a := answer)]
  | _ => simp

/-- A call that has its result keeps it. -/
theorem Effect.call_of_result (h : s.Effect action s') (hcall : s.calls[i]? = some call)
    (hresult : call.result?.isSome) : s'.calls[i]? = some call := by
  cases h with
  | idle | proceed | leave | contend | tick => exact hcall
  | ask => exact SharedTable.getElem?_concat_eq_some_iff.mpr (.inl hcall)
  | @transact j other key now hother hguard hnone =>
    have hij : j ≠ i := by
      rintro rfl
      cases hcall.symm.trans hother
      rw [hnone] at hresult
      cases hresult
    exact (calls_settle_of_ne hij _).trans hcall

theorem Effect.attempt_of_isOver (h : s.Effect action s') {a : LockAttempt}
    (ha : s.locks.attempts[i]? = some a) (hover : a.stage.isOver) :
    s'.locks.attempts[i]? = some a := by
  have stepped (lock : LockAction) : (s.locks.step lock).attempts[i]? = some a :=
    (s.locks.effect_step lock).attempt_of_isOver ha hover
  cases h with
  | idle | transact | contend => exact ha
  | ask => exact stepped (.call _ _)
  | proceed j => exact stepped (.proceed j)
  | @leave j => exact stepped (.drop j)
  | tick duration => exact stepped (.tick duration)

/-- An answer is given once and for all. -/
theorem Effect.answer? (h : s.Effect action s') {answer : Except SharedError α}
    (hanswer : s.answer? i = some answer) : s'.answer? i = some answer := by
  obtain ⟨a, ha, hcases⟩ := answer?_eq_some_iff.mp hanswer
  rcases hcases with ⟨timeout, waited, hstage, rfl⟩ |
    ⟨hstage, call, result, hcall, hresult, rfl⟩
  · have hkept := h.attempt_of_isOver ha (by rw [hstage]; rfl)
    exact answer?_eq_some_iff.mpr ⟨a, hkept, .inl ⟨timeout, waited, hstage, rfl⟩⟩
  · have hkept := h.attempt_of_isOver ha (by rw [hstage]; rfl)
    have hcall' := h.call_of_result hcall (by rw [hresult]; rfl)
    exact answer?_eq_some_iff.mpr ⟨a, hkept, .inr ⟨hstage, call, result, hcall', hresult, rfl⟩⟩

/-- Whoever is answered has no guard any more. -/
theorem guard?_of_answer? {answer : Except SharedError α} (h : s.answer? i = some answer) :
    s.locks.guard? i = none := by
  obtain ⟨a, ha, ⟨timeout, waited, hstage, -⟩ | ⟨hstage, -⟩⟩ := answer?_eq_some_iff.mp h
  · exact SharedTable.guard?_of_stage_ne ha (by simp [hstage])
  · exact SharedTable.guard?_of_stage_ne ha (by simp [hstage])

theorem answer?_eq_lockTimeout_iff {timeout : LockTimeout} {waited : Nat} :
    s.answer? i = some (.error (.lockTimeout timeout waited)) ↔
      s.locks.refusal? i = some (timeout, waited) := by
  rw [answer?_eq_some_iff, SharedTable.refusal?_eq_some_iff]
  refine exists_congr fun a => and_congr_right fun _ => ?_
  constructor
  · rintro (⟨timeout, waited, hstage, heq⟩ | ⟨-, call, result, -, -, heq⟩)
    · cases heq
      exact hstage
    · cases result <;> cases heq
  · exact fun hstage => .inl ⟨timeout, waited, hstage, rfl⟩

/-- A call fails for want of its lock while another one has it, and without a transaction. -/
theorem Coherent.lockTimeout_effect (hs : s.Coherent) (h : s.Effect action s')
    {timeout : LockTimeout} {waited : Nat} (hbefore : s.answer? i = none)
    (hafter : s'.answer? i = some (.error (.lockTimeout timeout waited))) :
    s'.ledger = s.ledger ∧ ∃ call, s.calls[i]? = some call ∧ timeout = ⟨call.key⟩ ∧
      call.result? = none ∧ ∃ j, j ≠ i ∧ s.locks.guard? j = some call.key := by
  have hnone : s.locks.refusal? i = none := by
    refine Option.eq_none_iff_forall_ne_some.mpr fun ⟨timeout, waited⟩ hsome => ?_
    cases hbefore.symm.trans (answer?_eq_lockTimeout_iff.mpr hsome)
  have hrefusal := answer?_eq_lockTimeout_iff.mp hafter
  have refused (lock : LockAction)
      (hrefusal : (s.locks.step lock).refusal? i = some (timeout, waited)) :
      ∃ call, s.calls[i]? = some call ∧ timeout = ⟨call.key⟩ ∧ call.result? = none ∧
        ∃ j, j ≠ i ∧ s.locks.guard? j = some call.key := by
    obtain ⟨a, ha, hblocked, -, -, rfl, -⟩ := (s.locks.effect_step lock).refusal? hnone hrefusal
    obtain ⟨call, hcall, hfits⟩ := hs.exists_call ha
    refine ⟨call, hcall, congrArg LockTimeout.mk hfits.key, ?_, ?_⟩
    · exact hfits.result?_eq_none (by simp [hblocked]) (by simp [hblocked])
    · rw [← hfits.key]
      exact hs.locks.exists_guard?_of_blocked ha hblocked
  cases h with
  | idle | transact | contend => cases hnone.symm.trans hrefusal
  | ask => exact ⟨rfl, refused (.call _ _) hrefusal⟩
  | proceed j => exact ⟨rfl, refused (.proceed j) hrefusal⟩
  | @leave j => exact ⟨rfl, refused (.drop j) hrefusal⟩
  | tick duration => exact ⟨rfl, refused (.tick duration) hrefusal⟩

/-! ## Where calls and results come from -/

/-- Every call was asked for in a context of its tenant. -/
theorem Effect.exists_call (h : s.Effect action s') (hcall : s'.calls[i]? = some call) :
    (∃ before, s.calls[i]? = some before ∧ before.key = call.key ∧
        before.session = call.session) ∨
      ∃ ctx : Context, action = .ask ctx call.key call.session ∧
        ctx.tenant = some call.key.tenant := by
  cases h with
  | idle | proceed | leave | contend | tick => exact .inl ⟨call, hcall, rfl, rfl⟩
  | ask hctx =>
    rcases SharedTable.getElem?_concat_eq_some_iff.mp hcall with hcall | ⟨-, rfl⟩
    · exact .inl ⟨call, hcall, rfl, rfl⟩
    · exact .inr ⟨_, rfl, hctx⟩
  | @transact j other key now hother hguard hnone =>
    by_cases hij : j = i
    · subst hij
      cases (calls_settle_self hother _).symm.trans hcall
      exact .inl ⟨other, hother, rfl, rfl⟩
    · exact .inl ⟨call, (calls_settle_of_ne hij _).symm.trans hcall, rfl, rfl⟩

/-- A result is what a transaction came to that was run with the lock of the entity. -/
theorem Coherent.call_effect (hs : s.Coherent) (h : s.Effect action s')
    {result : Except LedgerError α} (hcall : s'.calls[i]? = some call)
    (hresult : call.result? = some result) :
    s.calls[i]? = some call ∨
      ∃ now, action = .transact i now ∧ s.locks.guard? i = some call.key ∧
        result = (Ledger.outcome (Ledger.mutate (call.session now)) s.ledger).1 := by
  cases h with
  | idle | proceed | leave | contend | tick => exact .inl hcall
  | ask =>
    rcases SharedTable.getElem?_concat_eq_some_iff.mp hcall with hcall | ⟨-, rfl⟩
    · exact .inl hcall
    · cases hresult
  | @transact j other key now hother hguard hnone =>
    by_cases hij : j = i
    · subst hij
      cases (calls_settle_self hother _).symm.trans hcall
      obtain rfl := hs.key_eq_of_guard? hother hguard
      exact .inr ⟨now, rfl, hguard, (Option.some.inj hresult).symm⟩
    · exact .inl ((calls_settle_of_ne hij _).symm.trans hcall)

/-! ## Runs -/

/-- The calls of a run ask for requests. -/
def AllAsk (actions : List (SharedAction α)) : Prop :=
  ∀ ctx key session, .ask ctx key session ∈ actions → Asks key session

theorem AllAsk.rest {actions : List (SharedAction α)} (h : AllAsk (action :: actions)) :
    AllAsk actions :=
  fun ctx key session hmem => h ctx key session (List.mem_cons_of_mem action hmem)

theorem Coherent.step (hs : s.Coherent) {actions : List (SharedAction α)}
    (hasks : AllAsk (action :: actions)) : (s.step action).Coherent :=
  hs.effect (s.effect_step action) fun ctx key session heq =>
    hasks ctx key session (heq ▸ List.mem_cons_self)

theorem Coherent.after (hs : s.Coherent) {actions : List (SharedAction α)}
    (hasks : AllAsk actions) : (s.after actions).Coherent := by
  induction actions generalizing s with
  | nil => exact hs
  | cons action rest ih => exact ih (hs.step hasks) hasks.rest

/-- The store is at any time the one after some requests, one after another. -/
theorem Coherent.store_after (hs : s.Coherent) {actions : List (SharedAction α)}
    (hasks : AllAsk actions) :
    ∃ rs, (s.after actions).ledger.store = s.ledger.store.after rs := by
  induction actions generalizing s with
  | nil => exact ⟨[], rfl⟩
  | cons action rest ih =>
    obtain ⟨rs, hrs⟩ := ih (hs.step hasks) hasks.rest
    rcases hs.store_effect (s.effect_step action) with
      hsame | ⟨i, now, call, -, -, -, -, r, -, hrun⟩
    · exact ⟨rs, by rw [← hsame]; exact hrs⟩
    · exact ⟨r :: rs, by rw [Store.after_cons, ← hrun]; exact hrs⟩

/-- A result that a call did not have at first is that of its transaction at one moment of the
run, at which it had the lock of its entity. -/
theorem Coherent.result_after (hs : s.Coherent) {actions : List (SharedAction α)}
    (hasks : AllAsk actions) {result : Except LedgerError α}
    (hcall : (s.after actions).calls[i]? = some call) (hresult : call.result? = some result) :
    s.calls[i]? = some call ∨
      ∃ before now rest, actions = before ++ .transact i now :: rest ∧
        (s.after before).locks.guard? i = some call.key ∧
        result = (Ledger.outcome (Ledger.mutate (call.session now)) (s.after before).ledger).1 := by
  induction actions generalizing s with
  | nil => exact .inl hcall
  | cons action rest ih =>
    -- The moment is one of the rest, or that of the first action.
    rcases ih (hs.step hasks) hasks.rest hcall with
      hstep | ⟨before, now, more, rfl, hguard, houtcome⟩
    · rcases hs.call_effect (s.effect_step action) hstep hresult with
        hkept | ⟨now, rfl, hguard, houtcome⟩
      · exact .inl hkept
      · exact .inr ⟨[], now, rest, rfl, hguard, houtcome⟩
    · exact .inr ⟨action :: before, now, more, rfl, hguard, houtcome⟩

theorem exists_ask_after {actions : List (SharedAction α)}
    (hcall : (s.after actions).calls[i]? = some call) :
    (∃ before, s.calls[i]? = some before ∧ before.key = call.key ∧
        before.session = call.session) ∨
      ∃ ctx : Context, .ask ctx call.key call.session ∈ actions ∧
        ctx.tenant = some call.key.tenant := by
  induction actions generalizing s with
  | nil => exact .inl ⟨call, hcall, rfl, rfl⟩
  | cons action rest ih =>
    rcases ih hcall with ⟨before, hstep, hkey, hsession⟩ | ⟨ctx, hmem, htenant⟩
    · rcases (s.effect_step action).exists_call hstep with
        ⟨first, hfirst, hkey', hsession'⟩ | ⟨ctx, rfl, htenant⟩
      · exact .inl ⟨first, hfirst, hkey'.trans hkey, hsession'.trans hsession⟩
      · rw [hkey] at htenant
        exact .inr ⟨ctx, by simp [hkey, hsession], htenant⟩
    · exact .inr ⟨ctx, List.mem_cons_of_mem action hmem, htenant⟩

/-- What every action keeps holds after any number of them. -/
theorem after_induction {P : SharedLedger α → Prop} (hs : P s)
    (hstep : ∀ (t : SharedLedger α) (action : SharedAction α), P t → P (t.step action))
    (actions : List (SharedAction α)) : P (s.after actions) := by
  induction actions generalizing s with
  | nil => exact hs
  | cons action rest ih => exact ih (hstep s action hs)

theorem answer?_after {answer : Except SharedError α} (h : s.answer? i = some answer)
    (actions : List (SharedAction α)) : (s.after actions).answer? i = some answer :=
  after_induction h (fun t action => (t.effect_step action).answer?) actions

theorem attempt_after_of_isOver {a : LockAttempt} (ha : s.locks.attempts[i]? = some a)
    (hover : a.stage.isOver) (actions : List (SharedAction α)) :
    (s.after actions).locks.attempts[i]? = some a :=
  after_induction ha (fun t action hkept => (t.effect_step action).attempt_of_isOver hkept hover)
    actions

/-- A call that has panicked runs no transaction and is not answered. -/
theorem Coherent.panicked_after (hs : s.Coherent) {a : LockAttempt}
    (ha : s.locks.attempts[i]? = some a) (hstage : a.stage = .panicked)
    {actions : List (SharedAction α)} (hasks : AllAsk actions) :
    (s.after actions).answer? i = none ∧
      ∀ call, (s.after actions).calls[i]? = some call → call.result? = none := by
  have hkept := attempt_after_of_isOver ha (by rw [hstage]; rfl) actions
  constructor
  · refine Option.eq_none_iff_forall_ne_some.mpr fun answer hanswer => ?_
    obtain ⟨b, hb, hover⟩ := answer?_eq_some_iff.mp hanswer
    cases hkept.symm.trans hb
    simp [hstage] at hover
  · intro call hcall
    exact ((hs.after hasks).fits_of_getElem? hcall hkept).result?_eq_none (by simp [hstage])
      (by simp [hstage])

/-! ## Calls that have their lock -/

theorem step_transact (hcall : s.calls[i]? = some call) (hguard : s.locks.guard? i = some key)
    (hresult : call.result? = none) :
    s.step (.transact i now) =
      s.settle i call (Ledger.outcome (Ledger.mutate (call.session now)) s.ledger) := by
  simp [step, transact, hcall, hguard, hresult]

theorem step_leave (hcall : s.calls[i]? = some call) {result : Except LedgerError α}
    (hresult : call.result? = some result) :
    s.step (.leave i) = { s with locks := s.locks.step (.drop i) } := by
  simp [step, leave, hcall, hresult]

/-- A call that has its lock is answered after two more steps with what its transaction comes to,
and leaves the lock free. -/
theorem Coherent.after_transact (hs : s.Coherent) (hcall : s.calls[i]? = some call)
    (hguard : s.locks.guard? i = some key) (hresult : call.result? = none)
    (hfree : s.locks.owner = none) (now : Nat) :
    let outcome := Ledger.outcome (Ledger.mutate (call.session now)) s.ledger
    let s' := s.after [.transact i now, .leave i]
    s'.ledger = outcome.2 ∧ s'.answer? i = some (outcome.1.mapError .ledger) ∧
      ∀ j, s'.locks.guard? j ≠ some key := by
  intro outcome s'
  have hsettled := calls_settle_self hcall outcome
  have hrun : s.step (.transact i now) = s.settle i call outcome :=
    step_transact hcall hguard hresult
  have hs' : s' = { s.settle i call outcome with locks := s.locks.step (.drop i) } := by
    simp only [s', SharedLedger.after, List.foldl_cons, List.foldl_nil, hrun,
      step_leave hsettled rfl]
    rfl
  obtain ⟨a, ha, hstage, -⟩ := SharedTable.guard?_eq_some_iff.mp hguard
  have hreleased : s'.locks.attempts[i]? = some { a with stage := .released } := by
    rw [hs', SharedTable.step_drop ha hstage hfree]
    exact SharedTable.advance_attempts_self ha _
  refine ⟨by rw [hs']; rfl, ?_, fun j hj => ?_⟩
  · exact answer?_eq_some_iff.mpr
      ⟨_, hreleased, .inr ⟨rfl, _, outcome.1, by rw [hs']; exact hsettled, rfl, rfl⟩⟩
  · rw [hs', (SharedTable.drop_frees hguard hfree).1 j] at hj
    split at hj
    next => cases hj
    next hne => exact hne (hs.locks.exclusive hj hguard)

/-! ## What callers rely on -/

/-- What holds of a shared ledger after a run, and of what comes next. -/
structure Serialized (l : Ledger) (latest : Nat) (actions : List (SharedAction α))
    (s : SharedLedger α) : Prop where
  /-- No two calls have the lock of one entity. -/
  exclusive : ∀ i j key, s.locks.guard? i = some key → s.locks.guard? j = some key → i = j
  /-- The store changes only by the transaction of a call that has the lock of its entity and has
  run none yet, which keeps all rows of other entities. -/
  changed : ∀ action, (s.step action).ledger.store = s.ledger.store ∨
    ∃ i now call, action = .transact i now ∧ s.calls[i]? = some call ∧
      s.locks.guard? i = some call.key ∧ call.result? = none ∧
      ∀ p : EntityKey → Bool, ¬p call.key →
        (s.step action).ledger.store.restrict p = s.ledger.store.restrict p
  /-- While a call has the lock of an entity, nobody else changes rows of the entity. -/
  undisturbed : ∀ action i key, s.locks.guard? i = some key → (∀ now, action ≠ .transact i now) →
    (s.step action).ledger.store.ofEntity key = s.ledger.store.ofEntity key
  /-- Every call was asked for in a context of its tenant. -/
  granted : ∀ (i : Nat) (call : Call α), s.calls[i]? = some call →
    ∃ ctx : Context, .ask ctx call.key call.session ∈ actions ∧
      ctx.tenant = some call.key.tenant
  /-- What came of a call is what the ledger itself would have answered at one moment of the run,
  at which the call had the lock of its entity. -/
  atomic : ∀ (i : Nat) (call : Call α) result, s.calls[i]? = some call →
    call.result? = some result →
    ∃ before now rest, actions = before ++ .transact i now :: rest ∧
      let t := (start l latest).after before
      t.locks.guard? i = some call.key ∧
        result = (Ledger.outcome (Ledger.mutate (call.session now)) t.ledger).1
  /-- A call fails for want of its lock only while another call has it, and changes nothing. -/
  refused : ∀ action i timeout waited, s.answer? i = none →
    (s.step action).answer? i = some (.error (.lockTimeout timeout waited)) →
      (s.step action).ledger = s.ledger ∧ ∃ call, s.calls[i]? = some call ∧
        timeout = ⟨call.key⟩ ∧ call.result? = none ∧
        ∃ j, j ≠ i ∧ s.locks.guard? j = some call.key
  /-- A call that has panicked, for want of an instant at which its wait is over, runs no
  transaction and is never answered. -/
  panicked : ∀ (i : Nat) (a : LockAttempt), s.locks.attempts[i]? = some a → a.stage = .panicked →
    ∀ more, AllAsk more → (s.after more).answer? i = none ∧
      ∀ call : Call α, (s.after more).calls[i]? = some call → call.result? = none
  /-- A call that has its lock is answered after two more steps with what its transaction comes to,
  and leaves the lock free. -/
  served : ∀ (i : Nat) (call : Call α) now, s.calls[i]? = some call → call.result? = none →
    s.locks.guard? i = some call.key → s.locks.owner = none →
      let outcome := Ledger.outcome (Ledger.mutate (call.session now)) s.ledger
      let s' := s.after [.transact i now, .leave i]
      s'.ledger = outcome.2 ∧ s'.answer? i = some (outcome.1.mapError .ledger) ∧
        ∀ j, s'.locks.guard? j ≠ some call.key
  /-- Whoever is answered has no lock any more, and the answer stands for good. -/
  answered : ∀ i answer, s.answer? i = some answer →
    s.locks.guard? i = none ∧ ∀ more, (s.after more).answer? i = some answer
  /-- The store is that after some requests, one after another. -/
  store : ∃ rs, s.ledger.store = l.store.after rs

/-- In whatever order callers take their steps, their mutations run one after another, those of one
entity under its lock. -/
theorem serialized_after (l : Ledger) (hl : l.store.Sound) (latest : Nat)
    (actions : List (SharedAction α)) (hasks : AllAsk actions) :
    Serialized l latest actions ((start l latest).after actions) := by
  have hs := Coherent.after (.start hl latest) hasks
  constructor
  case exclusive => exact fun i j key => hs.locks.exclusive
  case changed =>
    intro action
    rcases hs.store_effect (effect_step _ action) with
      hsame | ⟨i, now, call, haction, hcall, hguard, hresult, r, hr, hrun⟩
    · exact .inl hsame
    · refine .inr ⟨i, now, call, haction, hcall, hguard, hresult, fun p hp => ?_⟩
      rw [hrun]
      exact r.restrict_run hs.sound (hr ▸ hp)
  case undisturbed => exact fun action i key => hs.ofEntity_effect (effect_step _ action)
  case granted =>
    intro i call hcall
    rcases exists_ask_after hcall with ⟨before, hbefore, -⟩ | hask
    · simp [start] at hbefore
    · exact hask
  case atomic =>
    intro i call result hcall hresult
    rcases (Coherent.start hl latest).result_after hasks hcall hresult with hbefore | hrun
    · simp [start] at hbefore
    · exact hrun
  case refused => exact fun action i timeout waited => hs.lockTimeout_effect (effect_step _ action)
  case panicked => exact fun i a ha hstage more hmore => hs.panicked_after ha hstage hmore
  case served =>
    exact fun i call now hcall hresult hguard hfree =>
      hs.after_transact hcall hguard hresult hfree now
  case answered => exact fun i answer h => ⟨guard?_of_answer? h, answer?_after h⟩
  case store => exact (Coherent.start hl latest).store_after hasks

/-! ## A caller alone -/

theorem step_ask {ctx : Context} {session : Nat → Session α}
    (hctx : ctx.tenant = some key.tenant) :
    s.step (.ask ctx key session) =
      { s with
        locks := s.locks.step (.call key (s.ledger.config.lockTimeoutMs * 10 ^ 6))
        calls := s.calls ++ [⟨key, session, none⟩] } := by
  simp only [step, SharedLedger.ask, Context.authorize_eq_ok_iff.mpr hctx]

/-- The lock of an entity can be had at once: nobody has it, or has the lock table, and there is an
instant at which the wait for it is over. -/
structure Free (s : SharedLedger α) (key : EntityKey) : Prop where
  owner : s.locks.owner = none
  guards : ∀ j, s.locks.guard? j ≠ some key
  timeout : s.locks.clock + s.ledger.config.lockTimeoutMs * 10 ^ 6 ≤ s.locks.latest

/-- When the lock of an entity can be had at once, a caller who takes all steps without a pause is
served by the ledger as if there were no locks, and leaves the lock free. -/
theorem Coherent.after_alone (hs : s.Coherent) {ctx : Context} {session : Nat → Session α}
    (hctx : ctx.tenant = some key.tenant) (hasks : Asks key session) (hfree : s.Free key)
    (now : Nat) :
    let i := s.calls.length
    let outcome := Ledger.outcome (Ledger.mutate (session now)) s.ledger
    let s' := s.after [.ask ctx key session, .proceed i, .proceed i, .transact i now, .leave i]
    s'.ledger = outcome.2 ∧ s'.answer? i = some (outcome.1.mapError .ledger) ∧
      ∀ j, s'.locks.guard? j ≠ some key := by
  intro i
  have hi : s.locks.attempts.length = i := hs.length.symm
  have hguard := (hs.locks.call_succeeds_iff hfree.owner hfree.timeout key).mpr hfree.guards
  have hheld : key ∉ s.locks.table.held := fun hmem =>
    (hs.locks.mem_held_iff.mp hmem).elim hfree.guards
  have howner := (SharedTable.after_call_of_not_mem hfree.owner hfree.timeout hheld).2
  rw [hi] at hguard howner
  have hasked := hs.ask hasks (s.ledger.config.lockTimeoutMs * 10 ^ 6)
  have hlocked := (hasked.proceed i).proceed i
  have hcall : (s.calls ++ [⟨key, session, none⟩])[i]? = some ⟨key, session, none⟩ :=
    SharedTable.getElem?_concat_eq_some_iff.mpr (.inr ⟨rfl, rfl⟩)
  have hserved := hlocked.after_transact hcall hguard rfl howner now
  simp only [SharedLedger.after, List.foldl_cons, step_ask hctx]
  exact hserved

/-- So is a caller who asks for a mutation. -/
theorem Coherent.mutation_alone {s : SharedLedger (Outcome AuditEntry)} (hs : s.Coherent)
    {ctx : Context} (m : Mutation) (hctx : ctx.tenant = some m.key.tenant) (hfree : s.Free m.key)
    (now : Nat) :
    let i := s.calls.length
    let outcome := Ledger.outcome (m.perform ctx now) s.ledger
    let s' := s.after [.ask ctx m.key m.session, .proceed i, .proceed i, .transact i now, .leave i]
    s'.ledger = outcome.2 ∧
      (s'.answer? i).map (Except.map Outcome.entry) = some (outcome.1.mapError .ledger) := by
  intro i outcome s'
  obtain ⟨hledger, hanswer, -⟩ := hs.after_alone hctx m.asks hfree now
  have houtcome : outcome = _ := Ledger.outcome_perform m hctx now s.ledger
  refine ⟨hledger.trans (by rw [houtcome]), ?_⟩
  rw [houtcome, hanswer]
  cases (Ledger.outcome (Ledger.mutate (m.session now)) s.ledger).1 <;> rfl

/-- So is a caller who asks for a rebuild. -/
theorem Coherent.rebuild_alone {s : SharedLedger Timeline} (hs : s.Coherent) {ctx : Context}
    (hctx : ctx.tenant = some key.tenant) (hfree : s.Free key) (now : Nat) :
    let i := s.calls.length
    let outcome := Ledger.outcome (Ledger.rebuild ctx key) s.ledger
    let s' := s.after [.ask ctx key fun _ => Ledger.rederive key, .proceed i, .proceed i,
      .transact i now, .leave i]
    s'.ledger = outcome.2 ∧ s'.answer? i = some (outcome.1.mapError .ledger) := by
  intro i outcome s'
  obtain ⟨hledger, hanswer, -⟩ := hs.after_alone hctx (asks_rederive key) hfree now
  have houtcome : outcome = _ := Ledger.outcome_rebuild hctx s.ledger
  rw [houtcome]
  exact ⟨hledger, hanswer⟩

/-- Two callers ask for mutations of one entity.  The second does not get the lock in time, while
the transaction of the first is run. -/
example :
    let ctx := Context.ofTenant "acme"
    let l : Ledger := ⟨{ Config.standard with lockTimeoutMs := 30 }, .empty, false⟩
    let s := (start l (2 ^ 63)).after [
      .ask ctx Sample.key (Mutation.submit Sample.created).session, .proceed 0, .proceed 0,
      .ask ctx Sample.key (Mutation.submit Sample.updated).session, .proceed 1, .proceed 1,
      .transact 0 1, .tick 30000000, .proceed 1, .leave 0]
    s.ledger.store = Store.empty.after [.submit Sample.created 1] ∧
      (s.answer? 0).map Except.isOk = some true ∧
      (s.answer? 1).bind (fun | .ok _ => none | .error e => some e.message) =
        some "timed out after 30ms waiting for the lock on 'acme/desk-7'" := by
  decide +kernel

end SharedLedger

end DatedLedger
