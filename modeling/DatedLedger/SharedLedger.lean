import DatedLedger.Ledger
import DatedLedger.Locks.Shared

/-!
# A ledger with many callers

Callers share a ledger together with the lock table of its entities.  A call for a mutation
takes the lock of its entity, runs as a transaction, lets go of its guard and is then answered.
A call that does not get the lock in time is answered without a transaction.  Only one
transaction runs at a time, so it is a single step; between the steps of a call those of other
calls are taken, in any order, and whoever reads sees what was last committed.
-/

namespace DatedLedger

/-- Why a call to a shared ledger fails. -/
inductive SharedError where
  /-- The lock of the entity was not to be had, and the given number of milliseconds has passed. -/
  | lockTimeout (timeout : LockTimeout) (waited : Nat)
  | ledger (e : LedgerError)

namespace SharedError

def message : SharedError → String
  | lockTimeout timeout waited =>
    "timed out after " ++ Text.showNat waited ++ "ms waiting for the lock on '" ++
      timeout.key.text ++ "'"
  | ledger e => e.message

/-- Whether the same call may succeed later without any change to it. -/
def isRetryable : SharedError → Bool
  | lockTimeout _ _ => true
  | ledger e => e.isRetryable

end SharedError

/-- What an operation comes to: its answer or error, and the ledger after it. -/
def Ledger.outcome {α : Type} (action : Ledger.Action α) (l : Ledger) :
    Except LedgerError α × Ledger :=
  match action l with
  | .ok a l' => (.ok a, l')
  | .error e l' => (.error e, l')

/-- A call for a mutation, which its context has let through. -/
structure Call (α : Type) where
  key : EntityKey
  /-- What is run as a transaction, by the time at which it is. -/
  session : Nat → Session α
  /-- What came of the transaction, once it was run. -/
  result? : Option (Except LedgerError α)

/-- A ledger, its lock table and all calls so far. -/
structure SharedLedger (α : Type) where
  ledger : Ledger
  /-- The attempt of a call to take its lock has the number of the call. -/
  locks : SharedTable
  calls : List (Call α)

/-- What happens at a shared ledger. -/
inductive SharedAction (α : Type) where
  /-- A caller asks in a context for a mutation of an entity. -/
  | ask (ctx : Context) (key : EntityKey) (session : Nat → Session α)
  /-- A call takes its next step towards its lock. -/
  | proceed (i : Nat)
  /-- A call runs its transaction, at the given time. -/
  | transact (i now : Nat)
  /-- A call lets go of its guard. -/
  | leave (i : Nat)
  /-- Another connection takes the right to write, or gives it back. -/
  | contend (writeLocked : Bool)
  /-- Time passes. -/
  | tick (duration : Nat)

namespace SharedLedger

variable {α : Type}

/-- A ledger that nobody has called, with a clock that ends at the given instant. -/
def start (ledger : Ledger) (latest : Nat) : SharedLedger α :=
  ⟨ledger, .empty latest, []⟩

/-- A caller asks for a mutation.  One that its context does not let through is answered with why,
and makes no call; any other one is about to take the lock of the entity. -/
def ask (s : SharedLedger α) (ctx : Context) (key : EntityKey) (session : Nat → Session α) :
    Except LedgerError (SharedLedger α) :=
  match ctx.authorize key.tenant with
  | .error e => .error e
  | .ok _ => .ok { s with
      locks := s.locks.step (.call key (s.ledger.config.lockTimeoutMs * 10 ^ 6))
      calls := s.calls ++ [⟨key, session, none⟩] }

/-- The ledger as a transaction has left it; what came of the transaction is kept with its call. -/
def settle (s : SharedLedger α) (i : Nat) (call : Call α)
    (outcome : Except LedgerError α × Ledger) : SharedLedger α :=
  { s with
    ledger := outcome.2
    calls := s.calls.set i { call with result? := some outcome.1 } }

/-- A call runs its transaction when it has a guard, and only once. -/
def transact (s : SharedLedger α) (i now : Nat) : SharedLedger α :=
  match s.calls[i]?, s.locks.guard? i with
  | some call, some _ =>
    if call.result?.isSome then s
    else s.settle i call (Ledger.outcome (Ledger.mutate (call.session now)) s.ledger)
  | _, _ => s

/-- A call lets go of its guard when its transaction was run, whatever came of it. -/
def leave (s : SharedLedger α) (i : Nat) : SharedLedger α :=
  match s.calls[i]?.bind Call.result? with
  | none => s
  | some _ => { s with locks := s.locks.step (.drop i) }

/-- The shared ledger after an action. -/
def step (s : SharedLedger α) : SharedAction α → SharedLedger α
  | .ask ctx key session =>
    match s.ask ctx key session with
    | .error _ => s
    | .ok s' => s'
  | .proceed i => { s with locks := s.locks.step (.proceed i) }
  | .transact i now => s.transact i now
  | .leave i => s.leave i
  | .contend writeLocked => { s with ledger := { s.ledger with writeLocked := writeLocked } }
  | .tick duration => { s with locks := s.locks.step (.tick duration) }

/-- The shared ledger after some actions, one after another. -/
def after (s : SharedLedger α) (actions : List (SharedAction α)) : SharedLedger α :=
  actions.foldl step s

/-- What a call is answered, once it is: why it did not get the lock, or what came of its
transaction after it has let go of its guard. -/
def answer? (s : SharedLedger α) (i : Nat) : Option (Except SharedError α) := do
  let attempt ← s.locks.attempts[i]?
  match attempt.stage with
  | .refused timeout waited => return .error (.lockTimeout timeout waited)
  | .released => return (← (← s.calls[i]?).result?).mapError .ledger
  | .panicked | .entering | .looking | .blocked | .waiting | .holding => none

end SharedLedger

end DatedLedger
