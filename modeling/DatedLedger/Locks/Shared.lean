import DatedLedger.Locks
import DatedLedger.Power

/-!
# A lock table with many callers

Any number of callers share a lock table.  An attempt to take a lock has the table to
itself while it looks its pair up, and gives it back when it has a guard, when it gives up
and when it begins to wait.  Whoever waits is woken when a guard is let go of, when its time
is over or for no reason at all, and then looks again.  The attempts take their steps in any
order, and time passes between them.  Clocks have a last instant: who is ready to wait beyond
it panics instead of making an attempt.
-/

namespace DatedLedger

/-- How far an attempt to take a lock has come. -/
inductive LockStage where
  /-- It has panicked at once, for want of an instant at which its time is over. -/
  | panicked
  /-- It has begun and is to get the table. -/
  | entering
  /-- It has the table and is to look its pair up. -/
  | looking
  /-- It has the table and has found its pair held. -/
  | blocked
  /-- It has given the table back until it is woken. -/
  | waiting
  /-- It has succeeded, and its guard lives. -/
  | holding
  /-- Its guard was let go of. -/
  | released
  /-- It has failed, after the given number of milliseconds. -/
  | refused (timeout : LockTimeout) (waited : Nat)
  deriving DecidableEq

/-- Whether an attempt has the table to itself. -/
def LockStage.atTable : LockStage → Bool
  | looking | blocked => true
  | _ => false

/-- An attempt to take the lock of a pair.  Times are in nanoseconds. -/
structure LockAttempt where
  key : EntityKey
  started : Nat
  timeout : Nat
  stage : LockStage
  deriving DecidableEq

namespace LockAttempt

/-- The time from which on the attempt no longer waits. -/
def deadline (a : LockAttempt) : Nat :=
  a.started + a.timeout

/-- The pair whose guard lives. -/
def guard? (a : LockAttempt) : Option EntityKey :=
  if a.stage = .holding then some a.key else none

/-- What an attempt reports that has failed, and the milliseconds it has taken. -/
def refusal? (a : LockAttempt) : Option (LockTimeout × Nat) :=
  match a.stage with
  | .refused timeout waited => some (timeout, waited)
  | _ => none

/-- The milliseconds since an attempt was begun, as a word of 64 bits. -/
def waited (a : LockAttempt) (clock : Nat) : Nat :=
  min ((clock - a.started) / 10 ^ 6) (2 ^ 64 - 1)

end LockAttempt

/-- A lock table, the attempt that has it to itself, the time and all attempts so far. -/
structure SharedTable where
  table : LockTable
  owner : Option Nat
  clock : Nat
  /-- The last instant that the clock can show. -/
  latest : Nat
  attempts : List LockAttempt
  deriving DecidableEq

/-- What happens at a shared table. -/
inductive LockAction where
  /-- A caller asks for a pair and is ready to wait for some time. -/
  | call (key : EntityKey) (timeout : Nat)
  /-- An attempt takes its next step. -/
  | proceed (i : Nat)
  /-- The guard of an attempt is let go of. -/
  | drop (i : Nat)
  /-- Time passes. -/
  | tick (duration : Nat)

namespace SharedTable

/-- The table before anyone has called, with a clock that ends at the given instant. -/
def empty (latest : Nat) : SharedTable := ⟨.empty, none, 0, latest, []⟩

/-- The pair whose guard an attempt has. -/
def guard? (s : SharedTable) (i : Nat) : Option EntityKey :=
  s.attempts[i]?.bind LockAttempt.guard?

/-- The pairs of all guards that live. -/
def guards (s : SharedTable) : List EntityKey :=
  s.attempts.filterMap LockAttempt.guard?

/-- What an attempt reports that has failed. -/
def refusal? (s : SharedTable) (i : Nat) : Option (LockTimeout × Nat) :=
  s.attempts[i]?.bind LockAttempt.refusal?

/-- The attempt that a call begins.  Its deadline is worked out before it comes to the table, which
panics if there is no such instant. -/
def attempt (s : SharedTable) (key : EntityKey) (timeout : Nat) : LockAttempt :=
  ⟨key, s.clock, timeout, if s.clock + timeout ≤ s.latest then .entering else .panicked⟩

/-- An attempt comes to a stage, where it has the table to itself or gives it back. -/
def advance (s : SharedTable) (i : Nat) (a : LockAttempt) (stage : LockStage) : SharedTable :=
  { s with
    owner := if stage.atTable then some i else none
    attempts := s.attempts.set i { a with stage := stage } }

/-- The next step of an attempt to take a lock.  It stays where it is while another attempt has
the table that it needs. -/
def proceed (s : SharedTable) (i : Nat) (a : LockAttempt) : SharedTable :=
  match a.stage with
  -- Whoever was woken looks again, whatever woke it and even if its time is over.
  | .entering | .waiting => if s.owner = none then s.advance i a .looking else s
  | .looking =>
    match s.table.acquire? a.key with
    | none => s.advance i a .blocked
    | some table => { s with table := table }.advance i a .holding
  | .blocked =>
    if a.deadline ≤ s.clock then s.advance i a (.refused ⟨a.key⟩ (a.waited s.clock))
    else s.advance i a .waiting
  | .panicked | .holding | .released | .refused _ _ => s

/-- Letting go of a guard, which needs the table too: until it gets it, the guard lives. -/
def drop (s : SharedTable) (i : Nat) (a : LockAttempt) : SharedTable :=
  if a.stage = .holding ∧ s.owner = none then
    { s with table := s.table.release a.key }.advance i a .released
  else s

/-- The table after an action.  Only attempts that were begun take steps. -/
def step (s : SharedTable) : LockAction → SharedTable
  | .call key timeout => { s with attempts := s.attempts ++ [s.attempt key timeout] }
  | .proceed i =>
    match s.attempts[i]? with
    | none => s
    | some a => s.proceed i a
  | .drop i =>
    match s.attempts[i]? with
    | none => s
    | some a => s.drop i a
  | .tick duration => { s with clock := min (s.clock + duration) s.latest }

/-- The table after some actions, one after another. -/
def after (s : SharedTable) (actions : List LockAction) : SharedTable :=
  actions.foldl step s

end SharedTable

end DatedLedger
