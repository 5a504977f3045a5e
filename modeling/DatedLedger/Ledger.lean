import DatedLedger.Access
import DatedLedger.Config
import DatedLedger.Store.Write

/-!
# The ledger

A ledger is a store with its settings.  Every operation first asks whether its
context may touch the tenant.  Mutations run as transactions, and fail while
another connection holds the right to write; reads see what was last committed.
That a mutation takes the lock of its entity before shows only where callers share
the ledger, see SharedLedger.
-/

namespace DatedLedger

/-- A store with its settings. -/
structure Ledger where
  config : Config
  store : Store
  /-- Another connection holds the right to write. -/
  writeLocked : Bool
  deriving DecidableEq

namespace Ledger

/-- The ledger without entries, unless the settings have a fault. -/
def create (config : Config) : Except ConfigFault Ledger :=
  config.validate.map fun config => ⟨config, .empty, false⟩

/-- An operation: its answer, and the ledger after it. -/
abbrev Action := EStateM LedgerError Ledger

/-- Lets an operation on a tenant through in a context of that tenant. -/
def authorize (ctx : Context) (tenant : String) : Action Unit :=
  match ctx.authorize tenant with
  | .ok _ => pure ()
  | .error e => throw e

/-- Runs a session as a transaction, when the right to write is free. -/
def mutate {α : Type} (session : Session α) : Action α := fun l =>
  if l.writeLocked then .error (.storage .locked) l
  else
    match session.transaction l.store with
    | .ok a s => .ok a { l with store := s }
    | .error e s => .error e { l with store := s }

/-- Reads from the store. -/
def read {α : Type} (f : Store → Except LedgerError α) : Action α := fun l =>
  match f l.store with
  | .ok a => .ok a l
  | .error e => .error e l

/-- Submits an event. -/
def submit (ctx : Context) (c : Submission) (now : Nat) : Action Event := do
  authorize ctx c.key.tenant
  return (← mutate (Session.submit c now)).entry

/-- Corrects an event. -/
def correct (ctx : Context) (c : Command) (now : Nat) : Action Entry := do
  authorize ctx c.key.tenant
  return (← mutate (Session.correct c now)).entry

/-- Rescinds an event. -/
def rescind (ctx : Context) (c : Command) (now : Nat) : Action Entry := do
  authorize ctx c.key.tenant
  return (← mutate (Session.rescind c now)).entry

/-- Fails unless the entity is registered. -/
def requireEntity (s : Store) (key : EntityKey) : Except LedgerError Head := do
  match ← s.head key with
  | some head => .ok head
  | none => .error (.notFound (.entity key))

/-- Derives the stored timeline of a registered entity anew. -/
def rederive (key : EntityKey) : Session Timeline := do
  let _ ← Session.read fun s => requireEntity s key
  Session.rematerialize key

/-- Derives the stored timeline of an entity anew, in a context that may touch its tenant. -/
def rebuild (ctx : Context) (key : EntityKey) : Action Timeline := do
  authorize ctx key.tenant
  mutate (rederive key)

/-- The version of an entity in effect on a date. -/
def versionAsOf (ctx : Context) (key : EntityKey) (date : Date) : Action Version := do
  authorize ctx key.tenant
  match ← read fun s => s.versionAsOf key date with
  | some version => return version
  | none => throw (.notFound (.version key.entity date))

/-- The stored timeline of an entity. -/
def timeline (ctx : Context) (key : EntityKey) : Action Timeline := do
  authorize ctx key.tenant
  let _ ← read fun s => requireEntity s key
  read fun s => s.timelineOf key

/-- A page of the newest entries of an entity. -/
def audit (ctx : Context) (key : EntityKey) (limit : Option Nat) : Action (List AuditEntry) := do
  authorize ctx key.tenant
  let config := (← get).config
  let limit ← read fun _ => config.auditLimit limit
  read fun s => s.audit key limit

/-- Whether stored versions and digest are those that follow from the logs. -/
def isConsistent (s : Store) (key : EntityKey) : Except LedgerError Bool := do
  let head ← requireEntity s key
  let (fresh, _) ← s.replayEntity key
  let stored ← s.timelineOf key
  .ok (fresh.digest == head.digest && fresh.digest == stored.digest)

/-- Checks the stored timeline of an entity against its logs, and changes nothing. -/
def verify (ctx : Context) (key : EntityKey) : Action Bool := do
  authorize ctx key.tenant
  read fun s => isConsistent s key

end Ledger

end DatedLedger
