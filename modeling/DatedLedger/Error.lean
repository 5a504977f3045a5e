import DatedLedger.Record

/-!
# Errors

Every operation of the ledger fails for one of the causes listed here, and
`LedgerError.message` says how each is worded.  Callers who share a ledger may fail
to get a lock besides, see SharedError.
-/

namespace DatedLedger

/-- Why a command or request is refused by itself or by the identities on record. -/
inductive InvalidArgument where
  /-- An identifier is blank. -/
  | required (field : String)
  | unknownKind (text : String)
  | unknownType (text : String)
  /-- The entity is registered with another kind. -/
  | otherKind (entity : String) (registered asked : EntityKind)
  /-- The entity is registered under another owning key, or under none. -/
  | otherOwningKey (key entity : String)
  /-- The owning key is held by another entity. -/
  | owningKeyTaken (key : String) (kind : EntityKind) (holder : String)
  /-- A state breaks a rule, perhaps the state after the event of a given date. -/
  | brokenRule (violation : Violation) (date : Option Date)
  /-- A page of the audit has to have at least one entry. -/
  | zeroAuditLimit

/-- Why the events of an entity are no history. -/
inductive SequenceFault where
  /-- An event is of another kind than the events before it. -/
  | otherKind (date : Date) (kind expected : EntityKind)
  /-- A second event creates the entity. -/
  | secondCreate (date : Date)
  /-- An event changes the entity before any creates it. -/
  | updateFirst (date : Date)

/-- Why a stored row cannot be read. -/
inductive RowFault where
  | unknownKind (text : String)
  | unknownType (text : String)
  | date (text : String) (fault : Date.Fault)
  | payload (fault : PayloadFault)
  | seqNo (stored : Int)

/-- Why a statement on the tables fails. -/
inductive StorageFault where
  | notNull (table column : String)
  | unique (table : String) (columns : List String)
  /-- An event's type is neither of the two. -/
  | eventType
  /-- A row of a log would be changed or removed. -/
  | appendOnly (log : Log)
  /-- Another connection holds the right to write. -/
  | locked
  /-- The connection may only read. -/
  | readOnly

/-- What was asked for and is not there. -/
inductive Absence where
  | entity (key : EntityKey)
  | version (entity : String) (date : Date)

/-- Why an operation of the ledger fails. -/
inductive LedgerError where
  | invalid (reason : InvalidArgument)
  | payload (fault : PayloadFault)
  /-- An identifier or submission is held by an entry of other content. -/
  | reusedKey (key : String)
  | dateConflict (entity : String) (date : Date)
  | eventNotFound (entity : String) (date : Date)
  | createRescinded (entity : String) (date : Date)
  | alreadyRescinded (entity : String) (date : Date)
  | alreadyCorrected (entity : String) (date : Date)
  | invalidSequence (entity : String) (fault : SequenceFault)
  | tenantMissing
  | tenantMismatch (context requested : String)
  | notFound (absence : Absence)
  | storage (fault : StorageFault)
  | row (fault : RowFault)

namespace InvalidArgument

def message : InvalidArgument → String
  | required field => field ++ " is required"
  | unknownKind text => "unknown entity kind '" ++ text ++ "'"
  | unknownType text => "unknown event type '" ++ text ++ "', expected CREATE or UPDATE"
  | otherKind entity registered asked =>
    "entity '" ++ entity ++ "' is a " ++ registered.name ++ ", not a " ++ asked.name
  | otherOwningKey key entity =>
    "owning key '" ++ key ++ "' does not identify entity '" ++ entity ++ "'"
  | owningKeyTaken key kind holder =>
    "owning key '" ++ key ++ "' already identifies " ++ kind.name ++ " '" ++ holder ++ "'"
  | brokenRule violation none => violation.message
  | brokenRule violation (some date) => violation.message ++ " after event on " ++ date.text
  | zeroAuditLimit => "audit limit must be positive"

end InvalidArgument

namespace SequenceFault

def message : SequenceFault → String
  | otherKind date kind expected =>
    "event on " ++ date.text ++ " is " ++ kind.name ++ " but the entity is " ++ expected.name
  | secondCreate date => "second CREATE on " ++ date.text
  | updateFirst date => "UPDATE on " ++ date.text ++ " precedes any CREATE"

end SequenceFault

namespace RowFault

def message : RowFault → String
  | unknownKind text => "unknown stored entity kind '" ++ text ++ "'"
  | unknownType text => "unknown stored event type '" ++ text ++ "'"
  | date text fault => "invalid stored date '" ++ text ++ "': " ++ fault.message
  | payload fault => "invalid stored payload: " ++ fault.message
  | seqNo stored => "invalid stored seq_no " ++ Text.showInt stored

end RowFault

namespace StorageFault

def message : StorageFault → String
  | notNull table column => "NOT NULL constraint failed: " ++ table ++ "." ++ column
  | unique table columns =>
    "UNIQUE constraint failed: " ++
      String.intercalate ", " (columns.map fun column => table ++ "." ++ column)
  | eventType => "CHECK constraint failed: event_type IN ('CREATE', 'UPDATE')"
  | appendOnly log => log.table ++ " is append-only"
  | locked => "database is locked"
  | readOnly => "attempt to write a readonly database"

end StorageFault

namespace Absence

def message : Absence → String
  | entity key =>
    "entity '" ++ key.entity ++ "' in tenant '" ++ key.tenant ++ "'"
  | version holder date => "no version of entity '" ++ holder ++ "' in effect on " ++ date.text

end Absence

namespace LedgerError

def message : LedgerError → String
  | invalid reason => "invalid argument: " ++ reason.message
  | payload fault => fault.message
  | reusedKey key => "idempotency key '" ++ key ++ "' was reused with different content"
  | dateConflict entity date =>
    "entity '" ++ entity ++ "' already has a different event on " ++ date.text
  | eventNotFound entity date => "entity '" ++ entity ++ "' has no event on " ++ date.text
  | createRescinded entity date =>
    "the CREATE event of entity '" ++ entity ++ "' on " ++ date.text ++ " cannot be rescinded"
  | alreadyRescinded entity date =>
    "the event of entity '" ++ entity ++ "' on " ++ date.text ++ " is already rescinded"
  | alreadyCorrected entity date =>
    "the event of entity '" ++ entity ++ "' on " ++ date.text ++ " is already corrected"
  | invalidSequence entity fault =>
    "invalid event sequence for entity '" ++ entity ++ "': " ++ fault.message
  | tenantMissing => "no tenant context set for this operation"
  | tenantMismatch context requested =>
    "tenant context '" ++ context ++ "' does not match requested tenant '" ++ requested ++ "'"
  | notFound absence => "not found: " ++ absence.message
  | storage fault => "sqlite error: " ++ fault.message
  | row fault => "schema error: " ++ fault.message

/-- Whether the same call may succeed later without any change to it. -/
def isRetryable : LedgerError → Bool
  | storage .locked => true
  | _ => false

end LedgerError

end DatedLedger
