import DatedLedger.Calendar.Text
import DatedLedger.Rules

/-!
# Commands and entries

A command asks for something on one date of one entity: an event is submitted,
corrected or rescinded.  An accepted command becomes an entry of one of three
logs.  Entries of the three logs have the same fields; an event also has the kind
of its entity and its own type.
-/

namespace DatedLedger

/-- The three append-only logs. -/
inductive Log where
  | events
  | corrections
  | rescinds
  deriving DecidableEq

namespace Log

/-- The name of the table that holds a log. -/
def table : Log → String
  | events => "events"
  | corrections => "corrections"
  | rescinds => "rescinds"

/-- The name of a log's identifiers. -/
def idColumn : Log → String
  | events => "event_id"
  | corrections => "correction_id"
  | rescinds => "rescind_id"

/-- The name of the date that a log's entries are about. -/
def dateColumn : Log → String
  | events => "effective_date"
  | corrections => "target_date"
  | rescinds => "target_date"

/-- The name of the payload that a log's entries carry. -/
def payloadColumn : Log → String
  | events => "payload"
  | corrections => "replacement_payload"
  | rescinds => "payload"

end Log

/-- What every command asks with: an identifier, an entity, a date and a payload. -/
structure Command where
  /-- The caller's key, under which a repeated command is recognised. -/
  id : String
  key : EntityKey
  date : Date
  payload : Payload
  /-- The caller's request, unique within a tenant and log. -/
  submission : String
  /-- Who asks. -/
  initiator : String

/-- A command that submits an event. -/
structure Submission extends Command where
  kind : EntityKind
  type : EventType
  /-- A natural key that identifies the entity among those of its tenant and kind. -/
  owningKey : Option String

/-- An entry of a log. -/
structure Entry where
  pos : Position
  id : String
  key : EntityKey
  date : Date
  payload : Payload
  submission : String
  initiator : String
  recordedMs : Nat

/-- An entry of the log of events. -/
structure Event extends Entry where
  kind : EntityKind
  type : EventType

namespace Command

/-- The entry that a command becomes. -/
def entry (c : Command) (pos : Position) (recordedMs : Nat) : Entry :=
  { pos := pos, id := c.id, key := c.key, date := c.date, payload := c.payload,
    submission := c.submission, initiator := c.initiator, recordedMs := recordedMs }

/-- Whether an entry is what the command asks for; payloads are compared by content. -/
def isEntry (c : Command) (e : Entry) : Bool :=
  e.id == c.id && e.key == c.key && e.date == c.date && e.payload.same c.payload &&
    e.submission == c.submission && e.initiator == c.initiator

/-- The first identifier of a command that is blank, by name. -/
def blankField? (log : Log) (c : Command) : Option String :=
  let fields := [(log.idColumn, c.id), ("tenant_id", c.key.tenant), ("entity_id", c.key.entity),
    ("submission_id", c.submission), ("initiator_id", c.initiator)]
  (fields.find? fun field => Text.allBlank field.2).map fun field => field.1

end Command

namespace Submission

/-- The event that a submission becomes. -/
def event (c : Submission) (pos : Position) (recordedMs : Nat) : Event :=
  { c.toCommand.entry pos recordedMs with kind := c.kind, type := c.type }

/-- Whether an event is what the submission asks for. -/
def isEvent (c : Submission) (e : Event) : Bool :=
  c.toCommand.isEntry e.toEntry && e.kind == c.kind && e.type == c.type

/-- The first identifier of a submission that is blank, by name; an owning key may be absent. -/
def blankField? (c : Submission) : Option String :=
  c.toCommand.blankField? .events <|>
    match c.owningKey with
    | some key => if Text.allBlank key then some "owning_key" else none
    | none => none

end Submission

/-- An entry together with the log that it stands in. -/
inductive AuditEntry where
  | event (event : Event)
  | correction (entry : Entry)
  | rescind (entry : Entry)

namespace AuditEntry

/-- The fields that all entries share. -/
def entry : AuditEntry → Entry
  | event e => e.toEntry
  | correction e => e
  | rescind e => e

/-- The log that an entry stands in. -/
def log : AuditEntry → Log
  | event _ => .events
  | correction _ => .corrections
  | rescind _ => .rescinds

end AuditEntry

end DatedLedger
