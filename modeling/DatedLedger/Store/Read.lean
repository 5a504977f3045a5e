import DatedLedger.Order
import DatedLedger.Store.Tables
import DatedLedger.Timeline.Replay

/-!
# Reading the store

Look-ups and listings.  Rows are selected and put in order as they are stored, that
is dates as text and words as signed, and then read one after another; the first
row that cannot be read is the error.
-/

namespace DatedLedger

/-- The result of reading a row, as a result of the ledger. -/
def rowResult {α : Type} (r : Except RowFault α) : Except LedgerError α :=
  r.mapError .row

namespace Store

/-- The first event whose row satisfies a condition. -/
def event? (s : Store) (p : EventRow → Bool) : Except LedgerError (Option Event) :=
  (s.events.find? p).mapM fun row => rowResult row.event

/-- The first entry among some rows whose row satisfies a condition. -/
def entry? (rows : List LogRow) (p : LogRow → Bool) : Except LedgerError (Option Entry) :=
  (rows.find? p).mapM fun row => rowResult row.entry

/-- Selects the row with an identifier. -/
def hasId (id : String) (row : LogRow) : Bool :=
  row.id == id

/-- Selects the row of a submission of a tenant. -/
def hasSubmission (tenant submission : String) (row : LogRow) : Bool :=
  row.key.tenant == tenant && row.submission == submission

/-- Selects the row of a date of an entity. -/
def isOn (key : EntityKey) (date : Date) (row : LogRow) : Bool :=
  row.key == key && row.date == date.text

/-- The event with an identifier. -/
def eventById (s : Store) (id : String) : Except LedgerError (Option Event) :=
  s.event? fun row => hasId id row.toLogRow

/-- The event of a submission of a tenant. -/
def eventBySubmission (s : Store) (tenant submission : String) :
    Except LedgerError (Option Event) :=
  s.event? fun row => hasSubmission tenant submission row.toLogRow

/-- The event of a date of an entity. -/
def eventOn (s : Store) (key : EntityKey) (date : Date) : Except LedgerError (Option Event) :=
  s.event? fun row => isOn key date row.toLogRow

def correctionById (s : Store) (id : String) : Except LedgerError (Option Entry) :=
  entry? s.corrections (hasId id)

def correctionBySubmission (s : Store) (tenant submission : String) :
    Except LedgerError (Option Entry) :=
  entry? s.corrections (hasSubmission tenant submission)

def correctionOn (s : Store) (key : EntityKey) (date : Date) :
    Except LedgerError (Option Entry) :=
  entry? s.corrections (isOn key date)

def rescindById (s : Store) (id : String) : Except LedgerError (Option Entry) :=
  entry? s.rescinds (hasId id)

def rescindBySubmission (s : Store) (tenant submission : String) :
    Except LedgerError (Option Entry) :=
  entry? s.rescinds (hasSubmission tenant submission)

def rescindOn (s : Store) (key : EntityKey) (date : Date) : Except LedgerError (Option Entry) :=
  entry? s.rescinds (isOn key date)

/-- Reads rows one after another. -/
def readAll {ρ α : Type} (read : ρ → Except RowFault α) (rows : List ρ) :
    Except LedgerError (List α) :=
  rows.mapM fun row => rowResult (read row)

/-- Earlier date texts come first, and on one date earlier positions. -/
def byDate (a b : EventRow) : Bool :=
  a.date < b.date || (a.date == b.date && a.pos ≤ b.pos)

/-- Earlier positions come first. -/
def byPosition (a b : LogRow) : Bool :=
  a.pos ≤ b.pos

/-- The events of an entity, by date and position. -/
def eventsOf (s : Store) (key : EntityKey) : Except LedgerError (List Event) :=
  readAll EventRow.event (sortBy byDate (s.events.filter fun row => row.key == key))

/-- The entries of an entity among some rows, by position. -/
def entriesOf (rows : List LogRow) (key : EntityKey) : Except LedgerError (List Entry) :=
  readAll LogRow.entry (sortBy byPosition (rows.filter fun row => row.key == key))

def correctionsOf (s : Store) (key : EntityKey) : Except LedgerError (List Entry) :=
  entriesOf s.corrections key

def rescindsOf (s : Store) (key : EntityKey) : Except LedgerError (List Entry) :=
  entriesOf s.rescinds key

/-- The stored timeline of an entity, by number. -/
def timelineOf (s : Store) (key : EntityKey) : Except LedgerError Timeline :=
  readAll VersionRow.version
    (sortBy (fun a b => a.seqNo ≤ b.seqNo) (s.versions.filter fun row => row.key == key))

/-- Whether a stored version is of an entity and covers a date, by its texts. -/
def covers (key : EntityKey) (date : String) (row : VersionRow) : Bool :=
  row.key == key && !(date < row.validFrom) &&
    match row.validTo with
    | none => true
    | some last => date < last

/-- Of two rows the one that starts later; the second of two that start together. -/
def laterStart (best : Option VersionRow) (row : VersionRow) : Option VersionRow :=
  match best with
  | none => some row
  | some b => if row.validFrom < b.validFrom then some b else some row

/-- The stored version of an entity that is in effect on a date. -/
def versionAsOf (s : Store) (key : EntityKey) (date : Date) :
    Except LedgerError (Option Version) :=
  ((s.versions.filter (covers key date.text)).foldl laterStart none).mapM fun row =>
    rowResult row.version

/-- What the registry says about an entity. -/
def head (s : Store) (key : EntityKey) : Except LedgerError (Option Head) :=
  (s.heads.find? fun row => row.key == key).mapM fun row => rowResult row.head

/-- The entity that holds an owning key among those of its tenant and kind. -/
def entityByOwningKey (s : Store) (tenant : String) (kind : EntityKind) (owningKey : String) :
    Option String :=
  (s.heads.find? fun row =>
    row.key.tenant == tenant && row.kind == kind.name && row.owningKey == some owningKey).map
      fun row => row.key.entity

/-- The greatest position in a log, as it is stored; a log without rows counts as at zero. -/
def lastPosition (s : Store) (log : Log) : Int :=
  ((s.rows log).map LogRow.pos).max?.getD 0

/-- No row of a log is after its last position. -/
theorem pos_le_lastPosition {s : Store} {log : Log} {row : LogRow} (h : row ∈ s.rows log) :
    row.pos ≤ s.lastPosition log := by
  have hpos : row.pos ∈ (s.rows log).map LogRow.pos := List.mem_map_of_mem h
  rw [lastPosition]
  cases hmax : ((s.rows log).map LogRow.pos).max? with
  | none =>
    rw [List.max?_eq_none_iff] at hmax
    simp [hmax] at hpos
  | some m => exact (List.max?_eq_some_iff.mp hmax).2 row.pos hpos

/-- The position after the greatest of the last positions of the three logs. -/
def nextPosition (s : Store) : Position :=
  Position.next (unsignedWord
    (max (s.lastPosition .events) (max (s.lastPosition .corrections) (s.lastPosition .rescinds))))

/-- The timeline that follows from an entity's logs, and the greatest position in them. -/
def replayEntity (s : Store) (key : EntityKey) :
    Except LedgerError (Timeline × Option Position) := do
  let events ← s.eventsOf key
  let corrections ← s.correctionsOf key
  let rescinds ← s.rescindsOf key
  let timeline ← replay key events corrections rescinds
  let positions := events.map (fun e => e.pos) ++ (corrections ++ rescinds).map fun e => e.pos
  .ok (timeline, positions.max?)

/-- Later stored times come first, and of one time later positions. -/
def newestRow (a b : LogRow) : Bool :=
  b.recordedMs < a.recordedMs || (a.recordedMs == b.recordedMs && b.pos ≤ a.pos)

/-- Later times come first, and of one time later positions. -/
def newestEntry (a b : AuditEntry) : Bool :=
  b.entry.recordedMs < a.entry.recordedMs ||
    (a.entry.recordedMs == b.entry.recordedMs && b.entry.pos ≤ a.entry.pos)

/-- The newest rows of an entity in a log, at most `limit` of them. -/
def newest {ρ : Type} (toRow : ρ → LogRow) (rows : List ρ) (key : EntityKey) (limit : Nat) :
    List ρ :=
  (sortBy (fun a b => newestRow (toRow a) (toRow b))
    (rows.filter fun row => (toRow row).key == key)).take limit

/-- The newest entries of an entity in all three logs, at most `limit` of them. -/
def audit (s : Store) (key : EntityKey) (limit : Nat) : Except LedgerError (List AuditEntry) := do
  let events ← readAll EventRow.event (newest EventRow.toLogRow s.events key limit)
  let corrections ← readAll LogRow.entry (newest id s.corrections key limit)
  let rescinds ← readAll LogRow.entry (newest id s.rescinds key limit)
  let entries := events.map AuditEntry.event ++
    (corrections.map AuditEntry.correction ++ rescinds.map AuditEntry.rescind)
  .ok ((sortBy newestEntry entries).take limit)

end Store

end DatedLedger
