import DatedLedger.Store.Row

/-!
# The tables

A store is three logs, a registry with one row for each entity, and the stored
timelines.  A session is a run of statements on a store: a statement either does
what it says or fails and changes nothing, and what was done before a failure
stays done unless the whole session is a transaction.
-/

namespace DatedLedger

/-- The five tables, each in the order in which its rows were added. -/
structure Store where
  events : List EventRow
  corrections : List LogRow
  rescinds : List LogRow
  heads : List HeadRow
  versions : List VersionRow
  deriving DecidableEq

namespace Store

/-- The store without rows. -/
def empty : Store := ⟨[], [], [], [], []⟩

/-- The rows of a log, without what only events have. -/
def rows (s : Store) : Log → List LogRow
  | .events => s.events.map EventRow.toLogRow
  | .corrections => s.corrections
  | .rescinds => s.rescinds

end Store

/-- A run of statements; a failure keeps the store that it was reached with. -/
abbrev Session := EStateM LedgerError Store

namespace Session

/-- Reads from the store. -/
def read {α : Type} (f : Store → Except LedgerError α) : Session α := fun s =>
  match f s with
  | .ok a => .ok a s
  | .error e => .error e s

/-- Fails with the given fault, if there is one. -/
def check (fault? : Option StorageFault) : Session Unit :=
  match fault? with
  | none => pure ()
  | some fault => throw (.storage fault)

/-- Runs a session that leaves the store as it was when it fails. -/
def transaction {α : Type} (session : Session α) : Session α := fun s =>
  match session s with
  | .ok a s' => .ok a s'
  | .error e _ => .error e s

theorem transaction_eq_ok_iff {α : Type} {session : Session α} {s s' : Store} {a : α} :
    session.transaction s = .ok a s' ↔ session s = .ok a s' := by
  unfold transaction
  split <;> simp_all

/-- A transaction that fails leaves the store as it was. -/
theorem eq_of_transaction_eq_error {α : Type} {session : Session α} {s s' : Store}
    {e : LedgerError} (h : session.transaction s = .error e s') : s' = s := by
  unfold transaction at h
  split at h
  · cases h
  · cases h
    rfl

end Session

/-- What two rows of one log may not share. -/
inductive LogKey where
  | position
  | submission
  | date
  | id
  deriving DecidableEq

namespace LogKey

/-- The keys in the order in which they are checked. -/
def all : List LogKey :=
  [position, submission, date, id]

/-- Whether two rows agree in a key. -/
def shared : LogKey → LogRow → LogRow → Bool
  | position, a, b => a.pos == b.pos
  | submission, a, b => a.key.tenant == b.key.tenant && a.submission == b.submission
  | date, a, b => a.key == b.key && a.date == b.date
  | id, a, b => a.id == b.id

/-- The columns of a key. -/
def columns (log : Log) : LogKey → List String
  | position => ["global_pos"]
  | submission => ["tenant_id", "submission_id"]
  | date => ["tenant_id", "entity_id", log.dateColumn]
  | id => [log.idColumn]

end LogKey

/-- Why a row cannot be added to a log. -/
def LogRow.fault? (row : LogRow) (log : Log) (rows : List LogRow) : Option StorageFault :=
  (LogKey.all.find? fun key => rows.any (key.shared row)).map fun key =>
    .unique log.table (key.columns log)

/-- Whether two rows of the registry are of one tenant and kind and hold one owning key. -/
def HeadRow.sharesOwningKey (a b : HeadRow) : Bool :=
  a.key.tenant == b.key.tenant && a.kind == b.kind && a.owningKey.isSome &&
    a.owningKey == b.owningKey

/-- The fault of a row of the registry that shares its owning key with another. -/
def HeadRow.owningKeyFault : StorageFault :=
  .unique "entity_heads" ["tenant_id", "entity_kind", "owning_key"]

/-- Why a row cannot be added to the registry. -/
def HeadRow.fault? (row : HeadRow) (rows : List HeadRow) : Option StorageFault :=
  if rows.any row.sharesOwningKey then some owningKeyFault
  else if rows.any fun r => r.key == row.key then
    some (.unique "entity_heads" ["tenant_id", "entity_id"])
  else none

/-- Whether two rows of timelines are of one entity and number. -/
def VersionRow.sharesNumber (a b : VersionRow) : Bool :=
  a.key == b.key && a.seqNo == b.seqNo

/-- The fault of a row of a timeline that shares its number with another. -/
def VersionRow.numberFault : StorageFault :=
  .unique "versions" ["tenant_id", "entity_id", "seq_no"]

/-- Why a row cannot be added to the timelines. -/
def VersionRow.fault? (row : VersionRow) (rows : List VersionRow) : Option StorageFault :=
  if rows.any row.sharesNumber then some numberFault else none

namespace Session

/-- Adds a row to the log of events. -/
def insertEvent (row : EventRow) : Session Unit := do
  let s ← get
  if (EventType.ofName? row.type).isNone then throw (.storage .eventType)
  check (row.toLogRow.fault? .events (s.rows .events))
  set { s with events := s.events ++ [row] }

def insertCorrection (row : LogRow) : Session Unit := do
  let s ← get
  check (row.fault? .corrections s.corrections)
  set { s with corrections := s.corrections ++ [row] }

def insertRescind (row : LogRow) : Session Unit := do
  let s ← get
  check (row.fault? .rescinds s.rescinds)
  set { s with rescinds := s.rescinds ++ [row] }

def insertHead (row : HeadRow) : Session Unit := do
  let s ← get
  check (row.fault? s.heads)
  set { s with heads := s.heads ++ [row] }

def insertVersion (row : VersionRow) : Session Unit := do
  let s ← get
  check (row.fault? s.versions)
  set { s with versions := s.versions ++ [row] }

/-- Removes the timeline of an entity. -/
def deleteVersions (key : EntityKey) : Session Unit :=
  modify fun s => { s with versions := s.versions.filter fun row => row.key != key }

/-- Changes the row of an entity in the registry, if it has one. -/
def updateHead (key : EntityKey) (f : HeadRow → HeadRow) : Session Unit :=
  modify fun s => { s with heads := s.heads.map fun row => if row.key = key then f row else row }

end Session

end DatedLedger
