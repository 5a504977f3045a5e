import DatedLedger.Error
import DatedLedger.Timeline.Digest

/-!
# Stored rows

What stands in the five tables: texts, signed words of 64 bits, and in two columns
perhaps nothing.  Dates are stored as their text, payloads as their canonical text,
kinds and types as their names, and unsigned words as the signed word of the same
bits.  Each kind of row is written from a value of the ledger, and reading it back
can fail only when the row was written by someone else.
-/

namespace DatedLedger

/-- The signed word with the bits of an unsigned one. -/
def signedWord (n : Nat) : Int :=
  let w : Nat := n % 2 ^ 64
  if w < 2 ^ 63 then w else (w : Int) - 2 ^ 64

/-- The unsigned word with the bits of a signed one. -/
def unsignedWord (i : Int) : Nat :=
  (i % 2 ^ 64).toNat

theorem signedWord_of_lt {n : Nat} (h : n < 2 ^ 63) : signedWord n = n := by
  have hn : n % 2 ^ 64 = n := Nat.mod_eq_of_lt (by omega)
  simp only [signedWord, hn]
  exact if_pos h

/-- A word is stored without loss. -/
theorem unsignedWord_signedWord {n : Nat} (h : n < 2 ^ 64) : unsignedWord (signedWord n) = n := by
  simp only [unsignedWord, signedWord, Nat.mod_eq_of_lt h]
  split <;> omega

/-- A row of a log. -/
structure LogRow where
  pos : Int
  id : String
  key : EntityKey
  date : String
  payload : String
  submission : String
  initiator : String
  recordedMs : Int
  deriving DecidableEq

/-- A row of the log of events. -/
structure EventRow extends LogRow where
  kind : String
  type : String
  deriving DecidableEq

/-- A row of the registry of entities, with a summary of the entity's timeline. -/
structure HeadRow where
  key : EntityKey
  kind : String
  owningKey : Option String
  versionCount : Int
  digest : String
  lastPos : Int
  deriving DecidableEq

/-- A row of the stored timelines. -/
structure VersionRow where
  key : EntityKey
  seqNo : Int
  attributes : String
  validFrom : String
  validTo : Option String
  deriving DecidableEq

/-- What the registry says about an entity. -/
structure Head where
  kind : EntityKind
  owningKey : Option String
  versionCount : Nat
  digest : String
  lastPos : Position
  deriving DecidableEq

/-- The stored form of an entry. -/
def Entry.row (e : Entry) : LogRow :=
  { pos := signedWord e.pos, id := e.id, key := e.key, date := e.date.text,
    payload := e.payload.text, submission := e.submission, initiator := e.initiator,
    recordedMs := signedWord e.recordedMs }

/-- The stored form of an event. -/
def Event.row (e : Event) : EventRow :=
  { e.toEntry.row with kind := e.kind.name, type := e.type.name }

/-- The stored form of a version. -/
def Version.row (v : Version) : VersionRow :=
  { key := v.key, seqNo := v.seqNo, attributes := v.attributes.text,
    validFrom := v.validFrom.text, validTo := v.validTo.map Date.text }

def readDate (text : String) : Except RowFault Date :=
  match Date.parse text with
  | .ok date => .ok date
  | .error fault => .error (.date text fault)

def readPayload (text : String) : Except RowFault Payload :=
  match Payload.parse text with
  | .ok payload => .ok payload
  | .error fault => .error (.payload fault)

def readKind (text : String) : Except RowFault EntityKind :=
  match EntityKind.ofName? text with
  | some kind => .ok kind
  | none => .error (.unknownKind text)

def readType (text : String) : Except RowFault EventType :=
  match EventType.ofName? text with
  | some type => .ok type
  | none => .error (.unknownType text)

/-- The entry of a row: the date is read first, then the payload. -/
def LogRow.entry (row : LogRow) : Except RowFault Entry := do
  let date ← readDate row.date
  let payload ← readPayload row.payload
  .ok { pos := unsignedWord row.pos, id := row.id, key := row.key, date := date,
        payload := payload, submission := row.submission, initiator := row.initiator,
        recordedMs := unsignedWord row.recordedMs }

/-- The event of a row: kind and type are read before the rest. -/
def EventRow.event (row : EventRow) : Except RowFault Event := do
  let kind ← readKind row.kind
  let type ← readType row.type
  let entry ← row.toLogRow.entry
  .ok { entry with kind := kind, type := type }

/-- The version of a row: number, attributes, first day and end are read in this order. -/
def VersionRow.version (row : VersionRow) : Except RowFault Version := do
  let seqNo ← if 0 ≤ row.seqNo ∧ row.seqNo < 2 ^ 32 then .ok row.seqNo.toNat
    else .error (.seqNo row.seqNo)
  let attributes ← readPayload row.attributes
  let validFrom ← readDate row.validFrom
  let validTo ← match row.validTo with
    | none => .ok none
    | some text => (readDate text).map some
  .ok { key := row.key, seqNo := seqNo, attributes := attributes, validFrom := validFrom,
        validTo := validTo }

/-- What a row of the registry says; the count keeps its low 32 bits. -/
def HeadRow.head (row : HeadRow) : Except RowFault Head := do
  let kind ← readKind row.kind
  .ok { kind := kind, owningKey := row.owningKey, versionCount := (row.versionCount % 2 ^ 32).toNat,
        digest := row.digest, lastPos := unsignedWord row.lastPos }

end DatedLedger
