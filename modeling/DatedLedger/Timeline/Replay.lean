import DatedLedger.Error
import DatedLedger.Order
import DatedLedger.Timeline.Version

/-!
# Replay

The timeline of an entity follows from its three logs.  Events on rescinded dates
drop out, and a correction puts its payload in place of an event's own.  The rest
is taken in the order of date and position: the first event creates the entity,
every later one changes it, and after each event the state has to satisfy the
rules of the kind.  States of one date collapse into the last of them, and each
remaining state lasts until the next begins.
-/

namespace DatedLedger

namespace Replay

/-- Whether some rescind is about the date. -/
def isRescinded (rescinds : List Entry) (date : Date) : Bool :=
  rescinds.any fun r => r.date == date

theorem isRescinded_iff {rescinds : List Entry} {date : Date} :
    isRescinded rescinds date ↔ ∃ r ∈ rescinds, r.date = date := by
  simp [isRescinded]

/-- The payload that counts for an event: that of the last correction of its date, or its own. -/
def effectivePayload (corrections : List Entry) (e : Event) : Payload :=
  match corrections.reverse.find? fun c => c.date == e.date with
  | some c => c.payload
  | none => e.payload

/-- Earlier dates come first, and on one date earlier positions. -/
def before (a b : Event) : Bool :=
  a.date < b.date || (a.date == b.date && a.pos ≤ b.pos)

/-- The events that count, in the order in which they are applied. -/
def survivors (events : List Event) (rescinds : List Entry) : List Event :=
  sortBy before (events.filter fun e => !isRescinded rescinds e.date)

/-- An entity between two events: its kind and its attributes. -/
structure State where
  kind : EntityKind
  attributes : Payload

/-- Applies an event with the payload that counts for it. -/
def apply (key : EntityKey) (current : Option State) (e : Event) (payload : Payload) :
    Except LedgerError State := do
  let fail fault := Except.error (.invalidSequence key.entity fault)
  let attributes ← match current, e.type with
    | none, .create => .ok (Payload.empty.merge payload)
    | none, .update => fail (.updateFirst e.date)
    | some state, type =>
      if state.kind ≠ e.kind then fail (.otherKind e.date e.kind state.kind)
      else match type with
        | .create => fail (.secondCreate e.date)
        | .update => .ok (state.attributes.merge payload)
  match e.kind.violation? attributes with
  | some violation => .error (.invalid (.brokenRule violation (some e.date)))
  | none => .ok ⟨e.kind, attributes⟩

/-- The attributes from a date on. -/
structure Step where
  date : Date
  attributes : Payload

/-- The states after each event, from a given state on. -/
def steps (key : EntityKey) (corrections : List Entry) :
    Option State → List Event → Except LedgerError (List Step)
  | _, [] => .ok []
  | current, e :: rest => do
    let next ← apply key current e (effectivePayload corrections e)
    let later ← steps key corrections (some next) rest
    .ok (⟨e.date, next.attributes⟩ :: later)

/-- Keeps the last of neighbouring steps of one date. -/
def collapse : List Step → List Step
  | [] => []
  | [s] => [s]
  | s :: t :: rest => if s.date = t.date then collapse (t :: rest) else s :: collapse (t :: rest)

/-- The greatest number of a version. -/
def lastSeqNo : Nat := 2 ^ 32 - 1

/-- The versions of steps, numbered from `n` on; each ends where the next begins. -/
def stitch (key : EntityKey) (n : Nat) : List Step → Timeline
  | [] => []
  | s :: rest =>
    { key := key, seqNo := min n lastSeqNo, attributes := s.attributes, validFrom := s.date,
      validTo := rest.head?.map Step.date } :: stitch key (n + 1) rest

end Replay

/-- The timeline that follows from the logs of one entity. -/
def replay (key : EntityKey) (events : List Event) (corrections rescinds : List Entry) :
    Except LedgerError Timeline := do
  let steps ← Replay.steps key corrections none (Replay.survivors events rescinds)
  .ok (Replay.stitch key 1 (Replay.collapse steps))

end DatedLedger
