import DatedLedger.Store.Read

/-!
# Writing the store

A command is checked against what is on record, becomes a row of its log, and the
timeline of its entity is derived anew from the logs.  A command that is on record
already is answered with its entry and changes nothing.  A fault in the derived
history is found after the row has been added, so these sessions are meant to be
run as transactions.
-/

namespace DatedLedger

/-- What became of a command that was accepted. -/
inductive Outcome (α : Type) where
  /-- The same entry was on record already. -/
  | existing (entry : α)
  /-- A new entry was added. -/
  | appended (entry : α)

namespace Outcome

/-- The entry, whether new or not. -/
def entry {α : Type} : Outcome α → α
  | existing e => e
  | appended e => e

end Outcome

namespace Session

/-- Refuses a command with a blank identifier. -/
def requireFields (blank? : Option String) : Session Unit :=
  match blank? with
  | none => pure ()
  | some field => throw (.invalid (.required field))

/-- Puts the summary of a timeline into the registry; without a position the old one stays. -/
def summarise (key : EntityKey) (timeline : Timeline) (last : Option Position) : Session Unit :=
  updateHead key fun row =>
    { row with
      versionCount := timeline.length
      digest := timeline.digest
      lastPos := match last with
        | some pos => signedWord pos
        | none => row.lastPos }

/-- Derives the timeline of an entity from its logs and stores it in place of the old one. -/
def rematerialize (key : EntityKey) : Session Timeline := do
  let (timeline, last) ← read fun s => s.replayEntity key
  deleteVersions key
  timeline.forM fun v => insertVersion v.row
  summarise key timeline last
  return timeline

/-- Checks a submission against the registered identity of its entity. -/
def agree (c : Submission) (head : Head) : Session Unit := do
  if head.kind ≠ c.kind then
    throw (.invalid (.otherKind c.key.entity head.kind c.kind))
  match c.owningKey with
  | none => pure ()
  | some key =>
    if head.owningKey ≠ some key then
      throw (.invalid (.otherOwningKey key c.key.entity))

/-- Registers the entity of a submission, unless its owning key is taken. -/
def register (c : Submission) (pos : Position) : Session Unit := do
  match c.owningKey with
  | none => pure ()
  | some key =>
    match (← get).entityByOwningKey c.key.tenant c.kind key with
    | none => pure ()
    | some holder => throw (.invalid (.owningKeyTaken key c.kind holder))
  insertHead
    { key := c.key, kind := c.kind.name, owningKey := c.owningKey, versionCount := 0, digest := "",
      lastPos := signedWord pos }

/-- Checks the identity of a registered entity, and registers an unknown one on its first event. -/
def resolveIdentity (c : Submission) (pos : Position) : Session Unit := do
  match ← read fun s => s.head c.key with
  | some head => agree c head
  | none =>
    match c.type with
    | .create => register c pos
    | .update => pure ()

/-- Settles a submission on a date that carries an event already. -/
def settleDate (c : Submission) (stored : Event) : Session (Outcome Event) := do
  let rescind? ← read fun s => s.rescindOn c.key c.date
  if rescind?.isNone && stored.type == c.type && stored.payload.same c.payload then
    return .existing stored
  else
    throw (.dateConflict c.key.entity c.date)

/-- Adds an event to its log. -/
def appendEvent (e : Event) : Session (Outcome Event) := do
  insertEvent e.row
  let _ ← rematerialize e.key
  return .appended e

/-- Submits an event. -/
def submit (c : Submission) (recordedMs : Nat) : Session (Outcome Event) := do
  requireFields c.blankField?
  match ← read fun s => s.eventById c.id with
  | some stored =>
    if c.isEvent stored then return .existing stored else throw (.reusedKey c.id)
  | none =>
    if (← read fun s => s.eventBySubmission c.key.tenant c.submission).isSome then
      throw (.reusedKey c.submission)
    else do
      let pos := (← get).nextPosition
      resolveIdentity c pos
      match ← read fun s => s.eventOn c.key c.date with
      | some stored => settleDate c stored
      | none => appendEvent (c.event pos recordedMs)

/-- Adds a correction to its log. -/
def appendCorrection (e : Entry) : Session (Outcome Entry) := do
  insertCorrection e.row
  let _ ← rematerialize e.key
  return .appended e

/-- Puts another payload in place of that of an event. -/
def correct (c : Command) (recordedMs : Nat) : Session (Outcome Entry) := do
  requireFields (c.blankField? .corrections)
  if (← read fun s => s.eventOn c.key c.date).isNone then
    throw (.eventNotFound c.key.entity c.date)
  else if (← read fun s => s.rescindOn c.key c.date).isSome then
    throw (.alreadyRescinded c.key.entity c.date)
  else
    match ← read fun s => s.correctionById c.id with
    | some stored =>
      if c.isEntry stored then return .existing stored else throw (.reusedKey c.id)
    | none =>
      if (← read fun s => s.correctionBySubmission c.key.tenant c.submission).isSome then
        throw (.reusedKey c.submission)
      else
        match ← read fun s => s.correctionOn c.key c.date with
        | some stored =>
          if stored.payload.same c.payload then return .existing stored
          else throw (.alreadyCorrected c.key.entity c.date)
        | none => appendCorrection (c.entry (← get).nextPosition recordedMs)

/-- Adds a rescind to its log. -/
def appendRescind (e : Entry) : Session (Outcome Entry) := do
  insertRescind e.row
  let _ ← rematerialize e.key
  return .appended e

/-- Excludes an event that does not create its entity. -/
def rescind (c : Command) (recordedMs : Nat) : Session (Outcome Entry) := do
  requireFields (c.blankField? .rescinds)
  match ← read fun s => s.eventOn c.key c.date with
  | none => throw (.eventNotFound c.key.entity c.date)
  | some target =>
    if target.type = .create then throw (.createRescinded c.key.entity c.date)
    else
      match ← read fun s => s.rescindById c.id with
      | some stored =>
        if c.isEntry stored then return .existing stored else throw (.reusedKey c.id)
      | none =>
        if (← read fun s => s.rescindBySubmission c.key.tenant c.submission).isSome then
          throw (.reusedKey c.submission)
        else
          match ← read fun s => s.rescindOn c.key c.date with
          | some stored =>
            if stored.payload.same c.payload then return .existing stored
            else throw (.alreadyRescinded c.key.entity c.date)
          | none => appendRescind (c.entry (← get).nextPosition recordedMs)

end Session

end DatedLedger
