import DatedLedger.Store.Tables

/-!
# Edits from outside

Statements that the ledger itself never runs: single columns set to any text, rows
added and removed.  The constraints of the tables hold for them too, and the rows
of the three logs can be added but neither changed nor removed.
-/

namespace DatedLedger

/-- A statement on rows of one entity. -/
inductive Edit where
  | setAttributes (seqNo : Int) (text : Option String)
  | setValidFrom (seqNo : Int) (text : Option String)
  | setValidTo (seqNo : Int) (text : Option String)
  | setSeqNo (seqNo value : Int)
  | deleteVersion (seqNo : Int)
  | insertVersion (seqNo : Int) (attributes validFrom : String) (validTo : Option String)
  | setDigest (text : Option String)
  | setKind (text : Option String)
  | setOwningKey (text : Option String)
  | deleteHead
  | insertEvent (row : EventRow)
  | insertCorrection (row : LogRow)
  | insertRescind (row : LogRow)
  /-- Changes every row of the entity's tenant in a log. -/
  | updateLog (log : Log)
  /-- Removes every row of the entity's tenant from a log. -/
  | deleteLog (log : Log)

namespace Session

/-- Changes the selected rows of a table, unless one of them would break a constraint. -/
def updateRows {ρ : Type} (rows : List ρ) (selected : ρ → Bool) (f : ρ → Except StorageFault ρ) :
    Session (List ρ × Nat) := do
  let updated ← rows.mapM fun row =>
    if selected row then
      match f row with
      | .ok row => pure row
      | .error fault => throw (.storage fault)
    else pure row
  return (updated, (rows.filter selected).length)

/-- Changes the version of a number of an entity; returns the number of rows changed. -/
def updateVersion (key : EntityKey) (seqNo : Int)
    (f : VersionRow → Except StorageFault VersionRow) : Session Nat := do
  let s ← get
  let (versions, count) ← updateRows s.versions (fun row => row.key == key && row.seqNo == seqNo) f
  set { s with versions := versions }
  return count

/-- Changes the head of an entity; returns the number of rows changed. -/
def editHead (key : EntityKey) (f : HeadRow → Except StorageFault HeadRow) : Session Nat := do
  let s ← get
  let (heads, count) ← updateRows s.heads (fun row => row.key == key) f
  set { s with heads := heads }
  return count

/-- A text for a column that may not be empty of one. -/
def required (table column : String) (text : Option String) : Except StorageFault String :=
  match text with
  | some text => .ok text
  | none => .error (.notNull table column)

/-- A changed row of the registry, unless another row holds its owning key. -/
def keepOwningKey (heads : List HeadRow) (row : HeadRow) : Except StorageFault HeadRow :=
  if heads.any fun other => other.key != row.key && row.sharesOwningKey other then
    .error HeadRow.owningKeyFault
  else .ok row

/-- A version under another number, unless another row has it. -/
def renumber (versions : List VersionRow) (row : VersionRow) (value : Int) :
    Except StorageFault VersionRow :=
  let renumbered := { row with seqNo := value }
  if row.seqNo ≠ value ∧ versions.any renumbered.sharesNumber then .error VersionRow.numberFault
  else .ok renumbered

/-- Refuses to touch the rows of a tenant in a log. -/
def touchLog (log : Log) (tenant : String) : Session Nat := do
  if ((← get).rows log).any fun row => row.key.tenant == tenant then
    throw (.storage (.appendOnly log))
  else return 0

/-- Runs an edit on the rows of an entity; returns the number of rows it touched. -/
def edit (key : EntityKey) : Edit → Session Nat
  | .setAttributes seqNo text =>
    updateVersion key seqNo fun row => do
      .ok { row with attributes := ← required "versions" "attributes" text }
  | .setValidFrom seqNo text =>
    updateVersion key seqNo fun row => do
      .ok { row with validFrom := ← required "versions" "valid_from" text }
  | .setValidTo seqNo text =>
    updateVersion key seqNo fun row => .ok { row with validTo := text }
  | .setSeqNo seqNo value => do
    let versions := (← get).versions
    updateVersion key seqNo fun row => renumber versions row value
  | .deleteVersion seqNo => do
    let s ← get
    let selected (row : VersionRow) : Bool := row.key == key && row.seqNo == seqNo
    set { s with versions := s.versions.filter fun row => !selected row }
    return (s.versions.filter selected).length
  | .insertVersion seqNo attributes validFrom validTo => do
    insertVersion { key, seqNo, attributes, validFrom, validTo }
    return 1
  | .setDigest text =>
    editHead key fun row => do
      .ok { row with digest := ← required "entity_heads" "timeline_digest" text }
  | .setKind text => do
    let heads := (← get).heads
    editHead key fun row => do
      let kind ← required "entity_heads" "entity_kind" text
      keepOwningKey heads { row with kind := kind }
  | .setOwningKey text => do
    let heads := (← get).heads
    editHead key fun row => keepOwningKey heads { row with owningKey := text }
  | .deleteHead => do
    let s ← get
    set { s with heads := s.heads.filter fun row => row.key != key }
    return (s.heads.filter fun row => row.key == key).length
  | .insertEvent row => do
    insertEvent row
    return 1
  | .insertCorrection row => do
    insertCorrection row
    return 1
  | .insertRescind row => do
    insertRescind row
    return 1
  | .updateLog log => touchLog log key.tenant
  | .deleteLog log => touchLog log key.tenant

end Session

end DatedLedger
