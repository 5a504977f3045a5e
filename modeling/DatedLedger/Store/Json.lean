import DatedLedger.Json.Canonical
import DatedLedger.Timeline.Version

/-!
# Entries and versions as JSON

The texts in which a page of the audit and a timeline are handed on: their fields
in a fixed order, payloads in canonical form.
-/

namespace DatedLedger

namespace Json

/-- An object whose fields are written in the given order. -/
def fieldsText (fields : List (String × List Char)) : List Char :=
  let texts := fields.map fun field => stringText field.1 ++ ':' :: field.2
  '{' :: (List.intercalate [','] texts ++ ['}'])

/-- A list of texts as the text of an array. -/
def arrayText (items : List (List Char)) : List Char :=
  '[' :: (List.intercalate [','] items ++ [']'])

end Json

namespace Payload

/-- The canonical text, as characters. -/
def chars (p : Payload) : List Char :=
  Json.valueText (.obj p.members)

end Payload

/-- The text of a date as a JSON string. -/
def dateText (date : Date) : List Char :=
  Json.stringText date.text

namespace AuditEntry

/-- The name of an entry's kind of record. -/
def record : AuditEntry → String
  | event _ => "event"
  | correction _ => "correction"
  | rescind _ => "rescind"

/-- The fields that only events have. -/
def eventFields : AuditEntry → List (String × List Char)
  | event e =>
    [("entity_kind", Json.stringText e.kind.name), ("event_type", Json.stringText e.type.name)]
  | _ => []

/-- The text of an entry. -/
def jsonText (a : AuditEntry) : List Char :=
  let e := a.entry
  Json.fieldsText <|
    [("record", Json.stringText a.record), ("global_pos", Text.digits e.pos),
      (a.log.idColumn, Json.stringText e.id), ("tenant_id", Json.stringText e.key.tenant),
      ("entity_id", Json.stringText e.key.entity)] ++ a.eventFields ++
    [(a.log.dateColumn, dateText e.date), (a.log.payloadColumn, e.payload.chars),
      ("submission_id", Json.stringText e.submission),
      ("initiator_id", Json.stringText e.initiator), ("recorded_ms", Text.digits e.recordedMs)]

end AuditEntry

namespace Version

/-- The text of a version. -/
def jsonText (v : Version) : List Char :=
  Json.fieldsText
    [("tenant_id", Json.stringText v.key.tenant), ("entity_id", Json.stringText v.key.entity),
      ("seq_no", Text.digits v.seqNo), ("attributes", v.attributes.chars),
      ("valid_from", dateText v.validFrom),
      ("valid_to", match v.validTo with
        | some date => dateText date
        | none => Json.valueText .null)]

end Version

/-- The text of a page of the audit. -/
def auditJson (entries : List AuditEntry) : String :=
  String.ofList (Json.arrayText (entries.map AuditEntry.jsonText))

/-- The text of a timeline. -/
def timelineJson (timeline : Timeline) : String :=
  String.ofList (Json.arrayText (timeline.map Version.jsonText))

end DatedLedger
