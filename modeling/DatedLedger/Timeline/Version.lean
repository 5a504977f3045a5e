import DatedLedger.Record

/-!
# Versions

A version is the state of an entity over an interval of dates: from its first day
up to, and not including, the first day of the next.  The last version is open.
A timeline is the list of an entity's versions in order.
-/

namespace DatedLedger

/-- The attributes of an entity over an interval of dates. -/
structure Version where
  key : EntityKey
  seqNo : Nat
  attributes : Payload
  validFrom : Date
  /-- The first day that the version no longer covers; none for the open version. -/
  validTo : Option Date

namespace Version

/-- Whether a version covers a date. -/
def contains (v : Version) (date : Date) : Bool :=
  decide (v.validFrom ≤ date) &&
    match v.validTo with
    | some last => decide (date < last)
    | none => true

theorem contains_iff {v : Version} {date : Date} :
    v.contains date ↔ v.validFrom ≤ date ∧ ∀ last ∈ v.validTo, date < last := by
  cases h : v.validTo <;> simp [contains, h]

/-- Whether a version has no end. -/
def isOpen (v : Version) : Bool :=
  v.validTo.isNone

end Version

/-- The versions of one entity, in order. -/
abbrev Timeline := List Version

namespace Timeline

/-- The version in effect on a date: the first that covers it. -/
def asOf? (timeline : Timeline) (date : Date) : Option Version :=
  timeline.find? fun v => v.contains date

end Timeline

end DatedLedger
