import DatedLedger.Power

/-!
# Entities

An entity belongs to a tenant and is of one kind.  Its history is a list of dated
events, the first of which creates it.
-/

namespace DatedLedger

/-- What an entity is. -/
inductive EntityKind where
  | assignment
  | orgUnit
  | payrollRun
  | holidayCalendar
  | timeProfile
  deriving DecidableEq

namespace EntityKind

def all : List EntityKind :=
  [assignment, orgUnit, payrollRun, holidayCalendar, timeProfile]

/-- The name of a kind, which is also its stored form. -/
def name : EntityKind → String
  | assignment => "assignment"
  | orgUnit => "org_unit"
  | payrollRun => "payroll_run"
  | holidayCalendar => "holiday_calendar"
  | timeProfile => "time_profile"

/-- The kind of a name. -/
def ofName? (s : String) : Option EntityKind :=
  all.find? fun kind => kind.name == s

theorem ofName?_name (kind : EntityKind) : ofName? kind.name = some kind := by
  cases kind <;> decide +kernel

end EntityKind

/-- Whether an event founds an entity or changes it. -/
inductive EventType where
  | create
  | update
  deriving DecidableEq

namespace EventType

def all : List EventType :=
  [create, update]

/-- The name of a type, which is also its stored form. -/
def name : EventType → String
  | create => "CREATE"
  | update => "UPDATE"

/-- The type of a name. -/
def ofName? (s : String) : Option EventType :=
  all.find? fun type => type.name == s

theorem ofName?_name (type : EventType) : ofName? type.name = some type := by
  cases type <;> decide +kernel

end EventType

/-- An entity of a tenant: what locks, logs, heads and versions are kept by. -/
structure EntityKey where
  tenant : String
  entity : String
  deriving DecidableEq

namespace EntityKey

/-- The key as it is shown; different keys can be shown alike. -/
def text (key : EntityKey) : String :=
  key.tenant ++ "/" ++ key.entity

end EntityKey

/-- A place in the append order that the three logs share; a word of 64 bits. -/
abbrev Position := Nat

/-- Why a number is no place in the append order. -/
inductive PositionFault where
  | zero
  deriving DecidableEq

namespace PositionFault

def message : PositionFault → String
  | zero => "GlobalPos cannot be zero"

end PositionFault

namespace Position

/-- The first place. -/
def first : Position := 1

/-- The place of a number, which has to be above zero. -/
def of (n : Nat) : Except PositionFault Position :=
  if n = 0 then .error .zero else .ok n

/-- The place after a given one. -/
def next (p : Position) : Position :=
  (p + 1) % 2 ^ 64

end Position

end DatedLedger
