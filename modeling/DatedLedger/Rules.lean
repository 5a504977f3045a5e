import DatedLedger.Binary64.Text
import DatedLedger.Entity
import DatedLedger.Payload
import DatedLedger.Text.Blank

/-!
# Rules of an entity kind

Each kind requires some attributes and constrains others when they are present.
The rules are checked on the state of an entity, that is on all its attributes
after an event.  A number may also be given as text, with blanks around it.
-/

namespace DatedLedger

/-- A constraint on the value of one attribute. -/
inductive FieldRule where
  /-- One of the given texts. -/
  | oneOf (allowed : List String)
  /-- A number above zero and at most the given one. -/
  | positiveUpTo (greatest : Nat)
  /-- An integer of 64 bits that is not below the given one. -/
  | integerAtLeast (least : Int)
  /-- True or false. -/
  | boolean
  /-- Two upper-case letters of ASCII. -/
  | countryCode
  deriving DecidableEq

/-- The rules of a kind, in the order in which they are checked. -/
structure KindRules where
  /-- Attributes that every state carries, neither null nor blank. -/
  required : List String
  /-- Constraints on attributes that are present. -/
  fields : List (String × FieldRule)

/-- The rules of each kind. -/
def EntityKind.rules : EntityKind → KindRules
  | assignment =>
    { required := ["position_id"]
      fields := [("status", .oneOf ["active", "inactive", "leave"]), ("fte", .positiveUpTo 1)] }
  | orgUnit =>
    { required := ["name"]
      fields := [("status", .oneOf ["active", "disabled"]), ("is_business_unit", .boolean)] }
  | payrollRun =>
    { required := ["pay_period_id"]
      fields := [("state", .oneOf ["draft", "calculating", "calculated", "finalized"]),
        ("run_number", .integerAtLeast 1)] }
  | holidayCalendar =>
    { required := ["country_code"]
      fields := [("day_class", .oneOf ["workday", "legal_holiday", "rest_day"]),
        ("country_code", .countryCode)] }
  | timeProfile =>
    { required := ["name"]
      fields := [("status", .oneOf ["active", "disabled"]), ("shift_hours", .positiveUpTo 24)] }

/-- The double that a value stands for, if it is a number or the text of one. -/
def numberOf? : Json.Value → Option Binary64
  | .num (.int i _) => Binary64.ofRatio? (i < 0) i.natAbs 1
  | .num (.real x) => some x
  | .str s => Binary64.read? (Text.trim s.toList)
  | _ => none

/-- The signed integer of 64 bits that a value stands for, if it is one or the text of one. -/
def integerOf? (v : Json.Value) : Option Int :=
  let i? := match v with
    | .num (.int i _) => some i
    | .str s => Text.readInt? (Text.trim s.toList)
    | _ => none
  i?.filter fun i => -2 ^ 63 ≤ i ∧ i < 2 ^ 63

namespace FieldRule

/-- Whether a value satisfies a constraint. -/
def accepts : FieldRule → Json.Value → Bool
  | oneOf allowed, .str s => allowed.contains s
  | oneOf _, _ => false
  | positiveUpTo greatest, v =>
    match Binary64.ofNat? greatest, numberOf? v with
    | some bound, some x => x.isPositiveUpTo bound
    | _, _ => false
  | integerAtLeast least, v =>
    match integerOf? v with
    | some i => least ≤ i
    | none => false
  | boolean, .bool _ => true
  | boolean, _ => false
  | countryCode, .str s =>
    let cs := s.toList
    cs.length == 2 && cs.all Char.isUpper
  | countryCode, _ => false

/-- What a constraint asks for. -/
def description : FieldRule → String
  | oneOf allowed => "one of " ++ String.intercalate ", " allowed
  | positiveUpTo greatest => "a number in (0, " ++ Text.showNat greatest ++ "]"
  | integerAtLeast least => "an integer >= " ++ Text.showInt least
  | boolean => "a boolean"
  | countryCode => "two uppercase letters"

end FieldRule

/-- How a state breaks the rules of its kind. -/
inductive Violation where
  /-- A required attribute is absent or null. -/
  | missing (kind : EntityKind) (name : String)
  /-- A required attribute is a blank text. -/
  | blank (kind : EntityKind) (name : String)
  /-- An attribute does not satisfy its constraint. -/
  | invalid (kind : EntityKind) (name : String) (value : Json.Value) (rule : FieldRule)

namespace Violation

/-- What is said about a broken rule. -/
def message : Violation → String
  | missing kind name => kind.name ++ " requires attribute '" ++ name ++ "'"
  | blank kind name => kind.name ++ " attribute '" ++ name ++ "' must not be empty"
  | invalid kind name value rule =>
    kind.name ++ " attribute '" ++ name ++ "' has invalid value " ++ Json.canonical value ++
      " (expected " ++ rule.description ++ ")"

end Violation

namespace EntityKind

/-- How a state fails to carry a required attribute. -/
def requiredViolation? (kind : EntityKind) (state : Payload) (name : String) :
    Option Violation :=
  match state.get? name with
  | none | some .null => some (.missing kind name)
  | some (.str s) => if Text.allBlank s then some (.blank kind name) else none
  | some _ => none

/-- How a state breaks a constraint on an attribute that it carries. -/
def fieldViolation? (kind : EntityKind) (state : Payload) (field : String × FieldRule) :
    Option Violation :=
  match state.get? field.1 with
  | none => none
  | some v => if field.2.accepts v then none else some (.invalid kind field.1 v field.2)

/-- The first rule that a state breaks: required attributes first, then constraints. -/
def violation? (kind : EntityKind) (state : Payload) : Option Violation :=
  kind.rules.required.findSome? (kind.requiredViolation? state) <|>
    kind.rules.fields.findSome? (kind.fieldViolation? state)

end EntityKind

end DatedLedger
