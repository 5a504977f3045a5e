import DatedLedger.Proofs.Binary64.Naturals
import DatedLedger.Proofs.Timeline.Rules
import Mathlib.Data.List.Nodup

/-!
# Rules on numbers

Three attributes hold numbers: the share of an assignment, the hours of a shift and the
number of a payroll run.  An integer is compared with the bounds of the first two as a
double, and with the least number of a run as a signed word of 64 bits.  The doubles lose
nothing: exactly the integers of the documented range are accepted.  The word does:
integers from 2 ^ 63 on are refused, although they are not below the bound.  What is
accepted as a number is accepted as a text and the other way round.
-/

namespace DatedLedger

namespace Json.Value

/-- A value that stands for an integer where a rule asks for a number: the number itself, or its
decimal text with blanks around it. -/
inductive Writes (i : Int) : Json.Value → Prop where
  | number (hfits : -2 ^ 63 ≤ i ∧ i < 2 ^ 64) : Writes i (.num (.int i hfits))
  | text {front back : List Char} (hfront : ∀ c ∈ front, Text.isBlank c)
      (hback : ∀ c ∈ back, Text.isBlank c) :
      Writes i (.str (String.ofList (front ++ Text.integer i ++ back)))

end Json.Value

variable {i : Int} {v : Json.Value}

/-! ## Numbers and integers of a value -/

theorem numberOf?_of_writes (hfits : -2 ^ 63 ≤ i ∧ i < 2 ^ 64) (hv : v.Writes i) :
    numberOf? v = Binary64.ofRatio? (i < 0) i.natAbs 1 := by
  cases hv with
  | number => rfl
  | text hfront hback =>
    have hreach : i.natAbs < 10 ^ 100 := by omega
    rw [numberOf?, String.toList_ofList, Text.trim_integer hfront hback,
      Binary64.read?_integer hreach]

theorem integerOf?_of_writes (hv : v.Writes i) :
    integerOf? v = if -2 ^ 63 ≤ i ∧ i < 2 ^ 63 then some i else none := by
  cases hv with
  | number => simp only [integerOf?, Option.filter_some, decide_eq_true_eq]
  | text hfront hback =>
    simp only [integerOf?, String.toList_ofList, Text.trim_integer hfront hback,
      Text.readInt?_integer, Option.filter_some, decide_eq_true_eq]

/-! ## Constraints on integers -/

namespace FieldRule

/-- Doubles decide exactly whether an integer is positive and at most a bound that a significand
can hold. -/
theorem accepts_positiveUpTo_iff {greatest : Nat} (hgreatest : greatest < 2 ^ 53)
    (hfits : -2 ^ 63 ≤ i ∧ i < 2 ^ 64) (hv : v.Writes i) :
    (positiveUpTo greatest).accepts v ↔ 0 < i ∧ i ≤ greatest := by
  obtain ⟨bound, hbound⟩ : ∃ bound, Binary64.ofNat? greatest = some bound :=
    ⟨⟨false, _, Binary64.roundRank_lt_infinityRank hgreatest⟩,
      Binary64.ofRatio?_eq_some_iff.mpr ⟨rfl, rfl⟩⟩
  have hexact : (∃ x, Binary64.ofRatio? (i < 0) i.natAbs 1 = some x ∧ x.isPositiveUpTo bound) ↔
      decide (i < 0) = false ∧ i.natAbs ≠ 0 ∧ i.natAbs ≤ greatest :=
    Binary64.exists_isPositiveUpTo_iff hgreatest hbound
  have haccepts : (positiveUpTo greatest).accepts v ↔
      ∃ x, Binary64.ofRatio? (i < 0) i.natAbs 1 = some x ∧ x.isPositiveUpTo bound := by
    simp only [accepts, hbound, numberOf?_of_writes hfits hv]
    cases Binary64.ofRatio? (i < 0) i.natAbs 1 <;> simp
  rw [haccepts, hexact, decide_eq_false_iff_not]
  omega

theorem accepts_integerAtLeast_iff {least : Int} (hleast : -2 ^ 63 ≤ least) (hv : v.Writes i) :
    (integerAtLeast least).accepts v ↔ least ≤ i ∧ i < 2 ^ 63 := by
  simp only [accepts, integerOf?_of_writes hv]
  split
  next j hj =>
    split at hj
    next hword =>
      cases hj
      rw [decide_eq_true_eq]
      exact ⟨fun hle => ⟨hle, hword.2⟩, And.left⟩
    next => cases hj
  next hnone =>
    split at hnone
    next => cases hnone
    next hword =>
      simp only [Bool.false_eq_true, false_iff]
      omega

end FieldRule

/-! ## States in which one constraint is left to check -/

theorem findSome?_eq_of_forall_ne {α β : Type} {f : α → Option β} {xs : List α} {x : α}
    (hx : x ∈ xs) (h : ∀ y ∈ xs, y ≠ x → f y = none) : xs.findSome? f = f x := by
  obtain ⟨front, back, rfl, hfirst⟩ := List.eq_append_cons_of_mem hx
  have hfront : front.findSome? f = none := by
    rw [List.findSome?_eq_none_iff]
    intro y hy
    exact h y (List.mem_append_left _ hy) fun heq => hfirst (heq ▸ hy)
  rw [List.findSome?_append, hfront, Option.none_or, List.findSome?_cons]
  cases hfx : f x with
  | some b => rfl
  | none =>
    rw [List.findSome?_eq_none_iff]
    intro y hy
    by_cases heq : y = x
    · rw [heq, hfx]
    · exact h y (List.mem_append_right _ (List.mem_cons_of_mem x hy)) heq

namespace EntityKind

variable {kind : EntityKind} {state : Payload} {name : String} {rule : FieldRule}

/-- A state satisfies every rule of its kind, the constraint on one attribute left aside. -/
structure SatisfiesOthers (kind : EntityKind) (state : Payload) (name : String) : Prop where
  required : ∀ other ∈ kind.rules.required, kind.requiredViolation? state other = none
  fields : ∀ field ∈ kind.rules.fields, field.1 ≠ name → kind.fieldViolation? state field = none

/-- No kind constrains an attribute twice. -/
theorem nodup_fields (kind : EntityKind) : (kind.rules.fields.map Prod.fst).Nodup := by
  cases kind <;> decide

/-- Where the other rules are satisfied, the constraint on an attribute decides alone. -/
theorem violation?_of_satisfiesOthers (hfield : (name, rule) ∈ kind.rules.fields)
    (hstate : kind.SatisfiesOthers state name) (hvalue : state.get? name = some v) :
    kind.violation? state = if rule.accepts v then none else some (.invalid kind name v rule) := by
  have hrequired : kind.rules.required.findSome? (kind.requiredViolation? state) = none :=
    List.findSome?_eq_none_iff.mpr hstate.required
  have hothers : ∀ field ∈ kind.rules.fields, field ≠ (name, rule) →
      kind.fieldViolation? state field = none := by
    intro field hmem hne
    refine hstate.fields field hmem fun hname => hne ?_
    exact List.inj_on_of_nodup_map kind.nodup_fields hmem hfield hname
  rw [violation?, hrequired, findSome?_eq_of_forall_ne hfield hothers, fieldViolation?, hvalue]
  rfl

end EntityKind

/-! ## Attributes that hold numbers -/

/-- The attributes whose constraint is about a number. -/
inductive NumericAttribute where
  | fte
  | shiftHours
  | runNumber
  deriving DecidableEq

namespace NumericAttribute

/-- The kind whose states carry an attribute. -/
def kind : NumericAttribute → EntityKind
  | fte => .assignment
  | shiftHours => .timeProfile
  | runNumber => .payrollRun

def name : NumericAttribute → String
  | fte => "fte"
  | shiftHours => "shift_hours"
  | runNumber => "run_number"

/-- The constraint on an attribute. -/
def rule : NumericAttribute → FieldRule
  | fte => .positiveUpTo 1
  | shiftHours => .positiveUpTo 24
  | runNumber => .integerAtLeast 1

/-- Whether an integer lies in the range that an attribute is documented to have. -/
def Range : NumericAttribute → Int → Prop
  | fte, i => 0 < i ∧ i ≤ 1
  | shiftHours, i => 0 < i ∧ i ≤ 24
  | runNumber, i => 1 ≤ i

instance (a : NumericAttribute) (i : Int) : Decidable (a.Range i) :=
  match a with
  | fte => inferInstanceAs (Decidable (0 < i ∧ i ≤ 1))
  | shiftHours => inferInstanceAs (Decidable (0 < i ∧ i ≤ 24))
  | runNumber => inferInstanceAs (Decidable (1 ≤ i))

theorem mem_fields (a : NumericAttribute) : (a.name, a.rule) ∈ a.kind.rules.fields := by
  cases a <;> decide

/-- An integer is accepted exactly in the documented range, as far as the number of a run is a
signed word of 64 bits. -/
theorem accepts_rule_iff (a : NumericAttribute) (hfits : -2 ^ 63 ≤ i ∧ i < 2 ^ 64)
    (hv : v.Writes i) : a.rule.accepts v ↔ a.Range i ∧ (a = runNumber → i < 2 ^ 63) := by
  cases a with
  | fte =>
    rw [rule, FieldRule.accepts_positiveUpTo_iff (by decide) hfits hv]
    simp [Range]
  | shiftHours =>
    rw [rule, FieldRule.accepts_positiveUpTo_iff (by decide) hfits hv]
    simp [Range]
  | runNumber =>
    rw [rule, FieldRule.accepts_integerAtLeast_iff (by decide) hv]
    simp [Range]

/-- A state that satisfies the other rules of its kind is in order exactly when the integer that a
numeric attribute holds, as a number or as a text with blanks around it, lies in the documented
range and, for the number of a run, below 2 ^ 63.  Otherwise the attribute is named, with its value
and its constraint. -/
theorem violation_of_writes (a : NumericAttribute) (i : Int) (hfits : -2 ^ 63 ≤ i ∧ i < 2 ^ 64)
    (v : Json.Value) (hv : v.Writes i) (state : Payload)
    (hstate : a.kind.SatisfiesOthers state a.name) (hvalue : state.get? a.name = some v) :
    a.kind.violation? state =
      if a.Range i ∧ (a = runNumber → i < 2 ^ 63) then none
      else some (.invalid a.kind a.name v a.rule) := by
  rw [EntityKind.violation?_of_satisfiesOthers a.mem_fields hstate hvalue]
  simp only [accepts_rule_iff a hfits hv]

end NumericAttribute

namespace Sample

/-- A shift of 24 hours, which are given as a text between an ideographic space and a line break. -/
def wholeDay : Json.Value :=
  .str (String.ofList ([Char.ofNat 0x3000] ++ Text.integer 24 ++ [Char.ofNat 0xA]))

def wholeDayProfile : Payload where
  members := [("name", .str "Std"), ("shift_hours", wholeDay)]
  ordered := Json.ordered_obj_iff.2 ⟨List.pairwise_pair.mpr (by decide), trivial, trivial, trivial⟩
  shallow := by decide

/-- A payroll run with the least number that is no signed word of 64 bits. -/
def lateRun : Payload where
  members := [("pay_period_id", .str "2026-01"), ("run_number", .num (.int (2 ^ 63) (by decide)))]
  ordered := Json.ordered_obj_iff.2 ⟨List.pairwise_pair.mpr (by decide), trivial, trivial, trivial⟩
  shallow := by decide

end Sample

namespace NumericAttribute

theorem violation_of_writes_sample :
    Sample.wholeDay.Writes 24 ∧
      EntityKind.timeProfile.violation? Sample.wholeDayProfile = none := by
  have hwrites : Sample.wholeDay.Writes 24 :=
    .text (List.all_eq_true.mp (by decide)) (List.all_eq_true.mp (by decide))
  have hothers : shiftHours.kind.SatisfiesOthers Sample.wholeDayProfile shiftHours.name :=
    ⟨by decide +kernel, by decide +kernel⟩
  exact ⟨hwrites, violation_of_writes shiftHours 24 (by decide) Sample.wholeDay hwrites
    Sample.wholeDayProfile hothers rfl⟩

/-- The documented range of the number of a run has no upper bound, and yet 2 ^ 63 is refused. -/
theorem not_forall_violation_eq_none_iff_range :
    ¬∀ (a : NumericAttribute) (i : Int), -2 ^ 63 ≤ i ∧ i < 2 ^ 64 →
      ∀ v : Json.Value, v.Writes i → ∀ state : Payload, a.kind.SatisfiesOthers state a.name →
        state.get? a.name = some v → (a.kind.violation? state = none ↔ a.Range i) := by
  intro hall
  have hothers : runNumber.kind.SatisfiesOthers Sample.lateRun runNumber.name :=
    ⟨by decide +kernel, by decide +kernel⟩
  have hnone := (hall runNumber (2 ^ 63) (by decide) _ (.number (by decide)) Sample.lateRun
    hothers rfl).mpr (by decide)
  exact absurd hnone (by decide +kernel)

end NumericAttribute

end DatedLedger
