import DatedLedger.Proofs.Json.Members
import DatedLedger.Rules
import Mathlib.Data.List.Basic

/-!
# Rules after a change

The rules of a kind speak about one attribute at a time, and a change leaves every
attribute that it does not mention as it was.  A state that satisfies the rules
therefore still satisfies them after a change exactly when what the change itself
sets is in order.
-/

namespace DatedLedger

namespace Payload

open Json

/-! ## Attributes after a change -/

theorem get?_change_of_ne {members : Members} {m : String × Value} {name : String}
    (h : name ≠ m.1) :
    Members.get? (change members m) name = Members.get? members name := by
  unfold change
  split
  · rw [Members.get?_erase, if_neg h]
  · rw [Members.get?_insert, if_neg h]

theorem get?_change_null {members : Members} {m : String × Value} (h : m.2 = .null) :
    Members.get? (change members m) m.1 = none := by
  simp [change, h, Members.get?_erase]

theorem get?_change_value {members : Members} {m : String × Value} (h : m.2 ≠ .null) :
    Members.get? (change members m) m.1 = some m.2 := by
  unfold change
  split
  next hnull => exact absurd hnull h
  next => rw [Members.get?_insert, if_pos rfl]

theorem get?_mergeMembers_of_forall_ne {members changes : Members} {name : String}
    (h : ∀ m ∈ changes, m.1 ≠ name) :
    Members.get? (mergeMembers members changes) name = Members.get? members name := by
  induction changes generalizing members with
  | nil => rfl
  | cons m rest ih =>
    obtain ⟨hm, hrest⟩ := List.forall_mem_cons.mp h
    have hstep := @ih (change members m) hrest
    rw [get?_change_of_ne (Ne.symm hm)] at hstep
    exact hstep

/-- A change that mentions an attribute decides it, whatever the state before. -/
theorem get?_mergeMembers {members changes : Members} (hsorted : changes.Sorted)
    (name : String) :
    (Members.get? changes name = none →
        Members.get? (mergeMembers members changes) name = Members.get? members name) ∧
      (Members.get? changes name = some .null →
        Members.get? (mergeMembers members changes) name = none) ∧
      ∀ v, Members.get? changes name = some v → v ≠ .null →
        Members.get? (mergeMembers members changes) name = some v := by
  induction changes generalizing members with
  | nil => simp [mergeMembers, Members.get?]
  | cons m rest ih =>
    obtain ⟨hfirst, hrest⟩ := List.pairwise_cons.mp hsorted
    have hmerge : mergeMembers members (m :: rest) = mergeMembers (change members m) rest := rfl
    rw [Members.get?_cons, hmerge]
    by_cases hname : name = m.1
    · subst hname
      have hkept : Members.get? (mergeMembers (change members m) rest) m.1 =
          Members.get? (change members m) m.1 := by
        apply get?_mergeMembers_of_forall_ne
        intro r hr heq
        have hlt := hfirst r hr
        rw [heq] at hlt
        exact String.lt_irrefl _ hlt
      rw [if_pos rfl, hkept]
      refine ⟨fun h => (by cases h), fun h => get?_change_null (Option.some.inj h), ?_⟩
      intro v hv hvalue
      have hm : m.2 = v := Option.some.inj hv
      rw [← hm] at hvalue ⊢
      exact get?_change_value hvalue
    · have htail := @ih (change members m) hrest
      rw [get?_change_of_ne hname] at htail
      rw [if_neg hname]
      exact htail

variable {state patch : Payload} {name : String}

theorem sorted_members (p : Payload) : p.members.Sorted :=
  (ordered_obj_iff.mp p.ordered).1

/-- The value of an attribute after a change: what the change mentions counts, and null removes. -/
def overwrite (old mentioned : Option Value) : Option Value :=
  match mentioned with
  | none => old
  | some .null => none
  | some v => some v

theorem get?_merge (state patch : Payload) (name : String) :
    (state.merge patch).get? name = overwrite (state.get? name) (patch.get? name) := by
  obtain ⟨hnone, hnull, hvalue⟩ :=
    @get?_mergeMembers state.members _ patch.sorted_members name
  cases hpatch : patch.get? name with
  | none => exact hnone hpatch
  | some v =>
    cases v with
    | null => exact hnull hpatch
    | _ => exact hvalue _ hpatch nofun

/-- Of two changes the later one counts where it mentions the attribute. -/
theorem overwrite_overwrite (old mentioned mentioned' : Option Value) :
    overwrite (overwrite old mentioned) mentioned' = overwrite old (mentioned'.or mentioned) := by
  cases mentioned' with
  | none => rfl
  | some v => cases v <;> rfl

theorem overwrite_none_eq_some_iff {mentioned : Option Value} {v : Value} :
    overwrite none mentioned = some v ↔ mentioned = some v ∧ v ≠ .null := by
  cases mentioned with
  | none => simp [overwrite]
  | some w =>
    cases w with
    | null => exact ⟨nofun, fun ⟨hv, hne⟩ => absurd (Option.some.inj hv).symm hne⟩
    | _ =>
      simp only [overwrite, Option.some.injEq]
      exact ⟨fun h => ⟨h, h ▸ nofun⟩, And.left⟩

theorem overwrite_none_eq_none_iff {mentioned : Option Value} :
    overwrite none mentioned = none ↔ mentioned = none ∨ mentioned = some .null := by
  cases mentioned with
  | none => simp [overwrite]
  | some w => cases w <;> simp [overwrite]

/-! ## Attributes that are not null -/

/-- The attributes of a payload that are not null. -/
def withoutNulls (p : Payload) : Payload where
  members := p.members.filter fun m => !m.2.isNull
  ordered := by
    obtain ⟨hsorted, hmembers⟩ := ordered_obj_iff.mp p.ordered
    rw [orderedMembers_iff] at hmembers
    refine ordered_obj_iff.mpr ⟨List.Pairwise.filter _ hsorted, orderedMembers_iff.mpr ?_⟩
    intro m hm
    exact hmembers m (List.mem_filter.mp hm).1
  shallow := by
    have hshallow := shallow_obj_iff.mp p.shallow
    rw [Members.depthOfMembers_le_iff] at hshallow
    refine shallow_obj_iff.mpr (Members.depthOfMembers_le_iff.mpr ?_)
    intro m hm
    exact hshallow m (List.mem_filter.mp hm).1

theorem mergeMembers_eq_append {members changes : Members} (hsorted : changes.Sorted)
    (hbelow : ∀ m ∈ members, ∀ r ∈ changes, m.1 < r.1) :
    mergeMembers members changes = members ++ changes.filter fun m => !m.2.isNull := by
  induction changes generalizing members with
  | nil => simp [mergeMembers]
  | cons r rest ih =>
    obtain ⟨hfirst, hrest⟩ := List.pairwise_cons.mp hsorted
    have hr : ∀ m ∈ members, m.1 < r.1 := fun m hm => hbelow m hm r List.mem_cons_self
    have htail : ∀ m ∈ members, ∀ q ∈ rest, m.1 < q.1 :=
      fun m hm q hq => hbelow m hm q (List.mem_cons_of_mem r hq)
    have hmerge : mergeMembers members (r :: rest) = mergeMembers (change members r) rest := rfl
    rw [hmerge]
    by_cases hnull : r.2 = .null
    · have hchange : change members r = members := by
        simp only [change, hnull]
        apply Members.erase_eq_self
        intro m hm heq
        have hlt := hr m hm
        rw [heq] at hlt
        exact String.lt_irrefl _ hlt
      rw [hchange, ih hrest htail, List.filter_cons_of_neg (by simp [hnull, Value.isNull])]
    · have hvalue : r.2.isNull = false := by
        rwa [← Bool.not_eq_true, Value.isNull_iff]
      have hchange : change members r = members ++ [r] := by
        unfold change
        split
        next h => exact absurd h hnull
        next => exact Members.insert_eq_append hr
      rw [hchange, ih hrest, List.filter_cons_of_pos (by simp [hvalue]), List.append_assoc]
      · rfl
      · intro m hm q hq
        rcases List.mem_append.mp hm with hm | hm
        · exact htail m hm q hq
        · rw [List.mem_singleton.mp hm]
          exact hfirst q hq

/-- A first change leaves what it sets to something. -/
theorem empty_merge (p : Payload) : Payload.empty.merge p = p.withoutNulls := by
  have hmembers : mergeMembers [] p.members = p.members.filter fun m => !m.2.isNull :=
    mergeMembers_eq_append p.sorted_members (by simp)
  simp only [merge, withoutNulls, Payload.empty, Payload.mk.injEq]
  exact hmembers

end Payload

namespace EntityKind

open Json

variable {kind : EntityKind} {state patch : Payload}

/-! ## Rules by attribute -/

theorem violation?_eq_none_iff :
    kind.violation? state = none ↔
      (∀ name ∈ kind.rules.required, kind.requiredViolation? state name = none) ∧
        ∀ field ∈ kind.rules.fields, kind.fieldViolation? state field = none := by
  simp [violation?]

/-- What a change sets is in order: no required attribute becomes null or blank, and a
constrained attribute becomes null or a value that its constraint accepts. -/
structure Permits (kind : EntityKind) (patch : Payload) : Prop where
  required : ∀ name ∈ kind.rules.required, patch.get? name ≠ some .null ∧
    ∀ s, patch.get? name = some (.str s) → ¬Text.allBlank s
  fields : ∀ field ∈ kind.rules.fields, ∀ v, patch.get? field.1 = some v → v ≠ .null →
    field.2.accepts v

/-! ## Rules that a change breaks by itself -/

/-- How a change takes a required attribute away. -/
def requiredChangeViolation? (kind : EntityKind) (patch : Payload) (name : String) :
    Option Violation :=
  match patch.get? name with
  | some .null => some (.missing kind name)
  | some (.str s) => if Text.allBlank s then some (.blank kind name) else none
  | _ => none

/-- How what a change writes to an attribute breaks a constraint. -/
def fieldChangeViolation? (kind : EntityKind) (patch : Payload) (field : String × FieldRule) :
    Option Violation :=
  match patch.get? field.1 with
  | none | some .null => none
  | some v => if field.2.accepts v then none else some (.invalid kind field.1 v field.2)

/-- The first rule that a change breaks, whatever the state in order that it changes. -/
def changeViolation? (kind : EntityKind) (patch : Payload) : Option Violation :=
  kind.rules.required.findSome? (kind.requiredChangeViolation? patch) <|>
    kind.rules.fields.findSome? (kind.fieldChangeViolation? patch)

theorem requiredChangeViolation?_eq_none_iff {name : String} :
    kind.requiredChangeViolation? patch name = none ↔
      patch.get? name ≠ some .null ∧
        ∀ s, patch.get? name = some (.str s) → ¬Text.allBlank s := by
  unfold requiredChangeViolation?
  cases h : patch.get? name with
  | none => simp
  | some v => cases v <;> simp

theorem fieldChangeViolation?_eq_none_iff {field : String × FieldRule} :
    kind.fieldChangeViolation? patch field = none ↔
      ∀ v, patch.get? field.1 = some v → v ≠ .null → field.2.accepts v := by
  unfold fieldChangeViolation?
  cases h : patch.get? field.1 with
  | none => simp
  | some v => cases v <;> simp

/-- A change breaks no rule exactly when it is permitted. -/
theorem changeViolation?_eq_none_iff : kind.changeViolation? patch = none ↔ kind.Permits patch := by
  have hparts : kind.changeViolation? patch = none ↔
      (∀ name ∈ kind.rules.required, kind.requiredChangeViolation? patch name = none) ∧
        ∀ field ∈ kind.rules.fields, kind.fieldChangeViolation? patch field = none := by
    simp [changeViolation?]
  simp only [hparts, requiredChangeViolation?_eq_none_iff, fieldChangeViolation?_eq_none_iff]
  constructor
  · rintro ⟨hrequired, hfields⟩
    exact ⟨hrequired, hfields⟩
  · rintro ⟨hrequired, hfields⟩
    exact ⟨hrequired, hfields⟩

/-! ## Rules of a state that was changed -/

theorem requiredViolation?_merge {name : String}
    (h : kind.requiredViolation? state name = none) :
    kind.requiredViolation? (state.merge patch) name =
      kind.requiredChangeViolation? patch name := by
  rw [requiredViolation?, Payload.get?_merge, requiredChangeViolation?]
  cases hpatch : patch.get? name with
  | none => exact h
  | some v => cases v <;> rfl

theorem fieldViolation?_merge {field : String × FieldRule}
    (h : kind.fieldViolation? state field = none) :
    kind.fieldViolation? (state.merge patch) field = kind.fieldChangeViolation? patch field := by
  rw [fieldViolation?, Payload.get?_merge, fieldChangeViolation?]
  cases hpatch : patch.get? field.1 with
  | none => exact h
  | some v => cases v <;> rfl

/-- A change of a state in order breaks the rule that it breaks by itself. -/
theorem violation?_merge (h : kind.violation? state = none) :
    kind.violation? (state.merge patch) = kind.changeViolation? patch := by
  obtain ⟨hrequired, hfields⟩ := violation?_eq_none_iff.mp h
  have hr : kind.rules.required.filterMap (kind.requiredViolation? (state.merge patch)) =
      kind.rules.required.filterMap (kind.requiredChangeViolation? patch) :=
    List.filterMap_congr fun name hname => requiredViolation?_merge (hrequired name hname)
  have hf : kind.rules.fields.filterMap (kind.fieldViolation? (state.merge patch)) =
      kind.rules.fields.filterMap (kind.fieldChangeViolation? patch) :=
    List.filterMap_congr fun field hfield => fieldViolation?_merge (hfields field hfield)
  simp only [violation?, changeViolation?, ← List.head?_filterMap, hr, hf]

/-- A state in order stays in order under exactly the changes that are permitted. -/
theorem violation?_merge_eq_none_iff (h : kind.violation? state = none) :
    kind.violation? (state.merge patch) = none ↔ kind.Permits patch := by
  rw [violation?_merge h, changeViolation?_eq_none_iff]

/-- Which rule a change breaks does not depend on the state in order that it changes. -/
theorem violation?_merge_congr {state' : Payload} (h : kind.violation? state = none)
    (h' : kind.violation? state' = none) :
    kind.violation? (state.merge patch) = kind.violation? (state'.merge patch) :=
  (violation?_merge h).trans (violation?_merge h').symm

end EntityKind

end DatedLedger
