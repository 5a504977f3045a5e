import DatedLedger.Json.Canonical
import DatedLedger.Json.Ordered

/-!
# Payloads

A payload is a JSON object of bounded depth: what an event carries, and what a
version shows.  Merging one into another writes the members it gives and removes
those it sets to null.  Two payloads have the same content exactly when their
canonical texts are equal.
-/

namespace DatedLedger

/-- The greatest number of levels of a payload, itself included. -/
def Payload.maxDepth : Nat := 64

/-- A JSON object with its members in order, at most `maxDepth` levels deep. -/
structure Payload where
  members : Json.Members
  ordered : (Json.Value.obj members).Ordered
  shallow : (Json.Value.obj members).depth ≤ Payload.maxDepth

/-- Why a text is no payload. -/
inductive PayloadFault where
  /-- The text is not JSON. -/
  | malformed
  /-- The value has too many levels. -/
  | tooDeep
  /-- The value is no object but of the given shape. -/
  | notObject (shape : String)
  deriving DecidableEq

namespace PayloadFault

def message : PayloadFault → String
  | malformed => "json error"
  | tooDeep =>
    "invalid argument: payload nested deeper than " ++ Text.showNat Payload.maxDepth ++ " levels"
  | notObject shape => "invalid argument: payload must be a JSON object, got " ++ shape

end PayloadFault

namespace Json.Value

/-- The name of a value's shape, with its article. -/
def shape : Value → String
  | null => "null"
  | bool _ => "a boolean"
  | num _ => "a number"
  | str _ => "a string"
  | arr _ => "an array"
  | obj _ => "an object"

end Json.Value

namespace Payload

/-- Refuses a value of too many levels. -/
def checkDepth (v : Json.Value) : Except PayloadFault Unit :=
  if v.depth ≤ maxDepth then .ok () else .error .tooDeep

/-- The payload that an ordered value is; depth is checked before shape. -/
def ofValue (v : Json.Value) (ordered : v.Ordered) : Except PayloadFault Payload :=
  if shallow : v.depth ≤ maxDepth then
    match v, ordered, shallow with
    | .obj members, ordered, shallow => .ok ⟨members, ordered, shallow⟩
    | other, _, _ => .error (.notObject other.shape)
  else .error .tooDeep

/-- Reads a payload from JSON text. -/
def parse (text : String) : Except PayloadFault Payload :=
  match h : Json.read? text with
  | none => .error .malformed
  | some v => ofValue v (Json.ordered_of_read h)

/-- The canonical text, which is also the stored form. -/
def text (p : Payload) : String :=
  Json.canonical (.obj p.members)

/-- Whether two payloads have the same content. -/
def same (p q : Payload) : Bool :=
  p.text == q.text

/-- The value of an attribute. -/
def get? (p : Payload) (name : String) : Option Json.Value :=
  Json.Members.get? p.members name

/-- The object without members. -/
def empty : Payload :=
  ⟨[], Json.ordered_obj_iff.2 ⟨.nil, trivial⟩, by decide⟩

/-- Applies one member of a change: null removes, anything else is written. -/
def change (members : Json.Members) (m : String × Json.Value) : Json.Members :=
  match m.2 with
  | .null => Json.Members.erase members m.1
  | v => Json.Members.insert m.1 v members

theorem sorted_change {members : Json.Members} (m : String × Json.Value)
    (h : members.Sorted) : (change members m).Sorted := by
  unfold change
  split
  · exact Json.Members.sorted_erase h
  · exact Json.Members.sorted_insert h

theorem ordered_change {members : Json.Members} {m : String × Json.Value}
    (hm : m.2.Ordered) (h : Json.OrderedMembers members) :
    Json.OrderedMembers (change members m) := by
  unfold change
  split
  · exact Json.Members.ordered_erase h
  · exact Json.Members.ordered_insert hm h

theorem depth_change_le {members : Json.Members} {m : String × Json.Value} {n : Nat}
    (hm : m.2.depth ≤ n) (h : Json.depthOfMembers members ≤ n) :
    Json.depthOfMembers (change members m) ≤ n := by
  unfold change
  split
  · exact Json.Members.depth_erase_le h
  · exact Json.Members.depth_insert_le hm h

/-- The members after all changes, applied in order. -/
def mergeMembers (members changes : Json.Members) : Json.Members :=
  changes.foldl change members

theorem ordered_mergeMembers {members changes : Json.Members}
    (h : members.Sorted ∧ Json.OrderedMembers members) (hc : Json.OrderedMembers changes) :
    (mergeMembers members changes).Sorted ∧
      Json.OrderedMembers (mergeMembers members changes) := by
  rw [Json.orderedMembers_iff] at hc
  induction changes generalizing members with
  | nil => exact h
  | cons m rest ih =>
    obtain ⟨hm, hrest⟩ := List.forall_mem_cons.1 hc
    exact ih ⟨sorted_change m h.1, ordered_change hm h.2⟩ hrest

theorem depth_mergeMembers_le {members changes : Json.Members} {n : Nat}
    (h : Json.depthOfMembers members ≤ n) (hc : Json.depthOfMembers changes ≤ n) :
    Json.depthOfMembers (mergeMembers members changes) ≤ n := by
  rw [Json.Members.depthOfMembers_le_iff] at hc
  induction changes generalizing members with
  | nil => exact h
  | cons m rest ih =>
    obtain ⟨hm, hrest⟩ := List.forall_mem_cons.1 hc
    exact ih (depth_change_le hm h) hrest

/-- The depth of an object is one more than the bound on its members. -/
theorem shallow_obj_iff {members : Json.Members} :
    (Json.Value.obj members).depth ≤ maxDepth ↔ Json.depthOfMembers members ≤ 63 := by
  simp only [Json.Value.depth, maxDepth]
  omega

/-- Attributes after a change: what it sets is written, what it sets to null is gone. -/
def merge (state patch : Payload) : Payload where
  members := mergeMembers state.members patch.members
  ordered := Json.ordered_obj_iff.2
    (ordered_mergeMembers (Json.ordered_obj_iff.1 state.ordered)
      (Json.ordered_obj_iff.1 patch.ordered).2)
  shallow := shallow_obj_iff.2
    (depth_mergeMembers_le (shallow_obj_iff.1 state.shallow) (shallow_obj_iff.1 patch.shallow))

end Payload

end DatedLedger
