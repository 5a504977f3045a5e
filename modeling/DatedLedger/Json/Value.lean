import DatedLedger.Binary64.Basic

/-!
# JSON values

A value is a scalar, a list of values, or an object.  An object is a list of
members in strictly increasing order of their names, so that two objects with the
same members are the same value; `Value.Ordered` states this order at every level.
Members are looked up, written and removed by name, and each of these operations
keeps the order.
-/

namespace DatedLedger.Json

/-- A JSON number: an integer of 64 bits, signed or unsigned, or a finite double. -/
inductive Number where
  | int (value : Int) (fits : -2 ^ 63 ≤ value ∧ value < 2 ^ 64)
  | real (value : Binary64)
  deriving DecidableEq

/-- A JSON value. -/
inductive Value where
  | null
  | bool (value : Bool)
  | num (value : Number)
  | str (value : String)
  | arr (items : List Value)
  | obj (members : List (String × Value))

/-- The members of an object: names with their values. -/
abbrev Members := List (String × Value)

mutual

/-- The number of levels of a value; a scalar has one. -/
def Value.depth : Value → Nat
  | .arr items => 1 + depthOfItems items
  | .obj members => 1 + depthOfMembers members
  | _ => 1

/-- The levels of the deepest item. -/
def depthOfItems : List Value → Nat
  | [] => 0
  | v :: rest => max v.depth (depthOfItems rest)

/-- The levels of the deepest member. -/
def depthOfMembers : Members → Nat
  | [] => 0
  | (_, v) :: rest => max v.depth (depthOfMembers rest)

end

mutual

/-- Every object inside the value lists its members by strictly increasing name. -/
def Value.Ordered : Value → Prop
  | .arr items => OrderedItems items
  | .obj members => members.Pairwise (fun a b => a.1 < b.1) ∧ OrderedMembers members
  | _ => True

/-- Every item is ordered. -/
def OrderedItems : List Value → Prop
  | [] => True
  | v :: rest => v.Ordered ∧ OrderedItems rest

/-- The value of every member is ordered. -/
def OrderedMembers : Members → Prop
  | [] => True
  | (_, v) :: rest => v.Ordered ∧ OrderedMembers rest

end

namespace Members

/-- The value of the member with the given name. -/
def get? (members : Members) (name : String) : Option Value :=
  List.lookup name members

theorem get?_cons (m : String × Value) (rest : Members) (name : String) :
    get? (m :: rest) name = if name = m.1 then some m.2 else get? rest name := by
  obtain ⟨n, v⟩ := m
  by_cases h : name = n
  · simp [get?, h]
  · have : (name == n) = false := by simpa using h
    simp [get?, List.lookup_cons, this, h]

/-- Writes a member in its place, over an earlier one of the same name. -/
def insert (name : String) (value : Value) : Members → Members
  | [] => [(name, value)]
  | (other, v) :: rest =>
    if name < other then (name, value) :: (other, v) :: rest
    else if name = other then (name, value) :: rest
    else (other, v) :: insert name value rest

theorem get?_insert (members : Members) (name other : String) (value : Value) :
    get? (insert name value members) other =
      if other = name then some value else get? members other := by
  induction members with
  | nil => rw [insert, get?_cons]
  | cons m rest ih =>
    unfold insert
    split
    · rw [get?_cons]
    · split
      · rename_i h
        subst h
        rw [get?_cons, get?_cons]
        split <;> rfl
      · rename_i h
        rw [get?_cons, get?_cons, ih]
        by_cases ho : other = m.1
        · simp [ho, Ne.symm h]
        · simp [ho]

/-- Removes the member with the given name. -/
def erase (members : Members) (name : String) : Members :=
  members.filter fun m => m.1 != name

theorem get?_erase (members : Members) (name other : String) :
    get? (erase members name) other = if other = name then none else get? members other := by
  induction members with
  | nil => simp [erase, get?]
  | cons m rest ih =>
    unfold erase at ih ⊢
    by_cases hm : m.1 = name
    · rw [List.filter_cons_of_neg (by simp [hm]), ih, get?_cons]
      by_cases ho : other = name <;> simp [ho, hm]
    · rw [List.filter_cons_of_pos (by simp [hm]), get?_cons, get?_cons, ih]
      by_cases ho : other = m.1
      · simp [ho, hm]
      · simp [ho]

end Members

end DatedLedger.Json
