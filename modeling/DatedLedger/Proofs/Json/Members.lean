import DatedLedger.Payload

/-!
# Members of objects

Writing a member behind all others appends it, and removing one that is not there
changes nothing.  Objects in which every name has the same value are equal.  What holds
of every number in an object, at whatever depth, still does after members that share it
were written or removed, and so it passes to a payload that is merged out of others.
Such properties are that the number is an integer, and that it is read back from its
text.
-/

namespace DatedLedger

namespace Json

/-- Whether a value is null. -/
def Value.isNull : Value → Bool
  | .null => true
  | _ => false

theorem Value.isNull_iff {v : Value} : v.isNull ↔ v = .null := by
  cases v <;> simp [isNull]

namespace Members

theorem erase_eq_self {members : Members} {name : String} (h : ∀ m ∈ members, m.1 ≠ name) :
    members.erase name = members := by
  rw [erase, List.filter_eq_self]
  intro m hm
  simpa using h m hm

theorem insert_eq_append {members : Members} {name : String} {value : Value}
    (h : ∀ m ∈ members, m.1 < name) : insert name value members = members ++ [(name, value)] := by
  induction members with
  | nil => rfl
  | cons m rest ih =>
    obtain ⟨hm, hrest⟩ := List.forall_mem_cons.mp h
    have hlt : ¬name < m.1 := String.lt_asymm hm
    have hne : name ≠ m.1 := by
      rintro rfl
      exact String.lt_irrefl _ hm
    rw [insert, if_neg hlt, if_neg hne, ih hrest, List.cons_append]

theorem mem_iff_get?_eq {members : Members} (h : members.Sorted) {m : String × Value} :
    m ∈ members ↔ get? members m.1 = some m.2 := by
  induction members with
  | nil => simp [get?]
  | cons n rest ih =>
    obtain ⟨hfirst, hrest⟩ := List.pairwise_cons.mp h
    rw [List.mem_cons, get?_cons]
    split
    next hname =>
      have hnot : m ∉ rest := by
        intro hm
        have hlt := hfirst m hm
        rw [hname] at hlt
        exact String.lt_irrefl _ hlt
      rw [or_iff_left hnot, Option.some_inj, Prod.ext_iff, and_iff_right hname, eq_comm]
    next hname =>
      have hne : m ≠ n := fun h => hname (congrArg Prod.fst h)
      rw [or_iff_right hne, ih hrest]

/-- An object is determined by what is looked up in it. -/
theorem eq_of_get?_eq {members others : Members} (h : members.Sorted) (h' : others.Sorted)
    (hget : ∀ name, get? members name = get? others name) : members = others := by
  have hne : ∀ {a b : String × Value}, a.1 < b.1 → a ≠ b := by
    rintro a b hlt rfl
    exact String.lt_irrefl _ hlt
  have hperm : members.Perm others := by
    rw [List.perm_ext_iff_of_nodup (h.imp hne) (h'.imp hne)]
    intro m
    rw [mem_iff_get?_eq h, mem_iff_get?_eq h', hget]
  exact hperm.eq_of_pairwise (fun a b _ _ hlt hgt => absurd hgt (String.lt_asymm hlt)) h h'

end Members

/-! ## Integral values -/

mutual

/-- Every number inside the value is an integer. -/
def Value.Integral : Value → Prop
  | .num (.real _) => False
  | .arr items => IntegralItems items
  | .obj members => IntegralMembers members
  | _ => True

def IntegralItems : List Value → Prop
  | [] => True
  | v :: rest => v.Integral ∧ IntegralItems rest

def IntegralMembers : Members → Prop
  | [] => True
  | (_, v) :: rest => v.Integral ∧ IntegralMembers rest

end

/-! ## What holds of every number -/

mutual

/-- Every number inside the value satisfies a predicate. -/
def Value.Every (P : Number → Prop) : Value → Prop
  | .num n => P n
  | .arr items => EveryItem P items
  | .obj members => EveryMember P members
  | _ => True

/-- Every number inside the items satisfies a predicate. -/
def EveryItem (P : Number → Prop) : List Value → Prop
  | [] => True
  | v :: rest => v.Every P ∧ EveryItem P rest

/-- Every number inside the values of the members satisfies a predicate. -/
def EveryMember (P : Number → Prop) : Members → Prop
  | [] => True
  | (_, v) :: rest => v.Every P ∧ EveryMember P rest

end

theorem everyMember_iff {P : Number → Prop} {members : Members} :
    EveryMember P members ↔ ∀ m ∈ members, m.2.Every P := by
  induction members with
  | nil => simp [EveryMember]
  | cons m rest ih => simp [EveryMember, ih]

mutual

theorem Value.Every.mono {P Q : Number → Prop} (hPQ : ∀ n, P n → Q n) (v : Value)
    (h : v.Every P) : v.Every Q := by
  match v with
  | .null => trivial
  | .bool _ => trivial
  | .num n => exact hPQ n h
  | .str _ => trivial
  | .arr items => exact EveryItem.mono hPQ items h
  | .obj members => exact EveryMember.mono hPQ members h

theorem EveryItem.mono {P Q : Number → Prop} (hPQ : ∀ n, P n → Q n) (items : List Value)
    (h : EveryItem P items) : EveryItem Q items := by
  match items with
  | [] => trivial
  | v :: rest => exact ⟨Value.Every.mono hPQ v h.1, EveryItem.mono hPQ rest h.2⟩

theorem EveryMember.mono {P Q : Number → Prop} (hPQ : ∀ n, P n → Q n) (members : Members)
    (h : EveryMember P members) : EveryMember Q members := by
  match members with
  | [] => trivial
  | (_, v) :: rest => exact ⟨Value.Every.mono hPQ v h.1, EveryMember.mono hPQ rest h.2⟩

end

/-! ## Properties of numbers -/

/-- The number is no double. -/
def Number.IsInteger : Number → Prop
  | .int _ _ => True
  | .real _ => False

/-- The number is read back from its text. -/
def Number.Steady (n : Number) : Prop :=
  Numeral.read? (numberText n) = some n

instance (n : Number) : Decidable n.Steady :=
  inferInstanceAs (Decidable (_ = _))

mutual

theorem Value.integral_iff_every (v : Value) : v.Integral ↔ v.Every Number.IsInteger := by
  match v with
  | .null => exact .rfl
  | .bool _ => exact .rfl
  | .num (.int _ _) => exact .rfl
  | .num (.real _) => exact .rfl
  | .str _ => exact .rfl
  | .arr items => exact integralItems_iff_everyItem items
  | .obj members => exact integralMembers_iff_everyMember members

theorem integralItems_iff_everyItem (items : List Value) :
    IntegralItems items ↔ EveryItem Number.IsInteger items := by
  match items with
  | [] => exact .rfl
  | v :: rest => exact and_congr v.integral_iff_every (integralItems_iff_everyItem rest)

theorem integralMembers_iff_everyMember (members : Members) :
    IntegralMembers members ↔ EveryMember Number.IsInteger members := by
  match members with
  | [] => exact .rfl
  | (_, v) :: rest => exact and_congr v.integral_iff_every (integralMembers_iff_everyMember rest)

end

end Json

namespace Payload

variable {P : Json.Number → Prop}

/-- Every number in the payload satisfies a predicate. -/
def Every (P : Json.Number → Prop) (p : Payload) : Prop :=
  Json.EveryMember P p.members

/-- Every number in the payload is an integer. -/
def Integral (p : Payload) : Prop :=
  Json.IntegralMembers p.members

/-- Every number in the payload is read back from its text. -/
def Steady (p : Payload) : Prop :=
  p.Every Json.Number.Steady

theorem integral_iff_every {p : Payload} : p.Integral ↔ p.Every Json.Number.IsInteger :=
  Json.integralMembers_iff_everyMember p.members

theorem everyMember_change {members : Json.Members} {m : String × Json.Value}
    (hm : m.2.Every P) (h : Json.EveryMember P members) :
    Json.EveryMember P (change members m) := by
  rw [Json.everyMember_iff] at h ⊢
  intro r hr
  unfold change at hr
  split at hr
  · exact h r (List.mem_filter.mp hr).1
  · rcases Json.Members.mem_insert hr with rfl | hr
    · exact hm
    · exact h r hr

theorem everyMember_mergeMembers {members changes : Json.Members}
    (h : Json.EveryMember P members) (hc : Json.EveryMember P changes) :
    Json.EveryMember P (mergeMembers members changes) := by
  rw [Json.everyMember_iff] at hc
  induction changes generalizing members with
  | nil => exact h
  | cons m rest ih =>
    obtain ⟨hm, hrest⟩ := List.forall_mem_cons.mp hc
    exact ih (everyMember_change hm h) hrest

theorem Every.merge {state patch : Payload} (hstate : state.Every P) (hpatch : patch.Every P) :
    (state.merge patch).Every P :=
  everyMember_mergeMembers hstate hpatch

theorem every_empty : Payload.empty.Every P :=
  trivial

end Payload

end DatedLedger
