import DatedLedger.Json.Reader

/-!
# Order of members

Writing and removing members keep their order, and neither makes an object deeper
than the value written.  The main statement is `ordered_of_read`: every value that
is read from a text lists the members of its objects in order, at every level.
-/

namespace DatedLedger.Json

/-- The members stand in strictly increasing order of their names. -/
def Members.Sorted (members : Members) : Prop :=
  members.Pairwise fun a b => a.1 < b.1

theorem ordered_obj_iff {members : Members} :
    (Value.obj members).Ordered ↔ members.Sorted ∧ OrderedMembers members := by
  simp [Value.Ordered, Members.Sorted]

theorem orderedItems_iff {items : List Value} :
    OrderedItems items ↔ ∀ v ∈ items, v.Ordered := by
  induction items with
  | nil => simp [OrderedItems]
  | cons v rest ih => simp [OrderedItems, ih]

theorem orderedMembers_iff {members : Members} :
    OrderedMembers members ↔ ∀ m ∈ members, m.2.Ordered := by
  induction members with
  | nil => simp [OrderedMembers]
  | cons m rest ih => simp [OrderedMembers, ih]

namespace Members

theorem mem_insert {name : String} {value : Value} {members : Members} {m : String × Value}
    (h : m ∈ insert name value members) : m = (name, value) ∨ m ∈ members := by
  induction members with
  | nil => simpa [insert] using h
  | cons other rest ih =>
    unfold insert at h
    split at h
    · simpa using h
    · split at h
      · rcases List.mem_cons.1 h with h | h
        · exact .inl h
        · exact .inr (List.mem_cons_of_mem _ h)
      · rcases List.mem_cons.1 h with h | h
        · exact .inr (h ▸ List.mem_cons_self)
        · exact (ih h).imp_right (List.mem_cons_of_mem _)

theorem sorted_insert {name : String} {value : Value} {members : Members}
    (h : members.Sorted) : Sorted (insert name value members) := by
  induction members with
  | nil => simp [insert, Sorted]
  | cons other rest ih =>
    obtain ⟨below, tail⟩ := List.pairwise_cons.1 h
    unfold insert
    split
    · rename_i lt
      refine List.pairwise_cons.2 ⟨fun m hm => ?_, h⟩
      rcases List.mem_cons.1 hm with rfl | hm
      · exact lt
      · exact String.lt_trans lt (below m hm)
    · rename_i notLt
      split
      · rename_i eq
        subst eq
        exact List.pairwise_cons.2 ⟨below, tail⟩
      · rename_i ne
        refine List.pairwise_cons.2 ⟨fun m hm => ?_, ih tail⟩
        rcases mem_insert hm with rfl | hm
        · exact Std.lt_of_le_of_ne (String.not_lt.1 notLt) (Ne.symm ne)
        · exact below m hm

theorem ordered_insert {name : String} {value : Value} {members : Members}
    (hv : value.Ordered) (h : OrderedMembers members) :
    OrderedMembers (insert name value members) := by
  rw [orderedMembers_iff] at h ⊢
  intro m hm
  rcases mem_insert hm with rfl | hm
  · exact hv
  · exact h m hm

theorem sorted_erase {name : String} {members : Members}
    (h : members.Sorted) : Sorted (members.erase name) :=
  List.Pairwise.filter _ h

theorem ordered_erase {name : String} {members : Members}
    (h : OrderedMembers members) : OrderedMembers (members.erase name) := by
  rw [orderedMembers_iff] at h ⊢
  exact fun m hm => h m (List.mem_filter.1 hm).1

theorem depthOfMembers_le_iff {members : Members} {n : Nat} :
    depthOfMembers members ≤ n ↔ ∀ m ∈ members, m.2.depth ≤ n := by
  induction members with
  | nil => simp [depthOfMembers]
  | cons m rest ih => simp only [depthOfMembers, Nat.max_le, ih, List.forall_mem_cons]

theorem depth_insert_le {name : String} {value : Value} {members : Members} {n : Nat}
    (hv : value.depth ≤ n) (h : depthOfMembers members ≤ n) :
    depthOfMembers (insert name value members) ≤ n := by
  rw [depthOfMembers_le_iff] at h ⊢
  intro m hm
  rcases mem_insert hm with rfl | hm
  · exact hv
  · exact h m hm

theorem depth_erase_le {name : String} {members : Members} {n : Nat}
    (h : depthOfMembers members ≤ n) : depthOfMembers (members.erase name) ≤ n := by
  rw [depthOfMembers_le_iff] at h ⊢
  exact fun m hm => h m (List.mem_filter.1 hm).1

end Members

/-- What an open array or object holds is ordered. -/
def Frame.Ordered : Frame → Prop
  | .array items => ∀ v ∈ items, v.Ordered
  | .object members _ => members.Sorted ∧ OrderedMembers members

/-- Everything that has been read is ordered. -/
def Phase.Ordered : Phase → Prop
  | .atValue outer | .atFirstItem outer | .atFirstName outer => ∀ f ∈ outer, f.Ordered
  | .atName outer members | .atColon outer members _ =>
    (∀ f ∈ outer, f.Ordered) ∧ members.Sorted ∧ OrderedMembers members
  | .complete outer value => (∀ f ∈ outer, f.Ordered) ∧ value.Ordered

/-- The values of a token's own kind are ordered. -/
def Token.Ordered : Token → Prop
  | .scalar v => v.Ordered
  | _ => True

/-- A word that is being read stands for an ordered value. -/
def Scan.Ordered : Scan → Prop
  | .word _ v => v.Ordered
  | _ => True

theorem Phase.ordered_begin {outer : List Frame} {t : Token} {p : Phase}
    (ho : ∀ f ∈ outer, f.Ordered) (ht : t.Ordered) (h : begin? outer t = some p) :
    p.Ordered := by
  cases t with
  | scalar v => cases h; exact ⟨ho, ht⟩
  | string s => cases h; exact ⟨ho, trivial⟩
  | openArray => simp only [begin?] at h; split at h <;> cases h; exact ho
  | openObject => simp only [begin?] at h; split at h <;> cases h; exact ho
  | _ => cases h

theorem Phase.ordered_resume {value : Value} {outer : List Frame} {t : Token} {p : Phase}
    (ho : ∀ f ∈ outer, f.Ordered) (hv : value.Ordered) (h : resume? value outer t = some p) :
    p.Ordered := by
  cases outer with
  | nil => cases t <;> cases h
  | cons frame outer =>
    obtain ⟨hf, rest⟩ := List.forall_mem_cons.1 ho
    cases frame with
    | array items =>
      have all : ∀ v ∈ value :: items, v.Ordered := List.forall_mem_cons.2 ⟨hv, hf⟩
      cases t <;> cases h
      · exact ⟨rest, orderedItems_iff.2 fun v hv => all v (List.mem_reverse.1 hv)⟩
      · exact List.forall_mem_cons.2 ⟨all, rest⟩
    | object members name =>
      have all : Members.Sorted (Members.insert name value members) ∧
          OrderedMembers (Members.insert name value members) :=
        ⟨Members.sorted_insert hf.1, Members.ordered_insert hv hf.2⟩
      cases t <;> cases h
      · exact ⟨rest, ordered_obj_iff.2 all⟩
      · exact ⟨rest, all⟩

theorem Phase.ordered_step {p q : Phase} {t : Token}
    (hp : p.Ordered) (ht : t.Ordered) (h : p.step? t = some q) : q.Ordered := by
  cases p with
  | atValue outer => exact ordered_begin hp ht h
  | atFirstItem outer =>
    have opened : ∀ f ∈ Frame.array [] :: outer, f.Ordered :=
      List.forall_mem_cons.2 ⟨by simp [Frame.Ordered], hp⟩
    cases t with
    | closeArray => cases h; exact ⟨hp, trivial⟩
    | _ => exact ordered_begin opened ht h
  | atFirstName outer =>
    cases t with
    | closeObject => cases h; exact ⟨hp, ordered_obj_iff.2 ⟨.nil, trivial⟩⟩
    | string s => cases h; exact ⟨hp, .nil, trivial⟩
    | _ => cases h
  | atName outer members =>
    cases t with
    | string s => cases h; exact hp
    | _ => cases h
  | atColon outer members name =>
    cases t with
    | colon => cases h; exact List.forall_mem_cons.2 ⟨hp.2, hp.1⟩
    | _ => cases h
  | complete outer value => exact ordered_resume hp.1 hp.2 h

theorem Phase.ordered_foldlM {ts : List Token} {p q : Phase}
    (hp : p.Ordered) (ht : ∀ t ∈ ts, t.Ordered) (h : ts.foldlM step? p = some q) :
    q.Ordered := by
  induction ts generalizing p with
  | nil => cases h; exact hp
  | cons t ts ih =>
    obtain ⟨ht, hts⟩ := List.forall_mem_cons.1 ht
    obtain ⟨p', hp', h⟩ := Option.bind_eq_some_iff.1 h
    exact ih (ordered_step hp ht hp') hts h

theorem Scan.ordered_numeralToken {seen : List Char} {t : Token}
    (h : numeralToken? seen = some t) : t.Ordered := by
  obtain ⟨n, -, rfl⟩ := Option.map_eq_some_iff.1 h
  trivial

theorem Scan.ordered_start {c : Char} {s : Scan} {ts : List Token}
    (h : start? c = some (s, ts)) : s.Ordered ∧ ∀ t ∈ ts, t.Ordered := by
  unfold start? at h
  split at h
  · cases h; simp [Scan.Ordered]
  · split at h
    · cases h; simp [Scan.Ordered]
    · split at h <;> cases h <;> simp [Scan.Ordered, Token.Ordered, Value.Ordered]

theorem Scan.ordered_endUnit {seen : List Char} {leading : Option Nat} {value : Nat} {s : Scan}
    (h : endUnit? seen leading value = some s) : s.Ordered := by
  unfold endUnit? at h
  split at h
  · split at h
    · cases h; trivial
    · split at h <;> cases h; trivial
  · split at h <;> cases h; trivial

theorem Scan.ordered_step {s s' : Scan} {c : Char} {ts : List Token}
    (hs : s.Ordered) (h : s.step? c = some (s', ts)) : s'.Ordered ∧ ∀ t ∈ ts, t.Ordered := by
  cases s with
  | between => exact ordered_start h
  | word owed value =>
    cases owed with
    | nil => cases h
    | cons d owed =>
      simp only [step?] at h
      split at h
      · split at h <;> cases h
        · simpa [Scan.Ordered, Token.Ordered] using hs
        · exact ⟨hs, by simp⟩
      · cases h
  | numeral seen =>
    simp only [step?] at h
    split at h
    · cases h; simp [Scan.Ordered]
    · obtain ⟨t, ht, h⟩ := Option.bind_eq_some_iff.1 h
      obtain ⟨⟨next, tokens⟩, hn, h⟩ := Option.bind_eq_some_iff.1 h
      cases h
      have := ordered_start hn
      exact ⟨this.1, List.forall_mem_cons.2 ⟨ordered_numeralToken ht, this.2⟩⟩
  | string seen =>
    simp only [step?] at h
    split at h
    · cases h; simp [Scan.Ordered, Token.Ordered]
    · split at h
      · cases h; simp [Scan.Ordered]
      · split at h <;> cases h; simp [Scan.Ordered]
  | escape seen =>
    simp only [step?] at h
    split at h
    · cases h; simp [Scan.Ordered]
    · obtain ⟨d, -, h⟩ := Option.map_eq_some_iff.1 h
      cases h; simp [Scan.Ordered]
  | unit seen leading owed value =>
    obtain ⟨d, -, h⟩ := Option.bind_eq_some_iff.1 h
    split at h
    · obtain ⟨u, hu, h⟩ := Option.map_eq_some_iff.1 h
      cases h
      exact ⟨ordered_endUnit hu, by simp⟩
    · cases h; simp [Scan.Ordered]
  | pair seen leading =>
    simp only [step?] at h
    split at h <;> cases h; simp [Scan.Ordered]
  | pairMark seen leading =>
    simp only [step?] at h
    split at h <;> cases h; simp [Scan.Ordered]

theorem Scan.ordered_finish {s : Scan} {ts : List Token}
    (h : s.finish? = some ts) : ∀ t ∈ ts, t.Ordered := by
  cases s with
  | between => cases h; simp
  | numeral seen =>
    obtain ⟨t, ht, rfl⟩ := Option.map_eq_some_iff.1 h
    simpa using ordered_numeralToken ht
  | _ => cases h

/-- Everything that the machine holds is ordered. -/
def Reader.Ordered (r : Reader) : Prop :=
  r.scan.Ordered ∧ r.phase.Ordered

theorem Reader.ordered_step {r r' : Reader} {c : Char}
    (hr : r.Ordered) (h : r.step? c = some r') : r'.Ordered := by
  obtain ⟨⟨s, ts⟩, hs, h⟩ := Option.bind_eq_some_iff.1 h
  obtain ⟨p, hp, rfl⟩ := Option.map_eq_some_iff.1 h
  have := Scan.ordered_step hr.1 hs
  exact ⟨this.1, Phase.ordered_foldlM hr.2 this.2 hp⟩

theorem Reader.ordered_foldlM {cs : List Char} {r r' : Reader}
    (hr : r.Ordered) (h : cs.foldlM step? r = some r') : r'.Ordered := by
  induction cs generalizing r with
  | nil => cases h; exact hr
  | cons c cs ih =>
    obtain ⟨r₁, h₁, h⟩ := Option.bind_eq_some_iff.1 h
    exact ih (ordered_step hr h₁) h

theorem Phase.ordered_finish {p : Phase} {v : Value}
    (hp : p.Ordered) (h : p.finish? = some v) : v.Ordered := by
  cases p with
  | complete outer value =>
    cases outer with
    | nil => cases h; exact hp.2
    | cons => cases h
  | _ => cases h

/-- Every value that is read from a text is ordered. -/
theorem ordered_of_read {text : String} {v : Value} (h : read? text = some v) : v.Ordered := by
  obtain ⟨r, hr, h⟩ := Option.bind_eq_some_iff.1 h
  obtain ⟨ts, hts, h⟩ := Option.bind_eq_some_iff.1 h
  obtain ⟨p, hp, h⟩ := Option.bind_eq_some_iff.1 h
  have all : r.Ordered :=
    Reader.ordered_foldlM (r := Reader.start) ⟨trivial, by simp [Reader.start, Phase.Ordered]⟩ hr
  exact Phase.ordered_finish (Phase.ordered_foldlM all.2 (Scan.ordered_finish hts) hp) h

end DatedLedger.Json
