import DatedLedger.Proofs.Calendar.Order
import DatedLedger.Proofs.Order
import DatedLedger.Proofs.Timeline.Rules
import DatedLedger.Timeline.Replay

/-!
# Lawful histories

Replay succeeds exactly on lawful lists of events: the first creates the entity in
a state that satisfies the rules of its kind, and every later one is an update of
that kind that the rules permit.  No later event has to be looked at together with
the states before it, since whether and why it is refused only depends on the kind.
-/

namespace DatedLedger

/-! ## Verdicts -/

/-- Whether there is a result, and if not, the cause. -/
def verdict {α : Type} (r : Except LedgerError α) : Except LedgerError Unit :=
  r.map fun _ => ()

theorem verdict_map {α β : Type} (r : Except LedgerError α) (f : α → β) :
    verdict (r.map f) = verdict r := by
  cases r with
  | ok a => rfl
  | error fault => rfl

theorem verdict_eq_error_iff {α : Type} {r : Except LedgerError α} {fault : LedgerError} :
    verdict r = .error fault ↔ r = .error fault := by
  cases r with
  | ok a => simp only [verdict, Except.map, reduceCtorEq]
  | error e => simp only [verdict, Except.map, Except.error.injEq]

theorem verdict_eq_ok_iff {α : Type} {r : Except LedgerError α} :
    verdict r = .ok () ↔ ∃ a, r = .ok a := by
  cases r with
  | ok a => simp [verdict, Except.map]
  | error e => simp [verdict, Except.map]

theorem verdict_eq_ok_iff_forall_ne {α : Type} {r : Except LedgerError α} :
    verdict r = .ok () ↔ ∀ fault, r ≠ .error fault := by
  cases r with
  | ok a => simp [verdict, Except.map]
  | error e => simp [verdict, Except.map]

theorem verdict_congr {α β : Type} {r : Except LedgerError α} {r' : Except LedgerError β}
    (h : ∀ fault, r = .error fault ↔ r' = .error fault) : verdict r = verdict r' := by
  cases r with
  | error fault =>
    rw [(h fault).mp rfl]
    rfl
  | ok a =>
    cases r' with
    | error fault => cases (h fault).mpr rfl
    | ok b => rfl

/-! ## Checks one after another -/

section Checks

variable {ε α : Type} {f : α → Except ε Unit} {xs : List α}

theorem forM_eq_ok_iff : forM xs f = .ok () ↔ ∀ x ∈ xs, f x = .ok () := by
  induction xs with
  | nil => exact iff_of_true rfl (List.forall_mem_nil _)
  | cons x xs ih =>
    rw [List.forM_cons, List.forall_mem_cons, ← ih]
    cases f x with
    | error e => exact iff_of_false nofun (fun h => nomatch h.1)
    | ok u => exact (and_iff_right rfl).symm

theorem exists_split_cons_iff {p q : α → Prop} {x : α} :
    (∃ front y back, x :: xs = front ++ y :: back ∧ (∀ z ∈ front, p z) ∧ q y) ↔
      q x ∨ p x ∧ ∃ front y back, xs = front ++ y :: back ∧ (∀ z ∈ front, p z) ∧ q y := by
  constructor
  · rintro ⟨front, y, back, hsplit, hfront, hy⟩
    cases front with
    | nil =>
      obtain ⟨rfl, -⟩ := List.cons.inj hsplit
      exact .inl hy
    | cons z front =>
      obtain ⟨rfl, htail⟩ := List.cons.inj hsplit
      obtain ⟨hx, hrest⟩ := List.forall_mem_cons.mp hfront
      exact .inr ⟨hx, front, y, back, htail, hrest, hy⟩
  · rintro (hx | ⟨hx, front, y, back, rfl, hfront, hy⟩)
    · exact ⟨[], x, xs, rfl, List.forall_mem_nil p, hx⟩
    · exact ⟨x :: front, y, back, rfl, List.forall_mem_cons.mpr ⟨hx, hfront⟩, hy⟩

theorem exists_split_congr {p p' q q' : α → Prop} (hp : ∀ x ∈ xs, (p x ↔ p' x))
    (hq : ∀ x ∈ xs, (q x ↔ q' x)) :
    (∃ front y back, xs = front ++ y :: back ∧ (∀ z ∈ front, p z) ∧ q y) ↔
      ∃ front y back, xs = front ++ y :: back ∧ (∀ z ∈ front, p' z) ∧ q' y := by
  induction xs with
  | nil => simp
  | cons x xs ih =>
    rw [List.forall_mem_cons] at hp hq
    rw [exists_split_cons_iff, exists_split_cons_iff, hp.1, hq.1, ih hp.2 hq.2]

/-- Checks that are made one after another fail as the first of them fails. -/
theorem forM_eq_error_iff {fault : ε} :
    forM xs f = .error fault ↔ ∃ front x back, xs = front ++ x :: back ∧
      (∀ y ∈ front, f y = .ok ()) ∧ f x = .error fault := by
  induction xs with
  | nil =>
    have hnil : ¬∃ front x back, ([] : List α) = front ++ x :: back ∧
        (∀ y ∈ front, f y = .ok ()) ∧ f x = .error fault := by simp
    exact iff_of_false nofun hnil
  | cons x xs ih =>
    rw [List.forM_cons, exists_split_cons_iff, ← ih]
    cases f x with
    | error e => simp [bind, Except.bind]
    | ok u => simp [bind, Except.bind]

end Checks

namespace Replay

variable {key : EntityKey} {corrections rescinds : List Entry}

/-- The events that count, in order, are a history that breaks no rule. -/
def Lawful (corrections : List Entry) : List Event → Prop
  | [] => True
  | first :: rest =>
    first.type = .create ∧
      first.kind.violation? (effectivePayload corrections first).withoutNulls = none ∧
      ∀ e ∈ rest, e.kind = first.kind ∧ e.type = .update ∧
        first.kind.Permits (effectivePayload corrections e)

/-! ## One event -/

theorem apply_none_eq_ok_iff {e : Event} {payload : Payload} {next : State} :
    apply key none e payload = .ok next ↔
      e.type = .create ∧ e.kind.violation? payload.withoutNulls = none ∧
        next = ⟨e.kind, payload.withoutNulls⟩ := by
  cases htype : e.type with
  | update => simp [apply, htype, bind, Except.bind]
  | create =>
    cases hviolation : e.kind.violation? payload.withoutNulls with
    | none => simp [apply, htype, bind, Except.bind, Payload.empty_merge, hviolation, eq_comm]
    | some violation => simp [apply, htype, bind, Except.bind, Payload.empty_merge, hviolation]

theorem apply_some_eq_ok_iff {state next : State} {e : Event} {payload : Payload} :
    apply key (some state) e payload = .ok next ↔
      e.kind = state.kind ∧ e.type = .update ∧
        e.kind.violation? (state.attributes.merge payload) = none ∧
        next = ⟨e.kind, state.attributes.merge payload⟩ := by
  by_cases hkind : state.kind = e.kind
  · cases htype : e.type with
    | create => simp [apply, htype, hkind, bind, Except.bind]
    | update =>
      cases hviolation : e.kind.violation? (state.attributes.merge payload) with
      | none => simp [apply, htype, hkind, bind, Except.bind, hviolation, eq_comm]
      | some violation => simp [apply, htype, hkind, bind, Except.bind, hviolation]
  · simp [apply, hkind, Ne.symm hkind, bind, Except.bind]

theorem apply_none_eq_error_iff {e : Event} {payload : Payload} {fault : LedgerError} :
    apply key none e payload = .error fault ↔
      e.type = .update ∧ fault = .invalidSequence key.entity (.updateFirst e.date) ∨
        e.type = .create ∧ ∃ violation, e.kind.violation? payload.withoutNulls = some violation ∧
          fault = .invalid (.brokenRule violation (some e.date)) := by
  cases htype : e.type with
  | update => simp [apply, htype, bind, Except.bind, eq_comm]
  | create =>
    cases hviolation : e.kind.violation? payload.withoutNulls with
    | none => simp [apply, htype, bind, Except.bind, Payload.empty_merge, hviolation]
    | some violation =>
      simp [apply, htype, bind, Except.bind, Payload.empty_merge, hviolation, eq_comm]

theorem apply_some_eq_error_iff {state : State} {e : Event} {payload : Payload}
    {fault : LedgerError} :
    apply key (some state) e payload = .error fault ↔
      e.kind ≠ state.kind ∧
          fault = .invalidSequence key.entity (.otherKind e.date e.kind state.kind) ∨
        e.kind = state.kind ∧ e.type = .create ∧
          fault = .invalidSequence key.entity (.secondCreate e.date) ∨
        e.kind = state.kind ∧ e.type = .update ∧
          ∃ violation, state.kind.violation? (state.attributes.merge payload) = some violation ∧
            fault = .invalid (.brokenRule violation (some e.date)) := by
  by_cases hkind : e.kind = state.kind
  · cases htype : e.type with
    | create => simp [apply, htype, hkind, bind, Except.bind, eq_comm]
    | update =>
      cases hviolation : state.kind.violation? (state.attributes.merge payload) with
      | none => simp [apply, htype, hkind, bind, Except.bind, hviolation]
      | some violation => simp [apply, htype, hkind, bind, Except.bind, hviolation, eq_comm]
  · simp [apply, hkind, Ne.symm hkind, bind, Except.bind, eq_comm]

/-- A state in order can be changed exactly by permitted updates of its kind. -/
theorem exists_apply_some_iff {state : State} {e : Event} {payload : Payload}
    (h : state.kind.violation? state.attributes = none) :
    (∃ next, apply key (some state) e payload = .ok next) ↔
      e.kind = state.kind ∧ e.type = .update ∧ state.kind.Permits payload := by
  simp only [apply_some_eq_ok_iff]
  constructor
  · rintro ⟨_, hkind, htype, hviolation, -⟩
    rw [hkind] at hviolation
    exact ⟨hkind, htype, (EntityKind.violation?_merge_eq_none_iff h).mp hviolation⟩
  · rintro ⟨hkind, htype, hpermits⟩
    have hviolation := (EntityKind.violation?_merge_eq_none_iff h).mpr hpermits
    rw [← hkind] at hviolation
    exact ⟨_, hkind, htype, hviolation, rfl⟩

/-- An event meets the same fate in all states of one kind that are in order. -/
theorem verdict_apply_congr {state state' : State} (hkind : state'.kind = state.kind)
    (h : state.kind.violation? state.attributes = none)
    (h' : state'.kind.violation? state'.attributes = none) (e : Event) (payload : Payload) :
    verdict (apply key (some state) e payload) = verdict (apply key (some state') e payload) := by
  rw [hkind] at h'
  apply verdict_congr
  intro fault
  rw [apply_some_eq_error_iff, apply_some_eq_error_iff, hkind,
    EntityKind.violation?_merge_congr h h']

/-! ## All events -/

theorem steps_cons_eq_ok_iff {current : Option State} {e : Event} {rest : List Event}
    {result : List Step} :
    steps key corrections current (e :: rest) = .ok result ↔
      ∃ next later, apply key current e (effectivePayload corrections e) = .ok next ∧
        steps key corrections (some next) rest = .ok later ∧
        result = ⟨e.date, next.attributes⟩ :: later := by
  rw [steps]
  cases apply key current e (effectivePayload corrections e) with
  | error fault => simp [bind, Except.bind]
  | ok next =>
    cases h : steps key corrections (some next) rest with
    | error fault => simp [bind, Except.bind, h]
    | ok later => simp [bind, Except.bind, h, eq_comm]

theorem steps_cons_eq_error_iff {current : Option State} {e : Event} {rest : List Event}
    {fault : LedgerError} :
    steps key corrections current (e :: rest) = .error fault ↔
      apply key current e (effectivePayload corrections e) = .error fault ∨
        ∃ next, apply key current e (effectivePayload corrections e) = .ok next ∧
          steps key corrections (some next) rest = .error fault := by
  rw [steps]
  cases apply key current e (effectivePayload corrections e) with
  | error fault' => simp [bind, Except.bind]
  | ok next => cases h : steps key corrections (some next) rest <;> simp [bind, Except.bind, h]

/-- Corrections matter only through the payloads that count for the events. -/
theorem steps_congr {corrections' : List Entry} {events : List Event}
    (h : ∀ e ∈ events, effectivePayload corrections e = effectivePayload corrections' e)
    (current : Option State) :
    steps key corrections current events = steps key corrections' current events := by
  induction events generalizing current with
  | nil => rfl
  | cons e rest ih =>
    obtain ⟨he, hrest⟩ := List.forall_mem_cons.mp h
    simp only [steps, he, ih hrest]

/-- Replay goes through a list of events part by part. -/
theorem exists_steps_of_append {current : Option State} {events events' : List Event}
    {result : List Step} (h : steps key corrections current (events ++ events') = .ok result) :
    ∃ front last back, steps key corrections current events = .ok front ∧
      steps key corrections last events' = .ok back ∧ result = front ++ back := by
  induction events generalizing current result with
  | nil => exact ⟨[], current, result, rfl, h, rfl⟩
  | cons e rest ih =>
    obtain ⟨next, later, happly, hlater, rfl⟩ := steps_cons_eq_ok_iff.mp h
    obtain ⟨front, last, back, hfront, hback, rfl⟩ := ih hlater
    exact ⟨_, last, back, steps_cons_eq_ok_iff.mpr ⟨next, front, happly, hfront, rfl⟩, hback, rfl⟩

/-- From a state in order, each event is checked as if it came directly after that state. -/
theorem verdict_steps_some (key : EntityKey) {state : State}
    (hstate : state.kind.violation? state.attributes = none) (events : List Event) :
    verdict (steps key corrections (some state) events) =
      forM events fun e => verdict (apply key (some state) e (effectivePayload corrections e)) := by
  -- An event that is accepted leads to a state in order of the same kind.
  induction events generalizing state with
  | nil => rfl
  | cons e rest ih =>
    rw [List.forM_cons, steps]
    cases happly : apply key (some state) e (effectivePayload corrections e) with
    | error fault => rfl
    | ok next =>
      obtain ⟨hkind, -, hviolation, rfl⟩ := apply_some_eq_ok_iff.mp happly
      have hrest := @ih ⟨e.kind, state.attributes.merge (effectivePayload corrections e)⟩ hviolation
      have hsame : ∀ x p, verdict (apply key (some ⟨e.kind, state.attributes.merge
          (effectivePayload corrections e)⟩) x p) = verdict (apply key (some state) x p) :=
        verdict_apply_congr hkind.symm hviolation hstate
      simp only [hsame] at hrest
      exact (verdict_map _ _).trans hrest

/-- From a state in order, replay goes on exactly through permitted updates of its kind. -/
theorem exists_steps_some_iff (key : EntityKey) (state : State) {events : List Event}
    (hstate : state.kind.violation? state.attributes = none) :
    (∃ result, steps key corrections (some state) events = .ok result) ↔
      ∀ e ∈ events, e.kind = state.kind ∧ e.type = .update ∧
        state.kind.Permits (effectivePayload corrections e) := by
  rw [← verdict_eq_ok_iff, verdict_steps_some key hstate, forM_eq_ok_iff]
  simp only [verdict_eq_ok_iff, exists_apply_some_iff hstate]

/-- Replay goes through exactly when the events are lawful. -/
theorem exists_steps_iff (key : EntityKey) {events : List Event} :
    (∃ result, steps key corrections none events = .ok result) ↔ Lawful corrections events := by
  cases events with
  | nil => simp [steps, Lawful]
  | cons first rest =>
    simp only [steps_cons_eq_ok_iff, apply_none_eq_ok_iff, Lawful]
    constructor
    · rintro ⟨_, next, later, ⟨htype, hviolation, rfl⟩, hlater, -⟩
      exact ⟨htype, hviolation, (exists_steps_some_iff key _ hviolation).mp ⟨later, hlater⟩⟩
    · rintro ⟨htype, hviolation, hrest⟩
      obtain ⟨later, hlater⟩ := (exists_steps_some_iff key
        ⟨first.kind, (effectivePayload corrections first).withoutNulls⟩ hviolation).mpr hrest
      exact ⟨_, _, later, ⟨htype, hviolation, rfl⟩, hlater, rfl⟩

theorem length_steps {current : Option State} {events : List Event} {result : List Step}
    (h : steps key corrections current events = .ok result) : result.length = events.length := by
  induction events generalizing current result with
  | nil =>
    cases h
    rfl
  | cons e rest ih =>
    obtain ⟨next, later, -, hlater, rfl⟩ := steps_cons_eq_ok_iff.mp h
    rw [List.length_cons, List.length_cons, ih hlater]

/-! ## Order of the events that count -/

theorem before_iff {a b : Event} :
    before a b ↔ a.date < b.date ∨ (a.date = b.date ∧ a.pos ≤ b.pos) := by
  simp [before]

theorem before_total (a b : Event) : before a b || before b a := by
  rw [Bool.or_eq_true, before_iff, before_iff]
  rcases lt_trichotomy a.date b.date with h | h | h
  · exact .inl (.inl h)
  · rcases Nat.le_total a.pos b.pos with hpos | hpos
    · exact .inl (.inr ⟨h, hpos⟩)
    · exact .inr (.inr ⟨h.symm, hpos⟩)
  · exact .inr (.inl h)

theorem before_trans {a b c : Event} (hab : before a b) (hbc : before b c) : before a c := by
  rw [before_iff] at hab hbc ⊢
  rcases hab with hab | ⟨hab, hpos⟩
  · rcases hbc with hbc | ⟨hbc, -⟩
    · exact .inl (hab.trans hbc)
    · exact .inl (hbc ▸ hab)
  · rcases hbc with hbc | ⟨hbc, hpos'⟩
    · exact .inl (hab ▸ hbc)
    · exact .inr ⟨hab.trans hbc, Nat.le_trans hpos hpos'⟩

theorem mem_survivors_iff {events : List Event} {rescinds : List Entry} {e : Event} :
    e ∈ survivors events rescinds ↔ e ∈ events ∧ ∀ r ∈ rescinds, r.date ≠ e.date := by
  simp [survivors, isRescinded]

theorem pairwise_survivors (events : List Event) (rescinds : List Entry) :
    (survivors events rescinds).Pairwise fun a b => before a b :=
  pairwise_sortBy before_total (fun _ _ _ => before_trans) _

/-- A history stays lawful without some of its events, as long as the creating one is kept. -/
theorem Lawful.filter {events : List Event} {p : Event → Bool} (h : Lawful corrections events)
    (hkept : ∀ e ∈ events, e.type = .create → p e) : Lawful corrections (events.filter p) := by
  cases events with
  | nil => exact h
  | cons first rest =>
    obtain ⟨htype, hviolation, hrest⟩ := h
    rw [List.filter_cons_of_pos (hkept first List.mem_cons_self htype)]
    refine ⟨htype, hviolation, ?_⟩
    intro e he
    exact hrest e (List.mem_filter.mp he).1

/-- Where one event is earlier than all others, it comes first. -/
theorem exists_eq_cons_of_perm {events rest : List Event} {first : Event}
    (hsorted : events.Pairwise fun a b => before a b) (hperm : events.Perm (first :: rest))
    (hlt : ∀ e ∈ rest, first.date < e.date) :
    ∃ rest', events = first :: rest' ∧ rest'.Perm rest := by
  cases events with
  | nil =>
    have hlen := hperm.length_eq
    simp at hlen
  | cons e tail =>
    have hmem : e ∈ first :: rest := hperm.mem_iff.mp List.mem_cons_self
    rcases List.mem_cons.mp hmem with rfl | he
    · exact ⟨tail, rfl, (List.perm_cons e).mp hperm⟩
    · exfalso
      have hfirst : first ∈ e :: tail := hperm.mem_iff.mpr List.mem_cons_self
      have hdate := hlt e he
      rcases List.mem_cons.mp hfirst with rfl | hfirst
      · exact lt_irrefl _ hdate
      · rcases before_iff.mp (List.rel_of_pairwise_cons hsorted hfirst) with hbefore | ⟨hsame, -⟩
        · exact lt_asymm hdate hbefore
        · exact hdate.ne' hsame

end Replay

end DatedLedger
