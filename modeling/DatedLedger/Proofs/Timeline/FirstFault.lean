import DatedLedger.Proofs.Timeline.Counting

/-!
# The first fault

Replay checks the state after each event, whereas what is wrong with a history can be
said of one event at a time.  The first event has to create the entity in a state in
order, and each later one has to be an update of its kind that the rules permit.
Replay succeeds exactly if this is so, and otherwise it fails for the first event of
which it is not.
-/

namespace DatedLedger

namespace Replay

variable {key : EntityKey} {corrections : List Entry} {state : State} {e first : Event}
  {p : Payload} {fault : LedgerError} {rest : List Event}

/-! ## One event -/

/-- What is wrong with an event as the one that creates its entity. -/
inductive FoundingFault (key : EntityKey) (e : Event) (p : Payload) : LedgerError → Prop
  | updateFirst (htype : e.type = .update) :
      FoundingFault key e p (.invalidSequence key.entity (.updateFirst e.date))
  | brokenRule {violation : Violation} (htype : e.type = .create)
      (hviolation : e.kind.violation? p.withoutNulls = some violation) :
      FoundingFault key e p (.invalid (.brokenRule violation (some e.date)))

/-- What is wrong with an event as a change of an entity of a kind.  A wrong kind counts before a
second creation, and that before a broken rule. -/
inductive ChangeFault (key : EntityKey) (kind : EntityKind) (e : Event) (p : Payload) :
    LedgerError → Prop
  | otherKind (hkind : e.kind ≠ kind) :
      ChangeFault key kind e p (.invalidSequence key.entity (.otherKind e.date e.kind kind))
  | secondCreate (hkind : e.kind = kind) (htype : e.type = .create) :
      ChangeFault key kind e p (.invalidSequence key.entity (.secondCreate e.date))
  | brokenRule {violation : Violation} (hkind : e.kind = kind) (htype : e.type = .update)
      (hviolation : kind.changeViolation? p = some violation) :
      ChangeFault key kind e p (.invalid (.brokenRule violation (some e.date)))

theorem foundingFault_iff : FoundingFault key e p fault ↔ apply key none e p = .error fault := by
  rw [apply_none_eq_error_iff]
  constructor
  · rintro (htype | ⟨htype, hviolation⟩)
    · exact .inl ⟨htype, rfl⟩
    · exact .inr ⟨htype, _, hviolation, rfl⟩
  · rintro (⟨htype, rfl⟩ | ⟨htype, violation, hviolation, rfl⟩)
    · exact .updateFirst htype
    · exact .brokenRule htype hviolation

/-- What is wrong with a change is why it is refused in any state in order. -/
theorem changeFault_iff (h : state.kind.violation? state.attributes = none) :
    ChangeFault key state.kind e p fault ↔ apply key (some state) e p = .error fault := by
  rw [apply_some_eq_error_iff, EntityKind.violation?_merge h]
  constructor
  · rintro (hkind | ⟨hkind, htype⟩ | ⟨hkind, htype, hviolation⟩)
    · exact .inl ⟨hkind, rfl⟩
    · exact .inr (.inl ⟨hkind, htype, rfl⟩)
    · exact .inr (.inr ⟨hkind, htype, _, hviolation, rfl⟩)
  · rintro (⟨hkind, rfl⟩ | ⟨hkind, htype, rfl⟩ | ⟨hkind, htype, violation, hviolation, rfl⟩)
    · exact .otherKind hkind
    · exact .secondCreate hkind htype
    · exact .brokenRule hkind htype hviolation

/-! ## All events -/

theorem steps_some_eq_error_iff (h : state.kind.violation? state.attributes = none)
    {events : List Event} :
    steps key corrections (some state) events = .error fault ↔
      ∃ front e back, events = front ++ e :: back ∧
        (∀ x ∈ front, ∀ fault', ¬ChangeFault key state.kind x (effectivePayload corrections x)
          fault') ∧
        ChangeFault key state.kind e (effectivePayload corrections e) fault := by
  rw [← verdict_eq_error_iff, verdict_steps_some key h, forM_eq_error_iff]
  simp only [verdict_eq_ok_iff_forall_ne, verdict_eq_error_iff, changeFault_iff h, ne_eq]

end Replay

namespace History

variable {h : History} {key : EntityKey} {first e : Event} {rest : List Event}
  {fault : LedgerError}

/-! ## Faults of a history -/

/-- What is wrong with an event of a history: the first one that counts has to create the entity,
and all others have to change it. -/
def Fault (h : History) (key : EntityKey) (first e : Event) (fault : LedgerError) : Prop :=
  ∃ p, h.Sets e p ∧ (e = first ∧ Replay.FoundingFault key e p fault ∨
    e ≠ first ∧ Replay.ChangeFault key first.kind e p fault)

/-- The events that count are one creation in order and updates that the rules permit. -/
structure Valid (h : History) (first : Event) : Prop where
  kinds : ∀ e, h.Counts e → e.kind = first.kind
  created : first.type = .create
  updates : ∀ e, h.Counts e → e ≠ first → e.type = .update
  founding : ∀ p, h.Sets first p → first.kind.violation? p.withoutNulls = none
  permitted : ∀ e, h.Counts e → e ≠ first → ∀ p, h.Sets e p → first.kind.Permits p

theorem fault_self_iff : h.Fault key first first fault ↔
    Replay.FoundingFault key first (Replay.effectivePayload h.corrections first) fault := by
  simp [Fault, sets_iff]

theorem fault_iff_of_ne (hne : e ≠ first) : h.Fault key first e fault ↔
    Replay.ChangeFault key first.kind e (Replay.effectivePayload h.corrections e) fault := by
  simp [Fault, sets_iff, hne]

/-- Events that are replayed one after another fail as the first of them that is at fault. -/
theorem steps_eq_error_iff (hother : ∀ x ∈ rest, x ≠ first) :
    Replay.steps key h.corrections none (first :: rest) = .error fault ↔
      ∃ front e back, first :: rest = front ++ e :: back ∧
        (∀ x ∈ front, ∀ fault', ¬h.Fault key first x fault') ∧ h.Fault key first e fault := by
  -- Once the first event has created the entity, only its kind matters for those after it.
  have hrest : (∃ front e back, rest = front ++ e :: back ∧
        (∀ x ∈ front, ∀ fault', ¬h.Fault key first x fault') ∧ h.Fault key first e fault) ↔
      ∃ front e back, rest = front ++ e :: back ∧
        (∀ x ∈ front, ∀ fault', ¬Replay.ChangeFault key first.kind x
          (Replay.effectivePayload h.corrections x) fault') ∧
        Replay.ChangeFault key first.kind e (Replay.effectivePayload h.corrections e) fault := by
    refine exists_split_congr ?_ ?_
    · intro x hx
      simp only [fault_iff_of_ne (hother x hx)]
    · intro x hx
      exact fault_iff_of_ne (hother x hx)
  rw [Replay.steps_cons_eq_error_iff, exists_split_cons_iff, hrest]
  simp only [fault_self_iff, Replay.foundingFault_iff]
  cases happly : Replay.apply key none first (Replay.effectivePayload h.corrections first) with
  | error fault' => simp
  | ok next =>
    obtain ⟨-, hviolation, rfl⟩ := Replay.apply_none_eq_ok_iff.mp happly
    simp only [reduceCtorEq, false_or, Except.ok.injEq, exists_eq_left', not_false_eq_true,
      implies_true, true_and]
    exact Replay.steps_some_eq_error_iff hviolation

/-! ## The outcome of replay -/

/-- The events that count are lawful exactly if there are none, or if they are valid with the first
of them as the creating one. -/
theorem lawful_survivors_iff (hpos : (h.events.map fun e => e.pos).Nodup) :
    Replay.Lawful h.corrections (Replay.survivors h.events h.rescinds) ↔
      (∀ e, ¬h.Counts e) ∨ ∃ first, h.First first ∧ h.Valid first := by
  cases hlisted : Replay.survivors h.events h.rescinds with
  | nil =>
    have hnone : ∀ e, ¬h.Counts e := by simp [counts_iff, hlisted]
    exact iff_of_true trivial (.inl hnone)
  | cons first rest =>
    have hcounts := counts_iff_of_eq_cons hlisted
    have hfirst : ∀ x, h.First x ↔ x = first := fun x => first_iff_of_eq_cons hlisted hpos
    constructor
    · rintro ⟨htype, hviolation, hrest⟩
      have hothers : ∀ e, h.Counts e → e ≠ first → e ∈ rest :=
        fun e he hne => ((hcounts e).mp he).resolve_left hne
      refine .inr ⟨first, (hfirst first).mpr rfl, ?_, htype, ?_, ?_, ?_⟩
      · intro e he
        rcases (hcounts e).mp he with rfl | hmem
        · rfl
        · exact (hrest e hmem).1
      · intro e he hne
        exact (hrest e (hothers e he hne)).2.1
      · intro p hp
        rw [sets_iff.mp hp]
        exact hviolation
      · intro e he hne p hp
        rw [sets_iff.mp hp]
        exact (hrest e (hothers e he hne)).2.2
    · rintro (hnone | ⟨x, hx, hvalid⟩)
      · exact absurd ((hcounts first).mpr (.inl rfl)) (hnone first)
      · obtain rfl := (hfirst x).mp hx
        refine ⟨hvalid.created, hvalid.founding _ (sets_iff.mpr rfl), ?_⟩
        intro e hmem
        have he := (hcounts e).mpr (.inr hmem)
        have hne := ne_of_eq_cons hlisted hpos e hmem
        exact ⟨hvalid.kinds e he, hvalid.updates e he hne,
          hvalid.permitted e he hne _ (sets_iff.mpr rfl)⟩

theorem replay_eq_error_iff (hpos : (h.events.map fun e => e.pos).Nodup) :
    replay key h.events h.corrections h.rescinds = .error fault ↔
      ∃ first e, h.First first ∧ h.Counts e ∧ h.Fault key first e fault ∧
        ∀ x, h.Counts x → x.Precedes e → ∀ fault', ¬h.Fault key first x fault' := by
  have hsteps : verdict (replay key h.events h.corrections h.rescinds) =
      verdict (Replay.steps key h.corrections none (Replay.survivors h.events h.rescinds)) :=
    verdict_map _ _
  rw [← verdict_eq_error_iff, hsteps, verdict_eq_error_iff]
  have hsorted := pairwise_precedes hpos
  cases hlisted : Replay.survivors h.events h.rescinds with
  | nil =>
    refine iff_of_false nofun ?_
    rintro ⟨first, -, hfirst, -⟩
    have hmem := counts_iff.mp hfirst.counts
    rw [hlisted] at hmem
    cases hmem
  | cons first rest =>
    have hfirst : ∀ x, h.First x ↔ x = first := fun x => first_iff_of_eq_cons hlisted hpos
    have hplace : ∀ e (p : Event → Prop), (∃ front back, first :: rest = front ++ e :: back ∧
        ∀ x ∈ front, p x) ↔ h.Counts e ∧ ∀ x, h.Counts x → x.Precedes e → p x := by
      intro e p
      simp only [counts_iff, ← hlisted]
      exact exists_split_at_iff (fun _ _ => Event.Precedes.asymm) hsorted
    rw [steps_eq_error_iff (ne_of_eq_cons hlisted hpos)]
    constructor
    · rintro ⟨front, e, back, hsplit, hfront, hfault⟩
      obtain ⟨he, hearlier⟩ := (hplace e _).mp ⟨front, back, hsplit, hfront⟩
      exact ⟨first, e, (hfirst first).mpr rfl, he, hfault, hearlier⟩
    · rintro ⟨x, e, hx, he, hfault, hearlier⟩
      obtain rfl := (hfirst x).mp hx
      obtain ⟨front, back, hsplit, hfront⟩ := (hplace e _).mpr ⟨he, hearlier⟩
      exact ⟨front, e, back, hsplit, hfront, hfault⟩

/-- Replay succeeds exactly on histories without events that count and on valid ones.  Otherwise it
fails with what is wrong with the first event at fault, and a broken rule is reported with the date
of that event. -/
theorem replay_fails_at_first_fault (h : History) (key : EntityKey)
    (hpos : (h.events.map fun e => e.pos).Nodup) :
    ((∃ timeline, replay key h.events h.corrections h.rescinds = .ok timeline) ↔
      (∀ e, ¬h.Counts e) ∨ ∃ first, h.First first ∧ h.Valid first) ∧
    (∀ fault, replay key h.events h.corrections h.rescinds = .error fault ↔
      ∃ first e, h.First first ∧ h.Counts e ∧ h.Fault key first e fault ∧
        ∀ x, h.Counts x → x.Precedes e → ∀ fault', ¬h.Fault key first x fault') ∧
    ∀ first e reason, h.Fault key first e (.invalid reason) →
      ∃ violation, reason = .brokenRule violation (some e.date) ∧
        reason.message = violation.message ++ " after event on " ++ e.date.text := by
  refine ⟨(exists_replay_iff key).trans (lawful_survivors_iff hpos),
    fun fault => replay_eq_error_iff hpos, ?_⟩
  rintro first e reason ⟨p, -, ⟨-, hfault⟩ | ⟨-, hfault⟩⟩
  · cases hfault with
    | brokenRule _ _ => exact ⟨_, rfl, rfl⟩
  · cases hfault with
    | brokenRule _ _ _ => exact ⟨_, rfl, rfl⟩

/-- The update to a status that does not exist is reported, not the creation after it. -/
theorem replay_fails_at_first_fault_sample :
    ∃ first e violation, Sample.faulty.First first ∧ Sample.faulty.Counts e ∧
      e.date = Sample.day 19 ∧ Sample.faulty.Fault ⟨"acme", "desk-7"⟩ first e
        (.invalid (.brokenRule violation (some e.date))) := by
  obtain ⟨-, hfails, hnamed⟩ :=
    replay_fails_at_first_fault Sample.faulty ⟨"acme", "desk-7"⟩ (by decide)
  have hreplay : replay ⟨"acme", "desk-7"⟩ Sample.faulty.events Sample.faulty.corrections
      Sample.faulty.rescinds = .error (.invalid (.brokenRule (.invalid .assignment "status"
        (.str "gone") (.oneOf ["active", "inactive", "leave"])) (some (Sample.day 19)))) := by rfl
  obtain ⟨first, e, hfirst, he, hfault, -⟩ := (hfails _).mp hreplay
  obtain ⟨violation, hreason, -⟩ := hnamed first e _ hfault
  obtain ⟨-, hdate⟩ := InvalidArgument.brokenRule.inj hreason
  exact ⟨first, e, violation, hfirst, he, (Option.some.inj hdate).symm, hreason ▸ hfault⟩

end History

end DatedLedger
