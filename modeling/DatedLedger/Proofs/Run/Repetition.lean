import DatedLedger.Proofs.Run.Soundness

/-!
# Repeated commands

A command that was recorded once is recognised by its identifier ever after,
because its row stays where it is and reads back as the entry that was answered.
The same command is then answered with that entry, and another command under the
same identifier is refused.
-/

namespace DatedLedger

namespace Store

variable {s s' t : Store} {key : EntityKey} {date : Date}

/-! ## Look-ups along a run -/

theorem nextPosition_lt (s : Store) : s.nextPosition < 2 ^ 64 :=
  Nat.mod_lt _ (by decide)

/-- The first row that satisfies a condition is found wherever rows are added behind it. -/
theorem find?_of_prefix_append {ρ : Type} {q : ρ → Bool} {rows rows' : List ρ} {row : ρ}
    (hnone : ∀ r ∈ rows, ¬q r) (hrow : q row) (hbegins : rows ++ [row] <+: rows') :
    rows'.find? q = some row := by
  have hfind : (rows ++ [row]).find? q = some row := by
    rw [List.find?_append, List.find?_eq_none.mpr hnone, List.find?_cons_of_pos hrow]
    rfl
  exact hbegins.find?_eq_some hfind

theorem entry?_of_prefix_append {rows rows' : List LogRow} {r : Entry}
    (hnone : entry? rows (hasId r.id) = .ok none) (hbegins : rows ++ [r.row] <+: rows')
    (hread : r.row.entry = .ok r) : entry? rows' (hasId r.id) = .ok (some r) := by
  have hrow : hasId r.id r.row := hasId_iff.mpr rfl
  have hfind := find?_of_prefix_append (entry?_eq_none_iff.mp hnone) hrow hbegins
  exact entry?_eq_some_iff.mpr ⟨r.row, hfind, hread⟩

theorem eventById_of_prefix_append {r : Event} (hnone : s.eventById r.id = .ok none)
    (hbegins : s.events ++ [r.row] <+: t.events) (hread : r.row.event = .ok r) :
    t.eventById r.id = .ok (some r) := by
  have hrow : hasId r.id r.row.toLogRow := hasId_iff.mpr rfl
  have hfind := find?_of_prefix_append (event?_eq_none_iff.mp hnone) hrow hbegins
  exact event?_eq_some_iff.mpr ⟨r.row, hfind, hread⟩

theorem Extends.eventOn (h : s.Extends t) {e : Event} (hon : s.eventOn key date = .ok (some e)) :
    t.eventOn key date = .ok (some e) := by
  obtain ⟨row, hfind, hread⟩ := event?_eq_some_iff.mp hon
  exact event?_eq_some_iff.mpr ⟨row, h.events.find?_eq_some hfind, hread⟩

theorem Records.events_eq {r : Event} (h : s.Records (.event r) s') :
    s'.events = s.events ++ [r.row] := by
  obtain ⟨-, timeline, last, -, rfl⟩ := h
  rfl

theorem Records.corrections_eq {r : Entry} (h : s.Records (.correction r) s') :
    s'.corrections = s.corrections ++ [r.row] := by
  obtain ⟨-, timeline, last, -, rfl⟩ := h
  rfl

theorem Records.rescinds_eq {r : Entry} (h : s.Records (.rescind r) s') :
    s'.rescinds = s.rescinds ++ [r.row] := by
  obtain ⟨-, timeline, last, -, rfl⟩ := h
  rfl

/-- In a sound store the rescind of a date, if there is one, can be read. -/
theorem Sound.rescindOn_cases (hs : s.Sound) (key : EntityKey) (date : Date) :
    s.rescindOn key date = .ok none ∨ ∃ r, s.rescindOn key date = .ok (some r) := by
  cases hfind : s.rescinds.find? (isOn key date) with
  | none => exact .inl (entry?_eq_none_iff.mpr (List.find?_eq_none.mp hfind))
  | some row =>
    right
    have hrow := List.mem_of_find?_eq_some hfind
    have hkey := (isOn_iff.mp (List.find?_some hfind)).1
    obtain ⟨h, hreads⟩ := hs.exists_reads key
    obtain ⟨r, -, hread⟩ := hreads.exists_entry .rescinds hrow hkey
    exact ⟨r, entry?_eq_some_iff.mpr ⟨row, hfind, hread⟩⟩

end Store

namespace Command

theorem isEntry_entry (c : Command) (pos : Position) (now : Nat) : c.isEntry (c.entry pos now) := by
  simp [isEntry, entry, Payload.same]

theorem entry_row_entry {c : Command} {pos : Position} {now : Nat}
    (hpayload : Payload.parse c.payload.text = .ok c.payload) (hpos : pos < 2 ^ 64)
    (hnow : now < 2 ^ 64) : (c.entry pos now).row.entry = .ok (c.entry pos now) :=
  Entry.entry_row_eq_ok_iff.mpr ⟨c.payload, hpayload, (Entry.stored_eq_self hpos hnow).symm⟩

end Command

namespace Submission

theorem isEvent_event (c : Submission) (pos : Position) (now : Nat) :
    c.isEvent (c.event pos now) := by
  simp [isEvent, event, Command.isEntry_entry]

theorem event_row_event {c : Submission} {pos : Position} {now : Nat}
    (hpayload : Payload.parse c.payload.text = .ok c.payload) (hpos : pos < 2 ^ 64)
    (hnow : now < 2 ^ 64) : (c.event pos now).row.event = .ok (c.event pos now) :=
  Event.event_row_eq_ok_iff.mpr ⟨c.payload, hpayload, (Event.stored_eq_self hpos hnow).symm⟩

end Submission

namespace Session

open Store

variable {s s' t : Store} {now : Nat}

/-! ## Recognition -/

/-- An event that was recorded is found by its identifier ever after. -/
theorem eventById_of_appended {c : Submission} {r : Event}
    (hpayload : Payload.parse c.payload.text = .ok c.payload) (hnow : now < 2 ^ 64)
    (h : submit c now s = .ok (.appended r) s') (ht : s'.Extends t) :
    t.eventById c.id = .ok (some r) ∧ c.isEvent r := by
  obtain ⟨-, hnone, -, rfl, u, hu, -, hrec⟩ := submit_eq_appended_iff.mp h
  have hread := Submission.event_row_event hpayload s.nextPosition_lt hnow
  have hbegins : s.events ++ [(c.event s.nextPosition now).row] <+: t.events := by
    rw [← hu.logs_eq.1, ← hrec.events_eq]
    exact ht.events
  exact ⟨eventById_of_prefix_append (r := c.event s.nextPosition now) hnone hbegins hread,
    c.isEvent_event _ _⟩

/-- A submission under the identifier of an event that it asks for is answered with that event. -/
theorem submit_answers {c : Submission} {r : Event} (hblank : c.blankField? = none)
    (hfound : s.eventById c.id = .ok (some r)) (hsame : c.isEvent r) : (submit c now).Answers s r :=
  transaction_of_eq_ok (submit_eq_ok_iff.mpr ⟨hblank, .inl ⟨r, hfound, hsame, rfl, rfl⟩⟩)

/-- What a repeated submission meets: the event is found, and all other events of its identifier
are refused. -/
theorem submit_repeated {c : Submission} {r : Event}
    (hpayload : Payload.parse c.payload.text = .ok c.payload) (hnow : now < 2 ^ 64)
    (h : submit c now s = .ok (.appended r) s') (ht : s'.Extends t) (later : Nat) :
    (submit c later).Answers t r ∧
      ∀ d : Submission, d.id = c.id → ¬d.isEvent r →
        (∃ e, (submit d later).FailsWith t e) ∧
        (d.blankField? = none → (submit d later).FailsWith t (.reusedKey d.id)) := by
  have hblank := (submit_eq_appended_iff.mp h).1
  obtain ⟨hfound, hsame⟩ := eventById_of_appended hpayload hnow h ht
  constructor
  · exact submit_answers hblank hfound hsame
  · intro d hid hother
    rw [← hid] at hfound
    constructor
    · apply exists_failsWith
      intro out t' hout
      obtain ⟨-, ⟨stored, hstored, hsame, -, -⟩ | ⟨hstored, -⟩⟩ := submit_eq_ok_iff.mp hout
      · rw [hfound] at hstored
        cases hstored
        exact hother hsame
      · rw [hfound] at hstored
        cases hstored
    · intro hfields
      exact failsWith_of_eq_error (submit_eq_reusedKey hfields hfound hother)

/-- What a repeated correction meets; where its date has been rescinded, that is said instead. -/
theorem correct_repeated {c : Command} {r : Entry}
    (hpayload : Payload.parse c.payload.text = .ok c.payload) (hnow : now < 2 ^ 64)
    (h : correct c now s = .ok (.appended r) s') (ht : s'.Extends t) (hsound : t.Sound)
    (later : Nat) :
    ((∀ row ∈ t.rescinds, ¬isOn c.key c.date row) → (correct c later).Answers t r) ∧
      ((∃ row ∈ t.rescinds, isOn c.key c.date row) →
        (correct c later).FailsWith t (.alreadyRescinded c.key.entity c.date)) ∧
      ∀ d : Command, d.id = c.id → ¬d.isEntry r → ∃ e, (correct d later).FailsWith t e := by
  obtain ⟨hblank, ⟨target, hon⟩, -, hnone, -, -, rfl, hrec⟩ := correct_eq_appended_iff.mp h
  have hread := Command.entry_row_entry hpayload s.nextPosition_lt hnow
  have hbegins : s.corrections ++ [(c.entry s.nextPosition now).row] <+: t.corrections := by
    rw [← hrec.corrections_eq]
    exact ht.corrections
  have hfound : t.correctionById c.id = .ok (some (c.entry s.nextPosition now)) :=
    entry?_of_prefix_append (r := c.entry s.nextPosition now) hnone hbegins hread
  have htarget : t.eventOn c.key c.date = .ok (some target) := by
    refine Extends.eventOn ?_ hon
    have hs : s.Extends s' := Extends.of_logs_eq hrec.logs_eq.symm (Extends.add s _)
    exact hs.trans ht
  refine ⟨?_, ?_, ?_⟩
  · intro hfree
    apply transaction_of_eq_ok
    exact correct_eq_ok_iff.mpr ⟨hblank, ⟨target, htarget⟩, entry?_eq_none_iff.mpr hfree,
      .inl ⟨_, hfound, c.isEntry_entry _ _, rfl, rfl⟩⟩
  · rintro ⟨row, hrow, hrowOn⟩
    -- The date is looked at before the identifier, so the stored correction is not reached.
    apply failsWith_of_eq_error
    rcases hsound.rescindOn_cases c.key c.date with hfree | ⟨stored, hstored⟩
    · exact absurd hrowOn (entry?_eq_none_iff.mp hfree row hrow)
    · exact correct_eq_alreadyRescinded hblank htarget hstored
  · intro d hid hother
    rw [← hid] at hfound
    apply exists_failsWith
    intro out t' hout
    obtain ⟨-, -, -, ⟨stored, hstored, hsame, -, -⟩ | ⟨hstored, -⟩⟩ := correct_eq_ok_iff.mp hout
    · rw [hfound] at hstored
      cases hstored
      exact hother hsame
    · rw [hfound] at hstored
      cases hstored

theorem rescind_repeated {c : Command} {r : Entry}
    (hpayload : Payload.parse c.payload.text = .ok c.payload) (hnow : now < 2 ^ 64)
    (h : rescind c now s = .ok (.appended r) s') (ht : s'.Extends t) (later : Nat) :
    (rescind c later).Answers t r ∧
      ∀ d : Command, d.id = c.id → ¬d.isEntry r → ∃ e, (rescind d later).FailsWith t e := by
  obtain ⟨hblank, ⟨target, hon, htype⟩, hnone, -, -, rfl, hrec⟩ := rescind_eq_appended_iff.mp h
  have hread := Command.entry_row_entry hpayload s.nextPosition_lt hnow
  have hbegins : s.rescinds ++ [(c.entry s.nextPosition now).row] <+: t.rescinds := by
    rw [← hrec.rescinds_eq]
    exact ht.rescinds
  have hfound : t.rescindById c.id = .ok (some (c.entry s.nextPosition now)) :=
    entry?_of_prefix_append (r := c.entry s.nextPosition now) hnone hbegins hread
  have htarget : t.eventOn c.key c.date = .ok (some target) := by
    refine Extends.eventOn ?_ hon
    have hs : s.Extends s' := Extends.of_logs_eq hrec.logs_eq.symm (Extends.add s _)
    exact hs.trans ht
  constructor
  · apply transaction_of_eq_ok
    exact rescind_eq_ok_iff.mpr ⟨hblank, target, htarget, htype,
      .inl ⟨_, hfound, c.isEntry_entry _ _, rfl, rfl⟩⟩
  · intro d hid hother
    rw [← hid] at hfound
    apply exists_failsWith
    intro out t' hout
    obtain ⟨-, other, -, -, ⟨stored, hstored, hsame, -, -⟩ | ⟨hstored, -⟩⟩ :=
      rescind_eq_ok_iff.mp hout
    · rw [hfound] at hstored
      cases hstored
      exact hother hsame
    · rw [hfound] at hstored
      cases hstored

end Session

namespace Store

/-- A command that was recorded is answered with the same entry after any further requests, and
nothing changes; only a correction of a date that was rescinded meanwhile is told so.  Another
command under the same identifier fails and changes nothing. -/
theorem repeated_after (before rest : List Request) {now : Nat} (hnow : now < 2 ^ 64)
    (later : Nat) :
    (∀ (c : Submission) (r : Event) (s : Store),
      Payload.parse c.payload.text = .ok c.payload →
      (Session.submit c now).transaction (empty.after before) = .ok (.appended r) s →
      (Session.submit c later).Answers (s.after rest) r ∧
        ∀ d : Submission, d.id = c.id → ¬d.isEvent r →
          (∃ e, (Session.submit d later).FailsWith (s.after rest) e) ∧
          (d.blankField? = none →
            (Session.submit d later).FailsWith (s.after rest) (.reusedKey d.id))) ∧
    (∀ (c : Command) (r : Entry) (s : Store),
      Payload.parse c.payload.text = .ok c.payload →
      (Session.correct c now).transaction (empty.after before) = .ok (.appended r) s →
      ((∀ row ∈ (s.after rest).rescinds, ¬(row.key = c.key ∧ row.date = c.date.text)) →
        (Session.correct c later).Answers (s.after rest) r) ∧
      ((∃ row ∈ (s.after rest).rescinds, row.key = c.key ∧ row.date = c.date.text) →
        (Session.correct c later).FailsWith (s.after rest)
          (.alreadyRescinded c.key.entity c.date)) ∧
      ∀ d : Command, d.id = c.id → ¬d.isEntry r →
        ∃ e, (Session.correct d later).FailsWith (s.after rest) e) ∧
    ∀ (c : Command) (r : Entry) (s : Store),
      Payload.parse c.payload.text = .ok c.payload →
      (Session.rescind c now).transaction (empty.after before) = .ok (.appended r) s →
      (Session.rescind c later).Answers (s.after rest) r ∧
        ∀ d : Command, d.id = c.id → ¬d.isEntry r →
          ∃ e, (Session.rescind d later).FailsWith (s.after rest) e := by
  refine ⟨?_, ?_, ?_⟩
  · intro c r s hpayload h
    exact Session.submit_repeated hpayload hnow (Session.transaction_eq_ok_iff.mp h)
      (Extends.after s rest) later
  · intro c r s hpayload h
    have happended := Session.transaction_eq_ok_iff.mp h
    have hrun : (Request.correct c now).run (empty.after before) = s :=
      Session.commit_of_eq_ok happended
    have hsound : (s.after rest).Sound := by
      rw [← hrun]
      exact ((sound_after before).run _).after rest
    simp only [← isOn_iff]
    exact Session.correct_repeated hpayload hnow happended (Extends.after s rest) hsound later
  · intro c r s hpayload h
    exact Session.rescind_repeated hpayload hnow (Session.transaction_eq_ok_iff.mp h)
      (Extends.after s rest) later

theorem repeated_after_sample :
    (∃ r s, (Session.submit Sample.created 1).transaction (empty.after []) =
        .ok (.appended r) s ∧
      (Session.submit Sample.created 9).Answers (s.after [.submit Sample.updated 2]) r) ∧
    (∃ r s, (Session.correct Sample.corrected 3).transaction
        (empty.after [.submit Sample.created 1, .submit Sample.updated 2]) =
        .ok (.appended r) s ∧
      ∀ d : Command, d.id = Sample.corrected.id → ¬d.isEntry r →
        ∃ e, (Session.correct d 9).FailsWith (s.after [.rescind Sample.rescinded 4]) e) ∧
    ∃ r s, (Session.rescind Sample.rescinded 4).transaction
        (empty.after [.submit Sample.created 1, .submit Sample.updated 2]) =
        .ok (.appended r) s ∧
      (Session.rescind Sample.rescinded 9).Answers (s.after [.correct Sample.corrected 5]) r := by
  have hsubmit : (Session.submit Sample.created 1).Appends (empty.after []) := by decide +kernel
  have hcorrect : (Session.correct Sample.corrected 3).Appends
      (empty.after [.submit Sample.created 1, .submit Sample.updated 2]) := by decide +kernel
  have hrescind : (Session.rescind Sample.rescinded 4).Appends
      (empty.after [.submit Sample.created 1, .submit Sample.updated 2]) := by decide +kernel
  obtain ⟨r, s, h⟩ := hsubmit
  obtain ⟨r', s', h'⟩ := hcorrect
  obtain ⟨r'', s'', h''⟩ := hrescind
  refine ⟨⟨r, s, h, ?_⟩, ⟨r', s', h', ?_⟩, ⟨r'', s'', h'', ?_⟩⟩
  · exact ((repeated_after _ _ (by decide) 9).1 Sample.created r s Sample.parse_payload h).1
  · exact ((repeated_after _ _ (by decide) 9).2.1 Sample.corrected r' s' Sample.parse_payload
      h').2.2
  · exact ((repeated_after _ _ (by decide) 9).2.2 Sample.rescinded r'' s'' Sample.parse_payload
      h'').1

end Store

end DatedLedger
