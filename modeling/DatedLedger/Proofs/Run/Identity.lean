import DatedLedger.Proofs.Run.Acceptance
import DatedLedger.Proofs.Run.Repetition

/-!
# Under which identity submissions succeed

A submission that succeeds finds its entity registered with the kind that it names.
With the owning key it is different: that is compared with the registered one where
a submission is recorded and where its date already carries its event, but an event
that is found by its identifier is answered whatever owning key is named.
-/

namespace DatedLedger

namespace Store

variable {s s' t : Store} {a : AuditEntry} {c : Submission} {head : Head}

/-! ## The registry along a mutation -/

/-- Recording an entry leaves kind and owning key of its entity as they are. -/
theorem Records.exists_head (hrec : t.Records a s')
    (hhead : t.head a.entry.key = .ok (some head)) :
    ∃ head', s'.head a.entry.key = .ok (some head') ∧ head'.kind = head.kind ∧
      head'.owningKey = head.owningKey := by
  obtain ⟨-, timeline, last, -, rfl⟩ := hrec
  obtain ⟨row, hrow, hread⟩ := mapM_rowResult_eq_some_iff.mp hhead
  obtain ⟨hkind, howning, -⟩ := HeadRow.head_eq_ok_iff.mp hread
  have hkind' : (row.summarised timeline last).kind = head.kind.name := hkind
  obtain ⟨head', hread', hsame, hheld⟩ := HeadRow.exists_head_eq_ok hkind'
  refine ⟨head', mapM_rowResult_eq_some_iff.mpr ⟨row.summarised timeline last, ?_, hread'⟩, hsame,
    hheld.trans howning.symm⟩
  rw [find?_heads] at hrow ⊢
  rw [heads_ofEntity_materialize, ofEntity_add, add_heads, List.head?_map, hrow]
  rfl

theorem exists_head_register (pos : Position) (hhead : s.head c.key = .ok none) :
    ∃ head, (s.register c pos).head c.key = .ok (some head) ∧ head.kind = c.kind ∧
      head.owningKey = c.owningKey := by
  have hname : (c.headRow pos).kind = c.kind.name := rfl
  obtain ⟨head, hread, hkind, howning⟩ := HeadRow.exists_head_eq_ok hname
  refine ⟨head, mapM_rowResult_eq_some_iff.mpr ⟨c.headRow pos, ?_, hread⟩, hkind, howning⟩
  have hnone : s.heads.find? (fun row => row.key == c.key) = none :=
    mapM_rowResult_eq_none_iff.mp hhead
  rw [register, List.find?_append, hnone]
  simp [Submission.headRow]

/-- An event that is found by its identifier is of the kind that its entity is registered with. -/
theorem Sound.exists_head_of_eventById (hs : s.Sound) {id : String} {e : Event}
    (hid : s.eventById id = .ok (some e)) :
    ∃ head, s.head e.key = .ok (some head) ∧ head.kind = e.kind := by
  obtain ⟨row, hfind, hread⟩ := event?_eq_some_iff.mp hid
  have hrow := List.mem_of_find?_eq_some hfind
  have hkey : row.key = e.key :=
    (LogRow.entry_eq_ok_iff.mp (EventRow.event_eq_ok_iff.mp hread).2.2).2.2.2.2.1.symm
  obtain ⟨kind, h, hregistered⟩ := hs.exists_registered_of_mem hrow hkey
  have he := hregistered.reads.mem_events_iff.mpr ⟨row, hrow, hkey, hread⟩
  obtain ⟨head, hhead, hkind⟩ := hregistered.exists_head
  exact ⟨head, hhead, hkind.trans (hregistered.wellFormed.kinds e he).symm⟩

/-- Where a submission has recorded its event, its entity is registered as it says. -/
theorem Sound.exists_head_of_records (hs : s.Sound) {now : Nat}
    (ht : s.Identifies c s.nextPosition t)
    (hrec : t.Records (.event (c.event s.nextPosition now)) s') :
    ∃ head, s'.head c.key = .ok (some head) ∧ head.kind = c.kind ∧
      ∀ k ∈ c.owningKey, head.owningKey = some k := by
  cases ht with
  | registered head hhead hkind howning =>
    obtain ⟨head', hhead', hkind', howning'⟩ := hrec.exists_head hhead
    refine ⟨head', hhead', hkind'.trans hkind, ?_⟩
    intro k hk
    exact howning'.trans (howning k hk)
  | registers hnone htype hfreeKey hfault =>
    obtain ⟨head, hhead, hkind, howning⟩ := exists_head_register s.nextPosition hnone
    obtain ⟨head', hhead', hkind', howning'⟩ := hrec.exists_head hhead
    refine ⟨head', hhead', hkind'.trans hkind, ?_⟩
    intro k hk
    exact (howning'.trans howning).trans hk
  | unregistered hnone htype =>
    exact (not_records_update (e := c.event s.nextPosition now)
      (hs.head_eq_none_iff.mp hnone) htype hrec).elim

/-- In a sound store a submission that succeeds has named the kind of its entity, and, unless its
event was found by the identifier, the owning key too. -/
theorem Sound.identified (hs : s.Sound) {now : Nat} {out : Outcome Event}
    (h : Session.submit c now s = .ok out s') :
    ∃ head, s'.head c.key = .ok (some head) ∧ head.kind = c.kind ∧
      (s.eventById c.id = .ok none → ∀ k ∈ c.owningKey, head.owningKey = some k) := by
  obtain ⟨-, ⟨stored, hid, hsame, -, rfl⟩ | ⟨-, -, t, ht, ⟨stored, hon, -, -, -, -, rfl⟩ |
    ⟨-, -, hrec⟩⟩⟩ := Session.submit_eq_ok_iff.mp h
  · obtain ⟨head, hhead, hkind⟩ := hs.exists_head_of_eventById hid
    simp only [Submission.isEvent, Command.isEntry, Bool.and_eq_true, beq_iff_eq] at hsame
    obtain ⟨⟨⟨⟨⟨⟨⟨-, hkey⟩, -⟩, -⟩, -⟩, -⟩, hstored⟩, -⟩ := hsame
    rw [hkey] at hhead
    refine ⟨head, hhead, hkind.trans hstored, ?_⟩
    intro hnone
    rw [hid] at hnone
    cases hnone
  -- The date carries an event, so the entity was registered before.
  · obtain rfl := hs.eq_of_eventOn ht hon
    obtain ⟨kind, history, hregistered, -⟩ := hs.exists_registered_of_eventOn hon
    obtain ⟨head, hhead, -⟩ := hregistered.exists_head
    obtain ⟨-, hkind, howning⟩ := ht.agrees hhead
    exact ⟨head, hhead, hkind, fun _ => howning⟩
  · obtain ⟨head, hhead, hkind, howning⟩ := hs.exists_head_of_records ht hrec
    exact ⟨head, hhead, hkind, fun _ => howning⟩

/-- In every store that a run reaches, a submission that succeeds leaves its entity registered with
the kind that it names, and with the owning key that it names unless its event was found by the
identifier. -/
theorem identified_after (rs : List Request) (c : Submission) (now : Nat) (out : Outcome Event)
    (s' : Store) (h : (Session.submit c now).transaction (empty.after rs) = .ok out s') :
    ∃ head, s'.head c.key = .ok (some head) ∧ head.kind = c.kind ∧
      ((empty.after rs).eventById c.id = .ok none →
        ∀ k ∈ c.owningKey, head.owningKey = some k) :=
  (sound_after rs).identified (Session.transaction_eq_ok_iff.mp h)

theorem identified_after_sample :
    ∃ r s', (Session.submit Sample.created 1).transaction (empty.after []) =
        .ok (.appended r) s' ∧
      ∃ head, s'.head Sample.key = .ok (some head) ∧ head.kind = .assignment ∧
        head.owningKey = some "desk" := by
  have happends : (Session.submit Sample.created 1).Appends (empty.after []) := by decide +kernel
  obtain ⟨r, s', h⟩ := happends
  obtain ⟨head, hhead, hkind, howning⟩ := identified_after [] Sample.created 1 (.appended r) s' h
  have hnone : (empty.after []).eventById Sample.created.id = .ok none :=
    eventById_eq_none_iff.mpr (by simp [after, empty])
  exact ⟨r, s', h, head, hhead, hkind, howning hnone "desk" rfl⟩

end Store

/-! ## Another owning key -/

/-- Once a submission was recorded, the same submission is answered with its event under whatever
owning key it is repeated. -/
theorem Session.submit_other_owningKey {s s' t : Store} {c d : Submission} {r : Event} {now : Nat}
    (hpayload : Payload.parse c.payload.text = .ok c.payload) (hnow : now < 2 ^ 64)
    (h : submit c now s = .ok (.appended r) s') (ht : s'.Extends t)
    (hd : d = { c with owningKey := d.owningKey }) (hblank : d.blankField? = none) (later : Nat) :
    (submit d later).Answers t r := by
  obtain ⟨hfound, hsame⟩ := eventById_of_appended hpayload hnow h ht
  refine submit_answers hblank ?_ ?_
  · rw [hd]
    exact hfound
  · rw [hd]
    exact hsame

namespace Sample

/-- The assignment is created once more, under another owning key. -/
def renamed : Submission :=
  { created with owningKey := some "door" }

end Sample

namespace Store

theorem after_submit_of_eq_ok {s s' : Store} {c : Submission} {now : Nat} {out : Outcome Event}
    (h : Session.submit c now s = .ok out s') : s.after [.submit c now] = s' :=
  Session.commit_of_eq_ok h

/-- A submission can succeed although it names an owning key that its entity is not registered
with. -/
theorem not_forall_owningKey_identified :
    ¬∀ (rs : List Request) (c : Submission) (now : Nat) (out : Outcome Event) (s' : Store),
      (Session.submit c now).transaction (empty.after rs) = .ok out s' →
      ∃ head, s'.head c.key = .ok (some head) ∧ head.kind = c.kind ∧
        ∀ k ∈ c.owningKey, head.owningKey = some k := by
  intro hall
  have happends : (Session.submit Sample.created 1).Appends empty := by decide +kernel
  obtain ⟨r, s, h⟩ := happends
  have happended := Session.transaction_eq_ok_iff.mp h
  have hrun := after_submit_of_eq_ok happended
  have hblank : Sample.renamed.blankField? = none := by decide +kernel
  have hanswers : (Session.submit Sample.renamed 2).Answers s r :=
    Session.submit_other_owningKey (c := Sample.created) (d := Sample.renamed)
      Sample.parse_payload (by decide) happended (Extends.refl s) rfl hblank 2
  have hnone : empty.eventById Sample.created.id = .ok none :=
    eventById_eq_none_iff.mpr (by simp [empty])
  obtain ⟨head, hhead, -, hdesk⟩ := sound_empty.identified happended
  rw [← hrun] at hanswers hhead
  obtain ⟨head', hhead', -, hdoor⟩ := hall [.submit Sample.created 1] Sample.renamed 2
    (.existing r) (empty.after [.submit Sample.created 1]) hanswers
  have hsame : head' = head := Option.some.inj (Except.ok.inj (hhead'.symm.trans hhead))
  have howning := hdesk hnone "desk" rfl
  rw [← hsame, hdoor "door" rfl] at howning
  exact absurd howning (by decide)

end Store

end DatedLedger
