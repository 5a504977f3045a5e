import DatedLedger.Proofs.Run.Integrality
import DatedLedger.Proofs.Run.Operations

/-!
# Verification of a ledger

Verification replays the logs of an entity, and compares the digest of the timeline
that follows with the registered one and with that of the stored rows, which are read
for this.  What a run writes agrees with the logs, so verification can fail for no
other reason than that rows read as another timeline than was stored.  They do not
when all numbers on record are read back from their texts.
-/

namespace DatedLedger

namespace Ledger

variable {s : Store} {key : EntityKey} {ctx : Context} {l : Ledger}

theorem requireEntity_eq_ok_iff {head : Head} :
    requireEntity s key = .ok head ↔ s.head key = .ok (some head) := by
  rw [requireEntity]
  cases s.head key with
  | error e => simp [bind, Except.bind]
  | ok found =>
    cases found with
    | none => simp [bind, Except.bind]
    | some head => simp [bind, Except.bind]

/-- A store is consistent about an entity when three digests are equal. -/
theorem isConsistent_eq_true_iff :
    isConsistent s key = .ok true ↔ ∃ head timeline last stored,
      s.head key = .ok (some head) ∧ s.replayEntity key = .ok (timeline, last) ∧
        s.timelineOf key = .ok stored ∧ timeline.digest = head.digest ∧
        timeline.digest = stored.digest := by
  constructor
  · intro h
    obtain ⟨head, hhead, h⟩ := exists_of_bind_eq_ok h
    obtain ⟨⟨timeline, last⟩, hreplay, h⟩ := exists_of_bind_eq_ok h
    obtain ⟨stored, hstored, h⟩ := exists_of_bind_eq_ok h
    have hdigests := Except.ok.inj h
    rw [Bool.and_eq_true, beq_iff_eq, beq_iff_eq] at hdigests
    exact ⟨head, timeline, last, stored, requireEntity_eq_ok_iff.mp hhead, hreplay, hstored,
      hdigests⟩
  · rintro ⟨head, timeline, last, stored, hhead, hreplay, hstored, hregistered, hrows⟩
    have hhead' := requireEntity_eq_ok_iff.mpr hhead
    simp only [isConsistent, hhead', hreplay, hstored, bind, Except.bind, ← hregistered, ← hrows,
      BEq.rfl, Bool.and_self]

theorem verify_eq_true_iff (hctx : ctx.tenant = some key.tenant) :
    verify ctx key l = .ok true l ↔ isConsistent l.store key = .ok true := by
  have hauthorize := Context.authorize_eq_ok_iff.mpr hctx
  simp only [verify, authorize, hauthorize, bind, EStateM.bind, pure, EStateM.pure, read]
  cases isConsistent l.store key with
  | error e => simp
  | ok b => simp

end Ledger

namespace Store

variable {s : Store} {key : EntityKey} {row : HeadRow} {head : Head} {h : History}
  {timeline : Timeline}

theorem Coherent.digest_head (hs : s.Coherent key row h timeline)
    (hhead : s.head key = .ok (some head)) : head.digest = timeline.digest := by
  obtain ⟨row', hrow, hread⟩ := mapM_rowResult_eq_some_iff.mp hhead
  rw [find?_heads, hs.heads] at hrow
  cases hrow
  exact (HeadRow.head_eq_ok_iff.mp hread).2.2.2.1.trans hs.digest

/-- Where registry and stored timeline agree with the logs, only rows that read as a timeline with
another digest make the store inconsistent. -/
theorem Coherent.isConsistent_iff (hs : s.Coherent key row h timeline)
    (hhead : s.head key = .ok (some head)) :
    Ledger.isConsistent s key = .ok true ↔
      ∃ stored, s.timelineOf key = .ok stored ∧ stored.digest = timeline.digest := by
  have hreplay : s.replayEntity key = .ok (timeline, h.positions.max?) :=
    replayEntity_eq_ok_iff.mpr ⟨h, hs.reads, hs.replayed, rfl⟩
  rw [Ledger.isConsistent_eq_true_iff]
  constructor
  · rintro ⟨head', timeline', last, stored, -, hreplay', hstored, -, hrows⟩
    rw [hreplay] at hreplay'
    cases hreplay'
    exact ⟨stored, hstored, hrows.symm⟩
  · rintro ⟨stored, hstored, hrows⟩
    exact ⟨head, timeline, _, stored, hhead, hreplay, hstored, (hs.digest_head hhead).symm,
      hrows.symm⟩

theorem Coherent.timelineOf_of_steady (hs : s.Coherent key row h timeline)
    (hevents : ∀ e ∈ h.events, e.payload.Steady)
    (hcorrections : ∀ c ∈ h.corrections, c.payload.Steady) :
    s.timelineOf key = .ok timeline :=
  timelineOf_of_version_row hs.versions hs.replayed fun _ hv =>
    version_row_of_mem_replay hs.replayed hevents hcorrections hv

/-- In every store that a run reaches, verification of a registered entity succeeds exactly when
its stored rows are read as a timeline with the digest of the one that was stored.  It succeeds when
every number in the payloads on record for the entity is read back from its text. -/
theorem verify_after (rs : List Request) (key : EntityKey) (head : Head)
    (hhead : (empty.after rs).head key = .ok (some head)) :
    ∃ h timeline, (empty.after rs).Reads key h ∧
      replay key h.events h.corrections h.rescinds = .ok timeline ∧
      ∀ (ctx : Context) (l : Ledger), ctx.tenant = some key.tenant → l.store = empty.after rs →
        (Ledger.verify ctx key l = .ok true l ↔
          ∃ stored, (empty.after rs).timelineOf key = .ok stored ∧
            stored.digest = timeline.digest) ∧
        ((∀ e ∈ h.events, e.payload.Steady) → (∀ c ∈ h.corrections, c.payload.Steady) →
          Ledger.verify ctx key l = .ok true l) := by
  obtain ⟨h, -, row, timeline, -, hcoherent⟩ := (sound_after rs).exists_registered hhead
  refine ⟨h, timeline, hcoherent.reads, hcoherent.replayed, ?_⟩
  intro ctx l hctx hl
  rw [Ledger.verify_eq_true_iff hctx, hl, hcoherent.isConsistent_iff hhead]
  refine ⟨.rfl, ?_⟩
  intro hevents hcorrections
  exact ⟨timeline, hcoherent.timelineOf_of_steady hevents hcorrections, rfl⟩

theorem verify_after_sample :
    ∃ head, (empty.after Sample.run).head Sample.key = .ok (some head) ∧
      Ledger.verify (.ofTenant "acme") Sample.key ⟨.standard, empty.after Sample.run, false⟩ =
        .ok true ⟨.standard, empty.after Sample.run, false⟩ := by
  have hpayload : Sample.payload.Integral := ⟨trivial, trivial⟩
  have hintegral : ∀ r ∈ Sample.run, r.Integral := by
    simp only [Sample.run, List.forall_mem_cons]
    exact ⟨hpayload, hpayload, hpayload, hpayload, trivial, by simp⟩
  have hstored := integral_after hintegral
  obtain ⟨head, hhead⟩ : ∃ head, (empty.after Sample.run).head Sample.key = .ok (some head) := by
    rcases (sound_after Sample.run).entities Sample.key with hempty | ⟨kind, h, hregistered⟩
    · exact absurd (congrArg Store.events hempty) Sample.events_run_ne_nil
    · obtain ⟨head, hhead, -⟩ := hregistered.exists_head
      exact ⟨head, hhead⟩
  obtain ⟨h, timeline, hreads, -, hverify⟩ := verify_after Sample.run Sample.key head hhead
  refine ⟨head, hhead, (hverify (.ofTenant "acme") _ rfl rfl).2 ?_ ?_⟩
  · intro e he
    exact (hstored.of_mem_entries hreads .events (List.mem_map_of_mem he)).steady
  · intro c hc
    exact (hstored.of_mem_entries hreads .corrections hc).steady

end Store

/-! ## A number that drifts -/

namespace Sample

/-- The text of an assignment with a number whose own text is read as the next greater double. -/
def driftingText : String :=
  "\x7b\"position_id\": \"P-1\", \"x\": 5e117\x7d"

/-- The assignment is created with such a payload. -/
def drifting : Submission :=
  { created with payload := (Payload.parse driftingText).toOption.getD .empty }

theorem parse_driftingText : Payload.parse driftingText = .ok drifting.payload := by
  have hparse : (Payload.parse driftingText).toOption.isSome := by decide +kernel
  obtain ⟨p, hp⟩ := Option.isSome_iff_exists.mp hparse
  rw [drifting, hp]
  exact eq_ok_of_toOption hp

end Sample

namespace Store

/-- A ledger that nobody has edited from outside can fail verification after one submission. -/
theorem not_forall_verify_after :
    ¬∀ (text : String) (c : Submission) (now : Nat), Payload.parse text = .ok c.payload →
      ∀ (head : Head) (ctx : Context) (l : Ledger), l.store = empty.after [.submit c now] →
        l.store.head c.key = .ok (some head) → ctx.tenant = some c.key.tenant →
        Ledger.verify ctx c.key l = .ok true l := by
  intro hall
  have hverdict : Ledger.isConsistent (empty.after [.submit Sample.drifting 1]) Sample.key =
      .ok false :=
    eq_ok_of_toOption (by decide +kernel)
  obtain ⟨head, hhead, -⟩ := exists_of_bind_eq_ok hverdict
  have hverify := hall Sample.driftingText Sample.drifting 1 Sample.parse_driftingText head
    (.ofTenant "acme") ⟨.standard, empty.after [.submit Sample.drifting 1], false⟩ rfl
    (Ledger.requireEntity_eq_ok_iff.mp hhead) rfl
  have htrue := (Ledger.verify_eq_true_iff rfl).mp hverify
  cases hverdict.symm.trans htrue

end Store

end DatedLedger
