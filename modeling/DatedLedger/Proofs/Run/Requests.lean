import DatedLedger.Ledger
import DatedLedger.Proofs.Json.ReadBack
import DatedLedger.Proofs.Store.Coherence

/-!
# Runs of requests

A request asks for one mutation.  It is run as a transaction: when it fails, the
store is as it was.  A run is a list of requests, of which some succeed and some
fail, and whatever a ledger does in any contexts comes down to such a run.  Logs
only grow at their end.
-/

namespace DatedLedger

/-- The store after a session was run as a transaction. -/
def Session.commit {α : Type} (session : Session α) (s : Store) : Store :=
  match session.transaction s with
  | .ok _ s' => s'
  | .error _ s' => s'

/-- A mutation that is asked for, and the time at which it is. -/
inductive Request where
  | submit (c : Submission) (now : Nat)
  | correct (c : Command) (now : Nat)
  | rescind (c : Command) (now : Nat)
  | rebuild (key : EntityKey)

/-- The store after a request. -/
def Request.run : Request → Store → Store
  | submit c now => (Session.submit c now).commit
  | correct c now => (Session.correct c now).commit
  | rescind c now => (Session.rescind c now).commit
  | rebuild key => (Ledger.rederive key).commit

namespace Store

/-- The store after some requests, one after another. -/
def after (s : Store) (rs : List Request) : Store :=
  rs.foldl (fun s r => r.run s) s

theorem after_cons (s : Store) (r : Request) (rs : List Request) :
    s.after (r :: rs) = (r.run s).after rs := rfl

theorem after_append (s : Store) (rs rs' : List Request) :
    s.after (rs ++ rs') = (s.after rs).after rs' :=
  List.foldl_append

/-- What every request of some sort keeps holds after any number of requests of that sort. -/
theorem after_induction_of {P : Store → Prop} {Q : Request → Prop} {s : Store} (hs : P s)
    (hrun : ∀ (r : Request) (t : Store), Q r → P t → P (r.run t)) {rs : List Request}
    (hrs : ∀ r ∈ rs, Q r) : P (s.after rs) := by
  induction rs generalizing s with
  | nil => exact hs
  | cons r rest ih =>
    obtain ⟨hr, hrest⟩ := List.forall_mem_cons.mp hrs
    exact ih (hrun r s hr hs) hrest

/-- What every request keeps holds after any number of them. -/
theorem after_induction {P : Store → Prop} {s : Store} (hs : P s)
    (hrun : ∀ (r : Request) (t : Store), P t → P (r.run t)) (rs : List Request) :
    P (s.after rs) :=
  after_induction_of (Q := fun _ => True) hs (fun r t _ => hrun r t) fun _ _ => trivial

end Store

namespace Session

variable {α : Type} {session : Session α} {s : Store}

theorem commit_of_eq_ok {a : α} {s' : Store} (h : session s = .ok a s') :
    session.commit s = s' := by
  rw [commit, transaction_of_eq_ok h]

/-- A transaction has either no effect or the effect of a session that succeeds. -/
theorem commit_cases (session : Session α) (s : Store) :
    session.commit s = s ∨ ∃ a, session s = .ok a (session.commit s) := by
  cases h : session s with
  | ok a s' => exact .inr ⟨a, by rw [commit_of_eq_ok h]⟩
  | error e s' =>
    left
    rw [commit, transaction_of_eq_error h]

end Session

/-! ## Requests of a ledger -/

/-- The ledger after an action. -/
def Ledger.after {α : Type} (action : Ledger.Action α) (l : Ledger) : Ledger :=
  match action l with
  | .ok _ l' => l'
  | .error _ l' => l'

/-- What a ledger does when it is asked in a context. -/
def Request.perform (ctx : Context) : Request → Ledger → Ledger
  | submit c now => Ledger.after (Ledger.submit ctx c now)
  | correct c now => Ledger.after (Ledger.correct ctx c now)
  | rescind c now => Ledger.after (Ledger.rescind ctx c now)
  | rebuild key => Ledger.after (Ledger.rebuild ctx key)

namespace Ledger

theorem after_map {α β : Type} (action : Action α) (f : α → β) (l : Ledger) :
    after (do return f (← action)) l = after action l := by
  simp only [after, bind, EStateM.bind, pure, EStateM.pure]
  cases action l with
  | ok a l' => rfl
  | error e l' => rfl

theorem after_authorize {α : Type} (ctx : Context) (tenant : String) (action : Action α)
    (l : Ledger) :
    after (do authorize ctx tenant; action) l = l ∨
      after (do authorize ctx tenant; action) l = after action l := by
  cases hctx : ctx.authorize tenant with
  | error e =>
    left
    simp only [after, authorize, hctx]
    rfl
  | ok u =>
    right
    simp only [after, authorize, hctx]
    rfl

theorem store_after_mutate {α : Type} (session : Session α) (l : Ledger) :
    (after (mutate session) l).store = l.store ∨
      (after (mutate session) l).store = session.commit l.store := by
  by_cases hlocked : l.writeLocked
  · left
    simp [after, mutate, hlocked]
  · right
    cases h : session.transaction l.store with
    | ok a s' => simp [after, mutate, hlocked, h, Session.commit]
    | error e s' => simp [after, mutate, hlocked, h, Session.commit]

/-- An action that asks for permission and then runs a session has the effect of the session, or
none. -/
theorem store_after_authorize {α β : Type} (ctx : Context) (tenant : String) (action : Action β)
    (session : Session α) (l : Ledger) (haction : after action l = after (mutate session) l) :
    (after (do authorize ctx tenant; action) l).store = l.store ∨
      (after (do authorize ctx tenant; action) l).store = session.commit l.store := by
  rcases after_authorize ctx tenant action l with h | h
  · exact .inl (by rw [h])
  · rw [h, haction]
    exact store_after_mutate session l

theorem rederive_eq_ok_iff {key : EntityKey} {s s' : Store} {timeline : Timeline} :
    rederive key s = .ok timeline s' ↔
      (∃ head, s.head key = .ok (some head)) ∧ Session.rematerialize key s = .ok timeline s' := by
  simp only [rederive, Session.bind_eq_ok_iff, Session.read_eq_ok_iff]
  constructor
  · rintro ⟨head, t, ⟨hhead, rfl⟩, h⟩
    refine ⟨⟨head, ?_⟩, h⟩
    cases hfound : t.head key with
    | error e => simp [requireEntity, bind, Except.bind, hfound] at hhead
    | ok found =>
      cases found with
      | none => simp [requireEntity, bind, Except.bind, hfound] at hhead
      | some head' =>
        simp only [requireEntity, bind, Except.bind, hfound, Except.ok.injEq] at hhead
        rw [hhead]
  · rintro ⟨⟨head, hhead⟩, h⟩
    refine ⟨head, s, ⟨?_, rfl⟩, h⟩
    simp [requireEntity, bind, Except.bind, hhead]

end Ledger

namespace Request

theorem store_perform (ctx : Context) (r : Request) (l : Ledger) :
    (r.perform ctx l).store = l.store ∨ (r.perform ctx l).store = r.run l.store := by
  cases r with
  | submit c now =>
    exact Ledger.store_after_authorize ctx _ _ (Session.submit c now) l (Ledger.after_map _ _ l)
  | correct c now =>
    exact Ledger.store_after_authorize ctx _ _ (Session.correct c now) l (Ledger.after_map _ _ l)
  | rescind c now =>
    exact Ledger.store_after_authorize ctx _ _ (Session.rescind c now) l (Ledger.after_map _ _ l)
  | rebuild key => exact Ledger.store_after_authorize ctx _ _ (Ledger.rederive key) l rfl

/-- Whatever a ledger is asked in whatever contexts, its store is that after a run of some of the
requests. -/
theorem exists_store_performs (asked : List (Context × Request)) (l : Ledger) :
    ∃ rs, rs.Sublist (asked.map Prod.snd) ∧
      (asked.foldl (fun l ask => ask.2.perform ask.1 l) l).store = l.store.after rs := by
  induction asked generalizing l with
  | nil => exact ⟨[], .refl _, rfl⟩
  | cons ask rest ih =>
    obtain ⟨rs, hsublist, hstore⟩ := ih (ask.2.perform ask.1 l)
    rw [List.foldl_cons, hstore]
    rcases store_perform ask.1 ask.2 l with h | h
    · exact ⟨rs, hsublist.cons _, by rw [h]⟩
    · exact ⟨ask.2 :: rs, hsublist.cons_cons _, by rw [h, Store.after_cons]⟩

end Request

/-! ## Growth of the logs -/

namespace Store

/-- The store without what follows from its logs. -/
def logs (s : Store) : Store :=
  { s with heads := [], versions := [] }

theorem logs_add {s t : Store} (h : t.logs = s.logs) (a : AuditEntry) :
    (t.add a).logs = (s.add a).logs := by
  obtain ⟨events, corrections, rescinds, heads, versions⟩ := s
  obtain ⟨events', corrections', rescinds', heads', versions'⟩ := t
  simp only [logs, Store.mk.injEq, and_true] at h
  obtain ⟨rfl, rfl, rfl⟩ := h
  cases a with
  | event e => rfl
  | correction e => rfl
  | rescind e => rfl

theorem replayEntity_eq_of_logs_eq {s t : Store} (h : t.logs = s.logs) (key : EntityKey) :
    t.replayEntity key = s.replayEntity key := by
  have hreplay := congrArg (fun u : Store => u.replayEntity key) h
  exact hreplay

theorem Identifies.logs_eq_logs {s t : Store} {c : Submission} {pos : Position}
    (h : s.Identifies c pos t) : t.logs = s.logs := by
  obtain ⟨hevents, hcorrections, hrescinds, -⟩ := h.logs_eq
  rw [logs, logs, hevents, hcorrections, hrescinds]

theorem Records.logs_eq {s s' : Store} {a : AuditEntry} (h : s.Records a s') :
    s'.logs = (s.add a).logs := by
  obtain ⟨-, timeline, last, -, rfl⟩ := h
  rfl

end Store

/-! ## What a request does -/

/-- What a request does to a store: nothing, or what its mutation does when it succeeds. -/
inductive Request.Effect (s : Store) : Request → Store → Prop where
  | none (r : Request) : Effect s r s
  /-- The date of a submission carries an event already. -/
  | repeated {c : Submission} {now : Nat} {t : Store} {stored : Event}
      (ht : s.Identifies c s.nextPosition t) (hon : t.eventOn c.key c.date = .ok (some stored)) :
      Effect s (.submit c now) t
  | event {c : Submission} {now : Nat} {t s' : Store} (ht : s.Identifies c s.nextPosition t)
      (hfree : t.eventOn c.key c.date = .ok Option.none)
      (hrec : t.Records (.event (c.event s.nextPosition now)) s') : Effect s (.submit c now) s'
  | correction {c : Command} {now : Nat} {target : Event} {s' : Store}
      (hon : s.eventOn c.key c.date = .ok (some target))
      (hstands : s.rescindOn c.key c.date = .ok Option.none)
      (hfree : s.correctionOn c.key c.date = .ok Option.none)
      (hrec : s.Records (.correction (c.entry s.nextPosition now)) s') :
      Effect s (.correct c now) s'
  | rescind {c : Command} {now : Nat} {target : Event} {s' : Store}
      (hon : s.eventOn c.key c.date = .ok (some target)) (htype : target.type = .update)
      (hfree : s.rescindOn c.key c.date = .ok Option.none)
      (hrec : s.Records (.rescind (c.entry s.nextPosition now)) s') :
      Effect s (.rescind c now) s'
  | timeline {key : EntityKey} {head : Head} {timeline : Timeline} {last : Option Position}
      (hhead : s.head key = .ok (some head))
      (hreplay : s.replayEntity key = .ok (timeline, last)) :
      Effect s (.rebuild key) (s.materialize key timeline last)

namespace Request

variable {s : Store}

theorem Effect.of_commit {α : Type} {session : Session α} {r : Request}
    (hok : ∀ a s', session s = .ok a s' → Effect s r s') : Effect s r (session.commit s) := by
  rcases Session.commit_cases session s with h | ⟨a, h⟩
  · rw [h]
    exact .none r
  · exact hok a _ h

theorem effect_run (r : Request) (s : Store) : Effect s r (r.run s) := by
  cases r with
  | submit c now =>
    apply Effect.of_commit
    intro out s' h
    obtain ⟨-, ⟨stored, -, -, -, rfl⟩ | ⟨-, -, t, ht, ⟨stored, hon, -, -, -, -, rfl⟩ |
      ⟨hfree, -, hrec⟩⟩⟩ := Session.submit_eq_ok_iff.mp h
    · exact .none _
    · exact .repeated ht hon
    · exact .event ht hfree hrec
  | correct c now =>
    apply Effect.of_commit
    intro out s' h
    obtain ⟨-, ⟨target, hon⟩, hstands, ⟨stored, -, -, -, rfl⟩ | ⟨-, -, ⟨stored, -, -, -, rfl⟩ |
      ⟨hfree, -, hrec⟩⟩⟩ := Session.correct_eq_ok_iff.mp h
    · exact .none _
    · exact .none _
    · exact .correction hon hstands hfree hrec
  | rescind c now =>
    apply Effect.of_commit
    intro out s' h
    obtain ⟨-, target, hon, htype, ⟨stored, -, -, -, rfl⟩ | ⟨-, -, ⟨stored, -, -, -, rfl⟩ |
      ⟨hfree, -, hrec⟩⟩⟩ := Session.rescind_eq_ok_iff.mp h
    · exact .none _
    · exact .none _
    · exact .rescind hon htype hfree hrec
  | rebuild key =>
    apply Effect.of_commit
    intro timeline s' h
    obtain ⟨⟨head, hhead⟩, hstored⟩ := Ledger.rederive_eq_ok_iff.mp h
    obtain ⟨last, hreplay, rfl⟩ := Session.rematerialize_eq_ok_iff.mp hstored
    exact .timeline hhead hreplay

end Request

/-- An entry that may be added to a store: it has the next position and no key of another entry
of its log, and a correction is about a date that is not rescinded. -/
structure Store.Admits (s : Store) (a : AuditEntry) : Prop where
  pos : a.entry.pos = s.nextPosition
  fits : a.entry.row.fault? a.log (s.rows a.log) = none
  stands : ∀ c, a = .correction c → s.rescindOn c.key c.date = .ok none

/-- A request leaves the logs as they are or adds one entry. -/
theorem Request.logs_run (r : Request) (s : Store) :
    (r.run s).logs = s.logs ∨ ∃ a, s.Admits a ∧ (r.run s).logs = (s.add a).logs := by
  have heffect := r.effect_run s
  generalize r.run s = s' at heffect ⊢
  cases heffect with
  | none r => exact .inl rfl
  | repeated ht hon => exact .inl ht.logs_eq_logs
  | event ht hfree hrec =>
    refine .inr ⟨_, ⟨rfl, ?_, ?_⟩, hrec.logs_eq.trans (Store.logs_add ht.logs_eq_logs _)⟩
    · rw [← ht.rows_eq]
      exact hrec.1
    · intro c hc
      cases hc
  | correction hon hstands hfree hrec =>
    refine .inr ⟨_, ⟨rfl, hrec.1, ?_⟩, hrec.logs_eq⟩
    intro x hx
    cases hx
    exact hstands
  | rescind hon htype hfree hrec =>
    refine .inr ⟨_, ⟨rfl, hrec.1, ?_⟩, hrec.logs_eq⟩
    intro x hx
    cases hx
  | timeline hhead hreplay => exact .inl rfl

namespace Store

/-- Each log of the second store begins with the rows of the first. -/
structure Extends (s t : Store) : Prop where
  events : s.events <+: t.events
  corrections : s.corrections <+: t.corrections
  rescinds : s.rescinds <+: t.rescinds

namespace Extends

variable {s t u : Store}

theorem refl (s : Store) : s.Extends s :=
  ⟨List.prefix_rfl, List.prefix_rfl, List.prefix_rfl⟩

theorem trans (hst : s.Extends t) (htu : t.Extends u) : s.Extends u where
  events := hst.events.trans htu.events
  corrections := hst.corrections.trans htu.corrections
  rescinds := hst.rescinds.trans htu.rescinds

theorem of_logs_eq (h : t.logs = u.logs) (hst : s.Extends t) : s.Extends u := by
  have hu : s.Extends u.logs := by
    rw [← h]
    exact ⟨hst.events, hst.corrections, hst.rescinds⟩
  exact ⟨hu.events, hu.corrections, hu.rescinds⟩

theorem add (s : Store) (a : AuditEntry) : s.Extends (s.add a) := by
  cases a with
  | event e => exact ⟨List.prefix_append _ _, List.prefix_rfl, List.prefix_rfl⟩
  | correction e => exact ⟨List.prefix_rfl, List.prefix_append _ _, List.prefix_rfl⟩
  | rescind e => exact ⟨List.prefix_rfl, List.prefix_rfl, List.prefix_append _ _⟩

theorem run (r : Request) (s : Store) : s.Extends (r.run s) := by
  rcases r.logs_run s with h | ⟨a, -, h⟩
  · exact of_logs_eq h.symm (refl s)
  · exact of_logs_eq h.symm (add s a)

/-- No request ever changes or removes a row of a log. -/
theorem after (s : Store) (rs : List Request) : s.Extends (s.after rs) :=
  after_induction (refl s) (fun r t ht => ht.trans (run r t)) rs

end Extends

end Store

/-! ## A short run -/

namespace Sample

def key : EntityKey := ⟨"acme", "desk-7"⟩

/-- An assignment to a position. -/
def payload : Payload where
  members := [("position_id", .str "P-1")]
  ordered := Json.ordered_obj_iff.2 ⟨List.pairwise_singleton _ _, trivial, trivial⟩
  shallow := by decide

theorem parse_payload : Payload.parse payload.text = .ok payload :=
  Payload.parse_text (Payload.Integral.steady (p := payload) ⟨trivial, trivial⟩)

/-- The assignment is created. -/
def created : Submission where
  id := "e-1"
  key := key
  date := ⟨2024, 1, 15, by decide⟩
  payload := payload
  submission := "s-1"
  initiator := "clerk"
  kind := .assignment
  type := .create
  owningKey := some "desk"

/-- A later change of the assignment. -/
def updated : Submission :=
  { created with
    id := "e-2"
    date := ⟨2024, 3, 1, by decide⟩
    submission := "s-2"
    type := .update }

/-- A correction of the payload that the assignment was created with. -/
def corrected : Command :=
  { created.toCommand with id := "c-1" }

/-- The later change is taken back. -/
def rescinded : Command :=
  { updated.toCommand with id := "r-1" }

/-- An assignment is created, changed, corrected, and its change is taken back. -/
def run : List Request :=
  [.submit created 1, .submit updated 2, .correct corrected 3, .rescind rescinded 4, .rebuild key]

theorem events_run_ne_nil : ((Store.empty.after run).ofEntity key).events ≠ [] := by
  decide +kernel

end Sample

end DatedLedger
