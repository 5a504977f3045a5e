import DatedLedger.Proofs.Store.Coherence

/-!
# What sessions fail for

A session fails for the cause of the first of its statements that fails.  Two sorts of
causes are not about what is asked: a statement breaks a constraint of the tables, or a
row on record cannot be read.  Replay fails only for what the logs say.  The mutations
look up every key of a row before they add it, so where rows can be read, all that is
left to fail for is the replay after it.
-/

namespace DatedLedger

/-- The cause lies in what is asked, and neither in a statement nor in a stored row. -/
def LedgerError.IsRefusal : LedgerError → Prop
  | storage _ => False
  | row _ => False
  | _ => True

/-! ## Results that are errors -/

section Errors

variable {ε σ α β : Type} {e : ε}

theorem cases_of_bind_eq_error {x : Except ε α} {f : α → Except ε β} (h : x >>= f = .error e) :
    x = .error e ∨ ∃ a, x = .ok a ∧ f a = .error e := by
  cases x with
  | error e' =>
    cases h
    exact .inl rfl
  | ok a => exact .inr ⟨a, rfl, h⟩

theorem eq_error_of_map_eq_error {x : Except ε α} {f : α → β} (h : f <$> x = .error e) :
    x = .error e := by
  cases x with
  | error e' =>
    cases h
    rfl
  | ok a => cases h

theorem of_map_eq_error {x : EStateM ε σ α} {f : α → β} {s s' : σ}
    (h : (f <$> x) s = .error e s') : x s = .error e s' := by
  simp only [Functor.map, EStateM.map] at h
  split at h
  next => cases h
  next e' t hx =>
    cases h
    exact hx

end Errors

/-! ## Replay -/

namespace Replay

variable {key : EntityKey} {corrections : List Entry} {e : Event} {cause : LedgerError}

theorem isRefusal_of_apply {current : Option State} {payload : Payload}
    (h : apply key current e payload = .error cause) : cause.IsRefusal := by
  cases current with
  | none =>
    rcases apply_none_eq_error_iff.mp h with ⟨-, rfl⟩ | ⟨-, violation, -, rfl⟩ <;> trivial
  | some state =>
    rcases apply_some_eq_error_iff.mp h with
      ⟨-, rfl⟩ | ⟨-, -, rfl⟩ | ⟨-, -, violation, -, rfl⟩ <;> trivial

theorem isRefusal_of_steps {state : Option State} {events : List Event}
    (h : steps key corrections state events = .error cause) : cause.IsRefusal := by
  induction events generalizing state with
  | nil => cases h
  | cons e rest ih =>
    rcases steps_cons_eq_error_iff.mp h with happly | ⟨next, -, hrest⟩
    · exact isRefusal_of_apply happly
    · exact ih hrest

end Replay

theorem isRefusal_of_replay {key : EntityKey} {events : List Event}
    {corrections rescinds : List Entry} {e : LedgerError}
    (h : replay key events corrections rescinds = .error e) : e.IsRefusal := by
  rcases cases_of_bind_eq_error h with hsteps | ⟨steps, -, hstitch⟩
  · exact Replay.isRefusal_of_steps hsteps
  · cases hstitch

/-! ## Rows -/

namespace Store

variable {s t : Store} {P : LedgerError → Prop} {a : AuditEntry}

/-- Every row of the logs and of the registry can be read. -/
structure Decodes (s : Store) : Prop where
  events : ∀ row ∈ s.events, ∃ e, row.event = .ok e
  corrections : ∀ row ∈ s.corrections, ∃ e, row.entry = .ok e
  rescinds : ∀ row ∈ s.rescinds, ∃ e, row.entry = .ok e
  heads : ∀ row ∈ s.heads, ∃ head, row.head = .ok head

theorem exists_mapM_rowResult {ρ α : Type} {read : ρ → Except RowFault α} {row? : Option ρ}
    (h : ∀ row ∈ row?, ∃ x, read row = .ok x) :
    ∃ x?, (row?.mapM fun row => rowResult (read row)) = .ok x? := by
  cases row? with
  | none => exact ⟨none, rfl⟩
  | some row =>
    obtain ⟨x, hx⟩ := h row rfl
    exact ⟨some x, mapM_rowResult_eq_some_iff.mpr ⟨row, rfl, hx⟩⟩

theorem exists_of_mapM_rowResult_eq_error {ρ α : Type} {read : ρ → Except RowFault α}
    {row? : Option ρ} {e : LedgerError}
    (h : (row?.mapM fun row => rowResult (read row)) = .error e) :
    ∃ row ∈ row?, ∃ fault, read row = .error fault ∧ e = .row fault := by
  cases row? with
  | none => cases h
  | some row =>
    cases hread : read row with
    | ok x =>
      rw [mapM_rowResult_eq_some_iff.mpr ⟨row, rfl, hread⟩] at h
      cases h
    | error fault =>
      simp only [Option.mapM_some, hread, rowResult, Except.mapError, Functor.map, Except.map] at h
      cases h
      exact ⟨row, rfl, fault, hread, rfl⟩

/-- A listing fails for one of its rows. -/
theorem exists_of_readAll_eq_error {ρ α : Type} {read : ρ → Except RowFault α} {rows : List ρ}
    {e : LedgerError} (h : readAll read rows = .error e) :
    ∃ row ∈ rows, ∃ fault, read row = .error fault ∧ e = .row fault := by
  induction rows with
  | nil => cases h
  | cons row rest ih =>
    rw [readAll, List.mapM_cons] at h
    rcases cases_of_bind_eq_error h with hrow | ⟨x, -, hrest⟩
    · cases hread : read row with
      | ok x =>
        rw [hread] at hrow
        cases hrow
      | error fault =>
        rw [hread] at hrow
        cases hrow
        exact ⟨row, List.mem_cons_self, fault, hread, rfl⟩
    · rcases cases_of_bind_eq_error hrest with hrest | ⟨xs, -, hlist⟩
      · obtain ⟨r, hr, hfault⟩ := ih hrest
        exact ⟨r, List.mem_cons_of_mem row hr, hfault⟩
      · cases hlist

theorem Decodes.exists_event? (hs : s.Decodes) (p : EventRow → Bool) : ∃ e?, s.event? p = .ok e? :=
  exists_mapM_rowResult fun row hrow => hs.events row (List.mem_of_find?_eq_some hrow)

theorem Decodes.exists_correction? (hs : s.Decodes) (p : LogRow → Bool) :
    ∃ e?, entry? s.corrections p = .ok e? :=
  exists_mapM_rowResult fun row hrow => hs.corrections row (List.mem_of_find?_eq_some hrow)

theorem Decodes.exists_rescind? (hs : s.Decodes) (p : LogRow → Bool) :
    ∃ e?, entry? s.rescinds p = .ok e? :=
  exists_mapM_rowResult fun row hrow => hs.rescinds row (List.mem_of_find?_eq_some hrow)

theorem Decodes.exists_head? (hs : s.Decodes) (key : EntityKey) : ∃ head?, s.head key = .ok head? :=
  exists_mapM_rowResult fun row hrow => hs.heads row (List.mem_of_find?_eq_some hrow)

/-- The new entry fits into its log, and storing the timeline of its entity then fails for nothing
but a cause of the given sort. -/
structure Takes (P : LedgerError → Prop) (s : Store) (a : AuditEntry) : Prop where
  fits : a.entry.row.fault? a.log (s.rows a.log) = none
  replay : ∀ e, (s.add a).replayEntity a.entry.key = .error e → P e

end Store

namespace Session

variable {α β γ : Type} {s t : Store} {P : LedgerError → Prop}

/-- Whatever the session fails for, and the store that it leaves then, are of the given sort. -/
def FailsWhere (Q : LedgerError → Store → Prop) (x : Session α) (s : Store) : Prop :=
  ∀ e t, x s = .error e t → Q e t

namespace FailsWhere

variable {Q R : LedgerError → Store → Prop} {x : Session α} {f : α → Session β} {k : Session α}
  {e : LedgerError}

theorem of_eq_ok {a : α} (hx : x s = .ok a t) : FailsWhere Q x s := by
  intro e u h
  rw [hx] at h
  cases h

theorem of_throw (h : Q e s) : FailsWhere Q (throw e : Session α) s := by
  intro f t hfails
  cases hfails
  exact h

theorem mono (hx : FailsWhere Q x s) (h : ∀ e t, Q e t → R e t) : FailsWhere R x s :=
  fun e t hfails => h e t (hx e t hfails)

/-- A session fails where it begins, or where it goes on from there. -/
theorem bind (hx : FailsWhere Q x s) (hf : ∀ a t, x s = .ok a t → FailsWhere Q (f a) t) :
    FailsWhere Q (x >>= f) s := by
  intro e u h
  cases hxs : x s with
  | ok a t =>
    rw [bind_of_eq_ok hxs] at h
    exact hf a t hxs e u h
  | error e' t =>
    rw [bind_of_eq_error hxs] at h
    cases h
    exact hx _ _ hxs

theorem of_throw_bind (h : Q e s) : FailsWhere Q (throw e >>= f) s :=
  bind (of_throw h) fun _ _ hok => nomatch hok

/-- A look-up changes nothing, whether or not it succeeds. -/
theorem lookup {f : Store → Except LedgerError γ} {k : γ → Session α}
    (hread : ∀ e, f s = .error e → Q e s) (h : ∀ c, f s = .ok c → FailsWhere Q (k c) s) :
    FailsWhere Q (read f >>= k) s := by
  refine bind ?_ fun c t hok => ?_
  · intro e t hfails
    rw [read] at hfails
    split at hfails
    next => cases hfails
    next e' hf =>
      cases hfails
      exact hread _ hf
  · obtain ⟨hc, rfl⟩ := read_eq_ok_iff.mp hok
    exact h c hc

theorem fields {blank? : Option String} (hblank : ∀ field, Q (.invalid (.required field)) s)
    (h : FailsWhere Q k s) : FailsWhere Q (requireFields blank? >>= fun _ => k) s := by
  cases blank? with
  | none => exact h
  | some field => exact of_throw_bind (hblank field)

theorem of_get {f : Store → Session α} (h : FailsWhere Q (f s) s) :
    FailsWhere Q ((get : Session Store) >>= f) s := by
  intro e t hfails
  rw [bind_of_eq_ok (get_apply s)] at hfails
  exact h e t hfails

theorem of_ite {p : Prop} [Decidable p] {x' : Session α} (hx : p → FailsWhere Q x s)
    (hx' : ¬p → FailsWhere Q x' s) : FailsWhere Q (if p then x else x') s := by
  by_cases hp : p
  · rw [if_pos hp]
    exact hx hp
  · rw [if_neg hp]
    exact hx' hp

/-- A session that refuses what it finds goes on where nothing is found. -/
theorem refuse {f : Store → Except LedgerError (Option γ)} (hread : ∀ e, f s = .error e → Q e s)
    (he : Q e s) (h : f s = .ok none → FailsWhere Q k s) :
    FailsWhere Q (read f >>= fun r => if r.isSome then throw e else k) s := by
  refine lookup hread fun r hr => of_ite (fun _ => of_throw he) fun hnone => h ?_
  rw [hr, Option.not_isSome_iff_eq_none.mp hnone]

/-- A session that demands what it looks for goes on where it is found. -/
theorem demand {f : Store → Except LedgerError (Option γ)} (hread : ∀ e, f s = .error e → Q e s)
    (he : Q e s) (h : FailsWhere Q k s) :
    FailsWhere Q (read f >>= fun r => if r.isNone then throw e else k) s :=
  lookup hread fun _ _ => of_ite (fun _ => of_throw he) fun _ => h

/-- Storing a timeline anew fails only where the entity cannot be replayed, which is found before
anything is changed. -/
theorem rematerialize {key : EntityKey} (hreplay : ∀ e, s.replayEntity key = .error e → Q e s) :
    FailsWhere Q (Session.rematerialize key) s := by
  cases h : s.replayEntity key with
  | ok r =>
    obtain ⟨timeline, last⟩ := r
    exact of_eq_ok (rematerialize_eq_ok_iff.mpr ⟨last, h, rfl⟩)
  | error e =>
    have hread : read (fun s => s.replayEntity key) s = .error e s := by
      rw [read, h]
    intro f t hfails
    rw [Session.rematerialize, bind_of_eq_error hread] at hfails
    cases hfails
    exact hreplay e h

end FailsWhere

/-- Whatever the session fails for is of the given sort. -/
def FailsOnly (P : LedgerError → Prop) (x : Session α) (s : Store) : Prop :=
  ∀ e t, x s = .error e t → P e

namespace FailsOnly

variable {x : Session α} {f : α → Session β} {k : Session α} {e : LedgerError}

theorem of_eq_ok {a : α} (hx : x s = .ok a t) : FailsOnly P x s :=
  FailsWhere.of_eq_ok hx

theorem of_pure (a : α) : FailsOnly P (pure a) s :=
  of_eq_ok (pure_apply a s)

theorem of_throw (he : P e) : FailsOnly P (throw e : Session α) s :=
  FailsWhere.of_throw he

theorem bind (hx : FailsOnly P x s) (hf : ∀ a t, x s = .ok a t → FailsOnly P (f a) t) :
    FailsOnly P (x >>= f) s :=
  FailsWhere.bind hx hf

theorem of_throw_bind (he : P e) : FailsOnly P (throw e >>= f) s :=
  FailsWhere.of_throw_bind he

theorem map {g : α → β} (hx : FailsOnly P x s) : FailsOnly P (g <$> x) s :=
  fun e t h => hx e t (of_map_eq_error h)

/-! ## Parts of sessions -/

theorem of_exists_ok {r : Except LedgerError γ} (h : ∃ c, r = .ok c) (e : LedgerError)
    (hfails : r = .error e) : P e := by
  obtain ⟨c, rfl⟩ := h
  cases hfails

theorem lookup {f : Store → Except LedgerError γ} {k : γ → Session α}
    (hread : ∃ c, f s = .ok c) (h : ∀ c, f s = .ok c → FailsOnly P (k c) s) :
    FailsOnly P (read f >>= k) s :=
  FailsWhere.lookup (of_exists_ok hread) h

theorem fields (hP : ∀ e : LedgerError, e.IsRefusal → P e) (blank? : Option String)
    (h : FailsOnly P k s) : FailsOnly P (requireFields blank? >>= fun _ => k) s :=
  FailsWhere.fields (fun _ => hP _ trivial) h

theorem of_get {f : Store → Session α} (h : FailsOnly P (f s) s) :
    FailsOnly P ((get : Session Store) >>= f) s :=
  FailsWhere.of_get h

theorem of_ite {p : Prop} [Decidable p] {x' : Session α} (hx : p → FailsOnly P x s)
    (hx' : ¬p → FailsOnly P x' s) : FailsOnly P (if p then x else x') s :=
  FailsWhere.of_ite hx hx'

theorem refuse {f : Store → Except LedgerError (Option γ)} (hread : ∃ c?, f s = .ok c?) (he : P e)
    (h : f s = .ok none → FailsOnly P k s) :
    FailsOnly P (read f >>= fun r => if r.isSome then throw e else k) s :=
  FailsWhere.refuse (of_exists_ok hread) he h

theorem demand {f : Store → Except LedgerError (Option γ)} (hread : ∃ c?, f s = .ok c?) (he : P e)
    (h : FailsOnly P k s) :
    FailsOnly P (read f >>= fun r => if r.isNone then throw e else k) s :=
  FailsWhere.demand (of_exists_ok hread) he h

/-! ## Recording an entry -/

variable {key : EntityKey} {a : AuditEntry}

theorem rematerialize (hreplay : ∀ e, s.replayEntity key = .error e → P e) :
    FailsOnly P (Session.rematerialize key) s :=
  FailsWhere.rematerialize hreplay

theorem append {x : Session Unit} {entry : α} (hkey : a.entry.key = key) (hs : s.Takes P a)
    (hx : x s = .ok () (s.add a)) :
    FailsOnly P (do x; let _ ← Session.rematerialize key; return Outcome.appended entry) s := by
  refine bind (of_eq_ok hx) fun _ t ht => ?_
  rw [hx] at ht
  cases ht
  rw [← hkey]
  exact bind (rematerialize hs.replay) fun _ _ _ => of_pure _

theorem appendEvent {x : Event} (hs : s.Takes P (.event x)) :
    FailsOnly P (Session.appendEvent x) s := by
  have htype : (EventType.ofName? x.row.type).isSome := by
    simp [Event.row, EventType.ofName?_name]
  rw [Session.appendEvent]
  exact append rfl hs (insertEvent_eq_ok_iff.mpr ⟨htype, hs.fits, rfl⟩)

theorem appendCorrection {x : Entry} (hs : s.Takes P (.correction x)) :
    FailsOnly P (Session.appendCorrection x) s := by
  rw [Session.appendCorrection]
  exact append rfl hs (insertCorrection_eq_ok_iff.mpr ⟨hs.fits, rfl⟩)

theorem appendRescind {x : Entry} (hs : s.Takes P (.rescind x)) :
    FailsOnly P (Session.appendRescind x) s := by
  rw [Session.appendRescind]
  exact append rfl hs (insertRescind_eq_ok_iff.mpr ⟨hs.fits, rfl⟩)

/-! ## Mutations -/

section Mutations

variable (hP : ∀ e : LedgerError, e.IsRefusal → P e)

include hP

theorem agree (c : Submission) (head : Head) : FailsOnly P (Session.agree c head) s := by
  rw [Session.agree]
  refine of_ite (fun _ => of_throw_bind (hP _ trivial)) fun _ => ?_
  cases c.owningKey with
  | none => exact of_pure ()
  | some key => exact of_ite (fun _ => of_throw (hP _ trivial)) fun _ => of_pure _

/-- Registering an entity fails only where its owning key is taken. -/
theorem register {c : Submission} {pos : Position}
    (hfits : (∀ k ∈ c.owningKey, s.entityByOwningKey c.key.tenant c.kind k = none) →
      (c.headRow pos).fault? s.heads = none) : FailsOnly P (Session.register c pos) s := by
  have hregister : (∀ k ∈ c.owningKey, s.entityByOwningKey c.key.tenant c.kind k = none) →
      FailsOnly P (Session.register c pos) s :=
    fun hfree => of_eq_ok (register_eq_ok_iff (u := ()) |>.mpr ⟨hfree, hfits hfree, rfl⟩)
  cases howning : c.owningKey with
  | none => exact hregister fun k hk => by simp [howning] at hk
  | some key =>
    cases hholder : s.entityByOwningKey c.key.tenant c.kind key with
    | none =>
      refine hregister fun k hk => ?_
      obtain rfl : key = k := Option.some.inj (howning.symm.trans hk)
      exact hholder
    | some holder =>
      intro e t hfails
      simp only [Session.register, howning, bind_of_eq_ok (get_apply s), hholder] at hfails
      cases hfails
      exact hP _ trivial

theorem resolveIdentity {c : Submission} {pos : Position} (hs : s.Decodes)
    (hfits : s.head c.key = .ok none →
      (∀ k ∈ c.owningKey, s.entityByOwningKey c.key.tenant c.kind k = none) →
      (c.headRow pos).fault? s.heads = none) : FailsOnly P (Session.resolveIdentity c pos) s := by
  refine lookup (hs.exists_head? c.key) fun head? hhead => ?_
  cases head? with
  | some head => exact agree hP c head
  | none =>
    cases htype : c.type with
    | create => exact register hP (hfits hhead)
    | update => exact of_pure ()

/-- A submission is refused, or it fails where its event is recorded. -/
theorem submit {c : Submission} {now : Nat} (hs : s.Decodes)
    (hfits : s.head c.key = .ok none →
      (∀ k ∈ c.owningKey, s.entityByOwningKey c.key.tenant c.kind k = none) →
      (c.headRow s.nextPosition).fault? s.heads = none)
    (htakes : s.eventById c.id = .ok none →
      s.eventBySubmission c.key.tenant c.submission = .ok none →
      s.eventOn c.key c.date = .ok none → ∀ t, s.Identifies c s.nextPosition t →
      t.Takes P (.event (c.event s.nextPosition now))) : FailsOnly P (Session.submit c now) s := by
  refine fields hP _ (lookup (hs.exists_event? _) fun found? hfound => ?_)
  cases found? with
  | some stored => exact of_ite (fun _ => of_pure _) fun _ => of_throw (hP _ trivial)
  | none =>
    refine refuse (hs.exists_event? _) (hP _ trivial) fun hnone => of_get ?_
    refine bind (resolveIdentity hP hs hfits) fun _ t ht => ?_
    -- The two look-ups that follow are in logs that registering leaves as they are.
    have hidentifies := resolveIdentity_eq_ok_iff.mp ht
    have hon : t.eventOn c.key c.date = s.eventOn c.key c.date := by
      simp only [Store.eventOn, Store.event?, hidentifies.logs_eq.1]
    have hrescind : t.rescindOn c.key c.date = s.rescindOn c.key c.date := by
      simp only [Store.rescindOn, hidentifies.logs_eq.2.2.1]
    refine lookup ?_ fun on? hon? => ?_
    · rw [hon]
      exact hs.exists_event? _
    · cases on? with
      | some stored =>
        refine lookup ?_ fun _ _ => of_ite (fun _ => of_pure _) fun _ => of_throw (hP _ trivial)
        rw [hrescind]
        exact hs.exists_rescind? _
      | none => exact appendEvent (htakes hfound hnone (hon.symm.trans hon?) t hidentifies)

theorem correct {c : Command} {now : Nat} (hs : s.Decodes)
    (htakes : s.correctionById c.id = .ok none →
      s.correctionBySubmission c.key.tenant c.submission = .ok none →
      s.correctionOn c.key c.date = .ok none →
      s.Takes P (.correction (c.entry s.nextPosition now))) :
    FailsOnly P (Session.correct c now) s := by
  refine fields hP _ (demand (hs.exists_event? _) (hP _ trivial) ?_)
  refine refuse (hs.exists_rescind? _) (hP _ trivial) fun _ => ?_
  refine lookup (hs.exists_correction? _) fun found? hfound => ?_
  cases found? with
  | some stored => exact of_ite (fun _ => of_pure _) fun _ => of_throw (hP _ trivial)
  | none =>
    refine refuse (hs.exists_correction? _) (hP _ trivial) fun hnone => ?_
    refine lookup (hs.exists_correction? _) fun on? hon => ?_
    cases on? with
    | some stored => exact of_ite (fun _ => of_pure _) fun _ => of_throw (hP _ trivial)
    | none => exact of_get (appendCorrection (htakes hfound hnone hon))

theorem rescind {c : Command} {now : Nat} (hs : s.Decodes)
    (htakes : s.rescindById c.id = .ok none →
      s.rescindBySubmission c.key.tenant c.submission = .ok none →
      s.rescindOn c.key c.date = .ok none →
      s.Takes P (.rescind (c.entry s.nextPosition now))) :
    FailsOnly P (Session.rescind c now) s := by
  refine fields hP _ (lookup (hs.exists_event? _) fun target? _ => ?_)
  cases target? with
  | none => exact of_throw (hP _ trivial)
  | some target =>
    refine of_ite (fun _ => of_throw (hP _ trivial)) fun _ => ?_
    refine lookup (hs.exists_rescind? _) fun found? hfound => ?_
    cases found? with
    | some stored => exact of_ite (fun _ => of_pure _) fun _ => of_throw (hP _ trivial)
    | none =>
      refine refuse (hs.exists_rescind? _) (hP _ trivial) fun hnone => ?_
      refine lookup (hs.exists_rescind? _) fun on? hon => ?_
      cases on? with
      | some stored => exact of_ite (fun _ => of_pure _) fun _ => of_throw (hP _ trivial)
      | none => exact of_get (appendRescind (htakes hfound hnone hon))

end Mutations

end FailsOnly

end Session

end DatedLedger
