import DatedLedger.Proofs.Run.AsOf
import DatedLedger.Proofs.Run.Effects

/-!
# The operations of a ledger

A ledger takes mutations, rebuilds stored timelines, and answers queries.  Whatever it
is asked, it first checks that the context is that of the tenant.  What it then does
and answers stays with that tenant: an entity that is named by the operation is the
only one whose rows can change, and the only one that is told of.
-/

namespace DatedLedger

/-! ## Operations and their answers -/

/-- A question about an entity. -/
inductive Query where
  | versionAsOf (key : EntityKey) (date : Date)
  | timeline (key : EntityKey)
  | audit (key : EntityKey) (limit : Option Nat)
  | verify (key : EntityKey)

/-- What a ledger is asked to do. -/
inductive Operation where
  | mutate (m : Mutation) (now : Nat)
  | rebuild (key : EntityKey)
  | query (q : Query)

/-- What a ledger answers. -/
inductive Answer where
  | entry (a : AuditEntry)
  | timeline (t : Timeline)
  | version (v : Version)
  | page (entries : List AuditEntry)
  | verdict (consistent : Bool)

/-- The answer tells of one tenant only. -/
def Answer.IsOf (tenant : String) : Answer → Prop
  | entry a => a.entry.key.tenant = tenant
  | timeline t => ∀ v ∈ t, v.key.tenant = tenant
  | version v => v.key.tenant = tenant
  | page entries => ∀ a ∈ entries, a.entry.key.tenant = tenant
  | verdict _ => True

namespace Query

/-- The entity that the question is about. -/
def key : Query → EntityKey
  | versionAsOf key _ => key
  | timeline key => key
  | audit key _ => key
  | verify key => key

/-- What a store with these settings has to answer. -/
def answer (config : Config) : Query → Store → Except LedgerError Answer
  | versionAsOf key date, s => do
    match ← s.versionAsOf key date with
    | some v => .ok (.version v)
    | none => .error (.notFound (.version key.entity date))
  | timeline key, s => do
    let _ ← Ledger.requireEntity s key
    .timeline <$> s.timelineOf key
  | audit key limit, s => do
    let limit ← config.auditLimit limit
    .page <$> s.audit key limit
  | verify key, s => .verdict <$> Ledger.isConsistent s key

/-- What a ledger does when it is asked in a context. -/
def perform (ctx : Context) : Query → Ledger.Action Answer
  | versionAsOf key date => .version <$> Ledger.versionAsOf ctx key date
  | timeline key => .timeline <$> Ledger.timeline ctx key
  | audit key limit => .page <$> Ledger.audit ctx key limit
  | verify key => .verdict <$> Ledger.verify ctx key

end Query

namespace Operation

/-- The entity that the operation is about. -/
def key : Operation → EntityKey
  | mutate m _ => m.key
  | rebuild key => key
  | query q => q.key

/-- What a ledger does when it is asked in a context. -/
def perform (ctx : Context) : Operation → Ledger.Action Answer
  | mutate m now => .entry <$> m.perform ctx now
  | rebuild key => .timeline <$> Ledger.rebuild ctx key
  | query q => q.perform ctx

end Operation

/-! ## Queries -/

namespace Query

variable {ctx : Context} {l : Ledger} {s t : Store} {q : Query}

theorem perform_of_refused {e : LedgerError} (hctx : ctx.authorize q.key.tenant = .error e) :
    q.perform ctx l = .error e l := by
  have hauthorize : ∀ {α : Type} (k : Unit → Ledger.Action α),
      (Ledger.authorize ctx q.key.tenant >>= k) l = .error e l := by
    intro α k
    simp only [Ledger.authorize, hctx]
    rfl
  cases q with
  | versionAsOf key date => exact map_of_eq_error _ (hauthorize _)
  | timeline key => exact map_of_eq_error _ (hauthorize _)
  | audit key limit => exact map_of_eq_error _ (hauthorize _)
  | verify key => exact map_of_eq_error _ (hauthorize _)

/-- In a context of the tenant a question is answered from the store, which stays as it is. -/
theorem perform_of_granted (hctx : ctx.authorize q.key.tenant = .ok ()) :
    q.perform ctx l = Ledger.read (q.answer l.config) l := by
  cases q with
  | versionAsOf key date =>
    have hctx' : ctx.authorize key.tenant = .ok () := hctx
    simp only [perform, Functor.map, EStateM.map, Ledger.versionAsOf, Ledger.authorize, hctx',
      bind, EStateM.bind, pure, EStateM.pure, Ledger.read, answer]
    cases l.store.versionAsOf key date with
    | error e => rfl
    | ok found =>
      cases found with
      | none => rfl
      | some v => rfl
  | timeline key =>
    have hctx' : ctx.authorize key.tenant = .ok () := hctx
    simp only [perform, Functor.map, EStateM.map, Ledger.timeline, Ledger.authorize, hctx',
      bind, EStateM.bind, pure, EStateM.pure, Ledger.read, answer]
    cases Ledger.requireEntity l.store key with
    | error e => rfl
    | ok head =>
      simp only [Except.bind]
      cases l.store.timelineOf key with
      | error e => rfl
      | ok timeline => rfl
  | audit key limit =>
    have hctx' : ctx.authorize key.tenant = .ok () := hctx
    have hget : (get : Ledger.Action Ledger) l = .ok l l := rfl
    simp only [perform, Functor.map, EStateM.map, Ledger.audit, Ledger.authorize, hctx',
      bind, EStateM.bind, pure, EStateM.pure, Ledger.read, answer, hget]
    cases l.config.auditLimit limit with
    | error e => rfl
    | ok limit =>
      simp only [Except.bind]
      cases l.store.audit key limit with
      | error e => rfl
      | ok entries => rfl
  | verify key =>
    have hctx' : ctx.authorize key.tenant = .ok () := hctx
    simp only [perform, Functor.map, EStateM.map, Ledger.verify, Ledger.authorize, hctx',
      bind, EStateM.bind, pure, EStateM.pure, Ledger.read, answer]
    cases Ledger.isConsistent l.store key with
    | error e => rfl
    | ok b => rfl

end Query

/-! ## What a row tells of -/

theorem EventRow.key_of_event_eq_ok {row : EventRow} {e : Event} (h : row.event = .ok e) :
    e.key = row.key :=
  (LogRow.entry_eq_ok_iff.mp (EventRow.event_eq_ok_iff.mp h).2.2).2.2.2.2.1

theorem LogRow.key_of_entry_eq_ok {row : LogRow} {e : Entry} (h : row.entry = .ok e) :
    e.key = row.key :=
  (LogRow.entry_eq_ok_iff.mp h).2.2.2.2.1

theorem exists_of_bind_eq_ok {ε α β : Type} {x : Except ε α} {f : α → Except ε β} {b : β}
    (h : x >>= f = .ok b) : ∃ a, x = .ok a ∧ f a = .ok b := by
  cases x with
  | error e => cases h
  | ok a => exact ⟨a, rfl, h⟩

theorem exists_of_map_eq_ok {ε α β : Type} {x : Except ε α} {f : α → β} {b : β}
    (h : f <$> x = .ok b) : ∃ a, x = .ok a ∧ f a = b := by
  cases x with
  | error e => cases h
  | ok a => exact ⟨a, rfl, Except.ok.inj h⟩

theorem eq_ok_of_toOption {ε α : Type} {x : Except ε α} {a : α} (h : x.toOption = some a) :
    x = .ok a := by
  cases x with
  | error e => cases h
  | ok b => exact congrArg Except.ok (Option.some.inj h)

theorem VersionRow.key_of_version_eq_ok {row : VersionRow} {v : Version}
    (h : row.version = .ok v) : v.key = row.key :=
  (VersionRow.version_eq_ok_iff.mp h).2.2.2.2.2

namespace Store

variable {s t : Store} {key : EntityKey} {date : Date}

theorem mem_of_foldl_laterStart {rows : List VersionRow} {best : Option VersionRow}
    {row : VersionRow} (h : rows.foldl laterStart best = some row) :
    best = some row ∨ row ∈ rows := by
  induction rows generalizing best with
  | nil => exact .inl h
  | cons r rest ih =>
    rcases ih h with hbest | hrest
    · cases best with
      | none =>
        obtain rfl := Option.some.inj hbest
        exact .inr List.mem_cons_self
      | some b =>
        rw [laterStart] at hbest
        split at hbest
        · exact .inl hbest
        · obtain rfl := Option.some.inj hbest
          exact .inr List.mem_cons_self
    · exact .inr (List.mem_cons_of_mem r hrest)

theorem key_of_versionAsOf {v : Version} (h : s.versionAsOf key date = .ok (some v)) :
    v.key = key := by
  obtain ⟨row, hfold, hread⟩ := mapM_rowResult_eq_some_iff.mp h
  rcases mem_of_foldl_laterStart hfold with hnone | hrow
  · cases hnone
  · have hcovers := (List.mem_filter.mp hrow).2
    simp only [covers, Bool.and_eq_true, beq_iff_eq] at hcovers
    exact (VersionRow.key_of_version_eq_ok hread).trans hcovers.1.1

theorem key_of_mem_timelineOf {timeline : Timeline} (h : s.timelineOf key = .ok timeline)
    {v : Version} (hv : v ∈ timeline) : v.key = key := by
  obtain ⟨row, hrow, hread⟩ := exists_of_mem_readAll h hv
  have hkey := (List.mem_filter.mp (mem_sortBy.mp hrow)).2
  exact (VersionRow.key_of_version_eq_ok hread).trans (beq_iff_eq.mp hkey)

theorem key_of_mem_newest {ρ : Type} {toRow : ρ → LogRow} {rows : List ρ} {limit : Nat} {row : ρ}
    (h : row ∈ newest toRow rows key limit) : (toRow row).key = key :=
  beq_iff_eq.mp (List.mem_filter.mp (mem_sortBy.mp (List.mem_of_mem_take h))).2

theorem key_of_mem_audit {limit : Nat} {entries : List AuditEntry}
    (h : s.audit key limit = .ok entries) {a : AuditEntry} (ha : a ∈ entries) :
    a.entry.key = key := by
  obtain ⟨events, hevents, h⟩ := exists_of_bind_eq_ok h
  obtain ⟨corrections, hcorrections, h⟩ := exists_of_bind_eq_ok h
  obtain ⟨rescinds, hrescinds, h⟩ := exists_of_bind_eq_ok h
  rw [← Except.ok.inj h] at ha
  have hmem := mem_sortBy.mp (List.mem_of_mem_take ha)
  simp only [List.mem_append, List.mem_map] at hmem
  obtain ⟨e, he, rfl⟩ | ⟨e, he, rfl⟩ | ⟨e, he, rfl⟩ := hmem
  · obtain ⟨row, hrow, hread⟩ := exists_of_mem_readAll hevents he
    exact (EventRow.key_of_event_eq_ok hread).trans (key_of_mem_newest hrow)
  · obtain ⟨row, hrow, hread⟩ := exists_of_mem_readAll hcorrections he
    exact (LogRow.key_of_entry_eq_ok hread).trans (key_of_mem_newest hrow)
  · obtain ⟨row, hrow, hread⟩ := exists_of_mem_readAll hrescinds he
    exact (LogRow.key_of_entry_eq_ok hread).trans (key_of_mem_newest hrow)

theorem timelineOf_congr (h : s.ofEntity key = t.ofEntity key) :
    s.timelineOf key = t.timelineOf key :=
  congrArg (fun u : Store => readAll VersionRow.version
    (sortBy (fun a b => a.seqNo ≤ b.seqNo) u.versions)) h

theorem versionAsOf_congr (h : s.ofEntity key = t.ofEntity key) (date : Date) :
    s.versionAsOf key date = t.versionAsOf key date := by
  rw [versionAsOf, versionAsOf, filter_covers, filter_covers t, h]

theorem head_congr (h : s.ofEntity key = t.ofEntity key) : s.head key = t.head key := by
  rw [head, head, find?_heads, find?_heads, h]

theorem audit_congr (h : s.ofEntity key = t.ofEntity key) (limit : Nat) :
    s.audit key limit = t.audit key limit := by
  have hevents : newest EventRow.toLogRow s.events key limit =
      newest EventRow.toLogRow t.events key limit :=
    congrArg (fun u : Store => (sortBy (fun a b : EventRow => newestRow a.toLogRow b.toLogRow)
      u.events).take limit) h
  have hcorrections : newest id s.corrections key limit = newest id t.corrections key limit :=
    congrArg (fun u : Store => (sortBy newestRow u.corrections).take limit) h
  have hrescinds : newest id s.rescinds key limit = newest id t.rescinds key limit :=
    congrArg (fun u : Store => (sortBy newestRow u.rescinds).take limit) h
  rw [audit, audit, hevents, hcorrections, hrescinds]

theorem requireEntity_congr (h : s.ofEntity key = t.ofEntity key) :
    Ledger.requireEntity s key = Ledger.requireEntity t key := by
  rw [Ledger.requireEntity, Ledger.requireEntity, head_congr h]

end Store

namespace Query

variable {config : Config} {s t : Store} {q : Query}

/-- The answer to a question depends only on the rows of its entity. -/
theorem answer_congr (h : s.ofEntity q.key = t.ofEntity q.key) :
    q.answer config s = q.answer config t := by
  cases q with
  | versionAsOf key date =>
    change s.ofEntity key = t.ofEntity key at h
    rw [answer, answer, Store.versionAsOf_congr h]
  | timeline key =>
    change s.ofEntity key = t.ofEntity key at h
    rw [answer, answer, Store.requireEntity_congr h, Store.timelineOf_congr h]
  | audit key limit =>
    change s.ofEntity key = t.ofEntity key at h
    simp only [answer, Store.audit_congr h]
  | verify key =>
    change s.ofEntity key = t.ofEntity key at h
    rw [answer, answer, Ledger.isConsistent, Ledger.isConsistent, Store.requireEntity_congr h,
      Store.replayEntity_congr h, Store.timelineOf_congr h]

/-- A question is answered with what belongs to the tenant of its entity. -/
theorem isOf_of_answer_eq_ok {a : Answer} (h : q.answer config s = .ok a) :
    a.IsOf q.key.tenant := by
  cases q with
  | versionAsOf key date =>
    obtain ⟨found, hfound, h⟩ := exists_of_bind_eq_ok h
    cases found with
    | none => cases h
    | some v =>
      obtain rfl := Except.ok.inj h
      exact congrArg EntityKey.tenant (Store.key_of_versionAsOf hfound)
  | timeline key =>
    obtain ⟨head, -, h⟩ := exists_of_bind_eq_ok h
    obtain ⟨timeline, htimeline, rfl⟩ := exists_of_map_eq_ok h
    exact fun v hv => congrArg EntityKey.tenant (Store.key_of_mem_timelineOf htimeline hv)
  | audit key limit =>
    obtain ⟨limit, -, h⟩ := exists_of_bind_eq_ok h
    obtain ⟨entries, hentries, rfl⟩ := exists_of_map_eq_ok h
    exact fun a ha => congrArg EntityKey.tenant (Store.key_of_mem_audit hentries ha)
  | verify key =>
    obtain ⟨consistent, -, rfl⟩ := exists_of_map_eq_ok h
    trivial

end Query

/-! ## Mutations -/

namespace Store

variable {s s' t : Store} {a : AuditEntry} {p : EntityKey → Bool}

theorem key_of_event? {cond : EventRow → Bool} {e : Event} (h : s.event? cond = .ok (some e)) :
    ∃ row, cond row ∧ e.key = row.key := by
  obtain ⟨row, hfind, hread⟩ := event?_eq_some_iff.mp h
  exact ⟨row, List.find?_some hfind, EventRow.key_of_event_eq_ok hread⟩

theorem key_of_entry? {rows : List LogRow} {cond : LogRow → Bool} {e : Entry}
    (h : entry? rows cond = .ok (some e)) : ∃ row, cond row ∧ e.key = row.key := by
  obtain ⟨row, hfind, hread⟩ := entry?_eq_some_iff.mp h
  exact ⟨row, List.find?_some hfind, LogRow.key_of_entry_eq_ok hread⟩

theorem key_of_eventOn {key : EntityKey} {date : Date} {e : Event}
    (h : s.eventOn key date = .ok (some e)) : e.key = key := by
  obtain ⟨row, hon, hkey⟩ := key_of_event? h
  exact hkey.trans (isOn_iff.mp hon).1

theorem key_of_entryOn {rows : List LogRow} {key : EntityKey} {date : Date} {e : Entry}
    (h : entry? rows (isOn key date) = .ok (some e)) : e.key = key := by
  obtain ⟨row, hon, hkey⟩ := key_of_entry? h
  exact hkey.trans (isOn_iff.mp hon).1

theorem Prepares.restrict_of_not {m : Mutation} (ht : s.Prepares m t) (h : ¬p m.key) :
    t.restrict p = s.restrict p := by
  cases ht with
  | registered m hheads => rfl
  | registers htype hempty => exact restrict_register_of_not h

theorem Records.restrict_of_not (hrec : t.Records a s') (h : ¬p a.entry.key) :
    s'.restrict p = t.restrict p := by
  obtain ⟨-, timeline, last, hreplay, rfl⟩ := hrec
  obtain ⟨history, -, htimeline, -⟩ := replayEntity_eq_ok_iff.mp hreplay
  rw [restrict_materialize_of_not (fun v hv => key_of_mem_replay htimeline hv) h,
    restrict_add_of_not h]

end Store

namespace Mutation

variable {s s' : Store} {m : Mutation} {now : Nat} {out : Outcome AuditEntry}

theorem key_of_isEntry {c : Command} {e : Entry} (h : c.isEntry e) : e.key = c.key := by
  simp only [Command.isEntry, Bool.and_eq_true, beq_iff_eq] at h
  exact h.1.1.1.1.2

/-- A mutation is answered with an entry of its entity. -/
theorem key_of_session_eq_ok (h : m.session now s = .ok out s') : out.entry.entry.key = m.key := by
  cases m with
  | submit c =>
    obtain ⟨result, hresult, rfl⟩ := Session.map_eq_ok_iff.mp h
    obtain ⟨-, ⟨stored, -, hsame, rfl, -⟩ | ⟨-, -, t, -, ⟨stored, hon, -, -, -, rfl, -⟩ |
      ⟨-, rfl, -⟩⟩⟩ := Session.submit_eq_ok_iff.mp hresult
    · simp only [Submission.isEvent, Bool.and_eq_true] at hsame
      exact key_of_isEntry hsame.1.1
    · exact Store.key_of_eventOn hon
    · rfl
  | correct c =>
    obtain ⟨result, hresult, rfl⟩ := Session.map_eq_ok_iff.mp h
    obtain ⟨-, -, -, ⟨stored, -, hsame, rfl, -⟩ | ⟨-, -, ⟨stored, hon, -, rfl, -⟩ |
      ⟨-, rfl, -⟩⟩⟩ := Session.correct_eq_ok_iff.mp hresult
    · exact key_of_isEntry hsame
    · exact Store.key_of_entryOn hon
    · rfl
  | rescind c =>
    obtain ⟨result, hresult, rfl⟩ := Session.map_eq_ok_iff.mp h
    obtain ⟨-, target, -, -, ⟨stored, -, hsame, rfl, -⟩ | ⟨-, -, ⟨stored, hon, -, rfl, -⟩ |
      ⟨-, rfl, -⟩⟩⟩ := Session.rescind_eq_ok_iff.mp hresult
    · exact key_of_isEntry hsame
    · exact Store.key_of_entryOn hon
    · rfl

/-- A mutation keeps the rows of every selection that its entity is not in. -/
theorem restrict_of_session_eq_ok (hs : s.Sound) (h : m.session now s = .ok out s')
    {p : EntityKey → Bool} (hp : ¬p m.key) : s'.restrict p = s.restrict p := by
  rcases eq_or_records hs h with ⟨a, -, rfl⟩ | ⟨-, t, ht, hrec⟩
  · rfl
  · rw [hrec.restrict_of_not (by rwa [m.key_entry]), ht.restrict_of_not hp]

end Mutation

/-- A rebuild answers with versions of its entity and keeps the rows of every selection that the
entity is not in. -/
theorem Ledger.rederive_confined {s s' : Store} {key : EntityKey} {timeline : Timeline}
    (h : rederive key s = .ok timeline s') :
    (∀ v ∈ timeline, v.key = key) ∧
      ∀ p : EntityKey → Bool, ¬p key → s'.restrict p = s.restrict p := by
  obtain ⟨-, hstored⟩ := rederive_eq_ok_iff.mp h
  obtain ⟨last, hreplay, rfl⟩ := Session.rematerialize_eq_ok_iff.mp hstored
  obtain ⟨history, -, htimeline, -⟩ := Store.replayEntity_eq_ok_iff.mp hreplay
  have hkeys : ∀ v ∈ timeline, v.key = key := fun v hv => key_of_mem_replay htimeline hv
  exact ⟨hkeys, fun p hp => Store.restrict_materialize_of_not hkeys hp⟩

/-! ## All operations -/

namespace Context

variable {ctx : Context} {tenant : String}

theorem authorize_of_no_tenant (h : ctx.tenant = none) :
    ctx.authorize tenant = .error .tenantMissing := by
  rw [authorize, requireTenant, h]
  rfl

theorem authorize_of_other_tenant {other : String} (h : ctx.tenant = some other)
    (hne : other ≠ tenant) : ctx.authorize tenant = .error (.tenantMismatch other tenant) := by
  rw [authorize, requireTenant, h]
  exact if_neg hne

end Context

namespace Operation

variable {ctx : Context} {l l' : Ledger} {op : Operation}

theorem rebuild_of_refused {key : EntityKey} {e : LedgerError}
    (hctx : ctx.authorize key.tenant = .error e) : Ledger.rebuild ctx key l = .error e l := by
  simp only [Ledger.rebuild, Ledger.authorize, hctx]
  rfl

theorem rebuild_of_granted {key : EntityKey} (hctx : ctx.authorize key.tenant = .ok ()) :
    Ledger.rebuild ctx key l = Ledger.mutate (Ledger.rederive key) l := by
  simp only [Ledger.rebuild, Ledger.authorize, hctx]
  rfl

theorem perform_of_refused {e : LedgerError} (hctx : ctx.authorize op.key.tenant = .error e) :
    op.perform ctx l = .error e l := by
  cases op with
  | mutate m now =>
    have hrefused : m.perform ctx now l = .error e l := by
      rw [m.perform_eq]
      exact Ledger.guarded_of_refused _ l hctx
    exact map_of_eq_error _ hrefused
  | rebuild key => exact map_of_eq_error _ (rebuild_of_refused hctx)
  | query q => exact q.perform_of_refused hctx

/-- The operation fails and leaves the ledger as it was, or it answers with what belongs to the
tenant of its entity and keeps the rows of all selections that the entity is not in. -/
def Stays (ctx : Context) (op : Operation) (l : Ledger) : Prop :=
  (∃ e, op.perform ctx l = .error e l) ∨
    ∃ a s', op.perform ctx l = .ok a { l with store := s' } ∧ a.IsOf op.key.tenant ∧
      ∀ p : EntityKey → Bool, ¬p op.key → s'.restrict p = l.store.restrict p

theorem stays_mutate (hs : l.store.Sound) (ctx : Context) (m : Mutation) (now : Nat) :
    (Operation.mutate m now).Stays ctx l := by
  rcases Ledger.guarded_cases ctx m.key.tenant (m.session now) l with
    ⟨e, hfails⟩ | ⟨-, out, s', hsession, hok⟩
  · rw [← m.perform_eq] at hfails
    exact .inl ⟨e, map_of_eq_error _ hfails⟩
  · rw [← m.perform_eq] at hok
    exact .inr ⟨.entry out.entry, s', map_of_eq_ok _ hok,
      congrArg EntityKey.tenant (Mutation.key_of_session_eq_ok hsession),
      fun p hp => Mutation.restrict_of_session_eq_ok hs hsession hp⟩

theorem stays_rebuild (ctx : Context) (key : EntityKey) : (Operation.rebuild key).Stays ctx l := by
  cases hctx : ctx.authorize key.tenant with
  | error e => exact .inl ⟨e, map_of_eq_error _ (rebuild_of_refused hctx)⟩
  | ok u =>
    rcases Ledger.mutate_cases (Ledger.rederive key) l with ⟨e, hfails⟩ | ⟨timeline, s', h, hok⟩
    · exact .inl ⟨e, map_of_eq_error _ ((rebuild_of_granted hctx).trans hfails)⟩
    · obtain ⟨hkeys, hrows⟩ := Ledger.rederive_confined h
      exact .inr ⟨.timeline timeline, s', map_of_eq_ok _ ((rebuild_of_granted hctx).trans hok),
        fun v hv => congrArg EntityKey.tenant (hkeys v hv), hrows⟩

theorem stays_query (ctx : Context) (q : Query) : (Operation.query q).Stays ctx l := by
  cases hctx : ctx.authorize q.key.tenant with
  | error e => exact .inl ⟨e, q.perform_of_refused hctx⟩
  | ok u =>
    have hperform : (Operation.query q).perform ctx l = Ledger.read (q.answer l.config) l :=
      q.perform_of_granted hctx
    rw [Stays, hperform, Ledger.read]
    cases h : q.answer l.config l.store with
    | error e => exact .inl ⟨e, rfl⟩
    | ok a => exact .inr ⟨a, l.store, rfl, q.isOf_of_answer_eq_ok h, fun p hp => rfl⟩

theorem stays (hs : l.store.Sound) (ctx : Context) (op : Operation) : op.Stays ctx l := by
  cases op with
  | mutate m now => exact stays_mutate hs ctx m now
  | rebuild key => exact stays_rebuild ctx key
  | query q => exact stays_query ctx q

end Operation

/-! ## Failures -/

namespace Ledger

variable {α : Type} {action : Action α} {l : Ledger} {message : String}

/-- What an operation says when it fails. -/
def failure? (action : Action α) (l : Ledger) : Option String :=
  match action l with
  | .ok _ _ => none
  | .error e _ => some e.message

theorem exists_of_failure?_eq_some (h : failure? action l = some message) :
    ∃ e l', action l = .error e l' ∧ e.message = message := by
  rw [failure?] at h
  split at h
  next => cases h
  next e l' hfails => exact ⟨e, l', hfails, Option.some.inj h⟩

end Ledger

end DatedLedger
