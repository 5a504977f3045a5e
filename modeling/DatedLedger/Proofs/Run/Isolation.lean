import DatedLedger.Proofs.Run.Operations
import DatedLedger.Proofs.Run.Tenants

/-!
# Tenants are isolated

An operation is let through only in a context of its tenant.  It then answers with
entries and versions of that tenant, and leaves the rows of all others as they are.
What it answers is decided by the rows of the tenant: other tenants are noticed only
in the position that a new entry gets, and in identifiers that they hold already.
-/

namespace DatedLedger

variable {α : Type} {s s' t t' : Store} {tenant : String} {key : EntityKey}

namespace Mutation

/-- The log that the mutation is for. -/
def log : Mutation → Log
  | submit _ => .events
  | correct _ => .corrections
  | rescind _ => .rescinds

/-- No other tenant holds the identifier of the mutation. -/
def HasOwnId (m : Mutation) (s : Store) : Prop :=
  ∀ row ∈ s.rows m.log, row.id = m.command.id → row.key.tenant = m.key.tenant

open Store

variable {now : Nat}

theorem related_submit {c : Submission} (hst : s.LooksLike t c.key.tenant)
    (hsound : s.Sound) (hs : s.Counted) (ht : t.Counted) (hsize : s.size + 1 < 2 ^ 63)
    (hsize' : t.size + 1 < 2 ^ 63) (hid : HasOwnId (submit c) s) (hid' : HasOwnId (submit c) t) :
    Session.Related (fun out _ out' _ => Outcome.Same (c.event s.nextPosition now)
      (c.event t.nextPosition now) out out') (Session.submit c now) s (Session.submit c now) t := by
  have hbyId : s.eventById c.id = t.eventById c.id :=
    hst.event?_eq (fun row hrow h => hid _ (List.mem_map_of_mem hrow) (hasId_iff.mp h))
      fun row hrow h => hid' _ (List.mem_map_of_mem hrow) (hasId_iff.mp h)
  have hbySubmission : s.eventBySubmission c.key.tenant c.submission =
      t.eventBySubmission c.key.tenant c.submission :=
    hst.event?_eq (fun _ _ h => tenant_of_hasSubmission h) fun _ _ h => tenant_of_hasSubmission h
  have hon : s.eventOn c.key c.date = t.eventOn c.key c.date :=
    hst.event?_eq (fun _ _ h => tenant_of_isOn h) fun _ _ h => tenant_of_isOn h
  have hrescind : s.rescindOn c.key c.date = t.rescindOn c.key c.date :=
    hst.rescind?_eq (fun _ _ h => tenant_of_isOn h) fun _ _ h => tenant_of_isOn h
  have hidentity : Session.Related (fun _ s' _ t' => s.Identifies c s.nextPosition s' ∧
        t.Identifies c t.nextPosition t')
      (Session.resolveIdentity c s.nextPosition) s (Session.resolveIdentity c t.nextPosition) t :=
    .resolveIdentity (congrArg _ (hst.head_eq rfl)) fun _ =>
      .register (fun k _ => hst.holders c.kind k) (hst.headFault?_eq _ _)
  refine .submit hbyId hbySubmission hidentity hon hrescind ?_
  intro hnone hnone' hfree s' t' hs' ht'
  have hfits := hs.fits_submission hsize hnone hnone' hfree now
  have hfits' := ht.fits_submission hsize' (hbyId.symm.trans hnone)
    (hbySubmission.symm.trans hnone') (hon.symm.trans hfree) now
  have hreplay : ((s.add (.event (c.event s.nextPosition now))).replayEntity c.key).map Prod.fst =
      ((t.add (.event (c.event t.nextPosition now))).replayEntity c.key).map Prod.fst :=
    hsound.replayEntity_add_eq rfl (hst.entities c.key rfl) rfl
      (forall_rows_events (event?_eq_none_iff.mp hfree))
  refine Session.Related.appendEvent rfl ?_ ?_ ?_
  · rw [hs'.rows_eq]
    exact hfits
  · rw [ht'.rows_eq]
    exact hfits'
  · rw [replayEntity_eq_of_logs_eq (logs_add hs'.logs_eq_logs _),
      replayEntity_eq_of_logs_eq (logs_add ht'.logs_eq_logs _)]
    exact hreplay

theorem related_correct {c : Command} (hst : s.LooksLike t c.key.tenant)
    (hsound : s.Sound) (hs : s.Counted) (ht : t.Counted) (hsize : s.size + 1 < 2 ^ 63)
    (hsize' : t.size + 1 < 2 ^ 63) (hid : HasOwnId (correct c) s) (hid' : HasOwnId (correct c) t) :
    Session.Related (fun out _ out' _ => Outcome.Same (c.entry s.nextPosition now)
      (c.entry t.nextPosition now) out out')
      (Session.correct c now) s (Session.correct c now) t := by
  have hon : s.eventOn c.key c.date = t.eventOn c.key c.date :=
    hst.event?_eq (fun _ _ h => tenant_of_isOn h) fun _ _ h => tenant_of_isOn h
  have hrescind : s.rescindOn c.key c.date = t.rescindOn c.key c.date :=
    hst.rescind?_eq (fun _ _ h => tenant_of_isOn h) fun _ _ h => tenant_of_isOn h
  have hbyId : s.correctionById c.id = t.correctionById c.id :=
    hst.correction?_eq (fun row hrow h => hid row hrow (hasId_iff.mp h))
      fun row hrow h => hid' row hrow (hasId_iff.mp h)
  have hbySubmission : s.correctionBySubmission c.key.tenant c.submission =
      t.correctionBySubmission c.key.tenant c.submission :=
    hst.correction?_eq (fun _ _ h => tenant_of_hasSubmission h)
      fun _ _ h => tenant_of_hasSubmission h
  have hcorrection : s.correctionOn c.key c.date = t.correctionOn c.key c.date :=
    hst.correction?_eq (fun _ _ h => tenant_of_isOn h) fun _ _ h => tenant_of_isOn h
  refine .correct hon hrescind hbyId hbySubmission hcorrection fun hnone hnone' hfree => ?_
  have hfits := hs.fits_correction hsize hnone hnone' hfree now
  have hfits' := ht.fits_correction hsize' (hbyId.symm.trans hnone)
    (hbySubmission.symm.trans hnone') (hcorrection.symm.trans hfree) now
  exact Session.Related.appendCorrection rfl hfits hfits'
    (hsound.replayEntity_add_eq rfl (hst.entities c.key rfl) rfl (entry?_eq_none_iff.mp hfree))

theorem related_rescind {c : Command} (hst : s.LooksLike t c.key.tenant)
    (hsound : s.Sound) (hs : s.Counted) (ht : t.Counted) (hsize : s.size + 1 < 2 ^ 63)
    (hsize' : t.size + 1 < 2 ^ 63) (hid : HasOwnId (rescind c) s) (hid' : HasOwnId (rescind c) t) :
    Session.Related (fun out _ out' _ => Outcome.Same (c.entry s.nextPosition now)
      (c.entry t.nextPosition now) out out')
      (Session.rescind c now) s (Session.rescind c now) t := by
  have hon : s.eventOn c.key c.date = t.eventOn c.key c.date :=
    hst.event?_eq (fun _ _ h => tenant_of_isOn h) fun _ _ h => tenant_of_isOn h
  have hrescind : s.rescindOn c.key c.date = t.rescindOn c.key c.date :=
    hst.rescind?_eq (fun _ _ h => tenant_of_isOn h) fun _ _ h => tenant_of_isOn h
  have hbyId : s.rescindById c.id = t.rescindById c.id :=
    hst.rescind?_eq (fun row hrow h => hid row hrow (hasId_iff.mp h))
      fun row hrow h => hid' row hrow (hasId_iff.mp h)
  have hbySubmission : s.rescindBySubmission c.key.tenant c.submission =
      t.rescindBySubmission c.key.tenant c.submission :=
    hst.rescind?_eq (fun _ _ h => tenant_of_hasSubmission h) fun _ _ h => tenant_of_hasSubmission h
  refine .rescind hon hbyId hbySubmission hrescind fun hnone hnone' hfree => ?_
  have hfits := hs.fits_rescind hsize hnone hnone' hfree now
  have hfits' := ht.fits_rescind hsize' (hbyId.symm.trans hnone)
    (hbySubmission.symm.trans hnone') (hrescind.symm.trans hfree) now
  exact Session.Related.appendRescind rfl hfits hfits'
    (hsound.replayEntity_add_eq rfl (hst.entities c.key rfl) rfl (entry?_eq_none_iff.mp hfree))

/-- Where two stores look the same to a tenant, and no other tenant holds its identifier, a mutation
has the same outcome. -/
theorem related {m : Mutation} (hst : s.LooksLike t m.key.tenant) (hsound : s.Sound)
    (hs : s.Counted) (ht : t.Counted) (hsize : s.size + 1 < 2 ^ 63) (hsize' : t.size + 1 < 2 ^ 63)
    (hid : m.HasOwnId s) (hid' : m.HasOwnId t) :
    Session.Related (fun out _ out' _ => Outcome.Same (m.entry s.nextPosition now)
      (m.entry t.nextPosition now) out out') (m.session now) s (m.session now) t := by
  have hmap : ∀ {β : Type} (f : β → AuditEntry) {e e' : β} {out out' : Outcome β},
      Outcome.Same e e' out out' →
        Outcome.Same (f e) (f e') (Outcome.map f out) (Outcome.map f out') := by
    rintro β f e e' out out' (⟨a, rfl, rfl⟩ | ⟨rfl, rfl⟩)
    · exact .inl ⟨f a, rfl, rfl⟩
    · exact .inr ⟨rfl, rfl⟩
  cases m with
  | submit c =>
    exact (related_submit hst hsound hs ht hsize hsize' hid hid').map fun _ _ _ _ => hmap _
  | correct c =>
    exact (related_correct hst hsound hs ht hsize hsize' hid hid').map fun _ _ _ _ => hmap _
  | rescind c =>
    exact (related_rescind hst hsound hs ht hsize hsize' hid hid').map fun _ _ _ _ => hmap _

end Mutation

/-! ## The rows that a mutation leaves -/

namespace Store

variable {a b : AuditEntry} {s₁ t₁ : Store}

/-- The store with a new entry, whose position is the last of its entity. -/
def addLast (s : Store) (a : AuditEntry) : Store :=
  { s.add a with
    heads := s.heads.map fun row =>
      if row.key = a.entry.key then { row with lastPos := signedWord a.entry.pos } else row }

/-- Two stores have the same rows apart from two entries, which each of them has recorded last of
their entity. -/
def SameBut (a b : AuditEntry) (s t : Store) : Prop :=
  ∃ u : Store, (u.addLast a).Perm s ∧ (u.addLast b).Perm t

theorem Perm.addLast (h : s.Perm t) (a : AuditEntry) : (s.addLast a).Perm (t.addLast a) :=
  { h.add a with heads := h.heads.map _ }

/-- The position of a new entry can be put in when all else is done. -/
theorem materialize_add (s : Store) (a : AuditEntry) (timeline : Timeline) :
    (s.add a).materialize a.entry.key timeline (some a.entry.pos) =
      (s.materialize a.entry.key timeline (some 0)).addLast a := by
  have hheads : ((s.add a).materialize a.entry.key timeline (some a.entry.pos)).heads =
      ((s.materialize a.entry.key timeline (some 0)).addLast a).heads := by
    rw [materialize, materialize, Store.addLast, add_heads, List.map_map]
    apply List.map_congr_left
    intro row _
    by_cases hkey : row.key = a.entry.key
    · simp [hkey, HeadRow.summarised]
    · simp [hkey]
  refine eq_of_parts ?_ hheads ?_
  · cases a <;> rfl
  · cases a <;> rfl

theorem Records.eq_addLast (hs : s.Counted) (hsize : s.size + 1 < 2 ^ 63)
    (hpos : a.entry.pos = s.nextPosition) (hlogs : s₁.logs = s.logs) (hrec : s₁.Records a s')
    (htenant : a.entry.key.tenant = tenant) :
    ∃ timeline last, (s.add a).replayEntity a.entry.key = .ok (timeline, last) ∧
      s'.ofTenant tenant =
        ((s₁.ofTenant tenant).materialize a.entry.key timeline (some 0)).addLast a := by
  obtain ⟨-, timeline, last, hreplay, rfl⟩ := hrec
  rw [replayEntity_eq_of_logs_eq (logs_add hlogs a)] at hreplay
  obtain ⟨h, hreads, htimeline, hlast⟩ := replayEntity_eq_ok_iff.mp hreplay
  rw [hs.max?_positions_add hsize hpos hreads] at hlast
  have hkeys : ∀ v ∈ timeline, v.key = a.entry.key := fun v hv => key_of_mem_replay htimeline hv
  have hmine : (a.entry.key.tenant == tenant) = true := beq_iff_eq.mpr htenant
  refine ⟨timeline, last, hreplay, ?_⟩
  rw [hlast, ofTenant, restrict_materialize hkeys hmine, restrict_add hmine, materialize_add]
  rfl

theorem Perm.register_materialize (h : s.Perm t) {row row' : HeadRow} {timeline : Timeline}
    {last : Option Position} (hkey : row.key = key) (hkey' : row'.key = key)
    (hrow : row.summarised timeline last = row'.summarised timeline last) :
    (({ s with heads := s.heads ++ [row] } : Store).materialize key timeline last).Perm
      (({ t with heads := t.heads ++ [row'] } : Store).materialize key timeline last) := by
  refine { h.materialize key timeline last with heads := ?_ }
  simp only [Store.materialize, List.map_append, List.map_singleton, hkey, hkey', if_true, hrow]
  exact (h.heads.map _).append_right _

/-- From the rows that a mutation prepares, both stores derive the same. -/
theorem Prepares.materialize_perm {m : Mutation} (hst : s.LooksLike t m.key.tenant)
    (hs : s.Prepares m s₁) (ht : t.Prepares m t₁) (timeline : Timeline) :
    ((s₁.ofTenant m.key.tenant).materialize m.key timeline (some 0)).Perm
      ((t₁.ofTenant m.key.tenant).materialize m.key timeline (some 0)) := by
  have hentity := hst.entities m.key rfl
  cases hs with
  | registered m hheads =>
    cases ht with
    | registered _ _ => exact hst.rows.materialize m.key timeline (some 0)
    | registers htype hempty =>
      have hnil := congrArg Store.heads (hentity.trans hempty)
      exact absurd (hheads.symm.trans hnil) (List.cons_ne_nil _ _)
  | @registers c pos htype hempty =>
    cases ht with
    | registered _ hheads =>
      have hnil := congrArg Store.heads (hentity.symm.trans hempty)
      exact absurd (hheads.symm.trans hnil) (List.cons_ne_nil _ _)
    | @registers _ pos' _ _ =>
      have hmine : ∀ q, ((c.headRow q).key.tenant == c.key.tenant) = true :=
        fun q => beq_self_eq_true c.key.tenant
      have hregister : ∀ (u : Store) (q : Position),
          ({ u with heads := u.heads ++ [c.headRow q] } : Store).ofTenant c.key.tenant =
            { u.ofTenant c.key.tenant with
              heads := (u.ofTenant c.key.tenant).heads ++ [c.headRow q] } :=
        fun u q => restrict_register (p := fun k => k.tenant == c.key.tenant) (hmine q)
      change ((ofTenant { s with heads := s.heads ++ [c.headRow pos] } c.key.tenant).materialize
        c.key timeline (some 0)).Perm
          ((ofTenant { t with heads := t.heads ++ [c.headRow pos'] } c.key.tenant).materialize
            c.key timeline (some 0))
      rw [hregister s pos, hregister t pos']
      -- By simp rather than by rfl, which would compare the two positions as words.
      have hrow : (c.headRow pos).summarised timeline (some 0) =
          (c.headRow pos').summarised timeline (some 0) := by
        simp only [HeadRow.summarised, Submission.headRow]
      exact hst.rows.register_materialize rfl rfl hrow

/-- Two mutations that are recorded in stores which look the same to their tenant leave the same
rows of the tenant, apart from their entries. -/
theorem Prepares.sameBut {m : Mutation} {now : Nat} (hst : s.LooksLike t m.key.tenant)
    (hsound : s.Sound) (hs : s.Counted) (ht : t.Counted) (hsize : s.size + 1 < 2 ^ 63)
    (hsize' : t.size + 1 < 2 ^ 63) (hprepares : s.Prepares m s₁)
    (hrec : s₁.Records (m.entry s.nextPosition now) s') (hprepares' : t.Prepares m t₁)
    (hrec' : t₁.Records (m.entry t.nextPosition now) t') :
    SameBut (m.entry s.nextPosition now) (m.entry t.nextPosition now)
      (s'.ofTenant m.key.tenant) (t'.ofTenant m.key.tenant) := by
  have hkey : ∀ pos, (m.entry pos now).entry.key = m.key := fun pos => m.key_entry pos now
  have hpos : ∀ pos, (m.entry pos now).entry.pos = pos := fun pos => by cases m <;> rfl
  have hsame : (m.entry s.nextPosition now).unplaced = (m.entry t.nextPosition now).unplaced := by
    cases m <;> rfl
  have hnew : ∀ row ∈ s.rows (m.entry s.nextPosition now).log,
      ¬isOn m.key (m.entry s.nextPosition now).entry.date row := by
    intro row hrow hon
    obtain ⟨hrowKey, hdate⟩ := isOn_iff.mp hon
    have hrow' : row ∈ s₁.rows (m.entry s.nextPosition now).log := by
      rwa [hprepares.rows_eq]
    refine (Session.fault?_eq_none_iff.mp hrec.1 row hrow').2.2.1 ⟨?_, hdate.symm⟩
    exact (hkey _).trans hrowKey.symm
  obtain ⟨timeline, last, hreplay, hrows⟩ := hrec.eq_addLast hs hsize (hpos _)
    hprepares.logs_eq (congrArg EntityKey.tenant (hkey _))
  obtain ⟨timeline', last', hreplay', hrows'⟩ := hrec'.eq_addLast ht hsize' (hpos _)
    hprepares'.logs_eq (congrArg EntityKey.tenant (hkey _))
  have htimeline := hsound.replayEntity_add_eq (hkey _) (hst.entities m.key rfl) hsame hnew
  rw [hkey] at hreplay hreplay' hrows hrows'
  rw [hreplay, hreplay'] at htimeline
  obtain rfl : timeline = timeline' := Except.ok.inj htimeline
  rw [hrows, hrows']
  exact ⟨_, .refl _, (hprepares.materialize_perm hst hprepares' timeline).addLast _⟩

end Store

/-! ## Isolation -/

/-- What an operation answers, without what becomes of the ledger. -/
def Ledger.answer {α : Type} (action : Ledger.Action α) (l : Ledger) : Except LedgerError α :=
  match action l with
  | .ok a _ => .ok a
  | .error e _ => .error e

/-- An operation stays within the tenant of its entity: it is refused in every other context, it
changes no row of another tenant, and it tells only of the tenant of its context. -/
structure Operation.Confined (ctx : Context) (op : Operation) (l : Ledger) : Prop where
  missing : ctx.tenant = none → op.perform ctx l = .error .tenantMissing l
  mismatch : ∀ other, ctx.tenant = some other → other ≠ op.key.tenant →
    op.perform ctx l = .error (.tenantMismatch other op.key.tenant) l
  keeps : ∀ other, other ≠ op.key.tenant →
    (Ledger.after (op.perform ctx) l).store.ofTenant other = l.store.ofTenant other
  answers : ∀ a l', op.perform ctx l = .ok a l' →
    ctx.tenant = some op.key.tenant ∧ a.IsOf op.key.tenant

/-- A mutation fails on two ledgers with the same cause, finds the same entry on record, or is
recorded, each time at the next position, and leaves the same rows of its tenant otherwise. -/
inductive Mutation.ActsAlike (ctx : Context) (m : Mutation) (now : Nat) (l l' : Ledger) : Prop where
  | fails {e : LedgerError} (h : m.perform ctx now l = .error e l)
      (h' : m.perform ctx now l' = .error e l')
  | finds {a : AuditEntry} (h : m.perform ctx now l = .ok a l)
      (h' : m.perform ctx now l' = .ok a l')
      (hfinds : (m.session now).Answers l.store a) (hfinds' : (m.session now).Answers l'.store a)
  | records {s s' : Store}
      (h : m.perform ctx now l = .ok (m.entry l.store.nextPosition now) { l with store := s })
      (h' : m.perform ctx now l' = .ok (m.entry l'.store.nextPosition now) { l' with store := s' })
      (hrecords : (m.session now).transaction l.store =
        .ok (.appended (m.entry l.store.nextPosition now)) s)
      (hrecords' : (m.session now).transaction l'.store =
        .ok (.appended (m.entry l'.store.nextPosition now)) s')
      (hrows : Store.SameBut (m.entry l.store.nextPosition now) (m.entry l'.store.nextPosition now)
        (s.ofTenant m.key.tenant) (s'.ofTenant m.key.tenant))

namespace Operation

variable {ctx : Context} {l : Ledger} {op : Operation}

theorem confined (hs : l.store.Sound) (ctx : Context) (op : Operation) : op.Confined ctx l where
  missing h := perform_of_refused (Context.authorize_of_no_tenant h)
  mismatch other h hne := perform_of_refused (Context.authorize_of_other_tenant h hne)
  keeps other hne := by
    have hother : ¬(op.key.tenant == other) = true := fun h => hne (beq_iff_eq.mp h).symm
    rcases stays hs ctx op with ⟨e, hfails⟩ | ⟨a, s', hok, -, hkeeps⟩
    · rw [Ledger.after, hfails]
    · rw [Ledger.after, hok]
      exact hkeeps (fun key => key.tenant == other) hother
  answers a l' h := by
    rcases stays hs ctx op with ⟨e, hfails⟩ | ⟨b, s', hok, hisOf, -⟩
    · rw [hfails] at h
      cases h
    · rw [hok] at h
      cases h
      refine ⟨?_, hisOf⟩
      cases hctx : ctx.authorize op.key.tenant with
      | error e =>
        rw [perform_of_refused hctx] at hok
        cases hok
      | ok u => exact Context.authorize_eq_ok_iff.mp hctx

end Operation

theorem Query.answer_perform_congr {q : Query} {l : Ledger}
    (h : l.store.ofEntity q.key = t.ofEntity q.key) (ctx : Context) :
    Ledger.answer (q.perform ctx) l = Ledger.answer (q.perform ctx) { l with store := t } := by
  cases hctx : ctx.authorize q.key.tenant with
  | error e => rw [Ledger.answer, Ledger.answer, perform_of_refused hctx, perform_of_refused hctx]
  | ok u =>
    rw [Ledger.answer, Ledger.answer, perform_of_granted hctx, perform_of_granted hctx,
      Ledger.read, Ledger.read, answer_congr h]
    cases q.answer l.config t with
    | error e => rfl
    | ok a => rfl

namespace Mutation

variable {m : Mutation} {l : Ledger} {now : Nat}

theorem perform_of_refused {ctx : Context} {e : LedgerError}
    (hctx : ctx.authorize m.key.tenant = .error e) : m.perform ctx now l = .error e l := by
  rw [m.perform_eq]
  exact Ledger.guarded_of_refused _ l hctx

theorem perform_of_granted {ctx : Context} (hctx : ctx.authorize m.key.tenant = .ok ()) :
    m.perform ctx now l = (Outcome.entry <$> Ledger.mutate (m.session now)) l := by
  rw [m.perform_eq]
  exact Ledger.guarded_of_granted _ l hctx

/-- Where a mutation has the same outcome in two stores, it has changed neither or recorded its
entry in both. -/
theorem eq_or_records_of_same {out out' : Outcome AuditEntry} (hs : s.Sound) (ht : t.Sound)
    (h : m.session now s = .ok out s') (h' : m.session now t = .ok out' t')
    (hsame : Outcome.Same (m.entry s.nextPosition now) (m.entry t.nextPosition now) out out') :
    (∃ a, (out = .existing a ∧ s' = s) ∧ out' = .existing a ∧ t' = t) ∨
      (out = .appended (m.entry s.nextPosition now) ∧
        ∃ s₁, s.Prepares m s₁ ∧ s₁.Records (m.entry s.nextPosition now) s') ∧
      out' = .appended (m.entry t.nextPosition now) ∧
        ∃ t₁, t.Prepares m t₁ ∧ t₁.Records (m.entry t.nextPosition now) t' := by
  rcases hsame with ⟨a, rfl, rfl⟩ | ⟨rfl, rfl⟩
  · rcases eq_or_records hs h with ⟨b, -, rfl⟩ | ⟨hout, -⟩
    · rcases eq_or_records ht h' with ⟨b', -, rfl⟩ | ⟨hout', -⟩
      · exact .inl ⟨a, ⟨rfl, rfl⟩, rfl, rfl⟩
      · cases hout'
    · cases hout
  · rcases eq_or_records hs h with ⟨b, hout, -⟩ | ⟨-, hrecorded⟩
    · cases hout
    · rcases eq_or_records ht h' with ⟨b', hout', -⟩ | ⟨-, hrecorded'⟩
      · cases hout'
      · exact .inr ⟨⟨rfl, hrecorded⟩, rfl, hrecorded'⟩

theorem actsAlike (hst : l.store.LooksLike t m.key.tenant) (hsound : l.store.Sound)
    (hsound' : t.Sound) (hs : l.store.Counted) (ht : t.Counted) (hsize : l.store.size + 1 < 2 ^ 63)
    (hsize' : t.size + 1 < 2 ^ 63) (hid : m.HasOwnId l.store) (hid' : m.HasOwnId t)
    (ctx : Context) (now : Nat) : m.ActsAlike ctx now l { l with store := t } := by
  cases hctx : ctx.authorize m.key.tenant with
  | error e => exact .fails (perform_of_refused hctx) (perform_of_refused hctx)
  | ok u =>
    have hperform : ∀ u : Store, m.perform ctx now { l with store := u } =
        (Outcome.entry <$> Ledger.mutate (m.session now)) { l with store := u } :=
      fun u => perform_of_granted hctx
    by_cases hlocked : l.writeLocked
    · exact .fails
        ((hperform l.store).trans (map_of_eq_error _ (Ledger.mutate_of_locked _ hlocked)))
        ((hperform t).trans (map_of_eq_error _ (Ledger.mutate_of_locked _ hlocked)))
    · rcases (related hst hsound hs ht hsize hsize' hid hid').ok_or_error with
        ⟨out, s', out', t', hsession, hsession', hsame⟩ | ⟨e, s', t', hsession, hsession'⟩
      · have h := (hperform l.store).trans
          (map_of_eq_ok _ (Ledger.mutate_of_eq_ok hlocked hsession))
        have h' := (hperform t).trans
          (map_of_eq_ok _ (Ledger.mutate_of_eq_ok hlocked hsession'))
        rcases eq_or_records_of_same hsound hsound' hsession hsession' hsame with
          ⟨a, ⟨rfl, rfl⟩, rfl, rfl⟩ |
          ⟨⟨rfl, s₁, hprepares, hrec⟩, rfl, t₁, hprepares', hrec'⟩
        · exact .finds h h' (Session.transaction_of_eq_ok hsession)
            (Session.transaction_of_eq_ok hsession')
        · exact .records h h' (Session.transaction_of_eq_ok hsession)
            (Session.transaction_of_eq_ok hsession')
            (hprepares.sameBut hst hsound hs ht hsize hsize' hrec hprepares' hrec')
      · exact .fails
          ((hperform l.store).trans
            (map_of_eq_error _ (Ledger.mutate_of_eq_error hlocked hsession)))
          ((hperform t).trans (map_of_eq_error _ (Ledger.mutate_of_eq_error hlocked hsession')))

end Mutation

namespace Store

/-- Tenants are isolated in every store that a run reaches.  An operation stays within the tenant
that it is asked for.  And two stores that have the same rows of a tenant cannot be told apart by
that tenant: every query has the same answer, and every mutation whose identifier no other tenant
holds acts alike, up to the position of the entry that it records. -/
theorem isolated_after (config : Config) (locked : Bool) (ctx : Context) :
    (∀ rs (op : Operation), op.Confined ctx ⟨config, empty.after rs, locked⟩) ∧
    ∀ rs rs' tenant, (empty.after rs).size < 2 ^ 63 - 1 → (empty.after rs').size < 2 ^ 63 - 1 →
      ((empty.after rs).ofTenant tenant).Perm ((empty.after rs').ofTenant tenant) →
      (∀ q : Query, q.key.tenant = tenant →
        Ledger.answer (q.perform ctx) ⟨config, empty.after rs, locked⟩ =
          Ledger.answer (q.perform ctx) ⟨config, empty.after rs', locked⟩) ∧
      ∀ m : Mutation, m.key.tenant = tenant → m.HasOwnId (empty.after rs) →
        m.HasOwnId (empty.after rs') → ∀ now, m.ActsAlike ctx now
          ⟨config, empty.after rs, locked⟩ ⟨config, empty.after rs', locked⟩ := by
  refine ⟨fun rs op => op.confined (sound_after rs) ctx, ?_⟩
  intro rs rs' tenant hsize hsize' hperm
  have hlooks := looksLike_after (by omega) (by omega) hperm
  constructor
  · intro q hq
    exact q.answer_perform_congr (l := ⟨config, empty.after rs, locked⟩)
      (hlooks.entities q.key hq) ctx
  · intro m hm hid hid' now
    subst hm
    exact Mutation.actsAlike (l := ⟨config, empty.after rs, locked⟩) hlooks (sound_after rs)
      (sound_after rs') (counted_after rs (by omega)) (counted_after rs' (by omega))
      (Nat.add_lt_of_lt_sub hsize) (Nat.add_lt_of_lt_sub hsize') hid hid' ctx now

end Store

/-- The desk of another tenant. -/
def Sample.elsewhere : Submission :=
  { Sample.created with id := "e-9", key := ⟨"globex", "desk-7"⟩ }

/-- To the tenant of the assignment it makes no difference whether another tenant has one. -/
theorem Store.isolated_after_sample :
    (Mutation.submit Sample.updated).ActsAlike (.ofTenant "acme") 2
      ⟨.standard, empty.after [.submit Sample.created 1], false⟩
      ⟨.standard, empty.after [.submit Sample.created 1, .submit Sample.elsewhere 1], false⟩ := by
  have hrows : (empty.after [.submit Sample.created 1]).ofTenant "acme" =
      (empty.after [.submit Sample.created 1, .submit Sample.elsewhere 1]).ofTenant "acme" := by
    decide +kernel
  obtain ⟨-, htwo⟩ := isolated_after .standard false (.ofTenant "acme")
  obtain ⟨-, hmutations⟩ := htwo [.submit Sample.created 1]
    [.submit Sample.created 1, .submit Sample.elsewhere 1] "acme"
    (Nat.lt_of_le_of_lt (size_after_le _) (by decide))
    (Nat.lt_of_le_of_lt (size_after_le _) (by decide))
    (hrows ▸ .refl _)
  refine hmutations (.submit Sample.updated) rfl ?_ ?_ 2
  · rw [Mutation.HasOwnId]
    decide +kernel
  · rw [Mutation.HasOwnId]
    decide +kernel

end DatedLedger
