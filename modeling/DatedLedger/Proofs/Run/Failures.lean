import DatedLedger.Proofs.Run.Isolation
import DatedLedger.Proofs.Run.Verification
import DatedLedger.Proofs.Store.Failures

/-!
# No operation fails for its tables

In a store that a run reaches, every key that a statement could violate has been looked
up before.  Positions are the next ones, the calendar has fewer dates than there are
numbers of versions, and identities are given once.  So an operation that fails is
refused, or finds the right to write taken, or meets a payload whose text is not read
back.  Where all payloads are integral, the last does not happen either.
-/

namespace DatedLedger

/-- The payload of the operation, if it has one, is integral. -/
def Operation.Integral : Operation → Prop
  | mutate m _ => m.command.payload.Integral
  | rebuild _ => True
  | query _ => True

/-- What an operation of a ledger may fail for. -/
inductive Operation.FailsFor (l : Ledger) : Operation → LedgerError → Prop where
  | refused {op : Operation} {e : LedgerError} (he : e.IsRefusal) : FailsFor l op e
  /-- Another connection holds the right to write. -/
  | locked {op : Operation} (hop : ∀ q, op ≠ .query q) (hlocked : l.writeLocked) :
      FailsFor l op (.storage .locked)
  /-- The payload of a mutation is not read back from its text. -/
  | payload {m : Mutation} {now : Nat} {fault : PayloadFault}
      (hparse : Payload.parse m.command.payload.text = .error fault) :
      FailsFor l (.mutate m now) (.row (.payload fault))
  /-- A stored version of the entity is not read back. -/
  | version {q : Query} {row : VersionRow} {fault : RowFault} (hrow : row ∈ l.store.versions)
      (hkey : row.key = q.key) (hread : row.version = .error fault) :
      FailsFor l (.query q) (.row fault)

/-! ## Reading what was written -/

namespace Store

variable {s t : Store} {key : EntityKey} {h : History} {e : LedgerError} {timeline : Timeline}
  {last : Option Position} {P : LedgerError → Prop} {a : AuditEntry}

theorem Sound.decodes (hs : s.Sound) : s.Decodes where
  events := by
    intro row hrow
    obtain ⟨h, hreads⟩ := hs.exists_reads row.key
    obtain ⟨e, -, hread⟩ := hreads.exists_event hrow rfl
    exact ⟨e, hread⟩
  corrections := by
    intro row hrow
    obtain ⟨h, hreads⟩ := hs.exists_reads row.key
    obtain ⟨e, -, hread⟩ := hreads.exists_entry .corrections hrow rfl
    exact ⟨e, hread⟩
  rescinds := by
    intro row hrow
    obtain ⟨h, hreads⟩ := hs.exists_reads row.key
    obtain ⟨e, -, hread⟩ := hreads.exists_entry .rescinds hrow rfl
    exact ⟨e, hread⟩
  heads := by
    intro row hrow
    obtain ⟨kind, h, timeline, hkind, -⟩ := hs.exists_coherent_of_mem hrow
    obtain ⟨head, hread, -⟩ := HeadRow.exists_head_eq_ok hkind
    exact ⟨head, hread⟩

/-- In a store with integral logs every stored version comes back. -/
theorem Sound.exists_version (hs : s.Sound) (hintegral : s.Integral) {row : VersionRow}
    (hrow : row ∈ s.versions) : ∃ v, row.version = .ok v := by
  obtain ⟨h, timeline, hreads, hreplay, v, hv, rfl⟩ := hs.exists_version_of_mem hrow
  exact ⟨v, hintegral.version_row hreads hreplay hv⟩

/-! ## Replaying the logs of an entity -/

/-- Logs that can be read fail to be replayed only for what they say. -/
theorem Reads.isRefusal_of_replayEntity (hs : s.Reads key h)
    (hfails : s.replayEntity key = .error e) : e.IsRefusal := by
  rw [hs.replayEntity_eq] at hfails
  cases hreplay : replay key h.events h.corrections h.rescinds with
  | ok timeline =>
    rw [hreplay] at hfails
    cases hfails
  | error e' =>
    rw [hreplay] at hfails
    cases hfails
    exact isRefusal_of_replay hreplay

/-- A new entry that fits into its log fails only for what the logs then say, or for its payload. -/
theorem Sound.takes (hs : s.Sound) (hfits : a.entry.row.fault? a.log (s.rows a.log) = none)
    (hP : ∀ e : LedgerError, e.IsRefusal → P e)
    (hpayload : ∀ fault, Payload.parse a.entry.payload.text = .error fault →
      P (.row (.payload fault))) : s.Takes P a where
  fits := hfits
  replay := by
    intro e hfails
    obtain ⟨h, hreads⟩ := hs.exists_reads a.entry.key
    cases hparse : Payload.parse a.entry.payload.text with
    | error fault =>
      rw [hreads.replayEntity_add_unreadable hparse] at hfails
      cases hfails
      exact hpayload fault hparse
    | ok p =>
      obtain ⟨h', hreads', -⟩ := hreads.exists_add hparse
      exact hP e (hreads'.isRefusal_of_replayEntity hfails)

theorem Takes.of_identifies {c : Submission} {pos : Position} (hs : s.Takes P a)
    (ht : s.Identifies c pos t) : t.Takes P a := by
  have hreplay := replayEntity_eq_of_logs_eq (logs_add ht.logs_eq_logs a) a.entry.key
  constructor
  · rw [ht.rows_eq]
    exact hs.fits
  · rw [hreplay]
    exact hs.replay

end Store

/-! ## Mutations -/

namespace Mutation

open Store

variable {s : Store} {P : LedgerError → Prop}

/-- A mutation is refused, or its payload is not read back. -/
theorem failsOnly {m : Mutation} (hs : s.Sound) (hcounted : s.Counted) (hsize : s.size + 1 < 2 ^ 63)
    (hP : ∀ e : LedgerError, e.IsRefusal → P e)
    (hpayload : ∀ fault, Payload.parse m.command.payload.text = .error fault →
      P (.row (.payload fault))) (now : Nat) : Session.FailsOnly P (m.session now) s := by
  cases m with
  | submit c =>
    refine .map (.submit hP hs.decodes ?_ ?_)
    · intro hhead hfree
      exact (headRow_fits_iff hhead).mpr fun k hk => entityByOwningKey_eq_none_iff.mp (hfree k hk)
    -- Registering touches no log, so what fits into the logs of `s` fits into those of `t`.
    · intro hid hsubmission hon t ht
      have hfits := hcounted.fits_submission hsize hid hsubmission hon now
      exact (hs.takes (a := .event (c.event s.nextPosition now)) hfits hP hpayload).of_identifies ht
  | correct c =>
    refine .map (.correct hP hs.decodes ?_)
    intro hid hsubmission hon
    have hfits := hcounted.fits_correction hsize hid hsubmission hon now
    exact hs.takes (a := .correction (c.entry s.nextPosition now)) hfits hP hpayload
  | rescind c =>
    refine .map (.rescind hP hs.decodes ?_)
    intro hid hsubmission hon
    have hfits := hcounted.fits_rescind hsize hid hsubmission hon now
    exact hs.takes (a := .rescind (c.entry s.nextPosition now)) hfits hP hpayload

end Mutation

/-! ## Rebuilding -/

theorem Ledger.isRefusal_of_requireEntity {s : Store} {key : EntityKey} {e : LedgerError}
    (hs : s.Decodes) (h : requireEntity s key = .error e) : e.IsRefusal := by
  obtain ⟨head?, hhead⟩ := hs.exists_head? key
  rw [requireEntity, hhead] at h
  cases head? with
  | some head => cases h
  | none =>
    cases h
    trivial

/-- Deriving a timeline anew is refused, or it succeeds. -/
theorem Ledger.failsOnly_rederive {s : Store} (hs : s.Sound) (key : EntityKey) :
    Session.FailsOnly LedgerError.IsRefusal (rederive key) s := by
  obtain ⟨h, hreads⟩ := hs.exists_reads key
  refine .bind ?_ fun head t hread => ?_
  · intro e t hfails
    rw [Session.read] at hfails
    split at hfails
    next => cases hfails
    next e' hrequire =>
      cases hfails
      exact isRefusal_of_requireEntity hs.decodes hrequire
  · obtain ⟨-, rfl⟩ := Session.read_eq_ok_iff.mp hread
    exact .rematerialize fun e => hreads.isRefusal_of_replayEntity

/-! ## Queries -/

namespace Store

variable {s : Store} {key : EntityKey} {e : LedgerError}

theorem exists_of_timelineOf_eq_error (h : s.timelineOf key = .error e) :
    ∃ row ∈ s.versions, row.key = key ∧ ∃ fault, row.version = .error fault ∧ e = .row fault := by
  obtain ⟨row, hrow, hfault⟩ := exists_of_readAll_eq_error h
  obtain ⟨hmem, hkey⟩ := List.mem_filter.mp (mem_sortBy.mp hrow)
  exact ⟨row, hmem, beq_iff_eq.mp hkey, hfault⟩

theorem exists_of_versionAsOf_eq_error {date : Date} (h : s.versionAsOf key date = .error e) :
    ∃ row ∈ s.versions, row.key = key ∧ ∃ fault, row.version = .error fault ∧ e = .row fault := by
  obtain ⟨row, hfold, hfault⟩ := exists_of_mapM_rowResult_eq_error h
  rcases mem_of_foldl_laterStart hfold with hnone | hrow
  · cases hnone
  · obtain ⟨hmem, hcovers⟩ := List.mem_filter.mp hrow
    simp only [covers, Bool.and_eq_true, beq_iff_eq] at hcovers
    exact ⟨row, hmem, hcovers.1.1, hfault⟩

/-- Where the logs can be read, pages of them can be. -/
theorem Decodes.exists_audit (hs : s.Decodes) (key : EntityKey) (limit : Nat) :
    ∃ entries, s.audit key limit = .ok entries := by
  have hpage : ∀ {ρ : Type} (toRow : ρ → LogRow) {rows : List ρ} {row : ρ},
      row ∈ newest toRow rows key limit → row ∈ rows :=
    fun _ _ _ hrow => List.mem_of_mem_filter (mem_sortBy.mp (List.mem_of_mem_take hrow))
  have hevents : ∃ events,
      readAll EventRow.event (newest EventRow.toLogRow s.events key limit) = .ok events :=
    exists_readAll_of_forall fun row hrow => hs.events row (hpage EventRow.toLogRow hrow)
  have hcorrections : ∃ corrections,
      readAll LogRow.entry (newest id s.corrections key limit) = .ok corrections :=
    exists_readAll_of_forall fun row hrow => hs.corrections row (hpage id hrow)
  have hrescinds : ∃ rescinds,
      readAll LogRow.entry (newest id s.rescinds key limit) = .ok rescinds :=
    exists_readAll_of_forall fun row hrow => hs.rescinds row (hpage id hrow)
  obtain ⟨events, hevents⟩ := hevents
  obtain ⟨corrections, hcorrections⟩ := hcorrections
  obtain ⟨rescinds, hrescinds⟩ := hrescinds
  rw [audit, hevents, hcorrections, hrescinds]
  exact ⟨_, rfl⟩

end Store

theorem Operation.FailsFor.of_exists_version {l : Ledger} {q : Query} {e : LedgerError}
    (h : ∃ row ∈ l.store.versions, row.key = q.key ∧
      ∃ fault, row.version = .error fault ∧ e = .row fault) : FailsFor l (.query q) e := by
  obtain ⟨row, hrow, hkey, fault, hread, rfl⟩ := h
  exact .version hrow hkey hread

/-- A question is refused, or a stored version of its entity is not read back. -/
theorem Query.failsFor {l : Ledger} {q : Query} {e : LedgerError} (hs : l.store.Sound)
    (h : q.answer l.config l.store = .error e) : (Operation.query q).FailsFor l e := by
  cases q with
  | versionAsOf key date =>
    rcases cases_of_bind_eq_error h with hversion | ⟨found, -, hfound⟩
    · exact .of_exists_version (Store.exists_of_versionAsOf_eq_error hversion)
    · cases found with
      | some v => cases hfound
      | none =>
        cases hfound
        exact .refused trivial
  | timeline key =>
    rcases cases_of_bind_eq_error h with hrequire | ⟨head, -, htimeline⟩
    · exact .refused (Ledger.isRefusal_of_requireEntity hs.decodes hrequire)
    · have hrows := eq_error_of_map_eq_error htimeline
      exact .of_exists_version (Store.exists_of_timelineOf_eq_error hrows)
  | audit key limit =>
    rcases cases_of_bind_eq_error h with hlimit | ⟨limit', -, haudit⟩
    · unfold Config.auditLimit at hlimit
      split at hlimit
      next => cases hlimit
      next =>
        cases hlimit
        exact .refused trivial
      next => cases hlimit
    · obtain ⟨entries, hentries⟩ := hs.decodes.exists_audit key limit'
      cases hentries.symm.trans (eq_error_of_map_eq_error haudit)
  | verify key =>
    rcases cases_of_bind_eq_error (eq_error_of_map_eq_error h) with hrequire | ⟨head, -, hrest⟩
    · exact .refused (Ledger.isRefusal_of_requireEntity hs.decodes hrequire)
    · rcases cases_of_bind_eq_error hrest with hreplay | ⟨⟨fresh, last⟩, -, hrest⟩
      · obtain ⟨h, hreads⟩ := hs.exists_reads key
        exact .refused (hreads.isRefusal_of_replayEntity hreplay)
      · rcases cases_of_bind_eq_error hrest with htimeline | ⟨stored, -, hverdict⟩
        · exact .of_exists_version (Store.exists_of_timelineOf_eq_error htimeline)
        · cases hverdict

/-! ## Operations -/

theorem Context.isRefusal_of_authorize {ctx : Context} {tenant : String} {e : LedgerError}
    (h : ctx.authorize tenant = .error e) : e.IsRefusal := by
  cases hctx : ctx.tenant with
  | none =>
    rw [authorize_of_no_tenant hctx] at h
    cases h
    trivial
  | some other =>
    by_cases hsame : other = tenant
    · rw [authorize_eq_ok_iff.mpr (hsame ▸ hctx)] at h
      cases h
    · rw [authorize_of_other_tenant hctx hsame] at h
      cases h
      trivial

theorem Ledger.failsFor_of_mutate {α : Type} {session : Session α} {l l' : Ledger}
    {op : Operation} {e : LedgerError} (hop : ∀ q, op ≠ .query q)
    (hsession : Session.FailsOnly (op.FailsFor l) session l.store)
    (h : mutate session l = .error e l') : op.FailsFor l e := by
  by_cases hlocked : l.writeLocked
  · rw [mutate_of_locked session hlocked] at h
    cases h
    exact .locked hop hlocked
  · cases hs : session l.store with
    | ok a s =>
      rw [mutate_of_eq_ok hlocked hs] at h
      cases h
    | error e' s =>
      rw [mutate_of_eq_error hlocked hs] at h
      cases h
      exact hsession _ _ hs

namespace Operation

variable {ctx : Context} {op : Operation} {l l' : Ledger} {e : LedgerError}

theorem failsFor (hs : l.store.Sound) (hcounted : l.store.Counted)
    (hsize : l.store.size + 1 < 2 ^ 63) (h : op.perform ctx l = .error e l') : op.FailsFor l e := by
  cases hctx : ctx.authorize op.key.tenant with
  | error refusal =>
    rw [perform_of_refused hctx] at h
    cases h
    exact .refused (Context.isRefusal_of_authorize hctx)
  | ok u =>
    cases op with
    | mutate m now =>
      have hmutate := of_map_eq_error h
      rw [Mutation.perform_of_granted hctx] at hmutate
      refine Ledger.failsFor_of_mutate (fun q hop => by cases hop) ?_ (of_map_eq_error hmutate)
      exact Mutation.failsOnly hs hcounted hsize (fun e he => .refused he)
        (fun fault hparse => .payload hparse) now
    | rebuild key =>
      have hrebuild : Ledger.mutate (Ledger.rederive key) l = .error e l' :=
        (rebuild_of_granted hctx).symm.trans (of_map_eq_error h)
      refine Ledger.failsFor_of_mutate (fun q hop => by cases hop) ?_ hrebuild
      exact fun e t hfails => .refused (Ledger.failsOnly_rederive hs key e t hfails)
    | query q =>
      have hread : Ledger.read (q.answer l.config) l = .error e l' :=
        (q.perform_of_granted hctx).symm.trans h
      rw [Ledger.read] at hread
      split at hread
      next => cases hread
      next e' hanswer =>
        cases hread
        exact Query.failsFor hs hanswer

end Operation

namespace Store

/-- In every store that a run reaches all rows of the logs and of the registry can be read, and no
statement of an operation fails except where another connection holds the right to write.  When the
payloads of the run are integral, all stored versions can be read too, and no operation on an
integral payload fails for a row that cannot. -/
theorem failures_after (rs : List Request) (hsize : (empty.after rs).size < 2 ^ 63 - 1) :
    (∀ (ctx : Context) (op : Operation) (l l' : Ledger) (e : LedgerError),
      l.store = empty.after rs → op.perform ctx l = .error e l' →
      (∀ fault, e = .storage fault → fault = .locked ∧ l.writeLocked ∧ ∀ q, op ≠ .query q) ∧
        ((∀ r ∈ rs, r.Integral) → op.Integral → ∀ fault, e ≠ .row fault)) ∧
      (empty.after rs).Decodes ∧
      ((∀ r ∈ rs, r.Integral) → ∀ row ∈ (empty.after rs).versions, ∃ v, row.version = .ok v) := by
  have hs := sound_after rs
  have hcounted := counted_after rs (by omega)
  have hversions : (∀ r ∈ rs, r.Integral) → ∀ row ∈ (empty.after rs).versions,
      ∃ v, row.version = .ok v :=
    fun hrs _ hrow => hs.exists_version (integral_after hrs) hrow
  refine ⟨?_, hs.decodes, hversions⟩
  intro ctx op l l' e hl h
  rw [← hl] at hs hcounted hsize hversions
  -- Of the causes that are left, integral payloads rule out the last two.
  cases Operation.failsFor hs hcounted (by omega) h with
  | refused he =>
    constructor
    · rintro fault rfl
      cases he
    · rintro - - fault rfl
      cases he
  | locked hop hlocked =>
    refine ⟨?_, nofun⟩
    rintro fault ⟨⟩
    exact ⟨rfl, hlocked, hop⟩
  | payload hparse =>
    refine ⟨nofun, ?_⟩
    intro hrs hintegral
    rw [Payload.parse_text hintegral.steady] at hparse
    cases hparse
  | version hrow hkey hread =>
    refine ⟨nofun, ?_⟩
    intro hrs hintegral
    obtain ⟨v, hv⟩ := hversions hrs _ hrow
    rw [hread] at hv
    cases hv

theorem failure?_sample :
    Ledger.failure? ((Operation.mutate (.rescind Sample.corrected) 5).perform (.ofTenant "acme"))
        ⟨.standard, empty.after Sample.run, false⟩ =
      some "the CREATE event of entity 'desk-7' on 2024-01-15 cannot be rescinded" := by
  decide +kernel

theorem failures_after_sample :
    ∃ e l', (Operation.mutate (.rescind Sample.corrected) 5).perform (.ofTenant "acme")
        ⟨.standard, empty.after Sample.run, false⟩ = .error e l' ∧
      (∀ fault, e ≠ .storage fault) ∧ ∀ fault, e ≠ .row fault := by
  have hpayload : Sample.payload.Integral := ⟨trivial, trivial⟩
  have hintegral : ∀ r ∈ Sample.run, r.Integral := by
    simp only [Sample.run, List.forall_mem_cons]
    exact ⟨hpayload, hpayload, hpayload, hpayload, trivial, by simp⟩
  obtain ⟨e, l', hfails, -⟩ := Ledger.exists_of_failure?_eq_some failure?_sample
  obtain ⟨hall, -⟩ := failures_after Sample.run size_sample_lt
  obtain ⟨hstorage, hrow⟩ := hall _ _ _ _ _ rfl hfails
  refine ⟨e, l', hfails, ?_, hrow hintegral hpayload⟩
  intro fault he
  obtain ⟨-, hlocked, -⟩ := hstorage fault he
  cases hlocked

end Store

end DatedLedger
