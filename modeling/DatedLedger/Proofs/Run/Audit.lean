import DatedLedger.Proofs.Run.Operations
import DatedLedger.Proofs.Run.Sequence
import DatedLedger.Proofs.Store.Pages

/-!
# The audit of a run

The entries that a run commits for an entity, the newest first, are its audit.  Every
page of the ledger is the beginning of it, whatever its length, in whatever order the
logs were written and whatever times the clock gave.
-/

namespace DatedLedger

/-! ## Committed entries -/

theorem Mutation.eq_entry_of_appended? {s : Store} (hs : s.Sound) {m : Mutation} {now : Nat}
    {a : AuditEntry} (h : (m.session now).appended? s = some a) :
    a = m.entry s.nextPosition now := by
  rcases (m.session now).appended?_cases s with ⟨hnone, -⟩ | ⟨b, hsome, hok⟩
  · rw [hnone] at h
    cases h
  · rw [hsome] at h
    obtain rfl := Option.some.inj h
    rcases Mutation.eq_or_records hs hok with ⟨x, hout, -⟩ | ⟨hout, -⟩
    · cases hout
    · exact Outcome.appended.inj hout

namespace Store

variable {s : Store} {key : EntityKey}

/-- The entries of integral requests have integral payloads. -/
theorem Sound.integral_committed (hs : s.Sound) {rs : List Request}
    (hrs : ∀ r ∈ rs, r.Integral) : ∀ a ∈ s.committed rs, a.entry.payload.Integral := by
  induction rs generalizing s with
  | nil => exact fun a ha => absurd ha List.not_mem_nil
  | cons r rest ih =>
    obtain ⟨hr, hrest⟩ := List.forall_mem_cons.mp hrs
    intro a ha
    rcases List.mem_append.mp ha with hfirst | hlater
    · have hcommitted : r.committed? s = some a := Option.mem_toList.mp hfirst
      cases r with
      | submit c now =>
        rw [Mutation.eq_entry_of_appended? (m := .submit c) hs hcommitted]
        exact hr
      | correct c now =>
        rw [Mutation.eq_entry_of_appended? (m := .correct c) hs hcommitted]
        exact hr
      | rescind c now =>
        rw [Mutation.eq_entry_of_appended? (m := .rescind c) hs hcommitted]
        exact hr
      | rebuild key => cases hcommitted
    · exact ih (hs.run r) hrest a hlater

/-- What the run commits for an entity. -/
def committedOf (s : Store) (rs : List Request) (key : EntityKey) : List AuditEntry :=
  (s.committed rs).filter fun a => a.entry.key == key

theorem foldl_add_ofEntity (s : Store) (entries : List AuditEntry) (key : EntityKey) :
    (entries.foldl add s).ofEntity key =
      (entries.filter fun a => a.entry.key == key).foldl add (s.ofEntity key) := by
  induction entries generalizing s with
  | nil => rfl
  | cons a rest ih =>
    rw [List.foldl_cons, ih, List.filter_cons]
    by_cases hkey : a.entry.key = key
    · subst hkey
      rw [ofEntity_add, if_pos (beq_self_eq_true _), List.foldl_cons]
    · rw [ofEntity_add_of_ne hkey, if_neg (mt beq_iff_eq.mp hkey)]

/-- The logs of an entity hold what the run committed for it, in the order in which it did. -/
theorem logs_ofEntity_after (rs : List Request) (key : EntityKey) :
    ((empty.after rs).ofEntity key).logs = ((empty.committedOf rs key).foldl add empty).logs := by
  have hlogs := sound_empty.logs_after rs
  have hentity := congrArg (fun u : Store => u.ofEntity key) hlogs
  rw [foldl_add_ofEntity] at hentity
  have hrows := congrArg logs hentity
  exact hrows

theorem nodup_positions_committedOf (rs : List Request) (hsize : (empty.after rs).size < 2 ^ 63)
    (key : EntityKey) : ((empty.committedOf rs key).map fun a => a.entry.pos).Nodup := by
  have hpositions := sound_empty.positions_committed counted_empty rs hsize
  have hnodup : ((empty.committed rs).map fun a => a.entry.pos).Nodup := by
    rw [hpositions]
    exact List.nodup_range'
  exact hnodup.sublist (List.filter_sublist.map _)

theorem pos_lt_of_mem_committed {rs : List Request} (hsize : (empty.after rs).size < 2 ^ 63)
    {a : AuditEntry} (ha : a ∈ empty.committed rs) : a.entry.pos < 2 ^ 63 := by
  have hlength := sound_empty.size_after rs
  have hmem : a.entry.pos ∈ (empty.committed rs).map fun a => a.entry.pos :=
    List.mem_map_of_mem ha
  rw [sound_empty.positions_committed counted_empty rs hsize, List.mem_range'_1] at hmem
  have hempty : empty.size = 0 := rfl
  rw [hlength, hempty] at hsize
  rw [hempty] at hmem
  have hlt : 0 + 1 + (empty.committed rs).length ≤ 2 ^ 63 := by omega
  exact Nat.lt_of_lt_of_le hmem.2 hlt

/-- In every store that a run reaches, a page is the beginning of the audit. -/
theorem audit_eq_take (rs : List Request) (hsize : (empty.after rs).size < 2 ^ 63)
    (hentries : ∀ a ∈ empty.committed rs,
      a.entry.payload.Integral ∧ a.entry.recordedMs < 2 ^ 63) (key : EntityKey) (n : Nat) :
    (empty.after rs).audit key n =
      .ok ((sortBy newestEntry (empty.committedOf rs key)).take n) := by
  have hlogs := logs_ofEntity_after rs key
  rw [foldl_add_eq] at hlogs
  refine audit_eq (congrArg Store.events hlogs) (congrArg Store.corrections hlogs)
    (congrArg Store.rescinds hlogs) ?_ (nodup_positions_committedOf rs hsize key) n
  intro a ha
  have hcommitted := (List.mem_filter.mp ha).1
  obtain ⟨hintegral, hms⟩ := hentries a hcommitted
  exact ⟨Payload.parse_text hintegral.steady, pos_lt_of_mem_committed hsize hcommitted, hms⟩

/-- Entries that do not share positions are in a strict order. -/
theorem pairwise_newer {entries : List AuditEntry}
    (hpos : (entries.map fun a => a.entry.pos).Nodup) :
    (sortBy newestEntry entries).Pairwise AuditEntry.Newer := by
  have hsorted := pairwise_sortBy newestEntry_total newestEntry_trans entries
  have hnodup : ((sortBy newestEntry entries).map fun a => a.entry.pos).Nodup :=
    ((perm_sortBy newestEntry entries).map _).nodup_iff.mpr hpos
  rw [List.Nodup, List.pairwise_map] at hnodup
  apply (hsorted.and hnodup).imp
  rintro a b ⟨hab, hne⟩
  rcases newestEntry_iff.mp hab with hms | ⟨hms, hle⟩
  · exact .inl hms
  · exact .inr ⟨hms, Nat.lt_of_le_of_ne hle (Ne.symm hne)⟩

theorem length_audit_le {n : Nat} {page : List AuditEntry} (h : s.audit key n = .ok page) :
    page.length ≤ n := by
  obtain ⟨events, -, h⟩ := exists_of_bind_eq_ok h
  obtain ⟨corrections, -, h⟩ := exists_of_bind_eq_ok h
  obtain ⟨rescinds, -, h⟩ := exists_of_bind_eq_ok h
  rw [← Except.ok.inj h]
  exact List.length_take_le n _

end Store

/-! ## Pages of a ledger -/

theorem Config.auditLimit_le {c : Config} {limit : Option Nat} {n : Nat}
    (hvalid : c.validate = .ok c) (hlimit : c.auditLimit limit = .ok n) :
    n ≤ c.auditMaxLimit := by
  unfold auditLimit at hlimit
  split at hlimit
  next =>
    -- Valid settings have a default that is no longer than the longest page.
    cases hlimit
    unfold validate fault? at hvalid
    by_contra hlong
    have hmax : c.auditMaxLimit < c.auditDefaultLimit := not_le.mp hlong
    simp only [hmax, if_true] at hvalid
    split_ifs at hvalid
  next => cases hlimit
  next =>
    cases hlimit
    exact Nat.min_le_right _ _

theorem Config.exists_auditLimit (c : Config) {limit : Option Nat} (hlimit : limit ≠ some 0) :
    ∃ n, c.auditLimit limit = .ok n := by
  unfold auditLimit
  split
  next => exact ⟨_, rfl⟩
  next => exact absurd rfl hlimit
  next => exact ⟨_, rfl⟩

namespace Ledger

variable {ctx : Context} {key : EntityKey} {limit : Option Nat} {l l' : Ledger} {n : Nat}
  {page : List AuditEntry}

theorem audit_of_eq_ok (hctx : ctx.tenant = some key.tenant)
    (hlimit : l.config.auditLimit limit = .ok n) (hpage : l.store.audit key n = .ok page) :
    audit ctx key limit l = .ok page l := by
  have hauthorize := Context.authorize_eq_ok_iff.mpr hctx
  have hget : (get : Action Ledger) l = .ok l l := rfl
  simp only [audit, authorize, hauthorize, bind, EStateM.bind, pure, EStateM.pure, read, hget,
    hlimit, hpage]

theorem exists_of_audit_eq_ok (h : audit ctx key limit l = .ok page l') :
    ∃ n, l.config.auditLimit limit = .ok n ∧ l.store.audit key n = .ok page := by
  have hperform : (Query.audit key limit).perform ctx l = .ok (.page page) l' := map_of_eq_ok _ h
  cases hctx : ctx.authorize key.tenant with
  | error e =>
    rw [Query.perform_of_refused (q := .audit key limit) hctx] at hperform
    cases hperform
  | ok u =>
    rw [Query.perform_of_granted (q := .audit key limit) hctx, read] at hperform
    split at hperform
    next a hanswer =>
      cases hperform
      obtain ⟨n, hlimit, hpage⟩ := exists_of_bind_eq_ok hanswer
      obtain ⟨entries, hentries, hpage⟩ := exists_of_map_eq_ok hpage
      cases hpage
      exact ⟨n, hlimit, hentries⟩
    next e hanswer => cases hperform

end Ledger

namespace Store

/-- In every store that a run reaches, given integral payloads, and times and positions that fit
into signed words, the entries that the run committed for an entity have one order, the newest
first, and each page is what this order begins with.  So a page is the beginning of every longer
page, and a ledger with valid settings gives no page that is longer than these allow. -/
theorem audit_after (rs : List Request) (hsize : (empty.after rs).size < 2 ^ 63)
    (hentries : ∀ a ∈ empty.committed rs,
      a.entry.payload.Integral ∧ a.entry.recordedMs < 2 ^ 63) (key : EntityKey) :
    ∃ full : List AuditEntry, full.Perm (empty.committedOf rs key) ∧
      full.Pairwise AuditEntry.Newer ∧
      (∀ n, (empty.after rs).audit key n = .ok (full.take n)) ∧
      (∀ n m page page', n ≤ m → (empty.after rs).audit key n = .ok page →
        (empty.after rs).audit key m = .ok page' → page <+: page') ∧
      ∀ (ctx : Context) (l : Ledger) (limit : Option Nat), l.store = empty.after rs →
        l.config.validate = .ok l.config →
        (∀ page l', Ledger.audit ctx key limit l = .ok page l' →
          page.length ≤ l.config.auditMaxLimit) ∧
        (ctx.tenant = some key.tenant → limit ≠ some 0 →
          ∃ n, l.config.auditLimit limit = .ok n ∧
            Ledger.audit ctx key limit l = .ok (full.take n) l) := by
  have hpage := audit_eq_take rs hsize hentries key
  have hpos := nodup_positions_committedOf rs hsize key
  refine ⟨sortBy newestEntry (empty.committedOf rs key), perm_sortBy newestEntry _,
    pairwise_newer hpos, hpage, ?_, ?_⟩
  · intro n m page page' hle hn hm
    rw [hpage] at hn hm
    rw [← Except.ok.inj hn, ← Except.ok.inj hm]
    exact List.take_prefix_take_left hle
  · intro ctx l limit hl hvalid
    constructor
    · intro page l' haudit
      obtain ⟨n, hlimit, hfound⟩ := Ledger.exists_of_audit_eq_ok haudit
      exact (length_audit_le hfound).trans (Config.auditLimit_le hvalid hlimit)
    · intro hctx hlimit
      obtain ⟨n, hn⟩ := l.config.exists_auditLimit hlimit
      refine ⟨n, hn, Ledger.audit_of_eq_ok hctx hn ?_⟩
      rw [hl]
      exact hpage n

/-- The entries of all three logs are on one page, and a page of two has the last two of them. -/
theorem audit_after_sample :
    ∃ full : List AuditEntry, full.Perm (empty.committedOf Sample.run Sample.key) ∧
      (empty.committedOf Sample.run Sample.key).length = 4 ∧
      (empty.after Sample.run).audit Sample.key 4 = .ok full ∧
      (empty.after Sample.run).audit Sample.key 2 = .ok (full.take 2) := by
  have hpayload : Sample.payload.Integral := ⟨trivial, trivial⟩
  have hrun : ∀ r ∈ Sample.run, r.Integral := by
    simp only [Sample.run, List.forall_mem_cons]
    exact ⟨hpayload, hpayload, hpayload, hpayload, trivial, by simp⟩
  have htimes : ∀ a ∈ empty.committed Sample.run, a.entry.recordedMs < 2 ^ 63 := by decide +kernel
  have hlength : (empty.committedOf Sample.run Sample.key).length = 4 := by decide +kernel
  obtain ⟨full, hperm, -, hpage, -⟩ := audit_after Sample.run
    (Nat.lt_of_lt_of_le size_sample_lt (by decide))
    (fun a ha => ⟨sound_empty.integral_committed hrun a ha, htimes a ha⟩) Sample.key
  refine ⟨full, hperm, hlength, ?_, hpage 2⟩
  rw [hpage 4, List.take_of_length_le (Nat.le_of_eq (hperm.length_eq.trans hlength))]

end Store

end DatedLedger
