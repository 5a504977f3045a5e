import DatedLedger.Proofs.Run.Acceptance
import DatedLedger.Proofs.Run.Agreement
import DatedLedger.Proofs.Run.Effects
import DatedLedger.Proofs.Store.Pairs
import DatedLedger.Proofs.Timeline.Places

/-!
# What a tenant can see

Positions are counted, and identifiers are compared, across all tenants.  Everything
else that the ledger looks up for a tenant is found among the rows of that tenant, and
in a store that a run reaches the order in which those rows were added plays no part:
the logs are in the order of positions, an entity and an owning key stand in the
registry once, and a stored timeline follows from the logs.
-/

namespace DatedLedger

namespace Store

variable {s s' t u : Store} {key : EntityKey} {tenant : String}

/-! ## Rows of a tenant -/

/-- The rows of one tenant. -/
def ofTenant (s : Store) (tenant : String) : Store :=
  s.restrict fun key => key.tenant == tenant

theorem ofEntity_ofTenant (hkey : key.tenant = tenant) :
    (s.ofTenant tenant).ofEntity key = s.ofEntity key :=
  restrict_restrict (q := fun k => k == key) fun k hk => by
    rw [beq_iff_eq.mp hk, hkey]
    exact beq_self_eq_true tenant

/-- Two stores have the same rows, whatever the order in which they were added. -/
structure Perm (s t : Store) : Prop where
  events : s.events.Perm t.events
  corrections : s.corrections.Perm t.corrections
  rescinds : s.rescinds.Perm t.rescinds
  heads : s.heads.Perm t.heads
  versions : s.versions.Perm t.versions

namespace Perm

theorem refl (s : Store) : s.Perm s :=
  ⟨.refl _, .refl _, .refl _, .refl _, .refl _⟩

theorem rows (h : s.Perm t) (log : Log) : (s.rows log).Perm (t.rows log) := by
  cases log with
  | events => exact h.events.map EventRow.toLogRow
  | corrections => exact h.corrections
  | rescinds => exact h.rescinds

theorem restrict (h : s.Perm t) (p : EntityKey → Bool) : (s.restrict p).Perm (t.restrict p) where
  events := h.events.filter _
  corrections := h.corrections.filter _
  rescinds := h.rescinds.filter _
  heads := h.heads.filter _
  versions := h.versions.filter _

theorem add (h : s.Perm t) (a : AuditEntry) : (s.add a).Perm (t.add a) := by
  cases a with
  | event e => exact { h with events := h.events.append_right _ }
  | correction e => exact { h with corrections := h.corrections.append_right _ }
  | rescind e => exact { h with rescinds := h.rescinds.append_right _ }

theorem materialize (h : s.Perm t) (key : EntityKey) (timeline : Timeline)
    (last : Option Position) :
    (s.materialize key timeline last).Perm (t.materialize key timeline last) :=
  { h with
    versions := (h.versions.filter _).append_right _
    heads := h.heads.map _ }

end Perm

/-! ## The order of rows -/

/-- The rows of each log are in the order of their positions. -/
def Ascending (s : Store) : Prop :=
  ∀ log, (s.rows log).Pairwise fun a b => a.pos < b.pos

theorem Ascending.of_logs_eq (hs : s.Ascending) (h : t.logs = s.logs) : t.Ascending := by
  intro log
  have hrows := congrArg (fun u : Store => u.rows log) h
  have ht : t.rows log = s.rows log := by
    cases log with
    | events => exact hrows
    | corrections => exact hrows
    | rescinds => exact hrows
  rw [ht]
  exact hs log

theorem Ascending.add (hs : s.Ascending) (hcounted : s.Counted) {a : AuditEntry}
    (hadmits : s.Admits a) (hsize : s.size + 1 < 2 ^ 63) : (s.add a).Ascending := by
  intro log
  rw [rows_add]
  by_cases hlog : log = a.log
  · rw [if_pos hlog, List.pairwise_append]
    refine ⟨hs log, List.pairwise_singleton _ _, ?_⟩
    intro row hrow new hnew
    have hbounds := hcounted.bounds log hrow
    have hpos : a.entry.row.pos = (s.size : Int) + 1 := by
      change signedWord a.entry.pos = _
      rw [hadmits.pos, hcounted.nextPosition_eq (by omega), signedWord_of_lt hsize]
      rfl
    rw [List.mem_singleton.mp hnew, hpos]
    omega
  · rw [if_neg hlog]
    exact hs log

theorem ascending_after (rs : List Request) (hsize : (empty.after rs).size < 2 ^ 63) :
    (empty.after rs).Ascending := by
  have hboth : (empty.after rs).size < 2 ^ 63 → (empty.after rs).Counted ∧
      (empty.after rs).Ascending := by
    refine after_induction (P := fun t => t.size < 2 ^ 63 → t.Counted ∧ t.Ascending) ?_ ?_ rs
    · intro _
      refine ⟨counted_empty, fun log => ?_⟩
      cases log <;> exact .nil
    · intro r t ht hrun
      have hle := size_le_size_run r t
      obtain ⟨hcounted, hascending⟩ := ht (by omega)
      refine ⟨hcounted.run r hrun, ?_⟩
      rcases r.logs_run t with h | ⟨a, hadmits, h⟩
      · exact hascending.of_logs_eq h
      · rw [size_eq_of_logs_eq h, size_add] at hrun
        exact (hascending.add hcounted hadmits hrun).of_logs_eq h
  exact (hboth hsize).2

/-- In two stores with the same rows of a tenant these rows stand in the logs in the same order. -/
theorem Perm.logs_eq (hperm : (s.ofTenant tenant).Perm (t.ofTenant tenant)) (hs : s.Ascending)
    (ht : t.Ascending) : (s.ofTenant tenant).logs = (t.ofTenant tenant).logs := by
  have hevents : (s.ofTenant tenant).events = (t.ofTenant tenant).events := by
    have hsorted : ∀ {u : Store}, u.Ascending →
        (u.ofTenant tenant).events.Pairwise fun a b => a.pos < b.pos :=
      fun hu => (List.pairwise_map.mp (hu .events)).filter _
    refine List.Perm.eq_of_pairwise ?_ (hsorted hs) (hsorted ht) hperm.events
    intro a b _ _ hab hba
    omega
  have hcorrections : (s.ofTenant tenant).corrections = (t.ofTenant tenant).corrections := by
    refine List.Perm.eq_of_pairwise ?_ ((hs .corrections).filter _) ((ht .corrections).filter _)
      hperm.corrections
    intro a b _ _ hab hba
    omega
  have hrescinds : (s.ofTenant tenant).rescinds = (t.ofTenant tenant).rescinds := by
    refine List.Perm.eq_of_pairwise ?_ ((hs .rescinds).filter _) ((ht .rescinds).filter _)
      hperm.rescinds
    intro a b _ _ hab hba
    omega
  rw [logs, logs, hevents, hcorrections, hrescinds]

/-! ## Owning keys -/

/-- No two rows of the registry are of one tenant and kind and hold the same owning key. -/
def HoldsOnce (s : Store) : Prop :=
  s.heads.Pairwise fun a b => ¬a.sharesOwningKey b

theorem sharesOwningKey_comm (a b : HeadRow) : a.sharesOwningKey b = b.sharesOwningKey a := by
  have himp : ∀ a b : HeadRow, a.sharesOwningKey b → b.sharesOwningKey a := by
    intro a b hab
    simp only [HeadRow.sharesOwningKey, Bool.and_eq_true, beq_iff_eq] at hab ⊢
    obtain ⟨⟨⟨htenant, hkind⟩, hsome⟩, howning⟩ := hab
    exact ⟨⟨⟨htenant.symm, hkind.symm⟩, howning ▸ hsome⟩, howning.symm⟩
  exact Bool.eq_iff_iff.mpr ⟨himp a b, himp b a⟩

theorem HoldsOnce.identifies {c : Submission} {pos : Position} (hs : s.HoldsOnce)
    (ht : s.Identifies c pos t) : t.HoldsOnce := by
  cases ht with
  | registered head hhead hkind howning => exact hs
  | registers hhead htype hfree hfault =>
    refine List.pairwise_append.mpr ⟨hs, List.pairwise_singleton _ _, ?_⟩
    intro row hrow new hnew
    rw [List.mem_singleton.mp hnew, sharesOwningKey_comm]
    exact (headFault?_eq_none_iff.mp hfault).1 row hrow
  | unregistered hhead htype => exact hs

theorem HoldsOnce.materialize (hs : s.HoldsOnce) (key : EntityKey) (timeline : Timeline)
    (last : Option Position) : (s.materialize key timeline last).HoldsOnce := by
  have hsummarised : ∀ row : HeadRow,
      let row' := if row.key = key then row.summarised timeline last else row
      row'.key = row.key ∧ row'.kind = row.kind ∧ row'.owningKey = row.owningKey := by
    intro row
    by_cases hkey : row.key = key
    · simp [hkey, HeadRow.summarised]
    · simp [hkey]
  refine List.pairwise_map.mpr (hs.imp ?_)
  intro a b hab
  obtain ⟨hkeya, hkinda, howninga⟩ := hsummarised a
  obtain ⟨hkeyb, hkindb, howningb⟩ := hsummarised b
  rw [HeadRow.sharesOwningKey] at hab ⊢
  rw [hkeya, hkinda, howninga, hkeyb, hkindb, howningb]
  exact hab

theorem HoldsOnce.records {a : AuditEntry} (ht : t.HoldsOnce) (hrec : t.Records a s') :
    s'.HoldsOnce := by
  obtain ⟨-, timeline, last, -, rfl⟩ := hrec
  have hadd : (t.add a).HoldsOnce := by
    rw [HoldsOnce, add_heads]
    exact ht
  exact hadd.materialize a.entry.key timeline last

theorem HoldsOnce.run (hs : s.HoldsOnce) (r : Request) : (r.run s).HoldsOnce := by
  have heffect := r.effect_run s
  generalize r.run s = s' at heffect ⊢
  cases heffect with
  | none r => exact hs
  | repeated ht hon => exact hs.identifies ht
  | event ht hfree hrec => exact (hs.identifies ht).records hrec
  | correction hon hstands hfree hrec => exact hs.records hrec
  | rescind hon htype hfree hrec => exact hs.records hrec
  | timeline hhead hreplay => exact hs.materialize _ _ _

theorem holdsOnce_after (rs : List Request) : (empty.after rs).HoldsOnce :=
  after_induction (P := HoldsOnce) (s := empty) List.Pairwise.nil (fun r _ ht => ht.run r) rs

theorem entityByOwningKey_ofTenant (s : Store) (tenant : String) (kind : EntityKind)
    (owningKey : String) :
    (s.ofTenant tenant).entityByOwningKey tenant kind owningKey =
      s.entityByOwningKey tenant kind owningKey := by
  rw [entityByOwningKey, entityByOwningKey, ofTenant, restrict, List.find?_filter]
  congr 2
  funext row
  rw [Bool.eq_iff_iff]
  simp +contextual

/-- The holder of an owning key does not depend on the order of the registry. -/
theorem Perm.entityByOwningKey_eq (hperm : (s.ofTenant tenant).Perm (t.ofTenant tenant))
    (hs : s.HoldsOnce) (kind : EntityKind) (owningKey : String) :
    s.entityByOwningKey tenant kind owningKey = t.entityByOwningKey tenant kind owningKey := by
  rw [← entityByOwningKey_ofTenant s, ← entityByOwningKey_ofTenant t, entityByOwningKey,
    entityByOwningKey]
  congr 1
  refine find?_eq_of_perm ((hs.filter _).imp ?_) hperm.heads
  intro a b hab ha hb
  apply hab
  simp only [Bool.and_eq_true, beq_iff_eq] at ha hb
  simp [HeadRow.sharesOwningKey, ha, hb]

/-! ## Entities -/

theorem eq_of_parts (hlogs : s.logs = t.logs) (hheads : s.heads = t.heads)
    (hversions : s.versions = t.versions) : s = t := by
  cases s
  cases t
  simp only [logs, mk.injEq, and_true] at hlogs hheads hversions
  obtain ⟨rfl, rfl, rfl⟩ := hlogs
  rw [hheads, hversions]

theorem Reads.of_logs_eq {h : History} (hs : s.Reads key h)
    (hlogs : (s.ofEntity key).logs = (t.ofEntity key).logs) : t.Reads key h := by
  have hevents := congrArg Store.events hlogs
  have hcorrections := congrArg Store.corrections hlogs
  have hrescinds := congrArg Store.rescinds hlogs
  have heventsOf : s.eventsOf key = t.eventsOf key := eventsOf_congr hevents
  have hcorrectionsOf : s.correctionsOf key = t.correctionsOf key :=
    correctionsOf_congr hcorrections
  have hrescindsOf : s.rescindsOf key = t.rescindsOf key := rescindsOf_congr hrescinds
  exact ⟨heventsOf.symm.trans hs.events, hcorrectionsOf.symm.trans hs.corrections,
    hrescindsOf.symm.trans hs.rescinds⟩

/-- What is registered and stored of an entity follows from its logs, except for what the registry
was told when the entity was created. -/
theorem Sound.ofEntity_eq (hs : s.Sound) (ht : t.Sound)
    (hlogs : (s.ofEntity key).logs = (t.ofEntity key).logs)
    (hheads : (s.ofEntity key).heads.Perm (t.ofEntity key).heads) :
    s.ofEntity key = t.ofEntity key := by
  rcases hs.entities key with hempty | ⟨kind, h, hwf, head, timeline, -, hcoherent⟩
  · rcases ht.entities key with hempty' | ⟨kind', h', -, head', timeline', -, hcoherent'⟩
    · rw [hempty, hempty']
    · rw [hempty, hcoherent'.heads] at hheads
      exact absurd hheads.length_eq (by simp [empty])
  · rcases ht.entities key with hempty' | ⟨kind', h', -, head', timeline', -, hcoherent'⟩
    · rw [hempty', hcoherent.heads] at hheads
      exact absurd hheads.length_eq (by simp [empty])
    · rw [hcoherent.heads, hcoherent'.heads] at hheads
      have hreads := hcoherent.reads.of_logs_eq hlogs
      obtain rfl := hreads.eq hcoherent'.reads
      have htimeline : timeline = timeline' :=
        Except.ok.inj (hcoherent.replayed.symm.trans hcoherent'.replayed)
      refine eq_of_parts hlogs ?_ ?_
      · rw [hcoherent.heads, hcoherent'.heads, List.perm_singleton.mp hheads]
      · rw [hcoherent.versions, hcoherent'.versions, htimeline]

/-- Two stores look the same to a tenant. -/
structure LooksLike (s t : Store) (tenant : String) : Prop where
  rows : (s.ofTenant tenant).Perm (t.ofTenant tenant)
  logs : (s.ofTenant tenant).logs = (t.ofTenant tenant).logs
  holders : ∀ kind owningKey,
    s.entityByOwningKey tenant kind owningKey = t.entityByOwningKey tenant kind owningKey
  entities : ∀ key, key.tenant = tenant → s.ofEntity key = t.ofEntity key

/-- Stores that runs reach look the same to a tenant when they have the same rows of the tenant. -/
theorem looksLike_after {rs rs' : List Request} (hsize : (empty.after rs).size < 2 ^ 63)
    (hsize' : (empty.after rs').size < 2 ^ 63)
    (hperm : ((empty.after rs).ofTenant tenant).Perm ((empty.after rs').ofTenant tenant)) :
    (empty.after rs).LooksLike (empty.after rs') tenant := by
  have hlogs := hperm.logs_eq (ascending_after rs hsize) (ascending_after rs' hsize')
  refine ⟨hperm, hlogs, hperm.entityByOwningKey_eq (holdsOnce_after rs), ?_⟩
  intro key hkey
  have hentity : (((empty.after rs).ofTenant tenant).ofEntity key).logs =
      (((empty.after rs').ofTenant tenant).ofEntity key).logs :=
    congrArg (fun u : Store => u.ofEntity key) hlogs
  have hheads := (hperm.restrict fun k => k == key).heads
  rw [ofEntity_ofTenant hkey, ofEntity_ofTenant hkey] at hentity
  change (((empty.after rs).ofTenant tenant).ofEntity key).heads.Perm
    (((empty.after rs').ofTenant tenant).ofEntity key).heads at hheads
  rw [ofEntity_ofTenant hkey, ofEntity_ofTenant hkey] at hheads
  exact (sound_after rs).ofEntity_eq (sound_after rs') hentity hheads

/-! ## Look-ups -/

theorem find?_eq_of_filter_eq {ρ : Type} {p q : ρ → Bool} {xs ys : List ρ}
    (h : xs.filter q = ys.filter q) (hxs : ∀ x ∈ xs, p x → q x) (hys : ∀ y ∈ ys, p y → q y) :
    xs.find? p = ys.find? p := by
  have hfind : ∀ {zs : List ρ}, (∀ z ∈ zs, p z → q z) → zs.find? p = (zs.filter q).find? p := by
    intro zs hzs
    induction zs with
    | nil => rfl
    | cons z rest ih =>
      obtain ⟨hz, hrest⟩ := List.forall_mem_cons.mp hzs
      by_cases hp : p z
      · rw [List.find?_cons_of_pos hp, List.filter_cons_of_pos (hz hp), List.find?_cons_of_pos hp]
      · rw [List.find?_cons_of_neg hp, ih hrest, List.filter_cons]
        split
        · rw [List.find?_cons_of_neg hp]
        · rfl
  rw [hfind hxs, hfind hys, h]

theorem LooksLike.event?_eq (h : s.LooksLike t tenant) {p : EventRow → Bool}
    (hs : ∀ row ∈ s.events, p row → row.key.tenant = tenant)
    (ht : ∀ row ∈ t.events, p row → row.key.tenant = tenant) : s.event? p = t.event? p := by
  have hevents := congrArg Store.events h.logs
  have hfind : s.events.find? p = t.events.find? p :=
    find?_eq_of_filter_eq hevents (fun row hrow hp => beq_iff_eq.mpr (hs row hrow hp))
      fun row hrow hp => beq_iff_eq.mpr (ht row hrow hp)
  rw [event?, event?, hfind]

theorem LooksLike.correction?_eq (h : s.LooksLike t tenant) {p : LogRow → Bool}
    (hs : ∀ row ∈ s.corrections, p row → row.key.tenant = tenant)
    (ht : ∀ row ∈ t.corrections, p row → row.key.tenant = tenant) :
    entry? s.corrections p = entry? t.corrections p := by
  have hcorrections := congrArg Store.corrections h.logs
  have hfind : s.corrections.find? p = t.corrections.find? p :=
    find?_eq_of_filter_eq hcorrections (fun row hrow hp => beq_iff_eq.mpr (hs row hrow hp))
      fun row hrow hp => beq_iff_eq.mpr (ht row hrow hp)
  rw [ entry?, entry?, hfind]

theorem LooksLike.rescind?_eq (h : s.LooksLike t tenant) {p : LogRow → Bool}
    (hs : ∀ row ∈ s.rescinds, p row → row.key.tenant = tenant)
    (ht : ∀ row ∈ t.rescinds, p row → row.key.tenant = tenant) :
    entry? s.rescinds p = entry? t.rescinds p := by
  have hrescinds := congrArg Store.rescinds h.logs
  have hfind : s.rescinds.find? p = t.rescinds.find? p :=
    find?_eq_of_filter_eq hrescinds (fun row hrow hp => beq_iff_eq.mpr (hs row hrow hp))
      fun row hrow hp => beq_iff_eq.mpr (ht row hrow hp)
  rw [ entry?, entry?, hfind]

theorem tenant_of_hasSubmission {submission : String} {row : LogRow}
    (h : hasSubmission tenant submission row) : row.key.tenant = tenant :=
  beq_iff_eq.mp (Bool.and_eq_true_iff.mp h).1

theorem tenant_of_isOn {date : Date} {row : LogRow} (h : isOn key date row) :
    row.key.tenant = key.tenant :=
  congrArg EntityKey.tenant (isOn_iff.mp h).1

theorem LooksLike.head_eq (h : s.LooksLike t tenant) (hkey : key.tenant = tenant) :
    s.head key = t.head key := by
  rw [head, head, find?_heads, find?_heads, h.entities key hkey]

theorem any_eq_of_perm_filter {ρ : Type} {p q : ρ → Bool} {xs ys : List ρ}
    (h : (xs.filter q).Perm (ys.filter q)) (hpq : ∀ x, p x → q x) : xs.any p = ys.any p := by
  have hany : ∀ zs : List ρ, zs.any p = (zs.filter q).any p := by
    intro zs
    rw [List.any_filter]
    congr 1
    funext z
    by_cases hp : p z
    · simp [hp, hpq z hp]
    · simp [hp]
  rw [hany, hany ys]
  exact h.any_eq

/-- Whether an entity can be registered is decided by the rows of its tenant. -/
theorem LooksLike.headFault?_eq {c : Submission} (h : s.LooksLike t c.key.tenant)
    (pos pos' : Position) :
    (c.headRow pos).fault? s.heads = (c.headRow pos').fault? t.heads := by
  have hsame : (c.headRow pos).sharesOwningKey = (c.headRow pos').sharesOwningKey := by
    funext row
    simp only [HeadRow.sharesOwningKey, Submission.headRow]
  have hshares : s.heads.any (c.headRow pos').sharesOwningKey =
      t.heads.any (c.headRow pos').sharesOwningKey := by
    refine any_eq_of_perm_filter h.rows.heads fun row hrow => ?_
    simp only [HeadRow.sharesOwningKey, Bool.and_eq_true, beq_iff_eq] at hrow
    exact beq_iff_eq.mpr hrow.1.1.1.symm
  have hkey : ∀ p, (c.headRow p).key = c.key := fun _ => rfl
  have hkeys : s.heads.any (fun row => row.key == c.key) =
      t.heads.any fun row => row.key == c.key := by
    refine any_eq_of_perm_filter h.rows.heads fun row hrow => ?_
    rw [beq_iff_eq.mp hrow]
    exact beq_self_eq_true _
  rw [HeadRow.fault?, HeadRow.fault?, hsame, hshares, hkey, hkey, hkeys]

/-! ## Replaying with a new entry -/

variable {a b : AuditEntry} {h h' : History}

theorem Sound.exists_reads_nodup (hs : s.Sound) (key : EntityKey) :
    ∃ h, s.Reads key h ∧ (h.events.map fun e => e.date).Nodup ∧
      (h.corrections.map fun c => c.date).Nodup := by
  rcases hs.entities key with hempty | ⟨kind, h, hregistered⟩
  · exact ⟨.empty, reads_empty hempty, .nil, .nil⟩
  · exact ⟨h, hregistered.reads, hregistered.wellFormed.eventDates,
      hregistered.wellFormed.correctionDates⟩

theorem unplaced_perm_add (hab : a.unplaced = b.unplaced) {p : Payload} {k k' : History}
    (hk : k.Perm (h.add (a.stored p))) (hk' : k'.Perm (h.add (b.stored p))) :
    k.unplaced.Perm k'.unplaced := by
  have hstored : ∀ x : AuditEntry, (x.stored p).unplaced = x.unplaced.stored p := by
    intro x
    cases x <;> rfl
  have hadd : ∀ x : AuditEntry, (h.add x).unplaced = h.unplaced.add x.unplaced := by
    intro x
    cases x <;> rfl
  have hsame : (h.add (a.stored p)).unplaced = (h.add (b.stored p)).unplaced := by
    rw [hadd, hadd, hstored, hstored, hab]
  have hleft := hk.unplaced
  rw [hsame] at hleft
  exact hleft.trans hk'.unplaced.symm

theorem nodup_dates_add (hevents : (h.events.map fun e => e.date).Nodup)
    (hcorrections : (h.corrections.map fun c => c.date).Nodup)
    (hnew : ∀ e ∈ h.entries a.log, e.date ≠ a.entry.date) :
    ((h.add a).events.map fun e => e.date).Nodup ∧
      ((h.add a).corrections.map fun c => c.date).Nodup := by
  cases a with
  | event e =>
    refine ⟨History.nodup_date_cons hevents fun x hx => ?_, hcorrections⟩
    exact hnew x.toEntry (List.mem_map_of_mem hx)
  | correction e => exact ⟨hevents, History.nodup_date_cons hcorrections hnew⟩
  | rescind e => exact ⟨hevents, hcorrections⟩

/-- Replaying an entity with a new entry depends on the place of the entry as little as on the
rows of other entities. -/
theorem Sound.replayEntity_add_eq (hs : s.Sound) (hkey : a.entry.key = key)
    (hentity : s.ofEntity key = t.ofEntity key) (hab : a.unplaced = b.unplaced)
    (hnew : ∀ row ∈ s.rows a.log, ¬isOn key a.entry.date row) :
    ((s.add a).replayEntity key).map Prod.fst = ((t.add b).replayEntity key).map Prod.fst := by
  subst hkey
  have hunplaced : ∀ x : AuditEntry, x.unplaced.entry = x.entry.unplaced := by
    intro x
    cases x <;> rfl
  have hentry : a.entry.unplaced = b.entry.unplaced := by
    rw [← hunplaced, ← hunplaced, hab]
  have hkey := congrArg Entry.key hentry
  have hpayload := congrArg Entry.payload hentry
  change a.entry.key = b.entry.key at hkey
  change a.entry.payload = b.entry.payload at hpayload
  obtain ⟨h, hreads, hevents, hcorrections⟩ := hs.exists_reads_nodup a.entry.key
  have hreads' : t.Reads b.entry.key h := hkey ▸ hreads.congr hentity
  cases hparse : Payload.parse a.entry.payload.text with
  | error fault =>
    rw [hreads.replayEntity_add_unreadable hparse, hkey,
      hreads'.replayEntity_add_unreadable (hpayload ▸ hparse)]
  | ok p =>
    obtain ⟨k, hk, hkperm⟩ := hreads.exists_add hparse
    obtain ⟨k', hk', hkperm'⟩ := hreads'.exists_add (hpayload ▸ hparse)
    have hdates := (hreads.forall_date_ne_iff a.entry.date a.log (hs.written a.log)).mp hnew
    obtain ⟨heventsAdd, hcorrectionsAdd⟩ := nodup_dates_add (a := a.stored p) hevents hcorrections
      (by cases a <;> exact hdates)
    have hreplay := replay_eq_of_unplaced_perm (unplaced_perm_add hab hkperm hkperm')
      ((hkperm.events.map _).nodup_iff.mpr heventsAdd)
      ((hkperm.corrections.map _).nodup_iff.mpr hcorrectionsAdd) a.entry.key
    have hk'' : (t.add b).Reads a.entry.key k' := hkey ▸ hk'
    rw [hk.replayEntity_eq, hk''.replayEntity_eq, hreplay]
    cases replay a.entry.key k'.events k'.corrections k'.rescinds with
    | error e => rfl
    | ok timeline => rfl

/-- A new entry is the last of its entity. -/
theorem Counted.max?_positions_add (hs : s.Counted) (hsize : s.size + 1 < 2 ^ 63)
    (hpos : a.entry.pos = s.nextPosition) (hreads : (s.add a).Reads a.entry.key h) :
    h.positions.max? = some a.entry.pos := by
  have hnext : a.entry.pos = s.size + 1 := hpos.trans (hs.nextPosition_eq (by omega))
  have hword : unsignedWord (signedWord a.entry.pos) = a.entry.pos := by
    apply unsignedWord_signedWord
    rw [hnext]
    omega
  have hperm := positions_add (s.ofEntity a.entry.key) a
  rw [List.max?_eq_some_iff]
  constructor
  · refine hreads.mem_positions_iff.mpr ⟨signedWord a.entry.pos, ?_, hword⟩
    rw [ofEntity_add, hperm.mem_iff]
    exact List.mem_append_right _ List.mem_cons_self
  · intro p hp
    obtain ⟨i, hi, rfl⟩ := hreads.mem_positions_iff.mp hp
    rw [ofEntity_add, hperm.mem_iff] at hi
    rcases List.mem_append.mp hi with hi | hi
    · have hbounds := hs.bounds_of_mem_ofEntity hi
      have hcast := natCast_unsignedWord (i := i) (by omega) (by omega)
      have hle : unsignedWord i ≤ s.size := by omega
      rw [hnext]
      exact Nat.le_succ_of_le hle
    · rw [List.mem_singleton.mp hi, hword]

end Store

end DatedLedger
