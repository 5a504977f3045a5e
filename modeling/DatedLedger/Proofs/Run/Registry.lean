import DatedLedger.Proofs.Run.Identity
import DatedLedger.Proofs.Run.Operations
import DatedLedger.Proofs.Run.Tenants

/-!
# The registry of identities

An entity is registered by the submission that creates it, with a kind and perhaps an
owning key.  What is registered stays: a run adds identities to the registry and neither
changes nor removes one.  So the look-up by owning key and the look-up by entity tell of
the same identities, and go on telling of them in every later store.
-/

namespace DatedLedger

/-- What a row of the registry says apart from its summary: entity, kind and owning key. -/
def HeadRow.identity (row : HeadRow) : EntityKey × String × Option String :=
  (row.key, row.kind, row.owningKey)

/-- The identity that a submission gives its entity when it creates it. -/
def Submission.identity (c : Submission) : EntityKey × String × Option String :=
  (c.key, c.kind.name, c.owningKey)

namespace Store

variable {s s' t : Store} {key : EntityKey} {kind : EntityKind} {owningKey : Option String}
  {tenant entity k : String}

/-- The identities in the registry, in the order in which they were registered. -/
def identities (s : Store) : List (EntityKey × String × Option String) :=
  s.heads.map HeadRow.identity

theorem mem_identities_iff :
    (key, kind.name, owningKey) ∈ s.identities ↔
      ∃ row ∈ s.heads, row.key = key ∧ row.kind = kind.name ∧ row.owningKey = owningKey := by
  simp [identities, HeadRow.identity]

/-! ## Two look-ups -/

/-- The look-up by entity finds what is registered. -/
theorem Sound.exists_head_iff (hs : s.Sound) :
    (∃ head, s.head key = .ok (some head) ∧ head.kind = kind ∧ head.owningKey = owningKey) ↔
      (key, kind.name, owningKey) ∈ s.identities := by
  rw [mem_identities_iff]
  constructor
  · rintro ⟨head, hhead, rfl, rfl⟩
    obtain ⟨row, hrow, hread⟩ := mapM_rowResult_eq_some_iff.mp hhead
    obtain ⟨hkind, howning, -⟩ := HeadRow.head_eq_ok_iff.mp hread
    have hkey := List.find?_some hrow
    rw [beq_iff_eq] at hkey
    exact ⟨row, List.mem_of_find?_eq_some hrow, hkey, hkind, howning.symm⟩
  · rintro ⟨row, hrow, hkey, hkind, howning⟩
    obtain ⟨_, h, timeline, -, hcoherent⟩ := hs.exists_coherent_of_mem hrow
    have hfind : s.heads.find? (fun row => row.key == key) = some row := by
      rw [find?_heads, ← hkey, hcoherent.heads]
      rfl
    obtain ⟨head, hread, hsame, hheld⟩ := HeadRow.exists_head_eq_ok hkind
    exact ⟨head, mapM_rowResult_eq_some_iff.mpr ⟨row, hfind, hread⟩, hsame, hheld.trans howning⟩

/-- The look-up by owning key finds the entity that is registered with the key. -/
theorem HoldsOnce.entityByOwningKey_eq_some_iff (hs : s.HoldsOnce) :
    s.entityByOwningKey tenant kind k = some entity ↔
      (⟨tenant, entity⟩, kind.name, some k) ∈ s.identities := by
  have halone : s.heads.Pairwise fun a b =>
      (a.key.tenant == tenant && a.kind == kind.name && a.owningKey == some k) = true →
        ¬(b.key.tenant == tenant && b.kind == kind.name && b.owningKey == some k) = true := by
    refine hs.imp ?_
    intro a b hab ha hb
    simp only [Bool.and_eq_true, beq_iff_eq] at ha hb
    exact hab (by simp [HeadRow.sharesOwningKey, ha, hb])
  rw [mem_identities_iff, entityByOwningKey, Option.map_eq_some_iff]
  constructor
  · rintro ⟨row, hrow, rfl⟩
    have hholds := List.find?_some hrow
    simp only [Bool.and_eq_true, beq_iff_eq] at hholds
    obtain ⟨⟨rfl, hkind⟩, howning⟩ := hholds
    exact ⟨row, List.mem_of_find?_eq_some hrow, rfl, hkind, howning⟩
  · rintro ⟨row, hrow, hkey, hkind, howning⟩
    have hmem : row ∈ s.heads.filter fun row =>
        row.key.tenant == tenant && row.kind == kind.name && row.owningKey == some k :=
      List.mem_filter.mpr ⟨hrow, by simp [hkey, hkind, howning]⟩
    rw [filter_eq_toList_find? halone, Option.mem_toList] at hmem
    exact ⟨row, hmem, congrArg EntityKey.entity hkey⟩

/-! ## What is registered stays -/

theorem identities_materialize (s : Store) (key : EntityKey) (timeline : Timeline)
    (last : Option Position) : (s.materialize key timeline last).identities = s.identities := by
  rw [identities, identities, materialize, List.map_map]
  apply List.map_congr_left
  intro row _
  by_cases hkey : row.key = key
  · simp [HeadRow.identity, HeadRow.summarised, hkey]
  · simp [hkey]

theorem Records.identities_eq {a : AuditEntry} (hrec : t.Records a s') :
    s'.identities = t.identities := by
  obtain ⟨-, timeline, last, -, rfl⟩ := hrec
  rw [identities_materialize, identities, add_heads]
  rfl

/-- A request registers at most one entity, and that is the entity of a submission that creates
it.  All that was registered before stays in its place. -/
theorem Sound.identities_run (hs : s.Sound) (r : Request) :
    (r.run s).identities = s.identities ∨
      ∃ c now, r = .submit c now ∧ c.type = .create ∧ s.ofEntity c.key = .empty ∧
        (r.run s).identities = s.identities ++ [c.identity] := by
  have heffect := r.effect_run s
  generalize r.run s = s' at heffect ⊢
  cases heffect with
  | none r => exact .inl rfl
  | repeated ht hon =>
    rw [hs.eq_of_eventOn ht hon]
    exact .inl rfl
  | event ht hfree hrec =>
    rw [hrec.identities_eq]
    cases ht with
    | registered head hhead hkind howning => exact .inl rfl
    | registers hhead htype howning hfault =>
      refine .inr ⟨_, _, rfl, htype, hs.head_eq_none_iff.mp hhead, ?_⟩
      rw [identities, List.map_append]
      rfl
    | unregistered hhead htype =>
      exact (not_records_update (hs.head_eq_none_iff.mp hhead) htype hrec).elim
  | correction hon hstands hfree hrec => exact .inl hrec.identities_eq
  | rescind hon htype hfree hrec => exact .inl hrec.identities_eq
  | timeline hhead hreplay => exact .inl (s.identities_materialize _ _ _)

/-- A run adds identities to those of the registry. -/
theorem Sound.identities_after (hs : s.Sound) (rs : List Request) :
    s.identities <+: (s.after rs).identities := by
  have hboth : (s.after rs).Sound ∧ s.identities <+: (s.after rs).identities := by
    refine after_induction (P := fun t => t.Sound ∧ s.identities <+: t.identities)
      ⟨hs, List.prefix_rfl⟩ ?_ rs
    rintro r t ⟨ht, hgrows⟩
    refine ⟨ht.run r, hgrows.trans ?_⟩
    rcases ht.identities_run r with hsame | ⟨c, now, -, -, -, hmore⟩
    · exact hsame ▸ List.prefix_rfl
    · rw [hmore]
      exact List.prefix_append _ _
  exact hboth.2

/-- An entity is registered exactly when it has an event. -/
theorem Sound.exists_head_iff_exists_event (hs : s.Sound) :
    (∃ head, s.head key = .ok (some head)) ↔ ∃ row ∈ s.events, row.key = key := by
  constructor
  · rintro ⟨head, hhead⟩
    obtain ⟨h, hregistered⟩ := hs.exists_registered hhead
    obtain ⟨first, hfirst⟩ := hregistered.wellFormed.founded
    obtain ⟨row, hrow, hkey, -⟩ := hregistered.reads.mem_events_iff.mp hfirst.mem
    exact ⟨row, hrow, hkey⟩
  · rintro ⟨row, hrow, hkey⟩
    obtain ⟨kind, h, hregistered⟩ := hs.exists_registered_of_mem hrow hkey
    obtain ⟨head, hhead, -⟩ := hregistered.exists_head
    exact ⟨head, hhead⟩

theorem Sound.nodup_keys (hs : s.Sound) : (s.heads.map HeadRow.key).Nodup := by
  rw [List.nodup_iff_count_le_one]
  intro key
  rw [List.count_eq_countP, List.countP_map, List.countP_eq_length_filter]
  change (s.ofEntity key).heads.length ≤ 1
  rcases hs.entities key with hempty | ⟨kind, h, hregistered⟩
  · rw [hempty]
    exact Nat.zero_le 1
  · obtain ⟨row, hheads⟩ := hregistered.exists_heads
    rw [hheads]
    exact Nat.le_refl 1

/-! ## The registry -/

/-- Each entity has at most one row in the registry, and has one exactly when it has an event.  An
owning key leads to one entity among those of its tenant and kind, and that entity is registered
with the key. -/
structure SingleValued (s : Store) : Prop where
  keys : (s.heads.map HeadRow.key).Nodup
  events : ∀ key, (∃ head, s.head key = .ok (some head)) ↔ ∃ row ∈ s.events, row.key = key
  holders : ∀ tenant kind k entity, s.entityByOwningKey tenant kind k = some entity ↔
    ∃ head, s.head ⟨tenant, entity⟩ = .ok (some head) ∧ head.kind = kind ∧
      head.owningKey = some k

/-- What the first registry says of an entity or an owning key the second says too. -/
structure Permanent (s t : Store) : Prop where
  identities : s.identities <+: t.identities
  heads : ∀ key head, s.head key = .ok (some head) → ∃ head', t.head key = .ok (some head') ∧
    head'.kind = head.kind ∧ head'.owningKey = head.owningKey
  holders : ∀ key head k, s.head key = .ok (some head) → head.owningKey = some k →
    t.entityByOwningKey key.tenant head.kind k = some key.entity

theorem singleValued_after (rs : List Request) : (empty.after rs).SingleValued where
  keys := (sound_after rs).nodup_keys
  events := fun _ => (sound_after rs).exists_head_iff_exists_event
  holders := by
    intro tenant kind k entity
    rw [(holdsOnce_after rs).entityByOwningKey_eq_some_iff, (sound_after rs).exists_head_iff]

theorem permanent_after (rs later : List Request) :
    (empty.after rs).Permanent (empty.after (rs ++ later)) := by
  have hs := sound_after rs
  have hgrows : (empty.after rs).identities <+: (empty.after (rs ++ later)).identities := by
    rw [after_append]
    exact hs.identities_after later
  have hlater : ∀ {key head}, (empty.after rs).head key = .ok (some head) →
      (key, head.kind.name, head.owningKey) ∈ (empty.after (rs ++ later)).identities :=
    fun hhead => hgrows.subset (hs.exists_head_iff.mp ⟨_, hhead, rfl, rfl⟩)
  refine ⟨hgrows, fun key head hhead => ?_, fun key head k hhead hk => ?_⟩
  · exact (sound_after (rs ++ later)).exists_head_iff.mpr (hlater hhead)
  · rw [(holdsOnce_after (rs ++ later)).entityByOwningKey_eq_some_iff, ← hk]
    exact hlater hhead

/-! ## Rejected commands -/

/-- The submission could create its entity, were it not for what is registered: its identifiers are
new, the entity is unknown, and the payload satisfies the rules and is read back from its text. -/
structure Creates (s : Store) (c : Submission) : Prop where
  type : c.type = .create
  fields : c.blankField? = none
  payload : Payload.parse c.payload.text = .ok c.payload
  obeys : c.kind.violation? c.payload.withoutNulls = none
  isNew : s.IsNew c
  unregistered : s.head c.key = .ok none

end Store

theorem Operation.eq_of_perform_eq_error {ctx : Context} {op : Operation} {l l' : Ledger}
    {e : LedgerError} (hs : l.store.Sound) (h : op.perform ctx l = .error e l') : l' = l := by
  rcases op.stays hs ctx with ⟨fault, hfails⟩ | ⟨a, s', hok, -⟩
  · rw [hfails] at h
    cases h
    rfl
  · rw [hok] at h
    cases h

namespace Store

/-- A submission that could create its entity does so when no entity holds its owning key, which
then leads to its entity. -/
theorem exists_create_after (rs : List Request) (hsize : (empty.after rs).size < 2 ^ 63 - 1)
    {c : Submission} (hc : (empty.after rs).Creates c)
    (hfree : ∀ k ∈ c.owningKey, (empty.after rs).entityByOwningKey c.key.tenant c.kind k = none)
    (now : Nat) :
    ∃ e s', (Session.submit c now).transaction (empty.after rs) = .ok (.appended e) s' ∧
      ∀ k ∈ c.owningKey, s'.entityByOwningKey c.key.tenant c.kind k = some c.key.entity := by
  have hs := sound_after rs
  have hcounted := counted_after rs (by omega)
  have haccepts : (empty.after rs).AcceptsCreate c :=
    ⟨hc.unregistered, hc.type, fun k hk => entityByOwningKey_eq_none_iff.mp (hfree k hk), hc.obeys⟩
  have happends : (Session.submit c now).Appends (empty.after rs) :=
    (hs.appends_iff hcounted (by omega) hc.fields hc.payload).mpr ⟨hc.isNew, .inr haccepts⟩
  obtain ⟨e, s', h⟩ := happends
  have hsubmit := Session.transaction_eq_ok_iff.mp h
  refine ⟨e, s', h, fun k hk => ?_⟩
  have hrun : empty.after (rs ++ [.submit c now]) = s' := by
    rw [after_append]
    exact after_submit_of_eq_ok hsubmit
  obtain ⟨head, hhead, hkind, howning⟩ := hs.identified hsubmit
  rw [← hrun] at hhead ⊢
  have hnone := eventById_eq_none_iff.mpr hc.isNew.id
  exact ((singleValued_after _).holders _ _ _ _).mpr ⟨head, hhead, hkind, howning hnone k hk⟩

/-- In every store that a run reaches an entity is registered once, exactly if it has an event, and
an owning key leads to the one entity that is registered with it; both stay so in every later store,
with the same kind and owning key.  An operation that fails registers nothing, so that another
entity can be created with the owning key that a rejected submission has named. -/
theorem registry_after (rs later : List Request) :
    (empty.after rs).SingleValued ∧ (empty.after rs).Permanent (empty.after (rs ++ later)) ∧
      ∀ (ctx : Context) (op : Operation) (l l' : Ledger) (e : LedgerError),
        l.store = empty.after rs → op.perform ctx l = .error e l' →
        l' = l ∧ ∀ (c : Submission) (now : Nat), l.store.Creates c → l.store.size < 2 ^ 63 - 1 →
          (∀ k ∈ c.owningKey, l.store.entityByOwningKey c.key.tenant c.kind k = none) →
          ∃ r s', (Session.submit c now).transaction l'.store = .ok (.appended r) s' ∧
            ∀ k ∈ c.owningKey, s'.entityByOwningKey c.key.tenant c.kind k = some c.key.entity := by
  refine ⟨singleValued_after rs, permanent_after rs later, ?_⟩
  intro ctx op l l' e hl hfails
  have hsound : l.store.Sound := by
    rw [hl]
    exact sound_after rs
  have hsame := Operation.eq_of_perform_eq_error hsound hfails
  refine ⟨hsame, fun c now hc hsize hfree => ?_⟩
  rw [hsame, hl]
  rw [hl] at hc hsize hfree
  exact exists_create_after rs hsize hc hfree now

end Store

namespace Sample

/-- Another assignment is created under the owning key of the first, but without the position that
an assignment has to name. -/
def incomplete : Submission :=
  { created with key := ⟨"acme", "desk-8"⟩, payload := .empty }

/-- The broken rule is found in the replay, after the entity has been registered. -/
theorem failure?_incomplete :
    Ledger.failure? ((Operation.mutate (.submit incomplete) 1).perform (.ofTenant "acme"))
        ⟨.standard, .empty, false⟩ =
      some "invalid argument: assignment requires attribute 'position_id' after event on 2024-01-15"
    := by
  decide +kernel

theorem creates_created : Store.empty.Creates created where
  type := rfl
  fields := by decide +kernel
  payload := parse_payload
  obeys := by decide +kernel
  isNew := ⟨nofun, nofun, nofun⟩
  unregistered := rfl

end Sample

/-- After the rejected submission its owning key goes to another entity. -/
theorem Store.registry_after_sample :
    ∃ e l', (Operation.mutate (.submit Sample.incomplete) 1).perform (.ofTenant "acme")
        ⟨.standard, .empty, false⟩ = .error e l' ∧
      ∃ r s', (Session.submit Sample.created 2).transaction l'.store = .ok (.appended r) s' ∧
        s'.entityByOwningKey "acme" .assignment "desk" = some "desk-7" := by
  obtain ⟨e, l', hfails, -⟩ := Ledger.exists_of_failure?_eq_some Sample.failure?_incomplete
  obtain ⟨-, -, hrejected⟩ := registry_after [] []
  obtain ⟨-, hfree⟩ := hrejected _ _ ⟨.standard, .empty, false⟩ l' _ rfl hfails
  obtain ⟨r, s', hsubmit, hholder⟩ :=
    hfree Sample.created 2 Sample.creates_created (by decide) fun _ _ => rfl
  exact ⟨e, l', hfails, r, s', hsubmit, hholder "desk" rfl⟩

end DatedLedger
