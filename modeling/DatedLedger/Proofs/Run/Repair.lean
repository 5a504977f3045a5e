import DatedLedger.Proofs.Run.Operations
import DatedLedger.Proofs.Run.Rescission
import DatedLedger.Proofs.Run.Tenants
import DatedLedger.Store.Edit

/-!
# Repair of stored timelines

The versions of an entity, and the summary of them in the registry, can be edited from
outside.  A rebuild reads the logs, and in the registry no more than that the entity is
there.  So whatever was done to the versions and to the summary of an entity, a rebuild
leaves all tables with the rows that they had before, and a second one changes nothing.
-/

namespace DatedLedger

/-- A row of the registry, without its summary when it is the row of the entity. -/
def HeadRow.blankAt (key : EntityKey) (row : HeadRow) : HeadRow :=
  if row.key = key then { row with versionCount := 0, digest := "", lastPos := 0 } else row

namespace HeadRow

variable {key : EntityKey} {row row' : HeadRow}

theorem key_blankAt : (row.blankAt key).key = row.key := by
  rw [blankAt]
  split <;> rfl

theorem kind_blankAt : (row.blankAt key).kind = row.kind := by
  rw [blankAt]
  split <;> rfl

theorem blankAt_summarised (timeline : Timeline) (last : Option Position) :
    (if row.key = key then row.summarised timeline last else row).blankAt key =
      row.blankAt key := by
  by_cases hkey : row.key = key
  · simp [blankAt, hkey, summarised]
  · rw [if_neg hkey]

/-- With the last position given, nothing of the old summary is left in the new one. -/
theorem summarised_blankAt (timeline : Timeline) (last : Position) :
    (if (row.blankAt key).key = key then (row.blankAt key).summarised timeline (some last)
      else row.blankAt key) =
      if row.key = key then row.summarised timeline (some last) else row := by
  by_cases hkey : row.key = key
  · simp [blankAt, hkey, summarised]
  · simp [blankAt, hkey]

end HeadRow

namespace Store

variable {s s' t : Store} {key : EntityKey} {head : HeadRow} {h : History} {timeline : Timeline}
  {last : Position}

/-! ## Damage -/

/-- The second store is the first with any rows in place of the versions of an entity, and any
summary in its row of the registry. -/
structure Damages (s : Store) (key : EntityKey) (s' : Store) : Prop where
  logs : s'.logs = s.logs
  heads : s'.heads.map (HeadRow.blankAt key) = s.heads.map (HeadRow.blankAt key)
  versions : (s'.versions.filter fun row => row.key != key) =
    s.versions.filter fun row => row.key != key

theorem Damages.refl (s : Store) (key : EntityKey) : s.Damages key s :=
  ⟨rfl, rfl, rfl⟩

theorem Damages.trans (hs : s.Damages key t) (ht : t.Damages key s') : s.Damages key s' where
  logs := ht.logs.trans hs.logs
  heads := ht.heads.trans hs.heads
  versions := ht.versions.trans hs.versions

/-- Storing a timeline of the entity stays within what damage may touch. -/
theorem damages_materialize (hkeys : ∀ v ∈ timeline, v.key = key) (last : Option Position) :
    s.Damages key (s.materialize key timeline last) where
  logs := rfl
  heads := by
    rw [materialize, List.map_map]
    exact List.map_congr_left fun row _ => row.blankAt_summarised timeline last
  versions := by
    have hnew : (timeline.map Version.row).filter (fun row => row.key != key) = [] := by
      rw [List.filter_eq_nil_iff]
      intro row hrow
      obtain ⟨v, hv, rfl⟩ := List.mem_map.mp hrow
      have hkey : v.row.key = key := hkeys v hv
      simp [hkey]
    rw [materialize, List.filter_append, hnew, List.append_nil, List.filter_filter]
    simp only [Bool.and_self]

/-- What a rebuild stores does not depend on the damage. -/
theorem Damages.materialize_eq (hs : s.Damages key s') (timeline : Timeline) (last : Position) :
    s'.materialize key timeline (some last) = s.materialize key timeline (some last) := by
  have hheads : ∀ u : Store, (u.materialize key timeline (some last)).heads =
      (u.heads.map (HeadRow.blankAt key)).map fun row =>
        if row.key = key then row.summarised timeline (some last) else row := by
    intro u
    rw [List.map_map]
    exact List.map_congr_left fun row _ => (row.summarised_blankAt timeline last).symm
  refine eq_of_parts hs.logs ?_ ?_
  · rw [hheads, hheads, hs.heads]
  · rw [materialize, materialize, hs.versions]

/-- The registry still knows the entity. -/
theorem Damages.exists_head (hs : s.Damages key s') {head : Head}
    (hhead : s.head key = .ok (some head)) : ∃ head', s'.head key = .ok (some head') := by
  obtain ⟨row, hrow, hread⟩ := mapM_rowResult_eq_some_iff.mp hhead
  have hfind : ∀ u : Store, (u.heads.find? fun row => row.key == key).map (HeadRow.blankAt key) =
      (u.heads.map (HeadRow.blankAt key)).find? fun row => row.key == key := by
    intro u
    have hkeys : (fun row : HeadRow => row.key == key) ∘ HeadRow.blankAt key =
        fun row => row.key == key := by
      funext row
      rw [Function.comp_apply, HeadRow.key_blankAt]
    rw [List.find?_map, hkeys]
  have hblank := hfind s'
  rw [hs.heads, ← hfind s, hrow] at hblank
  obtain ⟨row', hrow', hsame⟩ := Option.map_eq_some_iff.mp hblank
  have hkind : row'.kind = row.kind := by
    rw [← HeadRow.kind_blankAt, hsame, HeadRow.kind_blankAt]
  have hregistered := hkind.trans (HeadRow.head_eq_ok_iff.mp hread).1
  obtain ⟨head', hread', -⟩ := HeadRow.exists_head_eq_ok hregistered
  exact ⟨head', mapM_rowResult_eq_some_iff.mpr ⟨row', hrow', hread'⟩⟩

end Store

/-! ## Edits from outside -/

/-- The edit is one of the versions of an entity, or of the digest in its summary. -/
def Edit.IsOfTimeline : Edit → Prop
  | setAttributes .. => True
  | setValidFrom .. => True
  | setValidTo .. => True
  | setSeqNo .. => True
  | deleteVersion _ => True
  | insertVersion .. => True
  | setDigest _ => True
  | _ => False

namespace Session

variable {ρ : Type} {s s' : Store} {key : EntityKey}

/-- A statement changes the selected rows one by one, and no others. -/
theorem updateRows_eq_ok {rows updated : List ρ} {selected : ρ → Bool}
    {f : ρ → Except StorageFault ρ} {n : Nat}
    (h : updateRows rows selected f s = .ok (updated, n) s') :
    s' = s ∧ List.Forall₂
      (fun row row' => if selected row then f row = .ok row' else row' = row) rows updated := by
  obtain ⟨updated', t, hmap, hreturn⟩ := bind_eq_ok_iff.mp h
  obtain ⟨hpair, rfl⟩ := pure_eq_ok_iff.mp hreturn
  obtain rfl : updated = updated' := congrArg Prod.fst hpair
  clear h hreturn hpair
  induction rows generalizing s updated with
  | nil =>
    obtain ⟨rfl, rfl⟩ := pure_eq_ok_iff.mp hmap
    exact ⟨rfl, .nil⟩
  | cons row rest ih =>
    rw [List.mapM_cons] at hmap
    obtain ⟨row', t, hrow, hmap⟩ := bind_eq_ok_iff.mp hmap
    obtain ⟨rest', u, hrest, hmap⟩ := bind_eq_ok_iff.mp hmap
    obtain ⟨rfl, rfl⟩ := pure_eq_ok_iff.mp hmap
    obtain ⟨rfl, hforall⟩ := ih hrest
    by_cases hselected : selected row
    · rw [if_pos hselected] at hrow
      cases hf : f row with
      | error fault =>
        rw [hf] at hrow
        cases hrow
      | ok changed =>
        rw [hf] at hrow
        obtain ⟨rfl, rfl⟩ := pure_eq_ok_iff.mp hrow
        exact ⟨rfl, .cons (by rw [if_pos hselected, hf]) hforall⟩
    · rw [if_neg hselected] at hrow
      obtain ⟨rfl, rfl⟩ := pure_eq_ok_iff.mp hrow
      exact ⟨rfl, .cons (by rw [if_neg hselected]) hforall⟩

theorem filter_eq_of_forall₂ {R : ρ → ρ → Prop} {p : ρ → Bool} {rows updated : List ρ}
    (h : List.Forall₂ R rows updated) (hp : ∀ a b, R a b → p b = p a ∧ (p a → b = a)) :
    updated.filter p = rows.filter p := by
  induction h with
  | nil => rfl
  | @cons a b rows updated hab _ ih =>
    obtain ⟨hsame, heq⟩ := hp a b hab
    rw [List.filter_cons, List.filter_cons, hsame, ih]
    cases hpa : p a with
    | false => rfl
    | true => rw [heq hpa]

/-- A statement that changes the selected rows of one table. -/
theorem changed_eq_ok (rows : Store → List ρ) (put : Store → List ρ → Store) {selected : ρ → Bool}
    {f : ρ → Except StorageFault ρ} {n : Nat}
    (h : (do
      let s ← get
      let (updated, count) ← updateRows (rows s) selected f
      set (put s updated)
      return count : Session Nat) s = .ok n s') :
    ∃ updated, s' = put s updated ∧ List.Forall₂
      (fun row row' => if selected row then f row = .ok row' else row' = row) (rows s) updated := by
  rw [get_bind_eq_ok_iff] at h
  obtain ⟨⟨updated, count⟩, t, hupdate, h⟩ := bind_eq_ok_iff.mp h
  obtain ⟨rfl, hforall⟩ := updateRows_eq_ok hupdate
  obtain ⟨u, v, hset, hreturn⟩ := bind_eq_ok_iff.mp h
  obtain ⟨-, rfl⟩ := pure_eq_ok_iff.mp hreturn
  cases hset
  exact ⟨updated, rfl, hforall⟩

/-- A change of a version that keeps its entity. -/
theorem damages_of_updateVersion {seqNo : Int} {f : VersionRow → Except StorageFault VersionRow}
    {n : Nat} (hf : ∀ row row', f row = .ok row' → row'.key = row.key)
    (h : updateVersion key seqNo f s = .ok n s') : s.Damages key s' := by
  rw [updateVersion] at h
  obtain ⟨updated, rfl, hforall⟩ :=
    changed_eq_ok Store.versions (fun s rows => { s with versions := rows }) h
  refine ⟨rfl, rfl, filter_eq_of_forall₂ hforall ?_⟩
  intro row row' hrow
  by_cases hselected : row.key == key && row.seqNo == seqNo
  · rw [if_pos hselected] at hrow
    rw [Bool.and_eq_true, beq_iff_eq] at hselected
    simp [hf row row' hrow, hselected.1]
  · rw [if_neg hselected] at hrow
    exact ⟨by rw [hrow], fun _ => hrow⟩

/-- A change of the row of the registry that keeps all but the summary. -/
theorem damages_of_editHead {f : HeadRow → Except StorageFault HeadRow} {n : Nat}
    (hf : ∀ row row', f row = .ok row' → row'.blankAt row.key = row.blankAt row.key)
    (h : editHead key f s = .ok n s') : s.Damages key s' := by
  rw [editHead] at h
  obtain ⟨updated, rfl, hforall⟩ :=
    changed_eq_ok Store.heads (fun s rows => { s with heads := rows }) h
  refine ⟨rfl, ?_, rfl⟩
  have hblank : List.Forall₂ (fun row row' => row.blankAt key = row'.blankAt key) s.heads
      updated := by
    refine hforall.imp ?_
    intro row row' hrow
    by_cases hselected : row.key == key
    · rw [if_pos hselected] at hrow
      rw [← beq_iff_eq.mp hselected]
      exact (hf row row' hrow).symm
    · rw [if_neg hselected] at hrow
      rw [hrow]
  have hmaps : List.Forall₂ Eq (s.heads.map (HeadRow.blankAt key))
      (updated.map (HeadRow.blankAt key)) :=
    List.forall₂_map_left_iff.mpr (List.forall₂_map_right_iff.mpr hblank)
  rw [List.forall₂_eq_eq_eq] at hmaps
  exact hmaps.symm

/-- Every edit of versions and digest that succeeds is damage to what is derived. -/
theorem damages_of_edit {e : Edit} (he : e.IsOfTimeline) {n : Nat}
    (h : edit key e s = .ok n s') : s.Damages key s' := by
  cases e with
  | setAttributes seqNo text =>
    refine damages_of_updateVersion (fun row row' hrow => ?_) h
    obtain ⟨text, -, hrow⟩ := exists_of_bind_eq_ok hrow
    rw [← Except.ok.inj hrow]
  | setValidFrom seqNo text =>
    refine damages_of_updateVersion (fun row row' hrow => ?_) h
    obtain ⟨text, -, hrow⟩ := exists_of_bind_eq_ok hrow
    rw [← Except.ok.inj hrow]
  | setValidTo seqNo text =>
    refine damages_of_updateVersion (fun row row' hrow => ?_) h
    rw [← Except.ok.inj hrow]
  | setSeqNo seqNo value =>
    rw [edit, get_bind_eq_ok_iff] at h
    refine damages_of_updateVersion (fun row row' hrow => ?_) h
    rw [renumber] at hrow
    split at hrow
    · cases hrow
    · rw [← Except.ok.inj hrow]
  | deleteVersion seqNo =>
    rw [edit, get_bind_eq_ok_iff] at h
    obtain ⟨u, v, hset, hreturn⟩ := bind_eq_ok_iff.mp h
    obtain ⟨-, rfl⟩ := pure_eq_ok_iff.mp hreturn
    cases hset
    refine ⟨rfl, rfl, ?_⟩
    rw [List.filter_filter]
    apply List.filter_congr
    intro row _
    by_cases hkey : row.key = key
    · simp [hkey]
    · simp [hkey]
  | insertVersion seqNo attributes validFrom validTo =>
    obtain ⟨u, t, hinsert, hreturn⟩ := bind_eq_ok_iff.mp h
    obtain ⟨-, rfl⟩ := pure_eq_ok_iff.mp hreturn
    obtain ⟨-, rfl⟩ := insertVersion_eq_ok_iff.mp hinsert
    refine ⟨rfl, rfl, ?_⟩
    simp [List.filter_append]
  | setDigest text =>
    refine damages_of_editHead (fun row row' hrow => ?_) h
    obtain ⟨digest, -, hrow⟩ := exists_of_bind_eq_ok hrow
    rw [← Except.ok.inj hrow]
    simp [HeadRow.blankAt]
  | _ => exact he.elim

/-- So is any number of them one after another, of which some may fail. -/
theorem damages_of_edits {es : List Edit} (hes : ∀ e ∈ es, e.IsOfTimeline) (s : Store) :
    s.Damages key (es.foldl (fun s e => (edit key e).commit s) s) := by
  induction es generalizing s with
  | nil => exact .refl s key
  | cons e rest ih =>
    obtain ⟨he, hrest⟩ := List.forall_mem_cons.mp hes
    have hstep : s.Damages key ((edit key e).commit s) := by
      rcases commit_cases (edit key e) s with hsame | ⟨n, hok⟩
      · rw [hsame]
        exact .refl s key
      · exact damages_of_edit he hok
    exact hstep.trans (ih hrest _)

end Session

namespace Store

variable {s s' t : Store} {key : EntityKey} {head : HeadRow} {h : History} {timeline : Timeline}
  {last : Position}

/-! ## Repair -/

/-- Two stores have the same rows in all five tables.  Versions of different entities may have
been added in another order. -/
structure SameRows (s t : Store) : Prop where
  logs : t.logs = s.logs
  heads : t.heads = s.heads
  versions : t.versions.Perm s.versions
  entities : ∀ key, t.ofEntity key = s.ofEntity key

theorem Coherent.heads_materialize (hs : s.Coherent key head h timeline)
    (hlast : h.positions.max? = some last) :
    (s.materialize key timeline (some last)).heads = s.heads := by
  obtain ⟨last', hlast', hlastPos⟩ := hs.lastPos
  obtain rfl : last' = last := Option.some.inj (hlast'.symm.trans hlast)
  refine (List.map_congr_left fun row hrow => ?_).trans (List.map_id _)
  by_cases hkey : row.key = key
  · have hmem := mem_heads_ofEntity.mpr ⟨hrow, hkey⟩
    rw [hs.heads, List.mem_singleton] at hmem
    rw [if_pos hkey, hmem, HeadRow.summarised, ← hs.versionCount, ← hs.digest, ← hlastPos]
    rfl
  · exact if_neg hkey

/-- Where registry and stored timeline agree with the logs, storing the timeline once more leaves
every row as it is. -/
theorem Coherent.sameRows_materialize (hs : s.Coherent key head h timeline)
    (hlast : h.positions.max? = some last) :
    s.SameRows (s.materialize key timeline (some last)) := by
  have hkeys : ∀ v ∈ timeline, v.key = key := fun v hv => key_of_mem_replay hs.replayed hv
  have hheads := hs.heads_materialize hlast
  refine ⟨rfl, hheads, ?_, ?_⟩
  · rw [materialize, ← hs.versions]
    refine List.perm_append_comm.trans ?_
    exact List.filter_append_perm (fun row : VersionRow => row.key == key) s.versions
  · intro other
    by_cases hkey : key = other
    · rw [← hkey]
      refine eq_of_parts rfl ?_ ?_
      · exact congrArg (List.filter fun row : HeadRow => row.key == key) hheads
      · exact (versions_ofEntity_materialize hkeys).trans hs.versions.symm
    · exact ofEntity_materialize_of_ne hkeys hkey

end Store

namespace Ledger

variable {s s' : Store} {key : EntityKey} {ctx : Context} {l : Ledger} {timeline : Timeline}
  {last : Option Position}

/-- A rebuild stores the timeline that follows from the logs. -/
theorem rebuild_eq_ok (hctx : ctx.tenant = some key.tenant) (hfree : ¬l.writeLocked)
    (hhead : ∃ head, l.store.head key = .ok (some head))
    (hreplay : l.store.replayEntity key = .ok (timeline, last)) :
    rebuild ctx key l =
      .ok timeline { l with store := l.store.materialize key timeline last } := by
  rw [Operation.rebuild_of_granted (Context.authorize_eq_ok_iff.mpr hctx)]
  refine mutate_of_eq_ok hfree (rederive_eq_ok_iff.mpr ⟨hhead, ?_⟩)
  exact Session.rematerialize_eq_ok_iff.mpr ⟨last, hreplay, rfl⟩

end Ledger

namespace Store

/-- In every store that a run reaches, whatever was done to the versions of a registered entity and
to its summary, a rebuild answers with the timeline that follows from the logs and leaves all tables
with the rows that they had before the damage.  A second rebuild, and one where there is no damage,
gives the same answer and changes no row. -/
theorem rebuild_of_damages (rs : List Request) (key : EntityKey) (head : Head)
    (hhead : (empty.after rs).head key = .ok (some head)) :
    ∃ timeline last, (empty.after rs).replayEntity key = .ok (timeline, some last) ∧
      ∀ (ctx : Context) (l : Ledger), ctx.tenant = some key.tenant → ¬l.writeLocked →
        (empty.after rs).Damages key l.store →
        ∃ t, Ledger.rebuild ctx key l = .ok timeline { l with store := t } ∧
          (empty.after rs).SameRows t ∧
          Ledger.rebuild ctx key { l with store := t } = .ok timeline { l with store := t } := by
  obtain ⟨h, -, row, timeline, -, hcoherent⟩ := (sound_after rs).exists_registered hhead
  obtain ⟨last, hlast, -⟩ := hcoherent.lastPos
  have hreplay : (empty.after rs).replayEntity key = .ok (timeline, some last) :=
    replayEntity_eq_ok_iff.mpr ⟨h, hcoherent.reads, hcoherent.replayed, hlast.symm⟩
  have hkeys : ∀ v ∈ timeline, v.key = key :=
    fun v hv => key_of_mem_replay hcoherent.replayed hv
  -- Every rebuild after damage ends in this store, and this store is itself only damaged.
  have hrebuild : ∀ (ctx : Context) (l : Ledger), ctx.tenant = some key.tenant →
      ¬l.writeLocked → (empty.after rs).Damages key l.store →
      Ledger.rebuild ctx key l = .ok timeline
        { l with store := (empty.after rs).materialize key timeline (some last) } := by
    intro ctx l hctx hfree hdamages
    rw [← hdamages.materialize_eq timeline last]
    refine Ledger.rebuild_eq_ok hctx hfree (hdamages.exists_head hhead) ?_
    rw [replayEntity_eq_of_logs_eq hdamages.logs, hreplay]
  refine ⟨timeline, last, hreplay, fun ctx l hctx hfree hdamages => ?_⟩
  exact ⟨_, hrebuild ctx l hctx hfree hdamages, hcoherent.sameRows_materialize hlast,
    hrebuild ctx { l with store := _ } hctx hfree (damages_materialize hkeys (some last))⟩

end Store

namespace Sample

/-- The store after the sample, with a row of versions that cannot be read in place of those of the
assignment, and with another summary in the registry. -/
def damaged : Store :=
  { Store.empty.after run with
    versions := [⟨key, -3, "?", "someday", some ""⟩]
    heads := (Store.empty.after run).heads.map fun row =>
      { row with versionCount := -7, digest := "?", lastPos := -1 } }

theorem damages : (Store.empty.after run).Damages key damaged :=
  ⟨rfl, by decide +kernel, by decide +kernel⟩

theorem exists_head_run : ∃ head, (Store.empty.after run).head key = .ok (some head) := by
  rcases (Store.sound_after run).entities key with hempty | ⟨kind, h, hregistered⟩
  · exact absurd (congrArg Store.events hempty) events_run_ne_nil
  · obtain ⟨head, hhead, -⟩ := hregistered.exists_head
    exact ⟨head, hhead⟩

end Sample

theorem Store.rebuild_of_damages_sample :
    Sample.damaged ≠ empty.after Sample.run ∧
      ∃ timeline t, Ledger.rebuild (.ofTenant "acme") Sample.key
          ⟨.standard, Sample.damaged, false⟩ = .ok timeline ⟨.standard, t, false⟩ ∧
        (empty.after Sample.run).SameRows t := by
  obtain ⟨head, hhead⟩ := Sample.exists_head_run
  obtain ⟨timeline, last, -, hrebuild⟩ := rebuild_of_damages Sample.run Sample.key head hhead
  obtain ⟨t, hok, hrows, -⟩ := hrebuild (.ofTenant "acme") ⟨.standard, Sample.damaged, false⟩ rfl
    Bool.false_ne_true Sample.damages
  exact ⟨by decide +kernel, timeline, t, hok, hrows⟩

end DatedLedger
