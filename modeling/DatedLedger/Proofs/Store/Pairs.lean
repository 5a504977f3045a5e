import DatedLedger.Proofs.Store.Mutations

/-!
# Sessions on two stores

Two runs of sessions are related when both fail, with the same cause, or both
succeed, with results and stores that are related.  Sessions that are put together in
the same way from related parts are related, so what two stores have in common is
carried from one statement to the next.
-/

namespace DatedLedger

/-- Two outcomes tell of the same existing entry, or of these two new ones. -/
def Outcome.Same {α : Type} (e e' : α) (out out' : Outcome α) : Prop :=
  (∃ a, out = .existing a ∧ out' = .existing a) ∨ out = .appended e ∧ out' = .appended e'

namespace Session

variable {α β γ δ : Type} {s s' t t' : Store}

/-- Both sessions fail with the same cause, or both succeed and `P` relates what they return and
the stores that they leave. -/
def Related (P : α → Store → β → Store → Prop) (x : Session α) (s : Store) (y : Session β)
    (t : Store) : Prop :=
  match x s, y t with
  | .ok a s', .ok b t' => P a s' b t'
  | .error e _, .error f _ => e = f
  | .ok _ _, .error _ _ => False
  | .error _ _, .ok _ _ => False

namespace Related

variable {P : α → Store → β → Store → Prop} {Q : γ → Store → δ → Store → Prop}
  {x : Session α} {y : Session β}

theorem of_eq_ok {a : α} {b : β} (hx : x s = .ok a s') (hy : y t = .ok b t')
    (h : P a s' b t') : Related P x s y t := by
  rw [Related, hx, hy]
  exact h

theorem of_eq_error {e : LedgerError} (hx : x s = .error e s') (hy : y t = .error e t') :
    Related P x s y t := by
  rw [Related, hx, hy]

theorem ok_or_error (h : Related P x s y t) :
    (∃ a s' b t', x s = .ok a s' ∧ y t = .ok b t' ∧ P a s' b t') ∨
      ∃ e s' t', x s = .error e s' ∧ y t = .error e t' := by
  unfold Related at h
  split at h
  next a s' b t' hx hy => exact .inl ⟨a, s', b, t', hx, hy, h⟩
  next e s' f t' hx hy =>
    rw [← h] at hy
    exact .inr ⟨e, s', t', hx, hy⟩
  next => exact h.elim
  next => exact h.elim

theorem of_throw (e : LedgerError) : Related P (throw e) s (throw e) t :=
  of_eq_error (throw_apply e s) (throw_apply e t)

theorem of_throw_bind (e : LedgerError) {f : γ → Session α} {g : δ → Session β} :
    Related P (throw e >>= f) s (throw e >>= g) t :=
  of_eq_error (bind_of_eq_error (throw_apply e s)) (bind_of_eq_error (throw_apply e t))

theorem of_pure {a : α} {b : β} (h : P a s b t) : Related P (pure a) s (pure b) t :=
  of_eq_ok (pure_apply a s) (pure_apply b t) h

/-- Sessions are related when they begin in a related way and go on in one from there. -/
theorem bind {z : Session γ} {w : Session δ} {f : γ → Session α} {g : δ → Session β}
    (h : Related Q z s w t) (hk : ∀ a s' b t', Q a s' b t' → Related P (f a) s' (g b) t') :
    Related P (z >>= f) s (w >>= g) t := by
  rcases h.ok_or_error with ⟨a, s', b, t', hz, hw, hab⟩ | ⟨e, s', t', hz, hw⟩
  · rw [Related, bind_of_eq_ok hz, bind_of_eq_ok hw]
    exact hk a s' b t' hab
  · exact of_eq_error (bind_of_eq_error hz) (bind_of_eq_error hw)

theorem mono {P' : α → Store → β → Store → Prop} (h : Related P x s y t)
    (hP : ∀ a s' b t', P a s' b t' → P' a s' b t') : Related P' x s y t := by
  rcases h.ok_or_error with ⟨a, s', b, t', hx, hy, hab⟩ | ⟨e, s', t', hx, hy⟩
  · exact of_eq_ok hx hy (hP a s' b t' hab)
  · exact of_eq_error hx hy

theorem map {R : γ → Store → δ → Store → Prop} {f : α → γ} {g : β → δ}
    (h : Related P x s y t) (hf : ∀ a s' b t', P a s' b t' → R (f a) s' (g b) t') :
    Related R (f <$> x) s (g <$> y) t := by
  rcases h.ok_or_error with ⟨a, s', b, t', hx, hy, hab⟩ | ⟨e, s', t', hx, hy⟩
  · exact of_eq_ok (map_of_eq_ok f hx) (map_of_eq_ok g hy) (hf a s' b t' hab)
  · exact of_eq_error (map_of_eq_error f hx) (map_of_eq_error g hy)

/-- Where related sessions go on, each of them has succeeded. -/
theorem and_eq_ok (h : Related P x s y t) :
    Related (fun a s' b t' => P a s' b t' ∧ x s = .ok a s' ∧ y t = .ok b t') x s y t := by
  rcases h.ok_or_error with ⟨a, s', b, t', hx, hy, hab⟩ | ⟨e, s', t', hx, hy⟩
  · exact of_eq_ok hx hy ⟨hab, hx, hy⟩
  · exact of_eq_error hx hy

/-! ## Parts of sessions -/

/-- What is read may differ, as long as the same is read of it. -/
theorem of_read {f : Store → Except LedgerError γ} {g : Store → Except LedgerError δ}
    {view : γ → α} {view' : δ → α} (h : (f s).map view = (g t).map view') :
    Related (fun a s' b t' => view a = view' b ∧ (f s = .ok a ∧ s' = s) ∧ g t = .ok b ∧ t' = t)
      (read f) s (read g) t := by
  cases hf : f s with
  | ok a =>
    cases hg : g t with
    | ok b =>
      rw [hf, hg] at h
      exact of_eq_ok (read_of_eq_ok hf) (read_of_eq_ok hg) ⟨Except.ok.inj h, ⟨rfl, rfl⟩, rfl, rfl⟩
    | error e =>
      rw [hf, hg] at h
      cases h
  | error e =>
    cases hg : g t with
    | ok b =>
      rw [hf, hg] at h
      cases h
    | error e' =>
      rw [hf, hg] at h
      obtain rfl : e = e' := Except.error.inj h
      have hread : read f s = .error e s := by
        rw [read, hf]
      have hread' : read g t = .error e t := by
        rw [read, hg]
      exact of_eq_error hread hread'

variable {k : Session α} {l : Session β}

theorem lookup {f : Store → Except LedgerError γ} {k : γ → Session α} {l : γ → Session β}
    (hread : f s = f t) (h : ∀ c, f s = .ok c → Related P (k c) s (l c) t) :
    Related P (read f >>= k) s (read f >>= l) t := by
  cases hf : f s with
  | ok c =>
    rw [Related, bind_of_eq_ok (read_of_eq_ok hf), bind_of_eq_ok (read_of_eq_ok (hread ▸ hf))]
    exact h c hf
  | error e =>
    have hs : read f s = .error e s := by
      rw [read, hf]
    have ht : read f t = .error e t := by
      rw [read, ← hread, hf]
    exact of_eq_error (bind_of_eq_error hs) (bind_of_eq_error ht)

theorem fields (blank? : Option String) (h : Related P k s l t) :
    Related P (requireFields blank? >>= fun _ => k) s (requireFields blank? >>= fun _ => l) t := by
  cases blank? with
  | none => exact h
  | some field => exact of_throw_bind _

theorem of_get {f : Store → Session α} {g : Store → Session β} (h : Related P (f s) s (g t) t) :
    Related P ((get : Session Store) >>= f) s ((get : Session Store) >>= g) t := by
  rw [Related, bind_of_eq_ok (get_apply s), bind_of_eq_ok (get_apply t)]
  exact h

theorem of_ite {p : Prop} [Decidable p] {x' : Session α} {y' : Session β}
    (hx : p → Related P x s y t) (hk : ¬p → Related P x' s y' t) :
    Related P (if p then x else x') s (if p then y else y') t := by
  by_cases hp : p
  · rw [if_pos hp, if_pos hp]
    exact hx hp
  · rw [if_neg hp, if_neg hp]
    exact hk hp

/-- A session that refuses what it finds goes on where nothing is found. -/
theorem refuse {f : Store → Except LedgerError (Option γ)} {e : LedgerError} (hread : f s = f t)
    (h : f s = .ok none → Related P k s l t) :
    Related P (read f >>= fun r => if r.isSome then throw e else k) s
      (read f >>= fun r => if r.isSome then throw e else l) t := by
  refine lookup hread fun r hr => of_ite (fun _ => of_throw e) fun hnone => h ?_
  rw [hr, Option.not_isSome_iff_eq_none.mp hnone]

/-- A session that demands what it looks for goes on where it is found. -/
theorem demand {f : Store → Except LedgerError (Option γ)} {e : LedgerError} (hread : f s = f t)
    (h : ∀ c, f s = .ok (some c) → Related P k s l t) :
    Related P (read f >>= fun r => if r.isNone then throw e else k) s
      (read f >>= fun r => if r.isNone then throw e else l) t := by
  refine lookup hread fun r hr => of_ite (fun _ => of_throw e) fun hsome => ?_
  obtain ⟨c, rfl⟩ := Option.ne_none_iff_exists'.mp (mt Option.isNone_iff_eq_none.mpr hsome)
  exact h c hr

/-! ## Storing a timeline anew -/

variable {key : EntityKey}

theorem of_modify (f g : Store → Store) :
    Related (fun _ s' _ t' => s' = f s ∧ t' = g t) (modify f) s (modify g) t :=
  of_eq_ok (modify_eq_ok_iff (u := ()).mpr rfl) (modify_eq_ok_iff (u := ()).mpr rfl) ⟨rfl, rfl⟩

/-- Two stores have the same stored timeline of an entity. -/
def SameVersions (key : EntityKey) (s t : Store) : Prop :=
  (s.ofEntity key).versions = (t.ofEntity key).versions

/-- Whether a row fits into the timelines is decided by the rows of its entity. -/
theorem any_sharesNumber_eq (row : VersionRow) (rows : List VersionRow) :
    rows.any row.sharesNumber =
      (rows.filter fun r => r.key == row.key).any row.sharesNumber := by
  rw [List.any_filter]
  congr 1
  funext r
  by_cases hkey : r.key = row.key
  · simp [hkey]
  · simp [VersionRow.sharesNumber, hkey, Ne.symm hkey]

theorem insertVersion {row : VersionRow} (hkey : row.key = key) (h : SameVersions key s t) :
    Related (fun _ s' _ t' => SameVersions key s' t') (insertVersion row) s
      (insertVersion row) t := by
  subst hkey
  have hfault : row.fault? s.versions = row.fault? t.versions := by
    have hany : s.versions.any row.sharesNumber = t.versions.any row.sharesNumber := by
      rw [any_sharesNumber_eq, any_sharesNumber_eq row t.versions]
      exact congrArg (fun rows : List VersionRow => rows.any row.sharesNumber) h
    rw [VersionRow.fault?, VersionRow.fault?, hany]
  refine of_get ?_
  rw [hfault]
  cases row.fault? t.versions with
  | some fault => exact of_throw_bind _
  | none =>
    refine of_eq_ok (set_apply s _) (set_apply t _) ?_
    simp only [SameVersions, Store.ofEntity, List.filter_append] at h ⊢
    rw [h]

theorem insertVersions {timeline : Timeline} (hkeys : ∀ v ∈ timeline, v.key = key)
    (h : SameVersions key s t) :
    Related (fun _ s' _ t' => SameVersions key s' t')
      (timeline.forM fun v => Session.insertVersion v.row) s
      (timeline.forM fun v => Session.insertVersion v.row) t := by
  induction timeline generalizing s t with
  | nil => exact of_pure h
  | cons v rest ih =>
    obtain ⟨hv, hrest⟩ := List.forall_mem_cons.mp hkeys
    have hrow : v.row.key = key := hv
    exact bind (insertVersion hrow h) fun _ s' _ t' h' => ih hrest h'

/-- The timeline that is stored anew depends only on the timeline that follows from the logs. -/
theorem rematerialize
    (h : (s.replayEntity key).map Prod.fst = (t.replayEntity key).map Prod.fst) :
    Related (fun a _ b _ => a = b) (rematerialize key) s (rematerialize key) t := by
  refine bind (of_read h) ?_
  rintro ⟨timeline, last⟩ s' ⟨timeline', last'⟩ t' ⟨rfl, ⟨hreplay, rfl⟩, -, rfl⟩
  have hkeys : ∀ v ∈ timeline, v.key = key := by
    obtain ⟨history, -, htimeline, -⟩ := Store.replayEntity_eq_ok_iff.mp hreplay
    exact fun v hv => key_of_mem_replay htimeline hv
  refine bind (of_modify _ _) ?_
  rintro - s₁ - t₁ ⟨rfl, rfl⟩
  have hgone : ∀ rows : List VersionRow,
      (rows.filter fun row => row.key != key).filter (fun row => row.key == key) = [] := by
    intro rows
    simp [List.filter_filter]
  have hsame : SameVersions key
      { s' with versions := s'.versions.filter fun row => row.key != key }
      { t' with versions := t'.versions.filter fun row => row.key != key } :=
    (hgone _).trans (hgone _).symm
  refine bind (insertVersions hkeys hsame) fun _ s₂ _ t₂ _ => ?_
  exact bind (of_modify _ _) fun _ s₃ _ t₃ _ => of_pure rfl

/-! ## Recording an entry -/

variable {a b : AuditEntry}

/-- New entries that fit into their log, and after which the entity replays alike, are recorded
alike. -/
theorem append {x y : Session Unit} {e e' : α} (hx : x s = .ok () (s.add a))
    (hy : y t = .ok () (t.add b))
    (hreplay : ((s.add a).replayEntity key).map Prod.fst =
      ((t.add b).replayEntity key).map Prod.fst) :
    Related (fun out _ out' _ => Outcome.Same e e' out out')
      (do x; let _ ← Session.rematerialize key; return .appended e) s
      (do y; let _ ← Session.rematerialize key; return .appended e') t := by
  rw [Related, bind_of_eq_ok hx, bind_of_eq_ok hy]
  exact bind (rematerialize hreplay) fun _ s' _ t' _ => of_pure (.inr ⟨rfl, rfl⟩)

theorem appendEvent {e e' : Event} (hkey : e'.key = e.key)
    (hfits : e.row.toLogRow.fault? .events (s.rows .events) = none)
    (hfits' : e'.row.toLogRow.fault? .events (t.rows .events) = none)
    (hreplay : ((s.add (.event e)).replayEntity e.key).map Prod.fst =
      ((t.add (.event e')).replayEntity e.key).map Prod.fst) :
    Related (fun out _ out' _ => Outcome.Same e e' out out') (appendEvent e) s
      (appendEvent e') t := by
  have htype : ∀ e : Event, (EventType.ofName? e.row.type).isSome := fun e => by
    simp [Event.row, EventType.ofName?_name]
  rw [Session.appendEvent, Session.appendEvent, hkey]
  exact append (insertEvent_eq_ok_iff.mpr ⟨htype e, hfits, rfl⟩)
    (insertEvent_eq_ok_iff.mpr ⟨htype e', hfits', rfl⟩) hreplay

theorem appendCorrection {e e' : Entry} (hkey : e'.key = e.key)
    (hfits : e.row.fault? .corrections (s.rows .corrections) = none)
    (hfits' : e'.row.fault? .corrections (t.rows .corrections) = none)
    (hreplay : ((s.add (.correction e)).replayEntity e.key).map Prod.fst =
      ((t.add (.correction e')).replayEntity e.key).map Prod.fst) :
    Related (fun out _ out' _ => Outcome.Same e e' out out') (appendCorrection e) s
      (appendCorrection e') t := by
  rw [Session.appendCorrection, Session.appendCorrection, hkey]
  exact append (insertCorrection_eq_ok_iff.mpr ⟨hfits, rfl⟩)
    (insertCorrection_eq_ok_iff.mpr ⟨hfits', rfl⟩) hreplay

theorem appendRescind {e e' : Entry} (hkey : e'.key = e.key)
    (hfits : e.row.fault? .rescinds (s.rows .rescinds) = none)
    (hfits' : e'.row.fault? .rescinds (t.rows .rescinds) = none)
    (hreplay : ((s.add (.rescind e)).replayEntity e.key).map Prod.fst =
      ((t.add (.rescind e')).replayEntity e.key).map Prod.fst) :
    Related (fun out _ out' _ => Outcome.Same e e' out out') (appendRescind e) s
      (appendRescind e') t := by
  rw [Session.appendRescind, Session.appendRescind, hkey]
  exact append (insertRescind_eq_ok_iff.mpr ⟨hfits, rfl⟩)
    (insertRescind_eq_ok_iff.mpr ⟨hfits', rfl⟩) hreplay

/-! ## Mutations -/

variable {pos pos' : Position} {now now' : Nat}

/-- Whether a submission agrees with what is registered does not depend on the store. -/
theorem agree (c : Submission) {head head' : Head} (hkind : head.kind = head'.kind)
    (howning : head.owningKey = head'.owningKey) :
    Related (fun _ _ _ _ => True) (agree c head) s (agree c head') t := by
  have hsame : Session.agree c head' = Session.agree c head := by
    rw [Session.agree, Session.agree, hkind, howning]
  rw [hsame]
  rw [Session.agree]
  refine of_ite (fun _ => of_throw_bind _) fun _ => ?_
  cases c.owningKey with
  | none => exact of_pure trivial
  | some key => exact of_ite (fun _ => of_throw _) fun _ => of_pure trivial

theorem register {c : Submission}
    (hholder : ∀ k ∈ c.owningKey, s.entityByOwningKey c.key.tenant c.kind k =
      t.entityByOwningKey c.key.tenant c.kind k)
    (hfault : (c.headRow pos).fault? s.heads = (c.headRow pos').fault? t.heads) :
    Related (fun _ _ _ _ => True) (register c pos) s (register c pos') t := by
  have hinsert : Related (fun _ _ _ _ => True) (insertHead (c.headRow pos)) s
      (insertHead (c.headRow pos')) t := by
    refine of_get ?_
    rw [hfault]
    cases (c.headRow pos').fault? t.heads with
    | some fault => exact of_throw_bind _
    | none => exact of_eq_ok (set_apply s _) (set_apply t _) trivial
  rw [Session.register, Session.register]
  cases howning : c.owningKey with
  | none =>
    rw [Submission.headRow, Submission.headRow, howning] at hinsert
    exact hinsert
  | some key =>
    rw [Submission.headRow, Submission.headRow, howning] at hinsert
    refine of_get ?_
    rw [hholder key howning]
    cases t.entityByOwningKey c.key.tenant c.kind key with
    | none => exact hinsert
    | some holder => exact of_throw_bind _

theorem resolveIdentity {c : Submission}
    (hhead : (s.head c.key).map (Option.map fun head => (head.kind, head.owningKey)) =
      (t.head c.key).map (Option.map fun head => (head.kind, head.owningKey)))
    (hregister : s.head c.key = .ok none →
      Related (fun _ _ _ _ => True) (Session.register c pos) s (Session.register c pos') t) :
    Related (fun _ s' _ t' => s.Identifies c pos s' ∧ t.Identifies c pos' t')
      (resolveIdentity c pos) s (resolveIdentity c pos') t := by
  have hrelated : Related (fun _ _ _ _ => True) (Session.resolveIdentity c pos) s
      (Session.resolveIdentity c pos') t := by
    refine bind (of_read hhead) ?_
    rintro head? s' head'? t' ⟨hview, ⟨hs, rfl⟩, -, rfl⟩
    cases head? with
    | some head =>
      obtain ⟨head', rfl, hsame⟩ := Option.map_eq_some_iff.mp hview.symm
      exact agree c (congrArg Prod.fst hsame).symm (congrArg Prod.snd hsame).symm
    | none =>
      obtain rfl : head'? = none := Option.map_eq_none_iff.mp hview.symm
      cases htype : c.type with
      | create => exact hregister hs
      | update => exact of_pure trivial
  refine hrelated.and_eq_ok.mono ?_
  rintro _ s' _ t' ⟨-, hs, ht⟩
  exact ⟨resolveIdentity_eq_ok_iff.mp hs, resolveIdentity_eq_ok_iff.mp ht⟩

theorem submit {c : Submission} (hid : s.eventById c.id = t.eventById c.id)
    (hsubmission : s.eventBySubmission c.key.tenant c.submission =
      t.eventBySubmission c.key.tenant c.submission)
    (hidentity : Related (fun _ s' _ t' => s.Identifies c s.nextPosition s' ∧
        t.Identifies c t.nextPosition t')
      (Session.resolveIdentity c s.nextPosition) s (Session.resolveIdentity c t.nextPosition) t)
    (hon : s.eventOn c.key c.date = t.eventOn c.key c.date)
    (hrescind : s.rescindOn c.key c.date = t.rescindOn c.key c.date)
    (happend : s.eventById c.id = .ok none →
      s.eventBySubmission c.key.tenant c.submission = .ok none →
      s.eventOn c.key c.date = .ok none → ∀ s' t', s.Identifies c s.nextPosition s' →
      t.Identifies c t.nextPosition t' →
      Related (fun out _ out' _ => Outcome.Same (c.event s.nextPosition now)
          (c.event t.nextPosition now') out out')
        (Session.appendEvent (c.event s.nextPosition now)) s'
        (Session.appendEvent (c.event t.nextPosition now')) t') :
    Related (fun out _ out' _ => Outcome.Same (c.event s.nextPosition now)
      (c.event t.nextPosition now') out out') (submit c now) s (submit c now') t := by
  have hexisting : ∀ (stored : Event) (u v : Store),
      Related (fun out _ out' _ => Outcome.Same (c.event s.nextPosition now)
        (c.event t.nextPosition now') out out') (pure (.existing stored)) u
        (pure (.existing stored)) v :=
    fun stored u v => of_pure (.inl ⟨stored, rfl, rfl⟩)
  refine .fields c.blankField? (.lookup hid ?_)
  intro found? hfound
  cases found? with
  | some stored => exact .of_ite (fun _ => hexisting stored s t) fun _ => .of_throw _
  | none =>
    refine .refuse hsubmission fun hnone => .of_get (.bind hidentity ?_)
    rintro - s' - t' ⟨hs', ht'⟩
    have hons : s'.eventOn c.key c.date = s.eventOn c.key c.date := by
      simp only [Store.eventOn, Store.event?, hs'.logs_eq.1]
    have hont : t'.eventOn c.key c.date = t.eventOn c.key c.date := by
      simp only [Store.eventOn, Store.event?, ht'.logs_eq.1]
    have hrescinds : s'.rescindOn c.key c.date = s.rescindOn c.key c.date := by
      simp only [Store.rescindOn, hs'.logs_eq.2.2.1]
    have hrescindt : t'.rescindOn c.key c.date = t.rescindOn c.key c.date := by
      simp only [Store.rescindOn, ht'.logs_eq.2.2.1]
    refine .lookup (hons.trans (hon.trans hont.symm)) fun on? hon? => ?_
    cases on? with
    | some stored =>
      refine .lookup (hrescinds.trans (hrescind.trans hrescindt.symm)) fun rescind? _ => ?_
      exact .of_ite (fun _ => hexisting stored s' t') fun _ => .of_throw _
    | none => exact happend hfound hnone (hons.symm.trans hon?) s' t' hs' ht'

theorem correct {c : Command} (hon : s.eventOn c.key c.date = t.eventOn c.key c.date)
    (hrescind : s.rescindOn c.key c.date = t.rescindOn c.key c.date)
    (hid : s.correctionById c.id = t.correctionById c.id)
    (hsubmission : s.correctionBySubmission c.key.tenant c.submission =
      t.correctionBySubmission c.key.tenant c.submission)
    (hcorrection : s.correctionOn c.key c.date = t.correctionOn c.key c.date)
    (happend : s.correctionById c.id = .ok none →
      s.correctionBySubmission c.key.tenant c.submission = .ok none →
      s.correctionOn c.key c.date = .ok none →
      Related (fun out _ out' _ => Outcome.Same (c.entry s.nextPosition now)
          (c.entry t.nextPosition now') out out')
        (Session.appendCorrection (c.entry s.nextPosition now)) s
        (Session.appendCorrection (c.entry t.nextPosition now')) t) :
    Related (fun out _ out' _ => Outcome.Same (c.entry s.nextPosition now)
      (c.entry t.nextPosition now') out out') (correct c now) s (correct c now') t := by
  have hexisting : ∀ stored : Entry,
      Related (fun out _ out' _ => Outcome.Same (c.entry s.nextPosition now)
        (c.entry t.nextPosition now') out out') (pure (.existing stored)) s
        (pure (.existing stored)) t :=
    fun stored => of_pure (.inl ⟨stored, rfl, rfl⟩)
  refine .fields (c.blankField? .corrections) (.demand hon fun target _ => .refuse hrescind
    fun _ => .lookup hid ?_)
  intro found? hfound
  cases found? with
  | some stored => exact .of_ite (fun _ => hexisting stored) fun _ => .of_throw _
  | none =>
    refine .refuse hsubmission fun hnone => .lookup hcorrection fun on? hon? => ?_
    cases on? with
    | some stored => exact .of_ite (fun _ => hexisting stored) fun _ => .of_throw _
    | none => exact .of_get (happend hfound hnone hon?)

theorem rescind {c : Command} (hon : s.eventOn c.key c.date = t.eventOn c.key c.date)
    (hid : s.rescindById c.id = t.rescindById c.id)
    (hsubmission : s.rescindBySubmission c.key.tenant c.submission =
      t.rescindBySubmission c.key.tenant c.submission)
    (hrescind : s.rescindOn c.key c.date = t.rescindOn c.key c.date)
    (happend : s.rescindById c.id = .ok none →
      s.rescindBySubmission c.key.tenant c.submission = .ok none →
      s.rescindOn c.key c.date = .ok none →
      Related (fun out _ out' _ => Outcome.Same (c.entry s.nextPosition now)
          (c.entry t.nextPosition now') out out')
        (Session.appendRescind (c.entry s.nextPosition now)) s
        (Session.appendRescind (c.entry t.nextPosition now')) t) :
    Related (fun out _ out' _ => Outcome.Same (c.entry s.nextPosition now)
      (c.entry t.nextPosition now') out out') (rescind c now) s (rescind c now') t := by
  have hexisting : ∀ stored : Entry,
      Related (fun out _ out' _ => Outcome.Same (c.entry s.nextPosition now)
        (c.entry t.nextPosition now') out out') (pure (.existing stored)) s
        (pure (.existing stored)) t :=
    fun stored => of_pure (.inl ⟨stored, rfl, rfl⟩)
  refine .fields (c.blankField? .rescinds) (.lookup hon fun target? _ => ?_)
  cases target? with
  | none => exact .of_throw _
  | some target =>
    refine .of_ite (fun _ => .of_throw _) fun _ => .lookup hid fun found? hfound => ?_
    cases found? with
    | some stored => exact .of_ite (fun _ => hexisting stored) fun _ => .of_throw _
    | none =>
      refine .refuse hsubmission fun hnone => .lookup hrescind fun on? hon? => ?_
      cases on? with
      | some stored => exact .of_ite (fun _ => hexisting stored) fun _ => .of_throw _
      | none => exact .of_get (happend hfound hnone hon?)

end Related

end Session

end DatedLedger
