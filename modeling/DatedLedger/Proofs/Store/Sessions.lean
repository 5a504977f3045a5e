import DatedLedger.Store.Write

/-!
# Sessions that succeed

A session succeeds exactly when its statements succeed one after another, each on
the store that the last one left.  For each statement on the tables this module
says when it succeeds and what it leaves; all later reasoning about sessions opens
them with these facts.
-/

namespace DatedLedger

section Results

variable {σ α β : Type} {x : EStateM LedgerError σ α} {s s' : σ}

theorem map_of_eq_ok (f : α → β) {a : α} (h : x s = .ok a s') : (f <$> x) s = .ok (f a) s' := by
  simp only [Functor.map, EStateM.map, h]

theorem map_of_eq_error (f : α → β) {e : LedgerError} (h : x s = .error e s') :
    (f <$> x) s = .error e s' := by
  simp only [Functor.map, EStateM.map, h]

end Results

namespace Session

variable {α β : Type} {s s' : Store}

/-! ## Composition -/

theorem bind_eq_ok_iff {x : Session α} {f : α → Session β} {b : β} :
    (x >>= f) s = .ok b s' ↔ ∃ a t, x s = .ok a t ∧ f a t = .ok b s' := by
  change EStateM.bind x f s = .ok b s' ↔ _
  unfold EStateM.bind
  split
  next a t hx =>
    rw [hx]
    constructor
    · intro h
      exact ⟨a, t, rfl, h⟩
    · rintro ⟨a', t', h, hf⟩
      cases h
      exact hf
  next e t hx =>
    simp [hx]

theorem bind_of_eq_ok {x : Session α} {f : α → Session β} {a : α} {t : Store}
    (hx : x s = .ok a t) : (x >>= f) s = f a t := by
  change EStateM.bind x f s = f a t
  rw [EStateM.bind, hx]

theorem bind_of_eq_error {x : Session α} {f : α → Session β} {e : LedgerError} {t : Store}
    (hx : x s = .error e t) : (x >>= f) s = .error e t := by
  change EStateM.bind x f s = .error e t
  rw [EStateM.bind, hx]

theorem pure_apply (a : α) (s : Store) : (pure a : Session α) s = .ok a s := rfl

theorem throw_apply (e : LedgerError) (s : Store) : (throw e : Session α) s = .error e s := rfl

theorem get_apply (s : Store) : (get : Session Store) s = .ok s s := rfl

theorem set_apply (s t : Store) : (set t : Session Unit) s = .ok () t := rfl

theorem modify_eq_ok_iff {f : Store → Store} {u : Unit} :
    (modify f : Session Unit) s = .ok u s' ↔ s' = f s := by
  change EStateM.Result.ok () (f s) = .ok u s' ↔ _
  simp [eq_comm]

theorem pure_eq_ok_iff {a b : α} : (pure a : Session α) s = .ok b s' ↔ b = a ∧ s' = s := by
  rw [pure_apply]
  simp [eq_comm]

theorem read_eq_ok_iff {f : Store → Except LedgerError α} {a : α} :
    read f s = .ok a s' ↔ f s = .ok a ∧ s' = s := by
  unfold read
  split
  next b hf => simp [hf, eq_comm]
  next e hf => simp [hf]

theorem read_of_eq_ok {f : Store → Except LedgerError α} {a : α} (hf : f s = .ok a) :
    read f s = .ok a s :=
  read_eq_ok_iff.mpr ⟨hf, rfl⟩

theorem check_eq_ok_iff {fault? : Option StorageFault} {u : Unit} :
    check fault? s = .ok u s' ↔ fault? = none ∧ s' = s := by
  cases fault? with
  | none => simp [check, pure_apply, eq_comm]
  | some fault => simp [check, throw_apply]

theorem requireFields_eq_ok_iff {blank? : Option String} {u : Unit} :
    requireFields blank? s = .ok u s' ↔ blank? = none ∧ s' = s := by
  cases blank? with
  | none => simp [requireFields, pure_apply, eq_comm]
  | some field => simp [requireFields, throw_apply]

/-! ## Checks -/

theorem fields_eq_ok_iff {blank? : Option String} {k : Session α} {a : α} :
    (requireFields blank? >>= fun _ => k) s = .ok a s' ↔ blank? = none ∧ k s = .ok a s' := by
  simp only [bind_eq_ok_iff, requireFields_eq_ok_iff]
  constructor
  · rintro ⟨_, _, ⟨hfields, rfl⟩, h⟩
    exact ⟨hfields, h⟩
  · rintro ⟨hfields, h⟩
    exact ⟨(), s, ⟨hfields, rfl⟩, h⟩

theorem get_bind_eq_ok_iff {k : Store → Session α} {a : α} :
    ((get : Session Store) >>= k) s = .ok a s' ↔ k s s = .ok a s' := by
  rw [bind_of_eq_ok (get_apply s)]

/-- After a look-up a session goes on with what was found, or without it. -/
theorem lookup_eq_ok_iff {f : Store → Except LedgerError (Option β)}
    {k : Option β → Session α} {a : α} :
    (read f >>= k) s = .ok a s' ↔
      (∃ b, f s = .ok (some b) ∧ k (some b) s = .ok a s') ∨
        (f s = .ok none ∧ k none s = .ok a s') := by
  simp only [bind_eq_ok_iff, read_eq_ok_iff]
  constructor
  · rintro ⟨found?, _, ⟨hread, rfl⟩, h⟩
    cases found? with
    | some b => exact .inl ⟨b, hread, h⟩
    | none => exact .inr ⟨hread, h⟩
  · rintro (⟨b, hread, h⟩ | ⟨hread, h⟩)
    · exact ⟨some b, s, ⟨hread, rfl⟩, h⟩
    · exact ⟨none, s, ⟨hread, rfl⟩, h⟩

theorem unless_eq_ok_iff {p : Prop} [Decidable p] {e : LedgerError} {k : Session α} {a : α} :
    (if p then throw e else k) s = .ok a s' ↔ ¬p ∧ k s = .ok a s' := by
  by_cases hp : p
  · simp [hp, throw_apply]
  · simp [hp]

theorem refuse_eq_ok_iff {f : Store → Except LedgerError (Option β)} {e : LedgerError}
    {k : Session α} {a : α} :
    (read f >>= fun r => if r.isSome then throw e else k) s = .ok a s' ↔
      f s = .ok none ∧ k s = .ok a s' := by
  rw [lookup_eq_ok_iff]
  simp [throw_apply]

theorem demand_eq_ok_iff {f : Store → Except LedgerError (Option β)} {e : LedgerError}
    {k : Session α} {a : α} :
    (read f >>= fun r => if r.isNone then throw e else k) s = .ok a s' ↔
      (∃ b, f s = .ok (some b)) ∧ k s = .ok a s' := by
  rw [lookup_eq_ok_iff]
  simp [throw_apply]

theorem answer_eq_ok_iff {b : Bool} {stored : α} {e : LedgerError} {out : Outcome α} :
    (if b then pure (.existing stored) else throw e : Session (Outcome α)) s = .ok out s' ↔
      b ∧ out = .existing stored ∧ s' = s := by
  cases b with
  | true => simpa using pure_eq_ok_iff
  | false => simp [throw_apply]

/-! ## Transactions -/

/-- A transaction that does not succeed changes nothing. -/
theorem transaction_eq_error_of_forall_ne {session : Session α}
    (h : ∀ a t, session s ≠ .ok a t) : ∃ e, session.transaction s = .error e s := by
  unfold transaction
  split
  next a t hs => exact absurd hs (h a t)
  next e t hs => exact ⟨e, rfl⟩

theorem transaction_of_eq_ok {session : Session α} {a : α} (h : session s = .ok a s') :
    session.transaction s = .ok a s' :=
  transaction_eq_ok_iff.mpr h

theorem transaction_of_eq_error {session : Session α} {e : LedgerError} {t : Store}
    (h : session s = .error e t) : session.transaction s = .error e s := by
  rw [transaction, h]

/-! ## Statements -/

/-- A row fits into a log when no row there shares a key with it. -/
theorem fault?_eq_none_iff {row : LogRow} {log : Log} {rows : List LogRow} :
    row.fault? log rows = none ↔
      ∀ r ∈ rows, row.pos ≠ r.pos ∧
        ¬(row.key.tenant = r.key.tenant ∧ row.submission = r.submission) ∧
        ¬(row.key = r.key ∧ row.date = r.date) ∧ row.id ≠ r.id := by
  simp only [LogRow.fault?, Option.map_eq_none_iff, List.find?_eq_none, LogKey.all,
    List.mem_cons, List.not_mem_nil, or_false, forall_eq_or_imp, forall_eq, List.any_eq_true,
    not_exists, LogKey.shared, Bool.and_eq_true, beq_iff_eq]
  constructor
  · rintro ⟨hpos, hsubmission, hdate, hid⟩ r hr
    exact ⟨fun h => hpos r ⟨hr, h⟩, fun h => hsubmission r ⟨hr, h⟩,
      fun h => hdate r ⟨hr, h⟩, fun h => hid r ⟨hr, h⟩⟩
  · intro h
    exact ⟨fun r hr => (h r hr.1).1 hr.2, fun r hr => (h r hr.1).2.1 hr.2,
      fun r hr => (h r hr.1).2.2.1 hr.2, fun r hr => (h r hr.1).2.2.2 hr.2⟩

/-- A statement that checks a row and then changes the store. -/
theorem checked_eq_ok_iff {fault? : Store → Option StorageFault} {change : Store → Store}
    {u : Unit} :
    (do let s ← get; check (fault? s); set (change s) : Session Unit) s = .ok u s' ↔
      fault? s = none ∧ s' = change s := by
  simp only [bind_eq_ok_iff, get_apply, check_eq_ok_iff, set_apply]
  constructor
  · rintro ⟨a, t, hget, b, t', ⟨hfault, rfl⟩, hset⟩
    cases hget
    cases hset
    exact ⟨hfault, rfl⟩
  · rintro ⟨hfault, rfl⟩
    exact ⟨s, s, rfl, (), s, ⟨hfault, rfl⟩, rfl⟩

theorem insertEvent_eq_ok_iff {row : EventRow} {u : Unit} :
    insertEvent row s = .ok u s' ↔
      (EventType.ofName? row.type).isSome ∧
        row.toLogRow.fault? .events (s.rows .events) = none ∧
        s' = { s with events := s.events ++ [row] } := by
  by_cases htype : (EventType.ofName? row.type).isNone
  · have hsome : ¬(EventType.ofName? row.type).isSome := by
      simpa using htype
    simp [insertEvent, bind_eq_ok_iff, get_apply, htype, throw_apply, hsome]
  · have hsome : (EventType.ofName? row.type).isSome := by
      simpa [Option.isSome_iff_ne_none] using htype
    rw [insertEvent]
    simp only [htype, hsome, true_and]
    exact checked_eq_ok_iff

theorem insertCorrection_eq_ok_iff {row : LogRow} {u : Unit} :
    insertCorrection row s = .ok u s' ↔
      row.fault? .corrections (s.rows .corrections) = none ∧
        s' = { s with corrections := s.corrections ++ [row] } :=
  checked_eq_ok_iff

theorem insertRescind_eq_ok_iff {row : LogRow} {u : Unit} :
    insertRescind row s = .ok u s' ↔
      row.fault? .rescinds (s.rows .rescinds) = none ∧
        s' = { s with rescinds := s.rescinds ++ [row] } :=
  checked_eq_ok_iff

theorem insertHead_eq_ok_iff {row : HeadRow} {u : Unit} :
    insertHead row s = .ok u s' ↔
      row.fault? s.heads = none ∧ s' = { s with heads := s.heads ++ [row] } :=
  checked_eq_ok_iff

theorem insertVersion_eq_ok_iff {row : VersionRow} {u : Unit} :
    insertVersion row s = .ok u s' ↔
      row.fault? s.versions = none ∧ s' = { s with versions := s.versions ++ [row] } :=
  checked_eq_ok_iff

theorem versionFault?_eq_none_iff {row : VersionRow} {rows : List VersionRow} :
    row.fault? rows = none ↔ ∀ r ∈ rows, ¬(row.key = r.key ∧ row.seqNo = r.seqNo) := by
  simp [VersionRow.fault?, VersionRow.sharesNumber]

/-- Versions are added one after another as long as each has a number of its own. -/
theorem forM_insertVersion_eq_ok_iff {timeline : Timeline} {u : Unit} :
    (timeline.forM fun v => insertVersion v.row) s = .ok u s' ↔
      (timeline.Pairwise fun v w => ¬(w.row.key = v.row.key ∧ w.row.seqNo = v.row.seqNo)) ∧
        (∀ v ∈ timeline, ∀ r ∈ s.versions, ¬(v.row.key = r.key ∧ v.row.seqNo = r.seqNo)) ∧
        s' = { s with versions := s.versions ++ timeline.map Version.row } := by
  induction timeline generalizing s with
  | nil => simp [pure_eq_ok_iff]
  | cons v rest ih =>
    change (insertVersion v.row >>= fun _ => rest.forM fun v => insertVersion v.row) s = .ok u s' ↔
      _
    simp only [bind_eq_ok_iff, insertVersion_eq_ok_iff, versionFault?_eq_none_iff]
    constructor
    · rintro ⟨a, t, ⟨hv, rfl⟩, hrest⟩
      obtain ⟨hpair, hfresh, rfl⟩ := ih.mp hrest
      refine ⟨List.pairwise_cons.mpr ⟨?_, hpair⟩, ?_, by simp⟩
      · intro w hw
        exact hfresh w hw v.row (by simp)
      · intro w hw r hr
        rcases List.mem_cons.mp hw with rfl | hw
        · exact hv r hr
        · exact hfresh w hw r (by simp [hr])
    · rintro ⟨hpair, hfresh, rfl⟩
      obtain ⟨hv, hpair⟩ := List.pairwise_cons.mp hpair
      refine ⟨(), _, ⟨fun r hr => hfresh v List.mem_cons_self r hr, rfl⟩, ?_⟩
      refine ih.mpr ⟨hpair, ?_, by simp⟩
      intro w hw r hr
      rcases List.mem_append.mp hr with hr | hr
      · exact hfresh w (List.mem_cons_of_mem v hw) r hr
      · rw [List.mem_singleton.mp hr]
        exact hv w hw

end Session

end DatedLedger
