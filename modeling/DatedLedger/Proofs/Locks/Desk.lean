import DatedLedger.Proofs.Locks.Exclusion

/-!
# Holders at a desk

A desk serves named holders one after another.  Whatever it does, a shared table does too
when nobody else comes to it: to take a lock is a call and two steps, to be refused takes one
more step at the end of the wait, and a guard that a holder had before is let go of after the
new one was taken.  So the guards at a desk exclude each other as those at a shared table do.
-/

namespace DatedLedger

namespace SharedTable

variable {s : SharedTable} {key : EntityKey} {timeout : Nat}

theorem after_append (s : SharedTable) (actions more : List LockAction) :
    s.after (actions ++ more) = (s.after actions).after more :=
  List.foldl_append

/-- A call while nobody has the table looks its pair up in two steps, if its deadline is an
instant. -/
theorem after_call (hfree : s.owner = none) (htimeout : s.clock + timeout ≤ s.latest)
    (key : EntityKey) :
    ∃ (s' : SharedTable) (a : LockAttempt), s'.attempts[s.attempts.length]? = some a ∧
      a = ⟨key, s.clock, timeout, .looking⟩ ∧ s'.clock = s.clock ∧ s'.latest = s.latest ∧
      s.after [.call key timeout, .proceed s.attempts.length, .proceed s.attempts.length] =
        if key ∈ s.table.held then s'.advance s.attempts.length a .blocked
        else { s' with table := ⟨key :: s.table.held⟩ }.advance s.attempts.length a .holding := by
  have hcalled : (s.step (.call key timeout)).attempts[s.attempts.length]? =
      some ⟨key, s.clock, timeout, .entering⟩ :=
    getElem?_concat_eq_some_iff.mpr (.inr ⟨rfl, (attempt_of_le htimeout).symm⟩)
  have hlooking := advance_attempts_self hcalled .looking
  refine ⟨_, _, hlooking, rfl, rfl, rfl, ?_⟩
  simp only [after, List.foldl_cons, List.foldl_nil]
  rw [step_proceed_of_free hcalled (.inl rfl) hfree]
  exact step_proceed_of_looking hlooking rfl

/-- A call for a pair that is free takes its lock. -/
theorem after_call_of_not_mem (hfree : s.owner = none) (htimeout : s.clock + timeout ≤ s.latest)
    (hheld : key ∉ s.table.held) :
    let s' := s.after [.call key timeout, .proceed s.attempts.length, .proceed s.attempts.length]
    s'.table = ⟨key :: s.table.held⟩ ∧ s'.owner = none := by
  obtain ⟨s', a, -, -, -, -, hcall⟩ := after_call hfree htimeout key
  rw [if_neg hheld] at hcall
  rw [hcall]
  exact ⟨rfl, rfl⟩

/-- An attempt whose time is over is refused when it has found its pair held. -/
theorem step_proceed_of_late {i : Nat} {a : LockAttempt} (ha : s.attempts[i]? = some a)
    (hstage : a.stage = .blocked) (hlate : a.deadline ≤ s.clock) :
    s.step (.proceed i) = s.advance i a (.refused ⟨a.key⟩ (a.waited s.clock)) := by
  rw [step_proceed ha, proceed, hstage]
  exact if_pos hlate

/-- A call for a pair that is held is refused when its time is over. -/
theorem refusal?_after_call (hfree : s.owner = none) (htimeout : s.clock + timeout ≤ s.latest)
    (hheld : key ∈ s.table.held) :
    ∃ waited, (s.after [.call key timeout, .proceed s.attempts.length, .proceed s.attempts.length,
      .tick timeout, .proceed s.attempts.length]).refusal? s.attempts.length =
        some (⟨key⟩, waited) := by
  obtain ⟨s', a, ha, rfl, hclock, hlatest, hcall⟩ := after_call hfree htimeout key
  rw [if_pos hheld] at hcall
  have hblocked := advance_attempts_self ha .blocked
  have hlate : s.clock + timeout ≤ min (s'.clock + timeout) s'.latest := by
    rw [hclock, hlatest]
    exact Nat.le_min.mpr ⟨Nat.le_refl _, htimeout⟩
  have hlast := step_proceed_of_late (s := (s'.advance _ _ .blocked).step (.tick timeout))
    hblocked rfl hlate
  have hsplit := after_append s [.call key timeout, .proceed s.attempts.length,
    .proceed s.attempts.length] [.tick timeout, .proceed s.attempts.length]
  rw [hcall] at hsplit
  have hend := congrArg (fun t => t.refusal? s.attempts.length) (hsplit.trans hlast)
  exact ⟨_, hend.trans (refusal?_eq_some_iff.mpr ⟨_, advance_attempts_self hblocked _, rfl⟩)⟩

end SharedTable

namespace LockDesk

open SharedTable

variable {d d' : LockDesk} {s : SharedTable} {holder other : String} {key : EntityKey}
  {taken : List EntityKey} {latest : Nat}

/-- The desks that come about while holders take locks and let go of them. -/
inductive Reached : LockDesk → Prop where
  | empty : Reached .empty
  | acquire {d d' : LockDesk} {holder : String} {key : EntityKey} (hd : Reached d)
      (hok : d.acquire holder key = .ok d') : Reached d'
  | release {d : LockDesk} (hd : Reached d) (holder : String) : Reached (d.release holder)

/-- A shared table that nobody has to itself is in the state of a desk: the same pairs are held, and
the guards that live are those of the holders and those of some pairs just taken. -/
structure Mirrors (d : LockDesk) (latest : Nat) (taken : List EntityKey) (s : SharedTable) :
    Prop where
  reached : ∃ actions, s = (SharedTable.empty latest).after actions
  table : s.table = d.table
  owner : s.owner = none
  guards : s.guards.Perm (taken ++ d.guards.map Prod.snd)
  holders : (d.guards.map Prod.fst).Nodup

theorem mem_guards_of_guard? (h : d.guard? holder = some key) : (holder, key) ∈ d.guards := by
  obtain ⟨front, back, hsplit, -⟩ := List.lookup_eq_some_iff.mp h
  rw [hsplit]
  exact List.mem_append_right _ List.mem_cons_self

theorem exists_guard?_of_mem (h : (holder, key) ∈ d.guards) : ∃ k, d.guard? holder = some k := by
  rw [← Option.isSome_iff_exists, Option.isSome_iff_ne_none]
  intro hnone
  have hne := List.lookup_eq_none_iff.mp hnone (holder, key) h
  simp at hne

namespace Mirrors

theorem coherent (h : d.Mirrors latest taken s) : s.Coherent := by
  obtain ⟨actions, rfl⟩ := h.reached
  exact (Coherent.empty latest).after actions

theorem after_reached (h : d.Mirrors latest taken s) (actions : List LockAction) :
    ∃ more, s.after actions = (SharedTable.empty latest).after more := by
  obtain ⟨before, rfl⟩ := h.reached
  exact ⟨before ++ actions, (after_append _ _ _).symm⟩

theorem guards_nodup (h : d.Mirrors latest taken s) : (taken ++ d.guards.map Prod.snd).Nodup :=
  h.guards.nodup_iff.mp h.coherent.nodup

/-- Of the pairs of the holders, a holder's own is that of its guard. -/
theorem filter_holder (h : d.Mirrors latest taken s) (hkey : (holder, key) ∈ d.guards) :
    d.guards.filter (fun g => g.1 != holder) = d.guards.filter (fun g => g.2 != key) := by
  have hkeys : (d.guards.map Prod.snd).Nodup := h.guards_nodup.of_append_right
  refine List.filter_congr fun g hg => ?_
  rw [Bool.eq_iff_iff, bne_iff_ne, bne_iff_ne, not_iff_not]
  constructor
  · intro hholder
    rw [List.inj_on_of_nodup_map h.holders hg hkey hholder]
  · intro hsame
    rw [List.inj_on_of_nodup_map hkeys hg hkey hsame]

/-- A guard that is let go of at the desk is let go of at the shared table. -/
theorem release (h : d.Mirrors latest taken s) (holder : String) :
    ∃ s', (d.release holder).Mirrors latest taken s' := by
  unfold LockDesk.release
  split
  next => exact ⟨s, h⟩
  next key hguard =>
    have hmem := mem_guards_of_guard? hguard
    have hkey : key ∈ d.guards.map Prod.snd := List.mem_map_of_mem hmem
    obtain ⟨i, hi⟩ := mem_guards_iff.mp (h.guards.mem_iff.mpr (List.mem_append_right taken hkey))
    obtain ⟨a, ha, hstage, rfl⟩ := guard?_eq_some_iff.mp hi
    have hdrop := step_drop ha hstage h.owner
    have htable : (s.step (.drop i)).table = d.table.release a.key := by rw [hdrop, ← h.table]; rfl
    have howner : (s.step (.drop i)).owner = none := by rw [hdrop]; rfl
    have hcoherent := h.coherent.effect (s.effect_step (.drop i))
    have htaken : a.key ∉ taken := fun hmem =>
      List.disjoint_of_nodup_append h.guards_nodup hmem hkey
    refine ⟨s.step (.drop i), h.after_reached [.drop i], htable, howner, ?_, ?_⟩
    · have hheld := (h.coherent.held.trans h.guards).filter fun other => other != a.key
      rw [List.filter_append, filter_bne_eq_self htaken, List.filter_map, h.table] at hheld
      rw [h.filter_holder hmem]
      have hdropped := hcoherent.held.symm.trans (.of_eq (congrArg LockTable.held htable))
      exact hdropped.trans hheld
    · exact h.holders.sublist (List.Sublist.map _ List.filter_sublist)

/-- A lock that is taken at the desk is taken at the shared table. -/
theorem take (h : d.Mirrors latest [] s) (hheld : key ∉ d.table.held) :
    ∃ s', Mirrors { d with table := ⟨key :: d.table.held⟩ } latest [key] s' := by
  rw [← h.table] at hheld ⊢
  have htimeout : s.clock + 0 ≤ s.latest := h.coherent.clock
  obtain ⟨htable, howner⟩ := after_call_of_not_mem h.owner htimeout hheld
  refine ⟨_, h.after_reached _, htable, howner, ?_, h.holders⟩
  have hcalled := (h.coherent.after _).held.symm.trans (.of_eq (congrArg LockTable.held htable))
  exact hcalled.trans ((h.coherent.held.trans h.guards).cons key)

end Mirrors

theorem not_mem_release (d : LockDesk) (holder : String) :
    holder ∉ (d.release holder).guards.map Prod.fst := by
  intro hmem
  obtain ⟨⟨name, key⟩, hg, rfl⟩ := List.mem_map.mp hmem
  unfold LockDesk.release at hg
  split at hg
  next hnone =>
    obtain ⟨k, hk⟩ := exists_guard?_of_mem hg
    rw [hnone] at hk
    cases hk
  next => simp at hg

theorem acquire_eq_ok_iff :
    d.acquire holder key = .ok d' ↔
      key ∉ d.table.held ∧
        d' = { release { d with table := ⟨key :: d.table.held⟩ } holder with
          guards := (holder, key) ::
            (release { d with table := ⟨key :: d.table.held⟩ } holder).guards } := by
  unfold acquire LockTable.acquire?
  by_cases h : key ∈ d.table.held <;> simp [h, eq_comm]

theorem acquire_eq_error_iff {timeout : LockTimeout} :
    d.acquire holder key = .error timeout ↔ timeout = ⟨key⟩ ∧ key ∈ d.table.held := by
  unfold acquire LockTable.acquire?
  by_cases h : key ∈ d.table.held <;> simp [h, eq_comm]

namespace Reached

/-- Every desk is mirrored by a shared table. -/
theorem exists_mirrors (hd : d.Reached) (latest : Nat) : ∃ s, d.Mirrors latest [] s := by
  induction hd with
  | empty => exact ⟨.empty latest, ⟨[], rfl⟩, rfl, rfl, .refl _, .nil⟩
  | @release d _ holder ih =>
    obtain ⟨s, hs⟩ := ih
    exact hs.release holder
  | @acquire d d' holder key _ hok ih =>
    obtain ⟨s, hs⟩ := ih
    obtain ⟨hheld, rfl⟩ := acquire_eq_ok_iff.mp hok
    obtain ⟨taken, htaken⟩ := hs.take hheld
    obtain ⟨s', hs'⟩ := htaken.release holder
    exact ⟨s', hs'.reached, hs'.table, hs'.owner, hs'.guards,
      List.nodup_cons.mpr ⟨not_mem_release _ _, hs'.holders⟩⟩

/-- The pairs held at a desk are those of its holders' guards. -/
theorem held_iff (hd : d.Reached) : key ∈ d.table.held ↔ ∃ holder, d.guard? holder = some key := by
  obtain ⟨s, hs⟩ := hd.exists_mirrors 0
  have hguards : key ∈ d.table.held ↔ key ∈ d.guards.map Prod.snd := by
    rw [← hs.table, hs.coherent.held.mem_iff, hs.guards.mem_iff, List.nil_append]
  rw [hguards]
  constructor
  · intro hkey
    obtain ⟨⟨holder, _⟩, hg, rfl⟩ := List.mem_map.mp hkey
    obtain ⟨k, hk⟩ := exists_guard?_of_mem hg
    have hsame := List.inj_on_of_nodup_map hs.holders (mem_guards_of_guard? hk) hg rfl
    exact ⟨holder, by rw [hk, ← congrArg Prod.snd hsame]⟩
  · rintro ⟨holder, hholder⟩
    exact List.mem_map_of_mem (mem_guards_of_guard? hholder)

/-- No two holders have guards of one pair. -/
theorem guard?_inj (hd : d.Reached) (h : d.guard? holder = some key)
    (h' : d.guard? other = some key) : holder = other := by
  obtain ⟨s, hs⟩ := hd.exists_mirrors 0
  have hkeys : (d.guards.map Prod.snd).Nodup := hs.guards_nodup
  have hg := mem_guards_of_guard? h
  have hg' := mem_guards_of_guard? h'
  exact congrArg Prod.fst (List.inj_on_of_nodup_map hkeys hg hg' rfl)

/-- As many pairs are held as guards are out. -/
theorem count_eq (hd : d.Reached) : d.table.count = d.guards.length := by
  obtain ⟨s, hs⟩ := hd.exists_mirrors 0
  have hlength := (hs.coherent.held.trans hs.guards).length_eq
  rw [hs.table, List.nil_append, List.length_map] at hlength
  exact hlength

/-- A holder is refused exactly when a guard of the pair is out, be it the holder's own. -/
theorem refused_iff (hd : d.Reached) {timeout : LockTimeout} :
    d.acquire holder key = .error timeout ↔
      timeout = ⟨key⟩ ∧ ∃ other, d.guard? other = some key := by
  rw [acquire_eq_error_iff, hd.held_iff]

/-- A refusal at a desk is one at the shared table. -/
theorem exists_refusal (hd : d.Reached) (latest : Nat) {timeout : LockTimeout}
    (h : d.acquire holder key = .error timeout) :
    ∃ actions i waited,
      ((SharedTable.empty latest).after actions).refusal? i = some (timeout, waited) := by
  obtain ⟨s, hs⟩ := hd.exists_mirrors latest
  obtain ⟨rfl, hheld⟩ := acquire_eq_error_iff.mp h
  have htimeout : s.clock + 0 ≤ s.latest := hs.coherent.clock
  obtain ⟨waited, hrefusal⟩ := refusal?_after_call hs.owner htimeout (hs.table ▸ hheld)
  obtain ⟨actions, hactions⟩ := hs.after_reached _
  exact ⟨actions, _, waited, hactions ▸ hrefusal⟩

end Reached

end LockDesk

end DatedLedger
