import DatedLedger.Locks.Shared
import Mathlib.Data.List.Nodup
import Mathlib.Data.List.Perm.Basic

/-!
# Mutual exclusion

At a table that callers share, in whatever order their attempts take their steps, the pairs
held are the pairs of the guards that live, each once.  What carries this through a run is
that only one attempt at a time has the table to itself, and that it finds the pair of its
guard free while it has it.
-/

namespace DatedLedger

namespace EntityKey

end EntityKey

/-- Whether an attempt takes no further step. -/
def LockStage.isOver : LockStage → Bool
  | panicked | released | refused _ _ => true
  | entering | looking | blocked | waiting | holding => false

namespace SharedTable

variable {s s' : SharedTable} {action : LockAction} {i j : Nat} {a b : LockAttempt}
  {stage : LockStage} {table : LockTable} {key : EntityKey}

/-! ## What an action can do -/

/-- What an action does, by the stage of the attempt that takes a step. -/
inductive Effect (s : SharedTable) : LockAction → SharedTable → Prop where
  | idle (action : LockAction) : Effect s action s
  | call (key : EntityKey) (timeout : Nat) : Effect s (.call key timeout)
      { s with attempts := s.attempts ++ [s.attempt key timeout] }
  | tick (duration : Nat) :
      Effect s (.tick duration) { s with clock := min (s.clock + duration) s.latest }
  | approach {i : Nat} {a : LockAttempt} (ha : s.attempts[i]? = some a)
      (hstage : a.stage = .entering ∨ a.stage = .waiting) (hfree : s.owner = none) :
      Effect s (.proceed i) (s.advance i a .looking)
  | block {i : Nat} {a : LockAttempt} (ha : s.attempts[i]? = some a)
      (hstage : a.stage = .looking) (hheld : a.key ∈ s.table.held) :
      Effect s (.proceed i) (s.advance i a .blocked)
  | take {i : Nat} {a : LockAttempt} (ha : s.attempts[i]? = some a)
      (hstage : a.stage = .looking) (hheld : a.key ∉ s.table.held) :
      Effect s (.proceed i) ({ s with table := ⟨a.key :: s.table.held⟩ }.advance i a .holding)
  | refuse {i : Nat} {a : LockAttempt} (ha : s.attempts[i]? = some a)
      (hstage : a.stage = .blocked) (hlate : a.deadline ≤ s.clock) :
      Effect s (.proceed i) (s.advance i a (.refused ⟨a.key⟩ (a.waited s.clock)))
  | wait {i : Nat} {a : LockAttempt} (ha : s.attempts[i]? = some a)
      (hstage : a.stage = .blocked) (hearly : s.clock < a.deadline) :
      Effect s (.proceed i) (s.advance i a .waiting)
  | drop {i : Nat} {a : LockAttempt} (ha : s.attempts[i]? = some a)
      (hstage : a.stage = .holding) (hfree : s.owner = none) :
      Effect s (.drop i) ({ s with table := s.table.release a.key }.advance i a .released)

theorem effect_proceed (ha : s.attempts[i]? = some a) :
    s.Effect (.proceed i) (s.proceed i a) := by
  have approach (hstage : a.stage = .entering ∨ a.stage = .waiting) :
      s.Effect (.proceed i) (if s.owner = none then s.advance i a .looking else s) := by
    split
    next hfree => exact .approach ha hstage hfree
    next => exact .idle _
  unfold proceed
  split
  next hstage => exact approach (.inl hstage)
  next hstage => exact approach (.inr hstage)
  next hstage =>
    split
    next hnone =>
      refine .block ha hstage ?_
      by_contra hheld
      have hsome := LockTable.acquire?_eq_some_iff.mpr ⟨hheld, rfl⟩
      rw [hnone] at hsome
      cases hsome
    next hsome =>
      obtain ⟨hheld, rfl⟩ := LockTable.acquire?_eq_some_iff.mp hsome
      exact .take ha hstage hheld
  next hstage =>
    split
    next hlate => exact .refuse ha hstage hlate
    next hearly => exact .wait ha hstage (Nat.lt_of_not_le hearly)
  all_goals exact .idle _

theorem effect_step (s : SharedTable) (action : LockAction) : s.Effect action (s.step action) := by
  cases action with
  | call key timeout => exact .call key timeout
  | tick duration => exact .tick duration
  | proceed i =>
    simp only [step]
    split
    next => exact .idle _
    next a ha => exact effect_proceed ha
  | drop i =>
    simp only [step]
    split
    next => exact .idle _
    next a ha =>
      unfold SharedTable.drop
      split
      next h => exact .drop ha h.1 h.2
      next => exact .idle _

/-! ## Attempts after a step -/

theorem advance_attempts_self (ha : s.attempts[i]? = some a) (stage : LockStage) :
    (s.advance i a stage).attempts[i]? = some { a with stage := stage } := by
  have hi : i < s.attempts.length := (List.getElem?_eq_some_iff.mp ha).1
  simp [advance, hi]

theorem advance_attempts_of_ne (h : j ≠ i) :
    (s.advance i a stage).attempts[j]? = s.attempts[j]? := by
  simp [advance, Ne.symm h]

/-- A call leaves all attempts as they are and begins one after them. -/
theorem getElem?_concat_eq_some_iff {β : Type} {xs : List β} {x y : β} :
    (xs ++ [y])[i]? = some x ↔ xs[i]? = some x ∨ i = xs.length ∧ x = y := by
  rcases Nat.lt_trichotomy i xs.length with hi | rfl | hi
  · simp [List.getElem?_append_left hi, Nat.ne_of_lt hi]
  · simp [eq_comm]
  · have hnone : xs[i]? = none := List.getElem?_eq_none (Nat.le_of_lt hi)
    have hnone' : (xs ++ [y])[i]? = none := by
      rw [List.getElem?_eq_none_iff, List.length_append]
      exact hi
    simp [hnone, hnone', Nat.ne_of_gt hi]

theorem attempt_of_le {timeout : Nat} (h : s.clock + timeout ≤ s.latest) :
    s.attempt key timeout = ⟨key, s.clock, timeout, .entering⟩ := by
  rw [attempt, if_pos h]

/-- A call comes to nothing more than an attempt that is to get the table. -/
theorem stage_attempt (s : SharedTable) (key : EntityKey) (timeout : Nat) :
    (s.attempt key timeout).stage = .entering ∨ (s.attempt key timeout).stage = .panicked := by
  rw [attempt]
  split
  next => exact .inl rfl
  next => exact .inr rfl

theorem stage_attempt_ne {timeout : Nat} (hentering : stage ≠ .entering)
    (hpanicked : stage ≠ .panicked) : (s.attempt key timeout).stage ≠ stage := by
  rintro rfl
  rcases s.stage_attempt key timeout with h | h
  · exact hentering h
  · exact hpanicked h

theorem atTable_attempt (s : SharedTable) (key : EntityKey) (timeout : Nat) :
    (s.attempt key timeout).stage.atTable = false := by
  rcases s.stage_attempt key timeout with h | h <;> rw [h] <;> rfl

/-! ## What an attempt can do -/

/-- How an action leads an attempt from its stage to another one. -/
inductive Leads (s : SharedTable) (i : Nat) (a : LockAttempt) : LockAction → LockStage → Prop where
  | approach (hstage : a.stage = .entering ∨ a.stage = .waiting) : Leads s i a (.proceed i) .looking
  | block (hstage : a.stage = .looking) : Leads s i a (.proceed i) .blocked
  | take (hstage : a.stage = .looking) : Leads s i a (.proceed i) .holding
  | refuse (hstage : a.stage = .blocked) (hlate : a.deadline ≤ s.clock) :
      Leads s i a (.proceed i) (.refused ⟨a.key⟩ (a.waited s.clock))
  | wait (hstage : a.stage = .blocked) : Leads s i a (.proceed i) .waiting
  | drop (hstage : a.stage = .holding) : Leads s i a (.drop i) .released

/-- An action leaves an attempt as it is or leads it to another stage. -/
theorem Effect.attempt (h : s.Effect action s') (ha : s.attempts[i]? = some a) :
    s'.attempts[i]? = some a ∨
      ∃ stage, s.Leads i a action stage ∧ s'.attempts[i]? = some { a with stage := stage } := by
  have moved (table : LockTable) {j : Nat} {b : LockAttempt} {stage : LockStage}
      (hb : s.attempts[j]? = some b) (hleads : s.Leads j b action stage) :
      let t := { s with table := table }.advance j b stage
      t.attempts[i]? = some a ∨
        ∃ stage, s.Leads i a action stage ∧ t.attempts[i]? = some { a with stage := stage } := by
    -- A step is that of one attempt, and every other one stays as it is.
    by_cases hij : i = j
    · subst hij
      cases ha.symm.trans hb
      exact .inr ⟨stage, hleads, advance_attempts_self (s := { s with table := table }) ha stage⟩
    · exact .inl ((advance_attempts_of_ne hij).trans ha)
  cases h with
  | idle => exact .inl ha
  | tick => exact .inl ha
  | call => exact .inl (getElem?_concat_eq_some_iff.mpr (.inl ha))
  | approach hb hstage => exact moved s.table hb (.approach hstage)
  | block hb hstage => exact moved s.table hb (.block hstage)
  | take hb hstage => exact moved _ hb (.take hstage)
  | refuse hb hstage hlate => exact moved s.table hb (.refuse hstage hlate)
  | wait hb hstage => exact moved s.table hb (.wait hstage)
  | drop hb hstage => exact moved _ hb (.drop hstage)

theorem Effect.length_attempts (h : s.Effect action s')
    (hcall : ∀ key timeout, action ≠ .call key timeout) :
    s'.attempts.length = s.attempts.length := by
  cases h with
  | idle | tick => rfl
  | call key timeout => exact absurd rfl (hcall key timeout)
  | approach | block | take | refuse | wait | drop => exact List.length_set ..

/-- Only a call begins an attempt. -/
theorem Effect.exists_attempt (h : s.Effect action s') (hb : s'.attempts[i]? = some b) :
    (∃ a, s.attempts[i]? = some a) ∨
      ∃ key timeout, action = .call key timeout ∧ b = s.attempt key timeout := by
  by_cases hcall : ∃ key timeout, action = .call key timeout
  · obtain ⟨key, timeout, rfl⟩ := hcall
    cases h with
    | idle => exact .inl ⟨b, hb⟩
    | call =>
      rcases getElem?_concat_eq_some_iff.mp hb with hb | ⟨-, rfl⟩
      · exact .inl ⟨b, hb⟩
      · exact .inr ⟨key, timeout, rfl, rfl⟩
  · have hi := (List.getElem?_eq_some_iff.mp hb).1
    rw [h.length_attempts fun key timeout heq => hcall ⟨key, timeout, heq⟩] at hi
    exact .inl ⟨_, List.getElem?_eq_getElem hi⟩

/-- An attempt that is over stays as it is. -/
theorem Effect.attempt_of_isOver (h : s.Effect action s') (ha : s.attempts[i]? = some a)
    (hover : a.stage.isOver) : s'.attempts[i]? = some a := by
  rcases h.attempt ha with hkept | ⟨stage, hleads, -⟩
  · exact hkept
  · cases hleads with
    | approach hstage =>
      rcases hstage with hstage | hstage <;> simp [hstage, LockStage.isOver] at hover
    | block hstage | take hstage | refuse hstage | wait hstage | drop hstage =>
      simp [hstage, LockStage.isOver] at hover

theorem attempt_after_of_isOver (ha : s.attempts[i]? = some a) (hover : a.stage.isOver)
    (actions : List LockAction) : (s.after actions).attempts[i]? = some a := by
  induction actions generalizing s with
  | nil => exact ha
  | cons action rest ih => exact ih ((s.effect_step action).attempt_of_isOver ha hover)

/-! ## Guards -/

theorem guard?_eq_some_iff :
    s.guard? i = some key ↔ ∃ a, s.attempts[i]? = some a ∧ a.stage = .holding ∧ a.key = key := by
  simp [guard?, LockAttempt.guard?, Option.bind_eq_some_iff]

theorem guard?_call (s : SharedTable) (key : EntityKey) (timeout j : Nat) :
    (s.step (.call key timeout)).guard? j = s.guard? j := by
  refine Option.ext fun other => ?_
  rw [guard?_eq_some_iff, guard?_eq_some_iff]
  refine exists_congr fun a => and_congr_left fun ⟨hstage, _⟩ => ?_
  refine getElem?_concat_eq_some_iff.trans ⟨?_, .inl⟩
  rintro (ha | ⟨-, rfl⟩)
  · exact ha
  · exact absurd hstage (stage_attempt_ne nofun nofun)

theorem guard?_advance_of_ne (h : j ≠ i) : (s.advance i a stage).guard? j = s.guard? j := by
  rw [guard?, advance_attempts_of_ne h, guard?]

theorem mem_guards_iff : key ∈ s.guards ↔ ∃ i, s.guard? i = some key := by
  simp only [guards, List.mem_filterMap, guard?, Option.bind_eq_some_iff]
  constructor
  · rintro ⟨a, ha, hkey⟩
    obtain ⟨i, hi⟩ := List.mem_iff_getElem?.mp ha
    exact ⟨i, a, hi, hkey⟩
  · rintro ⟨i, a, hi, hkey⟩
    exact ⟨a, List.mem_of_getElem? hi, hkey⟩

theorem filterMap_guard?_cons (b : LockAttempt) (others : List LockAttempt) :
    (b :: others).filterMap LockAttempt.guard? =
      b.guard?.toList ++ others.filterMap LockAttempt.guard? := by
  rw [List.filterMap_cons]
  cases b.guard? <;> rfl

/-- The guards besides that of one attempt, which a step of the attempt does not change. -/
def otherGuards (s : SharedTable) (i : Nat) : List EntityKey :=
  (s.attempts.eraseIdx i).filterMap LockAttempt.guard?

theorem mem_otherGuards_iff : key ∈ s.otherGuards i ↔ ∃ j, j ≠ i ∧ s.guard? j = some key := by
  simp only [otherGuards, List.mem_filterMap, List.mem_eraseIdx_iff_getElem?, guard?,
    Option.bind_eq_some_iff]
  constructor
  · rintro ⟨a, ⟨j, hj, ha⟩, hkey⟩
    exact ⟨j, hj, a, ha, hkey⟩
  · rintro ⟨j, hj, a, ha, hkey⟩
    exact ⟨a, ⟨j, hj, ha⟩, hkey⟩

theorem filter_bne_eq_self {keys : List EntityKey} (h : key ∉ keys) :
    keys.filter (fun other => other != key) = keys := by
  rw [List.filter_eq_self]
  intro other hother
  rw [bne_iff_ne]
  rintro rfl
  exact h hother

theorem guards_perm (ha : s.attempts[i]? = some a) :
    s.guards.Perm (a.guard?.toList ++ s.otherGuards i) := by
  obtain ⟨hi, rfl⟩ := List.getElem?_eq_some_iff.mp ha
  rw [otherGuards, ← filterMap_guard?_cons]
  exact (List.getElem_cons_eraseIdx_perm hi).symm.filterMap _

theorem guards_advance_perm (ha : s.attempts[i]? = some a) (stage : LockStage) :
    (s.advance i a stage).guards.Perm
      (({ a with stage := stage } : LockAttempt).guard?.toList ++ s.otherGuards i) := by
  have hi : i < s.attempts.length := (List.getElem?_eq_some_iff.mp ha).1
  rw [otherGuards, ← filterMap_guard?_cons]
  exact (List.set_perm_cons_eraseIdx hi _).filterMap _

/-! ## The invariant -/

/-- The pairs held are those of the guards that live, each once; one attempt at most has the table
to itself, and a pair that it has found held is held for as long as it has the table.  The clock
does not run past its last instant. -/
structure Coherent (s : SharedTable) : Prop where
  held : s.table.held.Perm s.guards
  nodup : s.guards.Nodup
  owner : ∀ i, s.owner = some i ↔ ∃ a, s.attempts[i]? = some a ∧ a.stage.atTable
  blocked : ∀ (i : Nat) (a : LockAttempt), s.attempts[i]? = some a → a.stage = .blocked →
    a.key ∈ s.table.held
  clock : s.clock ≤ s.latest

namespace Coherent

theorem empty (latest : Nat) : (SharedTable.empty latest).Coherent where
  held := .refl _
  nodup := .nil
  owner := by simp [SharedTable.empty]
  blocked := by simp [SharedTable.empty]
  clock := Nat.zero_le latest

theorem mem_held_iff (hs : s.Coherent) : key ∈ s.table.held ↔ ∃ i, s.guard? i = some key := by
  rw [hs.held.mem_iff, mem_guards_iff]

theorem held_nodup (hs : s.Coherent) : s.table.held.Nodup :=
  hs.held.nodup_iff.mpr hs.nodup

theorem held_perm_of_holding (hs : s.Coherent) (ha : s.attempts[i]? = some a)
    (hstage : a.stage = .holding) : s.table.held.Perm (a.key :: s.otherGuards i) := by
  have hperm := hs.held.trans (guards_perm ha)
  rwa [LockAttempt.guard?, if_pos hstage] at hperm

theorem held_perm_of_not_holding (hs : s.Coherent) (ha : s.attempts[i]? = some a)
    (hstage : a.stage ≠ .holding) : s.table.held.Perm (s.otherGuards i) := by
  have hperm := hs.held.trans (guards_perm ha)
  rwa [LockAttempt.guard?, if_neg hstage] at hperm

/-- While no other attempt has the table, a step keeps the invariant if it changes the pairs held as
it changes the guard of its attempt, and stops only at a pair that is held. -/
theorem advance (hs : s.Coherent) (ha : s.attempts[i]? = some a)
    (hfree : s.owner = none ∨ s.owner = some i)
    (hheld : table.held.Perm
      (({ a with stage := stage } : LockAttempt).guard?.toList ++ s.otherGuards i))
    (hnodup : table.held.Nodup) (hblocked : stage = .blocked → a.key ∈ table.held) :
    ({ s with table := table }.advance i a stage).Coherent := by
  have hself := advance_attempts_self (s := { s with table := table }) ha stage
  -- Nobody else is at the table, so no other attempt can rely on what the step changes.
  have hothers : ∀ j b, j ≠ i → s.attempts[j]? = some b → b.stage.atTable = false := by
    intro j b hj hb
    by_contra htable
    have howner := (hs.owner j).mpr ⟨b, hb, by simpa using htable⟩
    rw [howner] at hfree
    rcases hfree with h | h
    · cases h
    · exact hj (Option.some.inj h)
  have hperm := guards_advance_perm (s := { s with table := table }) ha stage
  constructor
  case held => exact hheld.trans hperm.symm
  case nodup => exact (hheld.trans hperm.symm).nodup_iff.mp hnodup
  case owner =>
    intro j
    by_cases hj : j = i
    · subst hj
      rw [hself]
      simp [SharedTable.advance]
    · rw [advance_attempts_of_ne hj]
      constructor
      · intro howner
        simp only [SharedTable.advance] at howner
        split at howner
        · exact absurd (Option.some.inj howner).symm hj
        · cases howner
      · rintro ⟨b, hb, htable⟩
        rw [hothers j b hj hb] at htable
        cases htable
  case blocked =>
    intro j b hb hstage
    by_cases hj : j = i
    · subst hj
      rw [hself] at hb
      cases hb
      exact hblocked hstage
    · rw [advance_attempts_of_ne hj] at hb
      have htable := hothers j b hj hb
      rw [hstage] at htable
      cases htable
  case clock => exact hs.clock

theorem free_or_owner (hs : s.Coherent) (ha : s.attempts[i]? = some a) (htable : a.stage.atTable) :
    s.owner = none ∨ s.owner = some i :=
  .inr ((hs.owner i).mpr ⟨a, ha, htable⟩)

/-- An attempt that has no guard before or after its step leaves the pairs held as they are. -/
theorem advance_of_guard?_eq_none (hs : s.Coherent) (ha : s.attempts[i]? = some a)
    (hfree : s.owner = none ∨ s.owner = some i) (hbefore : a.stage ≠ .holding)
    (hafter : stage ≠ .holding) (hblocked : stage = .blocked → a.key ∈ s.table.held) :
    (s.advance i a stage).Coherent := by
  refine hs.advance ha hfree ?_ hs.held_nodup hblocked
  rw [LockAttempt.guard?, if_neg hafter]
  exact hs.held_perm_of_not_holding ha hbefore

/-- A call begins an attempt that has neither a guard nor the table. -/
theorem call (hs : s.Coherent) (key : EntityKey) (timeout : Nat) :
    (s.step (.call key timeout)).Coherent := by
  have hstage : (s.attempt key timeout).stage ≠ .holding := stage_attempt_ne nofun nofun
  have hnone : (s.attempt key timeout).guard? = none := by rw [LockAttempt.guard?, if_neg hstage]
  have hguards : (s.step (.call key timeout)).guards = s.guards := by
    simp [step, guards, hnone]
  constructor
  case held => exact hs.held.trans (.of_eq hguards.symm)
  case nodup => exact (List.Perm.of_eq hguards).nodup_iff.mpr hs.nodup
  case owner =>
    intro i
    refine (hs.owner i).trans (exists_congr fun a => ?_)
    refine and_congr_left fun htable => ?_
    refine Iff.trans ⟨.inl, ?_⟩ getElem?_concat_eq_some_iff.symm
    rintro (ha | ⟨-, rfl⟩)
    · exact ha
    · rw [atTable_attempt] at htable
      cases htable
  case blocked =>
    intro i a ha hstage
    rcases getElem?_concat_eq_some_iff.mp ha with ha | ⟨-, rfl⟩
    · exact hs.blocked i a ha hstage
    · exact absurd hstage (stage_attempt_ne nofun nofun)
  case clock => exact hs.clock

/-- Every action keeps the invariant. -/
theorem effect (hs : s.Coherent) (h : s.Effect action s') : s'.Coherent := by
  cases h with
  | idle => exact hs
  | tick => exact ⟨hs.held, hs.nodup, hs.owner, hs.blocked, Nat.min_le_right _ _⟩
  | call key timeout => exact hs.call key timeout
  | approach ha hstage hfree =>
    refine hs.advance_of_guard?_eq_none ha (.inl hfree) ?_ nofun nofun
    rcases hstage with h | h <;> simp [h]
  | block ha hstage hmem =>
    have hfree := hs.free_or_owner ha (by rw [hstage]; rfl)
    exact hs.advance_of_guard?_eq_none ha hfree (by simp [hstage]) nofun fun _ => hmem
  | @take i a ha hstage hmem =>
    have hfree := hs.free_or_owner ha (by rw [hstage]; rfl)
    have hperm := hs.held_perm_of_not_holding ha (by simp [hstage])
    exact hs.advance ha hfree (hperm.cons a.key) (hs.held_nodup.cons hmem) nofun
  | refuse ha hstage =>
    have hfree := hs.free_or_owner ha (by rw [hstage]; rfl)
    exact hs.advance_of_guard?_eq_none ha hfree (by simp [hstage]) nofun nofun
  | wait ha hstage =>
    have hfree := hs.free_or_owner ha (by rw [hstage]; rfl)
    exact hs.advance_of_guard?_eq_none ha hfree (by simp [hstage]) nofun nofun
  | @drop i a ha hstage hfree =>
    have hperm := hs.held_perm_of_holding ha hstage
    -- The pair was held once, so removing it removes what the guard had put there and no more.
    have hfirst := List.nodup_cons.mp (hperm.nodup_iff.mp hs.held_nodup)
    have hreleased := hperm.filter fun other => other != a.key
    rw [List.filter_cons_of_neg (by simp), filter_bne_eq_self hfirst.1] at hreleased
    exact hs.advance ha (.inl hfree) hreleased (hs.held_nodup.filter _) nofun

theorem after (hs : s.Coherent) (actions : List LockAction) : (s.after actions).Coherent := by
  induction actions generalizing s with
  | nil => exact hs
  | cons action rest ih => exact ih (hs.effect (s.effect_step action))

/-- No pair has two guards. -/
theorem exclusive (hs : s.Coherent) (hi : s.guard? i = some key) (hj : s.guard? j = some key) :
    i = j := by
  obtain ⟨a, ha, hstage, rfl⟩ := guard?_eq_some_iff.mp hi
  have hperm := hs.held_perm_of_holding ha hstage
  have hother := (List.nodup_cons.mp (hperm.nodup_iff.mp hs.held_nodup)).1
  by_contra hne
  exact hother (mem_otherGuards_iff.mpr ⟨j, Ne.symm hne, hj⟩)

end Coherent

/-! ## Guards and refusals after an action -/

/-- A guard lives until it is let go of. -/
theorem Effect.guard? (h : s.Effect action s') (hi : s.guard? i = some key)
    (hdrop : action ≠ .drop i) : s'.guard? i = some key := by
  obtain ⟨a, ha, hstage, hkey⟩ := guard?_eq_some_iff.mp hi
  rcases h.attempt ha with hkept | ⟨stage, hleads, -⟩
  · exact guard?_eq_some_iff.mpr ⟨a, hkept, hstage, hkey⟩
  · cases hleads with
    | approach hother => rcases hother with h | h <;> cases hstage.symm.trans h
    | block hother | take hother | refuse hother | wait hother => cases hstage.symm.trans hother
    | drop => exact absurd rfl hdrop

theorem refusal?_eq_some_iff {timeout : LockTimeout} {waited : Nat} :
    s.refusal? i = some (timeout, waited) ↔
      ∃ a, s.attempts[i]? = some a ∧ a.stage = .refused timeout waited := by
  simp only [refusal?, Option.bind_eq_some_iff]
  refine exists_congr fun a => and_congr_right fun _ => ?_
  rw [LockAttempt.refusal?]
  split
  next h => simp [h]
  next h => exact ⟨nofun, fun hstage => absurd hstage (h _ _)⟩

/-- An attempt is refused only by its own step, at the end of its time, while it has found its pair
held. -/
theorem Effect.refusal? {timeout : LockTimeout} {waited : Nat} (h : s.Effect action s')
    (hbefore : s.refusal? i = none) (hafter : s'.refusal? i = some (timeout, waited)) :
    ∃ a, s.attempts[i]? = some a ∧ a.stage = .blocked ∧ action = .proceed i ∧
      a.deadline ≤ s.clock ∧ timeout = ⟨a.key⟩ ∧ waited = a.waited s.clock := by
  obtain ⟨b, hb, hstage⟩ := refusal?_eq_some_iff.mp hafter
  rcases h.exists_attempt hb with ⟨a, ha⟩ | ⟨key, wait, -, rfl⟩
  · rcases h.attempt ha with hkept | ⟨stage, hleads, hled⟩
    · cases hb.symm.trans hkept
      rw [refusal?_eq_some_iff.mpr ⟨b, ha, hstage⟩] at hbefore
      cases hbefore
    · cases hb.symm.trans hled
      cases hleads with
      | refuse hblocked hlate =>
        cases hstage
        exact ⟨a, ha, hblocked, rfl, hlate, rfl, rfl⟩
      | approach | block | take | wait | drop => cases hstage
  · exact absurd hstage (stage_attempt_ne nofun nofun)

/-! ## Attempts that succeed -/

theorem step_proceed (ha : s.attempts[i]? = some a) : s.step (.proceed i) = s.proceed i a := by
  simp only [step, ha]

theorem step_proceed_of_looking (ha : s.attempts[i]? = some a) (hstage : a.stage = .looking) :
    s.step (.proceed i) =
      if a.key ∈ s.table.held then s.advance i a .blocked
      else { s with table := ⟨a.key :: s.table.held⟩ }.advance i a .holding := by
  rw [step_proceed ha, proceed, hstage, LockTable.acquire?]
  by_cases h : a.key ∈ s.table.held <;> simp [h]

theorem step_proceed_of_free (ha : s.attempts[i]? = some a)
    (hstage : a.stage = .entering ∨ a.stage = .waiting) (hfree : s.owner = none) :
    s.step (.proceed i) = s.advance i a .looking := by
  rw [step_proceed ha, proceed]
  rcases hstage with h | h <;> simp [h, hfree]

theorem guard?_advance_self (ha : s.attempts[i]? = some a) :
    (s.advance i a stage).guard? i = if stage = .holding then some a.key else none := by
  rw [guard?, advance_attempts_self ha stage]
  rfl

theorem guard?_of_stage_ne (ha : s.attempts[i]? = some a) (hstage : a.stage ≠ .holding) :
    s.guard? i = none := by
  rw [guard?, ha, Option.bind_some, LockAttempt.guard?, if_neg hstage]

namespace Coherent

/-- An attempt that has found its pair held is kept from it by the guard of another one. -/
theorem exists_guard?_of_blocked (hs : s.Coherent) (ha : s.attempts[i]? = some a)
    (hstage : a.stage = .blocked) : ∃ j, j ≠ i ∧ s.guard? j = some a.key := by
  obtain ⟨j, hj⟩ := hs.mem_held_iff.mp (hs.blocked i a ha hstage)
  refine ⟨j, ?_, hj⟩
  rintro rfl
  rw [guard?_of_stage_ne ha (by simp [hstage])] at hj
  cases hj

/-- An attempt that looks its pair up succeeds exactly when no guard of the pair lives. -/
theorem looking_succeeds_iff (hs : s.Coherent) (ha : s.attempts[i]? = some a)
    (hstage : a.stage = .looking) :
    (s.step (.proceed i)).guard? i = some a.key ↔ ∀ j, s.guard? j ≠ some a.key := by
  rw [step_proceed_of_looking ha hstage, ← not_exists, ← hs.mem_held_iff]
  split
  next hmem => simp [guard?_advance_self ha, hmem]
  next hmem =>
    rw [guard?_advance_self (s := { s with table := ⟨a.key :: s.table.held⟩ }) ha]
    simp [hmem]

/-- So does an attempt that comes to the table while nobody has it, at first or after a wait. -/
theorem approaching_succeeds_iff (hs : s.Coherent) (ha : s.attempts[i]? = some a)
    (hstage : a.stage = .entering ∨ a.stage = .waiting) (hfree : s.owner = none) :
    (s.after [.proceed i, .proceed i]).guard? i = some a.key ↔ ∀ j, s.guard? j ≠ some a.key := by
  have happroach := step_proceed_of_free ha hstage hfree
  have hlooking : (s.advance i a .looking).Coherent :=
    happroach ▸ hs.effect (s.effect_step (.proceed i))
  have hself : a.stage ≠ .holding := by rcases hstage with h | h <;> simp [h]
  have hguards : ∀ j, (s.advance i a .looking).guard? j = s.guard? j := by
    intro j
    by_cases hj : j = i
    · subst hj
      rw [guard?_advance_self ha, guard?_of_stage_ne ha hself]
      rfl
    · exact guard?_advance_of_ne hj
  have hiff := hlooking.looking_succeeds_iff (advance_attempts_self ha _) rfl
  simp only [hguards] at hiff
  rw [← hiff]
  simp only [SharedTable.after, List.foldl_cons, List.foldl_nil, happroach]

/-- So does a call while nobody has the table, if its deadline is an instant. -/
theorem call_succeeds_iff (hs : s.Coherent) (hfree : s.owner = none) {timeout : Nat}
    (htimeout : s.clock + timeout ≤ s.latest) (key : EntityKey) :
    (s.after [.call key timeout, .proceed s.attempts.length, .proceed s.attempts.length]).guard?
        s.attempts.length = some key ↔ ∀ j, s.guard? j ≠ some key := by
  have hcalled := hs.effect (s.effect_step (.call key timeout))
  have hlast : (s.step (.call key timeout)).attempts[s.attempts.length]? =
      some ⟨key, s.clock, timeout, .entering⟩ :=
    getElem?_concat_eq_some_iff.mpr (.inr ⟨rfl, (attempt_of_le htimeout).symm⟩)
  have hiff := hcalled.approaching_succeeds_iff hlast (.inl rfl) hfree
  simp only [guard?_call] at hiff
  exact hiff

end Coherent

/-! ## Calls that panic -/

theorem step_drop (ha : s.attempts[i]? = some a) (hstage : a.stage = .holding)
    (hfree : s.owner = none) :
    s.step (.drop i) = { s with table := s.table.release a.key }.advance i a .released := by
  simp only [step, ha, SharedTable.drop, if_pos (And.intro hstage hfree)]

/-- Letting go of a guard changes no other guard and frees its own pair only. -/
theorem drop_frees (h : s.guard? i = some key) (hfree : s.owner = none) :
    (∀ j, (s.step (.drop i)).guard? j = if j = i then none else s.guard? j) ∧
      ∀ other, other ∈ (s.step (.drop i)).table.held ↔ other ∈ s.table.held ∧ other ≠ key := by
  obtain ⟨a, ha, hstage, rfl⟩ := guard?_eq_some_iff.mp h
  rw [step_drop ha hstage hfree]
  refine ⟨fun j => ?_, fun other => LockTable.mem_held_release⟩
  split
  next hj => rw [hj, guard?_advance_self (s := { s with table := s.table.release a.key }) ha]; rfl
  next hj => exact guard?_advance_of_ne hj

/-! ## The table given back -/

/-- Two pairs that are shown in the same way are held at once, and a further call for the first is
refused after its 30 milliseconds.  A call for a free pair panics that would wait too long. -/
example :
    let s := (empty (2 ^ 63)).after [.call ⟨"a/b", "c"⟩ 0, .proceed 0, .proceed 0,
      .call ⟨"a", "b/c"⟩ 0, .call ⟨"a/b", "c"⟩ 30000000, .proceed 2, .proceed 1, .proceed 2,
      .proceed 2, .proceed 1, .proceed 1, .tick 30000000, .proceed 2, .proceed 2, .proceed 2,
      .call ⟨"d", "e"⟩ (2 ^ 63)]
    s.guards = [⟨"a/b", "c"⟩, ⟨"a", "b/c"⟩] ∧ s.refusal? 2 = some (⟨⟨"a/b", "c"⟩⟩, 30) ∧
      s.attempts[3]?.map LockAttempt.stage = some .panicked := by
  decide +kernel

end SharedTable

end DatedLedger
