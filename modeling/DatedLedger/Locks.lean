import DatedLedger.Entity

/-!
# Entity locks

A lock is held on a pair of tenant and entity.  The table knows the pairs that are
held; whoever holds one has a guard, and letting go of the guard frees its pair.
A caller that finds its pair held waits, and gives up when its time is over.
-/

namespace DatedLedger

/-- The pairs that are held. -/
structure LockTable where
  held : List EntityKey
  deriving DecidableEq

/-- The outcome of an attempt to take a lock that has failed for good. -/
structure LockTimeout where
  key : EntityKey
  deriving DecidableEq

namespace LockTable

/-- The table in which nothing is held. -/
def empty : LockTable := ⟨[]⟩

/-- Takes the lock of a pair, unless it is held. -/
def acquire? (t : LockTable) (key : EntityKey) : Option LockTable :=
  if t.held.contains key then none else some ⟨key :: t.held⟩

/-- A lock is taken exactly when it is free. -/
theorem acquire?_eq_some_iff {t t' : LockTable} {key : EntityKey} :
    t.acquire? key = some t' ↔ key ∉ t.held ∧ t' = ⟨key :: t.held⟩ := by
  simp [acquire?, eq_comm]

/-- Frees the lock of a pair. -/
def release (t : LockTable) (key : EntityKey) : LockTable :=
  ⟨t.held.filter fun other => other != key⟩

theorem mem_held_release {t : LockTable} {key other : EntityKey} :
    other ∈ (t.release key).held ↔ other ∈ t.held ∧ other ≠ key := by
  simp [release]

/-- The number of pairs held. -/
def count (t : LockTable) : Nat :=
  t.held.length

end LockTable

/-- A lock table together with the guards of named holders, one for each name. -/
structure LockDesk where
  table : LockTable
  guards : List (String × EntityKey)
  deriving DecidableEq

namespace LockDesk

/-- The desk without guards. -/
def empty : LockDesk := ⟨.empty, []⟩

/-- The pair whose guard a holder has. -/
def guard? (d : LockDesk) (holder : String) : Option EntityKey :=
  List.lookup holder d.guards

/-- Lets go of a holder's guard, if it has one. -/
def release (d : LockDesk) (holder : String) : LockDesk :=
  match d.guard? holder with
  | none => d
  | some key => ⟨d.table.release key, d.guards.filter fun g => g.1 != holder⟩

/-- Takes a lock for a holder at the end of its wait; a guard that it had before is let go. -/
def acquire (d : LockDesk) (holder : String) (key : EntityKey) : Except LockTimeout LockDesk :=
  match d.table.acquire? key with
  | none => .error ⟨key⟩
  | some table =>
    let d := release { d with table := table } holder
    .ok { d with guards := (holder, key) :: d.guards }

end LockDesk

end DatedLedger
