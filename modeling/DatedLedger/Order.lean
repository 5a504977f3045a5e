/-!
# Stable ordering of lists

Histories, timelines and audit pages are put in order by insertion, which keeps
entries that compare equal in the order they came in.  The recursion is structural, where
that of `List.mergeSort` is not, so that what a ledger does can be evaluated.
-/

namespace DatedLedger

/-- Puts `x` in front of the first entry that it may stand before. -/
def insertBy {α : Type} (le : α → α → Bool) (x : α) : List α → List α
  | [] => [x]
  | y :: ys => if le x y then x :: y :: ys else y :: insertBy le x ys

/-- The entries in the order of `le`; entries that may stand either way keep their places. -/
def sortBy {α : Type} (le : α → α → Bool) : List α → List α
  | [] => []
  | x :: xs => insertBy le x (sortBy le xs)

end DatedLedger
