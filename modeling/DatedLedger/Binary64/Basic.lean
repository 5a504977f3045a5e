import DatedLedger.Power

/-!
# Finite binary64 numbers

A finite double is a sign and a *rank*: the non-negative doubles in increasing
order are numbered 0, 1, 2, …, and the rank of a number is its place in that
order.  The rank is also the bit pattern of the magnitude.  Every operation here
works on exact natural numbers and rounds once, to the nearest double with ties
to the even rank.
-/

namespace DatedLedger

/-- The rank of positive infinity, the first that is not a number. -/
def Binary64.infinityRank : Nat := 0x7FF0000000000000

/-- A finite double: a sign and a place in the order of the non-negative doubles. -/
structure Binary64 where
  negative : Bool
  rank : Nat
  finite : rank < Binary64.infinityRank
  deriving DecidableEq

namespace Binary64

/-- The number of ranks between two neighbouring powers of two. -/
def binade : Nat := 2 ^ 52

/-- The least binary exponent of a significand, that of the subnormal numbers. -/
def leastExponent : Int := -1074

/-- The integral significand of the double of a rank. -/
def significand (rank : Nat) : Nat :=
  if rank < binade then rank else binade + rank % binade

/-- The power of two that the significand of a rank is multiplied by. -/
def exponent (rank : Nat) : Int :=
  leastExponent + ((rank / binade - 1 : Nat) : Int)

def isZero (x : Binary64) : Bool :=
  x.rank == 0

def zero (negative : Bool) : Binary64 :=
  ⟨negative, 0, by decide⟩

/-- The double of a sign and a rank, unless the rank is past the finite ones. -/
def ofRank? (negative : Bool) (rank : Nat) : Option Binary64 :=
  if h : rank < infinityRank then some ⟨negative, rank, h⟩ else none

/-- Whether `x` is above zero and not above the positive number `bound`. -/
def isPositiveUpTo (x bound : Binary64) : Bool :=
  !x.negative && 0 < x.rank && x.rank ≤ bound.rank

end Binary64

end DatedLedger
