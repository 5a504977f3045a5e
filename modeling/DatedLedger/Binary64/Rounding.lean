import DatedLedger.Binary64.Basic
import DatedLedger.Text.Decimal

/-!
# Rounding to binary64

A quotient of natural numbers is scaled to a 53-bit significand, or to fewer bits
below the least normal number, and its fraction is rounded to nearest with ties
to even.  Products, quotients and decimal numerals are rounded through that one
function, so each of them is rounded once.
-/

namespace DatedLedger.Binary64

/-- The nearest natural number to `num / den`, the even one of two equally near. -/
def roundHalfEven (num den : Nat) : Nat :=
  let q := num / den
  let r := num % den
  if 2 * r < den then q else if den < 2 * r then q + 1 else q + q % 2

/-- Whether `num / den` is at least `2 ^ e`. -/
def atLeastPow (num den : Nat) (e : Int) : Bool :=
  den * 2 ^ e.toNat ≤ num * 2 ^ (-e).toNat

/-- The exponent `e` with `2 ^ e ≤ num / den < 2 ^ (e + 1)`, for positive arguments. -/
def floorLog (num den : Nat) : Int :=
  let e : Int := (num.log2 : Int) - den.log2
  if atLeastPow num den e then e else e - 1

/-- The rank of the double nearest to `num / den`; from `infinityRank` on there is none. -/
def roundRank (num den : Nat) : Nat :=
  if num = 0 then 0 else
    let q := max (floorLog num den - 52) leastExponent
    (q - leastExponent).toNat * binade +
      roundHalfEven (num * 2 ^ (-q).toNat) (den * 2 ^ q.toNat)

/-- The double nearest to `num / den`, unless it is beyond the finite ones. -/
def ofRatio? (negative : Bool) (num den : Nat) : Option Binary64 :=
  ofRank? negative (roundRank num den)

/-- The numerator of a magnitude as a fraction over `denominator`. -/
def numerator (x : Binary64) : Nat :=
  significand x.rank * 2 ^ (exponent x.rank).toNat

/-- The denominator of a magnitude, a power of two. -/
def denominator (x : Binary64) : Nat :=
  2 ^ (-exponent x.rank).toNat

/-- The double nearest to a product. -/
def mul? (x y : Binary64) : Option Binary64 :=
  ofRatio? (x.negative != y.negative) (x.numerator * y.numerator) (x.denominator * y.denominator)

/-- The double nearest to a quotient, for a divisor that is not zero. -/
def div? (x y : Binary64) : Option Binary64 :=
  ofRatio? (x.negative != y.negative) (x.numerator * y.denominator) (x.denominator * y.numerator)

/-- The double nearest to an integer of at most a thousand bits. -/
def ofNat? (n : Nat) : Option Binary64 :=
  ofRatio? false n 1

/-- The number of decimal places beyond which every magnitude rounds to zero or to infinity. -/
def decimalReach : Int := 400

/-- The double nearest to `m * 10 ^ e`. -/
def ofDecimal? (negative : Bool) (m : Nat) (e : Int) : Option Binary64 :=
  let reach := (Text.digits m).length + e
  if m = 0 || reach < -decimalReach then some (zero negative)
  else if decimalReach < reach then none
  else ofRatio? negative (m * 10 ^ e.toNat) (10 ^ (-e).toNat)

end DatedLedger.Binary64
