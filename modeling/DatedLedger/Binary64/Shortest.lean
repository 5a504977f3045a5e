import DatedLedger.Binary64.Basic
import DatedLedger.Text.Decimal

/-!
# Shortest decimal text of a double

The digits of a double are the fewest that read back as it.  The reals that round
to a double form an interval, with its ends included exactly when the rank is
even; for 1, 2, …, 17 digits the two neighbours of the value on that decimal grid
are tried in exact arithmetic, and the first grid with a hit wins.  Of two hits
the nearer is taken, and of two equally near the even one.
-/

namespace DatedLedger.Binary64

/-- A decimal number: a coefficient and the power of ten it is multiplied by. -/
structure Decimal where
  coefficient : Nat
  power : Int

/-- The interval of a positive double, as numerators over one denominator. -/
structure Interval where
  low : Nat
  value : Nat
  high : Nat
  den : Nat
  closed : Bool

/-- The reals that round to the double of a positive rank. -/
def interval (rank : Nat) : Interval :=
  let m := significand rank
  let q := exponent rank - 2
  let below := if m = binade && binade < rank then 1 else 2
  let unit := 2 ^ q.toNat
  { low := (4 * m - below) * unit
    value := 4 * m * unit
    high := (4 * m + 2) * unit
    den := 2 ^ (-q).toNat
    closed := rank % 2 == 0 }

/-- The exponent of the first digit: the `e` with `10 ^ e ≤ num / den < 10 ^ (e + 1)`. -/
def floorLogTen (num den : Nat) : Int :=
  let e : Int := ((Text.digits num).length : Int) - (Text.digits den).length
  if den * 10 ^ e.toNat ≤ num * 10 ^ (-e).toNat then e else e - 1

/-- The neighbour of the value on the grid of multiples of `10 ^ power` that reads back, if any. -/
def Interval.onGrid? (i : Interval) (power : Int) : Option Decimal :=
  let scale := 10 ^ (-power).toNat
  let step := i.den * 10 ^ power.toNat
  let low := i.low * scale
  let value := i.value * scale
  let high := i.high * scale
  let hits (c : Nat) : Bool :=
    if i.closed then low ≤ c * step && c * step ≤ high else low < c * step && c * step < high
  let floor := value / step
  let short := value - floor * step
  let excess := (floor + 1) * step - value
  match hits floor, hits (floor + 1) with
  | false, false => none
  | true, false => some ⟨floor, power⟩
  | false, true => some ⟨floor + 1, power⟩
  | true, true =>
    if short < excess then some ⟨floor, power⟩
    else if excess < short then some ⟨floor + 1, power⟩
    else some ⟨floor + floor % 2, power⟩

/-- The shortest decimal that reads back as the double of a positive rank. -/
def shortest (rank : Nat) : Decimal :=
  let i := interval rank
  let first := floorLogTen i.value i.den
  let grids := (List.range 17).map fun (n : Nat) => first - (n : Int)
  (grids.findSome? i.onGrid?).getD ⟨i.value / i.den, 0⟩

/-- Drops the zeros at the end of a list of digits. -/
def dropZeros (cs : List Char) : List Char :=
  (cs.reverse.dropWhile (· == '0')).reverse

/-- How the digits of a decimal number are laid out. -/
structure Layout where
  /-- The least exponent of the first digit that is written positionally. -/
  least : Int
  /-- The greatest exponent of the first digit that is written positionally. -/
  greatest : Int

/-- Lays out significant digits whose first has the given exponent. -/
def Layout.write (layout : Layout) (ds : List Char) (e : Int) : List Char :=
  if layout.least ≤ e && e ≤ layout.greatest then
    if e < 0 then
      '0' :: '.' :: List.replicate (-e - 1).toNat '0' ++ ds
    else
      let point := e.toNat + 1
      let whole := ds.take point ++ List.replicate (point - ds.length) '0'
      let fraction := ds.drop point
      whole ++ '.' :: (if fraction.isEmpty then ['0'] else fraction)
  else
    let mantissa := match ds with
      | [d] => [d]
      | d :: rest => d :: '.' :: rest
      | [] => []
    let sign := if e < 0 then '-' else '+'
    mantissa ++ 'e' :: sign :: Text.digits e.natAbs

/-- The text of a double: its sign, then its shortest digits. -/
def text (layout : Layout) (x : Binary64) : List Char :=
  let sign := if x.negative then ['-'] else []
  if x.isZero then sign ++ ['0', '.', '0']
  else
    let d := shortest x.rank
    let ds := Text.digits d.coefficient
    sign ++ layout.write (dropZeros ds) (d.power + (ds.length - 1 : Nat))

end DatedLedger.Binary64
