import DatedLedger.Binary64.Rounding
import DatedLedger.Json.Value
import DatedLedger.Text.Decimal

/-!
# JSON numerals

A numeral is an optional minus sign, digits without a leading zero, an optional
fraction and an optional exponent.  A numeral of digits alone that fits 64 bits is
an integer; every other one is a double.  A double is read the fast way: as many
leading digits as fit 64 bits make a significand, and the significand is scaled
once by a power of ten that is itself rounded to a double.  The result can differ
in its last bits from the double nearest to the numeral.
-/

namespace DatedLedger.Json

/-- The parts of a numeral, as the digits that are written. -/
structure Numeral where
  negative : Bool
  whole : List Char
  fraction : Option (List Char)
  exponent : Option (Bool × List Char)

namespace Numeral

/-- The digits at the front of a text, and what follows them. -/
def spanDigits (cs : List Char) : List Char × List Char :=
  (cs.takeWhile Char.isDigit, cs.dropWhile Char.isDigit)

/-- Reads the sign of an exponent; `true` stands for a negative one. -/
def exponentSign : List Char → Bool × List Char
  | '-' :: cs => (true, cs)
  | '+' :: cs => (false, cs)
  | cs => (false, cs)

/-- Reads an exponent, which has to end the text. -/
def exponentOf? : List Char → Option (Option (Bool × List Char))
  | [] => some none
  | c :: cs =>
    if c = 'e' || c = 'E' then
      let (negative, ds) := exponentSign cs
      if ds.isEmpty || !ds.all Char.isDigit then none else some (some (negative, ds))
    else none

/-- Reads a fraction and an exponent behind the whole digits. -/
def tailOf? (negative : Bool) (whole : List Char) : List Char → Option Numeral
  | '.' :: cs =>
    let (ds, rest) := spanDigits cs
    if ds.isEmpty then none
    else (exponentOf? rest).map fun e => ⟨negative, whole, some ds, e⟩
  | cs => (exponentOf? cs).map fun e => ⟨negative, whole, none, e⟩

/-- Reads the digits of a numeral behind its sign. -/
def unsigned? (negative : Bool) (cs : List Char) : Option Numeral :=
  let (ds, rest) := spanDigits cs
  match ds with
  | [] => none
  | '0' :: _ :: _ => none
  | _ => tailOf? negative ds rest

/-- Reads a numeral, which has to be the whole text. -/
def ofChars? : List Char → Option Numeral
  | '-' :: cs => unsigned? true cs
  | cs => unsigned? false cs

/-- A significand below `2 ^ 64` with the power of ten that it is multiplied by. -/
structure Scaled where
  significand : Nat
  power : Int

/-- Whether a digit can be taken into the significand. -/
def Scaled.takes (s : Scaled) (c : Char) : Bool :=
  10 * s.significand + Text.digitValue c < 2 ^ 64

/-- Gathers whole digits; from the first that does not fit, each only raises the power. -/
def gatherWhole (s : Scaled) : List Char → Scaled
  | [] => s
  | c :: cs =>
    if s.takes c then
      gatherWhole { s with significand := 10 * s.significand + Text.digitValue c } cs
    else { s with power := s.power + (cs.length + 1 : Nat) }

/-- Gathers digits of a fraction; the first that does not fit drops itself and the rest. -/
def gatherFraction (s : Scaled) : List Char → Scaled
  | [] => s
  | c :: cs =>
    if s.takes c then
      gatherFraction ⟨10 * s.significand + Text.digitValue c, s.power - 1⟩ cs
    else s

/-- The significand and power of the digits before the exponent. -/
def scaled (n : Numeral) : Scaled :=
  gatherFraction (gatherWhole ⟨0, 0⟩ n.whole) (n.fraction.getD [])

/-- The greatest power of ten that is a finite double. -/
def tableEnd : Nat := 308

/-- The double nearest to a power of ten of the table. -/
def powerOfTen? (k : Nat) : Option Binary64 :=
  Binary64.ofNat? (10 ^ k)

/-- Divides by the last power of the table so many times, unless zero is reached before. -/
def shrink (x : Binary64) : Nat → Option Binary64
  | 0 => some x
  | n + 1 =>
    if x.isZero then some x
    else do
      let p ← powerOfTen? tableEnd
      shrink (← x.div? p) n

/-- Scales a double by a power of ten; none when the result is not finite. -/
def scaleBy? (x : Binary64) (power : Int) : Option Binary64 :=
  if 0 ≤ power then
    if power ≤ tableEnd then do x.mul? (← powerOfTen? power.toNat)
    else if x.isZero then some x else none
  else do
    let k := power.natAbs
    let steps := (k - 1) / tableEnd
    let y ← shrink x steps
    y.div? (← powerOfTen? (k - tableEnd * steps))

/-- The greatest exponent that a numeral may write out. -/
def exponentLimit : Nat := 2 ^ 31 - 1

/-- The magnitude of a numeral as a double; none when it is not finite. -/
def magnitude? (n : Numeral) : Option Binary64 :=
  let s := n.scaled
  match n.exponent with
  | none => do scaleBy? (← Binary64.ofNat? s.significand) s.power
  | some (negative, ds) =>
    let e := Text.natValue ds
    if exponentLimit < e then
      if s.significand = 0 || negative then some (.zero false) else none
    else do
      let power := if negative then s.power - (e : Int) else s.power + (e : Int)
      scaleBy? (← Binary64.ofNat? s.significand) power

/-- The double that a numeral denotes, with the sign of the numeral. -/
def real? (n : Numeral) : Option Number :=
  (magnitude? n).map fun x => .real { x with negative := n.negative }

/-- The integer that a numeral of digits alone denotes, when it fits; minus zero does not. -/
def int? (n : Numeral) : Option Number :=
  if n.fraction.isSome || n.exponent.isSome then none
  else
    let m := Text.natValue n.whole
    if n.negative && m = 0 then none
    else
      let v : Int := if n.negative then -(m : Int) else m
      if h : -2 ^ 63 ≤ v ∧ v < 2 ^ 64 then some (.int v h) else none

/-- The number that a numeral denotes. -/
def number? (n : Numeral) : Option Number :=
  n.int? <|> n.real?

/-- Reads a number, which has to be the whole text. -/
def read? (cs : List Char) : Option Number := do
  number? (← ofChars? cs)

end Numeral

end DatedLedger.Json
