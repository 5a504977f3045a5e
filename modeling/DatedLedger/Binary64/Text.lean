import DatedLedger.Binary64.Rounding

/-!
# Reading a double from text

A number in text is an optional sign, digits with at most one point among them,
and an optional exponent.  It denotes the double nearest to it; a text that is no
number, or whose number is beyond the finite doubles, denotes none.
-/

namespace DatedLedger.Binary64

/-- Reads an exponent, which has to end the text; an absent one is zero. -/
def exponentOf? : List Char → Option Int
  | [] => some 0
  | c :: cs => if c = 'e' || c = 'E' then Text.readInt? cs else none

/-- The digits after a point, and what follows them. -/
def fractionOf : List Char → List Char × List Char
  | '.' :: cs => (cs.takeWhile Char.isDigit, cs.dropWhile Char.isDigit)
  | cs => ([], cs)

/-- Reads a number without a sign. -/
def readUnsigned? (negative : Bool) (cs : List Char) : Option Binary64 :=
  let whole := cs.takeWhile Char.isDigit
  let (fraction, rest) := fractionOf (cs.dropWhile Char.isDigit)
  let ds := whole ++ fraction
  if ds.isEmpty then none
  else do
    let e ← exponentOf? rest
    ofDecimal? negative (Text.natValue ds) (e - (fraction.length : Nat))

/-- Reads a number, which has to be the whole text. -/
def read? : List Char → Option Binary64
  | '-' :: cs => readUnsigned? true cs
  | '+' :: cs => readUnsigned? false cs
  | cs => readUnsigned? false cs

end DatedLedger.Binary64
