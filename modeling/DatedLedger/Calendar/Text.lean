import DatedLedger.Calendar.Date
import DatedLedger.Text.Blank
import DatedLedger.Text.Decimal

/-!
# Dates as text

A date is written as year, month and day with hyphens between them.  Years 0 to
9999 have four digits and no sign; every other year has a sign and at least four
digits.  The reading is more generous: each number may have blanks in front and
fewer digits than are written, and the year may have a sign.
-/

namespace DatedLedger

namespace Date

/-- The text of a year. -/
def yearText (year : Int) : List Char :=
  if 0 ≤ year ∧ year ≤ 9999 then Text.padded 4 year.toNat
  else (if year < 0 then '-' else '+') :: Text.padded 4 year.natAbs

/-- The text of a date, as characters. -/
def chars (d : Date) : List Char :=
  yearText d.year ++ '-' :: (Text.padded 2 d.month ++ '-' :: Text.padded 2 d.day)

/-- The text of a date. -/
def text (d : Date) : String :=
  String.ofList d.chars

/-- Why a text is no date. -/
inductive Fault where
  /-- The text ends too early. -/
  | premature
  /-- A character stands where it cannot. -/
  | invalid
  /-- A number, or the date as a whole, is outside the calendar. -/
  | outOfRange
  /-- Something follows the date. -/
  | trailing
  deriving DecidableEq

def Fault.message : Fault → String
  | premature => "premature end of input"
  | invalid => "input contains invalid characters"
  | outOfRange => "input is out of range"
  | trailing => "trailing input"

/-- Reads a number of one up to `width` digits. -/
def readNumber (width : Nat) (cs : List Char) : Except Fault (Nat × List Char) :=
  match cs with
  | [] => .error .premature
  | c :: _ =>
    if c.isDigit then
      let ds := (cs.take width).takeWhile Char.isDigit
      .ok (Text.natValue ds, cs.drop ds.length)
    else .error .invalid

/-- Refuses a number outside the given bounds. -/
def checkRange (low high value : Int) : Except Fault Unit :=
  if low ≤ value ∧ value ≤ high then .ok () else .error .outOfRange

/-- Reads the hyphen between two numbers. -/
def readHyphen : List Char → Except Fault (List Char)
  | [] => .error .premature
  | c :: cs => if c = '-' then .ok cs else .error .invalid

/-- The number of digits of a year that has no sign. -/
def yearWidth : Nat := 4

/-- Reads a year: at most four digits, or a sign and any number of digits. -/
def readYear (cs : List Char) : Except Fault (Int × List Char) := do
  let (year, rest) ← match Text.skipBlanks cs with
    | '-' :: cs => do
      let (n, rest) ← readNumber cs.length cs
      pure (-(n : Int), rest)
    | '+' :: cs => do
      let (n, rest) ← readNumber cs.length cs
      pure ((n : Int), rest)
    | cs => do
      let (n, rest) ← readNumber yearWidth cs
      pure ((n : Int), rest)
  checkRange (-2 ^ 31) (2 ^ 31 - 1) year
  pure (year, rest)

/-- Reads a month or a day: at most two digits, within bounds. -/
def readPart (high : Int) (cs : List Char) : Except Fault (Nat × List Char) := do
  let (n, rest) ← readNumber 2 (Text.skipBlanks cs)
  checkRange 1 high n
  pure (n, rest)

/-- Reads a date, which has to be the whole text. -/
def parseChars (cs : List Char) : Except Fault Date := do
  let (year, cs) ← readYear cs
  let cs ← readHyphen cs
  let (month, cs) ← readPart 12 cs
  let cs ← readHyphen cs
  let (day, cs) ← readPart 31 cs
  if cs.isEmpty then
    match of? year month day with
    | some d => .ok d
    | none => .error .outOfRange
  else .error .trailing

def parse (text : String) : Except Fault Date :=
  parseChars text.toList

end Date

end DatedLedger
