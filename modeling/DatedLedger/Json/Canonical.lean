import DatedLedger.Binary64.Shortest
import DatedLedger.Json.Value

/-!
# Canonical JSON

The one text that is written for a value: members in the order of their names, no
spaces, and in strings only the quotation mark, the reverse solidus and the control
characters below U+0020 escaped.  Integers are decimal, doubles have the fewest
digits that read back.
-/

namespace DatedLedger.Json

/-- Doubles are written positionally from `0.00001` up to below `1e+16`. -/
def realLayout : Binary64.Layout := ⟨-5, 15⟩

/-- The text of a number. -/
def numberText : Number → List Char
  | .int i _ => Text.integer i
  | .real x => Binary64.text realLayout x

/-- The lower-case hexadecimal digit of a number below sixteen. -/
def hexDigit (d : Nat) : Char :=
  if d < 10 then Char.ofNat (48 + d) else Char.ofNat (87 + d)

/-- The text of one character inside a string. -/
def escape (c : Char) : List Char :=
  if c = '"' then ['\\', '"']
  else if c = '\\' then ['\\', '\\']
  else if c = '\x08' then ['\\', 'b']
  else if c = '\x0c' then ['\\', 'f']
  else if c = '\n' then ['\\', 'n']
  else if c = '\r' then ['\\', 'r']
  else if c = '\t' then ['\\', 't']
  else if c.toNat < 0x20 then
    ['\\', 'u', '0', '0', hexDigit (c.toNat / 16), hexDigit (c.toNat % 16)]
  else [c]

/-- The text of a string, quotation marks included. -/
def stringText (s : String) : List Char :=
  '"' :: (s.toList.flatMap escape ++ ['"'])

mutual

/-- The canonical text of a value, as characters. -/
def valueText : Value → List Char
  | .null => ['n', 'u', 'l', 'l']
  | .bool true => ['t', 'r', 'u', 'e']
  | .bool false => ['f', 'a', 'l', 's', 'e']
  | .num n => numberText n
  | .str s => stringText s
  | .arr items => '[' :: (itemsText items ++ [']'])
  | .obj members => '{' :: (membersText members ++ ['}'])

/-- The texts of items, with commas between them. -/
def itemsText : List Value → List Char
  | [] => []
  | [v] => valueText v
  | v :: rest => valueText v ++ ',' :: itemsText rest

/-- The texts of members, with commas between them. -/
def membersText : Members → List Char
  | [] => []
  | [(name, v)] => stringText name ++ ':' :: valueText v
  | (name, v) :: rest => stringText name ++ ':' :: (valueText v ++ ',' :: membersText rest)

end

/-- The canonical text of a value. -/
def canonical (v : Value) : String :=
  String.ofList (valueText v)

end DatedLedger.Json
