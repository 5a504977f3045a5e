import DatedLedger.Json.Numeral

/-!
# JSON tokens

A text is cut into tokens by a machine that is fed one character at a time.  A
numeral or a word ends where the next character does not belong to it, and that
character is then read as the start of the next token, so each step depends on the
state and one character alone.
-/

namespace DatedLedger.Json

/-- A token: punctuation, a scalar that is no string, or a string. -/
inductive Token where
  | openArray
  | closeArray
  | openObject
  | closeObject
  | comma
  | colon
  | scalar (value : Value)
  | string (value : String)

/-- Where the machine stands between two characters; seen characters are kept latest first. -/
inductive Scan where
  /-- Between tokens. -/
  | between
  /-- Inside a word, with the characters that still have to come. -/
  | word (owed : List Char) (value : Value)
  /-- Inside a numeral. -/
  | numeral (seen : List Char)
  /-- Inside a string. -/
  | string (seen : List Char)
  /-- Behind a reverse solidus inside a string. -/
  | escape (seen : List Char)
  /-- Inside a code unit of four digits, perhaps behind a leading surrogate. -/
  | unit (seen : List Char) (leading : Option Nat) (owed value : Nat)
  /-- Behind a leading surrogate, where a reverse solidus has to follow. -/
  | pair (seen : List Char) (leading : Nat)
  /-- Behind a leading surrogate and a reverse solidus. -/
  | pairMark (seen : List Char) (leading : Nat)

namespace Scan

/-- The characters that separate tokens. -/
def isSpace (c : Char) : Bool :=
  c = ' ' || c = '\t' || c = '\n' || c = '\r'

/-- The characters that a numeral is made of. -/
def isNumeral (c : Char) : Bool :=
  c.isDigit || c = '-' || c = '+' || c = '.' || c = 'e' || c = 'E'

/-- The value of a hexadecimal digit. -/
def hexValue? (c : Char) : Option Nat :=
  if c.isDigit then some (c.toNat - 48)
  else if 'a' ≤ c && c ≤ 'f' then some (c.toNat - 87)
  else if 'A' ≤ c && c ≤ 'F' then some (c.toNat - 55)
  else none

/-- Starts a token at its first character. -/
def start? (c : Char) : Option (Scan × List Token) :=
  if isSpace c then some (.between, [])
  else if c.isDigit || c = '-' then some (.numeral [c], [])
  else match c with
    | '[' => some (.between, [.openArray])
    | ']' => some (.between, [.closeArray])
    | '{' => some (.between, [.openObject])
    | '}' => some (.between, [.closeObject])
    | ',' => some (.between, [.comma])
    | ':' => some (.between, [.colon])
    | '"' => some (.string [], [])
    | 'n' => some (.word ['u', 'l', 'l'] .null, [])
    | 't' => some (.word ['r', 'u', 'e'] (.bool true), [])
    | 'f' => some (.word ['a', 'l', 's', 'e'] (.bool false), [])
    | _ => none

/-- The token of a complete numeral. -/
def numeralToken? (seen : List Char) : Option Token :=
  (Numeral.read? seen.reverse).map fun n => .scalar (.num n)

/-- The character that an escape of one letter stands for. -/
def escaped? : Char → Option Char
  | '"' => some '"'
  | '\\' => some '\\'
  | '/' => some '/'
  | 'b' => some '\x08'
  | 'f' => some '\x0c'
  | 'n' => some '\n'
  | 'r' => some '\r'
  | 't' => some '\t'
  | _ => none

/-- Ends a code unit: surrogates have to come as a leading and a trailing one. -/
def endUnit? (seen : List Char) (leading : Option Nat) (value : Nat) : Option Scan :=
  match leading with
  | none =>
    if 0xD800 ≤ value && value < 0xDC00 then some (.pair seen value)
    else if 0xDC00 ≤ value && value < 0xE000 then none
    else some (.string (Char.ofNat value :: seen))
  | some high =>
    if 0xDC00 ≤ value && value < 0xE000 then
      some (.string (Char.ofNat (0x10000 + (high - 0xD800) * 0x400 + (value - 0xDC00)) :: seen))
    else none

/-- Takes one character: the state behind it, and the tokens that it completes. -/
def step? : Scan → Char → Option (Scan × List Token)
  | .between, c => start? c
  | .word (d :: owed) value, c =>
    if c = d then
      if owed.isEmpty then some (.between, [.scalar value]) else some (.word owed value, [])
    else none
  | .word [] _, _ => none
  | .numeral seen, c =>
    if isNumeral c then some (.numeral (c :: seen), [])
    else do
      let token ← numeralToken? seen
      let (next, tokens) ← start? c
      some (next, token :: tokens)
  | .string seen, c =>
    if c = '"' then some (.between, [.string (String.ofList seen.reverse)])
    else if c = '\\' then some (.escape seen, [])
    else if c.toNat < 0x20 then none
    else some (.string (c :: seen), [])
  | .escape seen, c =>
    if c = 'u' then some (.unit seen none 4 0, [])
    else (escaped? c).map fun d => (.string (d :: seen), [])
  | .unit seen leading owed value, c => do
    let d ← hexValue? c
    let next := 16 * value + d
    if owed ≤ 1 then (endUnit? seen leading next).map fun s => (s, [])
    else some (.unit seen leading (owed - 1) next, [])
  | .pair seen leading, c => if c = '\\' then some (.pairMark seen leading, []) else none
  | .pairMark seen leading, c => if c = 'u' then some (.unit seen (some leading) 4 0, []) else none

/-- Ends the text: the tokens that its end completes. -/
def finish? : Scan → Option (List Token)
  | .between => some []
  | .numeral seen => (numeralToken? seen).map fun t => [t]
  | _ => none

end Scan

end DatedLedger.Json
