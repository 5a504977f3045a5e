import DatedLedger.Config

/-!
# Reading the configuration

Settings are written one a line as a name, an equals sign and an integer, in the
notation of TOML: names may be quoted, integers may be decimal, hexadecimal, octal
or binary with underscores between digits, and a comment runs to the end of its
line.  No setting has a value of another type, so a text with tables, dotted names
or other values is refused as a whole.
-/

namespace DatedLedger

/-- Why a text gives no settings. -/
inductive ConfigError where
  /-- The text is not of the form described here, or names something that is no setting. -/
  | malformed
  /-- The settings are refused. -/
  | fault (fault : ConfigFault)
  deriving DecidableEq

namespace Config

/-- The characters that may stand around the parts of a line. -/
def isSpace (c : Char) : Bool :=
  c = ' ' || c = '\t'

/-- The characters that may stand in a comment. -/
def isCommentChar (c : Char) : Bool :=
  c = '\t' || (0x20 ≤ c.toNat && c.toNat != 0x7F)

/-- The characters of a name without quotes. -/
def isBareChar (c : Char) : Bool :=
  c.isAlphanum || c = '_' || c = '-'

/-- The value of a digit in a base up to sixteen. -/
def digitIn? (base : Nat) (c : Char) : Option Nat :=
  let d? :=
    if c.isDigit then some (c.toNat - 48)
    else if 'a' ≤ c && c ≤ 'f' then some (c.toNat - 87)
    else if 'A' ≤ c && c ≤ 'F' then some (c.toNat - 55)
    else none
  d?.filter fun d => d < base

/-- The digits of a number, in which an underscore may stand between two digits. -/
def digitsIn? (base : Nat) : List Char → Option (List Nat)
  | [] => none
  | [c] => (digitIn? base c).map fun d => [d]
  | c :: '_' :: rest => do
    let d ← digitIn? base c
    (digitsIn? base rest).map (d :: ·)
  | c :: rest => do
    let d ← digitIn? base c
    (digitsIn? base rest).map (d :: ·)

/-- The number that the given digits denote. -/
def natIn? (base : Nat) (cs : List Char) : Option Nat :=
  (digitsIn? base cs).map fun ds => ds.foldl (fun n d => base * n + d) 0

/-- A decimal number, which starts with zero only when it is zero. -/
def decimal? : List Char → Option Nat
  | ['0'] => some 0
  | '0' :: _ => none
  | cs => natIn? 10 cs

/-- An integer of 64 bits; only decimal ones may have a sign. -/
def integer? (cs : List Char) : Option Int :=
  let i? := match cs with
    | '0' :: 'x' :: ds => (natIn? 16 ds).map Int.ofNat
    | '0' :: 'o' :: ds => (natIn? 8 ds).map Int.ofNat
    | '0' :: 'b' :: ds => (natIn? 2 ds).map Int.ofNat
    | '+' :: ds => (decimal? ds).map Int.ofNat
    | '-' :: ds => (decimal? ds).map fun n => -(n : Int)
    | ds => (decimal? ds).map Int.ofNat
  i?.filter fun i => -2 ^ 63 ≤ i ∧ i < 2 ^ 63

/-- Cuts off a comment, which may hold no control characters. -/
def dropComment? (cs : List Char) : Option (List Char) :=
  let body := cs.takeWhile fun c => c != '#'
  if (cs.drop body.length).all isCommentChar then some body else none

/-- The character of a code point, unless it is a surrogate or too great. -/
def scalar? (n : Nat) : Option Char :=
  if n.isValidChar then some (Char.ofNat n) else none

/-- The character of a code point in the given number of hexadecimal digits, and the rest. -/
def codePoint? (width : Nat) (cs : List Char) : Option (Char × List Char) := do
  let ds ← (cs.take width).mapM (digitIn? 16)
  if ds.length = width then
    let c ← scalar? (ds.foldl (fun n d => 16 * n + d) 0)
    some (c, cs.drop width)
  else none

/-- Reads a name in double quotes behind the first of them, in as many steps as it is long. -/
def quoted? : Nat → List Char → Option (List Char × List Char)
  | 0, _ => none
  | _ + 1, '"' :: rest => some ([], rest)
  | n + 1, '\\' :: c :: rest => do
    let (d, rest) ← match c with
      | 'b' => some ('\x08', rest)
      | 't' => some ('\t', rest)
      | 'n' => some ('\n', rest)
      | 'f' => some ('\x0c', rest)
      | 'r' => some ('\r', rest)
      | '"' => some ('"', rest)
      | '\\' => some ('\\', rest)
      | 'u' => codePoint? 4 rest
      | 'U' => codePoint? 8 rest
      | _ => none
    let (name, rest) ← quoted? n rest
    some (d :: name, rest)
  | n + 1, c :: rest => do
    if c = '\\' || !isCommentChar c then none
    else do
      let (name, rest) ← quoted? n rest
      some (c :: name, rest)
  | _, [] => none

/-- Reads a name and what follows it. -/
def name? : List Char → Option (List Char × List Char)
  | '"' :: rest => quoted? (rest.length + 1) rest
  | '\'' :: rest =>
    let name := rest.takeWhile fun c => c != '\''
    match rest.drop name.length with
    | _ :: rest => if name.all isCommentChar then some (name, rest) else none
    | [] => none
  | cs =>
    let name := cs.takeWhile isBareChar
    if name.isEmpty then none else some (name, cs.drop name.length)

/-- Drops the spaces at both ends. -/
def stripSpaces (cs : List Char) : List Char :=
  ((cs.dropWhile isSpace).reverse.dropWhile isSpace).reverse

/-- A name with its integer. -/
abbrev Setting := String × Int

/-- Reads a line that gives a setting. -/
def setting? (cs : List Char) : Option Setting := do
  let (name, rest) ← name? cs
  match rest.dropWhile isSpace with
  | '=' :: rest =>
    let value ← integer? (stripSpaces (← dropComment? rest))
    some (String.ofList name, value)
  | _ => none

/-- Reads a line: a setting, or nothing but a comment. -/
def line? (cs : List Char) : Option (Option Setting) :=
  match cs.dropWhile isSpace with
  | [] => some none
  | '#' :: comment => if comment.all isCommentChar then some none else none
  | cs => (setting? cs).map some

/-- The lines of a text, whose ends are line feeds with or without a carriage return. -/
def lines : List Char → List (List Char)
  | [] => [[]]
  | '\n' :: cs => [] :: lines cs
  | '\r' :: '\n' :: cs => [] :: lines cs
  | c :: cs =>
    match lines cs with
    | line :: rest => (c :: line) :: rest
    | [] => [[c]]

/-- Drops a byte order mark at the front. -/
def dropMark : List Char → List Char
  | c :: cs => if c.toNat = 0xFEFF then cs else c :: cs
  | [] => []

/-- The settings that a text gives, in order. -/
def settings? (text : String) : Option (List Setting) := do
  let found ← (lines (dropMark text.toList)).mapM line?
  some (found.filterMap id)

/-- A value for a setting whose values are below the given limit. -/
def below? (limit : Nat) (value : Int) : Option Nat :=
  if 0 ≤ value ∧ value < limit then some value.toNat else none

/-- Applies one setting. -/
def assign? (c : Config) (s : Setting) : Option Config :=
  match s.1 with
  | "lock_timeout_ms" => (below? (2 ^ 64) s.2).map fun n => { c with lockTimeoutMs := n }
  | "busy_timeout_ms" => (below? (2 ^ 64) s.2).map fun n => { c with busyTimeoutMs := n }
  | "audit_default_limit" => (below? (2 ^ 32) s.2).map fun n => { c with auditDefaultLimit := n }
  | "audit_max_limit" => (below? (2 ^ 32) s.2).map fun n => { c with auditMaxLimit := n }
  | _ => none

/-- Whether no name is given twice. -/
def distinct (settings : List Setting) : Bool :=
  match settings with
  | [] => true
  | s :: rest => rest.all (fun t => t.1 != s.1) && distinct rest

/-- The settings of a text over the standard ones. -/
def ofText (text : String) : Except ConfigError Config :=
  match settings? text with
  | none => .error .malformed
  | some settings =>
    if distinct settings then
      match settings.foldlM assign? standard with
      | none => .error .malformed
      | some c => c.validate.mapError .fault
    else .error .malformed

end Config

end DatedLedger
