import DatedLedger.Json.Token

/-!
# Reading JSON

The grammar of JSON as a machine over tokens.  Its state is what has been read of
each array and object that is still open, innermost first, and what may come next.
A later member of an object replaces an earlier one of the same name.  Arrays and
objects are nested at most 127 deep.
-/

namespace DatedLedger.Json

/-- An array or object that is still open. -/
inductive Frame where
  /-- The items before the one being read, latest first. -/
  | array (items : List Value)
  /-- The members before the one being read, and the name of that one. -/
  | object (members : Members) (name : String)

/-- What has been read, and what may come next. -/
inductive Phase where
  /-- A value has to follow. -/
  | atValue (outer : List Frame)
  /-- An array has just been opened: an item or the end of it follows. -/
  | atFirstItem (outer : List Frame)
  /-- An object has just been opened: a name or the end of it follows. -/
  | atFirstName (outer : List Frame)
  /-- A name has to follow the given members. -/
  | atName (outer : List Frame) (members : Members)
  /-- A colon has to follow the name. -/
  | atColon (outer : List Frame) (members : Members) (name : String)
  /-- A value is complete. -/
  | complete (outer : List Frame) (value : Value)

namespace Phase

/-- The greatest number of arrays and objects open at once. -/
def maxOpen : Nat := 127

/-- Starts a value. -/
def begin? (outer : List Frame) : Token → Option Phase
  | .scalar v => some (.complete outer v)
  | .string s => some (.complete outer (.str s))
  | .openArray => if outer.length < maxOpen then some (.atFirstItem outer) else none
  | .openObject => if outer.length < maxOpen then some (.atFirstName outer) else none
  | _ => none

/-- Goes on behind a complete value inside the innermost open array or object. -/
def resume? (value : Value) : List Frame → Token → Option Phase
  | .array items :: outer, .comma => some (.atValue (.array (value :: items) :: outer))
  | .array items :: outer, .closeArray => some (.complete outer (.arr (value :: items).reverse))
  | .object members name :: outer, .comma =>
    some (.atName outer (Members.insert name value members))
  | .object members name :: outer, .closeObject =>
    some (.complete outer (.obj (Members.insert name value members)))
  | _, _ => none

/-- Takes one token. -/
def step? : Phase → Token → Option Phase
  | .atValue outer, t => begin? outer t
  | .atFirstItem outer, .closeArray => some (.complete outer (.arr []))
  | .atFirstItem outer, t => begin? (.array [] :: outer) t
  | .atFirstName outer, .closeObject => some (.complete outer (.obj []))
  | .atFirstName outer, .string s => some (.atColon outer [] s)
  | .atFirstName _, _ => none
  | .atName outer members, .string s => some (.atColon outer members s)
  | .atName _ _, _ => none
  | .atColon outer members name, .colon => some (.atValue (.object members name :: outer))
  | .atColon _ _ _, _ => none
  | .complete outer value, t => resume? value outer t

/-- The value of a text that ends here. -/
def finish? : Phase → Option Value
  | .complete [] value => some value
  | _ => none

end Phase

/-- The machine that reads a text: where it stands in a token, and in the grammar. -/
structure Reader where
  scan : Scan
  phase : Phase

namespace Reader

/-- The machine before the first character. -/
def start : Reader := ⟨.between, .atValue []⟩

/-- Takes the tokens that one character completes. -/
def take? (r : Reader) (next : Scan × List Token) : Option Reader :=
  (next.2.foldlM Phase.step? r.phase).map fun phase => ⟨next.1, phase⟩

/-- Takes one character. -/
def step? (r : Reader) (c : Char) : Option Reader := do
  r.take? (← r.scan.step? c)

/-- Ends the text. -/
def finish? (r : Reader) : Option Value := do
  let phase ← (← r.scan.finish?).foldlM Phase.step? r.phase
  phase.finish?

end Reader

/-- Reads a JSON text; none when it is not one. -/
def read? (text : String) : Option Value := do
  let r ← text.toList.foldlM Reader.step? Reader.start
  r.finish?

end DatedLedger.Json
