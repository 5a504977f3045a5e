import DatedLedger.Digest.XXH3
import DatedLedger.Timeline.Version

/-!
# Digests of timelines

A timeline is encoded as one line a version: its number, its first day, the first
day after it or nothing, and its attributes, with bars between them.  The digest
is the hash of that text in sixteen hexadecimal digits.
-/

namespace DatedLedger

namespace Version

/-- The line of a version, as characters. -/
def line (v : Version) : List Char :=
  Text.digits v.seqNo ++ '|' :: (v.validFrom.chars ++ '|' ::
    ((match v.validTo with
      | some date => date.chars
      | none => []) ++ '|' :: (Json.valueText (.obj v.attributes.members) ++ ['\n'])))

end Version

/-- The hexadecimal digits of a word, in lower case. -/
def hexDigits (n : UInt64) : List Char :=
  (List.range 16).map fun i => Json.hexDigit ((n.toNat / 16 ^ (15 - i)) % 16)

namespace Timeline

/-- The text that stands for a timeline. -/
def encoding (timeline : Timeline) : String :=
  String.ofList (timeline.flatMap Version.line)

/-- The digest of a timeline. -/
def digest (timeline : Timeline) : String :=
  String.ofList (hexDigits (XXH3.hash timeline.encoding.toUTF8.toList))

end Timeline

end DatedLedger
