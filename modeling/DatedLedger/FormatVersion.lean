import DatedLedger.Text.Decimal

/-!
# The version of the storage format

A file of tables carries the version of its format as text.  A file without one is
given the current version when it is opened to be written; a file of any other
version is refused.
-/

namespace DatedLedger

/-- The version that is stored in a file, if there is one. -/
structure FormatVersion where
  stored : Option String
  deriving DecidableEq

/-- The current version. -/
def FormatVersion.current : Int := 1

/-- Why a file is refused. -/
inductive FormatFault where
  | missing
  | unreadable (text : String)
  | mismatch (version : Int)
  deriving DecidableEq

namespace FormatFault

def message : FormatFault → String
  | missing => "schema error: database has no schema version"
  | unreadable text => "schema error: unreadable schema version '" ++ text ++ "'"
  | mismatch version =>
    "schema error: schema version mismatch: database has version " ++ Text.showInt version ++
      ", but this TimelineDB version requires " ++ Text.showInt FormatVersion.current

end FormatFault

namespace FormatVersion

/-- The version that a text denotes, a signed integer of 32 bits. -/
def number? (text : String) : Option Int :=
  (Text.readInt? text.toList).filter fun i => -2 ^ 31 ≤ i ∧ i < 2 ^ 31

/-- Checks the text of a version. -/
def check (text : String) : Except FormatFault Unit :=
  match number? text with
  | none => .error (.unreadable text)
  | some version => if version = current then .ok () else .error (.mismatch version)

/-- Opens a file to be written: one without a version is given the current one. -/
def openToWrite (v : FormatVersion) : Except FormatFault FormatVersion :=
  match v.stored with
  | none => .ok ⟨some (Text.showInt current)⟩
  | some text => (check text).map fun _ => v

/-- Opens a file to be read alone: it has to have the current version. -/
def openToRead (v : FormatVersion) : Except FormatFault FormatVersion :=
  match v.stored with
  | none => .error .missing
  | some text => (check text).map fun _ => v

theorem check_current : check (Text.showInt current) = .ok () := by
  have h : number? (Text.showInt current) = some current := by decide +kernel
  simp [check, h]

/-- A file that opens to be written has the current version then. -/
theorem openToRead_of_openToWrite {v v' : FormatVersion} (h : v.openToWrite = .ok v') :
    v'.openToRead = .ok v' := by
  obtain ⟨stored⟩ := v
  cases stored with
  | none =>
    cases h
    simp [openToRead, check_current, Except.map]
  | some text =>
    cases hc : check text with
    | error fault => simp [openToWrite, hc, Except.map] at h
    | ok =>
      simp only [openToWrite, hc, Except.map, Except.ok.injEq] at h
      subst h
      simp [openToRead, hc, Except.map]

end FormatVersion

end DatedLedger
