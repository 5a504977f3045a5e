import DatedLedger.FormatVersion

/-!
# Files of tables

Before it is opened for the first time a file may not be there.  To open it to be
written creates it with the current version of the format; to open it to be read
alone never creates it, and so fails.  A ledger opens its file both ways, and once
the first has gone well so does the second.
-/

namespace DatedLedger

/-- The place of a file: nothing is there, or a file with the version that it carries. -/
inductive StorageFile where
  | absent
  | present (version : FormatVersion)
  deriving DecidableEq

/-- Why a file is not opened. -/
inductive OpenFault where
  /-- There is no file, and none is to be created. -/
  | noFile
  | format (fault : FormatFault)
  deriving DecidableEq

namespace StorageFile

/-- The version that a file carries; a file that is yet to be created carries none. -/
def version : StorageFile → FormatVersion
  | absent => ⟨none⟩
  | present v => v

/-- Opens a file to be written, and creates it if it is not there. -/
def openToWrite (f : StorageFile) : Except OpenFault StorageFile :=
  (f.version.openToWrite.map present).mapError .format

/-- Opens a file to be read alone; it has to be there. -/
def openToRead : StorageFile → Except OpenFault StorageFile
  | absent => .error .noFile
  | present v => (v.openToRead.map present).mapError .format

/-- Opens a file as a ledger does: to be written, and then once more to be read. -/
def openForLedger (f : StorageFile) : Except OpenFault StorageFile := do
  (← f.openToWrite).openToRead

/-- A file that opens to be written opens to be read, so a ledger asks for no more. -/
theorem openForLedger_eq_openToWrite (f : StorageFile) : f.openForLedger = f.openToWrite := by
  unfold openForLedger openToWrite
  cases h : f.version.openToWrite with
  | error fault => rfl
  | ok v =>
    have hr := FormatVersion.openToRead_of_openToWrite h
    change (v.openToRead.map present).mapError OpenFault.format = .ok (present v)
    rw [hr]
    rfl

end StorageFile

end DatedLedger
