import DatedLedger.Access
import DatedLedger.Config.Reader
import DatedLedger.Ledger
import DatedLedger.Locks
import DatedLedger.StorageFile
import DatedLedger.Store.Edit
import DatedLedger.Store.Json
import DatedLedger.TenantView
import DatedLedger.Proofs.Locks.Desk
import DatedLedger.Proofs.Rules.Numbers
import DatedLedger.Proofs.Run.Acceptance
import DatedLedger.Proofs.Run.Agreement
import DatedLedger.Proofs.Run.Arrival
import DatedLedger.Proofs.Run.AsOf
import DatedLedger.Proofs.Run.Audit
import DatedLedger.Proofs.Run.Callers
import DatedLedger.Proofs.Run.Correction
import DatedLedger.Proofs.Run.Edits
import DatedLedger.Proofs.Run.Effects
import DatedLedger.Proofs.Run.Failures
import DatedLedger.Proofs.Run.Finality
import DatedLedger.Proofs.Run.Identity
import DatedLedger.Proofs.Run.Isolation
import DatedLedger.Proofs.Run.Past
import DatedLedger.Proofs.Run.Registry
import DatedLedger.Proofs.Run.Repair
import DatedLedger.Proofs.Run.Repetition
import DatedLedger.Proofs.Run.Rescission
import DatedLedger.Proofs.Run.Residue
import DatedLedger.Proofs.Run.Sequence
import DatedLedger.Proofs.Run.Texts
import DatedLedger.Proofs.Timeline.FirstFault
import DatedLedger.Proofs.Timeline.Writers
