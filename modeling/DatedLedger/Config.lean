import DatedLedger.Error
import DatedLedger.Text.Decimal

/-!
# Configuration

How long callers wait for locks, and how long a page of the audit may be.
-/

namespace DatedLedger

/-- The settings of a ledger; times are in milliseconds. -/
structure Config where
  lockTimeoutMs : Nat
  busyTimeoutMs : Nat
  auditDefaultLimit : Nat
  auditMaxLimit : Nat
  deriving DecidableEq

/-- Why settings are refused. -/
inductive ConfigFault where
  | notPositive (field : String)
  /-- The default length of a page is above the greatest one. -/
  | defaultAboveMax (default max : Nat)
  deriving DecidableEq

namespace ConfigFault

def message : ConfigFault → String
  | notPositive field => "config error: " ++ field ++ " must be positive"
  | defaultAboveMax default max =>
    "config error: audit_default_limit (" ++ Text.showNat default ++
      ") exceeds audit_max_limit (" ++ Text.showNat max ++ ")"

end ConfigFault

namespace Config

/-- The settings that hold unless others are given. -/
def standard : Config :=
  { lockTimeoutMs := 5000, busyTimeoutMs := 5000, auditDefaultLimit := 50, auditMaxLimit := 500 }

/-- The first fault of settings. -/
def fault? (c : Config) : Option ConfigFault :=
  if c.lockTimeoutMs = 0 then some (.notPositive "lock_timeout_ms")
  else if c.busyTimeoutMs = 0 then some (.notPositive "busy_timeout_ms")
  else if c.auditDefaultLimit = 0 then some (.notPositive "audit_default_limit")
  else if c.auditMaxLimit < c.auditDefaultLimit then
    some (.defaultAboveMax c.auditDefaultLimit c.auditMaxLimit)
  else none

/-- The settings, if they have no fault. -/
def validate (c : Config) : Except ConfigFault Config :=
  match c.fault? with
  | none => .ok c
  | some fault => .error fault

/-- The length of a page of the audit: the default, or what is asked for up to the greatest. -/
def auditLimit (c : Config) : Option Nat → Except LedgerError Nat
  | none => .ok c.auditDefaultLimit
  | some 0 => .error (.invalid .zeroAuditLimit)
  | some n => .ok (min n c.auditMaxLimit)

end Config

end DatedLedger
