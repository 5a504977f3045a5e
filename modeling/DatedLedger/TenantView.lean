import DatedLedger.Ledger

/-!
# Views of one tenant

A view is a ledger as seen in the context of one tenant.  Its reads are about that
tenant's entities; its commands name their tenant themselves and are let through
only when it is the same.
-/

namespace DatedLedger

/-- A context together with the tenant that it is for. -/
structure TenantView where
  context : Context
  tenant : String
  deriving DecidableEq

namespace TenantView

/-- The view of a context, which has to be for a tenant. -/
def of (ctx : Context) : Except LedgerError TenantView :=
  ctx.requireTenant.map fun tenant => ⟨ctx, tenant⟩

/-- An entity of the view's tenant. -/
def key (v : TenantView) (entity : String) : EntityKey :=
  ⟨v.tenant, entity⟩

def submit (v : TenantView) (c : Submission) (now : Nat) : Ledger.Action Event :=
  Ledger.submit v.context c now

def correct (v : TenantView) (c : Command) (now : Nat) : Ledger.Action Entry :=
  Ledger.correct v.context c now

def rescind (v : TenantView) (c : Command) (now : Nat) : Ledger.Action Entry :=
  Ledger.rescind v.context c now

def rebuild (v : TenantView) (entity : String) : Ledger.Action Timeline :=
  Ledger.rebuild v.context (v.key entity)

def versionAsOf (v : TenantView) (entity : String) (date : Date) : Ledger.Action Version :=
  Ledger.versionAsOf v.context (v.key entity) date

def timeline (v : TenantView) (entity : String) : Ledger.Action Timeline :=
  Ledger.timeline v.context (v.key entity)

def audit (v : TenantView) (entity : String) (limit : Option Nat) :
    Ledger.Action (List AuditEntry) :=
  Ledger.audit v.context (v.key entity) limit

def verify (v : TenantView) (entity : String) : Ledger.Action Bool :=
  Ledger.verify v.context (v.key entity)

end TenantView

end DatedLedger
