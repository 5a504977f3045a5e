import DatedLedger.Error

/-!
# Access

Every call is made in a context, which may name a tenant.  A call on a tenant is
let through only in a context of that tenant.
-/

namespace DatedLedger

/-- Who calls: perhaps for a tenant, perhaps under a name. -/
structure Context where
  tenant : Option String
  initiator : Option String
  deriving DecidableEq

namespace Context

/-- The context of a tenant. -/
def ofTenant (tenant : String) : Context := ⟨some tenant, none⟩

/-- The context of nobody. -/
def anonymous : Context := ⟨none, none⟩

/-- The same context, under a name. -/
def named (ctx : Context) (initiator : String) : Context :=
  { ctx with initiator := some initiator }

/-- The tenant of a context, which has to have one. -/
def requireTenant (ctx : Context) : Except LedgerError String :=
  match ctx.tenant with
  | some tenant => .ok tenant
  | none => .error .tenantMissing

/-- Lets a call on a tenant through in a context of the same tenant. -/
def authorize (ctx : Context) (requested : String) : Except LedgerError Unit := do
  let tenant ← ctx.requireTenant
  if tenant = requested then .ok () else .error (.tenantMismatch tenant requested)

/-- A call is let through exactly in a context of its tenant. -/
theorem authorize_eq_ok_iff {ctx : Context} {requested : String} :
    ctx.authorize requested = .ok () ↔ ctx.tenant = some requested := by
  unfold authorize requireTenant
  cases ctx.tenant with
  | none => exact ⟨nofun, nofun⟩
  | some tenant =>
    by_cases h : tenant = requested
    · simp [h, bind, Except.bind]
    · simp [h, bind, Except.bind]

end Context

end DatedLedger
