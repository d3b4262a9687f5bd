import Mathlib.Tactic.Basic

/-!
# The Capability `lenso.secrets@1`

Requests, responses and errors every Provider exchanges with its consumers, and
the lowering of a Provider's result to the two-layer reply of the generated
bindings: a Runtime failure outside, a Domain error or a response inside.
-/
namespace LensoSecrets.CapabilityContract

/-- `CAPABILITY_ID` -/
def capabilityId : String := "lenso.secrets@1"

structure ResolveRequest where
  reference : String
deriving DecidableEq

structure ResolveResponse where
  value : String
deriving DecidableEq

inductive ResolveError where
  | invalidReference
  | unknownReference
deriving DecidableEq

/-- The kernel's Runtime failures a Provider can raise. -/
inductive RuntimeFailure where
  | invalidResolvedPlan (detail : String)
  | pluginFailure (detail : String)
  | unavailable (capability : String)
  | internal (detail : String)
deriving DecidableEq

inductive PluginError where
  | domain (error : ResolveError)
  | runtime (failure : RuntimeFailure)
deriving DecidableEq

inductive SecretsInvocationError where
  | domain (error : ResolveError)
  | runtime (failure : RuntimeFailure)
deriving DecidableEq

/-- `Result<Result<ResolveResponse, ResolveError>, RuntimeFailure>` -/
abbrev Reply := Except RuntimeFailure (Except ResolveError ResolveResponse)

/-- `__lenso_into_result` for the Providers' `PluginResult`. -/
def PluginError.intoResult : Except PluginError ResolveResponse → Reply
  | .ok value => .ok (.ok value)
  | .error (.domain error) => .ok (.error error)
  | .error (.runtime error) => .error error

/-- `__lenso_into_result` for `SecretsInvocationError`. -/
def SecretsInvocationError.intoResult : Except SecretsInvocationError ResolveResponse → Reply
  | .ok value => .ok (.ok value)
  | .error (.domain error) => .ok (.error error)
  | .error (.runtime error) => .error error

/-- `invalid_plan` -/
def invalidPlan (detail : String) : RuntimeFailure := .invalidResolvedPlan detail

end LensoSecrets.CapabilityContract
