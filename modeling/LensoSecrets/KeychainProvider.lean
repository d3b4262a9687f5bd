import LensoSecrets.ProviderContract
import LensoSecrets.QueryPrograms
import LensoSecrets.ReferenceSyntax

/-!
# The Keychain Provider

Configuration, preparation and resolution of `lenso-secrets-keychain-plugin`. An item
is read through the trait `Keychain`; the Plugin's own keychain is the system's, which
exists on macOS only. Preparation resolves every configured reference.
-/
namespace LensoSecrets.KeychainProvider
open CapabilityContract EarlyExit OrderedMaps ProviderContract QueryPrograms ReferenceSyntax
open ResolutionTables StandardLibrary

/-- `MAX_REFERENCE_LENGTH` -/
def maxReferenceLength : ℕ := 256

/-- `MAX_SOURCE_LENGTH` -/
def maxSourceLength : ℕ := 512

def validReference (reference : String) : Bool := validPathReference maxReferenceLength reference

def validSourceName (value : String) : Bool :=
  ReferenceSyntax.validSourceName maxSourceLength value

structure KeychainConfig where
  service : String
  references : OrderedMap String String

def validateConfig (config : KeychainConfig) : Except RuntimeFailure Unit := do
  rejectIf (!validSourceName config.service) (invalidPlan "Keychain service is invalid")
  rejectIf config.references.isEmpty
    (invalidPlan "Keychain references must contain at least one mapping")
  tryForEach (fun (entry : String × String) => do
    rejectIf (!validReference entry.1) (invalidPlan "Keychain logical reference is invalid")
    rejectIf (!validSourceName entry.2) (invalidPlan "Keychain account is invalid"))
    config.references.entries

/-- The trait `Keychain`; its error carries nothing. -/
structure Keychain (ι : Type) (ρ : ι → Type) where
  read : String → String → Fallible ι ρ Unit String

def unavailable (reference : String) : RuntimeFailure :=
  .pluginFailure ("configured Keychain secret reference `" ++ reference ++ "` is unavailable")

section
variable {ι : Type} {ρ : ι → Type}

def resolve (config : KeychainConfig) (keychain : Keychain ι ρ) (reference : String) :
    Fallible ι ρ PluginError ResolveResponse :=
  if !validReference reference then
    throw (.domain .invalidReference)
  else do
    let account ← Fallible.okOr (.domain .unknownReference) (config.references.get? reference)
    let value ← Fallible.mapErr (fun _ => .runtime (unavailable reference))
      (keychain.read config.service account)
    pure ⟨value⟩

/-- How `verify_sources` reports an error of `resolve`. -/
def verificationFailure : PluginError → RuntimeFailure
  | .runtime error => error
  | .domain _ => .internal "validated Keychain reference became invalid"

def verifySources (config : KeychainConfig) (keychain : Keychain ι ρ) :
    Fallible ι ρ RuntimeFailure Unit :=
  config.references.keys.forM (fun reference => do
    let _ ← Fallible.mapErr verificationFailure (resolve config keychain reference))

end

inductive TargetOs where
  | macos
  | other
deriving DecidableEq

/-- `security_framework::passwords::get_generic_password` -/
inductive Access where
  | genericPassword (service account : String)
deriving DecidableEq

abbrev Access.Answer : Access → Type
  | .genericPassword _ _ => Option (List UInt8)

def systemKeychain : TargetOs → Keychain Access Access.Answer
  | .macos => ⟨fun service account => do
      let value ← Fallible.okOr () (← Fallible.query (.genericPassword service account))
      Fallible.okOr () (fromUtf8 value)⟩
  | .other => ⟨fun _ _ => throw ()⟩

structure KeychainSecretsPlugin where
  config : KeychainConfig
  target : TargetOs

namespace KeychainSecretsPlugin

def prepare (self : KeychainSecretsPlugin) : Fallible Access Access.Answer RuntimeFailure Unit :=
  verifySources self.config (systemKeychain self.target)

def resolve (self : KeychainSecretsPlugin) (request : ResolveRequest) :
    Program Access Access.Answer Reply := do
  let result ←
    (KeychainProvider.resolve self.config (systemKeychain self.target) request.reference).run
  pure (PluginError.intoResult result)

/-- The value of an item: on macOS, an item of valid UTF-8. -/
def itemValue (self : KeychainSecretsPlugin) (keychain : Oracle Access.Answer)
    (account : String) : Option String :=
  match self.target with
  | .macos => (keychain (.genericPassword self.config.service account)).bind fromUtf8
  | .other => none

theorem itemValue_eq_empty {self : KeychainSecretsPlugin} {keychain : Oracle Access.Answer}
    {account : String} : self.itemValue keychain account = some "" ↔
      self.target = .macos ∧ keychain (.genericPassword self.config.service account) = some [] := by
  unfold itemValue
  cases self.target with
  | macos =>
    simp only [Option.bind_eq_some_iff, fromUtf8_eq_empty, exists_eq_right, true_and]
  | other => simp

end KeychainSecretsPlugin

/-- A Plugin the Host accepted the configuration of. -/
structure AcceptedPlugin extends KeychainSecretsPlugin where
  accepted : validateConfig config = .ok ()

namespace AcceptedPlugin

theorem valid_entry (P : AcceptedPlugin) {reference account : String}
    (h : P.config.references.get? reference = some account) :
    validReference reference = true ∧ validSourceName account = true := by
  have ha := P.accepted
  simp only [validateConfig, bind_eq_ok, rejectIf_eq_ok, tryForEach_eq_ok] at ha
  obtain ⟨-, -, -, -, hes⟩ := ha
  simpa using hes (reference, account) (OrderedMap.get?_eq_some.mp h)

def table (P : AcceptedPlugin) : Table String String where
  wellFormed := validReference
  bindings := P.config.references
  closed h := (P.valid_entry h).1

end AcceptedPlugin

variable (P : AcceptedPlugin) (h : History Access.Answer) (o : Oracle Access.Answer) (t : ℕ)
variable {reference account : String}

theorem read_macos_eq (service account : String) :
    ((systemKeychain .macos).read service account).run =
      .ask (.genericPassword service account) (fun value =>
        .done ((value.bind fromUtf8).elim (.error ()) .ok)) := by
  simp only [systemKeychain, Fallible.run_query_bind]
  refine congrArg (Program.ask _) (funext fun value => ?_)
  cases value with
  | none => rfl
  | some bs => exact Fallible.run_okOr () (fromUtf8 bs)

theorem result_read (account : String) :
    Program.result h t ((systemKeychain P.target).read P.config.service account).run =
      (P.itemValue (h t) account).elim (.error ()) .ok := by
  cases ht : P.target with
  | macos =>
    rw [read_macos_eq, KeychainSecretsPlugin.itemValue, ht]
    rfl
  | other =>
    rw [KeychainSecretsPlugin.itemValue, ht]
    rfl

/-- The Keychain account a read touches: none where there is no system keychain. -/
theorem transcript_read (account : String) :
    Program.transcript h t ((systemKeychain P.target).read P.config.service account).run =
      match P.target with
      | .macos => [⟨.genericPassword P.config.service account,
          h t (.genericPassword P.config.service account)⟩]
      | .other => [] := by
  cases P.target with
  | macos =>
    rw [read_macos_eq]
    rfl
  | other => rfl

theorem resolve_eq_of_bound (hb : P.config.references.get? reference = some account) :
    (KeychainProvider.resolve P.config (systemKeychain P.target) reference).run =
      ((systemKeychain P.target).read P.config.service account).run >>= fun value =>
        .done ((value.map ResolveResponse.mk).mapError
          fun _ => .runtime (unavailable reference)) := by
  have hv := (P.valid_entry hb).1
  simp only [KeychainProvider.resolve, hv, hb, Bool.not_true, Bool.false_eq_true, if_false,
    Fallible.okOr_bind]
  rw [Fallible.run_bind, Fallible.run_mapErr, bind_assoc]
  refine congrArg _ (funext fun value => ?_)
  cases value <;> rfl

theorem resolve_eq_of_unbound (hb : P.config.references.get? reference = none) :
    (KeychainProvider.resolve P.config (systemKeychain P.target) reference).run =
      .done (.error (.domain
        (if validReference reference then .unknownReference else .invalidReference))) := by
  cases hv : validReference reference <;> simp only [KeychainProvider.resolve, hv, hb] <;> rfl

/-- A resolution answers like the table, whatever the keychain does meanwhile. -/
theorem result_resolve (reference : String) :
    Program.result h t (P.resolve ⟨reference⟩) =
      replyOf (unavailable reference) (P.table.answer (P.itemValue (h t)) reference) := by
  simp only [KeychainSecretsPlugin.resolve, Program.result_bind, Program.pure_eq_done,
    Program.result_done]
  cases hb : P.config.references.get? reference with
  | none =>
    rw [resolve_eq_of_unbound P hb, Table.answer_of_unbound (T := P.table) hb, Program.result_done]
    cases hv : validReference reference <;> simp only [AcceptedPlugin.table, hv] <;> rfl
  | some account =>
    rw [resolve_eq_of_bound P hb, Table.answer_of_bound (T := P.table) hb, Program.result_bind,
      result_read P h t account]
    cases P.itemValue (h t) account <;> rfl

/-- It reads the account bound to the reference, and nothing for any other string. -/
theorem transcript_resolve (reference : String) :
    Program.transcript h t (P.resolve ⟨reference⟩) =
      match P.config.references.get? reference, P.target with
      | some account, .macos => [⟨.genericPassword P.config.service account,
          h t (.genericPassword P.config.service account)⟩]
      | _, _ => [] := by
  simp only [KeychainSecretsPlugin.resolve, Program.transcript_bind, Program.pure_eq_done,
    Program.transcript_done, List.append_nil]
  cases hb : P.config.references.get? reference with
  | none => rw [resolve_eq_of_unbound P hb, Program.transcript_done]
  | some account =>
    rw [resolve_eq_of_bound P hb, Program.transcript_bind, transcript_read P h t account,
      Program.transcript_done, List.append_nil]
    cases P.target <;> rfl

/-- In an unchanging keychain the preparation is the table's verification. -/
theorem eval_prepare :
    Program.eval o P.prepare.run = P.table.verify unavailable (P.itemValue o) := by
  have hkeys : P.config.references.keys = P.config.references.entries.map Prod.fst := rfl
  rw [KeychainSecretsPlugin.prepare, verifySources, eval_forM, hkeys, tryForEach_map]
  refine tryForEach_congr (fun e he => ?_)
  have hb : P.config.references.get? e.1 = some e.2 := OrderedMap.get?_eq_some.mpr he
  have hr := result_read P (fun _ => o) 0 e.2
  rw [Program.result_constant] at hr
  rw [Fallible.run_discard, Program.eval_bind, Fallible.eval_mapErr, resolve_eq_of_bound P hb,
    Program.eval_bind, hr]
  cases P.itemValue o e.2 <;> rfl

/-- One reference bound to one account of the system keychain. -/
def singleReference : AcceptedPlugin where
  config := ⟨"lenso", OrderedMap.ofEntries [("a", "A")]⟩
  target := .macos
  accepted := by decide

end LensoSecrets.KeychainProvider
