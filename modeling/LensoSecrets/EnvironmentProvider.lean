import LensoSecrets.ProviderContract
import LensoSecrets.QueryPrograms
import LensoSecrets.ReferenceSyntax

/-!
# The Environment Provider

Configuration, preparation and resolution of `lenso-secrets-env-plugin`. A source
is read through the trait `SecretSource`; the process environment is the source of
the ordinary Plugin. The Provider answers like the table of its configuration.
-/
namespace LensoSecrets.EnvironmentProvider
open CapabilityContract EarlyExit OrderedMaps ProviderContract QueryPrograms ReferenceSyntax
open ResolutionTables StandardLibrary

/-- `MAX_REFERENCE_LENGTH` -/
def maxReferenceLength : ℕ := 256

def validReference (reference : String) : Bool :=
  validPortableReference maxReferenceLength reference

def validEnvironmentVariable (name : String) : Bool := validPortableVariable name

inductive EnvSecretsConfigError where
  | empty
  | invalidReference
  | invalidEnvironmentVariable
  | duplicateReference
deriving DecidableEq

structure EnvSecretsConfig where
  sources : OrderedMap String String

namespace EnvSecretsConfig

def sourceFor (config : EnvSecretsConfig) (reference : String) : Option String :=
  config.sources.get? reference

def validate (config : EnvSecretsConfig) : Except EnvSecretsConfigError Unit := do
  rejectIf config.sources.isEmpty .empty
  tryForEach (fun (entry : String × String) => do
    rejectIf (!validReference entry.1) .invalidReference
    rejectIf (!validEnvironmentVariable entry.2) .invalidEnvironmentVariable)
    config.sources.entries

end EnvSecretsConfig

/-- The trait `SecretSource`; its error carries nothing. -/
structure SecretSource (ι : Type) (ρ : ι → Type) where
  read : String → Fallible ι ρ Unit String

structure EnvSecretsProvider (ι : Type) (ρ : ι → Type) where
  config : EnvSecretsConfig
  source : SecretSource ι ρ

def unavailable (reference : String) : RuntimeFailure :=
  .pluginFailure ("configured secret reference `" ++ reference ++ "` is unavailable")

namespace EnvSecretsProvider
variable {ι : Type} {ρ : ι → Type}

def read (self : EnvSecretsProvider ι ρ) (reference : String) :
    Fallible ι ρ RuntimeFailure String := do
  let source ← Fallible.okOr
    (.internal "Env Secrets attempted to read an unbound reference")
    (self.config.sourceFor reference)
  Fallible.mapErr (fun _ => unavailable reference) (self.source.read source)

def verifySources (self : EnvSecretsProvider ι ρ) : Fallible ι ρ RuntimeFailure Unit :=
  self.config.sources.keys.forM (fun reference => do
    let _ ← self.read reference)

def resolve (self : EnvSecretsProvider ι ρ) (request : ResolveRequest) : Program ι ρ Reply := do
  let result ←
    if !validReference request.reference then
      pure (.error (.domain .invalidReference))
    else if (self.config.sourceFor request.reference).isNone then
      pure (.error (.domain .unknownReference))
    else do
      let value ← (self.read request.reference).run
      pure ((value.map ResolveResponse.mk).mapError SecretsInvocationError.runtime)
  pure (SecretsInvocationError.intoResult result)

end EnvSecretsProvider

/-- `std::env::var_os`: the raw value of a variable, if it is set. -/
inductive Access where
  | var (environmentVariable : String)
deriving DecidableEq

abbrev Access.Answer : Access → Type
  | .var _ => Option OsString

/-- `std::env::var`: a variable that is set to valid UTF-8. -/
def variableValue (environment : Oracle Access.Answer) (environmentVariable : String) :
    Option String :=
  (environment (.var environmentVariable)).bind fromUtf8

theorem variableValue_eq_empty {environment : Oracle Access.Answer} {name : String} :
    variableValue environment name = some "" ↔ environment (.var name) = some [] := by
  simp only [variableValue, Option.bind_eq_some_iff, fromUtf8_eq_empty, exists_eq_right]

def processEnvironment : SecretSource Access Access.Answer where
  read environmentVariable := do
    let value ← Fallible.query (.var environmentVariable)
    Fallible.okOr () (value.bind fromUtf8)

/-- A configuration the Plugin was instantiated with. -/
structure AcceptedConfig where
  config : EnvSecretsConfig
  accepted : config.validate = .ok ()

namespace AcceptedConfig

theorem valid_entry (C : AcceptedConfig) {reference name : String}
    (h : C.config.sources.get? reference = some name) :
    validReference reference = true ∧ validEnvironmentVariable name = true := by
  have ha := C.accepted
  simp only [EnvSecretsConfig.validate, bind_eq_ok, rejectIf_eq_ok, tryForEach_eq_ok] at ha
  obtain ⟨-, -, hes⟩ := ha
  simpa using hes (reference, name) (OrderedMap.get?_eq_some.mp h)

def table (C : AcceptedConfig) : Table String String where
  wellFormed := validReference
  bindings := C.config.sources
  closed h := (C.valid_entry h).1

def provider (C : AcceptedConfig) : EnvSecretsProvider Access Access.Answer :=
  ⟨C.config, processEnvironment⟩

end AcceptedConfig

variable (C : AcceptedConfig) (h : History Access.Answer) (o : Oracle Access.Answer) (t : ℕ)
variable {reference name : String}

theorem read_eq (hb : C.config.sources.get? reference = some name) :
    (C.provider.read reference).run = .ask (.var name) (fun value =>
      .done ((value.bind fromUtf8).elim (.error (unavailable reference)) .ok)) := by
  simp only [EnvSecretsProvider.read, EnvSecretsConfig.sourceFor, AcceptedConfig.provider, hb,
    processEnvironment, Fallible.okOr_bind, Fallible.run_mapErr, Fallible.run_query_bind,
    Fallible.run_okOr, Program.ask_bind, Program.done_bind]
  refine congrArg (Program.ask _) (funext fun value => ?_)
  cases value.bind fromUtf8 <;> rfl

theorem resolve_eq_of_bound (hb : C.config.sources.get? reference = some name) :
    C.provider.resolve ⟨reference⟩ = .ask (.var name) (fun value =>
      .done (replyOf (unavailable reference)
        ((value.bind fromUtf8).elim .unavailable .value))) := by
  have hv := (C.valid_entry hb).1
  have hs : (C.provider.config.sourceFor reference).isNone = false := by
    simp only [EnvSecretsConfig.sourceFor, AcceptedConfig.provider, hb, Option.isNone_some]
  simp only [EnvSecretsProvider.resolve, hv, hs, read_eq C hb, Program.ask_bind,
    Program.done_bind, Program.pure_eq_done, Bool.not_true, Bool.false_eq_true, if_false]
  refine congrArg (Program.ask _) (funext fun value => ?_)
  cases value.bind fromUtf8 <;> rfl

theorem resolve_eq_of_unbound (hb : C.config.sources.get? reference = none) :
    C.provider.resolve ⟨reference⟩ = .done (replyOf (unavailable reference)
      (if validReference reference then .unbound else .malformed)) := by
  have hs : (C.provider.config.sourceFor reference).isNone = true := by
    simp only [EnvSecretsConfig.sourceFor, AcceptedConfig.provider, hb, Option.isNone_none]
  cases hv : validReference reference <;> simp only [EnvSecretsProvider.resolve, hv, hs] <;> rfl

/-- A resolution answers like the table, whatever the environment does meanwhile. -/
theorem result_resolve (reference : String) :
    Program.result h t (C.provider.resolve ⟨reference⟩) =
      replyOf (unavailable reference) (C.table.answer (variableValue (h t)) reference) := by
  cases hb : C.config.sources.get? reference with
  | none =>
    rw [resolve_eq_of_unbound C hb, Table.answer_of_unbound (T := C.table) hb]
    rfl
  | some name =>
    rw [resolve_eq_of_bound C hb, Table.answer_of_bound (T := C.table) hb]
    rfl

/-- It reads the variable bound to the reference, and nothing for any other string. -/
theorem transcript_resolve (reference : String) :
    Program.transcript h t (C.provider.resolve ⟨reference⟩) =
      (C.config.sources.get? reference).toList.map
        (fun name => ⟨.var name, h t (.var name)⟩) := by
  cases hb : C.config.sources.get? reference with
  | none =>
    rw [resolve_eq_of_unbound C hb]
    rfl
  | some name =>
    rw [resolve_eq_of_bound C hb]
    rfl

/-- In an unchanging environment the preparation is the table's verification. -/
theorem eval_verifySources :
    Program.eval o C.provider.verifySources.run = C.table.verify unavailable (variableValue o) := by
  have hkeys : C.provider.config.sources.keys = C.config.sources.entries.map Prod.fst := rfl
  rw [EnvSecretsProvider.verifySources, eval_forM, hkeys, tryForEach_map]
  refine tryForEach_congr (fun e he => ?_)
  have hb : C.config.sources.get? e.1 = some e.2 := OrderedMap.get?_eq_some.mpr he
  have ha : (o (.var e.2)).bind fromUtf8 = variableValue o e.2 := rfl
  rw [Fallible.run_discard, read_eq C hb, Program.ask_bind, Program.eval_ask, Program.done_bind,
    Program.eval_done, ha]
  cases variableValue o e.2 <;> rfl

/-- One reference bound to one variable. -/
def singleReference : AcceptedConfig where
  config := ⟨OrderedMap.ofEntries [("a", "A")]⟩
  accepted := by decide

end LensoSecrets.EnvironmentProvider
