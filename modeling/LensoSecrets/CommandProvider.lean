import LensoSecrets.CooperativeCalls
import LensoSecrets.ProviderContract
import LensoSecrets.ReferenceSyntax
import LensoSecrets.ResolverProcess

/-!
# The command Provider

Configuration, preparation, resolution and deactivation of
`lenso-secrets-command-plugin`. The calls of one instance share the cell `prepared`;
each awaits its resolver runs as jobs that are carried out on threads of their own.
-/
namespace LensoSecrets.CommandProvider
open CapabilityContract CooperativeCalls EarlyExit OrderedMaps ProviderContract QueryPrograms
open ReferenceSyntax ResolutionTables StandardLibrary

/-- `SOURCE_PLACEHOLDER` -/
def sourcePlaceholder : String := "\x7bsource\x7d"

/-- `MAX_REFERENCE_LENGTH` -/
def maxReferenceLength : ℕ := 256

/-- `MAX_SOURCE_LENGTH` -/
def maxSourceLength : ℕ := 4096

/-- `MAX_ARGUMENTS` -/
def maxArguments : ℕ := 64

/-- `MAX_ARGUMENT_BYTES` -/
def maxArgumentBytes : ℕ := 65536

/-- `MAX_ENVIRONMENT_NAMES` -/
def maxEnvironmentNames : ℕ := 64

/-- `MAX_TIMEOUT_MS` -/
def maxTimeoutMs : ℕ := 300000

/-- `MAX_OUTPUT_BYTES` -/
def maxOutputBytes : ℕ := 1048576

def validReference (reference : String) : Bool := validPathReference maxReferenceLength reference

def validSourceName (value : String) : Bool :=
  ReferenceSyntax.validSourceName maxSourceLength value

def validEnvironmentVariable (value : String) : Bool := validUppercaseVariable value

structure CommandConfig where
  program : PathBuf
  arguments : List String
  environmentAllowlist : List String
  references : OrderedMap String String
  timeoutMs : ℕ
  maxOutputBytes : ℕ

structure PreparedProgram where
  executable : PathBuf
deriving DecidableEq

/-- `Path::is_absolute` on Unix -/
def isAbsolute (path : PathBuf) : Bool := path.head? == some 0x2F

/-- The length of all arguments together, unless one contains a NUL. -/
def argumentBytes (arguments : List String) : Option ℕ :=
  arguments.foldlM (fun total argument =>
    if containsChar argument nul then none else checkedAdd total (len argument)) 0

/-- Whether a name is invalid or stands in the allowlist a second time. -/
def rejectedAllowlist : List String → List String → Bool
  | _, [] => false
  | seen, name :: names =>
    !validEnvironmentVariable name || seen.contains name || rejectedAllowlist (name :: seen) names

def validateConfig (config : CommandConfig) : Except RuntimeFailure Unit := do
  rejectIf (!isAbsolute config.program || config.program.isEmpty)
    (invalidPlan "Secrets command program must be absolute")
  rejectIf (config.arguments.isEmpty || config.arguments.length > maxArguments)
    (invalidPlan "Secrets command arguments must contain between 1 and 64 entries")
  let argumentBytes ← (argumentBytes config.arguments).elim
    (.error (invalidPlan "Secrets command arguments are invalid")) .ok
  rejectIf (argumentBytes > maxArgumentBytes
      || config.arguments.countP (fun argument => argument == sourcePlaceholder) != 1
      || config.arguments.any (fun argument =>
        contains argument sourcePlaceholder && argument != sourcePlaceholder))
    (invalidPlan ("Secrets command arguments require exactly one standalone `" ++
      sourcePlaceholder ++ "` placeholder"))
  rejectIf (config.environmentAllowlist.length > maxEnvironmentNames)
    (invalidPlan "Secrets command environment allowlist cannot exceed 64 names")
  rejectIf (rejectedAllowlist [] config.environmentAllowlist)
    (invalidPlan "Secrets command environment allowlist contains invalid or duplicate names")
  rejectIf (config.references.isEmpty
      || config.references.entries.any (fun entry =>
        !validReference entry.1 || !validSourceName entry.2))
    (invalidPlan "Secrets command references are invalid")
  rejectIf (!withinLimit config.timeoutMs maxTimeoutMs)
    (invalidPlan "timeout_ms must be between 1 and 300000")
  rejectIf (!withinLimit config.maxOutputBytes maxOutputBytes)
    (invalidPlan "max_output_bytes must be between 1 and 1048576")

/-- What `validate_config` asks of a configuration. -/
structure Validated (config : CommandConfig) : Prop where
  absolute : isAbsolute config.program = true
  named : config.program.isEmpty = false
  arguments : config.arguments.isEmpty = false
  fewArguments : config.arguments.length ≤ maxArguments
  bytes : ∃ total, argumentBytes config.arguments = some total ∧ total ≤ maxArgumentBytes
  once : config.arguments.count sourcePlaceholder = 1
  standalone : ∀ argument ∈ config.arguments,
    contains argument sourcePlaceholder = true → argument = sourcePlaceholder
  fewNames : config.environmentAllowlist.length ≤ maxEnvironmentNames
  names : rejectedAllowlist [] config.environmentAllowlist = false
  references : config.references.isEmpty = false
  entries : ∀ entry ∈ config.references.entries,
    validReference entry.1 = true ∧ validSourceName entry.2 = true
  timeout : 1 ≤ config.timeoutMs ∧ config.timeoutMs ≤ maxTimeoutMs
  output : 1 ≤ config.maxOutputBytes ∧ config.maxOutputBytes ≤ maxOutputBytes

theorem validateConfig_eq_ok {config : CommandConfig} :
    validateConfig config = .ok () ↔ Validated config := by
  simp only [validateConfig, bind_eq_ok, rejectIf_eq_ok, Fallible.elim_eq_ok,
    Bool.or_eq_false_iff, Bool.not_eq_false', decide_eq_false_iff_not, not_lt, gt_iff_lt,
    bne_eq_false_iff_eq, List.any_eq_false, Bool.and_eq_true, bne_iff_ne, not_and, not_not,
    withinLimit_iff]
  constructor
  · intro h
    obtain ⟨_, ⟨habsolute, hnamed⟩, _, ⟨harguments, hfew⟩, total, htotal, _,
      ⟨⟨hbytes, honce⟩, hstandalone⟩, _, hfewNames, _, hnames, _, ⟨hreferences, hentries⟩, _,
      htimeout, houtput⟩ := h
    refine ⟨habsolute, hnamed, harguments, hfew, ⟨total, htotal, hbytes⟩, honce, hstandalone,
      hfewNames, hnames, hreferences, ?_, htimeout, houtput⟩
    intro entry hentry
    simpa using hentries entry hentry
  · intro h
    obtain ⟨total, htotal, hbytes⟩ := h.bytes
    refine ⟨(), ⟨h.absolute, h.named⟩, (), ⟨h.arguments, h.fewArguments⟩, total, htotal, (),
      ⟨⟨hbytes, h.once⟩, h.standalone⟩, (), h.fewNames, (), h.names, (), ⟨h.references, ?_⟩, (),
      h.timeout, h.output⟩
    intro entry hentry
    simpa using h.entries entry hentry

/-- What a call asks for: the cell `prepared`, the file system, a resolver run. -/
abbrev Ask := CooperativeCalls.Ask (Option PreparedProgram) Access CommandRequest

abbrev Calling :=
  Fallible Ask (CooperativeCalls.Ask.Answer Access.Answer (Except Unit String))

section
variable {ε : Type}

def borrowPrepared : Calling ε (Option PreparedProgram) := Fallible.query Ask.read
def replacePrepared (prepared : Option PreparedProgram) : Calling ε Unit :=
  Fallible.query (Ask.write prepared)
def lookCanonicalize (path : PathBuf) : Calling ε (Option PathBuf) :=
  Fallible.query (Ask.look (Access.canonicalize path))
def lookIsFile (path : PathBuf) : Calling ε Bool :=
  Fallible.query (Ask.look (Access.isFile path))
def awaitResolver (request : CommandRequest) : Calling ε (Except Unit String) :=
  Fallible.query (Ask.await request)

end

/-- The request `run_resolver` builds for a source. -/
def commandRequest (config : CommandConfig) (prepared : PreparedProgram) (source : String) :
    CommandRequest where
  configuredProgram := config.program
  executable := prepared.executable
  arguments := config.arguments.map (fun argument =>
    if argument == sourcePlaceholder then source else argument)
  environmentAllowlist := config.environmentAllowlist
  timeout := config.timeoutMs * 1000000
  maxOutputBytes := config.maxOutputBytes

def runResolver (config : CommandConfig) (prepared : PreparedProgram) (source : String) :
    Calling Unit String := do
  let result ← awaitResolver (commandRequest config prepared source)
  Fallible.ofExcept result

def unavailable (reference : String) : RuntimeFailure :=
  .pluginFailure ("configured command secret reference `" ++ reference ++ "` is unavailable")

/-- The verification loop of `prepare`. -/
def verifyReferences (config : CommandConfig) (prepared : PreparedProgram)
    (entries : List (String × String)) : Calling RuntimeFailure Unit :=
  entries.forM (fun entry => do
    let _ ← Fallible.mapErr (fun _ => unavailable entry.1) (runResolver config prepared entry.2))

def prepare (config : CommandConfig) : Calling RuntimeFailure Unit := do
  let executable ← Fallible.okOr (invalidPlan "Secrets command program is unavailable")
    (← lookCanonicalize config.program)
  let isFile ← lookIsFile executable
  Fallible.ofExcept (rejectIf (!isFile)
    (invalidPlan "Secrets command program is not a regular file"))
  let prepared : PreparedProgram := ⟨executable⟩
  replacePrepared (some prepared)
  verifyReferences config prepared config.references.entries

def deactivate : Calling RuntimeFailure Unit := do
  replacePrepared none
  pure ()

def resolve (config : CommandConfig) (request : ResolveRequest) :
    Calling PluginError ResolveResponse :=
  if !validReference request.reference then
    throw (.domain .invalidReference)
  else do
    let source ← Fallible.okOr (.domain .unknownReference)
      (config.references.get? request.reference)
    let prepared ← Fallible.okOr (.runtime (.unavailable capabilityId)) (← borrowPrepared)
    let value ← Fallible.mapErr (fun _ => .runtime (unavailable request.reference))
      (runResolver config prepared source)
    pure ⟨value⟩

/-- A call the Host makes on an instance. -/
inductive Invocation where
  | prepare
  | resolve (request : ResolveRequest)
  | deactivate
deriving DecidableEq

inductive Outcome where
  | prepared (result : Except RuntimeFailure Unit)
  | resolved (reply : Reply)
  | deactivated (result : Except RuntimeFailure Unit)
deriving DecidableEq

abbrev CommandCall :=
  Program Ask (CooperativeCalls.Ask.Answer Access.Answer (Except Unit String)) Outcome

def invoke (config : CommandConfig) : Invocation → CommandCall
  | .prepare => (prepare config).run >>= fun result => .done (.prepared result)
  | .resolve request => (resolve config request).run >>= fun result =>
      .done (.resolved (PluginError.intoResult result))
  | .deactivate => deactivate.run >>= fun result => .done (.deactivated result)

/-- A configuration the Host accepted. -/
structure AcceptedConfig extends CommandConfig where
  accepted : validateConfig toCommandConfig = .ok ()

namespace AcceptedConfig

theorem valid_entry (C : AcceptedConfig) {reference source : String}
    (h : C.references.get? reference = some source) :
    validReference reference = true ∧ validSourceName source = true := by
  have hv := validateConfig_eq_ok.mp C.accepted
  exact hv.entries (reference, source) (OrderedMap.get?_eq_some.mp h)

def table (C : AcceptedConfig) : Table String String where
  wellFormed := validReference
  bindings := C.references
  closed h := (C.valid_entry h).1

/-- One instance of the Plugin, starting with nothing prepared. -/
def service (C : AcceptedConfig) :
    Service (Option PreparedProgram) Access.Answer CommandRequest (Except Unit String)
      Invocation Outcome where
  initial := none
  call := invoke C.toCommandConfig
  work request := (resolverThread request).run

theorem service_call (C : AcceptedConfig) (request : Invocation) :
    C.service.call request = invoke C.toCommandConfig request := rfl

end AcceptedConfig

abbrev CommandState :=
  State (Option PreparedProgram) Access.Answer CommandRequest (Except Unit String)
    Invocation Outcome

abbrev CommandInput := Input Access.Answer Invocation

abbrev CommandWorker := Worker Access.Answer CommandRequest (Except Unit String)

theorem runResolver_eq (config : CommandConfig) (prepared : PreparedProgram) (source : String) :
    (runResolver config prepared source).run =
      .ask (.await (commandRequest config prepared source)) (fun result => .done result) := rfl

theorem verifyReferences_cons (config : CommandConfig) (prepared : PreparedProgram)
    (entry : String × String) (entries : List (String × String)) :
    (verifyReferences config prepared (entry :: entries)).run =
      .ask (.await (commandRequest config prepared entry.2)) fun result => match result with
        | .ok _ => (verifyReferences config prepared entries).run
        | .error _ => .done (.error (unavailable entry.1)) := by
  rw [verifyReferences, List.forM, Fallible.run_bind, Fallible.run_discard, Fallible.run_mapErr,
    runResolver_eq]
  simp only [Program.ask_bind, Program.done_bind]
  refine congrArg (Program.ask _) (funext fun result => ?_)
  cases result <;> rfl

theorem prepare_eq (config : CommandConfig) :
    (prepare config).run = .ask (.look (.canonicalize config.program)) fun path =>
      match path with
      | none => .done (.error (invalidPlan "Secrets command program is unavailable"))
      | some executable => .ask (.look (.isFile executable)) fun isFile =>
        if isFile then
          .ask (.write (some ⟨executable⟩)) fun _ =>
            (verifyReferences config ⟨executable⟩ config.references.entries).run
        else .done (.error (invalidPlan "Secrets command program is not a regular file")) := by
  simp only [prepare, lookCanonicalize, lookIsFile, replacePrepared, Fallible.run_query_bind,
    Fallible.okOr_bind, Fallible.ofExcept_bind]
  refine congrArg (Program.ask _) (funext fun path => ?_)
  cases path with
  | none => rfl
  | some executable =>
    refine congrArg (Program.ask _) (funext fun isFile => ?_)
    cases isFile <;> rfl

section
variable (C : AcceptedConfig) {reference source : String}

theorem resolve_eq_of_unbound (hb : C.references.get? reference = none) :
    (resolve C.toCommandConfig ⟨reference⟩).run =
      .done (.error (.domain
        (if validReference reference then .unknownReference else .invalidReference))) := by
  cases hv : validReference reference <;> simp only [resolve, hv, hb] <;> rfl

theorem resolve_eq_of_bound (hb : C.references.get? reference = some source) :
    (resolve C.toCommandConfig ⟨reference⟩).run = .ask .read fun prepared =>
      match prepared with
      | none => .done (.error (.runtime (.unavailable capabilityId)))
      | some prepared => .ask (.await (commandRequest C.toCommandConfig prepared source))
        fun result => .done ((result.map ResolveResponse.mk).mapError
          fun _ => .runtime (unavailable reference)) := by
  have hv := (C.valid_entry hb).1
  simp only [resolve, hv, hb, Bool.not_true, Bool.false_eq_true, if_false, Fallible.okOr_bind,
    borrowPrepared, Fallible.run_query_bind]
  refine congrArg (Program.ask _) (funext fun prepared => ?_)
  cases prepared with
  | none => rfl
  | some prepared =>
    dsimp only
    rw [Fallible.run_bind, Fallible.run_mapErr, runResolver_eq]
    simp only [Program.ask_bind, Program.done_bind]
    refine congrArg (Program.ask _) (funext fun result => ?_)
    cases result <;> rfl

end

/-- One reference bound to one source of a resolver that gets it as its only argument. -/
def singleReference : AcceptedConfig where
  program := bytes "/bin/resolver"
  arguments := [sourcePlaceholder]
  environmentAllowlist := []
  references := OrderedMap.ofEntries [("a", "A")]
  timeoutMs := 1000
  maxOutputBytes := 1024
  accepted := by decide

end LensoSecrets.CommandProvider
