import LensoSecrets.EarlyExit
import LensoSecrets.OrderedMaps
import LensoSecrets.ProgramPaths
import LensoSecrets.ResolverPipes
import LensoSecrets.StandardLibrary

/-!
# A run of the resolver process

`run_command` on its worker thread: the check of the program path, the child's
environment, the spawn, the two pipe readers, the wait with its deadline and
cancellation, and the value taken from standard output. A child is what the operating
system hands back for a spawn: its pipes and everything its polls will report.
-/
namespace LensoSecrets.CommandProvider
open ByteReaders EarlyExit OrderedMaps QueryPrograms StandardLibrary

abbrev PathBuf := OsString

/-- `ExitStatus`: the exit code, or none after a signal. -/
structure ExitStatus where
  code : Option ℕ
deriving DecidableEq

def ExitStatus.success (status : ExitStatus) : Bool := status.code == some 0

/-- What `try_wait` reports. -/
inductive TryWait where
  | running
  | exited (status : ExitStatus)
  | failed
deriving DecidableEq

/-- What one iteration of the wait loop observes; the time is in nanoseconds. -/
structure Poll where
  tryWait : TryWait
  elapsed : ℕ
  cancelled : Bool
deriving DecidableEq

/-- The 10 ms the loop sleeps. -/
def pollInterval : ℕ := 10000000

theorem pollInterval_pos : 0 < pollInterval := by decide

/-- Everything the iterations of the wait loop observe, at least an interval apart. -/
structure Polls where
  poll : ℕ → Poll
  apart : ∀ i, (poll i).elapsed + pollInterval ≤ (poll (i + 1)).elapsed

/-- A call on the child. -/
inductive ChildCall where
  | tryWait
  | kill
  | wait
deriving DecidableEq

/-- The outcome of waiting, with the calls made on the child. -/
structure Waited where
  status : Except Unit ExitStatus
  calls : List ChildCall

/-- `wait_for_child` from its `i`-th iteration. -/
def waitForChild (timeout : ℕ) (polls : Polls) (i : ℕ) : Waited :=
  match (polls.poll i).tryWait with
  | .failed => ⟨.error (), [.tryWait]⟩
  | .exited status => ⟨.ok status, [.tryWait]⟩
  | .running =>
    if _hstop : timeout ≤ (polls.poll i).elapsed ∨ (polls.poll i).cancelled = true then
      ⟨.error (), [.tryWait, .kill, .wait]⟩
    else
      let later := waitForChild timeout polls (i + 1)
      { later with calls := .tryWait :: later.calls }
termination_by timeout - (polls.poll i).elapsed
decreasing_by
  have hapart := polls.apart i
  have hpos := pollInterval_pos
  omega

/-- A child seen to have exited is reported so, whatever the time and the caller. -/
theorem waitForChild_of_exited {timeout : ℕ} {polls : Polls} {i : ℕ} {status : ExitStatus}
    (h : (polls.poll i).tryWait = .exited status) :
    waitForChild timeout polls i = ⟨.ok status, [.tryWait]⟩ := by
  rw [waitForChild, h]

/-- What is read of the child's pipes and what its polls report. Both streams come to an end; a
pipe that a descendant keeps open is found only where the threads run beside the processes. -/
structure Child where
  stdout : Option Reader
  stderr : Option Reader
  polls : Polls

/-- `Command` after `env_clear`, with null standard input and piped outputs. -/
structure Process where
  program : PathBuf
  arguments : List String
  environment : OrderedMap String OsString
deriving DecidableEq

inductive Access where
  /-- `fs::canonicalize` -/
  | canonicalize (path : PathBuf)
  /-- `Path::is_file` -/
  | isFile (path : PathBuf)
  /-- `thread::Builder::spawn`: whether the thread was started -/
  | spawnThread
  /-- `env::var_os` -/
  | varOs (name : String)
  /-- `Command::spawn` -/
  | spawn (process : Process)
  /-- The receiver: whether the worker's message arrived -/
  | receive
deriving DecidableEq

abbrev Access.Answer : Access → Type
  | .canonicalize _ => Option PathBuf
  | .isFile _ => Bool
  | .spawnThread => Bool
  | .varOs _ => Option OsString
  | .spawn _ => Option Child
  | .receive => Bool

abbrev Working := Fallible Access Access.Answer Unit

def canonicalize (path : PathBuf) : Working (Option PathBuf) :=
  Fallible.query (Access.canonicalize path)
def varOs (name : String) : Program Access Access.Answer (Option OsString) :=
  Program.query (Access.varOs name)
def spawn (process : Process) : Working (Option Child) := Fallible.query (Access.spawn process)
def spawnThread : Working Bool := Fallible.query Access.spawnThread
def receive : Working Bool := Fallible.query Access.receive

structure CommandRequest where
  configuredProgram : PathBuf
  executable : PathBuf
  arguments : List String
  environmentAllowlist : List String
  timeout : ℕ
  maxOutputBytes : ℕ
deriving DecidableEq

/-- Remove one line feed and a carriage return before it. -/
def stripLineEnding (value : String) : String :=
  if endsWith value '\n' then
    let value := pop value
    if endsWith value '\r' then pop value else value
  else value

/-- `run_command` after the spawn: its result and the calls it makes on the child. -/
def superviseChild (request : CommandRequest) (child : Child) :
    Except Unit String × List ChildCall :=
  match child.stdout, child.stderr with
  | some stdout, some stderr =>
    let stdoutReader := (readBounded stdout request.maxOutputBytes).1
    let stderrReader := (readBounded stderr request.maxOutputBytes).1
    let waited := waitForChild request.timeout child.polls 0
    let result := do
      let status ← waited.status
      let stdout ← stdoutReader
      let _ ← stderrReader
      rejectIf (!status.success || stdout.overflow) ()
      let value ← (fromUtf8 stdout.bytes).elim (.error ()) .ok
      let value := stripLineEnding value
      rejectIf value.isEmpty ()
      pure value
    (result, waited.calls)
  | _, _ => (.error (), [])

/-- The variables of the allowlist that are set. -/
def childEnvironment : List String → OrderedMap String OsString →
    Program Access Access.Answer (OrderedMap String OsString)
  | [], environment => pure environment
  | name :: names, environment => do
    let value ← varOs name
    childEnvironment names (value.elim environment (environment.insert name))

def runCommand (request : CommandRequest) : Working String := do
  let path ← Fallible.okOr () (← canonicalize request.configuredProgram)
  Fallible.ofExcept (rejectIf (path != request.executable) ())
  let environment ← ExceptT.lift
    (childEnvironment request.environmentAllowlist OrderedMap.empty)
  let child ← Fallible.okOr () (← spawn ⟨request.executable, request.arguments, environment⟩)
  Fallible.ofExcept (superviseChild request child).1

/-- The thread `run_resolver` starts and the message it receives from it. A thread that
cannot be started is a run that fails at once. -/
def resolverThread (request : CommandRequest) : Working String := do
  let started ← spawnThread
  Fallible.ofExcept (rejectIf (!started) ())
  let result ← ExceptT.lift (runCommand request).run
  let received ← receive
  Fallible.ofExcept (rejectIf (!received) ())
  Fallible.ofExcept result

theorem only_childEnvironment (names : List String) (environment : OrderedMap String OsString) :
    Only (fun q => ∃ name, q = .varOs name) (childEnvironment names environment) := by
  induction names generalizing environment with
  | nil => exact .done _
  | cons name names ih => exact .ask ⟨name, rfl⟩ (fun value => ih _)

theorem runCommand_eq (request : CommandRequest) :
    (runCommand request).run = .ask (.canonicalize request.configuredProgram) fun path =>
      if path = some request.executable then
        childEnvironment request.environmentAllowlist OrderedMap.empty >>= fun environment =>
          .ask (.spawn ⟨request.executable, request.arguments, environment⟩) fun child =>
            .done (child.elim (.error ()) fun child => (superviseChild request child).1)
      else .done (.error ()) := by
  simp only [runCommand, canonicalize, spawn, Fallible.run_query_bind,
    Fallible.okOr_bind, Fallible.ofExcept_bind, Fallible.lift_bind, Fallible.run_ofExcept]
  refine congrArg (Program.ask _) (funext fun path => ?_)
  cases path with
  | none => rfl
  | some path =>
    dsimp only
    by_cases hp : path = request.executable
    · subst hp
      rw [if_pos rfl, bne_self_eq_false]
      refine congrArg (childEnvironment _ _ >>= ·) (funext fun environment => ?_)
      refine congrArg (Program.ask _) (funext fun child => ?_)
      cases child <;> rfl
    · have hne : (path != request.executable) = true := bne_iff_ne.mpr hp
      rw [if_neg (fun h => hp (Option.some.inj h)), hne]
      rfl

section
variable (request : CommandRequest) (h : History Access.Answer) (t : ℕ)

/-- The process a run started at moment `t` spawns after its check of the program. -/
def spawnedProcess : Process where
  program := request.executable
  arguments := request.arguments
  environment :=
    Program.result h (t + 1) (childEnvironment request.environmentAllowlist OrderedMap.empty)

/-- The moment at which it does. -/
def spawnMoment : ℕ :=
  t + 1 + (Program.transcript h (t + 1)
    (childEnvironment request.environmentAllowlist OrderedMap.empty)).length

theorem result_runCommand : Program.result h t (runCommand request).run =
    if h t (.canonicalize request.configuredProgram) = some request.executable then
      (h (spawnMoment request h t) (.spawn (spawnedProcess request h t))).elim (.error ())
        fun child => (superviseChild request child).1
    else .error () := by
  rw [runCommand_eq, Program.result_ask]
  split_ifs
  · rw [Program.result_bind]
    rfl
  · rfl

variable {request h t} {process : Process} {child : Option Child}

/-- A run spawns this process and no other. -/
theorem spawn_mem_transcript :
    ⟨.spawn process, child⟩ ∈ Program.transcript h t (runCommand request).run ↔
      h t (.canonicalize request.configuredProgram) = some request.executable ∧
        process = spawnedProcess request h t ∧
        child = h (spawnMoment request h t) (.spawn process) := by
  rw [runCommand_eq, Program.transcript_ask]
  split_ifs with hpath
  · rw [hpath, Program.transcript_bind]
    constructor
    · intro hspawn
      rcases List.mem_cons.mp hspawn with hfirst | hspawn
      · cases hfirst
      · rcases List.mem_append.mp hspawn with hname | hlast
        · have hnames := only_childEnvironment request.environmentAllowlist OrderedMap.empty
          obtain ⟨name, hquery⟩ := hnames.transcript h (t + 1) _ hname
          contradiction
        · rcases List.mem_cons.mp hlast with hlast | hnone
          · cases hlast
            exact ⟨rfl, rfl, rfl⟩
          · cases hnone
    · intro hspawned
      obtain ⟨-, rfl, rfl⟩ := hspawned
      exact List.mem_cons_of_mem _ (List.mem_append_right _ List.mem_cons_self)
  · constructor
    · intro hspawn
      rcases List.mem_cons.mp hspawn with hfirst | hnone
      · cases hfirst
      · cases hnone
    · intro hspawned
      exact absurd hspawned.1 hpath

end

theorem resolverThread_eq (request : CommandRequest) :
    (resolverThread request).run = .ask .spawnThread fun started =>
      if started then
        (runCommand request).run >>= fun result =>
          .ask .receive fun received => .done (if received then result else .error ())
      else .done (.error ()) := by
  simp only [resolverThread, spawnThread, receive, Fallible.run_query_bind,
    Fallible.ofExcept_bind, Fallible.lift_bind, Fallible.run_ofExcept]
  refine congrArg (Program.ask _) (funext fun started => ?_)
  cases started with
  | false => rfl
  | true =>
    have hstarted : rejectIf (!true) () = .ok () := rfl
    rw [if_pos rfl, hstarted]
    dsimp only
    refine congrArg _ (funext fun result => congrArg (Program.ask _) (funext fun received => ?_))
    cases received <;> rfl

/-- A run spawns only the request's program, with the request's arguments. -/
theorem only_resolverThread (request : CommandRequest) :
    Only (fun q => ∀ process, q = .spawn process →
      process.program = request.executable ∧ process.arguments = request.arguments)
      (resolverThread request).run := by
  rw [resolverThread_eq]
  refine .ask (by simp) (fun started => ?_)
  cases started with
  | false => exact .done _
  | true =>
    rw [if_pos rfl]
    refine Only.bind ?_ (fun result => .ask (by simp) (fun received => .done _))
    rw [runCommand_eq]
    refine .ask (by simp) (fun path => ?_)
    split_ifs
    · refine Only.bind ?_ (fun environment => .ask (by simp) (fun child => .done _))
      refine (only_childEnvironment _ _).mono ?_
      intro q hq process hprocess
      obtain ⟨name, rfl⟩ := hq
      contradiction
    · exact .done _

end LensoSecrets.CommandProvider
