import LensoSecrets.DrainedPipes
import LensoSecrets.ResolverWaits
import Mathlib.Logic.Function.Basic

/-!
# The threads of a resolver run

After the spawn a child, two threads of `read_bounded` and the thread of `wait_for_child`
run at once. Whatever the order of their steps, the run returns what `superviseChild`
returns for a child with the pipes that were read and the polls that were made.
-/
namespace LensoSecrets.CommandProvider
open ByteReaders EarlyExit QueryPrograms StandardLibrary

inductive Stream where
  | stdout
  | stderr
deriving DecidableEq

/-- Where `run_command` stands after the spawn. -/
inductive Stage where
  | polling
  | reaping
  | joiningStdout (status : ExitStatus)
  | joiningStderr (status : ExitStatus) (stdout : BoundedOutput)
  | returned (result : Except Unit String)

/-- The child's exit if it has exited, the pipes with their threads, and the polls made. -/
structure Supervision where
  child : Option ExitStatus
  pipe : Stream → Pipe
  polls : List Poll
  stage : Stage

/-- One step of the child or its descendants, of a reader thread or of the waiting thread. -/
inductive Move where
  | write (stream : Stream) (bytes : List UInt8)
  | close (stream : Stream)
  | exit (status : ExitStatus)
  | read (stream : Stream) (serving : Serving)
  | poll (elapsed : ℕ) (failed cancelled killed : Bool)
  | reap
  | join

/-- `run_command` after both joins. -/
def outputValue (status : ExitStatus) (stdout : BoundedOutput) : Except Unit String := do
  rejectIf (!status.success || stdout.overflow) ()
  let value ← (fromUtf8 stdout.bytes).elim (.error ()) .ok
  let value := stripLineEnding value
  rejectIf value.isEmpty ()
  pure value

namespace Supervision

def start : Supervision := ⟨none, fun _ => .fresh, [], .polling⟩

def setPipe (s : Supervision) (stream : Stream) (p : Pipe) : Supervision :=
  { s with pipe := Function.update s.pipe stream p }

/-- `try_wait` -/
def tryWait (s : Supervision) (failed : Bool) : TryWait :=
  if failed then .failed else s.child.elim .running .exited

/-- The loop has slept since its last poll. -/
def rested (s : Supervision) (elapsed : ℕ) : Bool :=
  s.polls.getLast?.all fun last => decide (last.elapsed + pollInterval ≤ elapsed)

/-- One iteration of the wait loop. -/
def polled (timeout : ℕ) (s : Supervision) (poll : Poll) (killed : Bool) : Supervision :=
  match poll.tryWait with
  | .failed => { s with polls := s.polls ++ [poll], stage := .returned (.error ()) }
  | .exited status => { s with polls := s.polls ++ [poll], stage := .joiningStdout status }
  | .running =>
    if timeout ≤ poll.elapsed ∨ poll.cancelled = true then
      { s with
        polls := s.polls ++ [poll]
        stage := .reaping
        child := if killed then some ⟨none⟩ else s.child }
    else { s with polls := s.polls ++ [poll] }

/-- A join returns when the thread has. -/
def joined (s : Supervision) : Supervision :=
  match s.stage with
  | .joiningStdout status => match (s.pipe .stdout).result with
    | some (.ok stdout) => { s with stage := .joiningStderr status stdout }
    | some (.error _) => { s with stage := .returned (.error ()) }
    | none => s
  | .joiningStderr status stdout => match (s.pipe .stderr).result with
    | some (.ok _) => { s with stage := .returned (outputValue status stdout) }
    | some (.error _) => { s with stage := .returned (.error ()) }
    | none => s
  | _ => s

def step (request : CommandRequest) (capacity : ℕ) (s : Supervision) : Move → Supervision
  | .write stream bytes => s.setPipe stream ((s.pipe stream).write capacity bytes)
  | .close stream => s.setPipe stream (s.pipe stream).close
  | .exit status => { s with child := some (s.child.getD status) }
  | .read stream serving =>
    s.setPipe stream ((s.pipe stream).turn request.maxOutputBytes serving)
  | .poll elapsed failed cancelled killed => match s.stage with
    | .polling =>
      if s.rested elapsed then
        s.polled request.timeout ⟨s.tryWait failed, elapsed, cancelled⟩ killed
      else s
    | _ => s
  | .reap => match s.stage, s.child with
    | .reaping, some _ => { s with stage := .returned (.error ()) }
    | _, _ => s
  | .join => s.joined

def run (request : CommandRequest) (capacity : ℕ) (moves : List Move) : Supervision :=
  moves.foldl (step request capacity) start

end Supervision

/-- Successive polls are an interval apart. -/
def Apart (polls : List Poll) : Prop :=
  ∀ (i : ℕ) (p q : Poll), polls[i]? = some p → polls[i + 1]? = some q →
    p.elapsed + pollInterval ≤ q.elapsed

/-- The polls made, and after them polls that find the child running. -/
def continued (polls : List Poll) : ℕ → Poll
  | 0 => polls[0]?.getD ⟨.running, 0, false⟩
  | i + 1 => polls[i + 1]?.getD ⟨.running, (continued polls i).elapsed + pollInterval, false⟩

theorem continued_of_getElem? {polls : List Poll} {i : ℕ} {p : Poll} (h : polls[i]? = some p) :
    continued polls i = p := by
  cases i with
  | zero => rw [continued, h, Option.getD_some]
  | succ i => rw [continued, h, Option.getD_some]

/-- A sequence of polls as the wait loop meets them. -/
def madePolls (polls : List Poll) (h : Apart polls) : Polls where
  poll := continued polls
  apart i := by
    cases hq : polls[i + 1]? with
    | none =>
      rw [continued, hq]
      exact Nat.le_refl _
    | some q =>
      have hlt : i + 1 < polls.length := (List.getElem?_eq_some_iff.mp hq).1
      obtain ⟨p, hp⟩ : ∃ p, polls[i]? = some p := ⟨_, List.getElem?_eq_getElem (by omega)⟩
      rw [continued_of_getElem? hp, continued_of_getElem? hq]
      exact h i _ _ hp hq

theorem Apart.snoc {polls : List Poll} (h : Apart polls) {last : Poll}
    (hlast : ∀ p, polls.getLast? = some p → p.elapsed + pollInterval ≤ last.elapsed) :
    Apart (polls ++ [last]) := by
  intro i p q hp hq
  have hlt : i + 1 < polls.length + 1 := by
    have hlt := (List.getElem?_eq_some_iff.mp hq).1
    rwa [List.length_append, List.length_singleton] at hlt
  rw [List.getElem?_append_left (by omega)] at hp
  by_cases hi : i + 1 < polls.length
  · rw [List.getElem?_append_left hi] at hq
    exact h i p q hp hq
  · have hlength : polls.length = i + 1 := by omega
    rw [← hlength, List.getElem?_concat_length, Option.some.injEq] at hq
    subst hq
    apply hlast
    rw [List.getLast?_eq_getElem?, hlength]
    exact hp

/-- The poll that ended the loop, after polls at which it went on. -/
structure LastMade (timeout : ℕ) (polls : List Poll) (last : Poll) : Prop where
  earlier : ∃ first, polls = first ++ [last] ∧ ∀ p ∈ first, GoesOn timeout p
  stops : ¬ GoesOn timeout last

theorem LastMade.status_eq {timeout : ℕ} {polls : List Poll} {last : Poll}
    (h : LastMade timeout polls last) (happart : Apart polls) :
    (waitForChild timeout (madePolls polls happart) 0).status = (lastWaited last).status := by
  obtain ⟨⟨first, hpolls, hfirst⟩, hstops⟩ := h
  have hlast : continued polls first.length = last := by
    apply continued_of_getElem?
    rw [hpolls, List.getElem?_concat_length]
  have hn : LastPoll timeout (madePolls polls happart) first.length := by
    refine ⟨?_, ?_⟩
    · intro i hi
      have hget : polls[i]? = some first[i] := by
        rw [hpolls, List.getElem?_append_left hi, List.getElem?_eq_getElem hi]
      change GoesOn timeout (continued polls i)
      rw [continued_of_getElem? hget]
      exact hfirst _ (List.getElem_mem hi)
    · change ¬ GoesOn timeout (continued polls first.length)
      rw [hlast]
      exact hstops
  rw [hn.status_eq]
  exact congrArg (fun p => (lastWaited p).status) hlast

/-- What is known at each stage of `run_command`. -/
inductive StageSound (timeout : ℕ) (s : Supervision) : Stage → Prop
  | polling (hgoes : ∀ p ∈ s.polls, GoesOn timeout p) : StageSound timeout s .polling
  | reaping {last : Poll} (hlast : LastMade timeout s.polls last)
      (hrunning : last.tryWait = .running) : StageSound timeout s .reaping
  | joiningStdout {last : Poll} {status : ExitStatus} (hlast : LastMade timeout s.polls last)
      (hexited : last.tryWait = .exited status) (hchild : s.child = some status) :
      StageSound timeout s (.joiningStdout status)
  | joiningStderr {last : Poll} {status : ExitStatus} {stdout : BoundedOutput}
      (hlast : LastMade timeout s.polls last) (hexited : last.tryWait = .exited status)
      (hchild : s.child = some status) (hstdout : (s.pipe .stdout).result = some (.ok stdout)) :
      StageSound timeout s (.joiningStderr status stdout)
  | abandoned {last : Poll} (hlast : LastMade timeout s.polls last)
      (hstatus : (lastWaited last).status = .error ()) :
      StageSound timeout s (.returned (.error ()))
  | brokenStdout {last : Poll} {status : ExitStatus} (hlast : LastMade timeout s.polls last)
      (hexited : last.tryWait = .exited status)
      (hstdout : (s.pipe .stdout).result = some (.error ())) :
      StageSound timeout s (.returned (.error ()))
  | brokenStderr {last : Poll} {status : ExitStatus} {stdout : BoundedOutput}
      (hlast : LastMade timeout s.polls last) (hexited : last.tryWait = .exited status)
      (hstdout : (s.pipe .stdout).result = some (.ok stdout))
      (hstderr : (s.pipe .stderr).result = some (.error ())) :
      StageSound timeout s (.returned (.error ()))
  | finished {last : Poll} {status : ExitStatus} {stdout stderr : BoundedOutput}
      (hlast : LastMade timeout s.polls last) (hexited : last.tryWait = .exited status)
      (hchild : s.child = some status) (hstdout : (s.pipe .stdout).result = some (.ok stdout))
      (hstderr : (s.pipe .stderr).result = some (.ok stderr)) :
      StageSound timeout s (.returned (outputValue status stdout))

structure Supervision.Sound (request : CommandRequest) (capacity : ℕ) (s : Supervision) :
    Prop where
  pipe : ∀ stream, (s.pipe stream).Sound request.maxOutputBytes capacity
  apart : Apart s.polls
  stage : StageSound request.timeout s s.stage

/-- Exits are final, and so is what a thread has returned. -/
structure Later (s s' : Supervision) : Prop where
  polls : s'.polls = s.polls
  child : ∀ status, s.child = some status → s'.child = some status
  result : ∀ stream result, (s.pipe stream).result = some result →
    (s'.pipe stream).result = some result

theorem StageSound.later {timeout : ℕ} {s s' : Supervision} {stage : Stage}
    (h : StageSound timeout s stage) (hl : Later s s') : StageSound timeout s' stage := by
  cases h with
  | polling hgoes => exact .polling (hl.polls ▸ hgoes)
  | reaping hlast hrunning => exact .reaping (hl.polls ▸ hlast) hrunning
  | joiningStdout hlast hexited hchild =>
    exact .joiningStdout (hl.polls ▸ hlast) hexited (hl.child _ hchild)
  | joiningStderr hlast hexited hchild hstdout =>
    exact .joiningStderr (hl.polls ▸ hlast) hexited (hl.child _ hchild) (hl.result _ _ hstdout)
  | abandoned hlast hstatus => exact .abandoned (hl.polls ▸ hlast) hstatus
  | brokenStdout hlast hexited hstdout =>
    exact .brokenStdout (hl.polls ▸ hlast) hexited (hl.result _ _ hstdout)
  | brokenStderr hlast hexited hstdout hstderr =>
    exact .brokenStderr (hl.polls ▸ hlast) hexited (hl.result _ _ hstdout)
      (hl.result _ _ hstderr)
  | finished hlast hexited hchild hstdout hstderr =>
    exact .finished (hl.polls ▸ hlast) hexited (hl.child _ hchild) (hl.result _ _ hstdout)
      (hl.result _ _ hstderr)

namespace Supervision

variable {request : CommandRequest} {capacity : ℕ} {s : Supervision}

@[simp] theorem setPipe_stage (s : Supervision) (stream : Stream) (p : Pipe) :
    (s.setPipe stream p).stage = s.stage := rfl
@[simp] theorem setPipe_pipe_self (s : Supervision) (stream : Stream) (p : Pipe) :
    (s.setPipe stream p).pipe stream = p := Function.update_self _ _ _
theorem setPipe_pipe_of_ne (s : Supervision) {stream other : Stream} (h : other ≠ stream)
    (p : Pipe) : (s.setPipe stream p).pipe other = s.pipe other := Function.update_of_ne h _ _

theorem sound_start (request : CommandRequest) (capacity : ℕ) : Sound request capacity start :=
  ⟨fun _ => Pipe.sound_fresh _ _, fun i p q hp _ => by simp [start] at hp,
    .polling (by simp [start])⟩

/-- A step on one pipe that keeps what its thread has returned. -/
theorem Sound.setPipe (h : Sound request capacity s) {stream : Stream} {p : Pipe}
    (hp : p.Sound request.maxOutputBytes capacity)
    (hresult : ∀ result, (s.pipe stream).result = some result → p.result = some result) :
    Sound request capacity (s.setPipe stream p) := by
  refine ⟨?_, h.apart, h.stage.later ⟨rfl, fun _ hc => hc, ?_⟩⟩
  · intro other
    by_cases hother : other = stream
    · rw [hother, setPipe_pipe_self]
      exact hp
    · rw [setPipe_pipe_of_ne s hother]
      exact h.pipe other
  · intro other result hr
    by_cases hother : other = stream
    · rw [hother, setPipe_pipe_self]
      rw [hother] at hr
      exact hresult result hr
    · rw [setPipe_pipe_of_ne s hother]
      exact hr

theorem le_of_rested {elapsed : ℕ} (h : s.rested elapsed = true) {p : Poll}
    (hp : s.polls.getLast? = some p) : p.elapsed + pollInterval ≤ elapsed := by
  rw [rested, hp, Option.all_some, decide_eq_true_iff] at h
  exact h

theorem Sound.polled (h : Sound request capacity s) (hstage : s.stage = .polling) {poll : Poll}
    (hrested : s.rested poll.elapsed = true)
    (htry : ∀ status, poll.tryWait = .exited status → s.child = some status) (killed : Bool) :
    Sound request capacity (s.polled request.timeout poll killed) := by
  have happart : Apart (s.polls ++ [poll]) := by
    apply h.apart.snoc
    intro p hp
    exact le_of_rested hrested hp
  have hgoes : ∀ p ∈ s.polls, GoesOn request.timeout p := by
    have hs := h.stage
    rw [hstage] at hs
    cases hs with
    | polling hgoes => exact hgoes
  have hlast : ¬ GoesOn request.timeout poll →
      LastMade request.timeout (s.polls ++ [poll]) poll := fun hstops => ⟨⟨_, rfl, hgoes⟩, hstops⟩
  unfold Supervision.polled
  cases hpoll : poll.tryWait with
  | failed =>
    refine ⟨h.pipe, happart, ?_⟩
    refine .abandoned (hlast fun hg => ?_) ?_
    · rw [hg.1] at hpoll
      cases hpoll
    · rw [lastWaited, hpoll]
  | exited status =>
    refine ⟨h.pipe, happart, ?_⟩
    refine .joiningStdout (hlast fun hg => ?_) hpoll (htry status hpoll)
    rw [hg.1] at hpoll
    cases hpoll
  | running =>
    dsimp only
    by_cases hlate : request.timeout ≤ poll.elapsed ∨ poll.cancelled = true
    · rw [if_pos hlate]
      refine ⟨h.pipe, happart, ?_⟩
      refine .reaping (hlast fun hg => ?_) hpoll
      rcases hlate with htime | hcancelled
      · exact absurd hg.2.1 (Nat.not_lt.mpr htime)
      · rw [hg.2.2] at hcancelled
        cases hcancelled
    · rw [if_neg hlate]
      refine ⟨h.pipe, happart, ?_⟩
      dsimp only
      rw [hstage]
      refine .polling ?_
      intro p hp
      rcases List.mem_append.mp hp with hp | hp
      · exact hgoes p hp
      · rw [List.mem_singleton.mp hp]
        rw [not_or, Nat.not_le, Bool.not_eq_true] at hlate
        exact ⟨hpoll, hlate⟩

theorem Sound.joined (h : Sound request capacity s) : Sound request capacity s.joined := by
  have hs := h.stage
  unfold Supervision.joined
  cases hstage : s.stage with
  | polling => exact h
  | reaping => exact h
  | returned result => exact h
  | joiningStdout status =>
    rw [hstage] at hs
    dsimp only
    cases hs with
    | joiningStdout hlast hexited hchild =>
      cases hr : (s.pipe .stdout).result with
      | none => exact h
      | some result =>
        cases result with
        | ok stdout => exact ⟨h.pipe, h.apart, .joiningStderr hlast hexited hchild hr⟩
        | error e => exact ⟨h.pipe, h.apart, .brokenStdout hlast hexited hr⟩
  | joiningStderr status stdout =>
    rw [hstage] at hs
    dsimp only
    cases hs with
    | joiningStderr hlast hexited hchild hstdout =>
      cases hr : (s.pipe .stderr).result with
      | none => exact h
      | some result =>
        cases result with
        | ok stderr => exact ⟨h.pipe, h.apart, .finished hlast hexited hchild hstdout hr⟩
        | error e => exact ⟨h.pipe, h.apart, .brokenStderr hlast hexited hstdout hr⟩

theorem exited_of_tryWait {failed : Bool} {status : ExitStatus}
    (h : s.tryWait failed = .exited status) : s.child = some status := by
  rw [tryWait] at h
  split_ifs at h
  cases hchild : s.child with
  | none =>
    rw [hchild] at h
    cases h
  | some status' =>
    rw [hchild] at h
    cases h
    rfl

theorem Sound.step (h : Sound request capacity s) (move : Move) :
    Sound request capacity (s.step request capacity move) := by
  cases move with
  | write stream bytes =>
    refine h.setPipe ((h.pipe stream).write bytes) ?_
    intro result hr
    unfold Pipe.write
    split_ifs
    · exact hr
    · exact hr
  | close stream => exact h.setPipe (h.pipe stream).close fun _ hr => hr
  | exit status =>
    refine ⟨h.pipe, h.apart, h.stage.later ⟨rfl, ?_, fun _ _ hr => hr⟩⟩
    intro status' hc
    change some (s.child.getD status) = some status'
    rw [hc, Option.getD_some]
  | read stream serving =>
    refine h.setPipe ((h.pipe stream).turn serving) ?_
    intro result hr
    rw [Pipe.turn_of_result hr]
    exact hr
  | poll elapsed failed cancelled killed =>
    unfold Supervision.step
    cases hstage : s.stage with
    | polling =>
      dsimp only
      split_ifs with hrested
      · exact h.polled hstage hrested (fun _ he => exited_of_tryWait he) killed
      · exact h
    | reaping => exact h
    | joiningStdout status => exact h
    | joiningStderr status stdout => exact h
    | returned result => exact h
  | reap =>
    have hs := h.stage
    unfold Supervision.step
    cases hstage : s.stage with
    | reaping =>
      cases hchild : s.child with
      | none => exact h
      | some status =>
        rw [hstage] at hs
        cases hs with
        | reaping hlast hrunning =>
          refine ⟨h.pipe, h.apart, .abandoned hlast ?_⟩
          rw [lastWaited, hrunning]
    | polling => exact h
    | joiningStdout status => exact h
    | joiningStderr status stdout => exact h
    | returned result => exact h
  | join => exact h.joined

theorem sound_run (request : CommandRequest) (capacity : ℕ) (moves : List Move) :
    Sound request capacity (run request capacity moves) := by
  unfold run
  have hstart := sound_start request capacity
  generalize start = s at hstart
  induction moves generalizing s with
  | nil => exact hstart
  | cons move moves ih => exact ih _ (hstart.step move)

end Supervision

/-- The child that was observed: the reads of its pipes and the polls made. -/
def Supervision.observed {request : CommandRequest} {capacity : ℕ} {s : Supervision}
    (h : s.Sound request capacity) : Child where
  stdout := some (s.pipe .stdout).reads
  stderr := some (s.pipe .stderr).reads
  polls := madePolls s.polls h.apart

/-- The child agrees with everything the run has observed. -/
structure Observed (s : Supervision) (child : Child) : Prop where
  stdout : child.stdout = some (s.pipe .stdout).reads
  stderr : child.stderr = some (s.pipe .stderr).reads
  polls : ∀ (i : ℕ) (p : Poll), s.polls[i]? = some p → child.polls.poll i = p

/-- If the run has returned, a child it may have observed gives the same result when its
pipes are read one after the other. -/
def RefinesSupervision (request : CommandRequest) (s : Supervision) : Prop :=
  ∀ result, s.stage = .returned result →
    ∃ child, Observed s child ∧ (superviseChild request child).1 = result

namespace Supervision

variable {request : CommandRequest} {capacity : ℕ} {s : Supervision}

theorem observed_spec (h : s.Sound request capacity) : Observed s (observed h) :=
  ⟨rfl, rfl, fun _ _ hp => continued_of_getElem? hp⟩

/-- `superviseChild` on the observed child, step by step. -/
theorem superviseChild_observed (h : s.Sound request capacity) :
    (superviseChild request (observed h)).1 = (do
      let status ← (waitForChild request.timeout (madePolls s.polls h.apart) 0).status
      let stdout ← (readBounded (s.pipe .stdout).reads request.maxOutputBytes).1
      let _ ← (readBounded (s.pipe .stderr).reads request.maxOutputBytes).1
      outputValue status stdout) := rfl

theorem Sound.returned_eq (h : s.Sound request capacity) {result : Except Unit String}
    (hreturned : s.stage = .returned result) :
    (superviseChild request (observed h)).1 = result := by
  have hstage := h.stage
  rw [hreturned] at hstage
  have hexit : ∀ {last : Poll} {status : ExitStatus},
      LastMade request.timeout s.polls last → last.tryWait = .exited status →
      (waitForChild request.timeout (madePolls s.polls h.apart) 0).status = .ok status := by
    intro last status hlast hexited
    rw [hlast.status_eq h.apart, lastWaited_status_eq_ok]
    exact hexited
  rw [superviseChild_observed]
  cases hstage with
  | abandoned hlast hstatus =>
    rw [hlast.status_eq h.apart, hstatus]
    rfl
  | brokenStdout hlast hexited hstdout =>
    rw [hexit hlast hexited, (h.pipe .stdout).readBounded_eq hstdout]
    rfl
  | brokenStderr hlast hexited hstdout hstderr =>
    rw [hexit hlast hexited, (h.pipe .stdout).readBounded_eq hstdout,
      (h.pipe .stderr).readBounded_eq hstderr]
    rfl
  | finished hlast hexited hchild hstdout hstderr =>
    rw [hexit hlast hexited, (h.pipe .stdout).readBounded_eq hstdout,
      (h.pipe .stderr).readBounded_eq hstderr]
    rfl

end Supervision

/-- However the child's writes, the two reader threads and the polls interleave, a run that
has returned has returned what the sequential run makes of what it observed. -/
theorem threads_refine_supervision (request : CommandRequest) (capacity : ℕ)
    (moves : List Move) :
    RefinesSupervision request (Supervision.run request capacity moves) := by
  have h := Supervision.sound_run request capacity moves
  intro result hreturned
  exact ⟨Supervision.observed h, Supervision.observed_spec h, h.returned_eq hreturned⟩

/-- The thread keeps the first bytes of those it has read, and the bytes read with those
still in the pipe are the bytes written. -/
def Retains (limit capacity : ℕ) (p : Pipe) : Prop :=
  ∃ read, p.written = read ++ p.buffered ∧ p.buffered.length ≤ capacity ∧
    p.bytes = read.take limit ∧ p.overflow = decide (limit < read.length)

/-- A value that has been returned is all that was ever written to standard output, but for
one line ending, after both pipes were closed and the child had exited successfully. -/
def WholeOutput (request : CommandRequest) (s : Supervision) : Prop :=
  ∀ value, s.stage = .returned (.ok value) →
    (∃ status, s.child = some status ∧ status.success = true) ∧
    (∀ stream, (s.pipe stream).writers = false ∧ (s.pipe stream).buffered = []) ∧
    (s.pipe .stdout).written.length ≤ request.maxOutputBytes ∧
    ∃ text, bytes text = (s.pipe .stdout).written ∧ HasLineEnding text value ∧ value ≠ ""

theorem outputValue_eq_ok {status : ExitStatus} {stdout : BoundedOutput} {value : String}
    (h : outputValue status stdout = .ok value) :
    status.success = true ∧ stdout.overflow = false ∧
      ∃ text, bytes text = stdout.bytes ∧ HasLineEnding text value ∧ value ≠ "" := by
  simp only [outputValue, bind_eq_ok, rejectIf_eq_ok, Bool.or_eq_false_iff,
    Bool.not_eq_false', Fallible.elim_eq_ok] at h
  obtain ⟨_, ⟨hsuccess, hfits⟩, text, htext, _, hempty, hvalue⟩ := h
  obtain rfl := Except.ok.inj hvalue
  refine ⟨hsuccess, hfits, text, fromUtf8_eq_some.mp htext, stripLineEnding_eq_iff.mp rfl, ?_⟩
  simpa using hempty

/-- In every state each thread retains no more than the limit of what it has read, and no
byte is lost, repeated or out of order; a returned value is the whole standard output. -/
theorem threads_keep_output (request : CommandRequest) (capacity : ℕ) (moves : List Move) :
    (∀ stream, Retains request.maxOutputBytes capacity
      ((Supervision.run request capacity moves).pipe stream)) ∧
    WholeOutput request (Supervision.run request capacity moves) := by
  have h := Supervision.sound_run request capacity moves
  generalize Supervision.run request capacity moves = s at h
  refine ⟨?_, ?_⟩
  · intro stream
    have hp := h.pipe stream
    exact ⟨content (s.pipe stream).reads, hp.split, hp.room, hp.keeps.bytes, hp.keeps.overflow⟩
  · intro value hreturned
    have hstage := h.stage
    rw [hreturned] at hstage
    generalize hok : Except.ok value = result at hstage
    cases hstage with
    | abandoned hlast hstatus => cases hok
    | brokenStdout hlast hexited hstdout => cases hok
    | brokenStderr hlast hexited hstdout hstderr => cases hok
    | finished hlast hexited hchild hstdout hstderr =>
      obtain ⟨hsuccess, hfits, text, htext, hending, hne⟩ := outputValue_eq_ok hok.symm
      obtain ⟨hclosed, hempty, hbytes, hoverflow⟩ := (h.pipe .stdout).whole_of_ok hstdout
      obtain ⟨hclosed', hempty', -, -⟩ := (h.pipe .stderr).whole_of_ok hstderr
      rw [hfits] at hoverflow
      have hlength : (s.pipe .stdout).written.length ≤ request.maxOutputBytes :=
        Nat.le_of_not_lt (of_decide_eq_false hoverflow.symm)
      rw [List.take_of_length_le hlength] at hbytes
      refine ⟨⟨_, hchild, hsuccess⟩, ?_, hlength, text, htext.trans hbytes, hending, hne⟩
      intro stream
      cases stream with
      | stdout => exact ⟨hclosed, hempty⟩
      | stderr => exact ⟨hclosed', hempty'⟩

/-- A child prints `s` and a line feed, and exits before the second poll. -/
example : (Supervision.run printingRequest 16 [.write .stdout [0x73, 0x0A],
    .poll 0 false false false, .read .stdout (.bytes 1), .exit ⟨some 0⟩, .close .stderr,
    .read .stdout (.bytes 5), .close .stdout, .read .stderr .atEnd,
    .poll pollInterval false false false, .read .stdout .atEnd, .join, .join]).stage =
      .returned (.ok "s") := by rfl

end LensoSecrets.CommandProvider
