import LensoSecrets.LiveServices
import LensoSecrets.ResolverProgress
import LensoSecrets.ResolverRuns

/-!
# Calls together with the threads of their runs

The spawn of a resolver run starts the threads that supervise the child, and the run goes on
with the child they have observed once they have returned. All that can keep a call suspended
is a process: a killed child that does not exit, or one that keeps a pipe open.
-/
namespace LensoSecrets.CommandProvider
open CooperativeCalls QueryPrograms

/-- The threads of a run for a request, in a state they can come to. -/
structure Threads (capacity : ℕ) where
  request : CommandRequest
  supervision : Supervision
  reached : ∃ moves, supervision = Supervision.run request capacity moves

/-- A bound on the polls that are left. -/
def Supervision.pollsLeft (timeout : ℕ) (s : Supervision) : ℕ :=
  match s.stage with
  | .polling => s.polls.getLast?.elim (timeout + 1) fun last => timeout - last.elapsed
  | _ => 0

/-- A bound on the steps the threads have left as long as no process does anything. -/
def Supervision.left (timeout : ℕ) (s : Supervision) : ℕ := s.work + s.pollsLeft timeout

namespace Threads
variable {capacity : ℕ}

def start (request : CommandRequest) : Threads capacity := ⟨request, .start, [], rfl⟩

def move (t : Threads capacity) (move : Move) : Threads capacity where
  request := t.request
  supervision := t.supervision.step t.request capacity move
  reached := by
    obtain ⟨moves, hmoves⟩ := t.reached
    refine ⟨moves ++ [move], ?_⟩
    rw [hmoves, Supervision.run, Supervision.run, List.foldl_append]
    rfl

theorem sound (t : Threads capacity) : t.supervision.Sound t.request capacity := by
  obtain ⟨moves, hmoves⟩ := t.reached
  rw [hmoves]
  exact Supervision.sound_run _ _ _

/-- The child that the threads have observed, once they have returned. -/
def child (t : Threads capacity) : Option Child :=
  match t.supervision.stage with
  | .returned _ => some (Supervision.observed t.sound)
  | _ => none

theorem child_eq_some {t : Threads capacity} {child : Child} (h : t.child = some child) :
    Observed t.supervision child ∧
      t.supervision.stage = .returned (superviseChild t.request child).1 := by
  rw [Threads.child] at h
  split at h
  · rename_i result hreturned
    obtain rfl := Option.some.inj h
    refine ⟨Supervision.observed_spec t.sound, ?_⟩
    rw [t.sound.returned_eq hreturned]
    exact hreturned
  · cases h

theorem child_ne_none {t : Threads capacity} {result : Except Unit String}
    (h : t.supervision.stage = .returned result) : t.child ≠ none := by
  rw [child, h]
  exact Option.some_ne_none _

end Threads

namespace Supervision
variable {request : CommandRequest} {capacity timeout : ℕ} {s : Supervision}

theorem pollsLeft_of_work_lt (h : s.stage.work < 3) : s.pollsLeft timeout = 0 := by
  rw [pollsLeft]
  cases hstage : s.stage with
  | polling =>
    rw [hstage] at h
    exact absurd h (Nat.lt_irrefl 3)
  | reaping => rfl
  | joiningStdout status => rfl
  | joiningStderr status stdout => rfl
  | returned result => rfl

theorem stageWork_le (stage : Stage) : stage.work ≤ 3 := by
  cases stage <;> simp [Stage.work]

theorem left_of_advanced {s' : Supervision} (h : Advanced s s') :
    s'.left timeout < s.left timeout := by
  have hless := h.stage
  have hle := stageWork_le s.stage
  have hpolls : s'.pollsLeft timeout = 0 := pollsLeft_of_work_lt (by omega)
  rw [left, left, hpolls, work, work, h.pipe]
  omega

theorem left_of_wentOn {s' : Supervision} (h : WentOn timeout s s') :
    s'.left timeout < s.left timeout := by
  have hstage := h.stage
  obtain ⟨poll, hrested, htime, rfl⟩ := h.more
  have hwork : ({ s with polls := s.polls ++ [poll] } : Supervision).work = s.work := rfl
  have hpolls : ({ s with polls := s.polls ++ [poll] } : Supervision).pollsLeft timeout =
      timeout - poll.elapsed := by
    simp only [pollsLeft, hstage, List.getLast?_concat, Option.elim_some]
  rw [left, left, hwork, hpolls]
  cases hlast : s.polls.getLast? with
  | none =>
    simp only [pollsLeft, hstage, hlast, Option.elim_none]
    omega
  | some last =>
    have hapart := le_of_rested hrested hlast
    have hpos := pollInterval_pos
    simp only [pollsLeft, hstage, hlast, Option.elim_some]
    omega

/-- A step of a thread that changes something leaves fewer, also while the child runs. -/
theorem left_step (request : CommandRequest) (capacity : ℕ) (s : Supervision) {move : Move}
    (hinner : move.inner = true) : s.step request capacity move = s ∨
      (s.step request capacity move).left request.timeout < s.left request.timeout := by
  rcases inner_cases request capacity s hinner with
    hsame | hadvanced | hwent | ⟨stream, serving, hturn⟩
  · exact Or.inl hsame
  · exact Or.inr (left_of_advanced hadvanced)
  · exact Or.inr (left_of_wentOn hwent)
  · rw [hturn]
    have hwork := work_setPipe s stream ((s.pipe stream).turn request.maxOutputBytes serving)
    rcases Pipe.work_turn request.maxOutputBytes (s.pipe stream) serving with hsame | hless
    · left
      rw [hsame, setPipe_same]
    · right
      have hpolls : ∀ p, (s.setPipe stream p).pollsLeft request.timeout =
          s.pollsLeft request.timeout := fun p => rfl
      rw [left, left, hpolls]
      omega

end Supervision

/-- Only a child that was spawned with both its pipes has threads. -/
def withoutThreads : (q : Access) → q.Answer → Bool
  | .spawn _, some child => child.stdout.isNone || child.stderr.isNone
  | _, _ => true

/-- The threads that the spawn of a run starts. Readers that outlive the run are not followed. -/
def machines (capacity : ℕ) : Machines Access.Answer CommandRequest (Threads capacity) Move where
  launch request
    | .spawn _ => some (.start request)
    | _ => none
  move := Threads.move
  inner := Move.inner
  answer t
    | .spawn _ => t.child.map some
    | _ => none
  direct := withoutThreads
  job := Threads.request
  weight t := t.supervision.left t.request.timeout
  bound request := Supervision.start.left request.timeout
  job_launch request q t h := by
    cases q <;> cases h
    rfl
  job_move t move := rfl
  weight_launch request q t h := by
    cases q <;> cases h
    exact Nat.le_refl _
  weight_move t move hinner := by
    refine (Supervision.left_step t.request capacity t.supervision hinner).imp_left ?_
    intro hsame
    rw [Threads.move, Threads.mk.injEq]
    exact ⟨rfl, hsame⟩
  direct_of_launch request q h a := by
    cases q with
    | spawn process => cases h
    | canonicalize path => rfl
    | isFile path => rfl
    | spawnThread => rfl
    | varOs name => rfl
    | receive => rfl

/-- An instance with the threads of its runs. -/
abbrev LiveInstance (capacity : ℕ) :=
  Live (Option PreparedProgram) Access.Answer CommandRequest (Except Unit String) Invocation
    Outcome (Threads capacity)

abbrev LiveCommandInput := LiveInput Access.Answer Invocation Move

def AcceptedConfig.live (C : AcceptedConfig) (capacity : ℕ) (inputs : List LiveCommandInput) :
    LiveInstance capacity :=
  (machines capacity).run C.service inputs

/-- The child was observed by threads that have returned what the run returns. -/
def FromThreads (capacity : ℕ) (request : CommandRequest) (child : Child) : Prop :=
  ∃ moves, Observed (Supervision.run request capacity moves) child ∧
    (Supervision.run request capacity moves).stage = .returned (superviseChild request child).1

/-- Every child of a run that has both its pipes was observed by threads. -/
def Supervised (capacity : ℕ) (s : CommandState) : Prop :=
  ∀ w ∈ s.workers, ∀ process child, ⟨.spawn process, some child⟩ ∈ w.trace →
    child.stdout.isSome = true → child.stderr.isSome = true → FromThreads capacity w.job child

/-- The threads of the run that the worker carries out wait for a process. -/
def WaitsForProcess {capacity : ℕ} (l : LiveInstance capacity) (request : CommandRequest)
    (w : ℕ) : Prop :=
  ∃ t, l.machine w = some t ∧ t.request = request ∧ t.supervision.Hangs

section
variable {capacity : ℕ} {l : LiveInstance capacity} {w : ℕ} {t : Threads capacity}

theorem supervised_of_answered {s : CommandState} (h : (machines capacity).Answered s) :
    Supervised capacity s := by
  intro worker hworker process child hspawn hstdout hstderr
  rcases h worker hworker _ hspawn with hdirect | ⟨t, hjob, hanswer⟩
  · have hpipes : (child.stdout.isNone || child.stderr.isNone) = true := hdirect
    rw [Option.isNone_eq_false_iff.mpr hstdout, Option.isNone_eq_false_iff.mpr hstderr] at hpipes
    cases hpipes
  · have hchild : t.child.map some = some (some child) := hanswer
    obtain ⟨child', hchild', hsame⟩ := Option.map_eq_some_iff.mp hchild
    obtain rfl := Option.some.inj hsame
    obtain ⟨hobserved, hreturned⟩ := Threads.child_eq_some hchild'
    obtain ⟨moves, hmoves⟩ := t.reached
    have hrequest : t.request = worker.job := hjob
    rw [hmoves, hrequest] at hobserved hreturned
    exact ⟨moves, hobserved, hreturned⟩

theorem hangs_of_waits (h : (machines capacity).Waits l w t) : t.supervision.Hangs := by
  have hstuck : Stuck t.request capacity t.supervision := by
    intro move hinner
    exact congrArg Threads.supervision (h.still move hinner)
  apply Supervision.hangs_of_blocked (Supervision.blocked_of_stuck hstuck)
  intro result hreturned
  obtain ⟨q, hneeds, hanswer⟩ := h.unanswered
  cases q with
  | spawn process =>
    have hnone : t.child.map some = none := hanswer
    exact Threads.child_ne_none hreturned (Option.map_eq_none_iff.mp hnone)
  | canonicalize path => exact hneeds rfl
  | isFile path => exact hneeds rfl
  | spawnThread => exact hneeds rfl
  | varOs name => exact hneeds rfl
  | receive => exact hneeds rfl

end

/-- Surroundings in which nothing is found and nothing works. -/
def barren : Oracle Access.Answer
  | .canonicalize _ => none
  | .isFile _ => false
  | .spawnThread => false
  | .varOs _ => none
  | .spawn _ => none
  | .receive => false

/-- What holds once neither a call, nor a worker, nor a thread can do anything by itself: every
run is over or waits for a process, and every call has returned or awaits such a run. -/
structure Settled {capacity : ℕ} (l : LiveInstance capacity) : Prop where
  runs : ∀ (w : ℕ) (worker : CommandWorker), l.state.workers[w]? = some worker →
    (∃ result, worker.program = .done result) ∨ WaitsForProcess l worker.job w
  calls : ∀ c ∈ l.state.calls, (∃ outcome, c.program = .done outcome ∧ Answers c.request outcome) ∨
    ∃ request k, c.program = .ask (.await request) k ∧ WaitsForProcess l request c.worker

/-- Every run is over and every call has returned an outcome of its kind. -/
structure AllReturned (s : CommandState) : Prop where
  runs : ∀ worker ∈ s.workers, ∃ result, worker.program = .done result
  calls : ∀ c ∈ s.calls, ∃ outcome, c.program = .done outcome ∧ Answers c.request outcome

theorem not_waitsForProcess {capacity : ℕ} {l : LiveInstance capacity}
    (h : ∀ w t, l.machine w = some t → Released t.supervision) (request : CommandRequest) (w : ℕ) :
    ¬ WaitsForProcess l request w := by
  intro hwaits
  obtain ⟨t, hmachine, -, hhangs⟩ := hwaits
  exact Supervision.not_hangs_of_released (h w t hmachine) hhangs

theorem Settled.allReturned {capacity : ℕ} {l : LiveInstance capacity} (h : Settled l)
    (hreleased : ∀ w t, l.machine w = some t → Released t.supervision) :
    AllReturned l.state := by
  constructor
  · intro worker hworker
    obtain ⟨w, hw⟩ := List.mem_iff_getElem?.mp hworker
    rcases h.runs w worker hw with hover | hwaits
    · exact hover
    · exact absurd hwaits (not_waitsForProcess hreleased _ _)
  · intro c hc
    rcases h.calls c hc with hreturned | ⟨request, k, -, hwaits⟩
    · exact hreturned
    · exact absurd hwaits (not_waitsForProcess hreleased _ _)

theorem settled_of_quiescent {C : AcceptedConfig} {capacity : ℕ} {inputs : List LiveCommandInput}
    (h : (machines capacity).Quiescent C.service (C.live capacity inputs)) :
    Settled (C.live capacity inputs) := by
  have hmanned := Machines.manned_run (M := machines capacity) (S := C.service) inputs
  obtain ⟨moves, hmoves⟩ := Machines.state_run (M := machines capacity) (S := C.service) inputs
  have hinv := Service.invariant_run (S := C.service) moves
  have haccounted := Service.accounted_run (S := C.service) moves
  rw [← hmoves] at hinv haccounted
  constructor
  · intro w worker hw
    obtain ⟨job, tr, p⟩ := worker
    cases p with
    | done result => exact Or.inl ⟨result, rfl⟩
    | ask q k =>
      obtain ⟨t, hjob, hwaits⟩ := Machines.waits_of_quiescent h hmanned barren hw
      exact Or.inr ⟨t, hwaits.machine, hjob, hangs_of_waits hwaits⟩
  · intro c hc
    rcases Machines.call_of_quiescent h hmanned barren haccounted hc with
      ⟨outcome, hprogram⟩ | ⟨request, k, t, hprogram, hjob, hwaits⟩
    · have hfollows := hinv.calls c hc
      rw [hprogram] at hfollows
      exact Or.inl ⟨outcome, hprogram, answers_of_follows hfollows⟩
    · exact Or.inr ⟨request, k, hprogram, t, hwaits.machine, hjob, hangs_of_waits hwaits⟩

/-- A preparation's run hangs: its child has exited and left a process with the standard output. -/
example : ∃ request, WaitsForProcess (singleReference.live 16
    [.serve (.begin .prepare fun _ => printingAnswers), .serve (.work 0 printingAnswers),
      .serve (.work 0 printingAnswers), .launch 0, .move 0 (.poll 0 false false false),
      .move 0 (.exit ⟨some 0⟩), .move 0 (.poll pollInterval false false false)]) request 0 := by
  refine ⟨_, _, rfl, rfl, ?_⟩
  exact .joiningStdout ⟨some 0⟩ rfl ⟨rfl, rfl, rfl⟩

end LensoSecrets.CommandProvider
