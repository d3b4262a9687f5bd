import LensoSecrets.ResolverThreads

/-!
# When a resolver run comes to its end

The threads of a run never keep a writer waiting, and once the child has exited and the
pipes are closed they end the run. They can wait forever only for others: a killed child
that does not exit, or a process that keeps a pipe open after the child's exit was seen.
-/
namespace LensoSecrets.CommandProvider
open ByteReaders

/-- A step of one of the threads that no failing system call disturbs. -/
def Move.inner : Move → Bool
  | .read _ (.bytes _) => true
  | .read _ .atEnd => true
  | .poll _ failed _ _ => !failed
  | .reap => true
  | .join => true
  | _ => false

/-- No step of a thread changes anything, at whatever time and whether or not the caller
has gone. -/
def Stuck (request : CommandRequest) (capacity : ℕ) (s : Supervision) : Prop :=
  ∀ move : Move, move.inner = true → s.step request capacity move = s

/-- What a stage of the waiting thread waits for. -/
def Waits (s : Supervision) : Stage → Prop
  | .polling => False
  | .reaping => s.child = none
  | .joiningStdout _ => (s.pipe .stdout).result = none
  | .joiningStderr _ _ => (s.pipe .stderr).result = none
  | .returned _ => True

/-- Every thread waits for a process: a reader for bytes from one that holds the write end,
the waiting thread for a killed child or for a reader. -/
structure Blocked (s : Supervision) : Prop where
  readers : ∀ stream, (s.pipe stream).result = none →
    (s.pipe stream).buffered = [] ∧ (s.pipe stream).writers = true
  waiter : Waits s s.stage

/-- A process that finds the pipe full, and its read end open, waits for a thread that can
read. -/
def NeverFull (limit capacity : ℕ) (p : Pipe) : Prop :=
  0 < capacity → p.Open → capacity < p.buffered.length + 1 →
    ∃ n, (p.turn limit (.bytes n)).buffered.length < p.buffered.length

/-- The child has exited and no process holds a write end. -/
structure Released (s : Supervision) : Prop where
  exited : s.child.isSome = true
  closed : ∀ stream, (s.pipe stream).writers = false

/-- The pipe is empty, and a process keeps its thread from returning. -/
structure Pipe.Held (p : Pipe) : Prop where
  reading : p.result = none
  empty : p.buffered = []
  writers : p.writers = true

/-- What the thread of `wait_for_child` can wait for without an end. -/
inductive Supervision.Hangs (s : Supervision) : Prop
  | reaping (hstage : s.stage = .reaping) (hchild : s.child = none)
  | joiningStdout (status : ExitStatus) (hstage : s.stage = .joiningStdout status)
      (hheld : (s.pipe .stdout).Held)
  | joiningStderr (status : ExitStatus) (stdout : BoundedOutput)
      (hstage : s.stage = .joiningStderr status stdout) (hheld : (s.pipe .stderr).Held)

/-- Steps of the threads, each of which changes something. -/
def Effective (request : CommandRequest) (capacity : ℕ) : Supervision → List Move → Prop
  | _, [] => True
  | s, move :: moves => move.inner = true ∧ s.step request capacity move ≠ s ∧
      Effective request capacity (s.step request capacity move) moves

/-- What a reader has left to do. -/
def Pipe.work (p : Pipe) : ℕ :=
  match p.result with
  | none => p.buffered.length + 1
  | some _ => 0

def Stage.work : Stage → ℕ
  | .polling => 3
  | .reaping => 1
  | .joiningStdout _ => 2
  | .joiningStderr _ _ => 1
  | .returned _ => 0

/-- A bound on the steps that are left once the child has exited. -/
def Supervision.work (s : Supervision) : ℕ :=
  (s.pipe .stdout).work + (s.pipe .stderr).work + s.stage.work

namespace Pipe

variable {p : Pipe} (limit : ℕ)

theorem turn_bytes (hopen : p.result = none) {b : UInt8} {bs : List UInt8}
    (hbuffered : p.buffered = b :: bs) : (p.turn limit (.bytes 1)).buffered = bs := by
  have hread : ByteReaders.read 8192 [.data b []] = (.bytes [b], []) := rfl
  have hserve : p.serve (.bytes 1) = some ([.data b []], bs) := by
    rw [serve, hbuffered]
    rfl
  simp only [turn, hopen, hserve, readTurn, hread]

theorem turn_atEnd (hopen : p.result = none) (hempty : p.buffered = [])
    (hclosed : p.writers = false) :
    (p.turn limit .atEnd).result = some (.ok ⟨p.bytes, p.overflow⟩) := by
  have hserve : p.serve .atEnd = some ([], []) := by
    rw [serve, hempty, hclosed]
    rfl
  simp only [turn, hopen, hserve, readTurn, ByteReaders.read]

/-- A reader that has returned, or finds an empty pipe with a writer, does nothing. -/
theorem turn_of_waiting (hwaits : p.result = none → p.buffered = [] ∧ p.writers = true) {n : ℕ} :
    p.turn limit (.bytes n) = p ∧ p.turn limit .atEnd = p := by
  cases hopen : p.result with
  | some result => exact ⟨turn_of_result hopen _, turn_of_result hopen _⟩
  | none =>
    obtain ⟨hempty, hwriters⟩ := hwaits hopen
    have hserve : p.serve (.bytes n) = none := by
      rw [serve, hempty, List.take_nil]
    have hserve' : p.serve .atEnd = none := by
      rw [serve, hwriters, Bool.not_true, Bool.and_false]
      rfl
    simp only [turn, hopen, hserve, hserve', and_self]

theorem neverFull (limit capacity : ℕ) (p : Pipe) : NeverFull limit capacity p := by
  intro hcapacity hopen hfull
  cases hbuffered : p.buffered with
  | nil =>
    rw [hbuffered, List.length_nil] at hfull
    omega
  | cons b bs =>
    refine ⟨1, ?_⟩
    rw [turn_bytes limit hopen hbuffered, List.length_cons]
    omega

theorem work_turn (limit : ℕ) (p : Pipe) (serving : Serving) :
    p.turn limit serving = p ∨ (p.turn limit serving).work < p.work := by
  have hturned := turned limit p serving
  generalize p.turn limit serving = p' at hturned
  cases hturned with
  | same => exact Or.inl rfl
  | chunk b bs left hopen hbuffered =>
    right
    simp only [work, hopen, hbuffered, List.length_append, List.length_cons]
    omega
  | atEnd hopen hempty hclosed =>
    right
    simp only [work, hopen]
    omega
  | error e hopen hevent =>
    right
    simp only [work, hopen]
    omega

theorem writers_turn (limit : ℕ) (p : Pipe) (serving : Serving) :
    (p.turn limit serving).writers = p.writers := by
  have hturned := turned limit p serving
  generalize p.turn limit serving = p' at hturned
  cases hturned <;> rfl

end Pipe

namespace Supervision

variable {request : CommandRequest} {capacity : ℕ} {s : Supervision}

theorem setPipe_same (s : Supervision) (stream : Stream) :
    s.setPipe stream (s.pipe stream) = s := by
  rw [setPipe, Function.update_eq_self]

theorem pipe_eq_of_setPipe {stream : Stream} {p : Pipe} (h : s.setPipe stream p = s) :
    p = s.pipe stream := by
  have hpipe := congrArg (fun s => Supervision.pipe s stream) h
  rwa [setPipe_pipe_self] at hpipe

theorem exists_rested (s : Supervision) : ∃ elapsed, s.rested elapsed = true := by
  cases hlast : s.polls.getLast? with
  | none => exact ⟨0, by rw [rested, hlast, Option.all_none]⟩
  | some last =>
    refine ⟨last.elapsed + pollInterval, ?_⟩
    rw [rested, hlast, Option.all_some, decide_eq_true_iff]

theorem polls_polled (timeout : ℕ) (s : Supervision) (poll : Poll) (killed : Bool) :
    (s.polled timeout poll killed).polls = s.polls ++ [poll] := by
  unfold polled
  cases poll.tryWait with
  | failed => rfl
  | exited status => rfl
  | running =>
    dsimp only
    split_ifs <;> rfl

theorem reader_waits_of_stuck (h : Stuck request capacity s) {stream : Stream}
    (hopen : (s.pipe stream).result = none) :
    (s.pipe stream).buffered = [] ∧ (s.pipe stream).writers = true := by
  have hbytes := pipe_eq_of_setPipe (h (.read stream (.bytes 1)) rfl)
  have hend := pipe_eq_of_setPipe (h (.read stream .atEnd) rfl)
  have hempty : (s.pipe stream).buffered = [] := by
    cases hbuffered : (s.pipe stream).buffered with
    | nil => rfl
    | cons b bs =>
      have hless := congrArg (fun p => (Pipe.buffered p).length) hbytes
      rw [Pipe.turn_bytes _ hopen hbuffered, hbuffered, List.length_cons] at hless
      omega
  refine ⟨hempty, ?_⟩
  cases hwriters : (s.pipe stream).writers with
  | true => rfl
  | false =>
    have hresult := Pipe.turn_atEnd request.maxOutputBytes hopen hempty hwriters
    rw [hend, hopen] at hresult
    cases hresult

/-- A join of a reader that has returned ends its stage. -/
theorem joined_stdout_ne {status : ExitStatus} {result : Except Unit BoundedOutput}
    (hstage : s.stage = .joiningStdout status) (hr : (s.pipe .stdout).result = some result) :
    s.joined ≠ s := by
  intro h
  have hjoin := congrArg Supervision.stage h
  cases result with
  | ok stdout =>
    simp only [joined, hstage, hr] at hjoin
    cases hjoin
  | error e =>
    simp only [joined, hstage, hr] at hjoin
    cases hjoin

theorem joined_stderr_ne {status : ExitStatus} {stdout : BoundedOutput}
    {result : Except Unit BoundedOutput} (hstage : s.stage = .joiningStderr status stdout)
    (hr : (s.pipe .stderr).result = some result) : s.joined ≠ s := by
  intro h
  have hjoin := congrArg Supervision.stage h
  cases result with
  | ok stderr =>
    simp only [joined, hstage, hr] at hjoin
    cases hjoin
  | error e =>
    simp only [joined, hstage, hr] at hjoin
    cases hjoin

theorem waits_of_stuck (h : Stuck request capacity s) : Waits s s.stage := by
  cases hstage : s.stage with
  | returned result => trivial
  | polling =>
    obtain ⟨elapsed, hrested⟩ := exists_rested s
    have hpoll := congrArg (fun s => (Supervision.polls s).length)
      (h (.poll elapsed false false false) rfl)
    simp only [step, hstage, hrested, if_true, polls_polled, List.length_append,
      List.length_singleton] at hpoll
    omega
  | reaping =>
    cases hchild : s.child with
    | none => exact hchild
    | some status =>
      have hreap := congrArg Supervision.stage (h .reap rfl)
      simp only [step, hstage, hchild] at hreap
      cases hreap
  | joiningStdout status =>
    cases hr : (s.pipe .stdout).result with
    | none => exact hr
    | some result => exact absurd (h .join rfl) (joined_stdout_ne hstage hr)
  | joiningStderr status stdout =>
    cases hr : (s.pipe .stderr).result with
    | none => exact hr
    | some result => exact absurd (h .join rfl) (joined_stderr_ne hstage hr)

theorem blocked_of_stuck (h : Stuck request capacity s) : Blocked s := by
  constructor
  · intro stream hopen
    exact reader_waits_of_stuck h hopen
  · exact waits_of_stuck h

theorem joined_of_waits (hwaits : Waits s s.stage) : s.joined = s := by
  unfold joined
  cases hstage : s.stage with
  | joiningStdout status =>
    rw [hstage] at hwaits
    have hnone : (s.pipe .stdout).result = none := hwaits
    dsimp only
    rw [hnone]
  | joiningStderr status stdout =>
    rw [hstage] at hwaits
    have hnone : (s.pipe .stderr).result = none := hwaits
    dsimp only
    rw [hnone]
  | polling => rfl
  | reaping => rfl
  | returned result => rfl

theorem stuck_of_blocked (h : Blocked s) : Stuck request capacity s := by
  intro move hinner
  cases move with
  | write stream bytes => cases hinner
  | close stream => cases hinner
  | exit status => cases hinner
  | read stream serving =>
    have hwaits := h.readers stream
    cases serving with
    | bytes n =>
      rw [step, (Pipe.turn_of_waiting _ hwaits (n := n)).1, setPipe_same]
    | atEnd =>
      rw [step, (Pipe.turn_of_waiting _ hwaits (n := 0)).2, setPipe_same]
    | interrupted => cases hinner
    | failed => cases hinner
  | poll elapsed failed cancelled killed =>
    have hwaits := h.waiter
    unfold step
    cases hstage : s.stage with
    | polling =>
      rw [hstage] at hwaits
      exact hwaits.elim
    | reaping => rfl
    | joiningStdout status => rfl
    | joiningStderr status stdout => rfl
    | returned result => rfl
  | reap =>
    have hwaits := h.waiter
    unfold step
    cases hstage : s.stage with
    | reaping =>
      rw [hstage] at hwaits
      have hchild : s.child = none := hwaits
      rw [hchild]
    | polling => rfl
    | joiningStdout status => rfl
    | joiningStderr status stdout => rfl
    | returned result => rfl
  | join => exact joined_of_waits h.waiter

theorem work_setPipe (s : Supervision) (stream : Stream) (p : Pipe) :
    (s.setPipe stream p).work + (s.pipe stream).work = s.work + p.work := by
  cases stream with
  | stdout =>
    have hother := setPipe_pipe_of_ne s (show Stream.stderr ≠ .stdout by decide) p
    simp only [work, setPipe_pipe_self, hother, setPipe_stage]
    omega
  | stderr =>
    have hother := setPipe_pipe_of_ne s (show Stream.stdout ≠ .stderr by decide) p
    simp only [work, setPipe_pipe_self, hother, setPipe_stage]
    omega

/-- A step of the waiting thread that ends a stage. -/
structure Advanced (s s' : Supervision) : Prop where
  pipe : s'.pipe = s.pipe
  exited : s.child.isSome = true → s'.child.isSome = true
  stage : s'.stage.work < s.stage.work

theorem joined_advances (s : Supervision) : s.joined = s ∨ Advanced s s.joined := by
  unfold joined
  cases hstage : s.stage with
  | joiningStdout status =>
    dsimp only
    cases hr : (s.pipe .stdout).result with
    | none => exact Or.inl rfl
    | some result =>
      right
      cases result with
      | ok stdout => exact ⟨rfl, id, by rw [hstage]; exact Nat.lt_succ_self 1⟩
      | error e => exact ⟨rfl, id, by rw [hstage]; exact Nat.zero_lt_two⟩
  | joiningStderr status stdout =>
    dsimp only
    cases hr : (s.pipe .stderr).result with
    | none => exact Or.inl rfl
    | some result =>
      right
      cases result with
      | ok stderr => exact ⟨rfl, id, by rw [hstage]; exact Nat.zero_lt_one⟩
      | error e => exact ⟨rfl, id, by rw [hstage]; exact Nat.zero_lt_one⟩
  | polling => exact Or.inl rfl
  | reaping => exact Or.inl rfl
  | returned result => exact Or.inl rfl

theorem reap_advances (request : CommandRequest) (capacity : ℕ) (s : Supervision) :
    s.step request capacity .reap = s ∨ Advanced s (s.step request capacity .reap) := by
  cases hstage : s.stage with
  | reaping =>
    cases hchild : s.child with
    | none => exact Or.inl (by simp only [step, hstage, hchild])
    | some status =>
      right
      simp only [step, hstage, hchild]
      exact ⟨rfl, fun _ => rfl, by rw [hstage]; exact Nat.zero_lt_one⟩
  | polling => exact Or.inl (by simp only [step, hstage])
  | joiningStdout status => exact Or.inl (by simp only [step, hstage])
  | joiningStderr status stdout => exact Or.inl (by simp only [step, hstage])
  | returned result => exact Or.inl (by simp only [step, hstage])

/-- The wait loop goes on: the child runs, in time, and one more poll has been made. -/
structure WentOn (timeout : ℕ) (s s' : Supervision) : Prop where
  stage : s.stage = .polling
  running : s.child = none
  more : ∃ poll, s.rested poll.elapsed = true ∧ poll.elapsed < timeout ∧
    s' = { s with polls := s.polls ++ [poll] }

/-- A poll changes nothing, ends the loop, or lets it go on. -/
theorem poll_cases (request : CommandRequest) (capacity : ℕ) (s : Supervision) (elapsed : ℕ)
    (cancelled killed : Bool) :
    s.step request capacity (.poll elapsed false cancelled killed) = s ∨
      Advanced s (s.step request capacity (.poll elapsed false cancelled killed)) ∨
      WentOn request.timeout s
        (s.step request capacity (.poll elapsed false cancelled killed)) := by
  cases hstage : s.stage with
  | polling =>
    by_cases hrested : s.rested elapsed = true
    · right
      have hstep : s.step request capacity (.poll elapsed false cancelled killed) =
          s.polled request.timeout ⟨s.child.elim .running .exited, elapsed, cancelled⟩ killed := by
        simp only [step, hstage, hrested, if_true]
        rfl
      rw [hstep]
      cases hchild : s.child with
      | some status =>
        left
        simp only [polled, Option.elim_some]
        exact ⟨rfl, fun _ => by rw [hchild]; rfl, by rw [hstage]; exact Nat.lt_succ_self 2⟩
      | none =>
        simp only [polled, Option.elim_none]
        by_cases hlate : request.timeout ≤ elapsed ∨ cancelled = true
        · left
          rw [if_pos hlate]
          refine ⟨rfl, ?_, by rw [hstage]; exact Nat.lt_of_lt_of_le Nat.one_lt_two (Nat.le_succ 2)⟩
          intro hexited
          rw [hchild] at hexited
          cases hexited
        · right
          rw [if_neg hlate]
          have htime : elapsed < request.timeout := by omega
          exact ⟨hstage, hchild, _, hrested, htime, rfl⟩
    · exact Or.inl (by simp only [step, hstage, if_neg hrested])
  | reaping => exact Or.inl (by simp only [step, hstage])
  | joiningStdout status => exact Or.inl (by simp only [step, hstage])
  | joiningStderr status stdout => exact Or.inl (by simp only [step, hstage])
  | returned result => exact Or.inl (by simp only [step, hstage])

/-- A step of a thread changes nothing, ends a stage, is one more poll, or a reader's turn. -/
theorem inner_cases (request : CommandRequest) (capacity : ℕ) (s : Supervision) {move : Move}
    (hinner : move.inner = true) :
    s.step request capacity move = s ∨ Advanced s (s.step request capacity move) ∨
      WentOn request.timeout s (s.step request capacity move) ∨
      ∃ stream serving, s.step request capacity move =
        s.setPipe stream ((s.pipe stream).turn request.maxOutputBytes serving) := by
  cases move with
  | write stream bytes => cases hinner
  | close stream => cases hinner
  | exit status => cases hinner
  | read stream serving => exact Or.inr (Or.inr (Or.inr ⟨stream, serving, rfl⟩))
  | poll elapsed failed cancelled killed =>
    have hfailed : failed = false := by simpa [Move.inner] using hinner
    subst hfailed
    rcases poll_cases request capacity s elapsed cancelled killed with hsame | hadvanced | hwent
    · exact Or.inl hsame
    · exact Or.inr (Or.inl hadvanced)
    · exact Or.inr (Or.inr (Or.inl hwent))
  | reap => exact (reap_advances request capacity s).imp_right Or.inl
  | join => exact (joined_advances s).imp_right Or.inl

/-- Once the child has exited the wait loop does not go on. -/
theorem not_wentOn_of_released (h : Released s) {timeout : ℕ} {s' : Supervision} :
    ¬ WentOn timeout s s' := by
  intro hwent
  have hexited := h.exited
  rw [hwent.running] at hexited
  cases hexited

/-- Every step of a thread that changes something uses up some of the work that is left. -/
theorem work_step (request : CommandRequest) (capacity : ℕ) (h : Released s) {move : Move}
    (hinner : move.inner = true) :
    s.step request capacity move = s ∨ (s.step request capacity move).work < s.work := by
  rcases inner_cases request capacity s hinner with
    hsame | hadvanced | hwent | ⟨stream, serving, hturn⟩
  · exact Or.inl hsame
  · right
    have hless := hadvanced.stage
    rw [work, work, hadvanced.pipe]
    omega
  · exact absurd hwent (not_wentOn_of_released h)
  · rw [hturn]
    have hwork := work_setPipe s stream ((s.pipe stream).turn request.maxOutputBytes serving)
    rcases Pipe.work_turn request.maxOutputBytes (s.pipe stream) serving with hsame | hless
    · left
      rw [hsame, setPipe_same]
    · right
      omega

theorem released_step (h : Released s) {move : Move} (hinner : move.inner = true) :
    Released (s.step request capacity move) := by
  rcases inner_cases request capacity s hinner with
    hsame | hadvanced | hwent | ⟨stream, serving, hturn⟩
  · rw [hsame]
    exact h
  · refine ⟨hadvanced.exited h.exited, ?_⟩
    rw [hadvanced.pipe]
    exact h.closed
  · exact absurd hwent (not_wentOn_of_released h)
  · rw [hturn]
    refine ⟨h.exited, ?_⟩
    intro other
    by_cases hother : other = stream
    · rw [hother, setPipe_pipe_self, Pipe.writers_turn]
      exact h.closed stream
    · rw [setPipe_pipe_of_ne s hother]
      exact h.closed other

theorem effective_spec (h : Released s) {moves : List Move}
    (heffective : Effective request capacity s moves) :
    moves.length ≤ s.work ∧ Released (moves.foldl (step request capacity) s) := by
  induction moves generalizing s with
  | nil => exact ⟨Nat.zero_le _, h⟩
  | cons move moves ih =>
    obtain ⟨hinner, hne, hrest⟩ := heffective
    obtain ⟨hlength, hreleased⟩ := ih (released_step h hinner) hrest
    rcases work_step request capacity h hinner with hsame | hless
    · exact absurd hsame hne
    · rw [List.length_cons]
      exact ⟨by omega, hreleased⟩

/-- Threads that are stuck before they have returned wait for a process. -/
theorem hangs_of_blocked (h : Blocked s) (hrunning : ∀ result, s.stage ≠ .returned result) :
    s.Hangs := by
  have hwaits := h.waiter
  have hheld : ∀ stream, (s.pipe stream).result = none → (s.pipe stream).Held := by
    intro stream hopen
    obtain ⟨hempty, hwriters⟩ := h.readers stream hopen
    exact ⟨hopen, hempty, hwriters⟩
  cases hstage : s.stage with
  | polling =>
    rw [hstage] at hwaits
    exact hwaits.elim
  | reaping =>
    rw [hstage] at hwaits
    exact .reaping hstage hwaits
  | joiningStdout status =>
    rw [hstage] at hwaits
    exact .joiningStdout status hstage (hheld .stdout hwaits)
  | joiningStderr status stdout =>
    rw [hstage] at hwaits
    exact .joiningStderr status stdout hstage (hheld .stderr hwaits)
  | returned result => exact absurd hstage (hrunning result)

theorem not_hangs_of_released (h : Released s) : ¬ s.Hangs := by
  have hheld : ∀ stream, ¬ (s.pipe stream).Held := by
    intro stream hheld
    have hwriters := hheld.writers
    rw [h.closed stream] at hwriters
    cases hwriters
  intro hhangs
  cases hhangs with
  | reaping hstage hchild =>
    have hexited := h.exited
    rw [hchild] at hexited
    cases hexited
  | joiningStdout status hstage hstdout => exact hheld .stdout hstdout
  | joiningStderr status stdout hstage hstderr => exact hheld .stderr hstderr

theorem returned_of_blocked (h : Released s) (hblocked : Blocked s) :
    ∃ result, s.stage = .returned result := by
  by_contra hnone
  rw [not_exists] at hnone
  exact not_hangs_of_released h (hangs_of_blocked hblocked hnone)

end Supervision

/-- Once released, a run can only take a bounded number of steps, and has then returned. -/
def Ends (request : CommandRequest) (capacity : ℕ) (s : Supervision) : Prop :=
  Released s → ∀ moves, Effective request capacity s moves →
    moves.length ≤ s.work ∧
      (Stuck request capacity (moves.foldl (Supervision.step request capacity) s) →
        ∃ result, (moves.foldl (Supervision.step request capacity) s).stage = .returned result)

end LensoSecrets.CommandProvider
