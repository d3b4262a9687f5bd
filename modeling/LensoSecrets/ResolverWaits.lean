import Mathlib.Algebra.Order.Floor.Div
import LensoSecrets.CommandProvider
import LensoSecrets.ResolverOutput

/-!
# The end of a resolver process

The wait loop polls the child until it has exited, the deadline has passed or the caller
is gone. Every poll but the last one finds the child running in time, which bounds their
number; the last one alone decides the outcome and what is done to the child.
-/
namespace LensoSecrets.CommandProvider
open ByteReaders EarlyExit OrderedMaps QueryPrograms StandardLibrary

namespace AcceptedConfig

/-- `Duration::from_millis(config.timeout_ms)` -/
def timeout (C : AcceptedConfig) : ℕ := C.timeoutMs * 1000000

theorem commandRequest_timeout (C : AcceptedConfig) (prepared : PreparedProgram)
    (source : String) : (commandRequest C.toCommandConfig prepared source).timeout = C.timeout :=
  rfl

theorem timeout_le (C : AcceptedConfig) : C.timeout ≤ pollInterval * 30000 := by
  have hv := validateConfig_eq_ok.mp C.accepted
  have hlimit : C.timeoutMs ≤ 300000 := hv.timeout.2
  rw [timeout, pollInterval]
  omega

end AcceptedConfig

/-- The child is running, the deadline is not reached and the caller still waits. -/
def GoesOn (timeout : ℕ) (poll : Poll) : Prop :=
  poll.tryWait = .running ∧ poll.elapsed < timeout ∧ poll.cancelled = false

/-- The first poll after which the loop does not go on. -/
structure LastPoll (timeout : ℕ) (polls : Polls) (n : ℕ) : Prop where
  goesOn : ∀ i < n, GoesOn timeout (polls.poll i)
  stops : ¬ GoesOn timeout (polls.poll n)

/-- What the loop makes of its last poll. -/
def lastWaited (poll : Poll) : Waited :=
  match poll.tryWait with
  | .running => ⟨.error (), [.tryWait, .kill, .wait]⟩
  | .exited status => ⟨.ok status, [.tryWait]⟩
  | .failed => ⟨.error (), [.tryWait]⟩

/-- How often the loop calls `try_wait`. -/
def pollCount (timeout : ℕ) (polls : Polls) : ℕ :=
  (waitForChild timeout polls 0).calls.count .tryWait

variable {timeout : ℕ} {polls : Polls} {i n : ℕ}

theorem waitForChild_of_goesOn (h : GoesOn timeout (polls.poll i)) :
    waitForChild timeout polls i = ⟨(waitForChild timeout polls (i + 1)).status,
      .tryWait :: (waitForChild timeout polls (i + 1)).calls⟩ := by
  obtain ⟨hrunning, htime, hcaller⟩ := h
  have hstop : ¬ (timeout ≤ (polls.poll i).elapsed ∨ (polls.poll i).cancelled = true) := by
    rw [not_or, not_le, hcaller]
    exact ⟨htime, Bool.false_ne_true⟩
  rw [waitForChild, hrunning]
  exact dif_neg hstop

theorem waitForChild_of_stops (h : ¬ GoesOn timeout (polls.poll i)) :
    waitForChild timeout polls i = lastWaited (polls.poll i) := by
  rw [waitForChild, lastWaited]
  cases hpoll : (polls.poll i).tryWait with
  | failed => rfl
  | exited status => rfl
  | running =>
    refine dif_pos ?_
    by_contra hgoes
    rw [not_or, not_le, Bool.not_eq_true] at hgoes
    exact h ⟨hpoll, hgoes⟩

theorem elapsed_ge (polls : Polls) (i : ℕ) : i * pollInterval ≤ (polls.poll i).elapsed := by
  induction i with
  | zero => omega
  | succ i ih =>
    have hapart := polls.apart i
    rw [Nat.succ_mul]
    omega

theorem exists_lastPoll (timeout : ℕ) (polls : Polls) : ∃ n, LastPoll timeout polls n := by
  classical
  have hstops : ∃ n, ¬ GoesOn timeout (polls.poll n) := by
    refine ⟨timeout, ?_⟩
    intro h
    have helapsed := elapsed_ge polls timeout
    have hpos : timeout ≤ timeout * pollInterval :=
      Nat.le_mul_of_pos_right timeout pollInterval_pos
    have htime := h.2.1
    omega
  refine ⟨Nat.find hstops, ?_, Nat.find_spec hstops⟩
  intro i hi
  exact not_not.mp (Nat.find_min hstops hi)

namespace LastPoll

/-- The number of iterations left to the last poll carries the induction. -/
theorem waitForChild_eq (h : LastPoll timeout polls n) : waitForChild timeout polls 0 =
    ⟨(lastWaited (polls.poll n)).status,
      List.replicate n .tryWait ++ (lastWaited (polls.poll n)).calls⟩ := by
  have hfrom : ∀ k i, i + k = n → waitForChild timeout polls i =
      ⟨(lastWaited (polls.poll n)).status,
        List.replicate k .tryWait ++ (lastWaited (polls.poll n)).calls⟩ := by
    intro k
    induction k with
    | zero =>
      intro i hi
      rw [Nat.add_zero] at hi
      rw [hi]
      exact waitForChild_of_stops h.stops
    | succ k ih =>
      intro i hi
      rw [waitForChild_of_goesOn (h.goesOn i (by omega)), ih (i + 1) (by omega)]
      rfl
  exact hfrom n 0 (Nat.zero_add n)

theorem status_eq (h : LastPoll timeout polls n) :
    (waitForChild timeout polls 0).status = (lastWaited (polls.poll n)).status := by
  rw [h.waitForChild_eq]

theorem pollCount_eq (h : LastPoll timeout polls n) : pollCount timeout polls = n + 1 := by
  have hlast : (lastWaited (polls.poll n)).calls.count .tryWait = 1 := by
    rw [lastWaited]
    cases (polls.poll n).tryWait <;> rfl
  rw [pollCount, h.waitForChild_eq, List.count_append, List.count_replicate_self, hlast]

/-- A loop that goes on at a poll of time `elapsed` has not used up its time. -/
theorem le_ceilDiv (h : LastPoll timeout polls n) : n ≤ timeout ⌈/⌉ pollInterval := by
  cases n with
  | zero => exact Nat.zero_le _
  | succ m =>
    have helapsed := elapsed_ge polls m
    have htime := (h.goesOn m m.lt_succ_self).2.1
    have hless : m < timeout ⌈/⌉ pollInterval := by
      apply lt_of_not_ge
      intro hge
      have hle : timeout ≤ pollInterval * m := (ceilDiv_le_iff_le_mul pollInterval_pos).mp hge
      rw [Nat.mul_comm] at hle
      omega
    exact hless

/-- Only the last poll can see anything but a running child in time. -/
theorem eq_of_not_goesOn (h : LastPoll timeout polls n) (hi : i < pollCount timeout polls)
    (hstops : ¬ GoesOn timeout (polls.poll i)) : i = n := by
  rw [h.pollCount_eq] at hi
  by_contra hne
  exact hstops (h.goesOn i (by omega))

theorem eq (h : LastPoll timeout polls n) (h' : LastPoll timeout polls i) : i = n := by
  apply h.eq_of_not_goesOn _ h'.stops
  rw [h'.pollCount_eq]
  exact i.lt_succ_self

end LastPoll

theorem not_goesOn_of_eq {seen : TryWait} (h : (polls.poll i).tryWait = seen)
    (hseen : seen ≠ .running) : ¬ GoesOn timeout (polls.poll i) := by
  intro hgoes
  rw [hgoes.1] at h
  exact hseen h.symm

theorem lastWaited_status_eq_ok {poll : Poll} {status : ExitStatus} :
    (lastWaited poll).status = .ok status ↔ poll.tryWait = .exited status := by
  rw [lastWaited]
  cases poll.tryWait <;> simp

theorem waitForChild_status_eq_ok {status : ExitStatus} :
    (waitForChild timeout polls 0).status = .ok status ↔
      ∃ i, (polls.poll i).tryWait = .exited status ∧
        ∀ j < i, GoesOn timeout (polls.poll j) := by
  obtain ⟨n, hn⟩ := exists_lastPoll timeout polls
  rw [hn.status_eq, lastWaited_status_eq_ok]
  constructor
  · intro hexited
    exact ⟨n, hexited, hn.goesOn⟩
  · intro h
    obtain ⟨i, hexited, hgoes⟩ := h
    have hi : LastPoll timeout polls i := ⟨hgoes, not_goesOn_of_eq hexited nofun⟩
    rw [← hn.eq hi]
    exact hexited

theorem superviseChild_of_error {request : CommandRequest} {child : Child}
    (h : (waitForChild request.timeout child.polls 0).status = .error ()) :
    (superviseChild request child).1 = .error () := by
  unfold superviseChild
  split
  · dsimp only
    rw [h]
    rfl
  · rfl

/-- The loop of an accepted timeout makes a bounded number of polls. It returns a status
exactly if a poll reports it before anything else has ended the wait: an exit that a poll
sees is reported, and a poll that finds the child running too late or for nobody is the
last one and leaves no result. -/
theorem waitForChild_ends (C : AcceptedConfig) (polls : Polls) :
    pollCount C.timeout polls ≤ C.timeout ⌈/⌉ pollInterval + 1 ∧
    pollCount C.timeout polls ≤ 30001 ∧
    (∀ status, (waitForChild C.timeout polls 0).status = .ok status ↔
      ∃ i, (polls.poll i).tryWait = .exited status ∧
        ∀ j < i, GoesOn C.timeout (polls.poll j)) ∧
    (∀ i < pollCount C.timeout polls, ∀ status, (polls.poll i).tryWait = .exited status →
      (waitForChild C.timeout polls 0).status = .ok status) ∧
    (∀ i < pollCount C.timeout polls, (polls.poll i).tryWait = .running →
      C.timeout ≤ (polls.poll i).elapsed ∨ (polls.poll i).cancelled = true →
      pollCount C.timeout polls = i + 1 ∧ (waitForChild C.timeout polls 0).status = .error () ∧
      ∀ prepared source stdout stderr,
        (superviseChild (commandRequest C.toCommandConfig prepared source)
          ⟨stdout, stderr, polls⟩).1 = .error ()) := by
  obtain ⟨n, hn⟩ := exists_lastPoll C.timeout polls
  have hcount := hn.pollCount_eq
  have hbound := hn.le_ceilDiv
  refine ⟨?_, ?_, ?_, ?_, ?_⟩
  · omega
  · have hlimit := (ceilDiv_le_iff_le_mul pollInterval_pos).mpr C.timeout_le
    omega
  · intro status
    exact waitForChild_status_eq_ok
  · intro i hi status hexited
    have hlast := hn.eq_of_not_goesOn hi (not_goesOn_of_eq hexited nofun)
    rw [hn.status_eq, lastWaited_status_eq_ok, ← hlast]
    exact hexited
  · intro i hi hrunning hlate
    have hstops : ¬ GoesOn C.timeout (polls.poll i) := by
      intro hgoes
      obtain ⟨-, htime, hcaller⟩ := hgoes
      rcases hlate with hdeadline | hcancelled
      · omega
      · rw [hcaller] at hcancelled
        contradiction
    have hlast := hn.eq_of_not_goesOn hi hstops
    have herror : (waitForChild C.timeout polls 0).status = .error () := by
      rw [hn.status_eq, ← hlast, lastWaited, hrunning]
    refine ⟨?_, herror, ?_⟩
    · rw [hcount, hlast]
    · intro prepared source stdout stderr
      apply superviseChild_of_error
      rw [C.commandRequest_timeout]
      exact herror

/-- The child's exit has been seen, or it has been killed and waited for. -/
def Reaped (polls : Polls) (calls : List ChildCall) : Prop :=
  (∃ i < calls.count .tryWait, ∃ status, (polls.poll i).tryWait = .exited status) ∨
    (.kill ∈ calls ∧ .wait ∈ calls)

/-- Every child that a run spawns is reaped when the run returns. What the run returns and
what it does to the child is decided by `superviseChild`. -/
def NoOrphan (request : CommandRequest) (h : History Access.Answer) (t : ℕ) : Prop :=
  ∀ process child,
    ⟨.spawn process, some child⟩ ∈ Program.transcript h t (runCommand request).run →
      Program.result h t (runCommand request).run = (superviseChild request child).1 ∧
      Reaped child.polls (superviseChild request child).2

theorem superviseChild_calls (request : CommandRequest) (child : Child) :
    (superviseChild request child).2 =
      if child.stdout.isSome ∧ child.stderr.isSome then
        (waitForChild request.timeout child.polls 0).calls
      else [] := by
  unfold superviseChild
  split
  · rename_i hout herr
    rw [hout, herr]
    rfl
  · rename_i hnone
    refine (if_neg ?_).symm
    intro h
    obtain ⟨hout, herr⟩ := h
    obtain ⟨stdout, hout⟩ := Option.isSome_iff_exists.mp hout
    obtain ⟨stderr, herr⟩ := Option.isSome_iff_exists.mp herr
    exact hnone stdout stderr hout herr

/-- After the loop only a failed last poll leaves the child alone. -/
theorem reaped_waitForChild_iff (h : LastPoll timeout polls n) :
    Reaped polls (waitForChild timeout polls 0).calls ↔ (polls.poll n).tryWait ≠ .failed := by
  have hcount : (waitForChild timeout polls 0).calls.count .tryWait = n + 1 := h.pollCount_eq
  rw [Reaped, hcount, h.waitForChild_eq]
  constructor
  · intro hreaped hfailed
    rcases hreaped with hexited | hkilled
    · obtain ⟨i, hi, status, hexited⟩ := hexited
      have hlast : i = n :=
        h.eq_of_not_goesOn (by rw [h.pollCount_eq]; exact hi) (not_goesOn_of_eq hexited nofun)
      rw [hlast, hfailed] at hexited
      contradiction
    · have hkill := hkilled.1
      rw [lastWaited, hfailed] at hkill
      simp at hkill
  · intro hseen
    cases hpoll : (polls.poll n).tryWait with
    | failed => exact absurd hpoll hseen
    | exited status => exact Or.inl ⟨n, n.lt_succ_self, status, hpoll⟩
    | running =>
      rw [lastWaited, hpoll]
      exact Or.inr ⟨by simp, by simp⟩

theorem reaped_superviseChild_iff (request : CommandRequest) (child : Child) :
    Reaped child.polls (superviseChild request child).2 ↔
      child.stdout.isSome ∧ child.stderr.isSome ∧
        ∀ i, (∀ j < i, GoesOn request.timeout (child.polls.poll j)) →
          (child.polls.poll i).tryWait ≠ .failed := by
  rw [superviseChild_calls, ← and_assoc]
  split_ifs with hpipes
  · obtain ⟨n, hn⟩ := exists_lastPoll request.timeout child.polls
    rw [reaped_waitForChild_iff hn]
    constructor
    · intro hseen
      refine ⟨hpipes, ?_⟩
      intro i hgoes hfailed
      have hi : LastPoll request.timeout child.polls i := ⟨hgoes, not_goesOn_of_eq hfailed nofun⟩
      rw [hn.eq hi] at hfailed
      exact hseen hfailed
    · intro h
      exact h.2 n hn.goesOn
  · constructor
    · intro hreaped
      simp [Reaped] at hreaped
    · intro h
      exact absurd h.1 hpipes

/-- A run reaps the child it has spawned exactly if it gets both pipes of it and no call
of `try_wait` that the loop makes fails. -/
theorem noOrphan_iff (request : CommandRequest) (h : History Access.Answer) (t : ℕ) :
    NoOrphan request h t ↔ ∀ process child,
      ⟨.spawn process, some child⟩ ∈ Program.transcript h t (runCommand request).run →
        child.stdout.isSome ∧ child.stderr.isSome ∧
          ∀ i, (∀ j < i, GoesOn request.timeout (child.polls.poll j)) →
            (child.polls.poll i).tryWait ≠ .failed := by
  rw [NoOrphan]
  refine forall₂_congr (fun process child => ?_)
  refine imp_congr_right (fun hspawn => ?_)
  rw [reaped_superviseChild_iff, and_iff_right (result_runCommand_of_spawn hspawn)]

/-- A child whose first `try_wait` fails. -/
def unseenChild : Child where
  stdout := some []
  stderr := some []
  polls := ⟨fun i => ⟨.failed, i * pollInterval, false⟩, fun i => by
    dsimp only
    rw [Nat.succ_mul]⟩

def unseenAnswers : Oracle Access.Answer
  | .spawn _ => some unseenChild
  | access => printingAnswers access

/-- It is neither killed nor waited for. -/
theorem unseenChild_orphaned : ¬ NoOrphan printingRequest (fun _ => unseenAnswers) 0 := by
  intro hnone
  have hspawn : ⟨.spawn ⟨bytes "/bin/resolver", ["name"], OrderedMap.empty⟩, some unseenChild⟩ ∈
      Program.transcript (fun _ => unseenAnswers) 0 (runCommand printingRequest).run :=
    spawn_mem_transcript.mpr ⟨rfl, rfl, rfl⟩
  obtain ⟨-, -, hseen⟩ := (noOrphan_iff _ _ _).mp hnone _ _ hspawn
  exact hseen 0 (fun j hj => absurd hj j.not_lt_zero) rfl

end LensoSecrets.CommandProvider
